import Nctusde.EmulatorKernel.Init
import Nctusde.Library.Memory
import Nctusde.Library.Simulation

namespace Nctusde.EmulatorKernel.PerSector

open BlockLayer Library Library.Blocks Library.Memory Network UdpServer Wire

/-- The memory of each skb from its `data` pointer on. -/
abbrev Skbs := ℕ → ℕ → UInt8

structure Cursor where
  currentSkb : ℕ
  skb : ℕ
  bytesRemainingInSkbData : ℕ
  skbDataOffset : ℕ

structure Copy where
  skb : ℕ
  skbDataOffset : ℕ
  bufOffset : ℕ
  size : ℕ

def Copy.covers (b : ℕ) (copy : Copy) : Prop :=
  copy.bufOffset ≤ b ∧ b < copy.bufOffset + copy.size

instance (b : ℕ) (copy : Copy) : Decidable (copy.covers b) := inferInstanceAs (Decidable (_ ∧ _))

/-- The next skb is taken once the one at hand is used up. -/
def Cursor.refill (header : ℕ) (c : Cursor) : Cursor :=
  if c.bytesRemainingInSkbData = 0 then ⟨c.currentSkb + 1, c.currentSkb, SECTOR_SIZE, header⟩ else c

theorem Cursor.refill_pos (header : ℕ) (c : Cursor) :
    0 < (c.refill header).bytesRemainingInSkbData := by
  unfold Cursor.refill
  split
  · exact Nat.succ_pos 511
  · omega

/-- The copies made for what is left of a segment. Which they are depends on lengths
alone. -/
def copySegment (header : ℕ) (c : Cursor) (bufOffset size : ℕ) : List Copy × Cursor :=
  if size = 0 then ([], c)
  else if size ≤ (c.refill header).bytesRemainingInSkbData then
    ([⟨(c.refill header).skb, (c.refill header).skbDataOffset, bufOffset, size⟩],
      { c.refill header with
        bytesRemainingInSkbData := (c.refill header).bytesRemainingInSkbData - size
        skbDataOffset := (c.refill header).skbDataOffset + size })
  else
    let n := (c.refill header).bytesRemainingInSkbData
    let rest := copySegment header
      { c.refill header with
        bytesRemainingInSkbData := 0
        skbDataOffset := (c.refill header).skbDataOffset + n } (bufOffset + n) (size - n)
    (⟨(c.refill header).skb, (c.refill header).skbDataOffset, bufOffset, n⟩ :: rest.1, rest.2)
termination_by size
decreasing_by
  have := c.refill_pos header
  omega

def copySegments (header : ℕ) (c : Cursor) : List ℕ → List (List Copy)
  | [] => []
  | size :: sizes =>
    let copies := copySegment header c 0 size
    copies.1 :: copySegments header copies.2 sizes

/-- The copies `nctuss_emudisk_transfer` makes, segment by segment. -/
def copies (header : ℕ) (req : Request) : List (List Copy) :=
  copySegments header ⟨0, 0, 0, 0⟩ (req.segments.map List.length)

def writeCopy (buf : Bytes) (skbs : Skbs) (copy : Copy) : Skbs :=
  Function.update skbs copy.skb
    (blit (skbs copy.skb) copy.skbDataOffset ((buf.drop copy.bufOffset).take copy.size))

def readCopy (skbs : Skbs) (buf : ℕ → UInt8) (copy : Copy) : ℕ → UInt8 :=
  blit buf copy.bufOffset (slice (skbs copy.skb) copy.skbDataOffset copy.size)

def writeSegments (skbs : Skbs) : List Bytes → List (List Copy) → Skbs
  | segment :: segments, copies :: rest =>
    writeSegments (copies.foldl (writeCopy segment) skbs) segments rest
  | _, _ => skbs

def readSegments (skbs : Skbs) : List Bytes → List (List Copy) → List Bytes
  | segment :: segments, copies :: rest =>
    slice (copies.foldl (readCopy skbs) fun j ↦ segment.getD j 0) 0 segment.length ::
      readSegments skbs segments rest
  | _, _ => []

def transferWrite (req : Request) (skbs : Skbs) : Skbs :=
  writeSegments skbs req.segments (copies NctussEmuRequest.size req)

def transferRead (req : Request) (skbs : Skbs) : List Bytes :=
  readSegments skbs req.segments (copies NctussEmuReply.size req)

/-- The copies of `size` bytes from `bufOffset` on, to and from position `p` of the
sectors; none crosses a sector. -/
inductive Tiles (header : ℕ) : ℕ → ℕ → ℕ → List Copy → Prop
  | nil (p bufOffset : ℕ) : Tiles header p bufOffset 0 []
  | cons {p bufOffset n size : ℕ} {copies : List Copy} : 0 < n →
      p % SECTOR_SIZE + n ≤ SECTOR_SIZE → Tiles header (p + n) (bufOffset + n) size copies →
      Tiles header p bufOffset (n + size)
        (⟨p / SECTOR_SIZE, header + p % SECTOR_SIZE, bufOffset, n⟩ :: copies)

structure Cursor.At (header p : ℕ) (c : Cursor) : Prop where
  position : c.currentSkb * SECTOR_SIZE = p + c.bytesRemainingInSkbData
  loaded : c.bytesRemainingInSkbData ≠ 0 → c.skb + 1 = c.currentSkb ∧
    c.bytesRemainingInSkbData ≤ SECTOR_SIZE ∧
    c.skbDataOffset + c.bytesRemainingInSkbData = header + SECTOR_SIZE

variable {header p bufOffset size : ℕ} {c : Cursor} {ops : List Copy} {skbs : Skbs}

theorem Cursor.At.refill (h : c.At header p) : (c.refill header).At header p := by
  unfold Cursor.refill
  split
  · rename_i h0
    have hp := h.position
    refine ⟨?_, fun _ ↦ ⟨rfl, le_rfl, rfl⟩⟩
    dsimp only
    rw [h0] at hp
    rw [Nat.add_mul, hp]
    omega
  · exact h

theorem Cursor.At.place (h : c.At header p) (h0 : c.bytesRemainingInSkbData ≠ 0) :
    c.skb = p / SECTOR_SIZE ∧ c.skbDataOffset = header + p % SECTOR_SIZE ∧
      p % SECTOR_SIZE + c.bytesRemainingInSkbData = SECTOR_SIZE := by
  obtain ⟨hskb, hle, hoffset⟩ := h.loaded h0
  have hp := h.position
  rw [SECTOR_SIZE] at *
  omega

theorem Cursor.At.advance (h : c.At header p) (h0 : c.bytesRemainingInSkbData ≠ 0) {n : ℕ}
    (hn : n ≤ c.bytesRemainingInSkbData) :
    Cursor.At header (p + n) { c with
      bytesRemainingInSkbData := c.bytesRemainingInSkbData - n
      skbDataOffset := c.skbDataOffset + n } := by
  obtain ⟨hskb, hle, hoffset⟩ := h.loaded h0
  have hp := h.position
  refine ⟨?_, fun _ ↦ ⟨hskb, ?_, ?_⟩⟩
  all_goals
    dsimp only
    omega

theorem copySegment_tiles (header : ℕ) (size : ℕ) : ∀ (c : Cursor) (p bufOffset : ℕ),
    c.At header p → Tiles header p bufOffset size (copySegment header c bufOffset size).1 ∧
      (copySegment header c bufOffset size).2.At header (p + size) := by
  induction size using Nat.strong_induction_on with
  | _ size ih =>
    intro c p bufOffset h
    have hrefill := h.refill
    have hpos := c.refill_pos header
    obtain ⟨hskb, hoffset, hroom⟩ := hrefill.place hpos.ne'
    rw [copySegment]
    split
    · rename_i h0
      rw [h0]
      exact ⟨.nil p bufOffset, h⟩
    split
    · rename_i hle
      refine ⟨?_, hrefill.advance hpos.ne' hle⟩
      rw [hskb, hoffset]
      exact .cons (by omega) (by omega) (.nil _ _)
    · rename_i hlt
      dsimp only
      have hnext := hrefill.advance hpos.ne' le_rfl
      rw [Nat.sub_self] at hnext
      obtain ⟨htiles, hat⟩ := ih (size - (c.refill header).bytesRemainingInSkbData) (by omega) _
        (p + (c.refill header).bytesRemainingInSkbData)
        (bufOffset + (c.refill header).bytesRemainingInSkbData) hnext
      have hsize : (c.refill header).bytesRemainingInSkbData +
          (size - (c.refill header).bytesRemainingInSkbData) = size := by omega
      refine ⟨?_, ?_⟩
      · have := Tiles.cons hpos hroom.le htiles
        rwa [hsize, ← hskb, ← hoffset] at this
      · rwa [Nat.add_assoc, hsize] at hat

namespace Tiles

variable {segment : Bytes} {buf : ℕ → UInt8} {b : ℕ}

theorem sector_pos : 0 < SECTOR_SIZE := Nat.succ_pos 511

theorem write (h : Tiles header p bufOffset size ops) (hfit : bufOffset + size ≤ segment.length) :
    flat header SECTOR_SIZE (ops.foldl (writeCopy segment) skbs) =
      blit (flat header SECTOR_SIZE skbs) p ((segment.drop bufOffset).take size) := by
  induction h generalizing skbs with
  | nil => simp
  | @cons p bufOffset n size ops _ hn _ ih =>
    have hlen : ((segment.drop bufOffset).take n).length = n := by simp; omega
    rw [List.foldl_cons, ih (by omega), writeCopy, flat_update sector_pos (by rwa [hlen]),
      List.take_add, List.drop_drop, ← blit_append, hlen]

theorem read (h : Tiles header p bufOffset size ops) : ops.foldl (readCopy skbs) buf =
    blit buf bufOffset (slice (flat header SECTOR_SIZE skbs) p size) := by
  induction h generalizing buf with
  | nil => simp
  | @cons p bufOffset n size ops _ hn _ ih =>
    rw [List.foldl_cons, ih, readCopy, ← slice_flat sector_pos hn, slice_add, ← blit_append,
      slice_length]

theorem within (h : Tiles header p bufOffset size ops) : ∀ copy ∈ ops,
    bufOffset ≤ copy.bufOffset ∧ copy.bufOffset + copy.size ≤ bufOffset + size ∧
      header ≤ copy.skbDataOffset ∧
      copy.skbDataOffset + copy.size ≤ header + SECTOR_SIZE := by
  induction h with
  | nil => simp
  | cons hpos hn _ ih =>
    rw [List.forall_mem_cons]
    refine ⟨by dsimp only; omega, fun copy hcopy ↦ ?_⟩
    have := ih copy hcopy
    omega

theorem once (h : Tiles header p bufOffset size ops) (h0 : bufOffset ≤ b)
    (hb : b < bufOffset + size) :
    (ops.filter (Copy.covers b ·)).length = 1 := by
  induction h with
  | nil => omega
  | @cons p bufOffset n size ops hpos hn hrest ih =>
    rw [List.filter_cons]
    split
    · rename_i hcov
      have hcov := of_decide_eq_true hcov
      rw [List.length_cons, List.filter_eq_nil_iff.mpr, List.length_nil]
      intro copy hcopy hcov'
      have hcov' := of_decide_eq_true hcov'
      have := (hrest.within copy hcopy).1
      have := hcov.2
      have := hcov'.1
      dsimp only at *
      omega
    · rename_i hcov
      apply ih
      · by_contra hlt
        exact hcov (decide_eq_true ⟨h0, show b < bufOffset + n by omega⟩)
      · omega

theorem skbs_iff (h : Tiles header p bufOffset size ops) (i : ℕ) :
    (∃ copy ∈ ops, copy.skb = i) ↔ ∃ q, p ≤ q ∧ q < p + size ∧ q / SECTOR_SIZE = i := by
  induction h with
  | nil =>
    constructor
    · rintro ⟨_, hmem, -⟩
      cases hmem
    · rintro ⟨q, h0, h1, -⟩
      omega
  | @cons p bufOffset n size ops hpos hn _ ih =>
    rw [List.exists_mem_cons_iff, ih]
    constructor
    · rintro (rfl | ⟨q, h0, h1, hq⟩)
      · exact ⟨p, le_rfl, by omega, rfl⟩
      · exact ⟨q, by omega, by omega, hq⟩
    · rintro ⟨q, h0, h1, rfl⟩
      by_cases hq : q < p + n
      · left
        obtain ⟨k, rfl⟩ := Nat.exists_eq_add_of_le h0
        exact (div_eq_of_within sector_pos hn (by omega)).1.symm
      · exact .inr ⟨q, by omega, by omega, rfl⟩

end Tiles

theorem Cursor.at_start (header : ℕ) : Cursor.At header 0 ⟨0, 0, 0, 0⟩ :=
  ⟨rfl, fun h ↦ absurd rfl h⟩

theorem copySegments_length (header : ℕ) (c : Cursor) (sizes : List ℕ) :
    (copySegments header c sizes).length = sizes.length := by
  induction sizes generalizing c with
  | nil => rfl
  | cons size sizes ih => rw [copySegments, List.length_cons, List.length_cons, ih]

theorem copySegments_tiles {sizes : List ℕ} (h : c.At header p) {j : ℕ} (hj : j < sizes.length) :
    ∃ ops, (copySegments header c sizes)[j]? = some ops ∧
      Tiles header (p + (sizes.take j).sum) 0 sizes[j] ops := by
  induction sizes generalizing c p j with
  | nil => exact absurd hj (Nat.not_lt_zero j)
  | cons size sizes ih =>
    obtain ⟨htiles, hat⟩ := copySegment_tiles header size c p 0 h
    cases j with
    | zero => exact ⟨_, rfl, htiles⟩
    | succ j =>
      obtain ⟨ops, hops, ht⟩ := ih hat (Nat.lt_of_succ_lt_succ hj)
      refine ⟨ops, hops, ?_⟩
      rwa [List.take_succ_cons, List.sum_cons, List.getElem_cons_succ, ← Nat.add_assoc]

theorem flat_writeSegments (segments : List Bytes) (h : c.At header p) :
    flat header SECTOR_SIZE
        (writeSegments skbs segments (copySegments header c (segments.map List.length))) =
      gather (flat header SECTOR_SIZE skbs) p segments := by
  induction segments generalizing c p skbs with
  | nil => rfl
  | cons segment segments ih =>
    obtain ⟨htiles, hat⟩ := copySegment_tiles header segment.length c p 0 h
    rw [List.map_cons, copySegments, writeSegments, ih hat, gather, htiles.write (by omega),
      List.drop_zero, List.take_length]

theorem readSegments_eq (segments : List Bytes) (h : c.At header p) :
    readSegments skbs segments (copySegments header c (segments.map List.length)) =
      scatter (flat header SECTOR_SIZE skbs) p segments := by
  induction segments generalizing c p with
  | nil => rfl
  | cons segment segments ih =>
    obtain ⟨htiles, hat⟩ := copySegment_tiles header segment.length c p 0 h
    have hslice := slice_blit_same (fun j ↦ segment.getD j 0) 0
      (slice (flat header SECTOR_SIZE skbs) p segment.length)
    rw [slice_length] at hslice
    rw [List.map_cons, copySegments, readSegments, ih hat, htiles.read, hslice, scatter]

/-- Every byte of every segment is copied once, inside the data of the first `k` skbs. -/
structure CopiesOnce (header k : ℕ) (req : Request) : Prop where
  segments : (copies header req).length = req.segments.length
  once : ∀ (j : ℕ) (ops : List Copy) (segment : Bytes), (copies header req)[j]? = some ops →
    req.segments[j]? = some segment →
      (∀ b < segment.length, (ops.filter (Copy.covers b ·)).length = 1) ∧
      ∀ copy ∈ ops, copy.bufOffset + copy.size ≤ segment.length ∧
        header ≤ copy.skbDataOffset ∧ copy.skbDataOffset + copy.size ≤ header + SECTOR_SIZE
  skbs : ∀ i, (∃ ops ∈ copies header req, ∃ copy ∈ ops, copy.skb = i) ↔ i < k

theorem exists_segment {sizes : List ℕ} {q : ℕ} (h : q < sizes.sum) : ∃ j, ∃ hj : j < sizes.length,
    (sizes.take j).sum ≤ q ∧ q < (sizes.take j).sum + sizes[j] := by
  induction sizes generalizing q with
  | nil => exact absurd h (Nat.not_lt_zero q)
  | cons size sizes ih =>
    rw [List.sum_cons] at h
    by_cases hq : q < size
    · exact ⟨0, Nat.succ_pos _, Nat.zero_le _, by simpa using hq⟩
    · obtain ⟨j, hj, h0, h1⟩ := ih (q := q - size) (by omega)
      refine ⟨j + 1, Nat.succ_lt_succ hj, ?_⟩
      rw [List.take_succ_cons, List.sum_cons, List.getElem_cons_succ]
      omega

theorem copiesOnce (header : ℕ) {k : ℕ} {req : Request} (hk : req.bytes = k * SECTOR_SIZE) :
    CopiesOnce header k req := by
  have htiles {j : ℕ} (hj : j < (req.segments.map List.length).length) :=
    copySegments_tiles (Cursor.at_start header) hj
  have hlen : (copies header req).length = req.segments.length := by
    rw [copies, copySegments_length, List.length_map]
  refine ⟨hlen, fun j ops segment hops hsegment ↦ ?_, fun i ↦ ?_⟩
  · obtain ⟨hj, rfl⟩ := List.getElem?_eq_some_iff.mp hsegment
    obtain ⟨ops', hops', ht⟩ := htiles (j := j) (by rwa [List.length_map])
    obtain rfl : ops' = ops := Option.some.inj (hops'.symm.trans hops)
    rw [List.getElem_map] at ht
    refine ⟨fun b hb ↦ ht.once (Nat.zero_le b) (by omega), fun copy hcopy ↦ ?_⟩
    have := ht.within copy hcopy
    omega
  · constructor
    · rintro ⟨ops, hops, hskb⟩
      obtain ⟨j, hj, rfl⟩ := List.mem_iff_getElem.mp hops
      have hj' : j < (req.segments.map List.length).length := by
        rwa [List.length_map, ← hlen]
      obtain ⟨ops', hops', ht⟩ := htiles hj'
      obtain ⟨_, rfl⟩ := List.getElem?_eq_some_iff.mp hops'
      obtain ⟨q, -, hq, rfl⟩ := (ht.skbs_iff i).mp hskb
      have hsum : ((req.segments.map List.length).take j).sum +
          (req.segments.map List.length)[j] ≤ k * SECTOR_SIZE := by
        have hsplit : req.bytes = _ := congrArg List.sum
          (List.take_append_drop j (req.segments.map List.length)).symm
        rw [List.sum_append, List.drop_eq_getElem_cons hj', List.sum_cons] at hsplit
        omega
      rw [Nat.div_lt_iff_lt_mul Tiles.sector_pos]
      omega
    · intro hi
      have hq : i * SECTOR_SIZE < (req.segments.map List.length).sum := by
        rw [Request.bytes] at hk
        rw [hk]
        exact Nat.mul_lt_mul_of_pos_right hi Tiles.sector_pos
      obtain ⟨j, hj, h0, h1⟩ := exists_segment hq
      obtain ⟨ops, hops, ht⟩ := htiles hj
      exact ⟨ops, List.mem_of_getElem? hops, (ht.skbs_iff i).mpr
        ⟨i * SECTOR_SIZE, by omega, by omega, Nat.mul_div_cancel _ Tiles.sector_pos⟩⟩

end Nctusde.EmulatorKernel.PerSector

import Nctusde.Ramdisk.EndOfDevice
import Nctusde.Ramdisk.Progress
import Nctusde.BlockLayer

namespace Nctusde.Ramdisk

open BlockLayer Library Library.Linearization Library.Memory Wire

theorem Emudisk.announce_data (d : Emudisk) (c : ℤ) : (d.announce c).1.data = d.data := by
  unfold announce
  dsimp only
  split <;> rfl

theorem Emudisk.submitSized_data {d d' : Emudisk} {o : Option ℕ} {now c : ℤ} {req : Request}
    {wake : Bool} (h : d.submitSized o now req = .ok (d', c, wake)) :
    d'.data = (d.transferWrite req).data := by
  cases o with
  | none => cases h
  | some k =>
    unfold submitSized at h
    dsimp only at h
    split at h
    · cases h
    split at h
    · cases h
    split at h
    · cases h
    simp only [Except.ok.injEq, Prod.mk.injEq] at h
    obtain ⟨rfl, -, -⟩ := h
    dsimp only
    rw [announce_data]
    unfold transferWrite
    cases req.dataDir <;> rfl

theorem Emudisk.submit_data {d d' : Emudisk} {now c : ℤ} {req : Request} {wake : Bool}
    (h : d.submit now req = .ok (d', c, wake)) : d'.data = (d.transferWrite req).data :=
  submitSized_data h

/-- The request ends within the addresses of 32 bits. -/
def Addressable (req : Request) : Prop := req.pos * SECTOR_SIZE + req.bytes ≤ 2 ^ 32

theorem copyIn_eq (data : ℕ → UInt8) {offset : ℕ} {buf : Bytes}
    (h : offset + buf.length ≤ 2 ^ 32) : copyIn data offset buf = blit data offset buf := by
  induction buf generalizing data offset with
  | nil => exact (blit_nil data offset).symm
  | cons b buf ih =>
    rw [List.length_cons] at h
    rw [copyIn, Nat.mod_eq_of_lt (show offset < 2 ^ 32 by omega), ih _ (by omega), update_eq_blit]
    exact blit_append data offset [b] buf

theorem transferIn_eq (data : ℕ → UInt8) {offset : ℕ} {segments : List Bytes}
    (h : offset + (segments.map List.length).sum ≤ 2 ^ 32) :
    transferIn data (offset % 2 ^ 32) segments = blit data offset segments.flatten := by
  induction segments generalizing data offset with
  | nil => exact (blit_nil data offset).symm
  | cons segment segments ih =>
    rw [List.map_cons, List.sum_cons] at h
    have hfirst : copyIn data (offset % 2 ^ 32) segment = blit data offset segment := by
      rcases segment with _ | ⟨b, buf⟩
      · exact (blit_nil data offset).symm
      · rw [List.length_cons] at h
        rw [Nat.mod_eq_of_lt (by omega)]
        exact copyIn_eq data (by rw [List.length_cons]; omega)
    rw [transferIn, hfirst, Nat.mod_add_mod, ih _ (by omega), blit_append, List.flatten_cons]

theorem Addressable.write {req : Request} (h : Addressable req) (data : ℕ → UInt8) :
    transferIn data (transferOffset req) req.segments =
      blit data (req.pos * SECTOR_SIZE) req.content := transferIn_eq data h

theorem Addressable.read {req : Request} (h : Addressable req) (data : ℕ → UInt8) :
    (transferOut data (transferOffset req) req.segments).flatten =
      slice data (req.pos * SECTOR_SIZE) req.bytes := by
  rw [transferOut_copied, transferOffset, copied_eq, List.map_map]
  refine List.map_congr_left fun i hi ↦ ?_
  have hi : i < req.bytes := List.mem_range.mp hi
  rw [Addressable] at h
  rw [Function.comp, Nat.mod_eq_of_lt (by omega)]

namespace System

/-- What the block layer sees of a turn: the requests it gave away, and those it got back. -/
def seen (s s' : System) : List (Event ℕ Request (Option Bytes)) :=
  (s'.submitted.drop s.submitted.length).map (fun p ↦ .invoke p.1.tag p.1) ++
    (s'.completed.drop s.completed.length).map fun c ↦
      .respond c.req.tag (resultOf c.req c.segments)

theorem seen_of {s s' : System} {submitted : List (Request × ℤ)} {completed : List Completion}
    (hs : s'.submitted = s.submitted ++ submitted) (hc : s'.completed = s.completed ++ completed) :
    seen s s' = submitted.map (fun p ↦ .invoke p.1.tag p.1) ++
      completed.map fun c ↦ .respond c.req.tag (resultOf c.req c.segments) := by
  rw [seen, hs, hc, List.drop_left, List.drop_left]

/-- Writes have taken effect when they were submitted, reads take effect when they complete. -/
structure Linear (initial : ℕ → UInt8) (s : System) (log : List (Event ℕ Request (Option Bytes)))
    (ps : List (ℕ × Request × Option Bytes)) : Prop where
  linearizes : Linearizes sectorStore initial log ps s.disk.data
  invoked : ∀ p ∈ s.submitted, .invoke p.1.tag p.1 ∈ log
  known : ∀ p ∈ ps, ∃ q ∈ s.submitted, p.1 = q.1.tag ∧ p.2.1 = q.1
  writes : ∀ p ∈ s.submitted, p.1.dataDir = .write → (p.1.tag, p.1, none) ∈ ps
  reads : ∀ p ∈ ps, p.2.1.dataDir = .read → ∃ c ∈ s.completed, c.req = p.2.1

variable {initial : ℕ → UInt8} {s s' : System} {log : List (Event ℕ Request (Option Bytes))}
  {ps : List (ℕ × Request × Option Bytes)} {n speed now : ℤ} {req : Request}

theorem Linear.unknown (h : Linear initial s log ps)
    (hfresh : req.tag ∉ s.submitted.map (·.1.tag)) : req.tag ∉ ps.map (·.1) := by
  intro hmem
  obtain ⟨p, hp, heq⟩ := List.mem_map.mp hmem
  obtain ⟨q, hq, htag, -⟩ := h.known p hp
  exact hfresh (List.mem_map.mpr ⟨q, hq, htag.symm.trans heq⟩)

theorem Linear.submit (h : Linear initial s log ps) (haddr : Addressable req)
    (hfresh : req.tag ∉ s.submitted.map (·.1.tag)) {d : Emudisk} {c : ℤ} {wake : Bool}
    (hok : s.disk.submit now req = .ok (d, c, wake)) :
    ∃ ps, Linear initial { s with disk := d, submitted := s.submitted ++ [(req, c)] }
      (log ++ [.invoke req.tag req]) ps := by
  have hnew := h.unknown hfresh
  have hl := h.linearizes.invoke req hnew
  have hdata := Emudisk.submit_data hok
  have hinvoked : ∀ p ∈ s.submitted ++ [(req, c)],
      .invoke p.1.tag p.1 ∈ log ++ [.invoke req.tag req] := by
    intro p hp
    rcases List.mem_append.mp hp with hp | hp
    · exact List.mem_append_left _ (h.invoked p hp)
    · rw [List.mem_singleton.mp hp]
      exact List.mem_append_right _ (List.mem_singleton_self _)
  have hknown : ∀ p ∈ ps, ∃ q ∈ s.submitted ++ [(req, c)], p.1 = q.1.tag ∧ p.2.1 = q.1 := by
    intro p hp
    obtain ⟨q, hq, heq⟩ := h.known p hp
    exact ⟨q, List.mem_append_left _ hq, heq⟩
  unfold Emudisk.transferWrite at hdata
  cases hdir : req.dataDir with
  | read =>
    rw [hdir] at hdata
    refine ⟨ps, ⟨hdata ▸ hl, hinvoked, hknown, fun p hp hwrite ↦ ?_, h.reads⟩⟩
    rcases List.mem_append.mp hp with hp | hp
    · exact h.writes p hp hwrite
    · rw [List.mem_singleton.mp hp] at hwrite
      exact DataDir.noConfusion (hdir.symm.trans hwrite)
  | write =>
    have htake := hl.take (List.mem_append_right _ (List.mem_singleton_self _)) hnew
    rw [sectorStore_write hdir] at htake
    rw [hdir] at hdata
    dsimp only at hdata
    rw [haddr.write] at hdata
    refine ⟨ps ++ [(req.tag, req, none)],
      ⟨hdata ▸ htake, hinvoked, fun p hp ↦ ?_, fun p hp hwrite ↦ ?_, fun p hp hread ↦ ?_⟩⟩
    · rcases List.mem_append.mp hp with hp | hp
      · exact hknown p hp
      · rw [List.mem_singleton.mp hp]
        exact ⟨(req, c), List.mem_append_right _ (List.mem_singleton_self _), rfl, rfl⟩
    · rcases List.mem_append.mp hp with hp | hp
      · exact List.mem_append_left _ (h.writes p hp hwrite)
      · rw [List.mem_singleton.mp hp]
        exact List.mem_append_right _ (List.mem_singleton_self _)
    · rcases List.mem_append.mp hp with hp | hp
      · exact h.reads p hp hread
      · rw [List.mem_singleton.mp hp] at hread
        exact DataDir.noConfusion (hdir.symm.trans hread)

theorem Invariant.not_completed (h : Invariant n speed s now) {c : ℤ}
    (hpending : (req, c) ∈ s.disk.pending) : ∀ x ∈ s.completed, x.req ≠ req := by
  rintro x hx rfl
  have hnodup := (h.submitted.map (·.1.tag)).nodup_iff.mp h.tags
  rw [List.map_append, List.map_map] at hnodup
  exact (List.nodup_append.mp hnodup).2.2 _ (List.mem_map_of_mem hpending) _
    (List.mem_map_of_mem hx) rfl

theorem Linear.complete (h : Linear initial s log ps) (hi : Invariant n speed s now)
    (haddr : ∀ p ∈ s.submitted, Addressable p.1) {i : ℕ} {t : ℤ}
    (hnext : s.disk.nextResponseIndex t = some i) (hreq : (s.disk.channels i).request = some req) :
    ∃ c ps, (s.complete i req t).completed = s.completed ++ [c] ∧
      Linear initial (s.complete i req t)
        (log ++ [.respond c.req.tag (resultOf c.req c.segments)]) ps := by
  obtain ⟨hlt, ⟨hopen, -⟩, -⟩ := Emudisk.nextResponseIndex_spec hnext
  have hpending : (req, s.disk.completionTime i) ∈ s.disk.pending :=
    Emudisk.mem_pending.mpr ⟨i, hlt, hopen, hreq, rfl⟩
  have hmem := hi.submitted.mem_iff.mpr (List.mem_append_left _ hpending)
  have hnot := hi.not_completed hpending
  cases hdir : req.dataDir with
  | write =>
    refine ⟨_, ps, rfl, ⟨?_, fun p hp ↦ List.mem_append_left _ (h.invoked p hp), h.known, h.writes,
      fun p hp hread ↦ ?_⟩⟩
    · rw [resultOf_write hdir]
      exact h.linearizes.respond (h.writes _ hmem hdir)
    · obtain ⟨c, hc, heq⟩ := h.reads p hp hread
      exact ⟨c, List.mem_append_left _ hc, heq⟩
  | read =>
    have hnew : req.tag ∉ ps.map (·.1) := by
      intro hin
      obtain ⟨p, hp, heq⟩ := List.mem_map.mp hin
      obtain ⟨q, hq, htag, hop⟩ := h.known p hp
      obtain rfl : q = (req, s.disk.completionTime i) :=
        List.inj_on_of_nodup_map hi.tags hq hmem (htag.symm.trans heq)
      obtain ⟨c, hc, hcreq⟩ := h.reads p hp (hop ▸ hdir)
      exact hnot c hc (hcreq.trans hop)
    have htake := h.linearizes.take (h.invoked _ hmem) hnew
    rw [sectorStore_read hdir] at htake
    refine ⟨_,
      ps ++ [(req.tag, req, some (slice s.disk.data (req.pos * SECTOR_SIZE) req.bytes))], rfl,
      ⟨?_, fun p hp ↦ List.mem_append_left _ (h.invoked p hp),
      fun p hp ↦ ?_, fun p hp hwrite ↦ List.mem_append_left _ (h.writes p hp hwrite),
      fun p hp hread ↦ ?_⟩⟩
    · rw [resultOf_read hdir]
      dsimp only
      rw [hdir]
      dsimp only
      rw [(haddr _ hmem).read]
      exact htake.respond (List.mem_append_right _ (List.mem_singleton_self _))
    · rcases List.mem_append.mp hp with hp | hp
      · exact h.known p hp
      · rw [List.mem_singleton.mp hp]
        exact ⟨_, hmem, rfl, rfl⟩
    · rcases List.mem_append.mp hp with hp | hp
      · obtain ⟨c, hc, heq⟩ := h.reads p hp hread
        exact ⟨c, List.mem_append_left _ hc, heq⟩
      · rw [List.mem_singleton.mp hp]
        exact ⟨_, List.mem_append_right _ (List.mem_singleton_self _), rfl⟩

def Linearized (initial : ℕ → UInt8) (s : System) (log : List (Event ℕ Request (Option Bytes))) :
    Prop :=
  (∀ p ∈ s.submitted, Addressable p.1) → ∃ ps, Linear initial s log ps

theorem Linearized.same (h : Linearized initial s log) (hs : s'.submitted = s.submitted)
    (hc : s'.completed = s.completed) (hd : s'.disk.data = s.disk.data) :
    Linearized initial s' log := by
  intro haddr
  rw [hs] at haddr
  obtain ⟨ps, hl⟩ := h haddr
  exact ⟨ps, ⟨hd ▸ hl.linearizes, hs ▸ hl.invoked, hs ▸ hl.known, hs ▸ hl.writes, hc ▸ hl.reads⟩⟩

theorem Linearized.strategyLoop (h : Linearized initial s log) {queue : List Request}
    (hoff : s.Offers queue) (wake : Bool) :
    (s.strategyLoop wake queue).wp clock.contract (fun _ ↦ True) (fun r _ ↦ ∃ submitted,
      r.1.submitted = s.submitted ++ submitted ∧ r.1.completed = s.completed ∧
        Linearized initial r.1 (log ++ submitted.map fun p ↦ .invoke p.1.tag p.1)) now := by
  induction queue generalizing s now wake log with
  | nil =>
    rintro -
    refine ⟨trivial, fun t now' _ ↦ ⟨[], (List.append_nil _).symm, rfl, ?_⟩⟩
    rw [List.map_nil, List.append_nil]
    exact h
  | cons req queue ih =>
    rintro -
    refine ⟨trivial, fun t now' _ ↦ ?_⟩
    have hfresh : req.tag ∉ s.submitted.map (·.1.tag) := fun hmem ↦
      (List.nodup_append.mp hoff.fresh).2.2 _ hmem _ List.mem_cons_self rfl
    dsimp only [Program.bind]
    rw [if_neg (not_not.mpr (hoff.fs req List.mem_cons_self).1), Program.bind_eq, Program.wp_bind]
    generalize hsub : s.disk.submit t req = result
    rcases result with trap | ⟨d, c, w⟩
    · trivial
    have h' : Linearized initial { s with disk := d, submitted := s.submitted ++ [(req, c)] }
        (log ++ [.invoke req.tag req]) := by
      intro haddr
      obtain ⟨ps, hl⟩ := h fun p hp ↦ haddr p (List.mem_append_left _ hp)
      exact hl.submit (haddr (req, c) (List.mem_append_right _ (List.mem_singleton_self _))) hfresh
        hsub
    dsimp only [record, Program.wp]
    split
    · exact ⟨[(req, c)], rfl, rfl, h'.same rfl rfl rfl⟩
    · refine Program.wp_mono (fun r now' hr ↦ ?_) (ih h' hoff.tail _)
      obtain ⟨submitted, hs, hc, hl⟩ := hr
      refine ⟨(req, c) :: submitted, hs.trans (List.append_assoc ..), hc, ?_⟩
      rw [List.append_assoc] at hl
      exact hl

theorem Linearized.strategy (h : Linearized initial s log) {queue : List Request}
    (hoff : s.Offers queue) :
    (s.strategy queue).wp clock.contract (fun _ ↦ True)
      (fun s' _ ↦ Linearized initial s' (log ++ seen s s')) now := by
  rw [System.strategy, Program.bind_eq, Program.wp_bind]
  refine Program.wp_mono (fun r now' hr ↦ ?_) (h.strategyLoop hoff false)
  obtain ⟨submitted, hs, hc, hl⟩ := hr
  have hseen : seen s r.1 = submitted.map fun p ↦ .invoke p.1.tag p.1 := by
    rw [seen_of hs (hc.trans (List.append_nil _).symm), List.map_nil, List.append_nil]
  rw [← hseen] at hl
  dsimp only
  split
  · exact hl.same rfl rfl rfl
  · exact hl

theorem Linearized.unseen (h : Linearized initial s log) (hs : s'.submitted = s.submitted)
    (hc : s'.completed = s.completed) (hd : s'.disk.data = s.disk.data) :
    Linearized initial s' (log ++ seen s s') := by
  rw [seen_of (hs.trans (List.append_nil _).symm) (hc.trans (List.append_nil _).symm), List.map_nil,
    List.map_nil, List.append_nil, List.append_nil]
  exact h.same hs hc hd

theorem Linearized.processNext (h : Linearized initial s log) (hi : Invariant n speed s now)
    (t : ℤ) : (s.processNext t).wp clock.contract (fun _ ↦ True)
      (fun s' _ ↦ Linearized initial s' (log ++ seen s s')) now := by
  unfold System.processNext
  split
  · rename_i i hnext
    split
    · trivial
    rename_i req hreq
    split
    · trivial
    rintro -
    refine ⟨trivial, fun t' now' _ haddr ↦ ?_⟩
    obtain ⟨ps, hl⟩ := h haddr
    obtain ⟨c, ps', hc, hl'⟩ := hl.complete hi haddr hnext hreq
    have hseen : seen s (s.complete i req t) = _ := seen_of (List.append_nil _).symm hc
    rw [List.map_nil, List.nil_append, List.map_singleton] at hseen
    rw [← hseen] at hl'
    exact ⟨ps', { hl' with }⟩
  · split
    · rintro -
      exact ⟨trivial, fun t' now' _ ↦ h.unseen rfl rfl rfl⟩
    · refine h.unseen rfl rfl ?_
      show s.disk.findNext.data = s.disk.data
      unfold Emudisk.findNext
      split <;> rfl

theorem Linearized.turn (h : Linearized initial s log) (hi : Invariant n speed s now)
    {p : Prog System} (hp : Enters s p) : p.wp clock.contract (fun _ ↦ True)
      (fun s' _ ↦ Linearized initial s' (log ++ seen s s')) now := by
  cases hp with
  | strategy _ _ hoff => exact h.strategy hoff
  | @softirqDone req queue _ _ hoff =>
    unfold System.softirqDone
    dsimp only
    split
    · exact Linearized.strategy (s := { s with
        disk := { s.disk with requestInflight := s.disk.requestInflight - 1 }
        completing := s.completing.eraseP fun r ↦ r.tag = req.tag
        queueStopped := false }) (h.same rfl rfl rfl) ⟨hoff.fs, hoff.fresh⟩
    · exact h.unseen rfl rfl rfl
  | start => exact h.unseen rfl rfl rfl
  | woken => exact h.unseen rfl rfl rfl
  | interrupted => exact h.unseen rfl rfl rfl
  | timer =>
    rintro -
    exact ⟨trivial, fun _ now' _ ↦ h.unseen rfl rfl rfl⟩
  | expired =>
    rintro -
    refine ⟨trivial, fun t now' _ ↦ ?_⟩
    dsimp only [Program.bind]
    split
    · trivial
    · exact h.unseen rfl rfl rfl
  | processing => exact h.processNext hi _

/-- The driver on a disk that holds `initial` when it is loaded. -/
def turnsFrom (initial : ℕ → UInt8) (n speed : ℤ) : Turns Op Ans Trap System ℤ where
  start s now := (turns n speed).start s now ∧ s.disk.data = initial
  enters := Enters
  drifts _ _ := False

/-- Seen from the block layer the disk does one request at a time, somewhere between its submission
and its completion, although writes are copied when they are submitted, reads when they complete,
and up to `disk_channels` requests are under way. -/
theorem disk_linearizable (hn : 1 ≤ n) (hrates : ExactRates speed)
    (h : (turnsFrom initial n speed).Observed clock seen s now log)
    (haddr : ∀ p ∈ s.submitted, Addressable p.1) : Linearizable sectorStore initial log := by
  have hstart : ∀ s now, (turnsFrom initial n speed).start s now →
      ∃ v, now = v ∧ Invariant n speed s v ∧ Linearized initial s [] := by
    rintro s _ ⟨⟨hs, rfl⟩, rfl⟩
    refine ⟨0, rfl, hs.invariant (by omega), fun _ ↦ ⟨[], .nil, ?_, ?_, ?_, ?_⟩⟩
    · rw [hs.submitted]
      exact fun p hp ↦ absurd hp List.not_mem_nil
    · exact fun p hp ↦ absurd hp List.not_mem_nil
    · rw [hs.submitted]
      exact fun p hp ↦ absurd hp List.not_mem_nil
    · exact fun p hp ↦ absurd hp List.not_mem_nil
  have hturn (s : System) (now : ℤ) (log : List (Event ℕ Request (Option Bytes))) (p : Prog System)
      (hi : Invariant n speed s now ∧ Linearized initial s log) (hp : Enters s p) :=
    Program.wp_and (hi.1.turn hrates hp) (hi.2.turn hi.1 hp)
  obtain ⟨_, -, -, hl⟩ := h.invariant (Program.keeps_contract clock)
    (fun _ _ _ (hd : False) ↦ hd.elim) hstart hturn
  obtain ⟨ps, hl⟩ := hl haddr
  exact ⟨ps, _, hl.linearizes⟩

def watched (n speed : ℤ) (cues : List Cue) :
    Option ((System × ℤ) × List (Event ℕ Request (Option Bytes))) :=
  Turns.watch cued answer seen cues (loaded n speed) 0

theorem watched_observed {cues : List Cue} (h : watched n speed cues = some ((s, now), log)) :
    ∃ v, (turnsFrom (fun _ ↦ 0) n speed).Observed clock seen s v log := by
  have hstart : (turnsFrom (fun _ ↦ 0) n speed).Observed punctual seen (loaded n speed) 0 [] :=
    .start ⟨⟨loaded_isStart n speed, rfl⟩, rfl⟩
  have hobserved := Turns.watch_observed (fun _ _ _ ↦ cued_enters) plays_punctual hstart h
  obtain ⟨v, hv, -⟩ := hobserved.realised punctual_clock (fun s v h ↦ ⟨v, h, le_rfl⟩)
    fun _ _ _ (hd : False) ↦ hd.elim
  exact ⟨v, hv⟩

def shortWrite : Request := ⟨0, .fs, .write, 5, [[1, 2, 3], [4]]⟩

def shortRead : Request := ⟨1, .fs, .read, 5, [[0, 0], [0, 0]]⟩

/-- They end the other way round. -/
def twoEvents : List (Event ℕ Request (Option Bytes)) :=
  [.invoke 0 shortWrite, .invoke 1 shortRead, .respond 1 (some [1, 2, 3, 4]), .respond 0 none]

theorem watched_two : ∃ r ∈ watched 2 1000
    (.task :: .strategy [shortWrite, shortRead] :: List.replicate 8 .task),
    r.2 = twoEvents ∧ ∀ p ∈ r.1.1.submitted, p.1.pos * SECTOR_SIZE + p.1.bytes ≤ 2 ^ 32 := by
  decide +kernel

/-- The read has the bytes of the write, which takes effect first. -/
theorem disk_linearizable_two : ∃ s now,
    (turnsFrom (fun _ ↦ 0) 2 1000).Observed clock seen s now twoEvents ∧
      Linearizable sectorStore (fun _ ↦ 0) twoEvents := by
  obtain ⟨⟨⟨s, now⟩, log⟩, hs, hlog, haddr⟩ := watched_two
  obtain ⟨v, h⟩ := watched_observed hs
  rw [show log = twoEvents from hlog] at h
  exact ⟨s, v, h, disk_linearizable (by decide) exactRates_default h haddr⟩

end System

end Nctusde.Ramdisk

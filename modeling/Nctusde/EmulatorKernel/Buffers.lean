import Nctusde.EmulatorKernel.Queue
import Nctusde.EmulatorKernel.Sessions

namespace Nctusde.EmulatorKernel

open BlockLayer Library Library.Memory Network UdpServer Wire

def BUFFER_SIZE : ℕ := MAX_REQUEST_SECTOR_NUM * SECTOR_SIZE

/-- The front of the mapping, which `emudisk_init` leaves to the network driver. -/
def SKB_REGION : ℕ := (512 * 8 + 128) * 2048 * 8

def memoryStorageSize : ℕ := 0x19000000

/-- Where in the mapping `emudisk_init` puts a byte of a buffer. -/
def bufferAddress (slot offset : ℕ) : ℕ :=
  MAX_REQUEST_SECTOR_NUM * SECTOR_SIZE * slot + SKB_REGION + offset

variable {E : Trap → Prop} {d d' : Emudisk} {s s' : System} {u : Unit} {slot : ℕ}

theorem bufferAddress_inside {offset : ℕ} (hslot : slot < MAX_DISK_REQUESTS_IN_PARALLEL)
    (hoffset : offset < BUFFER_SIZE) :
    SKB_REGION ≤ bufferAddress slot offset ∧ bufferAddress slot offset < memoryStorageSize := by
  simp only [bufferAddress, SKB_REGION, memoryStorageSize, BUFFER_SIZE, MAX_REQUEST_SECTOR_NUM,
    SECTOR_SIZE, MAX_DISK_REQUESTS_IN_PARALLEL] at *
  omega

theorem bufferAddress_inj {slot' offset offset' : ℕ} (hoffset : offset < BUFFER_SIZE)
    (hoffset' : offset' < BUFFER_SIZE)
    (h : bufferAddress slot offset = bufferAddress slot' offset') :
    slot = slot' ∧ offset = offset' := by
  simp only [bufferAddress, BUFFER_SIZE, MAX_REQUEST_SECTOR_NUM, SECTOR_SIZE] at *
  omega

namespace Emudisk

def buffer (d : Emudisk) (slot : ℕ) : ℕ → UInt8 := (d.requestIdToReqMapping slot).data

structure Fills (slot : ℕ) (d d' : Emudisk) : Prop where
  diskChannels : d'.diskChannels = d.diskChannels
  requestId : ∀ i, (d'.requestIdToReqMapping i).requestId = (d.requestIdToReqMapping i).requestId
  other : ∀ i, i ≠ slot → d'.buffer i = d.buffer i
  beyond : ∀ offset, BUFFER_SIZE ≤ offset → d'.buffer slot offset = d.buffer slot offset

/-- Entries in use keep their buffers and stay in use, and no buffer was written past its end. -/
structure Spares (d d' : Emudisk) : Prop where
  diskChannels : d'.diskChannels = d.diskChannels
  used : ∀ i, (d.requestIdToReqMapping i).requestId ≠ 0 →
    (d'.requestIdToReqMapping i).requestId ≠ 0 ∧ d'.buffer i = d.buffer i
  beyond : ∀ i offset, ¬ (i < d.count ∧ offset < BUFFER_SIZE) →
    d'.buffer i offset = d.buffer i offset

/-- A byte that has changed was in the buffer of an entry that was free. -/
structure Confined (d d' : Emudisk) : Prop where
  diskChannels : d'.diskChannels = d.diskChannels
  changed : ∀ i offset, d'.buffer i offset ≠ d.buffer i offset →
    (d.requestIdToReqMapping i).requestId = 0 ∧ i < d.count ∧ offset < BUFFER_SIZE

theorem Fills.refl (d : Emudisk) : d.Fills slot d :=
  ⟨rfl, fun _ ↦ rfl, fun _ _ ↦ rfl, fun _ _ ↦ rfl⟩

theorem Fills.trans {d'' : Emudisk} (h : d.Fills slot d') (h' : d'.Fills slot d'') :
    d.Fills slot d'' where
  diskChannels := h'.diskChannels.trans h.diskChannels
  requestId i := (h'.requestId i).trans (h.requestId i)
  other i hi := (h'.other i hi).trans (h.other i hi)
  beyond offset ho := (h'.beyond offset ho).trans (h.beyond offset ho)

theorem Spares.refl (d : Emudisk) : d.Spares d := ⟨rfl, fun _ hi ↦ ⟨hi, rfl⟩, fun _ _ _ ↦ rfl⟩

theorem Spares.trans {d'' : Emudisk} (h : d.Spares d') (h' : d'.Spares d'') : d.Spares d'' where
  diskChannels := h'.diskChannels.trans h.diskChannels
  used i hi := by
    obtain ⟨hi', hbuffer⟩ := h.used i hi
    obtain ⟨hi'', hbuffer'⟩ := h'.used i hi'
    exact ⟨hi'', hbuffer'.trans hbuffer⟩
  beyond i offset hout := by
    have hcount : d'.count = d.count := congrArg Int.toNat h.diskChannels
    exact (h'.beyond i offset (hcount ▸ hout)).trans (h.beyond i offset hout)

theorem Spares.confined (h : d.Spares d') : d.Confined d' where
  diskChannels := h.diskChannels
  changed i offset hne := by
    refine ⟨?_, not_not.mp fun hout ↦ hne (h.beyond i offset hout)⟩
    by_contra hused
    exact hne (congrFun (h.used i hused).2 offset)

theorem confined_of_eq (hc : d'.diskChannels = d.diskChannels) (h : ∀ i, d'.buffer i = d.buffer i) :
    d.Confined d' := ⟨hc, fun i offset hne ↦ absurd (congrFun (h i) offset) hne⟩

theorem buffer_withEntry {entry : RequestIdToReq} (h : entry.data = d.buffer slot) (i : ℕ) :
    (d.withEntry slot entry).buffer i = d.buffer i := by
  by_cases hi : i = slot
  · rw [hi, buffer, withEntry_same, h]
  · rw [buffer, withEntry_other _ _ hi, buffer]

theorem fills_withData {data : ℕ → UInt8}
    (h : ∀ offset, BUFFER_SIZE ≤ offset → data offset = d.buffer slot offset) :
    d.Fills slot (d.withData slot data) where
  diskChannels := rfl
  requestId i := by
    by_cases hi : i = slot
    · rw [withData, hi, withEntry_same]
    · rw [withData, withEntry_other _ _ hi]
  other i hi := by rw [buffer, withData, withEntry_other _ _ hi, buffer]
  beyond offset ho := by
    rw [buffer, withData, withEntry_same]
    exact h offset ho

theorem Fills.numbered (h : d.Fills slot d') : d.Fills slot d'.numbered :=
  ⟨h.diskChannels, h.requestId, h.other, h.beyond⟩

theorem fills_emulatorTransferData {dir : DataDir} {sectorNum offset : ℕ}
    (h : offset + SECTOR_SIZE ≤ BUFFER_SIZE) :
    (d.emulatorTransferData dir sectorNum slot offset).wp anything E
      (fun d' _ ↦ d.Fills slot d') u := by
  cases dir with
  | read =>
    simp only [emulatorTransferData, Program.bind_eq, Program.wp_bind]
    apply wp_communicateWithEmulator
    intro b u
    split
    · exact (Fills.refl d).numbered
    · refine (fills_withData fun o ho ↦ blit_out _ _ _ (.inr ?_)).numbered
      have hlength := List.length_take_le SECTOR_SIZE (b.drop NctussEmuReply.size)
      omega
  | write =>
    simp only [emulatorTransferData, Program.bind_eq, Program.wp_bind]
    apply wp_communicateWithEmulator
    exact fun _ _ ↦ (Fills.refl d).numbered

theorem fills_transferSectors {req : Request} (h : req.bytes ≤ BUFFER_SIZE) :
    (d.transferSectors req slot).wp anything E (fun d' _ ↦ d.Fills slot d') u := by
  apply Program.wp_foldlM_range fun _ d' _ ↦ d.Fills slot d'
  · intro k d' u hk hd
    refine Program.wp_mono (fun _ _ ↦ hd.trans) (fills_emulatorTransferData ?_)
    simp only [sectorCount, BUFFER_SIZE, MAX_REQUEST_SECTOR_NUM, SECTOR_SIZE] at *
    omega
  · exact .refl d

theorem fills_emulatorSubmitRequest {t : ℤ} {dir : DataDir} {sector count : ℕ} {id : UInt32} :
    (d.emulatorSubmitRequest t dir sector count id).wp anything E
      (fun d' _ ↦ d.Fills slot d') u := by
  rw [emulatorSubmitRequest, Program.bind_eq, Program.wp_bind]
  apply wp_communicateWithEmulator
  exact fun _ _ ↦ (Fills.refl d).numbered

theorem spares_of_put {entry : RequestIdToReq} (hslot : d.findRequestId 0 = some slot)
    (hdata : ∀ offset, BUFFER_SIZE ≤ offset → entry.data offset = d.buffer slot offset)
    (h : (d.withEntry slot entry).Fills slot d') : d.Spares d' := by
  obtain ⟨hlt, hfree⟩ := findRequestId_some hslot
  refine ⟨h.diskChannels, fun i hused ↦ ?_, fun i offset hout ↦ ?_⟩
  · have hi : i ≠ slot := fun heq ↦ hused (heq ▸ hfree)
    rw [h.requestId, withEntry_other _ _ hi, h.other i hi, buffer, withEntry_other _ _ hi]
    exact ⟨hused, rfl⟩
  · by_cases hi : i = slot
    · subst hi
      have ho : BUFFER_SIZE ≤ offset := not_lt.mp fun ho ↦ hout ⟨hlt, ho⟩
      rw [h.beyond offset ho, buffer, withEntry_same, hdata offset ho]
    · rw [h.other i hi, buffer, withEntry_other _ _ hi, buffer]

theorem Spares.takeUp (h : d.Spares d') (next : NextResponses) : d.Spares (d'.takeUp next).1 := by
  rw [Emudisk.takeUp]
  split
  · exact ⟨h.diskChannels, h.used, h.beyond⟩
  · exact h

theorem Spares.numbered (h : d.Spares d') : d.Spares d'.numbered :=
  ⟨h.diskChannels, h.used, h.beyond⟩

end Emudisk

namespace System

theorem spares_submit {now : ℤ} {req : Request} (h : req.bytes ≤ BUFFER_SIZE) :
    (s.submit now req).wp anything (fun _ ↦ True) (fun s' _ ↦ s.disk.Spares s'.disk) u := by
  unfold submit
  split
  · trivial
  split
  · trivial
  rw [Emudisk.putRequestIdToReqMapping]
  cases hslot : s.disk.findRequestId 0 with
  | none => trivial
  | some slot =>
    rw [Option.map_some, submitPut, submitSlot]
    split
    · trivial
    rw [Program.bind_eq, Program.wp_bind]
    refine Program.wp_mono
      (fun d u (hd : Emudisk.Fills slot _ d) ↦ ?_) Emudisk.fills_emulatorSubmitRequest
    rw [Program.bind_eq, Program.wp_bind]
    refine Program.wp_mono (fun d' u hd' ↦ ?_) (Emudisk.fills_transferSectors h)
    have hfills : Emudisk.Fills slot (s.disk.withEntry slot { s.disk.requestIdToReqMapping slot with
        requestId := s.disk.udpSendReplyId
        req := some req
        reqSectors := sectorCount req }) d' := by
      cases hdir : req.dataDir with
      | read =>
        rw [hdir] at hd
        exact hd.trans hd'
      | write =>
        rw [hdir] at hd
        refine (Emudisk.fills_withData fun o ho ↦ ?_).trans (hd.trans hd')
        have hlength := req.content_length
        rw [Request.content] at hlength
        rw [gather_eq]
        exact blit_out _ _ _ (.inr (by omega))
    have hput : s.disk.Spares d' := by
      refine Emudisk.spares_of_put hslot ?_ hfills
      exact fun _ _ ↦ rfl
    exact ⟨hput.diskChannels, hput.used, hput.beyond⟩

theorem spares_strategyLoop {queue : List Request} {b : Bool}
    (h : ∀ req ∈ queue, req.bytes ≤ BUFFER_SIZE) :
    (s.strategyLoop b queue).wp anything (fun _ ↦ True) (fun r _ ↦ s.disk.Spares r.1.disk) u := by
  induction queue generalizing s u b with
  | nil => exact fun _ ↦ ⟨trivial, fun _ _ _ ↦ .refl s.disk⟩
  | cons req queue ih =>
    obtain ⟨hreq, hqueue⟩ := List.forall_mem_cons.mp h
    refine fun _ ↦ ⟨trivial, fun now u _ ↦ ?_⟩
    dsimp only [Program.bind]
    rw [Program.bind_eq, Program.wp_bind]
    refine Program.wp_mono (fun s' u hs' ↦ ?_) (spares_submit hreq)
    split
    · exact hs'
    split
    · exact hs'
    · exact Program.wp_mono (fun _ _ ↦ hs'.trans) (ih hqueue)

theorem spares_strategy {queue : List Request} (h : ∀ req ∈ queue, req.bytes ≤ BUFFER_SIZE) :
    (s.strategy queue).wp anything (fun _ ↦ True) (fun s' _ ↦ s.disk.Spares s'.disk) u := by
  rw [strategy, Program.bind_eq, Program.wp_bind]
  refine Program.wp_mono (fun r u hr ↦ ?_) (spares_strategyLoop h)
  dsimp only
  split
  · rw [announce, Program.bind_eq, Program.wp_bind]
    refine Program.wp_mono (fun r' u hd ↦ ?_) wp_emulatorGetResponses_numbered
    obtain ⟨d', next⟩ := r'
    obtain rfl : d' = r.1.disk.numbered := hd
    exact hr.numbered.takeUp next
  · exact hr

def SameBuffers (s s' : System) : Prop :=
  s'.disk.diskChannels = s.disk.diskChannels ∧ ∀ i, s'.disk.buffer i = s.disk.buffer i

theorem sameBuffers_completeBatch {now : ℤ} :
    (s.completeBatch now).wp anything (fun _ ↦ True) (fun s' _ ↦ s.SameBuffers s') u := by
  apply Program.wp_foldlM_range fun _ (s' : System) _ ↦ s.SameBuffers s'
  · intro i s' u _ hs'
    rw [Emudisk.getRequestIdToReqMapping]
    cases hslot : s'.disk.findRequestId (s'.disk.nextResponseToReplyIds i) with
    | none => trivial
    | some slot =>
      have hget (j : ℕ) : (s'.disk.withEntry slot { s'.disk.requestIdToReqMapping slot with
          requestId := 0 }).buffer j = s'.disk.buffer j := Emudisk.buffer_withEntry (by rfl) j
      rw [Option.map_some, completeEntry]
      split
      · trivial
      split
      · trivial
      · exact ⟨hs'.1, fun j ↦ (hget j).trans (hs'.2 j)⟩
  · exact ⟨rfl, fun _ ↦ rfl⟩

theorem SameBuffers.replace (h : s.SameBuffers s') (next : NextResponses) :
    s.SameBuffers { s' with disk := s'.disk.numbered.replace next } := by
  rw [SameBuffers, Emudisk.replace]
  dsimp only
  split <;> exact h

theorem sameBuffers_findNext (h : s.SameBuffers s') :
    s'.findNext.wp anything (fun _ ↦ True) (fun s' _ ↦ s.SameBuffers s') u := by
  rw [findNext, Program.bind_eq, Program.wp_bind]
  refine Program.wp_mono (fun r u hd ↦ ?_) wp_emulatorGetResponses_numbered
  obtain ⟨d, next⟩ := r
  obtain rfl : d = s'.disk.numbered := hd
  have hnext := h.replace next
  dsimp only
  split
  · split
    · trivial
    refine fun _ ↦ ⟨trivial, fun t u _ ↦ ?_⟩
    dsimp only [Program.bind]
    split
    · exact hnext
    · exact hnext
  · exact hnext

theorem sameBuffers_processNext :
    s.processNext.wp anything (fun _ ↦ True) (fun s' _ ↦ s.SameBuffers s') u := by
  refine fun _ ↦ ⟨trivial, fun t u _ ↦ ?_⟩
  dsimp only [Program.bind]
  split
  · trivial
  split
  · trivial
  split
  · trivial
  rw [Program.bind_eq, Program.wp_bind]
  exact Program.wp_mono (fun s' u hs' ↦ sameBuffers_findNext hs') sameBuffers_completeBatch

theorem SameBuffers.confined (h : s.SameBuffers s') : s.disk.Confined s'.disk :=
  Emudisk.confined_of_eq h.1 h.2

theorem confined_turn {p : Prog System} (hp : Enters Usual s p) :
    p.wp anything (fun _ ↦ True) (fun s' _ ↦ s.disk.Confined s'.disk) u := by
  have hsame : s.disk.Confined s.disk := (Emudisk.Spares.refl s.disk).confined
  cases hp with
  | strategy _ _ hqueue =>
    exact Program.wp_mono (fun _ _ ↦ Emudisk.Spares.confined)
      (spares_strategy fun req hreq ↦ (hqueue req hreq).2)
  | softirqDone _ _ hqueue =>
    unfold softirqDone
    dsimp only
    split
    · exact Program.wp_mono (fun _ _ hs ↦ ⟨hs.confined.diskChannels, hs.confined.changed⟩)
        (spares_strategy fun req hreq ↦ (hqueue req hreq).2)
    · have hdone : s.disk.Confined { s.disk with requestInflight := s.disk.requestInflight - 1 } :=
        ⟨hsame.diskChannels, hsame.changed⟩
      exact hdone
  | start _ => exact hsame
  | woken _ => exact hsame
  | interrupted _ => exact hsame
  | timer _ => exact fun _ ↦ ⟨trivial, fun _ _ _ ↦ hsame⟩
  | expired _ => exact Program.wp_mono (fun _ _ ↦ SameBuffers.confined) sameBuffers_processNext
  | processing _ => exact Program.wp_mono (fun _ _ ↦ SameBuffers.confined) sameBuffers_processNext

end System

theorem reachable_channels {G : Handler World Op Ans} {n speed : ℕ} {w : World}
    (h : (turns System.Usual n speed).Reachable G s w) : s.disk.diskChannels = n := by
  obtain ⟨_, -, hchannels⟩ := h.invariant (keeps_anything G) (fun _ _ _ _ _ ↦ trivial)
    (I := fun (s : System) (_ : Unit) ↦ s.disk.diskChannels = n)
    (fun s w hs ↦ ⟨(), trivial, And.left hs |>.diskChannels⟩)
    fun s u p hs hp ↦ Program.wp_mono (fun _ _ hc ↦ hc.diskChannels.trans hs)
      (System.confined_turn hp)
  exact hchannels

/-- Whatever emulator, network and clock answer, only bytes of buffers that were free are written:
they lie in the mapping, behind the skbs, and belong to no buffer in use. -/
theorem buffers_confined {G : Handler World Op Ans} {n speed : ℕ} {w w' : World} {p : Prog System}
    (hn : n ≤ MAX_DISK_REQUESTS_IN_PARALLEL) (h : (turns System.Usual n speed).Reachable G s w)
    (hp : System.Enters System.Usual s p) (hrun : p.Runs G w (.ok s') w') (slot offset : ℕ)
    (hne : s'.disk.buffer slot offset ≠ s.disk.buffer slot offset) :
    (slot < n ∧ offset < BUFFER_SIZE) ∧
      (SKB_REGION ≤ bufferAddress slot offset ∧ bufferAddress slot offset < memoryStorageSize) ∧
      ∀ slot' offset', (s.disk.requestIdToReqMapping slot').requestId ≠ 0 → offset' < BUFFER_SIZE →
        bufferAddress slot' offset' ≠ bufferAddress slot offset := by
  have hconfined := (Program.wp_runs (keeps_anything G) trivial (System.confined_turn (u := ()) hp)
    hrun).1 s' rfl
  obtain ⟨_, -, hconfined⟩ := hconfined
  obtain ⟨hfree, hlt, hoffset⟩ := hconfined.changed slot offset hne
  rw [Emudisk.count, reachable_channels h, Int.toNat_natCast] at hlt
  refine ⟨⟨hlt, hoffset⟩, bufferAddress_inside (hlt.trans_le hn) hoffset, ?_⟩
  intro slot' offset' hused hoffset' heq
  obtain ⟨rfl, -⟩ := bufferAddress_inj hoffset' hoffset heq
  exact hused hfree

/-- A second write, while the first one is in use. -/
theorem buffers_confined_second : ∃ s w s' w', session System.Usual 2 0
    [.task, .strategy [writeAt 0 5]] = some (s, w) ∧
    continued System.Usual [.strategy [writeAt 1 9]] (s, w) = some (s', w') ∧
    s'.disk.buffer 1 511 ≠ s.disk.buffer 1 511 ∧
    bufferAddress 1 511 < memoryStorageSize ∧
    ∀ offset < BUFFER_SIZE, bufferAddress 0 offset ≠ bufferAddress 1 511 := by
  obtain ⟨⟨s, w⟩, hs, ⟨s', w'⟩, hs', hused, hne⟩ : ∃ r ∈ session System.Usual 2 0
      [.task, .strategy [writeAt 0 5]], ∃ r' ∈ continued System.Usual [.strategy [writeAt 1 9]] r,
      (r.1.disk.requestIdToReqMapping 0).requestId ≠ 0 ∧
        r'.1.disk.buffer 1 511 ≠ r.1.disk.buffer 1 511 := by decide +kernel
  obtain ⟨p, s₁, w₁, hp, hplay, hrest⟩ := Turns.play_cons hs'
  cases hrest
  obtain ⟨-, ⟨-, hinside⟩, hother⟩ := buffers_confined (by decide) (session_reachable hs)
    (System.cued_enters hp) (Program.play_runs (plays_reliable _) hplay) 1 511 hne
  exact ⟨s, w, _, _, hs, hs', hne, hinside, fun offset ↦ hother 0 offset hused⟩

end Nctusde.EmulatorKernel

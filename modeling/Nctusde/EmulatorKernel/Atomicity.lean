import Nctusde.EmulatorKernel.Queue
import Nctusde.EmulatorKernel.Sectors
import Nctusde.BlockLayer

namespace Nctusde.EmulatorKernel

open BlockLayer Library Library.Linearization Library.Memory Network Wire

namespace System

/-- What the block layer sees of a turn: the requests it gave away, and those it got back. -/
def seen (s s' : System) : List (Event UInt32 Request (Option Bytes)) :=
  (s'.submitted.drop s.submitted.length).map (fun p ↦ .invoke p.1 p.2) ++
    ((s'.completed.drop s.completed.length).map fun c ↦
      (c.requestId, resultOf c.req c.segments)).map fun r ↦ .respond r.1 r.2

/-- Since `s₀` requests were only added to the history. The mapping has requests of it, and so has
what was completed. -/
structure Recorded (s₀ s : System) : Prop where
  submitted : s₀.submitted <+: s.submitted
  completed : s₀.completed <+: s.completed
  slots : ∀ i < s.disk.count, (s.disk.requestIdToReqMapping i).requestId ≠ 0 → ∀ req,
    (s.disk.requestIdToReqMapping i).req = some req →
      ((s.disk.requestIdToReqMapping i).requestId, req) ∈ s.submitted
  done : ∀ c ∈ s.completed, (c.requestId, c.req) ∈ s.submitted

variable {s₀ s s' : System} {u : Unit} {req : Request}

theorem Recorded.same (h : Recorded s₀ s) (hs : s'.submitted = s.submitted)
    (hc : s'.completed = s.completed) (hd : s'.disk.diskChannels = s.disk.diskChannels)
    (hm : s'.disk.requestIdToReqMapping = s.disk.requestIdToReqMapping) : Recorded s₀ s' := by
  refine ⟨hs ▸ h.submitted, hc ▸ h.completed, ?_, ?_⟩
  · rw [Emudisk.count, hd, hm, hs]
    exact h.slots
  · rw [hs, hc]
    exact h.done

theorem takeUp_mapping (d : Emudisk) (next : NextResponses) :
    (d.takeUp next).1.requestIdToReqMapping = d.requestIdToReqMapping := by
  unfold Emudisk.takeUp
  split <;> rfl

theorem replace_mapping (d : Emudisk) (next : NextResponses) :
    (d.replace next).requestIdToReqMapping = d.requestIdToReqMapping := by
  unfold Emudisk.replace
  dsimp only
  split <;> rfl

theorem Recorded.takes (h : Recorded s₀ s) (ht : Takes req s s') : Recorded s₀ s' := by
  refine ⟨?_, ?_, fun i hi hne req' hreq ↦ ?_, fun c hc ↦ ?_⟩
  · rw [ht.submitted]
    exact h.submitted.trans (List.prefix_append _ _)
  · rw [ht.completed]
    exact h.completed
  · rw [ht.submitted]
    rcases ht.mapping i with heq | ⟨hid, hold⟩
    · obtain ⟨hid, hnew⟩ := Prod.mk.inj heq
      obtain rfl : req = req' := Option.some.inj (hnew.symm.trans hreq)
      exact List.mem_append_right _ (hid ▸ List.mem_singleton_self _)
    · rw [hid] at hne ⊢
      rw [hold] at hreq
      rw [Emudisk.count, ht.diskChannels] at hi
      exact List.mem_append_left _ (h.slots i hi hne req' hreq)
  · rw [ht.completed] at hc
    rw [ht.submitted]
    exact List.mem_append_left _ (h.done c hc)

theorem Recorded.strategyLoop (h : Recorded s₀ s) (b : Bool) (queue : List Request) :
    (s.strategyLoop b queue).wp anything (fun _ ↦ True) (fun r _ ↦ Recorded s₀ r.1) u := by
  induction queue generalizing s b u with
  | nil => exact fun _ ↦ ⟨trivial, fun _ _ _ ↦ h⟩
  | cons req queue ih =>
    refine fun _ ↦ ⟨trivial, fun now u _ ↦ ?_⟩
    dsimp only [Program.bind]
    rw [Program.bind_eq, Program.wp_bind]
    refine Program.wp_mono (fun s' u ht ↦ ?_) wp_submit_takes
    have h' := h.takes ht
    split
    · exact { h' with }
    split
    · exact h'
    · exact ih h' true

theorem Recorded.strategy (h : Recorded s₀ s) (queue : List Request) :
    (s.strategy queue).wp anything (fun _ ↦ True) (fun s' _ ↦ Recorded s₀ s') u := by
  rw [System.strategy, Program.bind_eq, Program.wp_bind]
  refine Program.wp_mono (fun r u hr ↦ ?_) (h.strategyLoop false queue)
  dsimp only
  split
  · rw [announce, Program.bind_eq, Program.wp_bind]
    refine Program.wp_mono (fun r' u hd ↦ ?_) wp_emulatorGetResponses_numbered
    obtain ⟨d, next⟩ := r'
    obtain rfl : d = r.1.disk.numbered := hd
    exact hr.same rfl rfl (SameBooks.takeUp r.1.disk.numbered next).diskChannels
      (takeUp_mapping r.1.disk.numbered next)
  · exact hr

theorem Recorded.completeEntry (h : Recorded s₀ s) (now : ℤ) {requestId : UInt32}
    (hid : requestId ≠ 0) :
    (s.completeEntry now requestId (s.disk.getRequestIdToReqMapping requestId)).wp anything
      (fun _ ↦ True) (fun s' _ ↦ Recorded s₀ s' ∧
        s'.disk.nextResponseToReplyIds = s.disk.nextResponseToReplyIds) u := by
  unfold Emudisk.getRequestIdToReqMapping
  rcases hslot : s.disk.findRequestId requestId with _ | slot
  · trivial
  obtain ⟨hlt, hfound⟩ := Emudisk.findRequestId_some hslot
  rw [Option.map_some, System.completeEntry]
  rcases hreq : (s.disk.requestIdToReqMapping slot).req with _ | req
  · trivial
  dsimp only
  split
  · trivial
  refine ⟨⟨h.submitted, h.completed.trans (List.prefix_append _ _), fun i hi hne req' hreq' ↦ ?_,
    fun c hc ↦ ?_⟩, rfl⟩
  · dsimp only at hne hreq' ⊢
    by_cases heq : i = slot
    · rw [heq, withEntry_same] at hne
      exact absurd rfl hne
    · rw [withEntry_other _ _ heq] at hne hreq' ⊢
      exact h.slots i hi hne req' hreq'
  · rcases List.mem_append.mp hc with hc | hc
    · exact h.done c hc
    · rw [List.mem_singleton.mp hc]
      exact hfound ▸ h.slots slot hlt (hfound ▸ hid) req hreq

theorem Recorded.processNext (h : Recorded s₀ s)
    (hids : ∀ i < s.disk.nextResponseToReplyNum, s.disk.nextResponseToReplyIds i ≠ 0) :
    s.processNext.wp anything (fun _ ↦ True) (fun s' _ ↦ Recorded s₀ s') u := by
  refine fun _ ↦ ⟨trivial, fun t u _ ↦ ?_⟩
  dsimp only [Program.bind]
  split
  · trivial
  split
  · trivial
  split
  · trivial
  rw [Program.bind_eq, Program.wp_bind]
  let kept (_ : ℕ) (s' : System) (_ : Unit) := Recorded s₀ s' ∧
    s'.disk.nextResponseToReplyIds = s.disk.nextResponseToReplyIds
  refine Program.wp_mono (Q := kept s.disk.nextResponseToReplyNum) (fun s' u hs' ↦ ?_) ?_
  · rw [System.findNext, Program.bind_eq, Program.wp_bind]
    refine Program.wp_mono (fun r u hd ↦ ?_) wp_emulatorGetResponses_numbered
    obtain ⟨d, next⟩ := r
    obtain rfl : d = s'.disk.numbered := hd
    have hr : Recorded s₀ { s' with disk := s'.disk.numbered.replace next } :=
      hs'.1.same rfl rfl (SameBooks.replace s'.disk.numbered next).diskChannels
        (replace_mapping s'.disk.numbered next)
    dsimp only
    split
    · split
      · trivial
      refine fun _ ↦ ⟨trivial, fun t u _ ↦ ?_⟩
      dsimp only [Program.bind]
      split
      · exact { hr with }
      · exact { hr with }
    · exact { hr with }
  · apply Program.wp_foldlM_range kept
    · rintro i s' u hi ⟨h', hsame⟩
      refine Program.wp_mono (fun s'' u hs ↦ ⟨hs.1, hs.2.trans hsame⟩) (h'.completeEntry t ?_)
      rw [hsame]
      exact hids i hi
    · exact ⟨h, rfl⟩

theorem Recorded.turn {P : Request → Prop} (h : Recorded s₀ s)
    (hids : ∀ i < s.disk.nextResponseToReplyNum, s.disk.nextResponseToReplyIds i ≠ 0)
    {p : Prog System} (hp : Enters P s p) :
    p.wp anything (fun _ ↦ True) (fun s' _ ↦ Recorded s₀ s') u := by
  cases hp with
  | strategy _ _ _ => exact h.strategy _
  | softirqDone _ _ _ =>
    unfold softirqDone
    dsimp only
    split
    · exact Recorded.strategy (s := { s with
        disk := { s.disk with requestInflight := s.disk.requestInflight - 1 }
        completing := s.completing.eraseP _
        queueStopped := false }) (h.same rfl rfl rfl rfl) _
    · exact h.same rfl rfl rfl rfl
  | start _ => exact h.same rfl rfl rfl rfl
  | woken _ => exact h.same rfl rfl rfl rfl
  | interrupted _ => exact h.same rfl rfl rfl rfl
  | timer _ => exact fun _ ↦ ⟨trivial, fun _ _ _ ↦ h.same rfl rfl rfl rfl⟩
  | expired _ => exact h.processNext hids
  | processing _ => exact h.processNext hids

end System

variable {initial : ℕ → UInt8} {history : List (UInt32 × Request)} {s s' : System} {w w' : Link}
  {v : Net} {n speed : ℕ} {log : List (Event UInt32 Request (Option Bytes))}

theorem storage_eq_after : storage initial history = sectorStore.after initial history := by
  refine congrArg (fun f ↦ history.foldl f initial) (funext fun mem ↦ funext fun p ↦ ?_)
  cases hdir : p.2.dataDir with
  | read => rw [sectorStore_read hdir]
  | write => rw [sectorStore_write hdir]

theorem Stores.outcome (h : Stores initial s w) {c : Completion} (hc : c ∈ s.completed)
    (hmem : (c.requestId, c.req) ∈ s.submitted) :
    (c.requestId, c.req, resultOf c.req c.segments) ∈ sectorStore.outcomes initial s.submitted := by
  cases hdir : c.req.dataDir with
  | read =>
    obtain ⟨⟨before, after, hsplit, hbytes⟩, -⟩ := h.completed c hc hdir
    rw [hsplit, resultOf_read hdir, hbytes, storage_eq_after]
    have hmem := mem_outcomes sectorStore initial c.requestId c.req before after
    rwa [sectorStore_read hdir] at hmem
  | write =>
    obtain ⟨before, after, hsplit⟩ := List.append_of_mem hmem
    rw [hsplit, resultOf_write hdir]
    have hmem := mem_outcomes sectorStore initial c.requestId c.req before after
    rwa [sectorStore_write hdir] at hmem

/-- A turn adds requests to the history and completes requests of it. -/
theorem Stores.linearizes (h : Stores initial s' w) (hr : System.Recorded s s')
    (hl : Linearizes sectorStore initial log (sectorStore.outcomes initial s.submitted)
      (sectorStore.after initial s.submitted)) :
    Linearizes sectorStore initial (log ++ System.seen s s')
      (sectorStore.outcomes initial s'.submitted) (sectorStore.after initial s'.submitted) := by
  obtain ⟨submitted, hsubmitted⟩ := hr.submitted
  obtain ⟨completed, hcompleted⟩ := hr.completed
  have hids := h.ids
  rw [← hsubmitted] at hids
  have hinvoked := hl.invokes hids
  rw [hsubmitted] at hinvoked
  rw [System.seen, ← hsubmitted, ← hcompleted, List.drop_left, List.drop_left, hsubmitted,
    ← List.append_assoc]
  refine hinvoked.responds fun r hmem ↦ ?_
  obtain ⟨c, hc, rfl⟩ := List.mem_map.mp hmem
  have hc' : c ∈ s'.completed := hcompleted ▸ List.mem_append_right _ hc
  exact ⟨c.req, h.outcome hc' (hr.done c hc')⟩

theorem observed_linearizes (hn : n ≤ MAX_DISK_REQUESTS_IN_PARALLEL)
    (h : (networkTurns System.Whole n speed initial).Observed networked System.seen s v log) :
    System.Recorded s s ∧ Linearizes sectorStore initial log
      (sectorStore.outcomes initial s.submitted) (sectorStore.after initial s.submitted) := by
  induction h with
  | @start s v hstart =>
    have hs := hstart.1
    refine ⟨⟨List.prefix_rfl, List.prefix_rfl, fun i hi hne ↦ absurd (hs.free i hi) hne, ?_⟩, ?_⟩
    · rw [hs.completed]
      exact fun c hc ↦ absurd hc List.not_mem_nil
    · rw [hs.submitted]
      exact .nil
  | @turn s s' v v' log p hobs hent hrun ih =>
    obtain ⟨w, -, hstores⟩ := reachable_stores hn hobs.reachable
    obtain ⟨w', -, hstores'⟩ := reachable_stores hn (hobs.reachable.turn hent hrun)
    obtain ⟨_, -, hr⟩ := (Program.wp_runs (keeps_anything networked) trivial
      (ih.1.turn (u := ()) hstores.batch hent) hrun).1 s' rfl
    exact ⟨⟨List.prefix_rfl, List.prefix_rfl, hr.slots, hr.done⟩, hstores'.linearizes hr ih.2⟩
  | drift _ _ ih => exact ih

/-- Seen from the block layer the emulated disk does one request at a time, between its submission
and its completion, whatever the network loses or duplicates, and however the batches of the
emulator are put together. -/
theorem emulated_linearizable (hn : n ≤ MAX_DISK_REQUESTS_IN_PARALLEL)
    (h : (networkTurns System.Whole n speed initial).Observed networked System.seen s v log) :
    Linearizable sectorStore initial log :=
  ⟨_, _, (observed_linearizes hn h).2⟩

theorem emulated_linearizable_two : ∃ s v log,
    (networkTurns System.Whole 2 1000 fun _ ↦ 0).Observed networked System.seen s v log ∧
      s.submitted = [(124, writeAt 0 5), (126, readAt 1 5)] ∧ s.completed ≠ [] ∧
        Linearizable sectorStore (fun _ ↦ 0) log := by
  obtain ⟨⟨s, w⟩, hs, hsubmitted, c, hc, -⟩ := read_over
  obtain ⟨v, h⟩ := session_networked (by decide) hs
  obtain ⟨log, hobs⟩ := h.observed System.seen
  exact ⟨s, v, log, hobs, hsubmitted, List.ne_nil_of_mem hc, emulated_linearizable (by decide) hobs⟩

end Nctusde.EmulatorKernel

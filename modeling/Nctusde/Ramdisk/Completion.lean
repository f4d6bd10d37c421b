import Nctusde.Ramdisk.Sessions

namespace Nctusde.Ramdisk

open BlockLayer Library Library.ForLoop Library.Table Wire

namespace Emudisk

variable {d d' : Emudisk} {now c : ℤ} {req : Request} {wake : Bool}

/-- The request a channel owes the block layer, with its completion time. -/
def busy (d : Emudisk) (i : ℕ) : Option (Request × ℤ) :=
  if (d.channels i).requestCompleted then none
  else (d.channels i).request.map (·, d.completionTime i)

def pending (d : Emudisk) : List (Request × ℤ) := entries d.busy d.count

theorem mem_pending {p : Request × ℤ} : p ∈ d.pending ↔ ∃ i < d.count, ¬ d.isCompleted i ∧
    (d.channels i).request = some p.1 ∧ d.completionTime i = p.2 := by
  obtain ⟨req, c⟩ := p
  rw [pending, mem_entries]
  refine exists_congr fun i ↦ and_congr_right fun _ ↦ ?_
  unfold busy isCompleted
  split <;> simp_all

structure Changes (d d' : Emudisk) (i : ℕ) (channel : Channel) : Prop where
  diskChannels : d'.diskChannels = d.diskChannels
  speedFactor : d'.speedFactor = d.speedFactor
  channels : d'.channels = Function.update d.channels i channel

namespace Changes

variable {i j : ℕ} {channel : Channel}

theorem count (h : Changes d d' i channel) : d'.count = d.count := by
  rw [Emudisk.count, Emudisk.count, h.diskChannels]

theorem self (h : Changes d d' i channel) : d'.channels i = channel := by
  rw [h.channels, Function.update_self]

theorem other (h : Changes d d' i channel) (hj : j ≠ i) : d'.channels j = d.channels j := by
  rw [h.channels, Function.update_of_ne hj]

theorem busy_other (h : Changes d d' i channel) (hj : j ≠ i) : d'.busy j = d.busy j := by
  simp only [busy, completionTime, h.other hj]

end Changes

theorem changes_assign (d : Emudisk) (i : ℕ) (channel : Channel) :
    Changes d (d.assign i channel) i channel := ⟨rfl, rfl, rfl⟩

theorem changes_complete (d : Emudisk) (i : ℕ) :
    Changes d (d.complete i) i { d.channels i with requestCompleted := true } :=
  changes_assign d i _

theorem Changes.transferWrite {i : ℕ} {channel : Channel} (h : Changes d d' i channel)
    (req : Request) : Changes d (d'.transferWrite req) i channel := by
  unfold Emudisk.transferWrite
  cases req.dataDir
  · exact h
  · exact ⟨h.diskChannels, h.speedFactor, h.channels⟩

theorem Changes.announce {i : ℕ} {channel : Channel} (h : Changes d d' i channel) (c : ℤ) :
    Changes d (d'.announce c).1 i channel := by
  unfold Emudisk.announce
  dsimp only
  split
  · exact ⟨h.diskChannels, h.speedFactor, h.channels⟩
  · exact h

theorem announce_requestInflight (d : Emudisk) (c : ℤ) :
    (d.announce c).1.requestInflight = d.requestInflight := by
  unfold announce
  dsimp only
  split <;> rfl

theorem transferWrite_requestInflight (d : Emudisk) (req : Request) :
    (d.transferWrite req).requestInflight = d.requestInflight := by
  unfold transferWrite
  cases req.dataDir <;> rfl

theorem submitSized_ok {o : Option ℕ} (h : d.submitSized o now req = .ok (d', c, wake)) :
    ∃ i k, o = some k ∧ d.emptySlot = some i ∧
      c = now + d.responseTime (d.isSequentialRequest req) req.dataDir k ∧ c ≤ LONG_MAX ∧
      Changes d d' i (.assigned req c) ∧ d'.requestInflight = d.requestInflight + 1 := by
  cases o with
  | none => cases h
  | some k =>
    unfold submitSized at h
    dsimp only at h
    split at h
    · cases h
    rename_i hc
    split at h
    · cases h
    rename_i i hi
    split at h
    · cases h
    simp only [Except.ok.injEq, Prod.mk.injEq] at h
    obtain ⟨rfl, rfl, -⟩ := h
    obtain ⟨h1, h2, h3⟩ := ((changes_assign d i (.assigned req _)).transferWrite req).announce _
    refine ⟨i, k, rfl, hi, rfl, not_lt.mp hc, ⟨h1, h2, h3⟩, ?_⟩
    dsimp only
    rw [announce_requestInflight, transferWrite_requestInflight]
    rfl

theorem submit_ok (h : d.submit now req = .ok (d', c, wake)) :
    ∃ i k, UdpServer.requestSizeIndex (toInt req.bytes) = some k ∧ d.emptySlot = some i ∧
      c = now + d.responseTime (d.isSequentialRequest req) req.dataDir k ∧ c ≤ LONG_MAX ∧
      Changes d d' i (.assigned req c) ∧ d'.requestInflight = d.requestInflight + 1 :=
  submitSized_ok h

theorem submitSized_trap {o : Option ℕ} {trap : Trap} (h : d.submitSized o now req = .error trap) :
    trap = .sizeClass ∨ trap = .overflow ∨ trap = .noEmptySlot ∨ trap = .pastEnd := by
  cases o with
  | none =>
    cases h
    exact .inl rfl
  | some k =>
    unfold submitSized at h
    dsimp only at h
    split at h
    · cases h
      exact .inr (.inl rfl)
    split at h
    · cases h
      exact .inr (.inr (.inl rfl))
    split at h
    · cases h
      exact .inr (.inr (.inr rfl))
    · cases h

theorem submitSized_ne_noEmptySlot (h : d.emptySlot ≠ none) (o : Option ℕ) :
    d.submitSized o now req ≠ .error .noEmptySlot := by
  obtain ⟨i, hi⟩ := Option.ne_none_iff_exists'.mp h
  cases o with
  | none => simp [submitSized]
  | some k =>
    unfold submitSized
    dsimp only
    split
    · simp
    rw [hi]
    dsimp only
    split <;> simp

theorem submit_ne_noEmptySlot (h : d.emptySlot ≠ none) : d.submit now req ≠ .error .noEmptySlot :=
  submitSized_ne_noEmptySlot h _

theorem emptySlot_spec {i : ℕ} (h : d.emptySlot = some i) :
    FirstMin d.isCompleted d.completionTime d.count i := by
  have hs := firstMin_spec d.isCompleted d.completionTime d.count
  rw [emptySlot] at h
  rwa [h] at hs

theorem nextResponseIndex_spec {i : ℕ} (h : d.nextResponseIndex now = some i) :
    FirstMin (fun i ↦ ¬ d.isCompleted i ∧ d.completionTime i < now) d.completionTime d.count i := by
  have hs := firstMin_spec (fun i ↦ ¬ d.isCompleted i ∧ d.completionTime i < now) d.completionTime
    d.count
  rw [nextResponseIndex] at h
  rwa [h] at hs

end Emudisk

/-- The scaled tables keep exact, non-negative values. -/
def ExactRates (speed : ℤ) : Prop :=
  0 ≤ speed ∧ ∀ j < 2, ∀ k < 8, UdpServer.responseTimeTableRandom j k / 1000 * speed < 2 ^ 31 ∧
    UdpServer.responseTimeTableSeq j k / 1000 * speed < 2 ^ 31

theorem Emudisk.responseTime_eq {d : Emudisk} (h : ExactRates d.speedFactor) (sequential : Bool)
    (dir : DataDir) {k : ℕ} (hk : k < 8) :
    0 ≤ d.responseTime sequential dir k ∧ d.responseTime sequential dir k =
      (if sequential then UdpServer.responseTimeTableSeq dir.code.toNat k
        else UdpServer.responseTimeTableRandom dir.code.toNat k) / 1000 * d.speedFactor := by
  have hlt : dir.code.toNat < 2 := by cases dir <;> decide
  obtain ⟨⟨hr, -⟩, hq, -⟩ := UdpServer.responseTime_bounds _ hlt k hk
  obtain ⟨hr', hq'⟩ := h.2 _ hlt k hk
  have hr0 := mul_nonneg hr h.1
  have hq0 := mul_nonneg hq h.1
  unfold Emudisk.responseTime
  cases sequential
  · rw [if_neg Bool.false_ne_true, toInt_of_fits (by omega) hr']
    exact ⟨hr0, rfl⟩
  · rw [if_pos rfl, toInt_of_fits (by omega) hq']
    exact ⟨hq0, rfl⟩

namespace System

/-- What holds of the driver whenever its lock is free or held by the processing
task; `now` is the last reading of the clock. -/
structure Invariant (n speed : ℤ) (s : System) (now : ℤ) : Prop where
  diskChannels : s.disk.diskChannels = n
  speedFactor : s.disk.speedFactor = speed
  held : ∀ i < s.disk.count, (s.disk.channels i).requestCompleted = false →
    (s.disk.channels i).request ≠ none
  given : ∀ i < s.disk.count, (s.disk.channels i).requestCompleted = true →
    ∀ req, (s.disk.channels i).request = some req → ∃ c ∈ s.completed, c.req = req
  submitted : s.submitted.Perm
    (s.disk.pending ++ s.completed.map fun c ↦ (c.req, c.completionTime))
  tags : (s.submitted.map (·.1.tag)).Nodup
  inflight : s.disk.requestInflight = s.disk.pending.length + s.completing.length
  bounded : s.disk.requestInflight ≤ n
  running : s.queueStopped = false → s.disk.requestInflight < n
  ordered : s.completed.Pairwise fun c c' ↦ c.completionTime ≤ c'.completionTime
  late : ∀ c ∈ s.completed, c.completionTime < c.now ∧ c.now ≤ now
  later : ∀ p ∈ s.disk.pending, ∀ c ∈ s.completed, c.completionTime ≤ p.2
  reading : ∀ t, s.task = .processing t → t ≤ now

variable {n speed : ℤ} {s : System} {now : ℤ}

theorem IsStart.invariant (h0 : 0 < n) (h : IsStart n speed s) :
    Invariant n speed s 0 := by
  have hb : s.disk.pending = [] := by
    rw [Emudisk.pending, List.eq_nil_iff_forall_not_mem]
    rintro p hp
    obtain ⟨i, hi, he⟩ := mem_entries.mp hp
    simp [Emudisk.busy, h.channels i hi] at he
  refine ⟨h.diskChannels, h.speedFactor, fun i hi hc ↦ ?_, fun i hi _ req hreq ↦ ?_, ?_, ?_, ?_, ?_,
    fun _ ↦ ?_, ?_, ?_, ?_, fun t ht ↦ ?_⟩
  · rw [h.channels i hi] at hc
    cases hc
  · rw [h.channels i hi] at hreq
    cases hreq
  · rw [h.submitted, hb, h.completed]
    rfl
  · rw [h.submitted]
    exact List.nodup_nil
  · rw [h.requestInflight, hb, h.completing]
    rfl
  · rw [h.requestInflight]
    exact h0.le
  · rw [h.requestInflight]
    exact h0
  · rw [h.completed]
    exact List.Pairwise.nil
  · rw [h.completed]
    simp
  · rw [hb]
    simp
  · rw [h.task] at ht
    cases ht

theorem Invariant.mono (h : Invariant n speed s now) {now' : ℤ} (hn : now ≤ now') :
    Invariant n speed s now' where
  __ := h
  late c hc := ⟨(h.late c hc).1, (h.late c hc).2.trans hn⟩
  reading t ht := (h.reading t ht).trans hn

theorem Invariant.withTask (h : Invariant n speed s now) (task : Task) (b : Bool)
    (ht : ∀ t, task = .processing t → t ≤ now) :
    Invariant n speed { s with task := task, tryProcessNextWithoutSleep := b } now where
  __ := h
  reading := ht

theorem Invariant.emptySlot (h : Invariant n speed s now) (hlt : s.disk.requestInflight < n) :
    s.disk.emptySlot ≠ none := by
  intro he
  have hs := firstMin_spec s.disk.isCompleted s.disk.completionTime s.disk.count
  rw [Emudisk.emptySlot] at he
  rw [he] at hs
  have hlen : s.disk.pending.length < s.disk.count := by
    have := h.inflight
    have := h.diskChannels
    rw [Emudisk.count]
    omega
  obtain ⟨i, hi, hbusy⟩ := exists_free hlen
  have hc : (s.disk.channels i).requestCompleted = false := by
    simpa [Emudisk.isCompleted] using hs i hi
  rw [Emudisk.busy, hc] at hbusy
  exact h.held i hi hc (by simpa using hbusy)

/-- A fetched request goes on record and onto a channel whose last request was
given back; it completes no earlier than anything completed so far. -/
theorem Invariant.submit (h : Invariant n speed s now) (hrates : ExactRates speed)
    {req : Request} (hfresh : req.tag ∉ s.submitted.map (·.1.tag)) {d : Emudisk}
    {c : ℤ} {wake b : Bool}
    (hok : s.disk.submit now req = .ok (d, c, wake)) (hle : d.requestInflight ≤ n)
    (hb : b = false → d.requestInflight < n) :
    Invariant n speed
      { s with disk := d, queueStopped := b, submitted := s.submitted ++ [(req, c)] } now := by
  obtain ⟨i, k, hk, hi, hc, -, hch, hinf⟩ := Emudisk.submit_ok hok
  have hmin := Emudisk.emptySlot_spec hi
  have hlt := hmin.lt
  have hcompleted : (s.disk.channels i).requestCompleted = true := hmin.holds
  have hcount := hch.count
  have hpending : d.pending.Perm ((req, c) :: s.disk.pending) := by
    rw [Emudisk.pending, hcount]
    apply entries_insert hlt
    · simp [Emudisk.busy, hcompleted]
    · simp [Emudisk.busy, Emudisk.completionTime, hch.self, Channel.assigned]
    · intro j _ hj
      exact hch.busy_other hj
  have hcnow : now ≤ c := by
    have := (s.disk.responseTime_eq (h.speedFactor ▸ hrates) (s.disk.isSequentialRequest req)
      req.dataDir (UdpServer.requestSizeIndex_lt hk)).1
    omega
  refine ⟨?_, ?_, fun j hj hcj ↦ ?_, fun j hj hcj r hr ↦ ?_, ?_, ?_, ?_, hle, hb, h.ordered, h.late,
    fun p hp x hx ↦ ?_, h.reading⟩
  · exact hch.diskChannels.trans h.diskChannels
  · exact hch.speedFactor.trans h.speedFactor
  · dsimp only at hj hcj ⊢
    by_cases hji : j = i
    · rw [hji, hch.self]
      simp [Channel.assigned]
    · rw [hch.other hji] at hcj ⊢
      exact h.held j (hcount ▸ hj) hcj
  · dsimp only at hj hcj hr
    by_cases hji : j = i
    · rw [hji, hch.self] at hcj
      cases hcj
    · rw [hch.other hji] at hcj hr
      exact h.given j (hcount ▸ hj) hcj r hr
  · calc (s.submitted ++ [(req, c)]).Perm ((req, c) :: s.submitted) :=
      List.perm_append_singleton _ _
      List.Perm _ ((req, c) :: (s.disk.pending ++ s.completed.map _)) := h.submitted.cons _
      List.Perm _ (d.pending ++ s.completed.map _) := hpending.symm.append_right _
  · rw [List.map_append]
    refine List.nodup_append.mpr ⟨h.tags, List.nodup_singleton _, fun x hx y hy hxy ↦ ?_⟩
    rw [List.map_singleton, List.mem_singleton] at hy
    exact hfresh (hy ▸ hxy ▸ hx)
  · dsimp only
    rw [hinf, h.inflight, hpending.length_eq, List.length_cons]
    omega
  · rcases List.mem_cons.mp (hpending.mem_iff.mp hp) with rfl | hp
    · have := h.late x hx
      dsimp only
      omega
    · exact h.later p hp x hx

/-- The earliest request that is due goes back to the block layer. It was due
before the reading `t`; whatever is left completes no earlier. -/
theorem Invariant.complete (h : Invariant n speed s now) {i : ℕ} {req : Request} {t : ℤ}
    (ht : t ≤ now) (hi : s.disk.nextResponseIndex t = some i)
    (hreq : (s.disk.channels i).request = some req) :
    Invariant n speed (s.complete i req t) now := by
  obtain ⟨hlt, ⟨hnot, hdue⟩, hleast, -⟩ := Emudisk.nextResponseIndex_spec hi
  have hopen : (s.disk.channels i).requestCompleted = false := by
    simpa [Emudisk.isCompleted] using hnot
  have hch := Emudisk.changes_complete s.disk i
  have hcount := hch.count
  have hsame : (s.disk.complete i).requestInflight = s.disk.requestInflight := rfl
  generalize hd : s.disk.complete i = d at hch hcount hsame
  have hpending : s.disk.pending.Perm ((req, s.disk.completionTime i) :: d.pending) := by
    rw [Emudisk.pending, Emudisk.pending, hcount]
    apply entries_remove hlt
    · simp [Emudisk.busy, hopen, hreq]
    · simp [Emudisk.busy, hch.self]
    · intro j _ hj
      exact hch.busy_other hj
  have hafter : ∀ p ∈ d.pending, s.disk.completionTime i ≤ p.2 := by
    intro p hp
    obtain ⟨j, hj, hjopen, -, hjt⟩ :=
      Emudisk.mem_pending.mp (hpending.mem_iff.mpr (List.mem_cons_of_mem _ hp))
    by_cases hlate : s.disk.completionTime j < t
    · exact hjt ▸ hleast j hj ⟨hjopen, hlate⟩
    · omega
  have hmem := hpending.mem_iff.mpr List.mem_cons_self
  rw [System.complete, hd]
  refine ⟨?_, ?_, fun j hj hcj ↦ ?_, fun j hj hcj r hr ↦ ?_, ?_, h.tags, ?_,
    hsame.le.trans h.bounded, fun hq ↦ hsame.le.trans_lt (h.running hq), ?_, ?_, ?_, h.reading⟩
  · exact hch.diskChannels.trans h.diskChannels
  · exact hch.speedFactor.trans h.speedFactor
  · dsimp only at hj hcj ⊢
    by_cases hji : j = i
    · rw [hji, hch.self] at hcj
      cases hcj
    · rw [hch.other hji] at hcj ⊢
      exact h.held j (hcount ▸ hj) hcj
  · dsimp only at hj hcj hr ⊢
    by_cases hji : j = i
    · rw [hji, hch.self, hreq] at hr
      cases hr
      exact ⟨_, List.mem_append_right _ (List.mem_singleton_self _), rfl⟩
    · rw [hch.other hji] at hcj hr
      obtain ⟨c, hc, hcr⟩ := h.given j (hcount ▸ hj) hcj r hr
      exact ⟨c, List.mem_append_left _ hc, hcr⟩
  · dsimp only
    rw [List.map_append, List.map_singleton]
    refine h.submitted.trans ((hpending.append_right _).trans ?_)
    rw [List.cons_append, ← List.append_assoc]
    exact (List.perm_append_singleton _ _).symm
  · have hlen := hpending.length_eq
    have hinf := h.inflight
    rw [List.length_cons] at hlen
    dsimp only
    rw [List.length_append, List.length_singleton, hsame]
    omega
  · refine List.pairwise_append.mpr ⟨h.ordered, List.pairwise_singleton _ _, fun x hx y hy ↦ ?_⟩
    rw [List.mem_singleton.mp hy]
    exact h.later _ hmem x hx
  · intro x hx
    rcases List.mem_append.mp hx with hx | hx
    · exact h.late x hx
    · rw [List.mem_singleton.mp hx]
      exact ⟨hdue, ht⟩
  · intro p hp x hx
    rcases List.mem_append.mp hx with hx | hx
    · exact h.later p (hpending.mem_iff.mpr (List.mem_cons_of_mem _ hp)) x hx
    · rw [List.mem_singleton.mp hx]
      exact hafter p hp

theorem Invariant.findNext (h : Invariant n speed s now) (task : Task)
    (ht : ∀ t, task = .processing t → t ≤ now) :
    Invariant n speed { s with disk := s.disk.findNext, task := task } now := by
  unfold Emudisk.findNext
  split <;> exact ⟨h.diskChannels, h.speedFactor, h.held, h.given, h.submitted, h.tags, h.inflight,
    h.bounded, h.running, h.ordered, h.late, h.later, ht⟩

theorem Offers.tail {req : Request} {queue : List Request}
    (h : s.Offers (req :: queue)) {d : Emudisk} {b : Bool} {c : ℤ} :
    Offers
      { s with disk := d, queueStopped := b, submitted := s.submitted ++ [(req, c)] } queue where
  fs r hr := h.fs r (List.mem_cons_of_mem _ hr)
  fresh := by simpa using h.fresh

theorem Invariant.strategyLoop (h : Invariant n speed s now) (hrates : ExactRates speed)
    (hrun : s.queueStopped = false) {queue : List Request} (hoff : s.Offers queue) (wake : Bool) :
    (s.strategyLoop wake queue).wp clock.contract (· ≠ .noEmptySlot)
      (fun r now' ↦ Invariant n speed r.1 now' ∧ now ≤ now' ∧ r.1.task = s.task) now := by
  induction queue generalizing s now wake with
  | nil =>
    rintro -
    refine ⟨trivial, fun t now' ht ↦ ?_⟩
    obtain ⟨hle, -, rfl⟩ := ht
    exact ⟨h.mono hle, hle, rfl⟩
  | cons req queue ih =>
    rintro -
    refine ⟨trivial, fun t now' ht ↦ ?_⟩
    obtain ⟨hle, -, rfl⟩ := ht
    have hfresh : req.tag ∉ s.submitted.map (·.1.tag) := by
      intro hmem
      exact (List.nodup_append.mp hoff.fresh).2.2 _ hmem _ (List.mem_cons_self) rfl
    have ht := h.mono hle
    dsimp only [Program.bind]
    rw [if_neg (not_not.mpr (hoff.fs req List.mem_cons_self).1), Program.bind_eq, Program.wp_bind]
    generalize hsub : s.disk.submit now' req = result
    rcases result with trap | ⟨d, c, w⟩
    · rintro rfl
      exact Emudisk.submit_ne_noEmptySlot (ht.emptySlot (ht.running hrun)) hsub
    · obtain ⟨_, _, -, -, -, -, hch, hinf⟩ := Emudisk.submit_ok hsub
      have hlt := ht.running hrun
      have hn : d.diskChannels = n := hch.diskChannels.trans ht.diskChannels
      dsimp only [record, Program.wp]
      split
      · rename_i hstop
        exact ⟨ht.submit hrates hfresh hsub (by omega) (fun hb ↦ nomatch hb), hle, rfl⟩
      · rename_i hstop
        have h' := ht.submit hrates hfresh hsub (b := false) (by omega) (fun _ ↦ by omega)
        rw [← hrun] at h'
        refine Program.wp_mono (fun r now' hr ↦ ?_) (ih h' hrun hoff.tail _)
        exact ⟨hr.1, hle.trans hr.2.1, hr.2.2⟩

theorem Invariant.free (h : Invariant n speed s now) (task : Task)
    (ht : ∀ t, task ≠ .processing t) : Invariant n speed { s with task := task } now where
  __ := h
  reading t he := absurd he (ht t)

theorem wake_ne_processing {task : Task} (h : ∀ t, task ≠ .processing t) (t : ℤ) :
    task.wake ≠ .processing t := by
  cases task with
  | processing t' => exact absurd rfl (h t')
  | _ => simp [Task.wake]

theorem Invariant.strategy (h : Invariant n speed s now) (hrates : ExactRates speed)
    (hlock : s.LockFree) (hrun : s.queueStopped = false) {queue : List Request}
    (hoff : s.Offers queue) :
    (s.strategy queue).wp clock.contract (· ≠ .noEmptySlot) (Invariant n speed) now := by
  rw [System.strategy, Program.bind_eq, Program.wp_bind]
  refine Program.wp_mono (fun r now' hr ↦ ?_) (h.strategyLoop hrates hrun hoff false)
  obtain ⟨hinv, -, htask⟩ := hr
  dsimp only
  split
  · exact hinv.free _ (wake_ne_processing (htask ▸ hlock))
  · exact hinv

theorem Invariant.release (h : Invariant n speed s now) {req : Request}
    (hreq : req ∈ s.completing) :
    Invariant n speed { s with
      disk := { s.disk with requestInflight := s.disk.requestInflight - 1 }
      completing := s.completing.eraseP fun r ↦ r.tag = req.tag
      queueStopped := false } now := by
  have hlen : (s.completing.eraseP fun r ↦ r.tag = req.tag).length + 1 = s.completing.length := by
    rw [List.length_eraseP_of_mem hreq (by simp)]
    have := List.length_pos_of_mem hreq
    omega
  have hinf := h.inflight
  have hle := h.bounded
  refine ⟨h.diskChannels, h.speedFactor, h.held, h.given, h.submitted, h.tags, ?_, ?_, fun _ ↦ ?_,
    h.ordered, h.late, h.later, h.reading⟩
  · change s.disk.requestInflight - 1 = s.disk.pending.length +
      ((s.completing.eraseP fun r ↦ r.tag = req.tag).length : ℤ)
    omega
  · dsimp only
    omega
  · dsimp only
    omega

theorem Invariant.turn (h : Invariant n speed s now) (hrates : ExactRates speed) {p : Prog System}
    (hp : Enters s p) : p.wp clock.contract (· ≠ .noEmptySlot) (Invariant n speed) now := by
  cases hp with
  | strategy hlock hrun hoff => exact h.strategy hrates hlock hrun hoff
  | softirqDone hlock hreq hoff =>
    have h' := h.release hreq
    unfold softirqDone
    dsimp only
    split
    · exact h'.strategy hrates hlock rfl ⟨hoff.fs, hoff.fresh⟩
    · rename_i hstop
      rw [Bool.not_eq_true] at hstop
      rw [← hstop] at h'
      exact h'
  | start => exact h.free _ (by intro t; split <;> simp)
  | woken => exact h.free _ (by simp)
  | interrupted => exact h.free _ (by simp)
  | timer =>
    rintro -
    refine ⟨trivial, fun _ now' hnow ↦ ?_⟩
    obtain rfl : now' = now := hnow
    exact h.free _ (by simp)
  | expired =>
    rintro -
    refine ⟨trivial, fun t now' ht ↦ ?_⟩
    obtain ⟨hle, -, rfl⟩ := ht
    dsimp only [Program.bind]
    split
    · intro he
      cases he
    · exact (h.mono hle).withTask _ _ (by rintro _ ⟨⟩; exact le_rfl)
  | @processing t htask =>
    have ht := h.reading t htask
    unfold processNext
    split
    · rename_i i hi
      split
      · intro he
        cases he
      rename_i req hreq
      split
      · intro he
        cases he
      rintro -
      refine ⟨trivial, fun t' now' ht' ↦ ?_⟩
      obtain ⟨hle, -, rfl⟩ := ht'
      exact ((h.complete ht hi hreq).mono hle).withTask _ _ (by rintro _ ⟨⟩; exact le_rfl)
    · split
      · rintro -
        refine ⟨trivial, fun t' now' ht' ↦ ?_⟩
        obtain ⟨hle, -, rfl⟩ := ht'
        exact (h.mono hle).withTask _ _ (by rintro _ ⟨⟩; exact le_rfl)
      · exact (h.findNext s.task h.reading).free _ (by intro t; split <;> simp)

theorem exactRates_zero : ExactRates 0 := by
  refine ⟨le_rfl, fun j _ k _ ↦ ?_⟩
  rw [mul_zero, mul_zero]
  exact ⟨by decide, by decide⟩

theorem exactRates_default : ExactRates 1000 := by
  refine ⟨by decide, ?_⟩
  decide +kernel

theorem processNext_cases {G : Handler ℤ Op Ans} {t now' : ℤ} {s' : System}
    (h : (s.processNext t).Runs G now (.ok s') now') :
    (∃ i req, ∃ t' : ℤ, s.disk.nextResponseIndex t = some i ∧
      (s.disk.channels i).request = some req ∧ G.answers now .ktimeGet t' now' ∧
      s' = { s.complete i req t with task := .processing t' }) ∨
    (s.disk.nextResponseIndex t = none ∧ s.tryProcessNextWithoutSleep = true ∧ ∃ t' : ℤ,
      G.answers now .ktimeGet t' now' ∧
      s' = { s with tryProcessNextWithoutSleep := false, task := .processing t' }) ∨
    (s.disk.nextResponseIndex t = none ∧
      s' = ({ s with disk := s.disk.findNext } : System).sleep) := by
  unfold processNext at h
  split at h
  · rename_i i hi
    split at h
    · exact nomatch h.1
    rename_i req hreq
    split at h
    · exact nomatch h.1
    obtain ⟨-, t', _, hans, hs, rfl⟩ := h
    exact .inl ⟨i, req, t', hi, hreq, hans, Except.ok.inj hs⟩
  · rename_i hnone
    split at h
    · rename_i htry
      obtain ⟨-, t', _, hans, hs, rfl⟩ := h
      exact .inr (.inl ⟨hnone, htry, t', hans, Except.ok.inj hs⟩)
    · exact .inr (.inr ⟨hnone, Except.ok.inj h.1⟩)

theorem processNext_trap {G : Handler ℤ Op Ans} {t now' : ℤ} {trap : Trap}
    (h : (s.processNext t).Runs G now (.error trap) now') :
    ∃ i, s.disk.nextResponseIndex t = some i ∧ ((s.disk.channels i).request = none ∨
      ∃ req, (s.disk.channels i).request = some req ∧ req.dataDir = .read ∧ s.disk.pastEnd req ∧
        trap = .pastEnd) := by
  unfold processNext at h
  split at h
  · rename_i i hi
    split at h
    · rename_i hreq
      exact ⟨i, hi, .inl hreq⟩
    rename_i req hreq
    split at h
    · rename_i hpast
      exact ⟨i, hi, .inr ⟨req, hreq, hpast.1, hpast.2, Except.error.inj h.1⟩⟩
    · obtain ⟨-, _, _, -, hs, -⟩ := h
      exact nomatch hs
  · split at h
    · obtain ⟨-, _, _, -, hs, -⟩ := h
      exact nomatch hs
    · exact nomatch h.1

theorem pending_later {t : ℤ} (h : s.disk.nextResponseIndex t = none) :
    ∀ p ∈ s.disk.pending, t ≤ p.2 := by
  intro p hp
  obtain ⟨i, hi, hopen, -, htime⟩ := Emudisk.mem_pending.mp hp
  have hs := firstMin_spec (fun i ↦ ¬ s.disk.isCompleted i ∧ s.disk.completionTime i < t)
    s.disk.completionTime s.disk.count
  rw [Emudisk.nextResponseIndex] at h
  rw [h] at hs
  exact htime ▸ not_lt.mp fun hlt ↦ hs i hi ⟨hopen, hlt⟩

/-- Of the requests that were due at the reading `t` a pass completes one, if there is one, and the
task does not let go of the lock before all of them are completed. A pass fails only at a read past
the end of the device. -/
structure Serves (s : System) (t now : ℤ) : Prop where
  completes : ∀ s' now', (s.processNext t).Runs clock now (.ok s') now' →
    (∃ p ∈ s.disk.pending, p.2 < t) → ∃ c, s'.completed = s.completed ++ [c] ∧
      (c.req, c.completionTime) ∈ s.disk.pending ∧ c.completionTime < t
  leaves : ∀ s' now', (s.processNext t).Runs clock now (.ok s') now' → s'.LockFree →
    ∀ p ∈ s.submitted, p.2 < t → ∃ c ∈ s'.completed, (c.req, c.completionTime) = p
  caught : ∀ trap now', (s.processNext t).Runs clock now (.error trap) now' → trap = .pastEnd ∧
    ∃ p ∈ s.disk.pending, p.2 < t ∧ p.1.dataDir = .read ∧ s.disk.pastEnd p.1

theorem Invariant.pending_of_next (h : Invariant n speed s now) {i : ℕ} {t : ℤ}
    (hi : s.disk.nextResponseIndex t = some i) : s.disk.completionTime i < t ∧ ∃ req,
      (s.disk.channels i).request = some req ∧ (req, s.disk.completionTime i) ∈ s.disk.pending := by
  obtain ⟨hlt, ⟨hopen, hdue⟩, -⟩ := Emudisk.nextResponseIndex_spec hi
  obtain ⟨req, hreq⟩ := Option.ne_none_iff_exists'.mp
    (h.held i hlt (by simpa [Emudisk.isCompleted] using hopen))
  exact ⟨hdue, req, hreq, Emudisk.mem_pending.mpr ⟨i, hlt, hopen, hreq, rfl⟩⟩

theorem Invariant.serves (h : Invariant n speed s now) (t : ℤ) : s.Serves t now where
  completes s' now' hrun := by
    rintro ⟨p, hp, hdue⟩
    rcases processNext_cases hrun with ⟨i, req, t', hi, hreq, -, rfl⟩ | ⟨hnone, -⟩ | ⟨hnone, -⟩
    · obtain ⟨hlt, req', hreq', hpending⟩ := h.pending_of_next hi
      obtain rfl : req = req' := Option.some.inj (hreq.symm.trans hreq')
      exact ⟨_, rfl, hpending, hlt⟩
    · exact absurd (pending_later hnone p hp) (not_le.mpr hdue)
    · exact absurd (pending_later hnone p hp) (not_le.mpr hdue)
  leaves s' now' hrun hlock p hp hdue := by
    rcases processNext_cases hrun with ⟨_, _, t', -, -, -, rfl⟩ | ⟨-, -, t', -, rfl⟩ | ⟨hnone, rfl⟩
    · exact absurd rfl (hlock t')
    · exact absurd rfl (hlock t')
    · rcases List.mem_append.mp (h.submitted.mem_iff.mp hp) with hpending | hdone
      · exact absurd (pending_later hnone p hpending) (not_le.mpr hdue)
      · exact List.mem_map.mp hdone
  caught trap now' hrun := by
    obtain ⟨i, hi, hcase⟩ := processNext_trap hrun
    obtain ⟨hlt, req, hreq, hpending⟩ := h.pending_of_next hi
    rcases hcase with hnone | ⟨req', hreq', hread, hpast, htrap⟩
    · exact nomatch hnone.symm.trans hreq
    · obtain rfl : req = req' := Option.some.inj (hreq.symm.trans hreq')
      exact ⟨htrap, _, hpending, hlt, hread, hpast⟩

/-- Every request is completed once, when it is due, in the order of the completion
times and never early, and until then no other request takes its channel. -/
theorem completes_once_in_order (hn : 1 ≤ n) (hrates : ExactRates speed)
    (h : (turns n speed).Reachable clock s now) :
    0 ≤ s.disk.requestInflight ∧ s.disk.requestInflight ≤ n ∧
      ¬ (turns n speed).Fails clock s now .noEmptySlot ∧
      (∀ i < s.disk.count, (s.disk.channels i).requestCompleted = true →
        ∀ req, (s.disk.channels i).request = some req → ∃ c ∈ s.completed, c.req = req) ∧
      s.submitted.Perm (s.disk.pending ++ s.completed.map fun c ↦ (c.req, c.completionTime)) ∧
      (s.completed.map (·.req.tag)).Nodup ∧
      s.completed.Pairwise (fun c c' ↦ c.completionTime ≤ c'.completionTime) ∧
      (∀ c ∈ s.completed, c.completionTime < c.now) ∧
      ∀ t, s.task = .processing t → s.Serves t now := by
  have hturn : ∀ s now p, Invariant n speed s now → (turns n speed).enters s p →
      p.wp clock.contract (· ≠ .noEmptySlot) (Invariant n speed) now :=
    fun s now p h hp ↦ h.turn hrates hp
  obtain ⟨_, rfl, hinv⟩ := h.invariant (Program.keeps_contract clock)
    (fun _ _ _ (hd : False) ↦ hd.elim)
    (fun s v h0 ↦ ⟨v, rfl, h0.2 ▸ h0.1.invariant (by omega)⟩) hturn
  refine ⟨?_, hinv.bounded, fun hf ↦ ?_, hinv.given, hinv.submitted, ?_, hinv.ordered,
    fun c hc ↦ (hinv.late c hc).1, fun t _ ↦ hinv.serves t⟩
  · have := hinv.inflight
    omega
  · exact hf.allowed (Program.keeps_contract clock) hturn rfl hinv rfl
  · have hperm := hinv.submitted.map (·.1.tag)
    have hnd := hperm.nodup_iff.mp hinv.tags
    rw [List.map_append, List.map_map] at hnd
    exact (List.nodup_append.mp hnd).2.1

/-- A write and a read: the read is over first, while the write, submitted before it, is due. -/
theorem completes_once_in_order_two : ∃ s now t, (turns 2 1000).Reachable clock s now ∧
    s.task = .processing t ∧ s.completed.map (·.req.tag) = [1] ∧
      s.disk.pending.map (·.1.tag) = [0] ∧ (∃ p ∈ s.disk.pending, p.2 < t) ∧
      0 ≤ s.disk.requestInflight ∧ s.disk.requestInflight ≤ 2 ∧
      (∀ c ∈ s.completed, c.completionTime < c.now) ∧ s.Serves t now := by
  obtain ⟨⟨s, v⟩, hs, htask, hcompleted, htags, hdue⟩ : ∃ r ∈ session 2 1000
      (.task :: .strategy [sectorWrite 0 5, sectorRead 1 5] :: List.replicate 7 .task),
      r.1.task = .processing 111358002 ∧ r.1.completed.map (·.req.tag) = [1] ∧
        r.1.disk.pending.map (·.1.tag) = [0] ∧ ∃ p ∈ r.1.disk.pending, p.2 < 111358002 := by
    decide +kernel
  obtain ⟨now, h⟩ := session_clock hs
  obtain ⟨hlo, hhi, -, -, -, -, -, hlate, hserves⟩ :=
    completes_once_in_order (by decide) exactRates_default h
  exact ⟨s, now, _, h, htask, hcompleted, htags, hdue, hlo, hhi, hlate, hserves _ htask⟩

end System

end Nctusde.Ramdisk

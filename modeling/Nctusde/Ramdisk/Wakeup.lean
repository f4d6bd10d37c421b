import Mathlib.Order.Bounds.Basic
import Nctusde.Ramdisk.Completion

namespace Nctusde.Ramdisk

open BlockLayer Library Library.ForLoop Library.Table Wire

namespace Emudisk

variable {d d' : Emudisk} {now c : ℤ} {req : Request} {wake : Bool}

def openTimes (d : Emudisk) : Set ℤ :=
  {t | ∃ i < d.count, ¬ d.isCompleted i ∧ d.completionTime i = t}

/-- The next response is the earliest one there is. -/
structure Deadline (d : Emudisk) : Prop where
  flag : d.nextResponseToReply = true ↔ ∃ i < d.count, ¬ d.isCompleted i
  time : d.nextResponseToReply = true → IsLeast d.openTimes d.nextResponseToReplyTime

def TimesFit (d : Emudisk) : Prop := ∀ t ∈ d.openTimes, 0 ≤ t ∧ t ≤ LONG_MAX

theorem TimesFit.completionTime (h : TimesFit d) {i : ℕ} (hi : i < d.count)
    (hopen : ¬ d.isCompleted i) : 0 ≤ d.completionTime i ∧ d.completionTime i ≤ LONG_MAX :=
  h _ ⟨i, hi, hopen, rfl⟩

theorem TimesFit.toU64 (h : TimesFit d) {i : ℕ} (hi : i < d.count) (hopen : ¬ d.isCompleted i) :
    toU64 (d.completionTime i) = d.completionTime i := by
  obtain ⟨h0, h1⟩ := h.completionTime hi hopen
  rw [LONG_MAX] at h1
  exact toU64_of_fits h0 (by omega)

/-- The scan of the uncompleted channels finds the earliest one when it starts from
a time that is not before all of them. -/
theorem earliestResponse_least (h : TimesFit d) {top : ℤ} {i : ℕ} (hi : i < d.count)
    (hopen : ¬ d.isCompleted i) (htop : d.completionTime i ≤ top) :
    IsLeast d.openTimes (d.earliestResponse top) := by
  have hs := scanMin_spec (fun i ↦ ¬ d.isCompleted i) (fun i ↦ toU64 (d.completionTime i)) top
    d.count
  rw [earliestResponse]
  generalize scanMin (fun i ↦ ¬ d.isCompleted i) (fun i ↦ Wire.toU64 (d.completionTime i)) top
    d.count = best at hs
  obtain ⟨k, m⟩ := best
  cases m with
  | none =>
    obtain ⟨rfl, hall⟩ := hs
    have hle := hall i hi hopen
    rw [h.toU64 hi hopen] at hle
    refine ⟨⟨i, hi, hopen, le_antisymm htop hle⟩, ?_⟩
    rintro _ ⟨j, hj, hjopen, rfl⟩
    rw [← h.toU64 hj hjopen]
    exact hall j hj hjopen
  | some m =>
    obtain ⟨rfl, -, hmin⟩ := hs
    refine ⟨⟨m, hmin.lt, hmin.holds, (h.toU64 hmin.lt hmin.holds).symm⟩, ?_⟩
    rintro _ ⟨j, hj, hjopen, rfl⟩
    rw [← h.toU64 hj hjopen]
    exact hmin.least j hj hjopen

theorem earliestResponse_none (h : ∀ i < d.count, d.isCompleted i) (top : ℤ) :
    d.earliestResponse top = top := by
  have hs := scanMin_spec (fun i ↦ ¬ d.isCompleted i) (fun i ↦ toU64 (d.completionTime i)) top
    d.count
  rw [earliestResponse]
  generalize scanMin (fun i ↦ ¬ d.isCompleted i) (fun i ↦ toU64 (d.completionTime i)) top
    d.count = best at hs
  obtain ⟨k, m⟩ := best
  cases m with
  | none => exact hs.1
  | some m => exact absurd (h m hs.2.2.lt) hs.2.2.holds

theorem toLong_of_mem (h : TimesFit d) {t : ℤ} (ht : t ∈ d.openTimes) : toLong t = t := by
  obtain ⟨h0, h1⟩ := h t ht
  rw [LONG_MAX] at h1
  exact toLong_of_fits (by omega) (by omega)

theorem deadline_findNext (h : TimesFit d) : Deadline d.findNext := by
  by_cases hopen : ∃ i < d.count, ¬ d.isCompleted i
  · obtain ⟨i, hi, hi'⟩ := hopen
    have hlt := (h.completionTime hi hi').2
    have hleast : IsLeast d.openTimes (d.earliestResponse ULLONG_MAX) :=
      earliestResponse_least h hi hi' (hlt.trans (by decide))
    have hne : d.earliestResponse ULLONG_MAX ≠ ULLONG_MAX := by
      have := (h _ hleast.1).2
      have : LONG_MAX < ULLONG_MAX := by decide
      omega
    rw [findNext, if_pos hne, toLong_of_mem h hleast.1]
    exact ⟨iff_of_true rfl ⟨i, hi, hi'⟩, fun _ ↦ hleast⟩
  · have hnone : d.earliestResponse ULLONG_MAX = ULLONG_MAX :=
      earliestResponse_none (fun i hi ↦ not_not.mp fun hi' ↦ hopen ⟨i, hi, hi'⟩) _
    rw [findNext, if_neg (not_not.mpr hnone)]
    exact ⟨iff_of_false Bool.false_ne_true hopen, fun hf ↦ nomatch hf⟩

structure Announces (d d₁ : Emudisk) (i : ℕ) (req : Request) (c : ℤ) : Prop where
  changes : Changes d d₁ i (.assigned req c)
  lt : i < d.count
  completed : d.isCompleted i
  nextResponseToReply : d₁.nextResponseToReply = d.nextResponseToReply
  nextResponseToReplyTime : d₁.nextResponseToReplyTime = d.nextResponseToReplyTime
  bounded : c ≤ LONG_MAX

theorem submitSized_announces {o : Option ℕ} (h : d.submitSized o now req = .ok (d', c, wake)) :
    ∃ i d₁, Announces d d₁ i req c ∧ wake = (d₁.announce c).2 ∧
      d' = { (d₁.announce c).1 with requestInflight := (d₁.announce c).1.requestInflight + 1 } := by
  cases o with
  | none => cases h
  | some k =>
    unfold submitSized at h
    dsimp only at h
    split at h
    · cases h
    rename_i hc
    split at h
    · cases h
    rename_i i hi
    split at h
    · cases h
    simp only [Except.ok.injEq, Prod.mk.injEq] at h
    obtain ⟨rfl, rfl, rfl⟩ := h
    have hmin := emptySlot_spec hi
    refine ⟨i, _, ⟨(changes_assign d i _).transferWrite req, hmin.lt, hmin.holds, ?_, ?_,
      not_lt.mp hc⟩, rfl, rfl⟩
    · unfold transferWrite
      cases req.dataDir <;> rfl
    · unfold transferWrite
      cases req.dataDir <;> rfl

theorem submitSized_ne_early (o : Option ℕ) : d.submitSized o now req ≠ .error .early := by
  intro h
  rcases submitSized_trap h with h | h | h | h <;> cases h

namespace Announces

variable {d₁ : Emudisk} {i : ℕ} {t : ℤ}

theorem mem_openTimes (h : Announces d d₁ i req c) :
    t ∈ d₁.openTimes ↔ t = c ∨ t ∈ d.openTimes := by
  have hself : ¬ d₁.isCompleted i ∧ d₁.completionTime i = c := by
    rw [isCompleted, completionTime, h.changes.self]
    exact ⟨Bool.false_ne_true, rfl⟩
  have hother {j : ℕ} (hj : j ≠ i) :
      (d₁.isCompleted j ↔ d.isCompleted j) ∧ d₁.completionTime j = d.completionTime j := by
    rw [isCompleted, isCompleted, completionTime, completionTime, h.changes.other hj]
    exact ⟨Iff.rfl, rfl⟩
  have hcount := h.changes.count
  constructor
  · rintro ⟨j, hj, hopen, rfl⟩
    by_cases hji : j = i
    · exact .inl (hji ▸ hself.2)
    · obtain ⟨hiff, htime⟩ := hother hji
      exact .inr ⟨j, hcount ▸ hj, hiff.not.mp hopen, htime.symm⟩
  · rintro (rfl | ⟨j, hj, hopen, rfl⟩)
    · exact ⟨i, hcount.symm ▸ h.lt, hself.1, hself.2⟩
    · have hji : j ≠ i := fun hji ↦ hopen (hji ▸ h.completed)
      obtain ⟨hiff, htime⟩ := hother hji
      exact ⟨j, hcount.symm ▸ hj, hiff.not.mpr hopen, htime⟩

theorem timesFit (h : Announces d d₁ i req c) (hfit : TimesFit d) (hc : 0 ≤ c) : TimesFit d₁ := by
  intro t ht
  rcases h.mem_openTimes.mp ht with rfl | ht
  · exact ⟨hc, h.bounded⟩
  · exact hfit t ht

end Announces

theorem announce_openTimes (d : Emudisk) (c : ℤ) : (d.announce c).1.openTimes = d.openTimes := by
  unfold announce
  dsimp only
  split <;> rfl

theorem findNext_openTimes (d : Emudisk) : d.findNext.openTimes = d.openTimes := by
  unfold findNext
  split <;> rfl

/-- Either the next response moves, to an earlier one if there was one, and the task
is woken, or it stays. -/
inductive Moves (d d' : Emudisk) : Bool → Prop
  | moved : d'.nextResponseToReply = true →
      (d.nextResponseToReply = true → d'.nextResponseToReplyTime < d.nextResponseToReplyTime) →
      Moves d d' true
  | kept : d'.nextResponseToReply = d.nextResponseToReply →
      d'.nextResponseToReplyTime = d.nextResponseToReplyTime → Moves d d' false

theorem Announces.announce {d₁ : Emudisk} {i : ℕ} (h : Announces d d₁ i req c) (hfit : TimesFit d)
    (hd : Deadline d) (hc : 0 ≤ c) :
    Deadline (d₁.announce c).1 ∧ Moves d (d₁.announce c).1 (d₁.announce c).2 := by
  have hfit₁ := h.timesFit hfit hc
  obtain ⟨j, hj, hopen, htime⟩ := h.mem_openTimes.mpr (.inl rfl)
  have hto : toU64 c = c := htime ▸ hfit₁.toU64 hj hopen
  have hleast := earliestResponse_least hfit₁ hj hopen htime.le
  have hsome : ∃ i < d₁.count, ¬ d₁.isCompleted i := ⟨j, hj, hopen⟩
  rw [Emudisk.announce, hto, h.nextResponseToReply, h.nextResponseToReplyTime]
  split
  · rename_i hmove
    have hlong := toLong_of_mem hfit₁ hleast.1
    refine ⟨⟨iff_of_true rfl hsome, fun _ ↦ ?_⟩, .moved rfl fun hflag ↦ ?_⟩
    · dsimp only
      rw [hlong]
      exact hleast
    · have hmem := (hd.time hflag).1
      have hlt := hmove.resolve_left (by rw [hflag]; exact Bool.true_eq_false.mp)
      obtain ⟨k, hk, hkopen, hktime⟩ := hmem
      rw [← hktime, hfit.toU64 hk hkopen, hktime] at hlt
      dsimp only
      rw [hlong]
      exact hlt
  · rename_i hkeep
    obtain ⟨hflag, hle⟩ := not_or.mp hkeep
    rw [Bool.not_eq_false] at hflag
    obtain ⟨⟨k, hk, hkopen, hktime⟩, hmin⟩ := hd.time hflag
    rw [← hktime, hfit.toU64 hk hkopen, hktime] at hle
    refine ⟨⟨?_, fun _ ↦ ⟨?_, fun t ht ↦ ?_⟩⟩, .kept h.nextResponseToReply
      h.nextResponseToReplyTime⟩
    · rw [h.nextResponseToReply, hflag]
      exact iff_of_true rfl hsome
    · rw [h.nextResponseToReplyTime]
      exact h.mem_openTimes.mpr (.inr ⟨k, hk, hkopen, hktime⟩)
    · rw [h.nextResponseToReplyTime]
      exact (not_lt.mp hle).trans (hleast.2 ht)

theorem TimesFit.complete (h : TimesFit d) (i : ℕ) : TimesFit (d.complete i) := by
  have hch := changes_complete d i
  rintro t ⟨j, hj, hopen, rfl⟩
  by_cases hji : j = i
  · rw [hji, isCompleted, hch.self] at hopen
    exact absurd rfl hopen
  · rw [isCompleted, hch.other hji] at hopen
    rw [Emudisk.completionTime, hch.other hji]
    exact h.completionTime (hch.count ▸ hj) hopen

end Emudisk

/-- What the processing task relies on where it is. -/
def Task.Minds (d : Emudisk) (now : ℤ) : Task → Prop
  | .sleeping woken => d.nextResponseToReply = woken
  | .sleepingUntil time woken => d.nextResponseToReply = true ∧ d.nextResponseToReplyTime ≤ time ∧
      (woken = false → time ≤ d.nextResponseToReplyTime)
  | .expired => d.nextResponseToReply = true ∧ d.nextResponseToReplyTime ≤ now
  | .starting | .processing _ => True

def Task.wakeIf (needToWakeUp : Bool) (task : Task) : Task :=
  if needToWakeUp then task.wake else task

namespace Task

variable {task : Task} {d d' : Emudisk} {now now' : ℤ} {wake wake' : Bool}

theorem Minds.mono (h : task.Minds d now) (hn : now ≤ now') : task.Minds d now' := by
  cases task with
  | expired => exact ⟨h.1, h.2.trans hn⟩
  | _ => exact h

/-- A task that is woken for every move of the next response misses none. -/
theorem Minds.moves (h : task.Minds d now) (hm : d.Moves d' wake) :
    (task.wakeIf wake).Minds d' now := by
  cases hm with
  | moved hflag hlt =>
    cases task with
    | sleeping woken => exact hflag
    | sleepingUntil time woken => exact ⟨hflag, (hlt h.1).le.trans h.2.1, fun hw ↦ nomatch hw⟩
    | expired => exact ⟨hflag, (hlt h.1).le.trans h.2⟩
    | _ => trivial
  | kept hflag htime =>
    cases task with
    | sleeping woken => exact hflag.trans h
    | sleepingUntil time woken =>
      exact ⟨hflag.trans h.1, htime.le.trans h.2.1, fun hw ↦ (h.2.2 hw).trans htime.ge⟩
    | expired => exact ⟨hflag.trans h.1, htime.le.trans h.2⟩
    | _ => trivial

theorem wakeIf_wakeIf : (task.wakeIf wake).wakeIf wake' = task.wakeIf (wake || wake') := by
  cases wake <;> cases wake' <;> cases task <;> rfl

end Task

namespace System

variable {s s' : System} {n speed now : ℤ}

def NoOverflow (s : System) : Prop := ∀ p ∈ s.submitted, 0 ≤ p.2

structure Wakeful (s : System) (now : ℤ) : Prop where
  timesFit : s.disk.TimesFit
  deadline : s.LockFree → s.disk.Deadline
  minds : s.task.Minds s.disk now

/-- The state between two requests of `strategy`, when the task is to be woken in
the end if `needToWakeUp` says so. -/
structure Announced (s : System) (needToWakeUp : Bool) (now : ℤ) : Prop where
  timesFit : s.disk.TimesFit
  deadline : s.disk.Deadline
  minds : (s.task.wakeIf needToWakeUp).Minds s.disk now

theorem Announced.submit {wake w : Bool} (h : Announced s wake now) {req : Request} {d : Emudisk}
    {c : ℤ} (hc : 0 ≤ c) (b : Bool) (submitted : List (Request × ℤ))
    (hok : s.disk.submit now req = .ok (d, c, w)) :
    Announced { s with disk := d, queueStopped := b, submitted := submitted } (wake || w) now := by
  obtain ⟨i, d₁, ha, rfl, rfl⟩ := Emudisk.submitSized_announces hok
  obtain ⟨hd, hm⟩ := ha.announce h.timesFit h.deadline hc
  have hminds := h.minds.moves hm
  rw [Task.wakeIf_wakeIf] at hminds
  refine ⟨fun t ht ↦ ?_, ⟨hd.flag, hd.time⟩, ?_⟩
  · have ht : t ∈ (d₁.announce c).1.openTimes := ht
    rw [Emudisk.announce_openTimes] at ht
    exact ha.timesFit h.timesFit hc t ht
  · dsimp only
    cases hw : s.task.wakeIf (wake || (d₁.announce c).2) with
    | _ =>
      rw [hw] at hminds
      exact hminds

theorem Announced.mono {wake : Bool} (h : Announced s wake now) {now' : ℤ} (hn : now ≤ now') :
    Announced s wake now' :=
  ⟨h.timesFit, h.deadline, h.minds.mono hn⟩

theorem Announced.strategyLoop {E : Trap → Prop} (hE : ∀ trap, trap ≠ .early → E trap) (wake : Bool)
    (h : s.NoOverflow → Announced s wake now) {queue : List Request} :
    (s.strategyLoop wake queue).wp timely.contract E
      (fun r now' ↦ r.1.task = s.task ∧ (r.1.NoOverflow → Announced r.1 r.2 now')) now := by
  induction queue generalizing s now wake with
  | nil =>
    rintro -
    refine ⟨trivial, fun t now' ht ↦ ?_⟩
    obtain ⟨hle, rfl⟩ := ht
    exact ⟨rfl, fun hno ↦ (h hno).mono hle⟩
  | cons req queue ih =>
    rintro -
    refine ⟨trivial, fun t now' ht ↦ ?_⟩
    obtain ⟨hle, rfl⟩ := ht
    dsimp only [Program.bind]
    split
    · exact hE _ (by decide)
    rw [Program.bind_eq, Program.wp_bind]
    generalize hsub : s.disk.submit now' req = result
    rcases result with trap | ⟨d, c, w⟩
    · refine hE trap ?_
      rintro rfl
      exact Emudisk.submitSized_ne_early _ hsub
    · have hkeep (b : Bool) (hno : ∀ p ∈ s.submitted ++ [(req, c)], 0 ≤ p.2) :
          Announced
            { s with disk := d, queueStopped := b, submitted := s.submitted ++ [(req, c)] }
            (wake || w) now' :=
        ((h fun p hp ↦ hno p (List.mem_append_left _ hp)).mono hle).submit
          (hno (req, c) (List.mem_append_right _ (List.mem_singleton_self _))) b _ hsub
      dsimp only [record, Program.wp]
      split
      · exact ⟨rfl, hkeep true⟩
      · exact ih _ (hkeep s.queueStopped)

theorem Wakeful.strategy {E : Trap → Prop} (hE : ∀ trap, trap ≠ .early → E trap)
    (hlock : s.LockFree) (h : s.NoOverflow → Wakeful s now) {queue : List Request} :
    (s.strategy queue).wp timely.contract E (fun s' now' ↦ s'.NoOverflow → Wakeful s' now')
      now := by
  rw [System.strategy, Program.bind_eq, Program.wp_bind]
  refine Program.wp_mono (fun r now' hr ↦ ?_) (Announced.strategyLoop hE false
    fun hno ↦ ⟨(h hno).timesFit, (h hno).deadline hlock, (h hno).minds⟩)
  obtain ⟨htask, hr⟩ := hr
  dsimp only
  split
  · rename_i hwake
    intro hno
    have ha := hr hno
    rw [hwake] at ha
    exact ⟨ha.timesFit, fun _ ↦ ha.deadline, ha.minds⟩
  · rename_i hwake
    intro hno
    have ha := hr hno
    rw [Bool.not_eq_true] at hwake
    rw [hwake] at ha
    exact ⟨ha.timesFit, fun _ ↦ ha.deadline, ha.minds⟩

theorem Wakeful.sleep (hfit : s.disk.TimesFit) (hd : s.disk.Deadline) : Wakeful s.sleep now := by
  refine ⟨hfit, fun _ ↦ hd, ?_⟩
  unfold System.sleep
  split
  · rename_i hflag
    exact hflag
  · rename_i hflag
    rw [Bool.not_eq_false] at hflag
    exact ⟨hflag, le_rfl, fun _ ↦ le_rfl⟩

theorem Wakeful.resleep (h : Wakeful s now) (hlock : s.LockFree)
    (hflag : s.disk.nextResponseToReply = true) : Wakeful s.resleep now :=
  ⟨h.timesFit, fun _ ↦ h.deadline hlock, hflag, le_rfl, fun _ ↦ le_rfl⟩

theorem wakeful_processing {t : ℤ} (hfit : s.disk.TimesFit) (htask : s.task = .processing t) :
    Wakeful s now := by
  refine ⟨hfit, fun hlock ↦ absurd htask (hlock t), ?_⟩
  rw [htask]
  trivial

theorem Wakeful.turn (h : s.NoOverflow → Wakeful s now) {p : Prog System} (hp : Enters s p) :
    p.wp timely.contract (fun trap ↦ s.NoOverflow → trap ≠ .early)
      (fun s' now' ↦ s'.NoOverflow → Wakeful s' now') now := by
  have hE (trap : Trap) (ht : trap ≠ .early) : s.NoOverflow → trap ≠ .early := fun _ ↦ ht
  cases hp with
  | strategy hlock hrun hoff => exact Wakeful.strategy hE hlock h
  | softirqDone hlock hreq hoff =>
    unfold softirqDone
    dsimp only
    split
    · refine Wakeful.strategy hE (by exact hlock) fun hno ↦ ?_
      exact ⟨(h hno).timesFit, fun _ ↦
        ⟨((h hno).deadline hlock).flag, ((h hno).deadline hlock).time⟩,
        (h hno).minds⟩
    · exact fun hno ↦ ⟨(h hno).timesFit,
        fun _ ↦ ⟨((h hno).deadline hlock).flag, ((h hno).deadline hlock).time⟩, (h hno).minds⟩
  | start htask =>
    have hlock : s.LockFree := by simp [LockFree, htask]
    exact fun hno ↦ Wakeful.sleep (h hno).timesFit ((h hno).deadline hlock)
  | woken htask =>
    have hlock : s.LockFree := by simp [LockFree, htask]
    refine fun hno ↦ (h hno).resleep hlock ?_
    have hminds := (h hno).minds
    rw [htask] at hminds
    exact hminds
  | interrupted htask =>
    have hlock : s.LockFree := by simp [LockFree, htask]
    refine fun hno ↦ (h hno).resleep hlock ?_
    have hminds := (h hno).minds
    rw [htask] at hminds
    exact hminds.1
  | timer htask =>
    have hlock : s.LockFree := by simp [LockFree, htask]
    rintro -
    refine ⟨trivial, fun _ now' hans ↦ ?_⟩
    obtain ⟨-, hle⟩ := hans
    intro hno
    have hminds := (h hno).minds
    rw [htask] at hminds
    exact ⟨(h hno).timesFit, fun _ ↦ (h hno).deadline hlock, hminds.1, hminds.2.1.trans hle⟩
  | expired htask =>
    rintro -
    refine ⟨trivial, fun t now' hans ↦ ?_⟩
    obtain ⟨hle, rfl⟩ := hans
    dsimp only [Program.bind]
    split
    · rename_i hearly
      intro hno
      have hminds := (h hno).minds
      rw [htask] at hminds
      exact absurd (hminds.2.trans hle) (not_le.mpr hearly)
    · exact fun hno ↦ wakeful_processing (h hno).timesFit rfl
  | processing htask =>
    unfold processNext
    split
    · split
      · exact fun _ he ↦ nomatch he
      split
      · exact fun _ he ↦ nomatch he
      rintro -
      refine ⟨trivial, fun t now' hans ↦ ?_⟩
      exact fun hno ↦ wakeful_processing (Emudisk.TimesFit.complete (h hno).timesFit _) rfl
    · split
      · rintro -
        refine ⟨trivial, fun t now' hans ↦ ?_⟩
        exact fun hno ↦ wakeful_processing (h hno).timesFit rfl
      · exact fun hno ↦ Wakeful.sleep (fun t ht ↦ (h hno).timesFit t (by
          rwa [Emudisk.findNext_openTimes] at ht)) (Emudisk.deadline_findNext (h hno).timesFit)

theorem IsStart.wakeful (h : IsStart n speed s) : Wakeful s 0 := by
  have hdone : ∀ i < s.disk.count, s.disk.isCompleted i := by
    intro i hi
    rw [Emudisk.isCompleted, h.channels i hi]
  have hopen : ¬ ∃ i < s.disk.count, ¬ s.disk.isCompleted i := by
    rintro ⟨i, hi, hnot⟩
    exact hnot (hdone i hi)
  refine ⟨?_, fun _ ↦ ⟨?_, fun hflag ↦ ?_⟩, ?_⟩
  · rintro t ⟨i, hi, hnot, -⟩
    exact absurd (hdone i hi) hnot
  · rw [h.nextResponseToReply]
    exact iff_of_false Bool.false_ne_true hopen
  · rw [h.nextResponseToReply] at hflag
    cases hflag
  · rw [h.task]
    trivial

/-- While the lock is free the next response is the earliest of the requests still to
be completed, and the task neither sleeps past it nor wakes before it. -/
theorem deadline_kept (h : (turns n speed).Reachable timely s now) (hno : s.NoOverflow) :
    (s.LockFree → s.disk.Deadline) ∧
      (s.task = .sleeping false → s.disk.nextResponseToReply = false) ∧
      (∀ time, s.task = .sleepingUntil time false →
        time ≤ s.disk.nextResponseToReplyTime) ∧
      ¬ (turns n speed).Fails timely s now .early := by
  obtain ⟨_, rfl, hinv⟩ := h.invariant (C := timely.contract) (E := fun _ ↦ True)
    (I := fun s now ↦ s.NoOverflow → Wakeful s now) (Program.keeps_contract timely)
    (fun _ _ _ (hd : False) ↦ hd.elim)
    (fun s v (h0 : IsStart n speed s ∧ v = 0) ↦ ⟨v, rfl, fun _ ↦ h0.2 ▸ h0.1.wakeful⟩)
    (fun s now p h hp ↦ Program.wp_weaken (fun _ _ ↦ trivial) (Wakeful.turn h hp))
  have hw := hinv hno
  refine ⟨hw.deadline, fun htask ↦ ?_, fun time htask ↦ ?_, ?_⟩
  · have hminds := hw.minds
    rw [htask] at hminds
    exact hminds
  · have hminds := hw.minds
    rw [htask] at hminds
    exact hminds.2.2 rfl
  · rintro ⟨p, hp, v, hrun⟩
    exact (Program.wp_runs (Program.keeps_contract timely) rfl (Wakeful.turn hinv hp) hrun).2 _ rfl
      hno rfl

/-- A read that is over before the write the task already waits for. -/
theorem deadline_kept_two : ∃ s now, (turns 2 1000).Reachable timely s now ∧
    s.disk.pending.map (·.2) = [111358001, 513003] ∧ s.task = .sleepingUntil 513003 false ∧
      s.disk.Deadline ∧ 513003 ≤ s.disk.nextResponseToReplyTime ∧
      ¬ (turns 2 1000).Fails timely s now .early := by
  obtain ⟨⟨s, now⟩, hs, htask, hpending, hno⟩ : ∃ r ∈ session 2 1000 [.task,
      .strategy [sectorWrite 0 5], .task, .strategy [sectorRead 1 5], .task],
      r.1.task = .sleepingUntil 513003 false ∧
        r.1.disk.pending.map (·.2) = [111358001, 513003] ∧ ∀ p ∈ r.1.submitted, 0 ≤ p.2 := by
    decide +kernel
  obtain ⟨hdeadline, -, hsleep, hearly⟩ := deadline_kept (session_timely hs) hno
  have hlock : s.LockFree := fun t ht ↦ Task.noConfusion (htask.symm.trans ht)
  exact ⟨s, now, session_timely hs, hpending, htask, hdeadline hlock, hsleep _ htask, hearly⟩

end System

end Nctusde.Ramdisk

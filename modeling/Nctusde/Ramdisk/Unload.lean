import Nctusde.Library.Simulation
import Nctusde.Ramdisk.Response

namespace Nctusde.Ramdisk

open BlockLayer Library Library.Program Library.Stopping Wire

namespace System

variable {n speed now : ℤ} {s : System}

/-- What `blk_cleanup_queue` waits for, under the lock of the queue, which is `Emudisk.lock`. -/
structure Drained (s : System) : Prop where
  lockFree : s.LockFree
  pending : s.disk.pending = []
  completing : s.completing = []

/-- The task looks at `Emudisk.stopping` when the second of its sleeps ends, whatever ended it. -/
def looks (s : System) : Bool :=
  match s.task with
  | .sleepingUntil _ _ => true
  | _ => false

/-- `emudisk_exit` sets `Emudisk.stopping`, and `kthread_stop` wakes the processing task. A task
that has not `entered` its function is not let into it any more. -/
def stop (s : System) (entered : Bool) : Stopping System :=
  ⟨{ s with task := s.task.wake }, !entered⟩

def Untouched (s s' : System) : Prop := s'.disk = s.disk ∧ s'.completed = s.completed

def Unloads (s : System) (entered : Bool) (now : ℤ) : Prop :=
  (Stopping.turns Attends looks).Inevitable punctual (Returned fun s' _ ↦ s.Untouched s')
    (s.stop entered) now

/-- Whatever happens, the processing task comes to a sleep that nothing ends any more. -/
def Oversleeps (s : System) (entered : Bool) (now : ℤ) : Prop :=
  (Stopping.turns Attends looks).Inevitable punctual (Asleep Attends) (s.stop entered) now

theorem Drained.task (hd : s.Drained) (hs : Sound n speed s now) :
    s.disk.nextResponseToReply = false ∧ (s.task = .starting ∨ s.task = .sleeping false) := by
  have hflag : s.disk.nextResponseToReply = false := by
    refine Bool.eq_false_iff.mpr fun hflag ↦ ?_
    obtain ⟨i, hi, hopen⟩ := (hs.wakeful.deadline hd.lockFree).flag.mp hflag
    obtain ⟨req, hreq⟩ := Option.ne_none_iff_exists'.mp
      (hs.invariant.held i hi (Bool.eq_false_iff.mpr hopen))
    have hmem : (req, s.disk.completionTime i) ∈ s.disk.pending :=
      Emudisk.mem_pending.mpr ⟨i, hi, hopen, hreq, rfl⟩
    rw [hd.pending] at hmem
    exact List.not_mem_nil hmem
  have hminds := hs.wakeful.minds
  refine ⟨hflag, ?_⟩
  cases htask : s.task with
  | starting => exact .inl rfl
  | sleeping woken =>
    rw [htask] at hminds
    exact .inr (congrArg Task.sleeping (hminds.symm.trans hflag))
  | sleepingUntil time woken =>
    rw [htask] at hminds
    exact absurd (hflag.symm.trans hminds.1) Bool.false_ne_true
  | expired =>
    rw [htask] at hminds
    exact absurd (hflag.symm.trans hminds.1) Bool.false_ne_true
  | processing t => exact absurd htask (hd.lockFree t)

theorem attends_cases {q : Prog System} (h : Attends s q) :
    match s.task with
    | .starting => q = .pure s.sleep
    | .sleeping woken => woken = true ∧ q = .pure s.resleep
    | .sleepingUntil time woken => woken = true ∧ q = .pure s.resleep ∨ q = s.timerExpired time
    | .expired => q = s.wakeUp
    | .processing t => q = s.processNext t := by
  cases h with
  | start h => rw [h]
  | woken h =>
    rw [h]
    exact ⟨rfl, rfl⟩
  | interrupted h =>
    rw [h]
    exact .inl ⟨rfl, rfl⟩
  | timer h =>
    rw [h]
    exact .inr rfl
  | expired h => rw [h]
  | processing h => rw [h]

theorem unloads_of_asleep (h : s.task = .sleeping false) (now : ℤ) : s.Unloads true now := by
  have hstop : s.stop true = ⟨{ s with task := .sleeping true }, false⟩ := by
    rw [stop, h]
    rfl
  rw [Unloads, hstop]
  refine inevitable_turn ⟨_, .woken rfl⟩ fun q hq ↦ ?_
  obtain ⟨-, rfl⟩ := attends_cases hq
  refine inevitable_turn ⟨_, .timer rfl⟩ fun q hq ↦ ?_
  rcases attends_cases hq with ⟨hwoken, -⟩ | rfl
  · exact Bool.noConfusion hwoken
  · exact fun _ ↦ ⟨trivial, fun _ _ _ ↦ .here ⟨rfl, rfl, rfl⟩⟩

theorem oversleeps_of_starting (h : s.task = .starting) (hflag : s.disk.nextResponseToReply = false)
    (now : ℤ) : ¬ s.Unloads true now ∧ s.Oversleeps true now := by
  have hwake : s.task.wake = s.task := by
    rw [h]
    rfl
  have hstop : s.stop true = ⟨s, false⟩ := by
    rw [stop, hwake]
    rfl
  have hlooks : s.looks = false := by
    rw [looks, h]
  have hsleep : s.sleep.task = .sleeping false := if_pos hflag
  have honly (q : Prog System) (hq : Attends s q) : q = .pure s.sleep := by
    have hcases := attends_cases hq
    rw [h] at hcases
    exact hcases
  have hnone (q : Prog System) (hq : Attends s.sleep q) : False := by
    have hcases := attends_cases hq
    rw [hsleep] at hcases
    exact Bool.noConfusion hcases.1
  rw [Unloads, Oversleeps, hstop]
  exact ⟨not_inevitable_asleep hlooks (.start h) hnone,
    inevitable_asleep hlooks (.start h) honly hnone⟩

/-- The module can be unloaded, its processing task being sure to return, unless the task is between
its start and its first sleep, which it then never leaves. -/
theorem unloads_iff {entered : Bool} (hn : 1 ≤ n) (hrates : ExactRates speed)
    (h : (turns n speed).Reachable punctual s now) (hd : s.Drained)
    (hentered : s.task ≠ .starting → entered = true) :
    (s.Unloads entered now ↔ ¬ (entered = true ∧ s.task = .starting)) ∧
      (entered = true ∧ s.task = .starting → s.Oversleeps entered now) := by
  cases entered with
  | false =>
    exact ⟨iff_of_true (.here ⟨rfl, rfl, rfl⟩) fun hstart ↦ Bool.noConfusion hstart.1,
      fun hstart ↦ Bool.noConfusion hstart.1⟩
  | true =>
    obtain ⟨hflag, htask⟩ := hd.task (reachable_sound hn hrates h)
    rcases htask with hstart | hasleep
    · obtain ⟨hnot, hsleeps⟩ := oversleeps_of_starting hstart hflag now
      exact ⟨iff_of_false hnot (not_not.mpr ⟨rfl, hstart⟩), fun _ ↦ hsleeps⟩
    · have hne : s.task ≠ .starting := fun hstart ↦ Task.noConfusion (hasleep.symm.trans hstart)
      exact ⟨iff_of_true (unloads_of_asleep hasleep now) fun hstart ↦ hne hstart.2,
        fun hstart ↦ absurd hstart.2 hne⟩

/-- Unloading after a write and a read, and a driver unloaded as soon as it is loaded. -/
theorem unloads_iff_two : ∃ s now, (turns 2 0).Reachable punctual s now ∧
    s.completed.map (·.req.tag) = [0, 1] ∧ s.Drained ∧ s.Unloads true now ∧
      (loaded 2 0).Oversleeps true 0 := by
  obtain ⟨⟨s, now⟩, hs, hcompleted, htask, hpending, hcompleting⟩ : ∃ r ∈ session 2 0
      (.task :: .strategy [sectorWrite 0 5, sectorRead 1 5] :: List.replicate 6 .task ++
        [.softirqDone 1 [], .softirqDone 0 []]), r.1.completed.map (·.req.tag) = [0, 1] ∧
        r.1.task = .sleeping false ∧ r.1.disk.pending = [] ∧ r.1.completing = [] := by
    decide +kernel
  have hd : s.Drained := ⟨fun t ht ↦ Task.noConfusion (htask.symm.trans ht), hpending, hcompleting⟩
  have hunloads := (unloads_iff (by decide) exactRates_zero (session_reachable hs) hd
    fun _ ↦ rfl).1.mpr fun hstart ↦ Task.noConfusion (htask.symm.trans hstart.2)
  have hstart : (turns 2 0).Reachable punctual (loaded 2 0) 0 := .start ⟨loaded_isStart 2 0, rfl⟩
  have hempty : (loaded 2 0).Drained := ⟨fun t ht ↦ Task.noConfusion ht, by decide, rfl⟩
  exact ⟨s, now, session_reachable hs, hcompleted, hd, hunloads,
    (unloads_iff (by decide) exactRates_zero hstart hempty fun hne ↦ absurd rfl hne).2 ⟨rfl, rfl⟩⟩

end System

end Nctusde.Ramdisk

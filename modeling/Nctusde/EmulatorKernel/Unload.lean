import Nctusde.EmulatorKernel.Response
import Nctusde.Library.Simulation

namespace Nctusde.EmulatorKernel

open BlockLayer Library Library.Program Library.Stopping Network UdpServer Wire

variable {n speed : ℕ} {top : ℤ} {s s' : System} {w w' : World} {u : Unit}

namespace System

/-- What `blk_cleanup_queue` waits for, under the lock of the queue, which is `Emudisk.lock`. -/
structure Drained (s : System) : Prop where
  lockFree : s.LockFree
  pending : s.disk.pending = []
  completing : s.completing = []

/-- The task looks at `Emudisk.stopping` when the second of its sleeps ends, whatever ended it. -/
def looks (s : System) : Bool :=
  match s.task with
  | .sleepingUntil _ _ => true
  | _ => false

/-- `emudisk_exit` sets `Emudisk.stopping`, and `kthread_stop` wakes the processing task. -/
def stop (s : System) : Stopping System := ⟨{ s with task := s.task.wake }, false⟩

def Untouched (s s' : System) : Prop := s'.disk = s.disk ∧ s'.completed = s.completed

def Unloads (top : ℤ) (s : System) (w : World) : Prop :=
  (Stopping.turns Attends looks).Inevitable (reliable top)
    (Returned fun s' w' ↦ s.Untouched s' ∧ w'.server = w.server) s.stop w

theorem attends_cases {q : Prog System} (h : Attends s q) :
    match s.task with
    | .starting => q = .pure s.sleep
    | .sleeping woken => woken = true ∧ q = .pure s.resleep
    | .sleepingUntil time woken => woken = true ∧ q = .pure s.resleep ∨ q = s.timerExpired time
    | .expired | .processing => q = s.processNext := by
  cases h with
  | start h => rw [h]
  | woken h =>
    rw [h]
    exact ⟨rfl, rfl⟩
  | interrupted h =>
    rw [h]
    exact .inl ⟨rfl, rfl⟩
  | timer h =>
    rw [h]
    exact .inr rfl
  | expired h => rw [h]
  | processing h => rw [h]

/-- A task in its first sleep is woken, comes to its second one, and returns from there. -/
theorem unloads_of_asleep (h : s.task = .sleeping false) (w : World) : s.Unloads top w := by
  have hstop : s.stop = ⟨{ s with task := .sleeping true }, false⟩ := by
    rw [stop, h]
    rfl
  rw [Unloads, hstop]
  refine inevitable_turn ⟨_, .woken rfl⟩ fun q hq ↦ ?_
  obtain ⟨-, rfl⟩ := attends_cases hq
  refine inevitable_turn ⟨_, .timer rfl⟩ fun q hq ↦ ?_
  rcases attends_cases hq with ⟨hwoken, -⟩ | rfl
  · exact Bool.noConfusion hwoken
  · refine fun _ ↦ ⟨trivial, fun _ w' hans ↦ ?_⟩
    obtain rfl : w' = { w with passed := max w.passed _ } := hans
    exact .here ⟨rfl, ⟨rfl, rfl⟩, rfl⟩

theorem wp_anything {α : Type} (p : Prog α) (u : Unit) :
    p.wp anything (fun _ ↦ True) (fun _ _ ↦ True) u := by
  induction p generalizing u with
  | pure a => trivial
  | fail e => trivial
  | call o k ih => exact fun _ ↦ ⟨trivial, fun a u _ ↦ ih a u⟩

theorem sleep_ne_starting (s : System) : s.sleep.task ≠ .starting := by
  unfold sleep
  dsimp only
  split
  · exact Task.noConfusion
  · exact Task.noConfusion

theorem announce_ne_starting (h : s.task ≠ .starting) :
    s.announce.wp anything (fun _ ↦ True) (fun s' _ ↦ s'.task ≠ .starting) u := by
  rw [announce, Program.bind_eq, Program.wp_bind]
  refine Program.wp_mono (fun r u _ ↦ ?_) (wp_anything _ _)
  dsimp only
  split
  · cases htask : s.task with
    | starting => exact absurd htask h
    | _ => exact Task.noConfusion
  · exact h

theorem strategy_ne_starting (h : s.task ≠ .starting) (queue : List Request) :
    (s.strategy queue).wp anything (fun _ ↦ True) (fun s' _ ↦ s'.task ≠ .starting) u := by
  rw [strategy, Program.bind_eq, Program.wp_bind]
  refine Program.wp_mono (fun r u hr ↦ ?_)
    (Program.wp_weaken (fun _ _ ↦ trivial) sameTask_strategyLoop)
  have htask : r.1.task ≠ .starting := fun heq ↦ h (hr.task.symm.trans heq)
  dsimp only
  split
  · exact announce_ne_starting htask
  · exact htask

theorem findNext_ne_starting (s : System) :
    s.findNext.wp anything (fun _ ↦ True) (fun s' _ ↦ s'.task ≠ .starting) u := by
  rw [findNext, Program.bind_eq, Program.wp_bind]
  refine Program.wp_mono (fun r u _ ↦ ?_) (wp_anything _ _)
  dsimp only
  split
  · split
    · trivial
    refine fun _ ↦ ⟨trivial, fun t u _ ↦ ?_⟩
    dsimp only [Program.bind]
    split
    · exact Task.noConfusion
    · exact sleep_ne_starting _
  · exact sleep_ne_starting _

theorem processNext_ne_starting (s : System) :
    s.processNext.wp anything (fun _ ↦ True) (fun s' _ ↦ s'.task ≠ .starting) u := by
  refine fun _ ↦ ⟨trivial, fun t u _ ↦ ?_⟩
  dsimp only [Program.bind]
  split
  · trivial
  split
  · trivial
  split
  · trivial
  rw [Program.bind_eq, Program.wp_bind]
  exact Program.wp_mono (fun s' u _ ↦ findNext_ne_starting s') (wp_anything _ _)

theorem turn_ne_starting {P : Request → Prop} {p : Prog System} (h : s.task ≠ .starting)
    (hp : Enters P s p) : p.wp anything (fun _ ↦ True) (fun s' _ ↦ s'.task ≠ .starting) u := by
  cases hp with
  | strategy _ _ _ => exact strategy_ne_starting h _
  | softirqDone _ _ _ =>
    unfold softirqDone
    dsimp only
    split
    · refine strategy_ne_starting ?_ _
      exact h
    · exact h
  | start htask => exact absurd htask h
  | woken _ => exact Task.noConfusion
  | interrupted _ => exact Task.noConfusion
  | timer _ => exact fun _ ↦ ⟨trivial, fun _ _ _ ↦ Task.noConfusion⟩
  | expired _ => exact processNext_ne_starting s
  | processing _ => exact processNext_ne_starting s

end System

theorem Invariant.drained_task (hi : Invariant n top s w) (htop : top < LONG_MAX) (hd : s.Drained) :
    s.task = .starting ∨ s.task = .sleeping false := by
  have hnum : s.disk.nextResponseToReplyNum = 0 := by
    refine (hi.nextBatch htop).num.mpr (List.eq_nil_iff_forall_not_mem.mpr fun id hun ↦ ?_)
    have hmem := hi.books.mem_unreplied.mp hun
    rw [hd.pending] at hmem
    exact List.not_mem_nil hmem
  have hminds := hi.minds
  cases htask : s.task with
  | starting => exact .inl rfl
  | sleeping woken =>
    rw [htask] at hminds
    cases woken with
    | true => exact absurd hnum (hminds.mpr rfl)
    | false => exact .inr rfl
  | sleepingUntil time woken =>
    rw [htask] at hminds
    exact absurd hnum hminds.1
  | expired =>
    rw [htask] at hminds
    exact absurd hnum hminds
  | processing => exact absurd htask hd.lockFree

/-- `setup_nctuss_emudisk_processing_task` waits until the processing task sleeps. After that the
module can always be unloaded once nothing is left to do. -/
theorem unloads_always (h1 : 1 ≤ n) (hn : n ≤ MAX_DISK_REQUESTS_IN_PARALLEL) (h0 : 0 ≤ top)
    (htop : top < LONG_MAX) (h : (turns System.Usual n speed).Reachable (reliable top) s w)
    (hsetup : s.task ≠ .starting)
    (hl : (turns System.Usual n speed).Leads (reliable top) s w s' w') (hd : s'.Drained) :
    s'.Unloads top w' := by
  have hi := (reachable_invariant (keeps_reliable top) h1 hn h0 htop.le (hl.reachable h)).1
  have hstarted : s'.task ≠ .starting :=
    hl.keeps (I := fun s _ ↦ s.task ≠ .starting) (fun _ _ _ s' _ hs hp hrun ↦
      ((wp_runs (keeps_anything (reliable top)) trivial
        (System.turn_ne_starting (u := ()) hs hp) hrun).1 s' rfl).choose_spec.2) hsetup
  rcases hi.drained_task htop hd with hstart | hasleep
  · exact absurd hstart hstarted
  · exact System.unloads_of_asleep hasleep w'

/-- Unloading after a write and a read. -/
theorem unloads_always_two :
    ∃ s w, (turns System.Usual 2 0).Reachable (reliable (LONG_MAX - 1)) s w ∧
    s.completed.map (·.requestId) = [124, 126] ∧ s.task ≠ .starting ∧ s.Drained ∧
      s.Unloads (LONG_MAX - 1) w := by
  obtain ⟨⟨s, w⟩, hs, hcompleted, htask, hpending, hcompleting⟩ : ∃ r ∈ session System.Usual 2 0
      (.task :: .strategy [writeAt 0 5, readAt 1 5] :: List.replicate 4 .task ++
        [.softirqDone 1 [], .softirqDone 0 []]), r.1.completed.map (·.requestId) = [124, 126] ∧
        r.1.task = .sleeping false ∧ r.1.disk.pending = [] ∧ r.1.completing = [] := by
    decide +kernel
  have h := session_reachable hs
  have hsetup : s.task ≠ .starting := fun hstart ↦ Task.noConfusion (htask.symm.trans hstart)
  have hd : s.Drained :=
    ⟨fun hprocessing ↦ Task.noConfusion (htask.symm.trans hprocessing), hpending,
    hcompleting⟩
  exact ⟨s, w, h, hcompleted, hsetup, hd,
    unloads_always (by decide) (by decide) (by decide) (by decide) h hsetup .here hd⟩

end Nctusde.EmulatorKernel

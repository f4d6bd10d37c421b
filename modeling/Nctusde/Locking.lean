import Nctusde.EmulatorKernel.Wakeup
import Nctusde.Library.Simulation
import Nctusde.Library.Typestate
import Nctusde.Ramdisk.Completion

namespace Nctusde.Locking

open BlockLayer Library Library.Typestate

/-- What a context does to `Emudisk.lock`, and the requests it fetches. -/
inductive Event
  | fetch (cmdType : CmdType)
  | acquire
  | release
  deriving DecidableEq, Repr

/-- Whether the context holds the lock; `none` when it takes the lock twice or gives back what it
does not hold. -/
def effect : Bool → Event → Option Bool
  | held, .fetch _ => some held
  | false, .acquire => some true
  | true, .acquire => none
  | true, .release => some false
  | false, .release => none

/-- The kernel's `blk_end_request_all` takes the queue lock itself. -/
def blkEndRequestAll : List Event := [.acquire, .release]

def IsFs (e : Event) : Prop := ∀ cmdType, e = .fetch cmdType → cmdType = .fs

inductive StrategyLabel
  | loop
  | submitted
  | peek
  | tail
  | done
  | trapped

/-- The block layer enters `strategy` with the lock held. -/
def strategyHeld (_ : StrategyLabel) : Bool := true

inductive SoftirqLabel
  | start
  | ended
  | locked
  | nested
  | restarted
  | done

def softirqHeld : SoftirqLabel → Bool
  | .start => false
  | .ended => false
  | .locked => true
  | .nested => true
  | .restarted => true
  | .done => false

/-- `nctuss_emudisk_softirq_done`, the same in both drivers; `nested` is any point inside the
`strategy` that `blk_start_queue` calls. -/
inductive SoftirqEdge (strategy : FlowGraph Event StrategyLabel) :
    SoftirqLabel → List Event → SoftirqLabel → Prop
  | endRequest : SoftirqEdge strategy .start blkEndRequestAll .ended
  | lock : SoftirqEdge strategy .ended [.acquire] .locked
  | notStopped : SoftirqEdge strategy .locked [] .restarted
  | inside {es : List Event} {l : StrategyLabel} : strategy.Path strategy.entry es l →
      SoftirqEdge strategy .locked es .nested
  | startQueue {es : List Event} : strategy.Path strategy.entry es strategy.exit →
      SoftirqEdge strategy .locked es .restarted
  | unlock : SoftirqEdge strategy .restarted [.release] .done

def softirqDone (strategy : FlowGraph Event StrategyLabel) : FlowGraph Event SoftirqLabel :=
  ⟨.start, .done, SoftirqEdge strategy⟩

inductive TaskLabel
  | start
  | loop
  | idle
  | resleep
  | asleep
  | awake
  | processNext
  | processed
  | done
  | trapped

def taskHeld : TaskLabel → Bool
  | .start => false
  | .loop => true
  | .idle => false
  | .resleep => true
  | .asleep => false
  | .awake => true
  | .processNext => true
  | .processed => true
  | .done => false
  | .trapped => true

/-- The head of the loop of the processing task, up to `process_next_without_sleep`. -/
inductive SleepEdge : TaskLabel → List Event → TaskLabel → Prop
  | enter : SleepEdge .start [.acquire] .loop
  | nothingPending : SleepEdge .loop [.release] .idle
  | interrupted : SleepEdge .idle [.acquire] .resleep
  | pending : SleepEdge .loop [] .resleep
  | sleep : SleepEdge .resleep [.release] .asleep
  | stopping : SleepEdge .asleep [] .done
  | wakeUp : SleepEdge .asleep [.acquire] .awake
  | again : SleepEdge .awake [] .resleep
  | expired : SleepEdge .awake [] .processNext

namespace EmulatorKernel

inductive StrategyEdge : StrategyLabel → List Event → StrategyLabel → Prop
  | noRequest : StrategyEdge .loop [] .tail
  | skip {cmdType : CmdType} : cmdType ≠ .fs →
      StrategyEdge .loop (.fetch cmdType :: blkEndRequestAll) .loop
  | trap {cmdType : CmdType} : cmdType = .fs → StrategyEdge .loop [.fetch cmdType] .trapped
  | submit {cmdType : CmdType} : cmdType = .fs → StrategyEdge .loop [.fetch cmdType] .submitted
  | stopQueue : StrategyEdge .submitted [] .tail
  | running : StrategyEdge .submitted [] .peek
  | peekNone : StrategyEdge .peek [] .tail
  | peekSome : StrategyEdge .peek [] .loop
  | tail : StrategyEdge .tail [] .done

def strategy : FlowGraph Event StrategyLabel := ⟨.loop, .done, StrategyEdge⟩

/-- `nctuss_emudisk_processing_task_func`, with a turn of `processNext` for each request of the
batch. -/
inductive TaskEdge : TaskLabel → List Event → TaskLabel → Prop
  | sleep {l l' : TaskLabel} {es : List Event} : SleepEdge l es l' → TaskEdge l es l'
  | trap : TaskEdge .processNext [] .trapped
  | complete : TaskEdge .processNext [] .processNext
  | batchDone : TaskEdge .processNext [] .processed
  | nextTrap : TaskEdge .processed [] .trapped
  | processNext : TaskEdge .processed [] .processNext
  | loop : TaskEdge .processed [] .loop

def processingTask : FlowGraph Event TaskLabel := ⟨.start, .done, TaskEdge⟩

end EmulatorKernel

namespace Ramdisk

/-- `nctuss_emudisk_strategy`, which does not peek. -/
inductive StrategyEdge : StrategyLabel → List Event → StrategyLabel → Prop
  | noRequest : StrategyEdge .loop [] .tail
  | skip {cmdType : CmdType} : cmdType ≠ .fs →
      StrategyEdge .loop (.fetch cmdType :: blkEndRequestAll) .loop
  | trap {cmdType : CmdType} : cmdType = .fs → StrategyEdge .loop [.fetch cmdType] .trapped
  | submit {cmdType : CmdType} : cmdType = .fs → StrategyEdge .loop [.fetch cmdType] .submitted
  | stopQueue : StrategyEdge .submitted [] .tail
  | running : StrategyEdge .submitted [] .loop
  | tail : StrategyEdge .tail [] .done

def strategy : FlowGraph Event StrategyLabel := ⟨.loop, .done, StrategyEdge⟩

/-- `nctuss_emudisk_processing_task_func`, which completes one request a pass. -/
inductive TaskEdge : TaskLabel → List Event → TaskLabel → Prop
  | sleep {l l' : TaskLabel} {es : List Event} : SleepEdge l es l' → TaskEdge l es l'
  | early : TaskEdge .awake [] .trapped
  | trap : TaskEdge .processNext [] .trapped
  | processed : TaskEdge .processNext [] .processed
  | processNext : TaskEdge .processed [] .processNext
  | loop : TaskEdge .processed [] .loop

def processingTask : FlowGraph Event TaskLabel := ⟨.start, .done, TaskEdge⟩

end Ramdisk

variable {es : List Event}

theorem isFs_fetch {cmdType : CmdType} : IsFs (.fetch cmdType) ↔ cmdType = .fs :=
  ⟨fun h ↦ h cmdType rfl, fun h _ heq ↦ Event.fetch.inj heq ▸ h⟩

theorem isFs_acquire : IsFs .acquire := fun _ h ↦ nomatch h

theorem isFs_release : IsFs .release := fun _ h ↦ nomatch h

theorem isFs_blkEndRequestAll : ∀ e ∈ blkEndRequestAll, IsFs e :=
  List.forall_mem_cons.mpr ⟨isFs_acquire, List.forall_mem_singleton.mpr isFs_release⟩

theorem isFs_fetched {cmdType : CmdType} (h : cmdType = .fs) :
    ∀ e ∈ [Event.fetch cmdType], IsFs e :=
  List.forall_mem_singleton.mpr (isFs_fetch.mpr h)

theorem isFs_nil : ∀ e ∈ ([] : List Event), IsFs e := fun _ he ↦ absurd he List.not_mem_nil

theorem skip_refused (cmdType : CmdType) :
    after effect true (.fetch cmdType :: blkEndRequestAll) = none := rfl

def Fetches (es : List Event) : Prop :=
  es = [] ∨ es = [.fetch .fs] ∨
    ∃ cmdType, cmdType ≠ .fs ∧ es = .fetch cmdType :: blkEndRequestAll

theorem Fetches.right {cmdType : CmdType} (h : cmdType = .fs) : Fetches [.fetch cmdType] :=
  .inr (.inl (h ▸ rfl))

theorem Fetches.skip {cmdType : CmdType} (h : cmdType ≠ .fs) :
    Fetches (.fetch cmdType :: blkEndRequestAll) := .inr (.inr ⟨cmdType, h, rfl⟩)

theorem annotates_of_fetches {strategy : FlowGraph Event StrategyLabel}
    (h : ∀ l es l', strategy.edge l es l' → Fetches es) :
    strategy.Annotates effect strategyHeld IsFs where
  keeps := by
    intro l es l' hedge hfs
    obtain rfl | rfl | ⟨cmdType, hother, rfl⟩ := h l es l' hedge
    · rfl
    · rfl
    · exact absurd (isFs_fetch.mp (hfs _ (List.mem_cons_self ..))) hother
  refuses := by
    intro l es l' hedge hfs
    obtain rfl | rfl | ⟨cmdType, hother, rfl⟩ := h l es l' hedge
    · exact absurd isFs_nil hfs
    · exact absurd (isFs_fetched rfl) hfs
    · exact skip_refused cmdType

theorem emulatorKernel_strategy :
    EmulatorKernel.strategy.Annotates effect strategyHeld IsFs := by
  apply annotates_of_fetches
  intro l es l' h
  cases h with
  | skip hother => exact .skip hother
  | trap hright => exact .right hright
  | submit hright => exact .right hright
  | _ => exact .inl rfl

theorem ramdisk_strategy : Ramdisk.strategy.Annotates effect strategyHeld IsFs := by
  apply annotates_of_fetches
  intro l es l' h
  cases h with
  | skip hother => exact .skip hother
  | trap hright => exact .right hright
  | submit hright => exact .right hright
  | _ => exact .inl rfl

theorem softirqDone_annotates {strategy : FlowGraph Event StrategyLabel}
    (h : strategy.Annotates effect strategyHeld IsFs) :
    (softirqDone strategy).Annotates effect softirqHeld IsFs where
  keeps := by
    intro l es l' hedge hfs
    cases hedge with
    | inside hpath => exact h.path hpath hfs
    | startQueue hpath => exact h.path hpath hfs
    | _ => rfl
  refuses := by
    intro l es l' hedge hfs
    cases hedge with
    | endRequest => exact absurd isFs_blkEndRequestAll hfs
    | lock => exact absurd (List.forall_mem_singleton.mpr isFs_acquire) hfs
    | notStopped => exact absurd isFs_nil hfs
    | inside hpath => exact h.path_refused hpath hfs
    | startQueue hpath => exact h.path_refused hpath hfs
    | unlock => exact absurd (List.forall_mem_singleton.mpr isFs_release) hfs

theorem sleepEdge_keeps {l l' : TaskLabel} (h : SleepEdge l es l') :
    after effect (taskHeld l) es = some (taskHeld l') := by
  cases h <;> rfl

theorem emulatorKernel_task :
    EmulatorKernel.processingTask.Annotates effect taskHeld fun _ ↦ True where
  keeps := by
    intro l es l' h _
    cases h with
    | sleep h => exact sleepEdge_keeps h
    | _ => rfl
  refuses := fun _ _ _ _ h ↦ absurd (fun _ _ ↦ trivial) h

theorem ramdisk_task : Ramdisk.processingTask.Annotates effect taskHeld fun _ ↦ True where
  keeps := by
    intro l es l' h _
    cases h with
    | sleep h => exact sleepEdge_keeps h
    | _ => rfl
  refuses := fun _ _ _ _ h ↦ absurd (fun _ _ ↦ trivial) h

def fetched (es : List Event) : List CmdType :=
  es.filterMap fun e ↦ match e with
    | .fetch cmdType => some cmdType
    | _ => none

/-- A path through the loop of `strategy` that fetches from the head of the queue. -/
def Takes (g : FlowGraph Event StrategyLabel) (queue : List Request) (es : List Event)
    (l : StrategyLabel) : Prop :=
  g.Path .loop es l ∧ fetched es <+: queue.map Request.cmdType

variable {g : FlowGraph Event StrategyLabel} {W : Type} {w : W} {queue : List Request} {flag : Bool}
  {req : Request} {l : StrategyLabel}

theorem Takes.nil (h : g.Path .loop [] l) : Takes g queue [] l := ⟨h, List.nil_prefix⟩

theorem Takes.last {es : List Event} (h : g.Path .loop (.fetch req.cmdType :: es) l)
    (hes : fetched es = []) : Takes g (req :: queue) (.fetch req.cmdType :: es) l := by
  refine ⟨h, List.cons_prefix_cons.mpr ⟨rfl, ?_⟩⟩
  rw [show List.filterMap _ es = fetched es from rfl, hes]
  exact List.nil_prefix

theorem Takes.next (h : Takes g queue es l) (hg : g.Path .loop [.fetch req.cmdType] .loop) :
    Takes g (req :: queue) (.fetch req.cmdType :: es) l :=
  ⟨hg.trans h.1, List.cons_prefix_cons.mpr ⟨rfl, h.2⟩⟩

def Stops (g : FlowGraph Event StrategyLabel) (queue : List Request) (twice : Prop) : Prop :=
  ∃ es l, Takes g queue es l ∧ (twice ↔ after effect true es = none)

def Ends (g : FlowGraph Event StrategyLabel) (queue : List Request) : Prop :=
  ∃ es, Takes g queue es .tail ∧ after effect true es = some true

variable {twice : Prop}

theorem Stops.next (h : Stops g queue twice) (hg : g.Path .loop [.fetch req.cmdType] .loop) :
    Stops g (req :: queue) twice := by
  obtain ⟨es, l, htakes, htwice⟩ := h
  exact ⟨_, l, htakes.next hg, htwice⟩

theorem Ends.next (h : Ends g queue) (hg : g.Path .loop [.fetch req.cmdType] .loop) :
    Ends g (req :: queue) := by
  obtain ⟨es, htakes, hheld⟩ := h
  exact ⟨_, htakes.next hg, hheld⟩

theorem Ends.last (hg : g.Path .loop [.fetch req.cmdType] .tail) : Ends g (req :: queue) :=
  ⟨_, .last hg rfl, rfl⟩

theorem Stops.skip (hg : g.Path .loop (.fetch req.cmdType :: blkEndRequestAll) .loop)
    (htwice : twice) : Stops g (req :: queue) twice :=
  ⟨_, .loop, .last hg rfl, iff_of_true htwice rfl⟩

theorem Stops.trap (hg : g.Path .loop [.fetch req.cmdType] .trapped) (htwice : ¬ twice) :
    Stops g (req :: queue) twice :=
  ⟨_, .trapped, .last hg rfl, iff_of_false htwice fun heq ↦ nomatch heq⟩

/-- The loop of the ramdisk's `strategy` follows its control flow: it is trapped as
`queueLockHeld` where the lock is taken twice, and nowhere else. -/
theorem ramdisk_strategyLoop (G : Handler W Ramdisk.Op Ramdisk.Ans) (s : Ramdisk.System) :
    (s.strategyLoop flag queue).wp G.contract
      (fun trap ↦ Stops Ramdisk.strategy queue (trap = .queueLockHeld))
      (fun _ _ ↦ Ends Ramdisk.strategy queue) w := by
  induction queue generalizing s w flag with
  | nil => exact fun _ ↦ ⟨trivial, fun _ _ _ ↦ ⟨[], .nil (.one .noRequest), rfl⟩⟩
  | cons req queue ih =>
    refine fun _ ↦ ⟨trivial, fun now v _ ↦ ?_⟩
    dsimp only [Program.bind]
    split
    · rename_i hother
      exact .skip (.one (.skip hother)) rfl
    rename_i hfs
    have hfs := of_not_not hfs
    rw [Program.bind_eq, Program.wp_bind]
    generalize hsub : s.disk.submit now req = result
    rcases result with trap | ⟨d, c, wake⟩
    · refine .trap (.one (Ramdisk.StrategyEdge.trap hfs)) fun heq ↦ ?_
      rcases Ramdisk.Emudisk.submitSized_trap hsub with h | h | h | h <;>
        rw [h] at heq <;> cases heq
    have hsubmit : Ramdisk.strategy.Path .loop [.fetch req.cmdType] .submitted :=
      .one (Ramdisk.StrategyEdge.submit hfs)
    dsimp only [Ramdisk.System.record, Program.wp]
    split
    · exact .last (hsubmit.trans (.one Ramdisk.StrategyEdge.stopQueue))
    · have hnext := hsubmit.trans (.one Ramdisk.StrategyEdge.running)
      exact Program.wp_weaken (fun _ h ↦ h.next hnext)
        (Program.wp_mono (fun _ _ h ↦ h.next hnext) (ih _))

theorem submit_unlocked {s : EmulatorKernel.System} {now : ℤ} {u : Unit} (hfs : req.cmdType = .fs) :
    (s.submit now req).wp EmulatorKernel.anything (· ≠ .queueLockHeld) (fun _ _ ↦ True) u := by
  unfold EmulatorKernel.System.submit
  split
  · exact absurd hfs ‹_›
  split
  · exact EmulatorKernel.Trap.noConfusion
  rw [EmulatorKernel.Emudisk.putRequestIdToReqMapping]
  cases s.disk.findRequestId 0 with
  | none => exact EmulatorKernel.Trap.noConfusion
  | some slot =>
    rw [Option.map_some, EmulatorKernel.System.submitPut, EmulatorKernel.System.submitSlot]
    split
    · exact EmulatorKernel.Trap.noConfusion
    rw [Program.bind_eq, Program.wp_bind]
    refine Program.wp_mono (fun d u _ ↦ ?_) EmulatorKernel.sameNext_emulatorSubmitRequest
    rw [Program.bind_eq, Program.wp_bind]
    exact Program.wp_mono (fun _ _ _ ↦ trivial) EmulatorKernel.sameNext_transferSectors

/-- So does the loop of the emudisk's `strategy`, whatever the emulator answers. -/
theorem emulatorKernel_strategyLoop (s : EmulatorKernel.System) (u : Unit) :
    (s.strategyLoop flag queue).wp EmulatorKernel.anything
      (fun trap ↦ Stops EmulatorKernel.strategy queue (trap = .queueLockHeld))
      (fun _ _ ↦ Ends EmulatorKernel.strategy queue) u := by
  induction queue generalizing s u flag with
  | nil =>
    rw [EmulatorKernel.System.strategyLoop, Program.bind_eq, Program.wp_bind]
    exact EmulatorKernel.wp_ktimeGet fun _ _ ↦ ⟨[], .nil (.one .noRequest), rfl⟩
  | cons req queue ih =>
    rw [EmulatorKernel.System.strategyLoop, Program.bind_eq, Program.wp_bind]
    apply EmulatorKernel.wp_ktimeGet
    intro now u
    rw [Program.bind_eq, Program.wp_bind]
    by_cases hfs : req.cmdType = .fs
    · have hsubmit : EmulatorKernel.strategy.Path .loop [.fetch req.cmdType] .submitted :=
        .one (EmulatorKernel.StrategyEdge.submit hfs)
      have hpeek := hsubmit.trans (.one EmulatorKernel.StrategyEdge.running)
      refine Program.wp_weaken (fun trap h ↦ ?_)
        (Program.wp_mono (fun s' u' _ ↦ ?_) (submit_unlocked hfs))
      · exact .trap (.one (EmulatorKernel.StrategyEdge.trap hfs)) h
      split
      · exact .last (hsubmit.trans (.one EmulatorKernel.StrategyEdge.stopQueue))
      split
      · exact .last (hpeek.trans (.one EmulatorKernel.StrategyEdge.peekNone))
      have hnext := hpeek.trans (.one EmulatorKernel.StrategyEdge.peekSome)
      exact Program.wp_weaken (fun _ h ↦ h.next hnext)
        (Program.wp_mono (fun _ _ h ↦ h.next hnext) (ih _ _))
    · rw [EmulatorKernel.System.submit, if_pos hfs]
      exact .skip (.one (.skip hfs)) rfl

/-- The lock is taken and given back as it should be, on every path of every context of both
drivers, exactly as long as no request of another type is fetched: skipping one takes the lock
that `strategy` was entered with. -/
theorem lock_discipline_iff (es : List Event) :
    (∀ l, EmulatorKernel.strategy.Path .loop es l →
      (after effect true es = some true ↔ ∀ e ∈ es, IsFs e)) ∧
    (∀ l, Ramdisk.strategy.Path .loop es l →
      (after effect true es = some true ↔ ∀ e ∈ es, IsFs e)) ∧
    (∀ l, (softirqDone EmulatorKernel.strategy).Path .start es l →
      (after effect false es = some (softirqHeld l) ↔ ∀ e ∈ es, IsFs e)) ∧
    (∀ l, (softirqDone Ramdisk.strategy).Path .start es l →
      (after effect false es = some (softirqHeld l) ↔ ∀ e ∈ es, IsFs e)) ∧
    (∀ l, EmulatorKernel.processingTask.Path .start es l →
      after effect false es = some (taskHeld l)) ∧
    ∀ l, Ramdisk.processingTask.Path .start es l →
      after effect false es = some (taskHeld l) :=
  ⟨fun _ h ↦ emulatorKernel_strategy.path_iff h, fun _ h ↦ ramdisk_strategy.path_iff h,
    fun _ h ↦ (softirqDone_annotates emulatorKernel_strategy).path_iff h,
    fun _ h ↦ (softirqDone_annotates ramdisk_strategy).path_iff h,
    fun _ h ↦ emulatorKernel_task.path h fun _ _ ↦ trivial,
    fun _ h ↦ ramdisk_task.path h fun _ _ ↦ trivial⟩

theorem lock_discipline_iff_nested :
    after effect false (blkEndRequestAll ++ [.acquire] ++ [.fetch .fs] ++ [.release]) =
      some false := by
  have hsubmitted : EmulatorKernel.strategy.Path .loop [.fetch .fs] .submitted :=
    .one (EmulatorKernel.StrategyEdge.submit rfl)
  have hstopped : EmulatorKernel.strategy.Path .submitted [] .tail :=
    .one EmulatorKernel.StrategyEdge.stopQueue
  have hdone : EmulatorKernel.strategy.Path .tail [] .done := .one EmulatorKernel.StrategyEdge.tail
  have hended : (softirqDone EmulatorKernel.strategy).Path .start blkEndRequestAll .ended :=
    .one .endRequest
  have hpath := ((hended.trans (.one .lock)).trans
    (.one (.startQueue ((hsubmitted.trans hstopped).trans hdone)))).trans (.one .unlock)
  exact ((lock_discipline_iff _).2.2.1 _ hpath).mpr
    (List.forall_mem_append.mpr ⟨List.forall_mem_append.mpr ⟨List.forall_mem_append.mpr
      ⟨isFs_blkEndRequestAll, List.forall_mem_singleton.mpr isFs_acquire⟩, isFs_fetched rfl⟩,
      List.forall_mem_singleton.mpr isFs_release⟩)

/-- A request of another type is ended with the lock held, in both drivers. -/
theorem lock_taken_twice :
    EmulatorKernel.strategy.Path .loop (.fetch .other :: blkEndRequestAll) .loop ∧
      Ramdisk.strategy.Path .loop (.fetch .other :: blkEndRequestAll) .loop ∧
      after effect true (.fetch .other :: blkEndRequestAll) = none :=
  ⟨.one (EmulatorKernel.StrategyEdge.skip CmdType.noConfusion),
    .one (Ramdisk.StrategyEdge.skip CmdType.noConfusion), rfl⟩

end Nctusde.Locking

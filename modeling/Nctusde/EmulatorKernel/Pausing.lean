import Nctusde.EmulatorKernel.Service
import Nctusde.Library.Marking

namespace Nctusde.EmulatorKernel

open BlockLayer Library Library.Memory Wire

/-- The two alarms printed around a pause, with the values they show. -/
inductive PauseAlarm
  | alreadyPaused
  | counterMoved (pausedCounterCount counterValue : UInt32)
  deriving DecidableEq, Repr

/-- The CPU a context of the driver runs on, with what all of them share: the flag
`nctuss_OS_paused`, `nctuss_gt_spinlock`, the two timers and the counter of the global one. -/
structure Cpu where
  irqsOff : Bool
  preemptCount : ℕ
  myFlags : Bool
  osPaused : Bool
  gtSpinlock : Bool
  gtStopped : Bool
  ttcStopped : Bool
  counter : UInt32
  pausedCounterCount : UInt32
  alarms : List PauseAlarm
  deriving DecidableEq, Repr

namespace Cpu

variable (c : Cpu)

def localIrqSave : Cpu := { c with irqsOff := true, myFlags := c.irqsOff }

def localIrqRestore : Cpu := { c with irqsOff := c.myFlags }

/-- No result is a context that waits for the lock it holds itself. -/
def spinLock : Option Cpu :=
  if c.gtSpinlock then none
  else some { c with gtSpinlock := true, preemptCount := c.preemptCount + 1 }

def spinUnlock : Cpu := { c with gtSpinlock := false, preemptCount := c.preemptCount - 1 }

def preemptDisable : Cpu := { c with preemptCount := c.preemptCount + 1 }

def preemptEnableNoResched : Cpu := { c with preemptCount := c.preemptCount - 1 }

def printk (alarm : PauseAlarm) : Cpu := { c with alarms := c.alarms ++ [alarm] }

def pauseOS : Option Cpu := do
  let c := c.localIrqSave
  let c := if c.osPaused then c.printk .alreadyPaused else c
  let c := { c with osPaused := true }
  let c ← c.spinLock
  let c := { c with gtStopped := true, ttcStopped := true }
  let c := c.preemptDisable
  return { c with pausedCounterCount := c.counter }

def resumeOS : Cpu :=
  let c :=
    if c.pausedCounterCount ≠ c.counter then c.printk (.counterMoved c.pausedCounterCount c.counter)
    else c
  let c := { c with osPaused := false, gtStopped := false }
  let c := { c.spinUnlock with ttcStopped := false }
  c.preemptEnableNoResched.localIrqRestore

/-- Time goes by; the counter of a stopped global timer stands still. -/
def Elapses (c c' : Cpu) : Prop :=
  ∃ counter, c' = { c with counter := counter } ∧ (c.gtStopped = true → counter = c.counter)

/-- Between two contexts: the next one may run on another CPU. -/
def Switches (c c' : Cpu) : Prop :=
  ∃ irqsOff preemptCount counter, c' = { c with irqsOff, preemptCount, counter }

end Cpu

inductive Pause
  | pauseOS
  | resumeOS

def Cpu.Step (c : Cpu) : Pause → Cpu → Prop
  | .pauseOS, c' => ∃ c₁ c₂, c.Elapses c₁ ∧ c₁.pauseOS = some c₂ ∧ c₂.Elapses c'
  | .resumeOS, c' => ∃ c₁, c.Elapses c₁ ∧ c₁.resumeOS.Elapses c'

/-- The driver's code with its calls of `pause_OS` and `resume_OS` in place. -/
abbrev PausingProg := Program (Op ⊕ Pause) (MarkedAns Ans Pause) Trap

namespace Pausing

variable (s : System)

def pauseOS : PausingProg Unit := Program.mark .pauseOS

def resumeOS : PausingProg Unit := Program.mark .resumeOS

def submitSlot (now : ℤ) (req : Request) (slot : ℕ) : PausingProg System :=
  if req.dataDir = .write ∧ req.bytes > MAX_REQUEST_SECTOR_NUM * SECTOR_SIZE then .fail .tooLong
  else do
    let requestId := s.disk.udpSendReplyId
    let disk := match req.dataDir with
      | .write => s.disk.withData slot
          (gather (s.disk.requestIdToReqMapping slot).data 0 req.segments)
      | .read => s.disk
    pauseOS
    let disk ←
      (disk.emulatorSubmitRequest now req.dataDir req.pos (sectorCount req) requestId).embed
    let disk ← (disk.transferSectors req slot).embed
    resumeOS
    return { s with
      disk := { disk with requestInflight := disk.requestInflight + 1 }
      submitted := s.submitted ++ [(requestId, req)] }

def submitPut (now : ℤ) (req : Request) : Option (ℕ × Emudisk) → PausingProg System
  | none => .fail .noFreeEntry
  | some (slot, disk) => submitSlot { s with disk := disk } now req slot

def submit (now : ℤ) (req : Request) : PausingProg System :=
  if req.cmdType ≠ .fs then .fail .queueLockHeld
  else if toU64 now ≤ s.disk.latestResponseTime then .fail .staleTime
  else submitPut s now req
    (s.disk.putRequestIdToReqMapping s.disk.udpSendReplyId req (sectorCount req))

def strategyLoop (s : System) (newRequestSubmitted : Bool) :
    List Request → PausingProg (System × Bool)
  | [] => do
    let _ ← ktimeGet.embed
    return (s, newRequestSubmitted)
  | req :: queue => do
    let now ← ktimeGet.embed
    let s ← submit s now req
    if s.disk.requestInflight ≥ s.disk.diskChannels then
      return ({ s with queueStopped := true }, true)
    else if queue.isEmpty then return (s, true)
    else strategyLoop s true queue

def announce : PausingProg System := do
  pauseOS
  let (disk, next) ← (s.disk.emulatorGetResponses s.disk.latestResponseTime).embed
  let (disk, needToWakeUpReplyThread) := disk.takeUp next
  resumeOS
  return { s with
    disk := disk
    task := if needToWakeUpReplyThread then s.task.wake else s.task }

def strategy (queue : List Request) : PausingProg System := do
  let (s, newRequestSubmitted) ← strategyLoop s false queue
  if newRequestSubmitted then announce s else return s

def softirqDone (req : Request) (queue : List Request) : PausingProg System :=
  let s := { s with
    disk := { s.disk with requestInflight := s.disk.requestInflight - 1 }
    completing := s.completing.eraseP fun r ↦ r.tag = req.tag }
  if s.queueStopped then strategy { s with queueStopped := false } queue else return s

/-- A response that is in the past stops the task for ever, with the OS paused. -/
def findNext : PausingProg System := do
  pauseOS
  let (disk, next) ← (s.disk.emulatorGetResponses s.disk.latestResponseTime).embed
  if next.num ≠ 0 then
    if next.time < disk.latestResponseTime then .fail .nextBeforeLatest
    else do
      let s := { s with disk := disk.replace next }
      let now ← ktimeGet.embed
      if s.disk.nextResponseToReplyTime < now then do
        resumeOS
        return { s with task := .processing }
      else do
        resumeOS
        return s.sleep
  else do
    resumeOS
    return ({ s with disk := disk.replace next } : System).sleep

def processNext : PausingProg System := do
  let now ← ktimeGet.embed
  if s.disk.latestResponseTime > toU64 now then .fail .latestAfterNow
  else if s.disk.latestResponseTime > toU64 s.disk.nextResponseToReplyTime then
    .fail .latestAfterNext
  else if s.disk.nextResponseToReplyNum = 0 then .fail .nothingPending
  else do
    let s ← (s.completeBatch now).embed
    findNext s

/-- The contexts of `System.Enters`, with their pauses. -/
inductive Enters (P : Request → Prop) : System → PausingProg System → Prop
  | strategy {s : System} {queue : List Request} : s.LockFree → s.queueStopped = false →
      (∀ req ∈ queue, P req) → Enters P s (strategy s queue)
  | softirqDone {s : System} {req : Request} {queue : List Request} : s.LockFree →
      req ∈ s.completing → (∀ req ∈ queue, P req) → Enters P s (softirqDone s req queue)
  | start {s : System} : s.task = .starting → Enters P s (.pure s.sleep)
  | woken {s : System} : s.task = .sleeping true → Enters P s (.pure s.resleep)
  | interrupted {s : System} {time : ℤ} : s.task = .sleepingUntil time true →
      Enters P s (.pure s.resleep)
  | timer {s : System} {time : ℤ} {woken : Bool} : s.task = .sleepingUntil time woken →
      Enters P s (s.timerExpired time).embed
  | expired {s : System} : s.task = .expired → Enters P s (processNext s)
  | processing {s : System} : s.task = .processing → Enters P s (processNext s)

/-! Without their pauses the contexts are those of `System.Enters`. -/

theorem erase_submitSlot (now : ℤ) (req : Request) (slot : ℕ) :
    (submitSlot s now req slot).erase = s.submitSlot now req slot := by
  rw [submitSlot, System.submitSlot]
  split
  · rfl
  · cases req.dataDir <;>
      simp only [pauseOS, resumeOS, Program.bind_eq, Program.pure_eq, Program.erase_bind,
        Program.erase_mark, Program.erase_embed, Program.pure_bind, Program.erase]

theorem erase_submit (now : ℤ) (req : Request) :
    (submit s now req).erase = s.submit now req := by
  rw [submit, System.submit]
  split
  · rfl
  split
  · rfl
  · cases s.disk.putRequestIdToReqMapping s.disk.udpSendReplyId req (sectorCount req) with
    | none => rfl
    | some put => exact erase_submitSlot _ now req put.1

theorem erase_strategyLoop (b : Bool) (queue : List Request) :
    (strategyLoop s b queue).erase = s.strategyLoop b queue := by
  induction queue generalizing s b with
  | nil => rfl
  | cons req queue ih =>
    rw [strategyLoop, System.strategyLoop]
    simp only [Program.bind_eq, Program.pure_eq, Program.erase_bind, Program.erase_embed,
      erase_submit]
    refine congrArg _ (funext fun now ↦ congrArg _ (funext fun s ↦ ?_))
    split
    · rfl
    split
    · rfl
    · exact ih s true

theorem erase_announce : (announce s).erase = s.announce := by
  rw [announce, System.announce]
  simp only [pauseOS, resumeOS, Program.bind_eq, Program.pure_eq, Program.erase_bind,
    Program.erase_mark, Program.erase_embed, Program.pure_bind, Program.erase]

theorem erase_strategy (queue : List Request) : (strategy s queue).erase = s.strategy queue := by
  rw [strategy, System.strategy]
  simp only [Program.bind_eq, Program.pure_eq, Program.erase_bind, erase_strategyLoop]
  refine congrArg _ (funext fun r ↦ ?_)
  split
  · exact erase_announce r.1
  · rfl

theorem erase_softirqDone (req : Request) (queue : List Request) :
    (softirqDone s req queue).erase = s.softirqDone req queue := by
  rw [softirqDone, System.softirqDone]
  dsimp only
  split
  · exact erase_strategy _ queue
  · rfl

theorem erase_findNext : (findNext s).erase = s.findNext := by
  rw [findNext, System.findNext]
  simp only [pauseOS, resumeOS, Program.bind_eq, Program.pure_eq, Program.erase_bind,
    Program.erase_mark, Program.erase_embed, Program.pure_bind]
  refine congrArg _ (funext fun r ↦ ?_)
  split
  · split
    · rfl
    · simp only [Program.erase_bind, Program.erase_embed]
      refine congrArg _ (funext fun now ↦ ?_)
      split <;> rfl
  · rfl

theorem erase_processNext : (processNext s).erase = s.processNext := by
  rw [processNext, System.processNext]
  simp only [Program.bind_eq, Program.erase_bind, Program.erase_embed]
  refine congrArg _ (funext fun now ↦ ?_)
  split
  · rfl
  split
  · rfl
  split
  · rfl
  · simp only [Program.erase_bind, Program.erase_embed, erase_findNext]

theorem Enters.erase {P : Request → Prop} {s : System} {p : PausingProg System}
    (h : Enters P s p) : System.Enters P s p.erase := by
  cases h with
  | strategy hfree hq hP => exact erase_strategy s _ ▸ .strategy hfree hq hP
  | softirqDone hfree hreq hP => exact erase_softirqDone s _ _ ▸ .softirqDone hfree hreq hP
  | start ht => exact .start ht
  | woken ht => exact .woken ht
  | interrupted ht => exact .interrupted ht
  | timer ht =>
    rw [Program.erase_embed]
    exact .timer ht
  | expired ht => exact erase_processNext s ▸ .expired ht
  | processing ht => exact erase_processNext s ▸ .processing ht

end Pausing

namespace Cpu

/-- The OS runs, and no pause of it has raised an alarm. -/
structure Idle (c : Cpu) : Prop where
  osPaused : c.osPaused = false
  gtSpinlock : c.gtSpinlock = false
  gtStopped : c.gtStopped = false
  ttcStopped : c.ttcStopped = false
  alarms : c.alarms = []

/-- As a context that found the CPU in `c₀` has to leave it. -/
structure Restored (c₀ c : Cpu) : Prop where
  idle : c.Idle
  irqsOff : c.irqsOff = c₀.irqsOff
  preemptCount : c.preemptCount = c₀.preemptCount

structure Paused (c₀ c : Cpu) : Prop where
  irqsOff : c.irqsOff = true
  preemptCount : c.preemptCount = c₀.preemptCount + 2
  myFlags : c.myFlags = c₀.irqsOff
  osPaused : c.osPaused = true
  gtStopped : c.gtStopped = true
  ttcStopped : c.ttcStopped = true
  counter : c.pausedCounterCount = c.counter
  alarms : c.alarms = []

structure Silent (c : Cpu) : Prop where
  irqsOff : c.irqsOff = true
  preemptCount : 0 < c.preemptCount
  osPaused : c.osPaused = true
  gtStopped : c.gtStopped = true
  ttcStopped : c.ttcStopped = true
  counter : c.pausedCounterCount = c.counter

/-- Exchanges with the emulator wait for a pause, pauses are not nested, and the counter is
found as it was left. -/
def Owes (c : Cpu) : Op ⊕ Pause → Prop
  | .inl (.communicate _ _) => c.Silent
  | .inl .ktimeGet => True
  | .inl (.hrtimerExpired _) => True
  | .inr .pauseOS => c.osPaused = false ∧ c.gtSpinlock = false
  | .inr .resumeOS => c.osPaused = true ∧ c.pausedCounterCount = c.counter

variable {c₀ c c' : Cpu}

theorem Idle.restored (h : c.Idle) : Restored c c := ⟨h, rfl, rfl⟩

theorem Restored.elapses (h : Restored c₀ c) (he : c.Elapses c') : Restored c₀ c' := by
  obtain ⟨counter, rfl, -⟩ := he
  exact ⟨⟨h.idle.osPaused, h.idle.gtSpinlock, h.idle.gtStopped, h.idle.ttcStopped, h.idle.alarms⟩,
    h.irqsOff, h.preemptCount⟩

theorem Idle.switches (h : c.Idle) (hs : c.Switches c') : c'.Idle := by
  obtain ⟨irqsOff, preemptCount, counter, rfl⟩ := hs
  exact ⟨h.osPaused, h.gtSpinlock, h.gtStopped, h.ttcStopped, h.alarms⟩

theorem elapses_still (hstop : c.gtStopped = true) (he : c.Elapses c') : c' = c := by
  obtain ⟨counter, rfl, hcount⟩ := he
  rw [hcount hstop]

theorem Paused.silent (h : Paused c₀ c) : c.Silent where
  irqsOff := h.irqsOff
  preemptCount := by
    rw [h.preemptCount]
    exact Nat.succ_pos _
  osPaused := h.osPaused
  gtStopped := h.gtStopped
  ttcStopped := h.ttcStopped
  counter := h.counter

theorem Idle.pauseOS (h : c.Idle) : c.pauseOS = some { c with
    irqsOff := true
    preemptCount := c.preemptCount + 2
    myFlags := c.irqsOff
    osPaused := true
    gtSpinlock := true
    gtStopped := true
    ttcStopped := true
    pausedCounterCount := c.counter } := by
  simp only [Cpu.pauseOS, localIrqSave, h.osPaused, spinLock, h.gtSpinlock]
  rfl

theorem Restored.pause (h : Restored c₀ c) (hstep : c.Step .pauseOS c') : Paused c₀ c' := by
  obtain ⟨c₁, c₂, he, hpause, he'⟩ := hstep
  have h₁ := h.elapses he
  rw [h₁.idle.pauseOS, Option.some.injEq] at hpause
  subst hpause
  obtain rfl := elapses_still rfl he'
  exact ⟨rfl, congrArg (· + 2) h₁.preemptCount, h₁.irqsOff, rfl, rfl, rfl, rfl, h₁.idle.alarms⟩

theorem Paused.resume (h : Paused c₀ c) (hstep : c.Step .resumeOS c') : Restored c₀ c' := by
  obtain ⟨c₁, he, he'⟩ := hstep
  obtain rfl := elapses_still h.gtStopped he
  refine Restored.elapses ⟨⟨rfl, rfl, rfl, rfl, ?_⟩, ?_, ?_⟩ he'
  · simp [resumeOS, h.counter, h.alarms, localIrqRestore, preemptEnableNoResched, spinUnlock]
  · simp [resumeOS, h.counter, h.myFlags, localIrqRestore, preemptEnableNoResched, spinUnlock]
  · simp [resumeOS, h.counter, h.preemptCount, localIrqRestore, preemptEnableNoResched, spinUnlock]

end Cpu

namespace Pausing

open Cpu

def pauses : Contract Cpu (Op ⊕ Pause) (MarkedAns Ans Pause) := .marks Elapses Step Owes

variable {α β : Type} {c₀ c : Cpu}

theorem wp_pauseOS {Q : Unit → Cpu → Prop} (h : Restored c₀ c) (hQ : ∀ c', Paused c₀ c' → Q () c') :
    pauseOS.wp pauses (fun _ ↦ True) Q c :=
  fun _ ↦ ⟨⟨h.idle.osPaused, h.idle.gtSpinlock⟩, fun _ c' hstep ↦ hQ c' (h.pause hstep)⟩

theorem wp_resumeOS {Q : Unit → Cpu → Prop} (h : Paused c₀ c)
    (hQ : ∀ c', Restored c₀ c' → Q () c') :
    resumeOS.wp pauses (fun _ ↦ True) Q c :=
  fun _ ↦ ⟨⟨h.osPaused, h.counter⟩, fun _ c' hstep ↦ hQ c' (h.resume hstep)⟩

theorem wp_paused {p : Prog α} {Q : α → Cpu → Prop} (h : Paused c₀ c) (hQ : ∀ a, Q a c) :
    (p.embed : PausingProg α).wp pauses (fun _ ↦ True) Q c := by
  refine Program.wp_embed_still (fun c' ↦ elapses_still h.gtStopped) (fun o ↦ ?_)
    (fun _ ↦ trivial) hQ
  cases o with
  | communicate request data => exact h.silent
  | ktimeGet => trivial
  | hrtimerExpired time => trivial

theorem wp_resumed (h : Paused c₀ c) (a : α) :
    (resumeOS.bind fun _ ↦ .pure a).wp pauses (fun _ ↦ True) (fun _ c' ↦ Restored c₀ c') c := by
  rw [Program.wp_bind]
  exact wp_resumeOS h fun _ h' ↦ h'

def Tidy (p : PausingProg α) : Prop :=
  ∀ c₀ c, Restored c₀ c → p.wp pauses (fun _ ↦ True) (fun _ c' ↦ Restored c₀ c') c

theorem Tidy.pure (a : α) : Tidy (.pure a) := fun _ _ h ↦ h

theorem Tidy.fail (e : Trap) : Tidy (.fail e : PausingProg α) := fun _ _ _ ↦ trivial

theorem Tidy.bind {p : PausingProg α} {f : α → PausingProg β} (hp : Tidy p) (hf : ∀ a, Tidy (f a)) :
    Tidy (p.bind f) := by
  intro c₀ c h
  rw [Program.wp_bind]
  exact Program.wp_mono (fun a c' h' ↦ hf a c₀ c' h') (hp c₀ c h)

theorem Tidy.ite {q : Prop} [Decidable q] {p p' : PausingProg α} (hp : Tidy p) (hp' : Tidy p') :
    Tidy (if q then p else p') := by
  split
  · exact hp
  · exact hp'

theorem tidy_ktimeGet : Tidy ktimeGet.embed :=
  fun _ _ h _ ↦ ⟨trivial, fun _ _ he ↦ h.elapses he⟩

theorem tidy_timerExpired (s : System) (time : ℤ) : Tidy (s.timerExpired time).embed :=
  fun _ _ h _ ↦ ⟨trivial, fun _ _ he ↦ h.elapses he⟩

variable (s : System)

theorem tidy_submitSlot (now : ℤ) (req : Request) (slot : ℕ) :
    Tidy (submitSlot s now req slot) := by
  rw [submitSlot]
  refine .ite (.fail _) fun c₀ c h ↦ ?_
  simp only [Program.bind_eq, Program.wp_bind]
  refine wp_pauseOS h fun c₁ h₁ ↦ wp_paused h₁ fun disk ↦ wp_paused h₁ fun disk' ↦ ?_
  exact wp_resumeOS h₁ fun _ h₂ ↦ h₂

theorem tidy_submit (now : ℤ) (req : Request) : Tidy (submit s now req) := by
  rw [submit]
  refine .ite (.fail _) (.ite (.fail _) ?_)
  cases s.disk.putRequestIdToReqMapping s.disk.udpSendReplyId req (sectorCount req) with
  | none => exact .fail _
  | some put => exact tidy_submitSlot _ now req put.1

theorem tidy_strategyLoop (b : Bool) (queue : List Request) : Tidy (strategyLoop s b queue) := by
  induction queue generalizing s b with
  | nil => exact .bind tidy_ktimeGet fun _ ↦ .pure _
  | cons req queue ih =>
    refine .bind tidy_ktimeGet fun now ↦ .bind (tidy_submit s now req) fun s ↦ ?_
    exact .ite (.pure _) (.ite (.pure _) (ih s true))

theorem tidy_announce : Tidy (announce s) := by
  intro c₀ c h
  simp only [announce, Program.bind_eq, Program.wp_bind]
  exact wp_pauseOS h fun c₁ h₁ ↦ wp_paused h₁ fun r ↦ wp_resumeOS h₁ fun _ h₂ ↦ h₂

theorem tidy_strategy (queue : List Request) : Tidy (strategy s queue) :=
  .bind (tidy_strategyLoop s false queue) fun r ↦ .ite (tidy_announce r.1) (.pure _)

theorem tidy_softirqDone (req : Request) (queue : List Request) : Tidy (softirqDone s req queue) :=
  .ite (tidy_strategy _ queue) (.pure _)

/-- Each way out of the search for the next batch resumes the OS, but for the endless loop. -/
theorem tidy_findNext : Tidy (findNext s) := by
  intro c₀ c h
  simp only [findNext, Program.bind_eq, Program.wp_bind]
  refine wp_pauseOS h fun c₁ h₁ ↦ wp_paused h₁ fun r ↦ ?_
  split
  · split
    · trivial
    · simp only [Program.wp_bind]
      refine wp_paused h₁ fun now ↦ ?_
      split
      · exact wp_resumed h₁ _
      · exact wp_resumed h₁ _
  · exact wp_resumed h₁ _

theorem tidy_completeBatch (now : ℤ) : Tidy (s.completeBatch now).embed := by
  intro c₀ c h
  refine Program.wp_embed.2 (Program.wp_foldlM_range (fun _ _ c' ↦ Restored c₀ c') ?_ h)
  intro i s c _ h
  cases s.disk.getRequestIdToReqMapping (s.disk.nextResponseToReplyIds i) with
  | none => trivial
  | some got =>
    rw [System.completeEntry]
    split
    · trivial
    · split
      · trivial
      · exact h

theorem tidy_processNext : Tidy (processNext s) := by
  refine .bind tidy_ktimeGet fun now ↦ .ite (.fail _) (.ite (.fail _) (.ite (.fail _) ?_))
  exact .bind (tidy_completeBatch s now) tidy_findNext

theorem Enters.tidy {P : Request → Prop} {s : System} {p : PausingProg System}
    (h : Enters P s p) : Tidy p := by
  cases h with
  | strategy => exact tidy_strategy s _
  | softirqDone => exact tidy_softirqDone s _ _
  | start => exact .pure _
  | woken => exact .pure _
  | interrupted => exact .pure _
  | timer => exact tidy_timerExpired s _
  | expired => exact tidy_processNext s
  | processing => exact tidy_processNext s

def turns {V : Type} (start : System → V → Prop) (P : Request → Prop) (drifts : V → V → Prop) :
    Turns (Op ⊕ Pause) (MarkedAns Ans Pause) Trap System (V × Cpu) where
  start s w := start s w.1 ∧ w.2.Idle
  enters := Enters P
  drifts w w' := (drifts w.1 w'.1 ∨ w'.1 = w.1) ∧ w.2.Switches w'.2

end Pausing

section

open Pausing

variable {V : Type} {G : Handler V Op Ans} {start : System → V → Prop} {P : Request → Prop}
  {drifts : V → V → Prop} {s s' : System} {v v' : V × Cpu} {p : PausingProg System}

theorem Pausing.Tidy.runs (hp : Tidy p) (hidle : v.2.Idle)
    (hrun : p.Runs (G.marked Cpu.Elapses Cpu.Step) v (.ok s') v') : Cpu.Restored v.2 v'.2 := by
  obtain ⟨c', rfl, h⟩ := (Program.wp_runs (Program.keeps_marks G) rfl
    (hp v.2 v.2 hidle.restored) hrun).1 s' rfl
  exact h

theorem reachable_idle
    (h : (Pausing.turns start P drifts).Reachable (G.marked Cpu.Elapses Cpu.Step) s v) :
    v.2.Idle := by
  induction h with
  | start h0 => exact h0.2
  | turn _ hent hrun ih => exact (hent.tidy.runs ih hrun).idle
  | drift _ hd ih => exact ih.switches hd.2

/-- Whatever emulator, network and clock answer, the driver pauses the OS for every exchange, never
pauses it twice, finds the counter where it stopped it and leaves the CPU as it was; and what it
does under its pauses it does in the system without them. -/
theorem exchanges_paused
    (h : (Pausing.turns start P drifts).Reachable (G.marked Cpu.Elapses Cpu.Step) s v) :
    v.2.Idle ∧
      (∀ o v', (Pausing.turns start P drifts).Makes (G.marked Cpu.Elapses Cpu.Step) s v o v' →
        v'.2.Owes o) ∧
      (∀ p s' v', Pausing.Enters P s p → p.Runs (G.marked Cpu.Elapses Cpu.Step) v (.ok s') v' →
        Cpu.Restored v.2 v'.2) ∧
      Turns.Reachable ⟨start, System.Enters P, drifts⟩ G s v.1 := by
  have hidle := reachable_idle h
  refine ⟨hidle, fun o v' hmakes ↦ ?_, fun p s' v' hent hrun ↦ hent.tidy.runs hidle hrun, ?_⟩
  · obtain ⟨p, hent, hm⟩ := hmakes
    obtain ⟨c', rfl, -, howes⟩ := Program.wp_makes (Program.keeps_marks G) rfl
      (hent.tidy v.2 v.2 hidle.restored) hm
    exact howes
  · refine Turns.Reachable.erase ?_ ?_ ?_ h
    · exact fun _ _ hs ↦ hs.1
    · exact fun _ _ hp ↦ hp.erase
    · exact fun _ _ hd ↦ hd.1

end

def Cpu.resting (counter : UInt32) : Cpu where
  irqsOff := false
  preemptCount := 0
  myFlags := false
  osPaused := false
  gtSpinlock := false
  gtStopped := false
  ttcStopped := false
  counter := counter
  pausedCounterCount := 0
  alarms := []

/-- The first request to a driver just loaded. -/
theorem exchanges_paused_one : ∃ request v',
    (Pausing.turns (fun s (_ : Unit) ↦ s = System.loaded 1 1000)
      (fun _ ↦ True) fun _ _ ↦ False).Makes
      (Handler.marked ⟨fun _ _ ↦ True, fun _ _ _ _ ↦ True⟩ Cpu.Elapses Cpu.Step)
      (System.loaded 1 1000) ((), .resting 7) (.inl (.communicate request [])) v' ∧
    v'.2.Silent := by
  have hstart : (Pausing.turns (fun s (_ : Unit) ↦ s = System.loaded 1 1000) (fun _ ↦ True)
      fun _ _ ↦ False).Reachable (Handler.marked ⟨fun _ _ ↦ True, fun _ _ _ _ ↦ True⟩
        Cpu.Elapses Cpu.Step) (System.loaded 1 1000) ((), .resting 7) :=
    .start ⟨rfl, rfl, rfl, rfl, rfl, rfl⟩
  have hmakes : (Pausing.turns (fun s (_ : Unit) ↦ s = System.loaded 1 1000) (fun _ ↦ True)
      fun _ _ ↦ False).Makes (Handler.marked ⟨fun _ _ ↦ True, fun _ _ _ _ ↦ True⟩
        Cpu.Elapses Cpu.Step) (System.loaded 1 1000) ((), .resting 7)
      (.inl (.communicate ((System.loaded 1 1000).disk.submitReqeust 1 .read 0
        (sectorCount sectorRead) 124) []))
      ((), ⟨true, 2, false, true, true, true, true, 9, 9, []⟩) := by
    refine ⟨Pausing.strategy (System.loaded 1 1000) [sectorRead],
      .strategy Task.noConfusion rfl fun _ _ ↦ trivial, trivial, .inr
        ⟨(1 : ℤ), ((), .resting 8), ⟨trivial, 8, rfl, Bool.noConfusion⟩, trivial, .inr ⟨(), ?_⟩⟩⟩
    refine ⟨((), ⟨true, 2, false, true, true, true, true, 9, 9, []⟩), ⟨rfl, .resting 9, _,
      ⟨9, rfl, Bool.noConfusion⟩, rfl, 9, rfl, fun _ ↦ rfl⟩, trivial, .inl ⟨rfl, rfl⟩⟩
  exact ⟨_, _, hmakes, (exchanges_paused hstart).2.1 _ _ hmakes⟩

end Nctusde.EmulatorKernel

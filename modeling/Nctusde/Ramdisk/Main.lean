import Nctusde.BlockLayer
import Nctusde.Library.Program
import Nctusde.UdpServer.SSDSim

namespace Nctusde.Ramdisk

open BlockLayer Library Library.ForLoop Library.Table Wire

def MAX_DISK_REQUESTS_IN_PARALLEL : ℕ := 8

/-- The endless loops of the driver, and the places where it would follow a null
pointer, overflow a signed number or take the lock it holds. -/
inductive Trap
  | sizeClass
  | noEmptySlot
  | pastEnd
  | early
  | overflow
  | nullRequest
  | queueLockHeld
  deriving DecidableEq, Repr

structure Channel where
  requestCompletionTime : ℤ
  requestCompleted : Bool
  request : Option Request
  requestRw : ℤ
  requestLastSector : ℤ

def Channel.assigned (req : Request) (completionTime : ℤ) : Channel where
  requestCompletionTime := completionTime
  requestCompleted := false
  request := some req
  requestRw := req.dataDir.code
  requestLastSector := (req.pos + (req.bytes + (SECTOR_SIZE - 1)) / SECTOR_SIZE : ℕ) % 2 ^ 32

def transferOffset (req : Request) : ℕ := req.pos * SECTOR_SIZE % 2 ^ 32

/-- `memcpy(Emudisk.data + offset, buf, size)`, with addresses of 32 bits. -/
def copyIn (data : ℕ → UInt8) (offset : ℕ) : Bytes → ℕ → UInt8
  | [] => data
  | b :: buf => copyIn (Function.update data (offset % 2 ^ 32) b) (offset + 1) buf

def copyOut (data : ℕ → UInt8) (offset size : ℕ) : Bytes :=
  (List.range size).map fun i ↦ data ((offset + i) % 2 ^ 32)

/-- The loop of `nctuss_emudisk_transfer` for a write; `offset` is an `unsigned long` of 32 bits. -/
def transferIn (data : ℕ → UInt8) (offset : ℕ) : List Bytes → ℕ → UInt8
  | [] => data
  | segment :: segments =>
    transferIn (copyIn data offset segment) ((offset + segment.length) % 2 ^ 32) segments

def transferOut (data : ℕ → UInt8) (offset : ℕ) : List Bytes → List Bytes
  | [] => []
  | segment :: segments =>
    copyOut data offset segment.length ::
      transferOut data ((offset + segment.length) % 2 ^ 32) segments

structure Emudisk where
  size : ℤ
  data : ℕ → UInt8
  requestInflight : ℤ
  diskChannels : ℤ
  speedFactor : ℤ
  channels : ℕ → Channel
  nextResponseToReply : Bool
  nextResponseToReplyTime : ℤ

def ULLONG_MAX : ℤ := 2 ^ 64 - 1

namespace Emudisk

variable (d : Emudisk)

def count : ℕ := d.diskChannels.toNat

def completionTime (i : ℕ) : ℤ := (d.channels i).requestCompletionTime

def isCompleted (i : ℕ) : Prop := (d.channels i).requestCompleted = true

instance : DecidablePred d.isCompleted := fun _ ↦ inferInstanceAs (Decidable (_ = _))

/-- The driver's tables are the server's, scaled once at load time and kept in
32 bits. -/
def responseTime (sequential : Bool) (dir : DataDir) (requestSizeIndex : ℕ) : ℤ :=
  toInt ((if sequential then UdpServer.responseTimeTableSeq dir.code.toNat requestSizeIndex
    else UdpServer.responseTimeTableRandom dir.code.toNat requestSizeIndex) / 1000 * d.speedFactor)

def isSequentialRequest (req : Request) : Bool :=
  (List.range d.count).any fun i ↦
    (d.channels i).requestRw = req.dataDir.code ∧ (d.channels i).requestLastSector = req.pos

def emptySlot : Option ℕ := firstMin d.isCompleted d.completionTime d.count

/-- The test of `nctuss_emudisk_transfer`, in an `unsigned long` of 32 bits. -/
def pastEnd (req : Request) : Prop :=
  d.size * SECTOR_SIZE % 2 ^ 32 < ((transferOffset req + req.bytes) % 2 ^ 32 : ℕ)

instance (req : Request) : Decidable (d.pastEnd req) := inferInstanceAs (Decidable (_ < _))

def earliestResponse (top : ℤ) : ℤ :=
  (scanMin (fun i ↦ ¬ d.isCompleted i) (fun i ↦ toU64 (d.completionTime i)) top d.count).1

def assign (i : ℕ) (channel : Channel) : Emudisk :=
  { d with channels := Function.update d.channels i channel }

def complete (i : ℕ) : Emudisk := d.assign i { d.channels i with requestCompleted := true }

def transferWrite (req : Request) : Emudisk :=
  match req.dataDir with
  | .write => { d with data := transferIn d.data (transferOffset req) req.segments }
  | .read => d

/-- "Find the most recent response"; the flag says that the processing task must
be woken for it. -/
def announce (completionTime : ℤ) : Emudisk × Bool :=
  let mostCurrentResponseTime := d.earliestResponse (toU64 completionTime)
  if d.nextResponseToReply = false ∨ mostCurrentResponseTime < toU64 d.nextResponseToReplyTime then
    ({ d with
      nextResponseToReplyTime := toLong mostCurrentResponseTime
      nextResponseToReply := true }, true)
  else (d, false)

/-- One fetched request in `nctuss_emudisk_strategy`, from the size class found for
it to the increment of `request_inflight`. -/
def submitSized (requestSizeIndex : Option ℕ) (now : ℤ) (req : Request) :
    Except Trap (Emudisk × ℤ × Bool) :=
  match requestSizeIndex with
  | none => .error .sizeClass
  | some k =>
    let completionTime := now + d.responseTime (d.isSequentialRequest req) req.dataDir k
    if completionTime > LONG_MAX then .error .overflow
    else
      match d.emptySlot with
      | none => .error .noEmptySlot
      | some i =>
        if req.dataDir = .write ∧ d.pastEnd req then .error .pastEnd
        else
          let (d, wake) :=
            ((d.assign i (.assigned req completionTime)).transferWrite req).announce completionTime
          .ok ({ d with requestInflight := d.requestInflight + 1 }, completionTime, wake)

def submit (now : ℤ) (req : Request) : Except Trap (Emudisk × ℤ × Bool) :=
  d.submitSized (UdpServer.requestSizeIndex (toInt req.bytes)) now req

def nextResponseIndex (now : ℤ) : Option ℕ :=
  firstMin (fun i ↦ ¬ d.isCompleted i ∧ d.completionTime i < now) d.completionTime d.count

def findNext : Emudisk :=
  if d.earliestResponse ULLONG_MAX ≠ ULLONG_MAX then
    { d with
      nextResponseToReplyTime := toLong (d.earliestResponse ULLONG_MAX)
      nextResponseToReply := true }
  else { d with nextResponseToReply := false }

end Emudisk

/-- Where the processing task is. It holds the lock only while `processing`. -/
inductive Task
  | starting
  | sleeping (woken : Bool)
  | sleepingUntil (time : ℤ) (woken : Bool)
  | expired
  | processing (now : ℤ)
  deriving DecidableEq, Repr

def Task.wake : Task → Task
  | .sleeping _ => .sleeping true
  | .sleepingUntil time _ => .sleepingUntil time true
  | task => task

inductive Op
  | ktimeGet
  | hrtimerExpired (time : ℤ)

def Ans : Op → Type
  | .ktimeGet => ℤ
  | .hrtimerExpired _ => Unit

abbrev Prog := Program Op Ans Trap

def ktimeGet : Prog ℤ := .call .ktimeGet .pure

def hrtimerExpired (time : ℤ) : Prog Unit := .call (.hrtimerExpired time) .pure

structure Completion where
  req : Request
  completionTime : ℤ
  now : ℤ
  segments : List Bytes
  deriving DecidableEq

/-- The driver with the part of the block layer it talks to, and the history of
the requests it was given. -/
structure System where
  disk : Emudisk
  queueStopped : Bool
  task : Task
  tryProcessNextWithoutSleep : Bool
  completing : List Request
  submitted : List (Request × ℤ)
  completed : List Completion

namespace System

variable (s : System)

def record (req : Request) : Except Trap (Emudisk × ℤ × Bool) → Prog (System × Bool)
  | .error trap => .fail trap
  | .ok (disk, completionTime, wake) =>
    .pure ({ s with disk := disk, submitted := s.submitted ++ [(req, completionTime)] }, wake)

/-- The loop of `nctuss_emudisk_strategy` over what the queue has to offer. -/
def strategyLoop (s : System) (needToWakeUp : Bool) : List Request → Prog (System × Bool)
  | [] => do
    let _ ← ktimeGet
    return (s, needToWakeUp)
  | req :: queue => do
    let now ← ktimeGet
    if req.cmdType ≠ .fs then .fail .queueLockHeld
    else do
      let (s, wake) ← s.record req (s.disk.submit now req)
      if s.disk.requestInflight ≥ s.disk.diskChannels then
        return ({ s with queueStopped := true }, needToWakeUp || wake)
      else strategyLoop s (needToWakeUp || wake) queue

def strategy (queue : List Request) : Prog System := do
  let (s, needToWakeUp) ← s.strategyLoop false queue
  return if needToWakeUp then { s with task := s.task.wake } else s

/-- `nctuss_emudisk_softirq_done`: restarting the queue runs `strategy` at once. -/
def softirqDone (req : Request) (queue : List Request) : Prog System :=
  let s := { s with
    disk := { s.disk with requestInflight := s.disk.requestInflight - 1 }
    completing := s.completing.eraseP fun r ↦ r.tag = req.tag }
  if s.queueStopped then { s with queueStopped := false }.strategy queue else return s

/-- The head of the loop of the processing task, up to where it sleeps. -/
def sleep : System :=
  { s with task :=
      if s.disk.nextResponseToReply = false then .sleeping false
      else .sleepingUntil s.disk.nextResponseToReplyTime false }

def resleep : System :=
  { s with task := .sleepingUntil s.disk.nextResponseToReplyTime false }

def timerExpired (time : ℤ) : Prog System := do
  hrtimerExpired time
  return { s with task := .expired }

/-- From the return of the timer to `process_next_without_sleep`. -/
def wakeUp : Prog System := do
  let now ← ktimeGet
  if s.disk.nextResponseToReplyTime > now then .fail .early
  else return { s with task := .processing now }

def complete (i : ℕ) (req : Request) (now : ℤ) : System :=
  { s with
    disk := s.disk.complete i
    completing := s.completing ++ [req]
    completed := s.completed ++ [Completion.mk req (s.disk.completionTime i) now
      (match req.dataDir with
        | .read => transferOut s.disk.data (transferOffset req) req.segments
        | .write => req.segments)]
    tryProcessNextWithoutSleep := false }

/-- One pass from `process_next_without_sleep` to the next one or to sleep. -/
def processNext (now : ℤ) : Prog System :=
  match s.disk.nextResponseIndex now with
  | some i =>
    match (s.disk.channels i).request with
    | none => .fail .nullRequest
    | some req =>
      if req.dataDir = .read ∧ s.disk.pastEnd req then .fail .pastEnd
      else do
        let next ← ktimeGet
        return { s.complete i req now with task := .processing next }
  | none =>
    if s.tryProcessNextWithoutSleep then do
      let next ← ktimeGet
      return { s with tryProcessNextWithoutSleep := false, task := .processing next }
    else return ({ s with disk := s.disk.findNext } : System).sleep

end System

end Nctusde.Ramdisk

import Nctusde.Ramdisk.Main

namespace Nctusde.Ramdisk

open BlockLayer Library

namespace System

variable (s : System)

def LockFree : Prop := ∀ now, s.task ≠ .processing now

/-- What the block layer may have in the queue: file system requests of at most
64 KiB that the driver has not been given before. -/
structure Offers (queue : List Request) : Prop where
  fs : ∀ req ∈ queue, req.cmdType = .fs ∧ req.bytes ≤ 65536
  fresh : (s.submitted.map (·.1.tag) ++ queue.map (·.tag)).Nodup

/-- The code that may run next. Each context keeps `Emudisk.lock` to its end, the
processing task also from one pass to the next. -/
inductive Enters : System → Prog System → Prop
  | strategy {s : System} {queue : List Request} : s.LockFree → s.queueStopped = false →
      s.Offers queue → Enters s (s.strategy queue)
  | softirqDone {s : System} {req : Request} {queue : List Request} : s.LockFree →
      req ∈ s.completing → s.Offers queue → Enters s (s.softirqDone req queue)
  | start {s : System} : s.task = .starting → Enters s (.pure s.sleep)
  | woken {s : System} : s.task = .sleeping true → Enters s (.pure s.resleep)
  | interrupted {s : System} {time : ℤ} : s.task = .sleepingUntil time true →
      Enters s (.pure s.resleep)
  | timer {s : System} {time : ℤ} {woken : Bool} : s.task = .sleepingUntil time woken →
      Enters s (s.timerExpired time)
  | expired {s : System} : s.task = .expired → Enters s s.wakeUp
  | processing {s : System} {now : ℤ} : s.task = .processing now → Enters s (s.processNext now)

inductive Attends : System → Prog System → Prop
  | start {s : System} : s.task = .starting → Attends s (.pure s.sleep)
  | woken {s : System} : s.task = .sleeping true → Attends s (.pure s.resleep)
  | interrupted {s : System} {time : ℤ} : s.task = .sleepingUntil time true →
      Attends s (.pure s.resleep)
  | timer {s : System} {time : ℤ} {woken : Bool} : s.task = .sleepingUntil time woken →
      Attends s (s.timerExpired time)
  | expired {s : System} : s.task = .expired → Attends s s.wakeUp
  | processing {s : System} {t : ℤ} : s.task = .processing t → Attends s (s.processNext t)

/-- The driver after `emudisk_init`, with what its memory happened to hold. -/
structure IsStart (n speed : ℤ) (s : System) : Prop where
  diskChannels : s.disk.diskChannels = n
  speedFactor : s.disk.speedFactor = speed
  requestInflight : s.disk.requestInflight = 0
  channels : ∀ i < s.disk.count, s.disk.channels i = ⟨0, true, none, 0, 0⟩
  nextResponseToReply : s.disk.nextResponseToReply = false
  queueStopped : s.queueStopped = false
  task : s.task = .starting
  completing : s.completing = []
  submitted : s.submitted = []
  completed : s.completed = []

def loaded (n speed : ℤ) : System where
  disk :=
    { size := 819200
      data := fun _ ↦ 0
      requestInflight := 0
      diskChannels := n
      speedFactor := speed
      channels := fun _ ↦ ⟨0, true, none, 0, 0⟩
      nextResponseToReply := false
      nextResponseToReplyTime := 0 }
  queueStopped := false
  task := .starting
  tryProcessNextWithoutSleep := false
  completing := []
  submitted := []
  completed := []

theorem loaded_isStart (n speed : ℤ) : IsStart n speed (loaded n speed) :=
  ⟨rfl, rfl, rfl, fun _ _ ↦ rfl, rfl, rfl, rfl, rfl, rfl, rfl⟩

def turns (n speed : ℤ) : Turns Op Ans Trap System ℤ where
  start s now := IsStart n speed s ∧ now = 0
  enters := Enters
  drifts _ _ := False

/-- Positive clock readings that never go back; nothing is assumed of timers. -/
def clock : Handler ℤ Op Ans where
  admits _ _ := True
  answers
    | now, .ktimeGet, (t : ℤ), now' => now ≤ t ∧ 0 < t ∧ now' = t
    | now, .hrtimerExpired _, _, now' => now' = now

/-- Clock readings that never go back, and timers that are not early. -/
def timely : Handler ℤ Op Ans where
  admits _ _ := True
  answers
    | now, .ktimeGet, (t : ℤ), now' => now ≤ t ∧ now' = t
    | now, .hrtimerExpired time, _, now' => now ≤ now' ∧ time ≤ now'

/-- Positive clock readings that never go back, and timers that are not early. -/
def punctual : Handler ℤ Op Ans where
  admits _ _ := True
  answers
    | now, .ktimeGet, (t : ℤ), now' => now ≤ t ∧ 0 < t ∧ now' = t
    | now, .hrtimerExpired time, _, now' => now ≤ now' ∧ time ≤ now'

end System

end Nctusde.Ramdisk

import Nctusde.EmulatorKernel.Main
import Nctusde.Network.Main

namespace Nctusde.EmulatorKernel

open BlockLayer Library Network UdpServer Wire

namespace System

variable (s : System)

def LockFree : Prop := s.task ≠ .processing

def Usual (req : Request) : Prop :=
  req.cmdType = .fs ∧ req.bytes ≤ MAX_REQUEST_SECTOR_NUM * SECTOR_SIZE

/-- The code that may run next, when the block layer only has requests that satisfy
`P`. Each context keeps `Emudisk.lock` to its end, the processing task also from one
pass to the next. -/
inductive Enters (P : Request → Prop) : System → Prog System → Prop
  | strategy {s : System} {queue : List Request} : s.LockFree → s.queueStopped = false →
      (∀ req ∈ queue, P req) → Enters P s (s.strategy queue)
  | softirqDone {s : System} {req : Request} {queue : List Request} : s.LockFree →
      req ∈ s.completing → (∀ req ∈ queue, P req) → Enters P s (s.softirqDone req queue)
  | start {s : System} : s.task = .starting → Enters P s (.pure s.sleep)
  | woken {s : System} : s.task = .sleeping true → Enters P s (.pure s.resleep)
  | interrupted {s : System} {time : ℤ} : s.task = .sleepingUntil time true →
      Enters P s (.pure s.resleep)
  | timer {s : System} {time : ℤ} {woken : Bool} : s.task = .sleepingUntil time woken →
      Enters P s (s.timerExpired time)
  | expired {s : System} : s.task = .expired → Enters P s s.processNext
  | processing {s : System} : s.task = .processing → Enters P s s.processNext

inductive Attends : System → Prog System → Prop
  | start {s : System} : s.task = .starting → Attends s (.pure s.sleep)
  | woken {s : System} : s.task = .sleeping true → Attends s (.pure s.resleep)
  | interrupted {s : System} {time : ℤ} : s.task = .sleepingUntil time true →
      Attends s (.pure s.resleep)
  | timer {s : System} {time : ℤ} {woken : Bool} : s.task = .sleepingUntil time woken →
      Attends s (s.timerExpired time)
  | expired {s : System} : s.task = .expired → Attends s s.processNext
  | processing {s : System} : s.task = .processing → Attends s s.processNext

/-- The driver after `emudisk_init`, whose reset had the id 123. -/
structure IsStart (n speed : ℕ) (s : System) : Prop where
  size : s.disk.size = 819200
  diskChannels : s.disk.diskChannels = n
  speedFactor : s.disk.speedFactor = speed
  requestInflight : s.disk.requestInflight = 0
  nextResponseToReplyTime : s.disk.nextResponseToReplyTime = 0
  nextResponseToReplyNum : s.disk.nextResponseToReplyNum = 0
  latestResponseTime : s.disk.latestResponseTime = 0
  udpSendReplyId : s.disk.udpSendReplyId = 124
  free : ∀ i < s.disk.count, (s.disk.requestIdToReqMapping i).requestId = 0
  queueStopped : s.queueStopped = false
  task : s.task = .starting
  completing : s.completing = []
  submitted : s.submitted = []
  completed : s.completed = []

def bootRequest : NctussEmuRequest := { s.disk with udpSendReplyId := 123 }.resetRequest

end System

/-- The emulator and the clock; `given` records the completion times it gave to
accepted requests. -/
structure World where
  server : Server
  now : ℤ
  passed : ℤ
  given : List (UInt32 × ℤ)

namespace World

variable (w : World)

def sim : MySSDSim := w.server.mySSDSim

structure IsStart (s : System) : Prop where
  server : ∃ (server : Server) (b : Bytes),
    server.receive (datagramOf s.bootRequest []) = .loop w.server (some b)
  now : w.now = 0
  passed : w.passed = 0
  given : w.given = []

end World

def granted (before after : MySSDSim) (request : NctussEmuRequest) : List (UInt32 × ℤ) :=
  if request.type = NctussEmuRequestType.submitReqeust.code ∧
      before.oldestChannel.1 < Server.time64 request then
    [(request.data6, after.completionTime (before.oldestChannel.2.getD 0))]
  else []

def Fits (top : ℤ) (sim : MySSDSim) (request : NctussEmuRequest) : Prop :=
  request.type = NctussEmuRequestType.submitReqeust.code →
    ∀ k, requestSizeIndex (toInt (request.data5.toNat * SECTOR_SIZE)) = some k →
      Server.time64 request + sim.serviceTime
        (sim.isSequentialRequest request.data3.toNat request.data4.toNat)
          request.data3.toNat k ≤ top

/-- An exchange that acts as one call on the server. -/
def World.Receives (w : World) (request : NctussEmuRequest) (data reply : Bytes)
    (w' : World) : Prop :=
  ∃ server', w.server.receive (datagramOf request data) = .loop server' (some reply) ∧
    (NctussEmuReply.decode reply).id = request.id ∧
    w' = { w with
      server := server'
      given := w.given ++ granted w.server.mySSDSim server'.mySSDSim request }

/-- Reliable exchanges, strictly increasing clock readings and timers that are not
early, considered while completion times are at most `top`. -/
def exchanging (top : ℤ) : Handler World Op Ans where
  admits
    | w, .communicate request _ => Fits top w.sim request
    | _, .ktimeGet => True
    | _, .hrtimerExpired _ => True
  answers
    | w, .communicate request data, (reply : Bytes), w' => w.Receives request data reply w'
    | w, .ktimeGet, (t : ℤ), w' =>
      w.now < t ∧ w.passed ≤ t ∧ t ≤ LONG_MAX ∧ w' = { w with now := t }
    | w, .hrtimerExpired time, _, w' => w' = { w with passed := max w.passed time }

/-- The same, considered only while the message ids have not wrapped. -/
def reliable (top : ℤ) : Handler World Op Ans where
  admits
    | w, .communicate request _ => request.id ≠ 0 ∧ Fits top w.sim request
    | _, .ktimeGet => True
    | _, .hrtimerExpired _ => True
  answers := (exchanging top).answers

structure World.Admits (w : World) (request : NctussEmuRequest) : Prop where
  accepted : ∃ ret sim totals, 0 ≤ ret ∧ w.sim.submitRequest w.server.totals
    (Server.time64 request) request.data3.toNat request.data4.toNat request.data5.toNat
      request.data6.toNat = some (ret, sim, totals)
  nonzero : request.data6 ≠ 0
  unused : request.data6 ∉ w.given.map (·.1)

/-- A message that the emulator serves as a new one: it answers, and a submission is
accepted. -/
structure World.Welcomes (w : World) (request : NctussEmuRequest) (data : Bytes) : Prop where
  new : w.server.currentMaxRequestId < request.id.toNat
  answered : ∃ reply w', w.Receives request data reply w'
  admitted : request.type = NctussEmuRequestType.submitReqeust.code → w.Admits request

def turns (P : Request → Prop) (n speed : ℕ) : Turns Op Ans Trap System World where
  start s w := s.IsStart n speed ∧ w.IsStart s
  enters := System.Enters P
  drifts _ _ := False

end Nctusde.EmulatorKernel

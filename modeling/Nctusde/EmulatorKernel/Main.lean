import Nctusde.BlockLayer
import Nctusde.Library.Program

namespace Nctusde.EmulatorKernel

open BlockLayer Library Library.Memory Wire

def MAX_DISK_REQUESTS_IN_PARALLEL : ℕ := 8

def MAX_REQUEST_SECTOR_NUM : ℕ := 128

/-- The endless loops of the driver, and the places where it would follow a null
pointer, read what was never set, overrun an array or take the lock it holds. -/
inductive Trap
  | queueLockHeld
  | staleTime
  | noFreeEntry
  | notFound
  | nullRequest
  | tooLong
  | unsetResponses
  | tooManyResponses
  | latestAfterNow
  | latestAfterNext
  | nothingPending
  | nextBeforeLatest
  deriving DecidableEq, Repr

inductive Op
  | communicate (request : NctussEmuRequest) (data : Bytes)
  | ktimeGet
  | hrtimerExpired (time : ℤ)

def Ans : Op → Type
  | .communicate _ _ => Bytes
  | .ktimeGet => ℤ
  | .hrtimerExpired _ => Unit

abbrev Prog := Program Op Ans Trap

/-- `communicate_with_emulator`: the answer is the datagram it returns. -/
def communicateWithEmulator (request : NctussEmuRequest) (data : Bytes) : Prog Bytes :=
  .call (.communicate request data) .pure

def ktimeGet : Prog ℤ := .call .ktimeGet .pure

def hrtimerExpired (time : ℤ) : Prog Unit := .call (.hrtimerExpired time) .pure

/-- An entry of `request_id_to_req_mapping`, with the buffer it owns; id 0 marks
it free. -/
structure RequestIdToReq where
  requestId : UInt32
  req : Option Request
  reqSectors : ℕ
  data : ℕ → UInt8

structure Emudisk where
  size : ℤ
  diskChannels : ℤ
  speedFactor : ℤ
  requestInflight : ℤ
  nextResponseToReplyTime : ℤ
  nextResponseToReplyNum : ℕ
  nextResponseToReplyIds : ℕ → UInt32
  latestResponseTime : ℤ
  udpSendReplyId : UInt32
  requestIdToReqMapping : ℕ → RequestIdToReq

structure NextResponses where
  num : ℕ
  time : ℤ
  ids : ℕ → UInt32

def sectorCount (req : Request) : ℕ := (req.bytes + SECTOR_SIZE - 1) / SECTOR_SIZE

namespace Emudisk

variable (d : Emudisk)

def count : ℕ := d.diskChannels.toNat

def withEntry (slot : ℕ) (entry : RequestIdToReq) : Emudisk :=
  { d with requestIdToReqMapping := Function.update d.requestIdToReqMapping slot entry }

def findRequestId (requestId : UInt32) : Option ℕ :=
  (List.range d.count).find? fun i ↦ (d.requestIdToReqMapping i).requestId = requestId

def putRequestIdToReqMapping (requestId : UInt32) (req : Request) (reqSectors : ℕ) :
    Option (ℕ × Emudisk) :=
  (d.findRequestId 0).map fun slot ↦
    (slot, d.withEntry slot { d.requestIdToReqMapping slot with
      requestId := requestId
      req := some req
      reqSectors := reqSectors })

def getRequestIdToReqMapping (requestId : UInt32) : Option (RequestIdToReq × Emudisk) :=
  (d.findRequestId requestId).map fun slot ↦
    (d.requestIdToReqMapping slot,
      d.withEntry slot { d.requestIdToReqMapping slot with requestId := 0 })

/-- `udp_send_reply_id++`. -/
def numbered : Emudisk := { d with udpSendReplyId := d.udpSendReplyId + 1 }

def resetRequest : NctussEmuRequest where
  id := d.udpSendReplyId
  type := NctussEmuRequestType.reset.code
  data1 := toU32 d.size
  data2 := toU32 d.diskChannels
  data3 := toU32 d.speedFactor

/-- A reply that is not ok is printed and nothing more. -/
def emulatorReset : Prog Emudisk := do
  let _ ← communicateWithEmulator d.resetRequest []
  return d.numbered

def submitReqeust (time : ℤ) (dir : DataDir) (sector count : ℕ) (ioRequestId : UInt32) :
    NctussEmuRequest where
  id := d.udpSendReplyId
  type := NctussEmuRequestType.submitReqeust.code
  data1 := toU32 (toU64 time / 2 ^ 32)
  data2 := toU32 (toU64 time)
  data3 := toU32 dir.code
  data4 := toU32 sector
  data5 := toU32 count
  data6 := ioRequestId

def emulatorSubmitRequest (time : ℤ) (dir : DataDir) (sector count : ℕ) (ioRequestId : UInt32) :
    Prog Emudisk := do
  let _ ← communicateWithEmulator (d.submitReqeust time dir sector count ioRequestId) []
  return d.numbered

def getNextResponses (currentTime : ℤ) : NctussEmuRequest where
  id := d.udpSendReplyId
  type := NctussEmuRequestType.getNextResponses.code
  data1 := toU32 (currentTime / 2 ^ 32)
  data2 := toU32 currentTime

/-- The caller's variables stay unset after a reply that is not ok; its array has
room for `MAX_DISK_REQUESTS_IN_PARALLEL` ids. -/
def readResponses (reply : NctussEmuReply) : Prog NextResponses :=
  if reply.type ≠ NctussEmuReplyType.ok.code then .fail .unsetResponses
  else if reply.data1.toNat > MAX_DISK_REQUESTS_IN_PARALLEL then .fail .tooManyResponses
  else .pure ⟨reply.data1.toNat, reply.data2.toNat * 2 ^ 32 + reply.data3.toNat, reply.ioRequestIds⟩

def emulatorGetResponses (currentTime : ℤ) : Prog (Emudisk × NextResponses) := do
  let reply ← communicateWithEmulator (d.getNextResponses currentTime) []
  let next ← readResponses (.decode reply)
  return (d.numbered, next)

def readWriteData (dir : DataDir) (sectorNum : ℕ) : NctussEmuRequest where
  id := d.udpSendReplyId
  type := NctussEmuRequestType.readWriteData.code
  data1 := toU32 dir.code
  data2 := toU32 sectorNum

def withData (slot : ℕ) (data : ℕ → UInt8) : Emudisk :=
  d.withEntry slot { d.requestIdToReqMapping slot with data := data }

/-- `emulator_transfer_data` for the sector at `offset` in the buffer of a slot. -/
def emulatorTransferData (dir : DataDir) (sectorNum slot offset : ℕ) : Prog Emudisk := do
  let data := (d.requestIdToReqMapping slot).data
  match dir with
  | .read => do
    let reply ← communicateWithEmulator (d.readWriteData .read sectorNum) []
    if (NctussEmuReply.decode reply).type ≠ NctussEmuReplyType.ok.code then return d.numbered
    else return (d.withData slot
      (blit data offset ((reply.drop NctussEmuReply.size).take SECTOR_SIZE))).numbered
  | .write => do
    let _ ← communicateWithEmulator (d.readWriteData .write sectorNum)
      (slice data offset SECTOR_SIZE)
    return d.numbered

def transferSectors (req : Request) (slot : ℕ) : Prog Emudisk :=
  (List.range (sectorCount req)).foldlM
    (fun d k ↦ d.emulatorTransferData req.dataDir (req.pos + k) slot (k * SECTOR_SIZE)) d

/-- The rule by which `strategy` takes up a batch; the flag says that the
processing task must be woken for it. -/
def takeUp (next : NextResponses) : Emudisk × Bool :=
  if next.num > 0 ∧ (d.nextResponseToReplyNum = 0 ∨
      toU64 d.nextResponseToReplyTime > next.time ∨
      (toU64 d.nextResponseToReplyTime = next.time ∧ d.nextResponseToReplyNum < next.num)) then
    ({ d with
      nextResponseToReplyTime := toLong next.time
      nextResponseToReplyNum := next.num
      nextResponseToReplyIds := fun i ↦
        if i < next.num then next.ids i else d.nextResponseToReplyIds i },
      d.nextResponseToReplyNum = 0 ∨ toU64 d.nextResponseToReplyTime > next.time)
  else (d, false)

def replace (next : NextResponses) : Emudisk :=
  let ids := fun i ↦ if i < next.num then next.ids i else d.nextResponseToReplyIds i
  if next.num ≠ 0 then
    { d with
      nextResponseToReplyTime := toLong next.time
      nextResponseToReplyNum := next.num
      nextResponseToReplyIds := ids }
  else { d with nextResponseToReplyNum := 0, nextResponseToReplyIds := ids }

end Emudisk

/-- Where the processing task is. It holds the lock only while `processing`. -/
inductive Task
  | starting
  | sleeping (woken : Bool)
  | sleepingUntil (time : ℤ) (woken : Bool)
  | expired
  | processing
  deriving DecidableEq, Repr

def Task.wake : Task → Task
  | .sleeping _ => .sleeping true
  | .sleepingUntil time _ => .sleepingUntil time true
  | task => task

structure Completion where
  requestId : UInt32
  req : Request
  time : ℤ
  now : ℤ
  segments : List Bytes
  deriving DecidableEq

/-- The driver with the part of the block layer it talks to, and the history of
the requests it was given, oldest first. -/
structure System where
  disk : Emudisk
  queueStopped : Bool
  task : Task
  completing : List Request
  submitted : List (UInt32 × Request)
  completed : List Completion

namespace System

variable (s : System)

def submitSlot (now : ℤ) (req : Request) (slot : ℕ) : Prog System :=
  if req.dataDir = .write ∧ req.bytes > MAX_REQUEST_SECTOR_NUM * SECTOR_SIZE then .fail .tooLong
  else do
    let requestId := s.disk.udpSendReplyId
    let disk := match req.dataDir with
      | .write => s.disk.withData slot
          (gather (s.disk.requestIdToReqMapping slot).data 0 req.segments)
      | .read => s.disk
    let disk ← disk.emulatorSubmitRequest now req.dataDir req.pos (sectorCount req) requestId
    let disk ← disk.transferSectors req slot
    return { s with
      disk := { disk with requestInflight := disk.requestInflight + 1 }
      submitted := s.submitted ++ [(requestId, req)] }

def submitPut (now : ℤ) (req : Request) : Option (ℕ × Emudisk) → Prog System
  | none => .fail .noFreeEntry
  | some (slot, disk) => { s with disk := disk }.submitSlot now req slot

def submit (now : ℤ) (req : Request) : Prog System :=
  if req.cmdType ≠ .fs then .fail .queueLockHeld
  else if toU64 now ≤ s.disk.latestResponseTime then .fail .staleTime
  else s.submitPut now req
    (s.disk.putRequestIdToReqMapping s.disk.udpSendReplyId req (sectorCount req))

/-- The loop of `nctuss_emudisk_strategy` over what the queue has to offer. -/
def strategyLoop (s : System) (newRequestSubmitted : Bool) : List Request → Prog (System × Bool)
  | [] => do
    let _ ← ktimeGet
    return (s, newRequestSubmitted)
  | req :: queue => do
    let now ← ktimeGet
    let s ← s.submit now req
    if s.disk.requestInflight ≥ s.disk.diskChannels then
      return ({ s with queueStopped := true }, true)
    else if queue.isEmpty then return (s, true)
    else strategyLoop s true queue

/-- "Get next response" of `nctuss_emudisk_strategy`. -/
def announce : Prog System := do
  let (disk, next) ← s.disk.emulatorGetResponses s.disk.latestResponseTime
  let (disk, needToWakeUpReplyThread) := disk.takeUp next
  return { s with
    disk := disk
    task := if needToWakeUpReplyThread then s.task.wake else s.task }

def strategy (queue : List Request) : Prog System := do
  let (s, newRequestSubmitted) ← s.strategyLoop false queue
  if newRequestSubmitted then s.announce else return s

/-- `nctuss_emudisk_softirq_done`: restarting the queue runs `strategy` at once. -/
def softirqDone (req : Request) (queue : List Request) : Prog System :=
  let s := { s with
    disk := { s.disk with requestInflight := s.disk.requestInflight - 1 }
    completing := s.completing.eraseP fun r ↦ r.tag = req.tag }
  if s.queueStopped then { s with queueStopped := false }.strategy queue else return s

/-- The head of the loop of the processing task, up to where it sleeps. -/
def sleep : System :=
  { s with task :=
      if s.disk.nextResponseToReplyNum = 0 then .sleeping false
      else .sleepingUntil s.disk.nextResponseToReplyTime false }

def resleep : System :=
  { s with task := .sleepingUntil s.disk.nextResponseToReplyTime false }

def timerExpired (time : ℤ) : Prog System := do
  hrtimerExpired time
  return { s with task := .expired }

def completeEntry (now : ℤ) (requestId : UInt32) : Option (RequestIdToReq × Emudisk) → Prog System
  | none => .fail .notFound
  | some (entry, disk) =>
    match entry.req with
    | none => .fail .nullRequest
    | some req =>
      if req.dataDir = .read ∧ req.bytes > MAX_REQUEST_SECTOR_NUM * SECTOR_SIZE then .fail .tooLong
      else .pure { s with
        disk := { disk with latestResponseTime := toU64 disk.nextResponseToReplyTime }
        completing := s.completing ++ [req]
        completed := s.completed ++ [Completion.mk requestId req disk.nextResponseToReplyTime now
          (match req.dataDir with
            | .read => scatter entry.data 0 req.segments
            | .write => req.segments)] }

/-- "Process completed requests". -/
def completeBatch (now : ℤ) : Prog System :=
  (List.range s.disk.nextResponseToReplyNum).foldlM (fun s i ↦
    s.completeEntry now (s.disk.nextResponseToReplyIds i)
      (s.disk.getRequestIdToReqMapping (s.disk.nextResponseToReplyIds i))) s

/-- "Find next request to complete". A batch that is due is processed at once. -/
def findNext : Prog System := do
  let (disk, next) ← s.disk.emulatorGetResponses s.disk.latestResponseTime
  if next.num ≠ 0 then
    if next.time < disk.latestResponseTime then .fail .nextBeforeLatest
    else do
      let s := { s with disk := disk.replace next }
      let now ← ktimeGet
      if s.disk.nextResponseToReplyTime < now then return { s with task := .processing }
      else return s.sleep
  else return ({ s with disk := disk.replace next } : System).sleep

/-- One pass from `process_next_without_sleep` to the next one or to sleep. -/
def processNext : Prog System := do
  let now ← ktimeGet
  if s.disk.latestResponseTime > toU64 now then .fail .latestAfterNow
  else if s.disk.latestResponseTime > toU64 s.disk.nextResponseToReplyTime then
    .fail .latestAfterNext
  else if s.disk.nextResponseToReplyNum = 0 then .fail .nothingPending
  else do
    let s ← s.completeBatch now
    s.findNext

end System

end Nctusde.EmulatorKernel

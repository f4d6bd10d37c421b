import Nctusde.Library.Memory
import Nctusde.UdpServer.SSDSim

namespace Nctusde.UdpServer

open Library.Memory Wire

/-- `recvfrom` keeps at most this much of a datagram. -/
def MAXNAME : ℕ := 1024

/-- The endless loops of the receive loop. -/
inductive Trap
  | memorySize
  | staleId
  | idCheck
  | sizeClass
  deriving DecidableEq, Repr

/-- The globals of the server and the locals that survive an iteration of its
receive loop. -/
structure Server where
  mySSDSim : MySSDSim
  totals : Totals
  currentMaxRequestId : ℤ
  memoryStorage : ℕ → UInt8
  reply : NctussEmuReply
  replyData : Bytes
  replyLength : ℕ

/-- One iteration of the receive loop: it never ends, or it ends after sending
at most one datagram. -/
inductive Outcome
  | hang (trap : Trap)
  | loop (server : Server) (sent : Option Bytes)

theorem Outcome.server_unique {o : Outcome} {server server' : Server} {sent sent' : Option Bytes}
    (h : o = .loop server sent) (h' : o = .loop server' sent') : server = server' :=
  (Outcome.loop.inj (h.symm.trans h')).1

def requestOf (bytes : Bytes) : NctussEmuRequest := NctussEmuRequest.decode (bytes.take MAXNAME)

namespace Server

variable (s : Server)

def putSector (sector : ℕ) (buf : Bytes) : Server :=
  { s with memoryStorage := blit s.memoryStorage (sector * SECTOR_SIZE) buf }

def getSector (sector : ℕ) : Bytes := slice s.memoryStorage (sector * SECTOR_SIZE) SECTOR_SIZE

/-- The bytes `sendto` takes from the reply buffer. -/
def datagram : Bytes := (s.reply.encode ++ s.replyData).take s.replyLength

def replyWith (type : NctussEmuReplyType) (id : UInt32) : Server :=
  { s with reply := { s.reply with type := type.code, id := id } }

/-- The end of an iteration: stamp the reply, choose its length and send it. -/
def answer (request : NctussEmuRequest) : Outcome :=
  let s : Server := { s with
    reply := { s.reply with idCheck := s.reply.id }
    replyLength :=
      if request.type = NctussEmuRequestType.readWriteData.code ∧ request.data1 = 0 then
        SECTOR_SIZE + NctussEmuReply.size
      else NctussEmuReply.size }
  .loop s (some s.datagram)

def time64 (request : NctussEmuRequest) : ℤ :=
  toLong (request.data1.toNat * 2 ^ 32 + request.data2.toNat)

def withResponses (r : MySSDSim.Responses) : Server :=
  { s with reply := { s.reply with
      data1 := toU32 r.numResponse
      data2 := toU32 (r.time / 2 ^ 32)
      data3 := toU32 r.time
      ioRequestIds := fun i ↦
        if (i : ℤ) < r.numResponse then toU32 (r.ioRequestIds.getD i 0)
        else s.reply.ioRequestIds i } }

section

variable (type : NctussEmuReplyType) (id : UInt32) (r : MySSDSim.Responses)

@[simp] theorem replyWith_reply_id : (s.replyWith type id).reply.id = id := rfl

@[simp] theorem replyWith_reply_type : (s.replyWith type id).reply.type = type.code := rfl

@[simp] theorem replyWith_mySSDSim : (s.replyWith type id).mySSDSim = s.mySSDSim := rfl

@[simp] theorem replyWith_currentMaxRequestId :
    (s.replyWith type id).currentMaxRequestId = s.currentMaxRequestId := rfl

@[simp] theorem replyWith_memoryStorage :
    (s.replyWith type id).memoryStorage = s.memoryStorage := rfl

@[simp] theorem replyWith_replyData : (s.replyWith type id).replyData = s.replyData := rfl

@[simp] theorem withResponses_reply_id : (s.withResponses r).reply.id = s.reply.id := rfl

@[simp] theorem withResponses_reply_type : (s.withResponses r).reply.type = s.reply.type := rfl

@[simp] theorem withResponses_reply_data1 : (s.withResponses r).reply.data1 = toU32 r.numResponse :=
  rfl

@[simp] theorem withResponses_reply_data2 :
    (s.withResponses r).reply.data2 = toU32 (r.time / 2 ^ 32) := rfl

@[simp] theorem withResponses_reply_data3 : (s.withResponses r).reply.data3 = toU32 r.time := rfl

theorem withResponses_reply_ioRequestIds {i : ℕ} (hi : (i : ℤ) < r.numResponse) :
    (s.withResponses r).reply.ioRequestIds i = toU32 (r.ioRequestIds.getD i 0) := if_pos hi

@[simp] theorem withResponses_mySSDSim : (s.withResponses r).mySSDSim = s.mySSDSim := rfl

@[simp] theorem withResponses_currentMaxRequestId :
    (s.withResponses r).currentMaxRequestId = s.currentMaxRequestId := rfl

@[simp] theorem withResponses_memoryStorage :
    (s.withResponses r).memoryStorage = s.memoryStorage := rfl

end

/-- The switch over the request type. A write that is too short goes back to
the head of the loop; an unknown type falls through to the reply. -/
def dispatch (request : NctussEmuRequest) (buf : Bytes) : Outcome :=
  match NctussEmuRequestType.ofCode request.type with
  | some .reset => (s.replyWith .ok request.id).answer request
  | some .submitReqeust =>
    match s.mySSDSim.submitRequest s.totals (time64 request) request.data3.toNat
        request.data4.toNat request.data5.toNat request.data6.toNat with
    | none => .hang .sizeClass
    | some (ret, sim, totals) =>
      let s : Server := { s with mySSDSim := sim, totals := totals }
      (s.replyWith (if ret < 0 then .error else .ok) request.id).answer request
  | some .getNextResponses =>
    let next := s.mySSDSim.getNextResponses (time64 request)
    let s : Server := { s with mySSDSim := next.1 }
    ((s.replyWith .ok request.id).withResponses next.2).answer request
  | some .readWriteData =>
    if request.data1 = 0 then
      let s : Server := { s with replyData := s.getSector request.data2.toNat }
      (s.replyWith .ok request.id).answer request
    else if buf.length < NctussEmuRequest.size + SECTOR_SIZE then .loop s none
    else
      let s := s.putSector request.data2.toNat ((buf.drop NctussEmuRequest.size).take SECTOR_SIZE)
      (s.replyWith .ok request.id).answer request
  | none => s.answer request

/-- One iteration of the receive loop of `main`. -/
def receive (bytes : Bytes) : Outcome :=
  if (bytes.take MAXNAME).length < NctussEmuRequest.size then .loop s none
  else if (requestOf bytes).type = NctussEmuRequestType.reset.code then
    match s.mySSDSim.setup (requestOf bytes).data1.toNat (requestOf bytes).data2.toNat
        (requestOf bytes).data3.toNat with
    | none => .hang .memorySize
    | some sim =>
      { s with mySSDSim := sim, totals := ⟨0, 0, 0⟩, currentMaxRequestId := 0 }.dispatch
        (requestOf bytes) (bytes.take MAXNAME)
  else if ((requestOf bytes).id.toNat : ℤ) < s.currentMaxRequestId then .hang .staleId
  else if ((requestOf bytes).id.toNat : ℤ) = s.currentMaxRequestId then .loop s (some s.datagram)
  else if (requestOf bytes).id ≠ (requestOf bytes).idCheck then .hang .idCheck
  else
    { s with currentMaxRequestId := (requestOf bytes).id.toNat }.dispatch
      (requestOf bytes) (bytes.take MAXNAME)

end Server

/-- A datagram long enough to be looked at. -/
def Readable (bytes : Bytes) : Prop := NctussEmuRequest.size ≤ (bytes.take MAXNAME).length

/-- A request the switch has a case for, complete with the data it announces. -/
def Complete (request : NctussEmuRequest) (buf : Bytes) : Prop :=
  ∃ t, NctussEmuRequestType.ofCode request.type = some t ∧
    (t = .readWriteData → request.data1 ≠ 0 → NctussEmuRequest.size + SECTOR_SIZE ≤ buf.length)

def WellFormed (bytes : Bytes) : Prop := Complete (requestOf bytes) (bytes.take MAXNAME)

def IsReset (bytes : Bytes) : Prop := (requestOf bytes).type = NctussEmuRequestType.reset.code

instance (bytes : Bytes) : Decidable (Readable bytes) := inferInstanceAs (Decidable (_ ≤ _))

instance (bytes : Bytes) : Decidable (IsReset bytes) := inferInstanceAs (Decidable (_ = _))

namespace Server

variable {s s' : Server} {bytes : Bytes} {sent : Option Bytes}

theorem receive_unreadable (h : ¬ Readable bytes) : s.receive bytes = .loop s none := by
  rw [receive, if_pos (not_le.mp h)]

theorem receive_reset (hr : Readable bytes) (h : IsReset bytes) : s.receive bytes =
    match s.mySSDSim.setup (requestOf bytes).data1.toNat (requestOf bytes).data2.toNat
        (requestOf bytes).data3.toNat with
    | none => .hang .memorySize
    | some sim =>
      { s with mySSDSim := sim, totals := ⟨0, 0, 0⟩, currentMaxRequestId := 0 }.dispatch
        (requestOf bytes) (bytes.take MAXNAME) := by
  rw [receive, if_neg (not_lt.mpr hr), if_pos (show _ = _ from h)]

theorem receive_stale (hr : Readable bytes) (h : ¬ IsReset bytes)
    (hid : ((requestOf bytes).id.toNat : ℤ) < s.currentMaxRequestId) :
    s.receive bytes = .hang .staleId := by
  rw [receive, if_neg (not_lt.mpr hr), if_neg (show ¬ _ = _ from h), if_pos hid]

theorem receive_copy (hr : Readable bytes) (h : ¬ IsReset bytes)
    (hid : ((requestOf bytes).id.toNat : ℤ) = s.currentMaxRequestId) :
    s.receive bytes = .loop s (some s.datagram) := by
  rw [receive, if_neg (not_lt.mpr hr), if_neg (show ¬ _ = _ from h), if_neg (not_lt.mpr hid.ge),
    if_pos hid]

theorem receive_idCheck (hr : Readable bytes) (h : ¬ IsReset bytes)
    (hid : s.currentMaxRequestId < (requestOf bytes).id.toNat)
    (hc : (requestOf bytes).idCheck ≠ (requestOf bytes).id) :
    s.receive bytes = .hang .idCheck := by
  rw [receive, if_neg (not_lt.mpr hr), if_neg (show ¬ _ = _ from h), if_neg (not_lt.mpr hid.le),
    if_neg hid.ne', if_pos hc.symm]

theorem receive_new (hr : Readable bytes) (h : ¬ IsReset bytes)
    (hid : s.currentMaxRequestId < (requestOf bytes).id.toNat)
    (hc : (requestOf bytes).idCheck = (requestOf bytes).id) :
    s.receive bytes = { s with currentMaxRequestId := (requestOf bytes).id.toNat }.dispatch
      (requestOf bytes) (bytes.take MAXNAME) := by
  rw [receive, if_neg (not_lt.mpr hr), if_neg (show ¬ _ = _ from h), if_neg (not_lt.mpr hid.le),
    if_neg hid.ne', if_neg (not_not.mpr hc.symm)]

/-- The reply buffer holds a complete answer to the request with this id. -/
structure Answers (s : Server) (n : UInt32) : Prop where
  id : s.reply.id = n
  idCheck : s.reply.idCheck = n
  length : NctussEmuReply.size ≤ s.replyLength

theorem Answers.datagram {n : UInt32} (h : Answers s n) :
    s.datagram = s.reply.encode ++ s.replyData.take (s.replyLength - NctussEmuReply.size) := by
  have hl := h.length
  rw [Server.datagram, List.take_append, NctussEmuReply.encode_length,
    List.take_of_length_le (by simpa using hl)]

theorem Answers.decode {n : UInt32} (h : Answers s n) :
    (NctussEmuReply.decode s.datagram).id = n ∧ (NctussEmuReply.decode s.datagram).idCheck = n := by
  rw [h.datagram]
  simp [h.id, h.idCheck]

theorem answer_eq {request : NctussEmuRequest} {n : UInt32} (hn : s.reply.id = n)
    (h : s.answer request = .loop s' sent) :
    sent = some s'.datagram ∧ Answers s' n ∧ s'.mySSDSim = s.mySSDSim ∧
      s'.totals = s.totals ∧ s'.currentMaxRequestId = s.currentMaxRequestId ∧
      s'.memoryStorage = s.memoryStorage := by
  simp only [answer, Outcome.loop.injEq] at h
  obtain ⟨rfl, rfl⟩ := h
  refine ⟨rfl, ⟨hn, hn, ?_⟩, rfl, rfl, rfl, rfl⟩
  dsimp only
  split <;> simp [SECTOR_SIZE, NctussEmuReply.size]

/-- A complete request that the switch gets through is answered under its own
id, and the switch leaves the message counter alone. -/
theorem dispatch_answers {request : NctussEmuRequest} {buf : Bytes} (hc : Complete request buf)
    (h : s.dispatch request buf = .loop s' sent) :
    sent = some s'.datagram ∧ Answers s' request.id ∧
      s'.currentMaxRequestId = s.currentMaxRequestId := by
  obtain ⟨t, ht, hlen⟩ := hc
  rw [dispatch, ht] at h
  cases t with
  | reset =>
    obtain ⟨hs, ha, -, -, hm, -⟩ := answer_eq (replyWith_reply_id ..) h
    exact ⟨hs, ha, hm⟩
  | submitReqeust =>
    dsimp only at h
    split at h
    · cases h
    · obtain ⟨hs, ha, -, -, hm, -⟩ := answer_eq (replyWith_reply_id ..) h
      exact ⟨hs, ha, hm⟩
  | getNextResponses =>
    obtain ⟨hs, ha, -, -, hm, -⟩ :=
      answer_eq ((withResponses_reply_id ..).trans (replyWith_reply_id ..)) h
    rw [withResponses_currentMaxRequestId, replyWith_currentMaxRequestId] at hm
    exact ⟨hs, ha, hm⟩
  | readWriteData =>
    by_cases hread : request.data1 = 0
    · simp only [if_pos hread] at h
      obtain ⟨hs, ha, -, -, hm, -⟩ := answer_eq (replyWith_reply_id ..) h
      exact ⟨hs, ha, hm⟩
    · simp only [if_neg hread, if_neg (Nat.not_lt.mpr (hlen rfl hread))] at h
      obtain ⟨hs, ha, -, -, hm, -⟩ := answer_eq (replyWith_reply_id ..) h
      exact ⟨hs, ha, hm⟩

def zeroed : Server where
  mySSDSim := ⟨0, 0, 0, 0, 0, fun _ ↦ ⟨0, 0, 0, 0⟩⟩
  totals := ⟨0, 0, 0⟩
  currentMaxRequestId := 0
  memoryStorage _ := 0
  reply := ⟨0, 0, 0, 0, 0, 0, fun _ ↦ 0, 0⟩
  replyData := []
  replyLength := 0

end Server

def oneChannelReset : NctussEmuRequest where
  id := 123
  type := NctussEmuRequestType.reset.code
  data1 := 819200
  data2 := 1
  data3 := 1000
  idCheck := 123

end Nctusde.UdpServer

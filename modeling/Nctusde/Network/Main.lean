import Mathlib.Logic.Relation
import Nctusde.Library.Channel
import Nctusde.UdpServer.Copies

namespace Nctusde.Network

open Library.Channel UdpServer Wire

def MAX_SKB_DATA_SIZE : ℕ := 2048

def pollCountThreshhold : ℕ := 2000000

/-- The client in and between its calls of `communicate_with_emulator`; `sending`
is the datagram of the call that is running. -/
structure Client where
  sending : Option Bytes
  skbReplied : Bool
  currentWaitingReplyId : UInt32
  skb : Bytes
  pollCount : ℕ
  trapped : Bool
  deriving DecidableEq, Repr

/-- `nctuss_receive_skb`, from the point where a frame from the server is known
as such. It never returns from an oversized answer. -/
def Client.nctussReceiveSkb (c : Client) (data : Bytes) : Client :=
  if (NctussEmuReply.decode data).id = c.currentWaitingReplyId then
    if data.length > MAX_SKB_DATA_SIZE then { c with trapped := true }
    else { c with skb := data, skbReplied := true }
  else c

/-- A request the switch of the server was entered for, and what was sent then. -/
structure Execution where
  datagram : Bytes
  sent : Option Bytes
  deriving DecidableEq, Repr

/-- The client, the server, and the datagrams between them, with the history of
the run, newest first. -/
structure Net where
  server : Server
  hung : Option Trap
  requests : List Bytes
  replies : List Bytes
  client : Client
  issued : List Bytes
  executed : List Execution
  returned : List (Bytes × Bytes)

inductive Event
  | communicate (request : NctussEmuRequest) (data : Bytes)
  | poll (frames : ℕ)
  | return
  | deliver
  | requestFault (fault : Fault)
  | replyFault (fault : Fault)

/-- A datagram that is neither dropped nor answered from the reply buffer. -/
def Executes (s : Server) (bytes : Bytes) : Prop :=
  Readable bytes ∧ (IsReset bytes ∨ s.currentMaxRequestId < messageId bytes)

instance (s : Server) (bytes : Bytes) : Decidable (Executes s bytes) :=
  inferInstanceAs (Decidable (_ ∧ _))

def datagramOf (request : NctussEmuRequest) (data : Bytes) : Bytes :=
  ({ request with idCheck := request.id } : NctussEmuRequest).encode ++ data

namespace Net

variable (s : Net)

def communicate (request : NctussEmuRequest) (data : Bytes) : Net :=
  { s with
    client := { s.client with
      sending := some (datagramOf request data)
      skbReplied := false
      currentWaitingReplyId := request.id
      pollCount := 0 }
    requests := s.requests ++ [datagramOf request data]
    issued := datagramOf request data :: s.issued }

/-- One turn of the polling loop: the network driver hands over the frames that
arrived; at the threshold the datagram is sent again, answered or not. -/
def poll (datagram : Bytes) (frames : ℕ) : Net :=
  let client := (s.replies.take frames).foldl Client.nctussReceiveSkb s.client
  let s := { s with replies := s.replies.drop frames }
  if client.pollCount + 1 ≥ pollCountThreshhold ∧ client.trapped = false then
    { s with client := { client with pollCount := 0 }, requests := s.requests ++ [datagram] }
  else { s with client := { client with pollCount := client.pollCount + 1 } }

def handle (bytes : Bytes) : Outcome → Net
  | .hang trap => { s with hung := some trap }
  | .loop server sent =>
    { s with
      server := server
      replies := s.replies ++ sent.toList
      executed := if Executes s.server bytes then ⟨bytes, sent⟩ :: s.executed else s.executed }

def step : Event → Option Net
  | .communicate request data =>
    if s.client.sending = none ∧ s.client.trapped = false then some (s.communicate request data)
    else none
  | .poll frames =>
    match s.client.sending with
    | none => none
    | some datagram =>
      if s.client.skbReplied ∨ s.client.trapped then none else some (s.poll datagram frames)
  | .return =>
    match s.client.sending with
    | none => none
    | some datagram =>
      if s.client.skbReplied ∧ s.client.trapped = false then
        some { s with
          client := { s.client with sending := none }
          returned := (datagram, s.client.skb) :: s.returned }
      else none
  | .deliver =>
    match s.hung, s.requests with
    | none, bytes :: requests =>
      some (handle { s with requests := requests } bytes (s.server.receive bytes))
    | _, _ => none
  | .requestFault fault => some { s with requests := fault.apply s.requests }
  | .replyFault fault => some { s with replies := fault.apply s.replies }

/-- Before the client sends anything; of the server's memory nothing is known. -/
structure IsStart (server : Server) (s : Net) : Prop where
  server : s.server = server
  hung : s.hung = none
  requests : s.requests = []
  replies : s.replies = []
  sending : s.client.sending = none
  trapped : s.client.trapped = false
  issued : s.issued = []
  executed : s.executed = []
  returned : s.returned = []

inductive Reachable (P : Net → Event → Prop) (server : Server) : Net → Prop
  | start {s : Net} : s.IsStart server → Reachable P server s
  | step {s s' : Net} {e : Event} : Reachable P server s → P s e → s.step e = some s' →
      Reachable P server s'

def Leads (P : Net → Event → Prop) : Net → Net → Prop :=
  Relation.ReflTransGen fun s s' ↦ ∃ e, P s e ∧ s.step e = some s'

section

variable {s} {s' : Net}

theorem poll_eq (datagram : Bytes) (frames : ℕ) : ∃ pollCount requests, s.poll datagram frames =
    { s with
      client := { (s.replies.take frames).foldl Client.nctussReceiveSkb s.client with
        pollCount := pollCount }
      requests := requests
      replies := s.replies.drop frames } := by
  unfold poll
  dsimp only
  split
  · exact ⟨_, _, rfl⟩
  · exact ⟨_, _, rfl⟩

theorem step_communicate {request : NctussEmuRequest} {data : Bytes}
    (hs : s.step (.communicate request data) = some s') :
    s.client.sending = none ∧ s' = s.communicate request data := by
  obtain ⟨⟨hidle, -⟩, hs⟩ := Option.ite_none_right_eq_some.mp hs
  exact ⟨hidle, (Option.some.inj hs).symm⟩

theorem step_poll {frames : ℕ} (hs : s.step (.poll frames) = some s') :
    ∃ d, s.client.sending = some d ∧ s' = s.poll d frames := by
  rw [step] at hs
  split at hs
  · cases hs
  · rename_i d hd
    obtain ⟨-, hs⟩ := Option.ite_none_left_eq_some.mp hs
    exact ⟨d, hd, (Option.some.inj hs).symm⟩

theorem step_return (hs : s.step .return = some s') : ∃ d, s.client.sending = some d ∧
    s.client.skbReplied = true ∧ s' = { s with
      client := { s.client with sending := none }
      returned := (d, s.client.skb) :: s.returned } := by
  rw [step] at hs
  split at hs
  · cases hs
  · rename_i d hd
    obtain ⟨⟨hreplied, -⟩, hs⟩ := Option.ite_none_right_eq_some.mp hs
    exact ⟨d, hd, hreplied, (Option.some.inj hs).symm⟩

theorem step_deliver (hs : s.step .deliver = some s') : s.hung = none ∧
    ∃ d requests, s.requests = d :: requests ∧
      s' = handle { s with requests := requests } d (s.server.receive d) := by
  rw [step] at hs
  split at hs
  · rename_i d requests hhung hq
    exact ⟨hhung, d, requests, hq, (Option.some.inj hs).symm⟩
  · cases hs

theorem deliver_client (hs : s.step .deliver = some s') : s'.client = s.client := by
  obtain ⟨-, d, requests, -, rfl⟩ := step_deliver hs
  cases s.server.receive d with
  | hang trap => rfl
  | loop server sent => rfl

theorem deliver_issued (hs : s.step .deliver = some s') : s'.issued = s.issued := by
  obtain ⟨-, d, requests, -, rfl⟩ := step_deliver hs
  cases s.server.receive d with
  | hang trap => rfl
  | loop server sent => rfl

end

def nextId : ℕ :=
  match s.issued with
  | [] => 123
  | datagram :: _ => messageId datagram + 1

/-- The client opens with a reset and numbers its messages from 123 on. -/
def NextId : Event → Prop
  | .communicate request _ =>
    request.id.toNat = s.nextId ∧ (s.issued = [] → request.type = NctussEmuRequestType.reset.code)
  | _ => True

/-- The network loses and duplicates, but does not reorder. -/
def KeepsOrder : Event → Prop
  | .requestFault fault => fault.KeepsOrder
  | .replyFault fault => fault.KeepsOrder
  | _ => True

/-- No datagram reaches the server after one with a higher id was executed. -/
def InOrder : Event → Prop
  | .deliver => ∀ bytes ∈ s.requests.head?, ∀ e ∈ s.executed,
      messageId e.datagram ≤ messageId bytes
  | _ => True

instance : DecidablePred s.NextId
  | .communicate _ _ => inferInstanceAs (Decidable (_ ∧ _))
  | .poll _ | .return | .deliver | .requestFault _ | .replyFault _ => .isTrue trivial

instance : DecidablePred KeepsOrder
  | .requestFault fault => inferInstanceAs (Decidable fault.KeepsOrder)
  | .replyFault fault => inferInstanceAs (Decidable fault.KeepsOrder)
  | .communicate _ _ | .poll _ | .return | .deliver => .isTrue trivial

instance : DecidablePred s.InOrder
  | .deliver => inferInstanceAs (Decidable (∀ _ ∈ _, _))
  | .communicate _ _ | .poll _ | .return | .requestFault _ | .replyFault _ => .isTrue trivial

def run (P : Net → Event → Prop) [∀ s e, Decidable (P s e)] : List Event → Net → Option Net
  | [], s => some s
  | e :: es, s => if P s e then (s.step e).bind (run P es) else none

theorem Reachable.run {P : Net → Event → Prop} [∀ s e, Decidable (P s e)] {server : Server}
    {s s' : Net} (h : Reachable P server s) {es : List Event} (hs : run P es s = some s') :
    Reachable P server s' := by
  induction es generalizing s with
  | nil =>
    obtain rfl := Option.some.inj hs
    exact h
  | cons e es ih =>
    rw [Net.run, Option.ite_none_right_eq_some] at hs
    obtain ⟨hP, hs⟩ := hs
    obtain ⟨s₁, h₁, hs⟩ := Option.bind_eq_some_iff.mp hs
    exact ih (.step h hP h₁) hs

def zeroed : Net where
  server := .zeroed
  hung := none
  requests := []
  replies := []
  client := ⟨none, false, 0, [], 0, false⟩
  issued := []
  executed := []
  returned := []

theorem zeroed_isStart : IsStart .zeroed zeroed := ⟨rfl, rfl, rfl, rfl, rfl, rfl, rfl, rfl, rfl⟩

end Net

def readFirstSector (id : UInt32) : NctussEmuRequest :=
  { id := id, type := NctussEmuRequestType.readWriteData.code }

end Nctusde.Network

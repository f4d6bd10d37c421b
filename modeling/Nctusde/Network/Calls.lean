import Nctusde.Network.ExactlyOnce

namespace Nctusde.Network

open Library.Channel UdpServer Wire

variable {server : Server} {s s' : Net} {request : NctussEmuRequest} {data reply : Bytes}

def Between (_ : Net) : Event → Prop
  | .communicate _ _ => False
  | .return => False
  | .requestFault fault => fault.KeepsOrder
  | .replyFault fault => fault.KeepsOrder
  | .poll _ => True
  | .deliver => True

/-- A whole call of `communicate_with_emulator`, and what the network did before it. -/
def Net.Calls (s : Net) (request : NctussEmuRequest) (data reply : Bytes) (s' : Net) : Prop :=
  ∃ s₁ s₂ s₃, Net.Leads Between s s₁ ∧ s₁.step (.communicate request data) = some s₂ ∧
    Net.Leads Between s₂ s₃ ∧ s₃.step .return = some s' ∧
      s'.returned.head? = some (datagramOf request data, reply)

theorem Between.ordered {e : Event} (h : Between s e) : Ordered s e := by
  cases e with
  | communicate request data => exact h.elim
  | «return» => exact h.elim
  | requestFault fault => exact ⟨trivial, h⟩
  | replyFault fault => exact ⟨trivial, h⟩
  | poll frames => exact ⟨trivial, trivial⟩
  | deliver => exact ⟨trivial, trivial⟩

theorem nctussReceiveSkb_sending (c : Client) (b : Bytes) :
    (c.nctussReceiveSkb b).sending = c.sending := by
  unfold Client.nctussReceiveSkb
  split
  · split <;> rfl
  · rfl

theorem foldl_nctussReceiveSkb_sending (bs : List Bytes) (c : Client) :
    (bs.foldl Client.nctussReceiveSkb c).sending = c.sending := by
  induction bs generalizing c with
  | nil => rfl
  | cons b bs ih => exact (ih _).trans (nctussReceiveSkb_sending c b)

theorem Between.step {e : Event} (h : Between s e) (hs : s.step e = some s') :
    s'.issued = s.issued ∧ s'.client.sending = s.client.sending := by
  cases e with
  | communicate request data => exact h.elim
  | «return» => exact h.elim
  | requestFault fault =>
    obtain rfl := Option.some.inj hs
    exact ⟨rfl, rfl⟩
  | replyFault fault =>
    obtain rfl := Option.some.inj hs
    exact ⟨rfl, rfl⟩
  | poll frames =>
    obtain ⟨d, -, rfl⟩ := Net.step_poll hs
    obtain ⟨pollCount, requests, hpoll⟩ := s.poll_eq d frames
    rw [hpoll]
    exact ⟨rfl, foldl_nctussReceiveSkb_sending (s.replies.take frames) s.client⟩
  | deliver =>
    exact ⟨Net.deliver_issued hs, congrArg Client.sending (Net.deliver_client hs)⟩

theorem Leads.between (h : Net.Leads Between s s') (hr : Net.Reachable Ordered server s) :
    Net.Reachable Ordered server s' ∧ s'.issued = s.issued ∧
      s'.client.sending = s.client.sending := by
  induction h with
  | refl => exact ⟨hr, rfl, rfl⟩
  | tail _ hstep ih =>
    obtain ⟨e, he, hs⟩ := hstep
    obtain ⟨hissued, hsending⟩ := he.step hs
    exact ⟨ih.1.step he.ordered hs, hissued.trans ih.2.1, hsending.trans ih.2.2⟩

theorem Leads.server_idle (h : Net.Leads Between s s') (hr : Net.Reachable Ordered server s)
    (hidle : s.client.sending = none) : s'.server = s.server := by
  obtain ⟨hr', hissued, hsending⟩ := Leads.between h hr
  have hreplay := (reachable_invariant hr).1.replay_idle hidle
  have hreplay' := (reachable_invariant hr').1.replay_idle (hsending.trans hidle)
  rw [hissued, hreplay] at hreplay'
  exact (Option.some.inj hreplay').symm

theorem replay_step {server₁ server₂ : Server} {d : Bytes} {l : List Bytes}
    (h : replay server l = some server₁) (h' : replay server (d :: l) = some server₂) :
    ∃ sent, server₁.receive d = .loop server₂ sent := by
  rw [replay, h] at h'
  dsimp only at h'
  cases hrec : server₁.receive d with
  | hang trap =>
    rw [hrec] at h'
    cases h'
  | loop server' sent =>
    rw [hrec] at h'
    exact ⟨sent, by rw [Option.some.inj h']⟩

/-- A call over a network that keeps the order acts as one call on the server. -/
theorem Net.Calls.receive (h : s.Calls request data reply s') (hr : Net.Reachable Ordered server s)
    (hidle : s.client.sending = none) (hid : s.NextId (.communicate request data)) :
    (∃ sent, s.server.receive (datagramOf request data) = .loop s'.server sent) ∧
      reply = s'.server.datagram ∧ Net.Reachable Ordered server s' ∧ s'.client.sending = none ∧
        s'.issued = datagramOf request data :: s.issued := by
  obtain ⟨s₁, s₂, s₃, hbefore, hcall, hduring, hreturn, hreply⟩ := h
  obtain ⟨hr₁, hissued₁, hsending₁⟩ := Leads.between hbefore hr
  have hnext : s₁.NextId (.communicate request data) := by
    have heq : s₁.nextId = s.nextId := by rw [Net.nextId, Net.nextId, hissued₁]
    obtain ⟨h₁, h₂⟩ := hid
    exact ⟨heq ▸ h₁, fun hnil ↦ h₂ (hissued₁ ▸ hnil)⟩
  have hr₂ : Net.Reachable Ordered server s₂ := hr₁.step ⟨hnext, trivial⟩ hcall
  obtain ⟨hissued₂, hsending₂⟩ : s₂.issued = datagramOf request data :: s.issued ∧
      s₂.client.sending = some (datagramOf request data) := by
    obtain ⟨-, rfl⟩ := Net.step_communicate hcall
    exact ⟨by rw [Net.communicate, hissued₁], rfl⟩
  obtain ⟨hr₃, hissued₃, hsending₃⟩ := Leads.between hduring hr₂
  have hsending : s₃.client.sending = some (datagramOf request data) := hsending₃.trans hsending₂
  have hr' : Net.Reachable Ordered server s' := hr₃.step (e := .return) ⟨trivial, trivial⟩ hreturn
  obtain ⟨d, hd, hreplied, rfl⟩ := Net.step_return hreturn
  obtain rfl := Option.some.inj (hsending.symm.trans hd)
  have hissued : s₃.issued = datagramOf request data :: s.issued := hissued₃.trans hissued₂
  refine ⟨?_, ?_, hr', rfl, hissued⟩
  · have hreplay := (reachable_invariant hr).1.replay_idle hidle
    have hreplay' := (reachable_invariant hr').1.replay_idle rfl
    exact replay_step hreplay (hissued ▸ hreplay')
  · obtain ⟨e, -, -, hskb⟩ := ((reachable_invariant hr₃).1.sending _ hsending).replied hreplied
    rw [List.head?_cons, Option.some.injEq, Prod.mk.injEq] at hreply
    exact hreply.2.symm.trans hskb

/-- Nothing is in flight, and nobody waits. -/
structure Net.Calm (s : Net) : Prop where
  hung : s.hung = none
  requests : s.requests = []
  replies : s.replies = []
  sending : s.client.sending = none
  trapped : s.client.trapped = false

theorem Net.poll_frame {d b : Bytes} {c : Client} (hreplies : s.replies = [b])
    (hskb : s.client.nctussReceiveSkb b = c) (hc : ¬ c.pollCount + 1 ≥ pollCountThreshhold) :
    s.poll d 1 = { s with replies := [], client := { c with pollCount := c.pollCount + 1 } } := by
  have hfold : (s.replies.take 1).foldl Client.nctussReceiveSkb s.client = c := by
    rw [hreplies, List.take_succ_cons, List.take_zero, List.foldl_cons, List.foldl_nil, hskb]
  have hdrop : s.replies.drop 1 = [] := by
    rw [hreplies, List.drop_succ_cons, List.drop_zero]
  rw [Net.poll, hfold, hdrop]
  exact if_neg fun h ↦ hc h.1

theorem Net.Calm.exists_calls (h : s.Calm) {server' : Server}
    (hrec : s.server.receive (datagramOf request data) = .loop server' (some reply))
    (hreply : (NctussEmuReply.decode reply).id = request.id)
    (hlength : reply.length ≤ MAX_REPLY_SIZE) :
    ∃ s', s.Calls request data reply s' ∧ s'.Calm ∧ s'.server = server' := by
  obtain ⟨srv, hung, requests, replies, ⟨sending, skbReplied, waiting, skb, pollCount, trapped⟩,
    issued, executed, returned⟩ := s
  obtain ⟨hhung, hrequests, hreplies, hsending, htrapped⟩ := h
  dsimp only at hhung hrequests hreplies hsending htrapped hrec
  subst hhung hrequests hreplies hsending htrapped
  generalize hd : datagramOf request data = d at hrec ⊢
  let asked : Client := ⟨some d, false, request.id, skb, 0, false⟩
  let log := if Executes srv d then ⟨d, some reply⟩ :: executed else executed
  let sent : Net := ⟨srv, none, [d], [], asked, d :: issued, executed, returned⟩
  let served : Net := ⟨server', none, [], [reply], asked, d :: issued, log, returned⟩
  have hcall : Net.step
    ⟨srv, none, [], [], ⟨none, skbReplied, waiting, skb, pollCount, false⟩, issued,
      executed, returned⟩ (.communicate request data) = some sent := by
    rw [Net.step, if_pos ⟨rfl, rfl⟩, Net.communicate, hd]
    rfl
  have hdeliver : sent.step .deliver = some served := by
    show some (Net.handle _ d (srv.receive d)) = some served
    rw [hrec]
    rfl
  have hshort : ¬ reply.length > MAX_SKB_DATA_SIZE := by
    simp only [MAX_REPLY_SIZE, MAX_SKB_DATA_SIZE, SECTOR_SIZE, NctussEmuReply.size] at *
    omega
  have hskb : asked.nctussReceiveSkb reply = ⟨some d, true, request.id, reply, 0, false⟩ := by
    rw [Client.nctussReceiveSkb, if_pos hreply, if_neg hshort]
  let polled : Net :=
    ⟨server', none, [], [], ⟨some d, true, request.id, reply, 1, false⟩, d :: issued,
    log, returned⟩
  have hfirst : ¬ 0 + 1 ≥ pollCountThreshhold := by
    rw [pollCountThreshhold]
    omega
  have hpoll : served.step (.poll 1) = some polled :=
    congrArg some (Net.poll_frame (s := served) rfl hskb hfirst)
  have hreturn : polled.step .return = some { polled with
      client := ⟨none, true, request.id, reply, 1, false⟩
      returned := (d, reply) :: returned } := rfl
  refine ⟨_, ⟨_, sent, polled, .refl, hcall, ?_, hreturn, by rw [hd]; rfl⟩,
    ⟨rfl, rfl, rfl, rfl, rfl⟩, rfl⟩
  exact (Relation.ReflTransGen.single ⟨.deliver, trivial, hdeliver⟩).tail ⟨.poll 1, trivial, hpoll⟩

end Nctusde.Network

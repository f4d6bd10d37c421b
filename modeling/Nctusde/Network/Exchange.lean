import Nctusde.Network.Main

namespace Nctusde.Network

open Library.Channel UdpServer Wire

def Stamped (bytes : Bytes) : Prop := ∃ request data, bytes = datagramOf request data

theorem requestOf_datagramOf (request : NctussEmuRequest) (data : Bytes) :
    requestOf (datagramOf request data) = { request with idCheck := request.id } :=
  requestOf_encode _ _

theorem messageId_datagramOf (request : NctussEmuRequest) (data : Bytes) :
    messageId (datagramOf request data) = request.id.toNat := by
  rw [messageId, requestOf_datagramOf]

theorem Stamped.readable {bytes : Bytes} (h : Stamped bytes) : Readable bytes := by
  obtain ⟨request, data, rfl⟩ := h
  exact readable_encode _ _

theorem Stamped.idCheck {bytes : Bytes} (h : Stamped bytes) :
    (requestOf bytes).idCheck = (requestOf bytes).id := by
  obtain ⟨request, data, rfl⟩ := h
  rw [requestOf_datagramOf]

/-- A session opened by reset 123, newest datagram first. -/
def Numbered : List Bytes → Prop
  | [] => True
  | [d] => IsReset d ∧ messageId d = 123
  | d :: d' :: l => messageId d = messageId d' + 1 ∧ Numbered (d' :: l)

theorem Numbered.tail {d : Bytes} {l : List Bytes} (h : Numbered (d :: l)) : Numbered l := by
  cases l with
  | nil => trivial
  | cons d' l => exact h.2

theorem Numbered.lt {d : Bytes} {l : List Bytes} (h : Numbered (d :: l)) :
    ∀ x ∈ l, messageId x < messageId d := by
  induction l generalizing d with
  | nil =>
    intro x hx
    cases hx
  | cons d' l ih =>
    intro x hx
    have hd := h.1
    rcases List.mem_cons.mp hx with rfl | hx
    · omega
    · have := ih h.2 x hx
      omega

theorem Numbered.le {d : Bytes} {l : List Bytes} (h : Numbered (d :: l)) {x : Bytes}
    (hx : x ∈ d :: l) : messageId x ≤ messageId d := by
  rcases List.mem_cons.mp hx with rfl | hx
  · exact le_rfl
  · exact (h.lt x hx).le

theorem Numbered.unique {l : List Bytes} (h : Numbered l) {x y : Bytes} (hx : x ∈ l) (hy : y ∈ l)
    (hid : messageId x = messageId y) : x = y := by
  induction l with
  | nil => cases hx
  | cons d l ih =>
    rcases List.mem_cons.mp hx with rfl | hx' <;> rcases List.mem_cons.mp hy with rfl | hy'
    · rfl
    · have := h.lt y hy'
      omega
    · have := h.lt x hx'
      omega
    · exact ih h.tail hx' hy'

/-- The server after it was given each datagram once, in the order of their ids. -/
def replay (server : Server) : List Bytes → Option Server
  | [] => some server
  | d :: l =>
    match replay server l with
    | none => none
    | some s =>
      match s.receive d with
      | .hang _ => none
      | .loop s' _ => some s'

/-- The newest datagram was executed, or only the one before it; the server is what
the executed ones made of it. -/
inductive Phase (server : Server) (issued : List Bytes) (latest : Option Execution) (now : Server) :
    Prop
  | settled : issued.head? = latest.map (·.datagram) → replay server issued = some now →
      Phase server issued latest now
  | pending {d : Bytes} {l : List Bytes} : issued = d :: l → l.head? = latest.map (·.datagram) →
      replay server l = some now → Phase server issued latest now

/-- An answer on its way to the client that the latest execution gives rise to, or
an earlier one. -/
structure Fresh (latest : Option Execution) (now : Server) (b : Bytes) : Prop where
  length : b.length ≤ MAX_REPLY_SIZE
  kept : ∃ e ∈ latest, replyId b ≤ messageId e.datagram ∧
    (replyId b = messageId e.datagram → b = now.datagram)

structure Awaits (issued : List Bytes) (latest : Option Execution) (now : Server) (c : Client)
    (d : Bytes) : Prop where
  newest : issued.head? = some d
  id : c.currentWaitingReplyId.toNat = messageId d
  replied : c.skbReplied = true → ∃ e ∈ latest, e.datagram = d ∧ c.skb = now.datagram

def Net.latest (s : Net) : Option Execution := s.executed.head?

structure Invariant (server : Server) (s : Net) : Prop where
  numbered : Numbered s.issued
  stamped : ∀ d ∈ s.issued, Stamped d
  requests : ∀ d ∈ s.requests, d ∈ s.issued
  executed : ∀ e ∈ s.executed, e.datagram ∈ s.issued ∧
    (WellFormed e.datagram → ∃ b, e.sent = some b ∧ replyId b = messageId e.datagram)
  once : s.executed.Pairwise fun e' e ↦ messageId e.datagram < messageId e'.datagram ∨
    IsReset e.datagram ∧ e.datagram = e'.datagram
  settled : ∀ e ∈ s.latest, Settled s.server e.datagram e.sent
  phase : Phase server s.issued s.latest s.server
  replies : ∀ b ∈ s.replies, Fresh s.latest s.server b
  sending : ∀ d ∈ s.client.sending, Awaits s.issued s.latest s.server s.client d
  idle : s.client.sending = none → s.issued.head? = s.latest.map (·.datagram)
  trapped : s.client.trapped = false
  returned : ∀ p ∈ s.returned, p.1 ∈ s.issued ∧
    (WellFormed p.1 → ⟨p.1, some p.2⟩ ∈ s.executed)
  hung : ∀ t ∈ s.hung, ∃ d ∈ s.issued, Hangs d t

variable {server : Server} {s s' : Net}

theorem Net.IsStart.invariant (h : s.IsStart server) : Invariant server s where
  numbered := by
    rw [h.issued]
    trivial
  stamped := by simp [h.issued]
  requests := by simp [h.requests]
  executed := by simp [h.executed]
  once := by simp [h.executed]
  settled := by simp [Net.latest, h.executed]
  phase := .settled (by simp [Net.latest, h.issued, h.executed])
    (by simp [h.issued, replay, h.server])
  replies := by simp [h.replies]
  sending := by simp [h.sending]
  idle := by simp [Net.latest, h.issued, h.executed]
  trapped := h.trapped
  returned := by simp [h.returned]
  hung := by simp [h.hung]

namespace Invariant

theorem replay_idle (h : Invariant server s) (hidle : s.client.sending = none) :
    replay server s.issued = some s.server := by
  cases h.phase with
  | settled _ hr => exact hr
  | @pending d l hd hl hr =>
    have hhead := h.idle hidle
    rw [hd, ← hl] at hhead
    have hn := h.numbered
    rw [hd] at hn
    have := hn.lt d (List.mem_of_mem_head? (Option.mem_def.mpr hhead.symm))
    omega

theorem communicate (h : Invariant server s) (hidle : s.client.sending = none)
    {request : NctussEmuRequest} {data : Bytes} (hid : s.NextId (.communicate request data)) :
    Invariant server (s.communicate request data) where
  numbered := by
    have hn := h.numbered
    obtain ⟨hnext, hfirst⟩ := hid
    rw [Net.nextId] at hnext
    rw [Net.communicate]
    cases hi : s.issued with
    | nil =>
      rw [hi] at hnext
      refine ⟨?_, (messageId_datagramOf ..).trans hnext⟩
      rw [IsReset, requestOf_datagramOf]
      exact hfirst hi
    | cons d l =>
      rw [hi] at hnext hn
      exact ⟨(messageId_datagramOf ..).trans hnext, hn⟩
  stamped d hd := by
    rcases List.mem_cons.mp hd with rfl | hd
    · exact ⟨_, _, rfl⟩
    · exact h.stamped d hd
  requests d hd := by
    rcases List.mem_append.mp hd with hd | hd
    · exact List.mem_cons_of_mem _ (h.requests d hd)
    · rw [List.mem_singleton.mp hd]
      exact List.mem_cons_self
  executed e he := ⟨List.mem_cons_of_mem _ (h.executed e he).1, (h.executed e he).2⟩
  once := h.once
  settled := h.settled
  phase := .pending rfl (h.idle hidle) (h.replay_idle hidle)
  replies := h.replies
  sending d hd := by
    obtain rfl := Option.some.inj hd
    exact ⟨rfl, (messageId_datagramOf ..).symm, fun hr ↦ Bool.noConfusion hr⟩
  idle hn := absurd hn (Option.some_ne_none _)
  trapped := h.trapped
  returned p hp := ⟨List.mem_cons_of_mem _ (h.returned p hp).1, (h.returned p hp).2⟩
  hung t ht := by
    obtain ⟨d, hd, hh⟩ := h.hung t ht
    exact ⟨d, List.mem_cons_of_mem _ hd, hh⟩

/-- A frame is an answer to the message the client waits for, or is left alone. -/
theorem receiveSkb (h : Invariant server s) {c : Client} {d b : Bytes}
    (hd : Awaits s.issued s.latest s.server c d) (ht : c.trapped = false)
    (hb : Fresh s.latest s.server b) :
    Awaits s.issued s.latest s.server (c.nctussReceiveSkb b) d ∧
      (c.nctussReceiveSkb b).trapped = false ∧ (c.nctussReceiveSkb b).sending = c.sending := by
  unfold Client.nctussReceiveSkb
  split
  · rename_i hid
    have hshort : ¬ b.length > MAX_SKB_DATA_SIZE := by
      have := hb.length
      simp only [MAX_REPLY_SIZE, MAX_SKB_DATA_SIZE, SECTOR_SIZE, NctussEmuReply.size] at *
      omega
    rw [if_neg hshort]
    refine ⟨⟨hd.newest, hd.id, fun _ ↦ ?_⟩, ht, rfl⟩
    obtain ⟨e, he, hle, hkept⟩ := hb.kept
    have heq : replyId b = messageId d := by rw [replyId, hid, hd.id]
    have hmem := (h.executed e (List.mem_of_mem_head? he)).1
    obtain ⟨l, hl⟩ : ∃ l, s.issued = d :: l := List.head?_eq_some_iff.mp hd.newest
    have hn := h.numbered
    rw [hl] at hn hmem
    have hle' := hn.le hmem
    have hed : messageId e.datagram = messageId d := by omega
    exact ⟨e, he, hn.unique hmem List.mem_cons_self hed, hkept (by omega)⟩
  · exact ⟨hd, ht, rfl⟩

theorem receiveSkbs (h : Invariant server s) {d : Bytes} {bs : List Bytes}
    (hbs : ∀ b ∈ bs, Fresh s.latest s.server b) {c : Client}
    (hd : Awaits s.issued s.latest s.server c d) (ht : c.trapped = false) :
    Awaits s.issued s.latest s.server (bs.foldl Client.nctussReceiveSkb c) d ∧
      (bs.foldl Client.nctussReceiveSkb c).trapped = false ∧
      (bs.foldl Client.nctussReceiveSkb c).sending = c.sending := by
  induction bs generalizing c with
  | nil => exact ⟨hd, ht, rfl⟩
  | cons b bs ih =>
    obtain ⟨hd', ht', hs'⟩ := h.receiveSkb hd ht (hbs b List.mem_cons_self)
    obtain ⟨hd'', ht'', hs''⟩ := ih (fun x hx ↦ hbs x (List.mem_cons_of_mem _ hx)) hd' ht'
    exact ⟨hd'', ht'', hs''.trans hs'⟩

theorem poll (h : Invariant server s) {d : Bytes} (hd : s.client.sending = some d) (frames : ℕ) :
    Invariant server (s.poll d frames) := by
  have hbs : ∀ b ∈ s.replies.take frames, Fresh s.latest s.server b :=
    fun b hb ↦ h.replies b (List.mem_of_mem_take hb)
  obtain ⟨⟨hn, hi, hr⟩, ht, hs⟩ := h.receiveSkbs hbs (h.sending d hd) h.trapped
  rw [hd] at hs
  have hrest : ∀ b ∈ s.replies.drop frames, Fresh s.latest s.server b :=
    fun b hb ↦ h.replies b (List.mem_of_mem_drop hb)
  unfold Net.poll
  dsimp only
  generalize (s.replies.take frames).foldl Client.nctussReceiveSkb s.client = c at *
  have hsending : ∀ x ∈ c.sending, Awaits s.issued s.latest s.server c x := by
    intro x hx
    obtain rfl := Option.some.inj (hs.symm.trans hx)
    exact ⟨hn, hi, hr⟩
  have hidle (hnone : c.sending = none) : s.issued.head? = s.latest.map (·.datagram) := by
    rw [hnone] at hs
    cases hs
  split
  · refine ⟨h.numbered, h.stamped, fun x hx ↦ ?_, h.executed, h.once, h.settled, h.phase, hrest,
      fun x hx ↦ ⟨(hsending x hx).1, (hsending x hx).2, (hsending x hx).3⟩, hidle, ht, h.returned,
      h.hung⟩
    rcases List.mem_append.mp hx with hx | hx
    · exact h.requests x hx
    · rw [List.mem_singleton.mp hx]
      exact List.mem_of_mem_head? hn
  · exact ⟨h.numbered, h.stamped, h.requests, h.executed, h.once, h.settled, h.phase, hrest,
      fun x hx ↦ ⟨(hsending x hx).1, (hsending x hx).2, (hsending x hx).3⟩, hidle, ht, h.returned,
      h.hung⟩

theorem returns (h : Invariant server s) {d : Bytes} (hd : s.client.sending = some d)
    (hr : s.client.skbReplied = true) :
    Invariant server { s with
      client := { s.client with sending := none }
      returned := (d, s.client.skb) :: s.returned } := by
  obtain ⟨hn, -, hreplied⟩ := h.sending d hd
  obtain ⟨e, he, rfl, hskb⟩ := hreplied hr
  refine ⟨h.numbered, h.stamped, h.requests, h.executed, h.once, h.settled, h.phase, h.replies,
    fun x hx ↦ (nomatch hx), fun _ ↦ ?_, h.trapped, fun p hp ↦ ?_, h.hung⟩
  · have hlatest : s.issued.head? = s.latest.map (·.datagram) := hn.trans (by rw [he]; rfl)
    exact hlatest
  · rcases List.mem_cons.mp hp with rfl | hp
    · refine ⟨List.mem_of_mem_head? hn, fun hw ↦ ?_⟩
      have hsent := ((h.settled e he).answered hw).1
      dsimp only
      rw [hskb, ← hsent]
      exact List.mem_of_mem_head? he
    · exact h.returned p hp

theorem fault (h : Invariant server s) {requests replies : List Bytes}
    (hq : ∀ d ∈ requests, d ∈ s.requests) (hr : ∀ b ∈ replies, b ∈ s.replies) :
    Invariant server { s with requests := requests, replies := replies } where
  __ := h
  requests d hd := h.requests d (hq d hd)
  replies b hb := h.replies b (hr b hb)

theorem fresh_of_settled {latest : Option Execution} {now : Server}
    {e : Execution} (he : e ∈ latest)
    (hset : Settled now e.datagram e.sent) : Fresh latest now now.datagram := by
  refine ⟨datagram_length hset.length, e, he, ?_, fun _ ↦ rfl⟩
  rw [replyId_datagram hset.header]
  exact hset.replyId

theorem executed_cons (h : Invariant server s) {e : Execution} (hmem : e.datagram ∈ s.issued)
    {now : Server} (hset : Settled now e.datagram e.sent) {e' : Execution}
    (he' : e' ∈ e :: s.executed) : e'.datagram ∈ s.issued ∧
      (WellFormed e'.datagram → ∃ b, e'.sent = some b ∧ replyId b = messageId e'.datagram) := by
  rcases List.mem_cons.mp he' with rfl | he'
  · refine ⟨hmem, fun hw ↦ ?_⟩
    obtain ⟨hs, hid⟩ := hset.answered hw
    refine ⟨_, hs, ?_⟩
    rw [replyId_datagram hset.header, hid]
    rfl
  · exact h.executed e' he'

theorem returned_cons (h : Invariant server s) (e : Execution) {p : Bytes × Bytes}
    (hp : p ∈ s.returned) :
    p.1 ∈ s.issued ∧ (WellFormed p.1 → ⟨p.1, some p.2⟩ ∈ e :: s.executed) :=
  ⟨(h.returned p hp).1, fun hw ↦ List.mem_cons_of_mem _ ((h.returned p hp).2 hw)⟩

theorem executed_lt (h : Invariant server s) {n : ℕ}
    (hlt : ∀ e ∈ s.latest, messageId e.datagram < n) {e : Execution} (he : e ∈ s.executed) :
    messageId e.datagram < n := by
  rcases hx : s.executed with _ | ⟨e', l'⟩
  · rw [hx] at he
    cases he
  have hlatest : s.latest = some e' := by
    rw [Net.latest, hx]
    rfl
  have hmax := hlt e' hlatest
  have honce := h.once
  rw [hx] at he honce
  rcases List.mem_cons.mp he with rfl | he
  · exact hmax
  · rcases (List.pairwise_cons.mp honce).1 e he with hlt' | ⟨-, heq⟩
    · exact hlt'.trans hmax
    · rwa [heq]

/-- A copy of the latest executed datagram is answered as the original was. -/
theorem newest_inOrder (h : Invariant server s) {d : Bytes} (hd : s.issued.head? = some d)
    (hq : s.requests.head? = some d) : s.InOrder .deliver := by
  intro x hx e he
  obtain rfl := Option.some.inj (hq.symm.trans hx)
  obtain ⟨l, hl⟩ : ∃ l, s.issued = d :: l := List.head?_eq_some_iff.mp hd
  have hn := h.numbered
  have hmem := (h.executed e he).1
  rw [hl] at hn hmem
  exact hn.le hmem

/-- Only a reset is executed again, right after itself. -/
theorem once_again (h : Invariant server s) {e : Execution} (he : e ∈ s.latest)
    (hreset : IsReset e.datagram) : ∀ e' ∈ s.executed,
      messageId e'.datagram < messageId e.datagram ∨
        IsReset e'.datagram ∧ e'.datagram = e.datagram := by
  obtain ⟨l, hl⟩ : ∃ l, s.executed = e :: l := List.head?_eq_some_iff.mp he
  have honce := h.once
  rw [hl] at honce ⊢
  intro e' he'
  rcases List.mem_cons.mp he' with rfl | he'
  · exact .inr ⟨hreset, rfl⟩
  · exact (List.pairwise_cons.mp honce).1 e' he'

theorem deliver_copy (h : Invariant server s) {e : Execution} (he : e ∈ s.latest)
    {requests : List Bytes} (hq : ∀ d ∈ requests, d ∈ s.requests) :
    Invariant server (Net.handle { s with requests := requests } e.datagram
      (s.server.receive e.datagram)) := by
  have hset := h.settled e he
  rw [hset.copy]
  unfold Net.handle
  dsimp only
  have hmem := List.mem_of_mem_head? he
  have hreplies : ∀ b ∈ s.replies ++ [s.server.datagram], Fresh s.latest s.server b := by
    intro b hb
    rcases List.mem_append.mp hb with hb | hb
    · exact h.replies b hb
    · rw [List.mem_singleton.mp hb]
      exact fresh_of_settled he hset
  have hagain : Settled s.server e.datagram (some s.server.datagram) :=
    ⟨hset.copy, hset.counter, hset.newest, hset.replyId, hset.header, hset.length,
      fun hw ↦ ⟨rfl, (hset.answered hw).2⟩⟩
  split
  · rename_i hx
    have hreset : IsReset e.datagram := by
      by_contra hn
      rcases hx.2 with hr | hlt
      · exact hn hr
      · exact absurd (hset.newest hn) hlt.ne
    have hlatest {e' : Execution} (he' : e' ∈ s.latest) : e' = e :=
      Option.some.inj (he'.symm.trans he)
    refine ⟨h.numbered, h.stamped, fun d hd ↦ h.requests d (hq d hd),
      fun _ ↦ h.executed_cons (e := ⟨e.datagram, some s.server.datagram⟩)
        (h.executed e hmem).1 hagain,
      List.pairwise_cons.mpr ⟨h.once_again (e := e) he hreset, h.once⟩, ?_, ?_, ?_, ?_, ?_,
      h.trapped, fun _ ↦ h.returned_cons _, h.hung⟩
    · intro e' he'
      obtain rfl := Option.some.inj he'
      exact hagain
    · cases h.phase with
      | settled h₁ h₂ => exact .settled (h₁.trans (by rw [he]; rfl)) h₂
      | pending h₁ h₂ h₃ => exact .pending h₁ (h₂.trans (by rw [he]; rfl)) h₃
    · intro b hb
      obtain ⟨hl, e', he', hkept⟩ := hreplies b hb
      exact ⟨hl, _, rfl, hlatest he' ▸ hkept⟩
    · intro d hd
      obtain ⟨h₁, h₂, h₃⟩ := h.sending d hd
      refine ⟨h₁, h₂, fun hr ↦ ?_⟩
      obtain ⟨e', he', hed, hskb⟩ := h₃ hr
      exact ⟨_, rfl, hlatest he' ▸ hed, hskb⟩
    · intro hn
      exact (h.idle hn).trans (by rw [he]; rfl)
  · exact ⟨h.numbered, h.stamped, fun d hd ↦ h.requests d (hq d hd), h.executed, h.once, h.settled,
      h.phase, hreplies, h.sending, h.idle, h.trapped, h.returned, h.hung⟩

theorem latest_lt (h : Invariant server s) {d : Bytes} {l : List Bytes} (hi : s.issued = d :: l)
    (hl : l.head? = s.latest.map (·.datagram)) :
    ∀ e ∈ s.latest, messageId e.datagram < messageId d := by
  intro e he
  have hn := h.numbered
  rw [hi] at hn
  rw [he] at hl
  exact hn.lt _ (List.mem_of_mem_head? hl)

/-- The first datagram of a message to arrive, when the message before it was the
latest, is executed, or its own content hangs the server. -/
theorem receive_pending (h : Invariant server s) {d : Bytes} {l : List Bytes}
    (hi : s.issued = d :: l) (hl : l.head? = s.latest.map (·.datagram)) :
    Executes s.server d ∧ ((∃ t, s.server.receive d = .hang t ∧ Hangs d t) ∨
      ∃ s' sent, s.server.receive d = .loop s' sent ∧ Settled s' d sent ∧
        ∀ b ∈ sent, b = s'.datagram) := by
  have hst := h.stamped d (by rw [hi]; exact List.mem_cons_self)
  have hlt := h.latest_lt hi hl
  have hreset : s.latest = none → IsReset d := by
    intro hx
    have hn := h.numbered
    rw [hx, Option.map_none, List.head?_eq_none_iff] at hl
    rw [hi, hl] at hn
    exact hn.1
  have hexec : IsReset d ∨ s.server.currentMaxRequestId < messageId d := by
    rcases hx : s.latest with _ | e
    · exact .inl (hreset hx)
    · have := (h.settled e hx).counter
      have := hlt e hx
      exact .inr (by omega)
  refine ⟨⟨hst.readable, hexec⟩, ?_⟩
  rcases hrec : s.server.receive d with t | ⟨s', sent⟩
  · exact .inl ⟨t, rfl, receive_hang hst.readable hst.idCheck hexec hrec⟩
  · refine .inr ⟨s', sent, rfl, ?_⟩
    by_cases hr : IsReset d
    · exact settled_of_reset hst.readable hr hrec
    · rcases hx : s.latest with _ | e
      · exact absurd (hreset hx) hr
      · have he := h.settled e hx
        exact settled_of_new hst.readable hr hst.idCheck (hexec.resolve_left hr)
          (he.replyId.trans (hlt e hx).le) ⟨he.header, he.length⟩ hrec

theorem deliver_new (h : Invariant server s) {d : Bytes} {l : List Bytes} (hi : s.issued = d :: l)
    (hl : l.head? = s.latest.map (·.datagram)) (hrep : replay server l = some s.server)
    {requests : List Bytes} (hq : ∀ d ∈ requests, d ∈ s.requests) :
    Invariant server (Net.handle { s with requests := requests } d (s.server.receive d)) := by
  have hmem : d ∈ s.issued := by
    rw [hi]
    exact List.mem_cons_self
  have hlt := h.latest_lt hi hl
  have hnone : s.client.sending ≠ none := by
    intro hs
    have hn := h.numbered
    have hidle := h.idle hs
    rw [hi] at hn
    rw [hi, ← hl] at hidle
    have := hn.lt d (List.mem_of_mem_head? (Option.mem_def.mpr hidle.symm))
    omega
  obtain ⟨hexec, ⟨t, hrec, hh⟩ | ⟨s', sent, hrec, hset, hsent⟩⟩ := h.receive_pending hi hl
  · rw [hrec]
    refine ⟨h.numbered, h.stamped, fun d hd ↦ h.requests d (hq d hd), h.executed, h.once, h.settled,
      h.phase, h.replies, h.sending, h.idle, h.trapped, h.returned, fun t' ht' ↦ ?_⟩
    obtain rfl := Option.some.inj ht'
    exact ⟨d, hmem, hh⟩
  rw [hrec]
  unfold Net.handle
  dsimp only
  rw [if_pos hexec]
  refine ⟨h.numbered, h.stamped, fun d hd ↦ h.requests d (hq d hd),
    fun _ ↦ h.executed_cons (e := ⟨d, sent⟩) hmem hset,
    List.pairwise_cons.mpr ⟨fun _ he ↦ .inl (h.executed_lt hlt he), h.once⟩, ?_, ?_, ?_, ?_, ?_,
    h.trapped, fun _ ↦ h.returned_cons _, h.hung⟩
  · intro e he
    obtain rfl := Option.some.inj he
    exact hset
  · refine .settled ?_ ?_
    · rw [hi]
      rfl
    · rw [hi, replay, hrep]
      dsimp only
      rw [hrec]
  · intro b hb
    rcases List.mem_append.mp hb with hb | hb
    · obtain ⟨hlen, e, he, hle, -⟩ := h.replies b hb
      have := hlt e he
      refine ⟨hlen, _, rfl, ?_, fun heq ↦ ?_⟩
      · dsimp only
        omega
      · dsimp only at heq
        omega
    · rw [hsent b (by simpa using hb)]
      exact fresh_of_settled (e := ⟨d, sent⟩) rfl hset
  · intro x hx
    obtain ⟨h₁, h₂, h₃⟩ := h.sending x hx
    refine ⟨h₁, h₂, fun hr ↦ ?_⟩
    obtain ⟨e, he, rfl, -⟩ := h₃ hr
    have := hlt e he
    rw [hi] at h₁
    obtain rfl := Option.some.inj h₁
    omega
  · exact fun hs ↦ absurd hs hnone

/-- A datagram that is not older than the latest executed one is a copy of it or
the next message. -/
theorem deliver (h : Invariant server s) {d : Bytes} {requests : List Bytes}
    (hd : s.requests = d :: requests) (horder : s.InOrder .deliver) :
    Invariant server (Net.handle { s with requests := requests } d (s.server.receive d)) := by
  have hq : ∀ x ∈ requests, x ∈ s.requests := by
    intro x hx
    rw [hd]
    exact List.mem_cons_of_mem _ hx
  have hmem := h.requests d (by rw [hd]; exact List.mem_cons_self)
  have hle : ∀ e ∈ s.latest, messageId e.datagram ≤ messageId d := by
    intro e he
    exact horder d (by rw [hd]; rfl) e (List.mem_of_mem_head? he)
  have hcopy {e : Execution} (he : e ∈ s.latest) (hid : messageId d = messageId e.datagram) :
      Invariant server (Net.handle { s with requests := requests } d (s.server.receive d)) := by
    obtain rfl := h.numbered.unique hmem (h.executed e (List.mem_of_mem_head? he)).1 hid
    exact h.deliver_copy he hq
  have hn := h.numbered
  cases h.phase with
  | settled hi hrep =>
    obtain ⟨d', l, hl⟩ : ∃ d' l, s.issued = d' :: l := List.exists_cons_of_ne_nil
      (List.ne_nil_of_mem hmem)
    rw [hl, List.head?_cons] at hi
    obtain ⟨e, he, rfl⟩ := Option.map_eq_some_iff.mp hi.symm
    rw [hl] at hn hmem
    exact hcopy he (le_antisymm (hn.le hmem) (hle e he))
  | @pending d' l hi hl hrep =>
    rw [hi] at hn hmem
    rcases List.mem_cons.mp hmem with rfl | hmem
    · exact h.deliver_new hi hl hrep hq
    · obtain ⟨x, l', rfl⟩ := List.exists_cons_of_ne_nil (List.ne_nil_of_mem hmem)
      rw [List.head?_cons] at hl
      obtain ⟨e, he, rfl⟩ := Option.map_eq_some_iff.mp hl.symm
      exact hcopy he (le_antisymm (hn.tail.le hmem) (hle e he))

theorem step (h : Invariant server s) {e : Event} (hid : s.NextId e) (horder : s.InOrder e)
    (hs : s.step e = some s') : Invariant server s' := by
  cases e with
  | communicate request data =>
    obtain ⟨hidle, rfl⟩ := Net.step_communicate hs
    exact h.communicate hidle hid
  | poll frames =>
    obtain ⟨d, hd, rfl⟩ := Net.step_poll hs
    exact h.poll hd frames
  | «return» =>
    obtain ⟨d, hd, hr, rfl⟩ := Net.step_return hs
    exact h.returns hd hr
  | deliver =>
    obtain ⟨-, d, requests, hq, rfl⟩ := Net.step_deliver hs
    exact h.deliver hq horder
  | requestFault fault =>
    obtain rfl := Option.some.inj hs
    exact h.fault (fun d hd ↦ fault.mem hd) (fun b hb ↦ hb)
  | replyFault fault =>
    obtain rfl := Option.some.inj hs
    exact h.fault (fun d hd ↦ hd) (fun b hb ↦ fault.mem hb)

/-- A copy that comes in order is a copy of the latest datagram executed, which changes nothing. -/
theorem copy_kept (h : Invariant server s) (horder : s.InOrder .deliver) {e : Execution}
    (he : e ∈ s.executed) (hd : s.requests.head? = some e.datagram)
    (hs : s.step .deliver = some s') : s'.server = s.server := by
  obtain ⟨-, d, requests, hq, rfl⟩ := Net.step_deliver hs
  rw [hq, List.head?_cons] at hd
  obtain rfl := Option.some.inj hd
  obtain ⟨e', l, hl⟩ := List.exists_cons_of_ne_nil (List.ne_nil_of_mem he)
  have hlatest : s.latest = some e' := by rw [Net.latest, hl]; rfl
  have heq : e.datagram = e'.datagram := by
    have honce := h.once
    have hle := horder _ (by rw [hq]; rfl) e' (List.mem_of_mem_head? hlatest)
    rw [hl] at honce he
    rcases List.mem_cons.mp he with rfl | he
    · rfl
    · rcases (List.pairwise_cons.mp honce).1 e he with hlt | ⟨-, heq⟩
      · omega
      · exact heq
  rw [heq, (h.settled e' hlatest).copy]
  rfl

end Invariant

end Nctusde.Network

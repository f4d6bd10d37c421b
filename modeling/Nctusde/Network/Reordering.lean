import Nctusde.Network.Exchange

namespace Nctusde.Network

open Library.Channel UdpServer Wire

/-- Requests that are complete and within the limits of the server. -/
structure Sane (request : NctussEmuRequest) (data : Bytes) : Prop where
  known : NctussEmuRequestType.ofCode request.type ≠ none
  whole : request.type = NctussEmuRequestType.readWriteData.code → request.data1 ≠ 0 →
    SECTOR_SIZE ≤ data.length
  size : request.type = NctussEmuRequestType.reset.code →
    (request.data1.toNat : ℤ) ≤ MEMORY_STORAGE_SIZE
  sectors : request.type = NctussEmuRequestType.submitReqeust.code →
    requestSizeIndex (toInt (request.data5.toNat * SECTOR_SIZE)) ≠ none

instance (request : NctussEmuRequest) (data : Bytes) : Decidable (Sane request data) :=
  decidable_of_iff (_ ∧ _ ∧ _ ∧ _) ⟨fun h ↦ ⟨h.1, h.2.1, h.2.2.1, h.2.2.2⟩,
    fun h ↦ ⟨h.known, h.whole, h.size, h.sectors⟩⟩

theorem Sane.wellFormed {request : NctussEmuRequest} {data : Bytes} (h : Sane request data) :
    WellFormed (datagramOf request data) := by
  obtain ⟨t, ht⟩ := Option.ne_none_iff_exists'.mp h.known
  refine ⟨t, by rwa [requestOf_datagramOf], ?_⟩
  rintro rfl h1
  rw [requestOf_datagramOf] at h1
  have hl := h.whole (NctussEmuRequestType.code_of_ofCode ht) h1
  rw [datagramOf, take_encode, List.length_append, NctussEmuRequest.encode_length, List.length_take]
  simp only [SECTOR_SIZE, MAXNAME, NctussEmuRequest.size] at *
  omega

theorem Sane.not_hangs {request : NctussEmuRequest} {data : Bytes} (h : Sane request data)
    (t : Trap) : ¬ Hangs (datagramOf request data) t := by
  cases t with
  | memorySize =>
    rintro ⟨hr, hlt⟩
    rw [IsReset, requestOf_datagramOf] at hr
    rw [requestOf_datagramOf] at hlt
    exact absurd (h.size hr) (not_le.mpr hlt)
  | sizeClass =>
    rintro ⟨ht, hk⟩
    rw [requestOf_datagramOf] at ht hk
    exact h.sectors ht hk
  | staleId => exact id
  | idCheck => exact id

/-- A client that opens with a reset and then numbers its messages one by one. -/
def Honest (s : Net) : Event → Prop
  | .communicate request data => s.NextId (.communicate request data) ∧ Sane request data
  | _ => True

instance (s : Net) : DecidablePred (Honest s)
  | .communicate _ _ => inferInstanceAs (Decidable (_ ∧ _))
  | .poll _ | .return | .deliver | .requestFault _ | .replyFault _ => .isTrue trivial

/-- Runs in which no datagram reaches the server after one with a higher id. -/
def HonestInOrder (s : Net) (e : Event) : Prop := Honest s e ∧ s.InOrder e

theorem Honest.nextId {s : Net} {e : Event} (h : Honest s e) : s.NextId e := by
  cases e with
  | communicate request data => exact h.1
  | _ => trivial

variable {server : Server} {s s' : Net}

structure Sound (server : Server) (s : Net) : Prop where
  invariant : Invariant server s
  sane : ∀ d ∈ s.issued, ∃ request data, Sane request data ∧ d = datagramOf request data

theorem Sound.hung (h : Sound server s) : s.hung = none := by
  rw [Option.eq_none_iff_forall_not_mem]
  intro t ht
  obtain ⟨d, hd, hh⟩ := h.invariant.hung t ht
  obtain ⟨request, data, hs, rfl⟩ := h.sane d hd
  exact hs.not_hangs t hh

theorem issued_step {e : Event} (hs : s.step e = some s') : s'.issued = s.issued ∨
    ∃ request data, e = .communicate request data ∧
      s'.issued = datagramOf request data :: s.issued := by
  cases e with
  | communicate request data =>
    obtain ⟨-, rfl⟩ := Net.step_communicate hs
    exact .inr ⟨_, _, rfl, rfl⟩
  | poll frames =>
    obtain ⟨d, -, rfl⟩ := Net.step_poll hs
    obtain ⟨pollCount, requests, hpoll⟩ := s.poll_eq d frames
    rw [hpoll]
    exact .inl rfl
  | «return» =>
    obtain ⟨d, -, -, rfl⟩ := Net.step_return hs
    exact .inl rfl
  | deliver => exact .inl (Net.deliver_issued hs)
  | requestFault fault =>
    obtain rfl := Option.some.inj hs
    exact .inl rfl
  | replyFault fault =>
    obtain rfl := Option.some.inj hs
    exact .inl rfl

theorem Sound.step (h : Sound server s) {e : Event} (he : HonestInOrder s e)
    (hs : s.step e = some s') : Sound server s' where
  invariant := h.invariant.step he.1.nextId he.2 hs
  sane d hd := by
    rcases issued_step hs with hi | ⟨request, data, rfl, hi⟩
    · exact h.sane d (hi ▸ hd)
    · rw [hi] at hd
      rcases List.mem_cons.mp hd with rfl | hd
      · exact ⟨request, data, he.1.2, rfl⟩
      · exact h.sane d hd

theorem Sound.leads (h : Sound server s) (hs : Net.Leads HonestInOrder s s') : Sound server s' := by
  induction hs with
  | refl => exact h
  | tail _ hstep ih =>
    obtain ⟨e, he, hs⟩ := hstep
    exact ih.step he hs

theorem reachable_sound (h : Net.Reachable HonestInOrder server s) : Sound server s := by
  induction h with
  | start h0 => exact ⟨h0.invariant, by simp [h0.issued]⟩
  | step _ he hs ih => exact ih.step he hs

theorem Sound.receive_newest (h : Sound server s) {d : Bytes} (hd : s.issued.head? = some d) :
    ∃ s', s.server.receive d = .loop s' (some s'.datagram) ∧ NctussEmuReply.size ≤ s'.replyLength ∧
      s'.replyLength ≤ MAX_REPLY_SIZE ∧ s'.reply.id = (requestOf d).id := by
  obtain ⟨l, hl⟩ : ∃ l, s.issued = d :: l := List.head?_eq_some_iff.mp hd
  obtain ⟨request, data, hsane, hdata⟩ := h.sane d (by rw [hl]; exact List.mem_cons_self)
  have hw : WellFormed d := hdata ▸ hsane.wellFormed
  cases h.invariant.phase with
  | settled hi _ =>
    obtain ⟨e, he, rfl⟩ := Option.map_eq_some_iff.mp (hi.symm.trans hd)
    have hset := h.invariant.settled e he
    exact ⟨_, hset.copy, hset.header, hset.length, (hset.answered hw).2⟩
  | pending hi hlatest _ =>
    obtain ⟨rfl, rfl⟩ := List.cons.inj (hl.symm.trans hi)
    obtain ⟨-, ⟨t, -, hh⟩ | ⟨s', sent, hrec, hset, -⟩⟩ := h.invariant.receive_pending hl hlatest
    · exact absurd hh (hdata ▸ hsane.not_hangs t)
    · obtain ⟨rfl, hid⟩ := hset.answered hw
      exact ⟨s', hrec, hset.header, hset.length, hid⟩

structure Polls (s : Net) (d : Bytes) : Prop where
  sending : s.client.sending = some d
  waiting : s.client.skbReplied = false
  trapped : s.client.trapped = false

theorem Polls.step_poll {d : Bytes} (h : Polls s d) (frames : ℕ) :
    s.step (.poll frames) = some (s.poll d frames) := by
  simp [Net.step, h.sending, h.waiting, h.trapped]

theorem poll_resends (ht : s.client.trapped = false) {d : Bytes}
    (hc : s.client.pollCount + 1 ≥ pollCountThreshhold) : s.poll d 0 =
      { s with client := { s.client with pollCount := 0 }, requests := s.requests ++ [d] } :=
  if_pos ⟨hc, ht⟩

theorem poll_waits {d : Bytes} (hc : ¬ s.client.pollCount + 1 ≥ pollCountThreshhold) :
    s.poll d 0 = { s with client := { s.client with pollCount := s.client.pollCount + 1 } } :=
  if_neg fun h ↦ hc h.1

theorem Polls.resend {d : Bytes} (h : Polls s d) :
    ∃ s', Net.Leads HonestInOrder s s' ∧ Polls s' d ∧ ∃ l, s'.requests = l ++ [d] := by
  obtain ⟨k, hk⟩ : ∃ k, pollCountThreshhold - s.client.pollCount ≤ k := ⟨_, le_rfl⟩
  induction k generalizing s with
  | zero =>
    have hpoll := poll_resends (d := d) h.trapped (by omega)
    refine ⟨_, .single ⟨.poll 0, ⟨trivial, trivial⟩, h.step_poll 0⟩, ?_⟩
    rw [hpoll]
    exact ⟨⟨h.sending, h.waiting, h.trapped⟩, _, rfl⟩
  | succ k ih =>
    have hstep : Net.Leads HonestInOrder s (s.poll d 0) :=
      .single ⟨.poll 0, ⟨trivial, trivial⟩, h.step_poll 0⟩
    by_cases hc : s.client.pollCount + 1 ≥ pollCountThreshhold
    · refine ⟨_, hstep, ?_⟩
      rw [poll_resends h.trapped hc]
      exact ⟨⟨h.sending, h.waiting, h.trapped⟩, _, rfl⟩
    · rw [poll_waits hc] at hstep
      obtain ⟨s', hl, hs'⟩ := ih
        (s := { s with client := { s.client with pollCount := s.client.pollCount + 1 } })
        ⟨h.sending, h.waiting, h.trapped⟩ (by dsimp only; omega)
      exact ⟨s', hstep.trans hl, hs'⟩

theorem leads_lose {l : List Bytes} {d : Bytes} (hq : s.requests = l ++ [d]) :
    Net.Leads HonestInOrder s { s with requests := [d] } := by
  induction l generalizing s with
  | nil =>
    rw [List.nil_append] at hq
    rw [← hq]
    exact .refl
  | cons x l ih =>
    have hstep : s.step (.requestFault (.lose 0)) = some { s with requests := l ++ [d] } := by
      simp [Net.step, Fault.apply, hq]
    exact .head ⟨.requestFault (.lose 0), ⟨trivial, trivial⟩, hstep⟩
      (ih (s := { s with requests := l ++ [d] }) rfl)

theorem foldl_receiveSkb (bs : List Bytes) (c : Client) :
    (bs.foldl Client.nctussReceiveSkb c).currentWaitingReplyId = c.currentWaitingReplyId ∧
      (bs.foldl Client.nctussReceiveSkb c).sending = c.sending := by
  induction bs generalizing c with
  | nil => exact ⟨rfl, rfl⟩
  | cons b bs ih =>
    obtain ⟨hw, hs⟩ := ih (c.nctussReceiveSkb b)
    rw [List.foldl_cons, hw, hs, Client.nctussReceiveSkb]
    split
    · split <;> exact ⟨rfl, rfl⟩
    · exact ⟨rfl, rfl⟩

/-- A poll that hands over all replies, with the awaited one at their end. -/
theorem poll_replied {bs : List Bytes} {d b : Bytes} (hreplies : s.replies = bs ++ [b])
    (hid : (NctussEmuReply.decode b).id = s.client.currentWaitingReplyId)
    (hshort : b.length ≤ MAX_SKB_DATA_SIZE) :
    (s.poll d s.replies.length).client.sending = s.client.sending ∧
      (s.poll d s.replies.length).client.skbReplied = true := by
  obtain ⟨pollCount, requests, hpoll⟩ := s.poll_eq d s.replies.length
  obtain ⟨hwait, hsending⟩ := foldl_receiveSkb bs s.client
  rw [hpoll]
  dsimp only
  rw [List.take_length, hreplies, List.foldl_append, List.foldl_cons, List.foldl_nil,
    Client.nctussReceiveSkb, if_pos (hid.trans hwait.symm), if_neg (not_lt.mpr hshort)]
  exact ⟨hsending, rfl⟩

theorem Sound.answerable (h : Sound server s) {d : Bytes} (hd : s.client.sending = some d) :
    ∃ s', Net.Leads HonestInOrder s s' ∧ s'.client.sending = some d ∧
      s'.client.skbReplied = true := by
  by_cases hr : s.client.skbReplied = true
  · exact ⟨s, .refl, hd, hr⟩
  obtain ⟨s₁, hl₁, hp₁, l, hq⟩ :=
    Polls.resend ⟨hd, Bool.not_eq_true _ ▸ hr, h.invariant.trapped⟩
  have hl₂ := hl₁.trans (leads_lose hq)
  have hs₂ := h.leads hl₂
  have haw := hs₂.invariant.sending d hp₁.sending
  obtain ⟨s₃, hrec, hheader, hlength, hid⟩ := hs₂.receive_newest haw.newest
  -- the only request left in flight is the newest, so it may be delivered
  have horder : Net.InOrder { s₁ with requests := [d] } .deliver :=
    hs₂.invariant.newest_inOrder haw.newest rfl
  have hstep : Net.step { s₁ with requests := [d] } .deliver =
      some (Net.handle { s₁ with requests := [] } d (.loop s₃ (some s₃.datagram))) := by
    have hh := hs₂.hung
    simp only [Net.step] at hh ⊢
    rw [hh, ← hrec]
  have hl₃ := hl₂.tail ⟨.deliver, ⟨trivial, horder⟩, hstep⟩
  generalize hs₄ : Net.handle { s₁ with requests := [] } d (.loop s₃ (some s₃.datagram)) = s₄ at hl₃
  have hclient : s₄.client = s₁.client := by rw [← hs₄]; rfl
  have hreplies : s₄.replies = s₁.replies ++ [s₃.datagram] := by rw [← hs₄]; rfl
  have hp₄ : Polls s₄ d := by
    constructor <;> rw [hclient]
    exacts [hp₁.sending, hp₁.waiting, hp₁.trapped]
  have hwait : (NctussEmuReply.decode s₃.datagram).id = s₄.client.currentWaitingReplyId := by
    apply UInt32.toNat_inj.mp
    have hreply := replyId_datagram hheader
    rw [replyId] at hreply
    rw [hreply, hid, hclient, haw.id]
    rfl
  have hshort : s₃.datagram.length ≤ MAX_SKB_DATA_SIZE := by
    have := datagram_length hlength
    simp only [MAX_REPLY_SIZE, MAX_SKB_DATA_SIZE, SECTOR_SIZE, NctussEmuReply.size] at *
    omega
  obtain ⟨hsending, hreplied⟩ := poll_replied (d := d) hreplies hwait hshort
  exact ⟨_, hl₃.tail ⟨.poll _, ⟨trivial, trivial⟩, hp₄.step_poll s₄.replies.length⟩,
    hsending.trans hp₄.sending, hreplied⟩

/-- As long as no datagram reaches the server after one with a higher id, the server
never hangs, a copy of an executed request changes nothing in it, and the current
call of the client can still return its reply. -/
theorem stale_copies_harmless (h : Net.Reachable HonestInOrder server s) :
    s.hung = none ∧
      (∀ s' d, s.InOrder .deliver → s.step .deliver = some s' → s.requests.head? = some d →
        (∃ e ∈ s.executed, e.datagram = d) → s'.server = s.server) ∧
      ∀ d, s.client.sending = some d → ∃ s' b, Net.Leads HonestInOrder s s' ∧
        (d, b) ∈ s'.returned ∧ ⟨d, some b⟩ ∈ s'.executed := by
  have hs := reachable_sound h
  refine ⟨hs.hung, ?_, fun d hd ↦ ?_⟩
  · rintro s' d horder hstep hd ⟨e, he, rfl⟩
    exact hs.invariant.copy_kept horder he hd hstep
  obtain ⟨s₁, hl, hd₁, hr₁⟩ := hs.answerable hd
  have ht₁ := (hs.leads hl).invariant.trapped
  have hstep : s₁.step .return = some { s₁ with
      client := { s₁.client with sending := none }
      returned := (d, s₁.client.skb) :: s₁.returned } := by
    simp [Net.step, hd₁, hr₁, ht₁]
  have hl₂ := hl.tail ⟨.return, ⟨trivial, trivial⟩, hstep⟩
  have hs₂ := hs.leads hl₂
  refine ⟨_, _, hl₂, List.mem_cons_self, ?_⟩
  obtain ⟨hissued, hexec⟩ := hs₂.invariant.returned _ List.mem_cons_self
  obtain ⟨request, data, hsane, hdata⟩ := hs₂.sane _ hissued
  exact hexec (hdata ▸ hsane.wellFormed)

instance (s : Net) : DecidablePred (HonestInOrder s) :=
  fun _ ↦ inferInstanceAs (Decidable (_ ∧ _))

/-- A copy of the reset that comes before the next message. -/
theorem stale_copies_harmless_reset : ∃ s s' b, Net.run HonestInOrder
    [.communicate oneChannelReset [], .requestFault (.duplicate 0), .deliver, .deliver, .poll 1,
      .return, .communicate (readFirstSector 124) []] Net.zeroed = some s ∧
    s.hung = none ∧ Net.Leads HonestInOrder s s' ∧
      ⟨datagramOf (readFirstSector 124) [], some b⟩ ∈ s'.executed := by
  obtain ⟨s, hs, hd⟩ := Option.map_eq_some_iff.mp (show (Net.run HonestInOrder
    [.communicate oneChannelReset [], .requestFault (.duplicate 0), .deliver, .deliver, .poll 1,
      .return, .communicate (readFirstSector 124) []] Net.zeroed).map (·.client.sending) =
      some (some (datagramOf (readFirstSector 124) [])) by decide +kernel)
  have h := stale_copies_harmless (Net.Reachable.run (.start Net.zeroed_isStart) hs)
  obtain ⟨s', b, hl, -, hexec⟩ := h.2.2 _ hd
  exact ⟨s, s', b, hs, h.1, hl, hexec⟩

def firstSubmission : NctussEmuRequest where
  id := 124
  type := NctussEmuRequestType.submitReqeust.code
  data2 := 5
  data5 := 1
  data6 := 124

def exchange (request : NctussEmuRequest) : List Event :=
  [.communicate request [], .deliver, .poll 1, .return]

/-- The run in which a copy of a read comes after the next read. -/
def lateRead : List Event :=
  exchange oneChannelReset ++
    [.communicate (readFirstSector 124) [], .requestFault (.duplicate 0),
      .deliver, .poll 1, .return,
      .communicate (readFirstSector 125) [], .requestFault (.swap 0), .deliver, .poll 1, .return]

/-- The run in which a copy of the reset comes after a submission. -/
def lateReset : List Event :=
  [.communicate oneChannelReset [], .requestFault (.duplicate 0), .deliver, .poll 1, .return,
    .communicate firstSubmission [], .requestFault (.swap 0), .deliver, .poll 1, .return]

theorem lateRead_hangs : ((Net.run Honest (lateRead ++ [.deliver]) Net.zeroed).map (·.hung)) =
    some (some .staleId) := by decide +kernel

theorem lateReset_wipes : ((Net.run Honest lateReset Net.zeroed).bind fun s ↦
    (s.step .deliver).map fun s' ↦ (s.requests.head?, s.returned.map (·.1),
      s.server.mySSDSim.completionTime 0, s'.server.mySSDSim.completionTime 0,
      s.server.reply.id, s'.server.reply.id)) =
    some (some (datagramOf oneChannelReset []),
      [datagramOf firstSubmission [], datagramOf oneChannelReset []],
      191005, 0, 124, 123) := by decide +kernel

/-- Late copies do harm: one of a read hangs the server, one of the reset empties a
busy channel and the reply kept for the last submission. -/
theorem stale_copies_harmful :
    (∃ s, Net.Reachable Honest .zeroed s ∧ s.hung = some .staleId) ∧
      ∃ s s' d, Net.Reachable Honest .zeroed s ∧ s.requests.head? = some d ∧
        d ∈ s.returned.map (·.1) ∧ s.step .deliver = some s' ∧
        s'.server.mySSDSim.completionTime 0 ≠ s.server.mySSDSim.completionTime 0 ∧
        s'.server.reply.id ≠ s.server.reply.id := by
  constructor
  · obtain ⟨s, hs, hh⟩ := Option.map_eq_some_iff.mp lateRead_hangs
    exact ⟨s, .run (.start Net.zeroed_isStart) hs, hh⟩
  · obtain ⟨s, hs, hstep⟩ := Option.bind_eq_some_iff.mp lateReset_wipes
    obtain ⟨s', hs', hfacts⟩ := Option.map_eq_some_iff.mp hstep
    simp only [Prod.mk.injEq] at hfacts
    obtain ⟨hd, hret, hc, hc', hid, hid'⟩ := hfacts
    refine ⟨s, s', _, .run (.start Net.zeroed_isStart) hs, hd, ?_, hs', ?_, ?_⟩
    · rw [hret]
      exact List.mem_cons_of_mem _ List.mem_cons_self
    · rw [hc, hc']
      decide
    · rw [hid, hid']
      decide

end Nctusde.Network

import Nctusde.Network.Reordering

namespace Nctusde.Network

open Library.Channel UdpServer Wire

/-- What a call of `communicate_with_emulator` came to so far: the turns of its polling loop,
what they sent, and how many datagrams the network lost meanwhile. -/
structure Tally where
  polls : ℕ
  sent : List Bytes
  lost : ℕ

namespace Net

variable (s : Net)

/-- What an event that ends in `s'` adds. -/
def tally (t : Tally) (s' : Net) : Event → Tally
  | .poll _ => { t with
      polls := t.polls + 1, sent := t.sent ++ s'.requests.drop s.requests.length }
  | .requestFault fault => { t with lost := t.lost + fault.losses s.requests }
  | .replyFault fault => { t with lost := t.lost + fault.losses s.replies }
  | .communicate _ _ => t
  | .return => t
  | .deliver => t

/-- The copies of a datagram that are under way, and the answers to them. -/
def underWay (d : Bytes) : ℕ :=
  s.requests.countP (fun x ↦ x = d) + s.replies.countP fun b ↦ replyId b = messageId d

/-- Whatever the network carries of a call is lost or has arrived when the client sends again. -/
def Settles : Event → Prop
  | .poll frames => s.client.pollCount + 1 ≥ pollCountThreshhold → ∀ d ∈ s.client.sending,
    { s with replies := s.replies.drop frames }.underWay d = 0
  | _ => True

end Net

/-- The runs of `HonestInOrder` over a network that is done with one copy before the next. -/
def Prompt (s : Net) (e : Event) : Prop := HonestInOrder s e ∧ s.Settles e

/-- A call that has begun in the first state and not returned, when `P` admits its events. -/
inductive Exchanging (P : Net → Event → Prop) (s : Net) : Tally → Net → Prop
  | start : Exchanging P s ⟨0, [], 0⟩ s
  | step {t : Tally} {s₁ s₂ : Net} {e : Event} : Exchanging P s t s₁ → P s₁ e → e ≠ .return →
      s₁.step e = some s₂ → Exchanging P s (s₁.tally t s₂ e) s₂

variable {server : Server} {s s₁ s' : Net} {d : Bytes} {t : Tally}

theorem pollCountThreshhold_pos : 0 < pollCountThreshhold := by decide

theorem nctussReceiveSkb_pollCount (c : Client) (b : Bytes) :
    (c.nctussReceiveSkb b).pollCount = c.pollCount := by
  unfold Client.nctussReceiveSkb
  split
  · split <;> rfl
  · rfl

theorem foldl_pollCount (bs : List Bytes) (c : Client) :
    (bs.foldl Client.nctussReceiveSkb c).pollCount = c.pollCount := by
  induction bs generalizing c with
  | nil => rfl
  | cons b bs ih => exact (ih _).trans (nctussReceiveSkb_pollCount c b)

theorem nctussReceiveSkb_replied {c : Client} (b : Bytes) (h : c.skbReplied = true) :
    (c.nctussReceiveSkb b).skbReplied = true := by
  unfold Client.nctussReceiveSkb
  split
  · split
    · exact h
    · rfl
  · exact h

/-- An answer to the message that the client waits for is taken, whatever else comes. -/
theorem foldl_replied {bs : List Bytes} {c : Client}
    (hshort : ∀ b ∈ bs, b.length ≤ MAX_SKB_DATA_SIZE)
    (h : c.skbReplied = true ∨
      ∃ b ∈ bs, (NctussEmuReply.decode b).id = c.currentWaitingReplyId) :
    (bs.foldl Client.nctussReceiveSkb c).skbReplied = true := by
  induction bs generalizing c with
  | nil =>
    rcases h with h | ⟨b, hb, -⟩
    · exact h
    · exact absurd hb List.not_mem_nil
  | cons x bs ih =>
    have hkept := (foldl_receiveSkb [x] c).1
    rw [List.foldl_cons, List.foldl_nil] at hkept
    refine ih (fun b hb ↦ hshort b (List.mem_cons_of_mem _ hb)) ?_
    rcases h with h | ⟨b, hb, hid⟩
    · exact .inl (nctussReceiveSkb_replied x h)
    · rcases List.mem_cons.mp hb with rfl | hb
      · rw [Client.nctussReceiveSkb, if_pos hid, if_neg (hshort b List.mem_cons_self).not_gt]
        exact .inl rfl
      · refine .inr ⟨b, hb, hid.trans hkept.symm⟩

structure Sends (server : Server) (d : Bytes) (t : Tally) (s : Net) : Prop where
  sound : Sound server s
  sending : s.client.sending = some d
  pollCount : s.client.pollCount < pollCountThreshhold
  polls : t.polls = pollCountThreshhold * t.sent.length + s.client.pollCount
  copies : ∀ x ∈ t.sent, x = d

theorem Sends.sent (h : Sends server d t s) :
    t.sent = List.replicate (t.polls / pollCountThreshhold) d := by
  rw [h.polls, Nat.mul_add_div pollCountThreshhold_pos, Nat.div_eq_of_lt h.pollCount, Nat.add_zero]
  exact List.eq_replicate_of_mem h.copies

theorem Sends.keep (h : Sends server d t s) (hsound : Sound server s')
    (hc : s'.client = s.client) {lost : ℕ} : Sends server d { t with lost := lost } s' :=
  ⟨hsound, hc ▸ h.sending, hc ▸ h.pollCount, hc ▸ h.polls, h.copies⟩

/-- One turn of the loop sends the datagram again exactly when the count is full. -/
theorem Sends.step_poll (h : Sends server d t s) {frames : ℕ}
    (hs : s.step (.poll frames) = some s') :
    s'.client.sending = some d ∧ s'.replies = s.replies.drop frames ∧
      s'.client.skbReplied =
        ((s.replies.take frames).foldl Client.nctussReceiveSkb s.client).skbReplied ∧
      if s.client.pollCount + 1 ≥ pollCountThreshhold then
        s'.requests = s.requests ++ [d] ∧ s'.client.pollCount = 0
      else s'.requests = s.requests ∧ s'.client.pollCount = s.client.pollCount + 1 := by
  have hfresh : ∀ b ∈ s.replies.take frames, Fresh s.latest s.server b :=
    fun b hb ↦ h.sound.invariant.replies b (List.mem_of_mem_take hb)
  have htrapped := (h.sound.invariant.receiveSkbs hfresh (h.sound.invariant.sending d h.sending)
    h.sound.invariant.trapped).2.1
  have hsending := (foldl_receiveSkb (s.replies.take frames) s.client).2.trans h.sending
  have hpollCount := foldl_pollCount (s.replies.take frames) s.client
  obtain ⟨x, hx, rfl⟩ := Net.step_poll hs
  obtain rfl := Option.some.inj (hx.symm.trans h.sending)
  unfold Net.poll
  dsimp only
  generalize (s.replies.take frames).foldl Client.nctussReceiveSkb s.client = c at *
  by_cases hfull : s.client.pollCount + 1 ≥ pollCountThreshhold
  · rw [if_pos ⟨hpollCount ▸ hfull, htrapped⟩, if_pos hfull]
    exact ⟨hsending, rfl, rfl, rfl, rfl⟩
  · rw [if_neg fun hc ↦ hfull (hpollCount ▸ hc.1), if_neg hfull]
    exact ⟨hsending, rfl, rfl, rfl, congrArg (· + 1) hpollCount⟩

theorem Sends.poll (h : Sends server d t s) {frames : ℕ} (hsound : Sound server s')
    (hs : s.step (.poll frames) = some s') : Sends server d (s.tally t s' (.poll frames)) s' := by
  obtain ⟨hsending, -, -, hstep⟩ := h.step_poll hs
  have hcount := h.pollCount
  have hpolls := h.polls
  split at hstep
  · rename_i hfull
    obtain ⟨hq, hzero⟩ := hstep
    have hsent : s'.requests.drop s.requests.length = [d] := by rw [hq, List.drop_left]
    refine ⟨hsound, hsending, hzero ▸ pollCountThreshhold_pos, ?_, ?_⟩
    · simp only [Net.tally, hsent, hzero, List.length_append, List.length_singleton, Nat.mul_succ]
      omega
    · simp only [Net.tally, hsent, List.mem_append, List.mem_singleton]
      rintro x (hx | rfl)
      · exact h.copies x hx
      · rfl
  · rename_i hfull
    obtain ⟨hq, hnext⟩ := hstep
    have hsent : s'.requests.drop s.requests.length = [] := by rw [hq, List.drop_length]
    refine ⟨hsound, hsending, by omega, ?_, ?_⟩
    · simp only [Net.tally, hsent, hnext, List.append_nil]
      omega
    · simp only [Net.tally, hsent, List.append_nil]
      exact h.copies

theorem Sends.step {e : Event} (h : Sends server d t s) (he : HonestInOrder s e)
    (hreturn : e ≠ .return) (hs : s.step e = some s') : Sends server d (s.tally t s' e) s' := by
  have hsound := h.sound.step he hs
  cases e with
  | communicate request data => cases h.sending.symm.trans (Net.step_communicate hs).1
  | «return» => exact absurd rfl hreturn
  | poll frames => exact h.poll hsound hs
  | deliver => exact h.keep hsound (Net.deliver_client hs)
  | requestFault fault =>
    obtain rfl := Option.some.inj hs
    exact h.keep hsound rfl
  | replyFault fault =>
    obtain rfl := Option.some.inj hs
    exact h.keep hsound rfl

theorem Exchanging.sends (h : Exchanging HonestInOrder s t s') (hs : Sends server d ⟨0, [], 0⟩ s) :
    Sends server d t s' := by
  induction h with
  | start => exact hs
  | step _ he hreturn hstep ih => exact ih.step he hreturn hstep

theorem Exchanging.mono {P Q : Net → Event → Prop} (hPQ : ∀ s e, P s e → Q s e)
    (h : Exchanging P s t s') : Exchanging Q s t s' := by
  induction h with
  | start => exact .start
  | step _ hP hreturn hstep ih => exact ih.step (hPQ _ _ hP) hreturn hstep

/-- As long as there is no answer, every copy was lost or is under way, or its answer. -/
def Waits (d : Bytes) (t : Tally) (s : Net) : Prop :=
  s.client.skbReplied = false → t.sent.length ≤ t.lost ∧ t.sent.length < t.lost + s.underWay d

theorem Waits.fault {requests replies : List Bytes} {lost : ℕ} (h : Waits d t s)
    (hlost : s.underWay d ≤ { s with requests := requests, replies := replies }.underWay d + lost) :
    Waits d { t with lost := t.lost + lost }
      { s with requests := requests, replies := replies } := by
  intro hw
  obtain ⟨hle, hlt⟩ := h hw
  dsimp only
  omega

theorem Waits.deliver (h : Waits d t s) (hsends : Sends server d t s)
    (hs : s.step .deliver = some s') : Waits d t s' := by
  have hclient := Net.deliver_client hs
  have hsound := hsends.sound
  obtain ⟨-, x, requests, hq, hs⟩ := Net.step_deliver hs
  have hunder : s.underWay d ≤ s'.underWay d := by
    by_cases hx : x = d
    · subst hx
      have hnewest := (hsound.invariant.sending x hsends.sending).newest
      obtain ⟨server', hrec, hheader, -, hid⟩ := hsound.receive_newest hnewest
      have hanswer : replyId server'.datagram = messageId x := by
        rw [replyId_datagram hheader, hid]
        rfl
      rw [hrec] at hs
      obtain rfl := hs
      simp only [Net.handle, Net.underWay, hq, Option.toList_some, List.countP_append,
        hanswer, decide_true, List.countP_cons_of_pos]
      omega
    · have hcount : s.requests.countP (fun x ↦ decide (x = d)) =
          requests.countP fun x ↦ decide (x = d) := by
        rw [hq]
        exact List.countP_cons_of_neg (mt of_decide_eq_true hx)
      subst hs
      cases s.server.receive x with
      | hang trap => exact Nat.add_le_add_right hcount.le _
      | loop server' sent =>
        exact Nat.add_le_add hcount.le (List.sublist_append_left _ _).countP_le
  intro hw
  obtain ⟨hlost, hlt⟩ := h (hclient ▸ hw)
  exact ⟨hlost, by omega⟩

theorem Sends.unanswered (h : Sends server d t s) {frames : ℕ}
    (hw : ((s.replies.take frames).foldl Client.nctussReceiveSkb s.client).skbReplied = false) :
    s.client.skbReplied = false ∧
      s.underWay d = { s with replies := s.replies.drop frames }.underWay d := by
  have hawaits := h.sound.invariant.sending d h.sending
  have hshort (b) (hb : b ∈ s.replies.take frames) : b.length ≤ MAX_SKB_DATA_SIZE :=
    (h.sound.invariant.replies b (List.mem_of_mem_take hb)).length.trans (by decide)
  have hno := mt (foldl_replied hshort) (by rw [hw]; exact Bool.false_ne_true)
  obtain ⟨hold, hnew⟩ := not_or.mp hno
  have hnone : (s.replies.take frames).countP (fun b ↦ replyId b = messageId d) = 0 := by
    refine List.countP_eq_zero.mpr fun b hb hid ↦ hnew ⟨b, hb, ?_⟩
    refine UInt32.toNat_inj.mp ?_
    rw [hawaits.id]
    exact of_decide_eq_true hid
  have hsplit := congrArg (List.countP fun b ↦ decide (replyId b = messageId d))
    (List.take_append_drop frames s.replies)
  rw [List.countP_append, hnone, Nat.zero_add] at hsplit
  exact ⟨Bool.eq_false_iff.mpr hold, congrArg _ hsplit.symm⟩

theorem Waits.poll (h : Waits d t s) (hsends : Sends server d t s) {frames : ℕ}
    (hp : s.Settles (.poll frames)) (hs : s.step (.poll frames) = some s') :
    Waits d (s.tally t s' (.poll frames)) s' := by
  obtain ⟨-, hr, hreplied, hstep⟩ := hsends.step_poll hs
  intro hw
  obtain ⟨hwaits, hunder⟩ := hsends.unanswered (hreplied ▸ hw)
  obtain ⟨hle, hlt⟩ := h hwaits
  rw [hunder] at hlt
  split at hstep
  · rename_i hfull
    obtain ⟨hq, -⟩ := hstep
    -- nothing of the earlier copies is left, and one is new
    rw [hp hfull d hsends.sending] at hlt
    have hcopy : 0 < s'.underWay d := by
      have : 0 < s'.requests.countP fun x ↦ decide (x = d) :=
        List.countP_pos_iff.mpr ⟨d, hq ▸ List.mem_append_right _ List.mem_cons_self,
          decide_eq_true rfl⟩
      exact Nat.add_pos_left this _
    simp only [Net.tally, hq, List.drop_left, List.length_append, List.length_singleton]
    omega
  · obtain ⟨hq, -⟩ := hstep
    have hsame : s'.underWay d = { s with replies := s.replies.drop frames }.underWay d := by
      simp only [Net.underWay, hq, hr]
    simp only [Net.tally, hq, List.drop_length, List.append_nil]
    omega

theorem Waits.step {e : Event} (h : Waits d t s) (hsends : Sends server d t s) (hp : s.Settles e)
    (hreturn : e ≠ .return) (hs : s.step e = some s') : Waits d (s.tally t s' e) s' := by
  cases e with
  | communicate request data => cases hsends.sending.symm.trans (Net.step_communicate hs).1
  | «return» => exact absurd rfl hreturn
  | poll frames => exact h.poll hsends hp hs
  | deliver => exact h.deliver hsends hs
  | requestFault fault =>
    obtain rfl := Option.some.inj hs
    refine h.fault ?_
    have hle := fault.countP_le (fun x ↦ decide (x = d)) s.requests
    simp only [Net.underWay]
    omega
  | replyFault fault =>
    obtain rfl := Option.some.inj hs
    refine h.fault ?_
    have hle := fault.countP_le (fun b ↦ decide (replyId b = messageId d)) s.replies
    simp only [Net.underWay]
    omega

theorem Exchanging.waits (h : Exchanging Prompt s t s') (hs : Sends server d ⟨0, [], 0⟩ s)
    (hw : Waits d ⟨0, [], 0⟩ s) : Waits d t s' := by
  induction h with
  | start => exact hw
  | step hx hp hreturn hstep ih =>
    exact ih.step ((hx.mono fun _ _ hp ↦ hp.1).sends hs) hp.2 hreturn hstep

theorem communicate_begins {request : NctussEmuRequest} {data : Bytes} (h : Sound server s)
    (he : HonestInOrder s (.communicate request data))
    (hs : s.step (.communicate request data) = some s') :
    Sends server (datagramOf request data) ⟨0, [], 0⟩ s' ∧
      Waits (datagramOf request data) ⟨0, [], 0⟩ s' := by
  have hsound := h.step he hs
  obtain ⟨-, rfl⟩ := Net.step_communicate hs
  refine ⟨⟨hsound, rfl, pollCountThreshhold_pos, rfl, by simp⟩, fun _ ↦ ⟨le_rfl, ?_⟩⟩
  have hcopy : 0 < (s.requests ++ [datagramOf request data]).countP fun x ↦
      decide (x = datagramOf request data) :=
    List.countP_pos_iff.mpr ⟨_, List.mem_append_right _ List.mem_cons_self, decide_eq_true rfl⟩
  simp only [Net.underWay, Net.communicate, List.length_nil]
  omega

/-- Whatever the network does, a call sends its datagram again after every two million turns of its
loop, and nothing else. Over a network that is done with each copy before the next it has an
answer, and can return, before it sent more copies again than the network lost datagrams. -/
theorem exchange_within {request : NctussEmuRequest} {data : Bytes}
    (h : Net.Reachable HonestInOrder server s) (he : HonestInOrder s (.communicate request data))
    (hs : s.step (.communicate request data) = some s₁) :
    (∀ t s', Exchanging HonestInOrder s₁ t s' →
        t.sent = List.replicate (t.polls / pollCountThreshhold) (datagramOf request data)) ∧
      ∀ t s', Exchanging Prompt s₁ t s' →
        (s'.client.skbReplied = true ∧ ∃ s₂ b, s'.step .return = some s₂ ∧
          s₂.returned = (datagramOf request data, b) :: s'.returned) ∨
        t.polls < (t.lost + 1) * pollCountThreshhold ∧
          ∀ frames, ∃ s₂, s'.step (.poll frames) = some s₂ := by
  obtain ⟨hsends, hwaits⟩ := communicate_begins (reachable_sound h) he hs
  refine ⟨fun t s' hx ↦ (hx.sends hsends).sent, fun t s' hx ↦ ?_⟩
  have hsent := (hx.mono fun _ _ hp ↦ hp.1).sends hsends
  have htrapped := hsent.sound.invariant.trapped
  cases hreplied : s'.client.skbReplied with
  | true =>
    refine .inl ⟨rfl, { s' with
      client := { s'.client with sending := none }
      returned := (datagramOf request data, s'.client.skb) :: s'.returned }, s'.client.skb, ?_, rfl⟩
    simp only [Net.step, hsent.sending, hreplied, htrapped, and_self, if_true]
  | false =>
    refine .inr ⟨?_, fun frames ↦
      ⟨_, Polls.step_poll ⟨hsent.sending, hreplied, htrapped⟩ frames⟩⟩
    have hle := (hx.waits hsends hwaits hreplied).1
    rw [hsent.sent, List.length_replicate] at hle
    exact (Nat.div_lt_iff_lt_mul pollCountThreshhold_pos).mp (Nat.lt_succ_of_le hle)

theorem Exchanging.quiet (h : Exchanging Prompt s t s') (hp : Polls s' d) {n : ℕ}
    (hn : s'.client.pollCount + n < pollCountThreshhold) :
    Exchanging Prompt s { t with polls := t.polls + n }
      { s' with client := { s'.client with pollCount := s'.client.pollCount + n } } := by
  induction n with
  | zero => exact h
  | succ n ih =>
    let sn : Net :=
      { s' with client := { s'.client with pollCount := s'.client.pollCount + n } }
    have hwaits : ¬ sn.client.pollCount + 1 ≥ pollCountThreshhold := by
      dsimp only [sn]
      omega
    have hpolls : Polls sn d := ⟨hp.sending, hp.waiting, hp.trapped⟩
    have hstep := hpolls.step_poll 0
    rw [poll_waits hwaits] at hstep
    have hx := (ih (by omega)).step (e := .poll 0)
      ⟨⟨trivial, trivial⟩, fun hfull ↦ absurd hfull hwaits⟩ Event.noConfusion hstep
    simp only [Net.tally, List.drop_length, List.append_nil, sn] at hx
    exact hx

theorem Exchanging.resends (h : Exchanging Prompt s t s') (hp : Polls s' d)
    (hfull : s'.client.pollCount + 1 = pollCountThreshhold) (hnone : s'.underWay d = 0) :
    Exchanging Prompt s { t with polls := t.polls + 1, sent := t.sent ++ [d] }
      { s' with client := { s'.client with pollCount := 0 }, requests := s'.requests ++ [d] } := by
  have hstep := hp.step_poll 0
  rw [poll_resends hp.trapped hfull.ge] at hstep
  have hsettles : s'.Settles (.poll 0) := by
    rintro - x hx
    obtain rfl := Option.some.inj (hp.sending.symm.trans hx)
    exact hnone
  have hx := h.step (e := .poll 0) ⟨⟨trivial, trivial⟩, hsettles⟩ Event.noConfusion hstep
  simp only [Net.tally, List.drop_left] at hx
  exact hx

/-- The reset of a new session is lost and sent again two million turns later. -/
theorem exchange_within_lost :
    ∃ s₁ s', Net.zeroed.step (.communicate oneChannelReset []) = some s₁ ∧
    Exchanging Prompt s₁ ⟨2000000, [datagramOf oneChannelReset []], 1⟩ s' ∧
    [datagramOf oneChannelReset []] =
      List.replicate (2000000 / pollCountThreshhold) (datagramOf oneChannelReset []) ∧
    2000000 < (1 + 1) * pollCountThreshhold ∧ ∀ frames, ∃ s₂, s'.step (.poll frames) = some s₂ := by
  have he : HonestInOrder Net.zeroed (.communicate oneChannelReset []) := by decide
  let s₁ := Net.zeroed.communicate oneChannelReset []
  have hcall : Net.zeroed.step (.communicate oneChannelReset []) = some s₁ := rfl
  let s₂ : Net := { s₁ with requests := [] }
  have hlost : Exchanging Prompt s₁ ⟨0, [], 1⟩ s₂ :=
    .step (e := .requestFault (.lose 0)) .start ⟨⟨trivial, trivial⟩, trivial⟩ Event.noConfusion rfl
  have hpolls : Polls s₂ (datagramOf oneChannelReset []) := ⟨rfl, rfl, rfl⟩
  have hquiet := hlost.quiet (n := pollCountThreshhold - 1) hpolls (by decide)
  have hx := hquiet.resends ⟨rfl, rfl, rfl⟩ (by decide) rfl
  obtain ⟨hsent, hwithin⟩ := exchange_within (.start Net.zeroed_isStart) he hcall
  refine ⟨s₁, _, hcall, hx, hsent _ _ (hx.mono fun _ _ hp ↦ hp.1), ?_⟩
  rcases hwithin _ _ hx with ⟨hreplied, -⟩ | hwaits
  · exact absurd hreplied Bool.false_ne_true
  · exact hwaits

end Nctusde.Network

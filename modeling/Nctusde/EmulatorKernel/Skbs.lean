import Nctusde.EmulatorKernel.Frames

namespace Nctusde.EmulatorKernel

open Wire

instance (nn : NctussNetpoll) : DecidablePred (Addressed nn) := fun _ ↦
  inferInstanceAs (Decidable (_ ∧ _))

/-- What `nctuss_receive_skb` and its callers share; `returned` records the frames
given to `nctuss_xemacps_return_skb`. -/
structure Receiver where
  skbReplied : Bool
  currentWaitingReplyId : UInt32
  skb : Option SkBuff
  returned : List ℕ

namespace Receiver

variable (nn : NctussNetpoll) (r : Receiver)

/-- A frame is delivered; `none` when the parser never returns. -/
def receive (skb : SkBuff) : Option Receiver :=
  match (nctussReceiveSkb nn r.currentWaitingReplyId skb).1 with
  | .returned => some { r with returned := r.returned ++ [skb.tag] }
  | .printed => some r
  | .endless => none
  | .replied => some { r with skb := some skb, skbReplied := true }

def poll (frames : List SkBuff) : Option Receiver := frames.foldlM (receive nn) r

/-- `communicate_with_emulator` up to its polling loop. -/
def waitFor (id : UInt32) : Receiver := { r with skbReplied := false, currentWaitingReplyId := id }

/-- The end of every caller: the reply is given back. -/
def finish : Receiver := { r with returned := r.returned ++ (r.skb.map SkBuff.tag).toList }

end Receiver

inductive Polls (nn : NctussNetpoll) : Receiver → List (List SkBuff) → Receiver → Prop
  | done {r : Receiver} : r.skbReplied = true → Polls nn r [] r
  | poll {r r' r'' : Receiver} {frames : List SkBuff} {polls : List (List SkBuff)} :
      r.skbReplied = false → r.poll nn frames = some r' → Polls nn r' polls r'' →
      Polls nn r (frames :: polls) r''

/-- A finished exchange: its id, the frames delivered in it, and those given back. -/
structure Exchanged where
  id : UInt32
  delivered : List SkBuff
  returned : List ℕ

inductive Session (nn : NctussNetpoll) : Receiver → List Exchanged → Receiver → Prop
  | nil (r : Receiver) : Session nn r [] r
  | cons {r r' r'' : Receiver} {id : UInt32} {polls : List (List SkBuff)} {returned : List ℕ}
      {log : List Exchanged} : Polls nn (r.waitFor id) polls r' →
      r'.finish.returned = r.returned ++ returned → Session nn r'.finish log r'' →
      Session nn r (⟨id, polls.flatten, returned⟩ :: log) r''

def Exchanged.Conserved (e : Exchanged) : Prop := e.returned.Perm (e.delivered.map SkBuff.tag)

variable {nn : NctussNetpoll} {r r' : Receiver}

theorem Receiver.receive_cases {skb : SkBuff} (h : r.receive nn skb = some r') :
    (¬ Addressed nn skb ∧ r' = { r with returned := r.returned ++ [skb.tag] }) ∨
      (Addressed nn skb ∧ (r' = r ∨ r' = { r with skb := some skb, skbReplied := true })) := by
  unfold receive at h
  by_cases ha : Addressed nn skb
  · refine .inr ⟨ha, ?_⟩
    by_cases hid : skb.replyId = r.currentWaitingReplyId
    · rw [nctussReceiveSkb_awaited ha hid] at h
      by_cases hlong : skb.dataLen > Network.MAX_SKB_DATA_SIZE
      · rw [if_pos hlong] at h
        cases h
      · rw [if_neg hlong] at h
        exact .inr (Option.some.inj h).symm
    · rw [nctussReceiveSkb_other ha hid] at h
      exact .inl (Option.some.inj h).symm
  · rw [nctussReceiveSkb_foreign ha] at h
    exact .inl ⟨ha, (Option.some.inj h).symm⟩

structure Polled (nn : NctussNetpoll) (r r' : Receiver) (frames : List SkBuff) : Prop where
  returned : r'.returned = r.returned ++ (frames.filter (¬ Addressed nn ·)).map SkBuff.tag
  kept : (r'.skbReplied = r.skbReplied ∧ r'.skb = r.skb) ∨
    ∃ skb ∈ frames.filter (Addressed nn ·), r'.skb = some skb

theorem Polled.append {r'' : Receiver} {frames frames' : List SkBuff} (h : Polled nn r r' frames)
    (h' : Polled nn r' r'' frames') : Polled nn r r'' (frames ++ frames') where
  returned := by
    rw [h'.returned, h.returned, List.filter_append, List.map_append, List.append_assoc]
  kept := by
    rcases h'.kept with ⟨hr', hs'⟩ | ⟨skb, hskb, hs'⟩
    · rcases h.kept with ⟨hr, hs⟩ | ⟨skb, hskb, hs⟩
      · exact .inl ⟨hr'.trans hr, hs'.trans hs⟩
      · exact .inr ⟨skb, List.filter_append _ _ ▸ List.mem_append_left _ hskb, hs'.trans hs⟩
    · exact .inr ⟨skb, List.filter_append _ _ ▸ List.mem_append_right _ hskb, hs'⟩

theorem Receiver.polled_receive {skb : SkBuff} (h : r.receive nn skb = some r') :
    Polled nn r r' [skb] := by
  rcases receive_cases h with ⟨ha, rfl⟩ | ⟨ha, rfl | rfl⟩
  · exact ⟨by simp [ha], .inl ⟨rfl, rfl⟩⟩
  · exact ⟨by simp [ha], .inl ⟨rfl, rfl⟩⟩
  · exact ⟨by simp [ha], .inr ⟨skb, by simp [ha], rfl⟩⟩

theorem Receiver.polled_poll {frames : List SkBuff} (h : r.poll nn frames = some r') :
    Polled nn r r' frames := by
  induction frames generalizing r with
  | nil =>
    obtain rfl := Option.some.inj h
    exact ⟨by simp, .inl ⟨rfl, rfl⟩⟩
  | cons skb frames ih =>
    obtain ⟨r₁, h₁, h₂⟩ := Option.bind_eq_some_iff.mp h
    exact (polled_receive h₁).append (ih h₂)

theorem Polls.replied {polls : List (List SkBuff)} (h : Polls nn r polls r') :
    r'.skbReplied = true := by
  induction h with
  | done h => exact h
  | poll _ _ _ ih => exact ih

theorem Polls.polled {polls : List (List SkBuff)} (h : Polls nn r polls r') :
    Polled nn r r' polls.flatten := by
  induction h with
  | done _ => exact ⟨by simp, .inl ⟨rfl, rfl⟩⟩
  | poll _ hp _ ih => exact (Receiver.polled_poll hp).append ih

theorem Polls.exchanged {id : UInt32} {polls : List (List SkBuff)} {returned : List ℕ}
    (h : Polls nn (r.waitFor id) polls r') (hr : r'.finish.returned = r.returned ++ returned) :
    ∃ skb ∈ polls.flatten.filter (Addressed nn ·),
      returned = (polls.flatten.filter (¬ Addressed nn ·)).map SkBuff.tag ++ [skb.tag] := by
  have hpolled := h.polled
  rcases hpolled.kept with ⟨hreplied, -⟩ | ⟨skb, hskb, hs⟩
  · rw [h.replied] at hreplied
    cases hreplied
  · refine ⟨skb, hskb, List.append_cancel_left (hr.symm.trans ?_)⟩
    rw [Receiver.finish, hs, hpolled.returned]
    simp [Receiver.waitFor]

theorem conserved_iff {e : Exchanged} {skb : SkBuff}
    (hskb : skb ∈ e.delivered.filter (Addressed nn ·))
    (hr : e.returned = (e.delivered.filter (¬ Addressed nn ·)).map SkBuff.tag ++ [skb.tag]) :
    e.Conserved ↔ (e.delivered.filter (Addressed nn ·)).length = 1 := by
  have hperm : (e.delivered.filter (¬ Addressed nn ·) ++ e.delivered.filter (Addressed nn ·)).Perm
      e.delivered := by
    have := List.filter_append_perm (fun skb ↦ decide (¬ Addressed nn skb)) e.delivered
    simpa using this
  have htags := hperm.map SkBuff.tag
  rw [List.map_append] at htags
  constructor
  · intro h
    have hlen := (h.trans htags.symm).length_eq
    rw [hr, List.length_append, List.length_append, List.length_map, List.length_map] at hlen
    simp only [List.length_singleton] at hlen
    omega
  · intro h
    obtain ⟨x, hx⟩ := List.length_eq_one_iff.mp h
    rw [hx] at hskb htags
    obtain rfl := List.mem_singleton.mp hskb
    rw [Exchanged.Conserved, hr]
    exact htags

/-- In every session, the frames of an exchange are all given back exactly when one
frame, the reply, came from the server in it. -/
theorem skbs_conserved_iff {log : List Exchanged} (h : Session nn r log r') :
    (∀ e ∈ log, e.Conserved) ↔ ∀ e ∈ log, (e.delivered.filter (Addressed nn ·)).length = 1 := by
  induction h with
  | nil r => simp
  | cons hp hr _ ih =>
    obtain ⟨skb, hskb, hreturned⟩ := hp.exchanged hr
    rw [List.forall_mem_cons, List.forall_mem_cons, ih]
    exact and_congr_left fun _ ↦ conserved_iff hskb hreturned

def Receiver.idle : Receiver := ⟨false, 0, none, []⟩

def replyFrame (tag : ℕ) : SkBuff := frameOf tag IPPROTO_UDP (payloadOf 156)

theorem addressed_replyFrame (tag : ℕ) : Addressed firstEnds (replyFrame tag) := by
  have h : Addressed firstEnds (replyFrame 0) := by decide +kernel
  exact h

theorem receive_replyFrame (tag : ℕ) (h : r.currentWaitingReplyId = 123) :
    r.receive firstEnds (replyFrame tag) =
      some { r with skb := some (replyFrame tag), skbReplied := true } := by
  have hverdict : (nctussReceiveSkb firstEnds 123 (replyFrame 0)).1 = .replied := by decide +kernel
  have htag : nctussReceiveSkb firstEnds 123 (replyFrame tag) =
      nctussReceiveSkb firstEnds 123 (replyFrame 0) := rfl
  rw [Receiver.receive, h, htag, hverdict]

theorem poll_replyFrames (tags : List ℕ) (tag : ℕ) (h : r.currentWaitingReplyId = 123) :
    r.poll firstEnds ((tags ++ [tag]).map replyFrame) =
      some { r with skb := some (replyFrame tag), skbReplied := true } := by
  induction tags generalizing r with
  | nil =>
    rw [Receiver.poll, List.nil_append, List.map_singleton, List.foldlM_cons,
      receive_replyFrame tag h]
    rfl
  | cons first tags ih =>
    rw [Receiver.poll, List.cons_append, List.map_cons, List.foldlM_cons,
      receive_replyFrame first h]
    exact ih h

theorem session_replyFrames (tags : List ℕ) (tag : ℕ) : ∃ r', Session firstEnds Receiver.idle
    [⟨123, (tags ++ [tag]).map replyFrame, [tag]⟩] r' := by
  have h : Session firstEnds Receiver.idle
      [⟨123, [(tags ++ [tag]).map replyFrame].flatten, [tag]⟩] _ :=
    .cons (.poll rfl (poll_replyFrames tags tag rfl) (.done rfl)) rfl (.nil _)
  rw [List.flatten_singleton] at h
  exact ⟨_, h⟩

theorem skbs_conserved_iff_single :
    (⟨123, [replyFrame 0], [0]⟩ : Exchanged).Conserved := by
  obtain ⟨_, h⟩ := session_replyFrames [] 0
  refine (skbs_conserved_iff h).mpr (fun e he ↦ ?_) _ (List.mem_singleton_self _)
  obtain rfl := List.mem_singleton.mp he
  simp [addressed_replyFrame]

/-- Of two copies of a reply in one poll, the first is never given back. -/
theorem skbs_not_conserved :
    ¬ ∀ (nn : NctussNetpoll) (r r' : Receiver) (log : List Exchanged), Session nn r log r' →
      ∀ e ∈ log, e.Conserved := by
  intro hall
  obtain ⟨_, h⟩ := session_replyFrames [0] 1
  have hperm := hall _ _ _ _ h _ (List.mem_singleton_self _)
  exact absurd hperm.length_eq (by simp)

end Nctusde.EmulatorKernel

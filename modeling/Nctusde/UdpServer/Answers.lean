import Nctusde.UdpServer.Requests

namespace Nctusde.UdpServer

open Wire

/-- The completed iterations of the receive loop: what came in, what went out. -/
inductive Serves : Server → List (Bytes × Option Bytes) → Server → Prop
  | nil (s : Server) : Serves s [] s
  | cons {s s' s'' : Server} {bytes : Bytes} {sent : Option Bytes}
      {log : List (Bytes × Option Bytes)} :
      s.receive bytes = .loop s' sent → Serves s' log s'' → Serves s ((bytes, sent) :: log) s''

/-- The newest id since the last reset and the reply that was computed for it,
if there was one. -/
structure Computed where
  newest : ℤ
  reply : Option Bytes

def Computed.after (c : Computed) (bytes : Bytes) (sent : Option Bytes) : Computed :=
  if ¬ Readable bytes then c
  else if IsReset bytes then ⟨0, none⟩
  else if ((requestOf bytes).id.toNat : ℤ) = c.newest then c
  else ⟨(requestOf bytes).id.toNat, sent⟩

/-- The answer to a request carries its id, and a copy gets the reply that was
computed for the original. -/
def Computed.Carries (c : Computed) (bytes : Bytes) (sent : Option Bytes) : Prop :=
  Readable bytes → ¬ IsReset bytes → ∀ d, sent = some d →
    (NctussEmuReply.decode d).id = (requestOf bytes).id ∧
      (NctussEmuReply.decode d).idCheck = (requestOf bytes).id ∧
      (((requestOf bytes).id.toNat : ℤ) = c.newest → c.reply = some d)

def Computed.AllCarry (c : Computed) : List (Bytes × Option Bytes) → Prop
  | [] => True
  | (bytes, sent) :: log => c.Carries bytes sent ∧ (c.after bytes sent).AllCarry log

def IsShortWrite (bytes : Bytes) : Prop :=
  (requestOf bytes).type = NctussEmuRequestType.readWriteData.code ∧
    (requestOf bytes).data1 ≠ 0 ∧
    (bytes.take MAXNAME).length < NctussEmuRequest.size + SECTOR_SIZE

instance (bytes : Bytes) : Decidable (IsShortWrite bytes) := inferInstanceAs (Decidable (_ ∧ _))

theorem wellFormed_of_not_shortWrite {bytes : Bytes} (hs : ¬ IsShortWrite bytes)
    (h : NctussEmuRequestType.ofCode (requestOf bytes).type ≠ none) : WellFormed bytes := by
  obtain ⟨t, ht⟩ := Option.ne_none_iff_exists'.mp h
  refine ⟨t, ht, fun htt h1 ↦ ?_⟩
  subst htt
  by_contra hl
  exact hs ⟨NctussEmuRequestType.code_of_ofCode ht, h1, not_le.mp hl⟩

/-- What can be said from the incoming datagrams alone: the newest id since the
last reset, whether it was answered, and the id the kept reply belongs to. -/
structure Incoming where
  newest : ℤ
  answered : Bool
  held : UInt32

def Incoming.after (i : Incoming) (bytes : Bytes) : Incoming :=
  if ¬ Readable bytes then i
  else if IsReset bytes then ⟨0, false, (requestOf bytes).id⟩
  else if ((requestOf bytes).id.toNat : ℤ) = i.newest then i
  else if NctussEmuRequestType.ofCode (requestOf bytes).type = none then
    ⟨(requestOf bytes).id.toNat, true, i.held⟩
  else if IsShortWrite bytes then ⟨(requestOf bytes).id.toNat, false, i.held⟩
  else ⟨(requestOf bytes).id.toNat, true, (requestOf bytes).id⟩

/-- A copy is of an answered request, and a request of unknown type bears the id
of the reply that is kept. -/
def Incoming.Suits (i : Incoming) (bytes : Bytes) : Prop :=
  Readable bytes → ¬ IsReset bytes →
    if ((requestOf bytes).id.toNat : ℤ) = i.newest then i.answered = true
    else NctussEmuRequestType.ofCode (requestOf bytes).type = none → i.held = (requestOf bytes).id

def Incoming.AllSuit (i : Incoming) : List Bytes → Prop
  | [] => True
  | bytes :: rest => i.Suits bytes ∧ (i.after bytes).AllSuit rest

structure Agrees (s : Server) (c : Computed) (i : Incoming) : Prop where
  counter : s.currentMaxRequestId = c.newest
  newest : i.newest = c.newest
  held : Server.Answers s i.held
  answered : i.answered = true ↔ c.reply ≠ none
  reply : ∀ d, c.reply = some d → d = s.datagram ∧ (i.held.toNat : ℤ) = c.newest

variable {s s' : Server} {c : Computed} {i : Incoming} {bytes : Bytes} {sent : Option Bytes}

theorem agrees_reset (hr : Readable bytes) (h : IsReset bytes)
    (hs : s.receive bytes = .loop s' sent) :
    Agrees s' ⟨0, none⟩ ⟨0, false, (requestOf bytes).id⟩ := by
  rw [Server.receive_reset hr h] at hs
  split at hs
  · cases hs
  · rename_i sim _
    obtain ⟨-, ha, hc⟩ := Server.dispatch_answers
      ⟨.reset, by rw [show _ = _ from h]; rfl, fun h ↦ nomatch h⟩ hs
    exact ⟨hc, rfl, ha, by simp, fun d hd ↦ nomatch hd⟩

theorem Agrees.copy (h : Agrees s c i) (hr : Readable bytes) (hreset : ¬ IsReset bytes)
    (hid : ((requestOf bytes).id.toNat : ℤ) = c.newest) (hs : s.receive bytes = .loop s' sent) :
    (c.Carries bytes sent ↔ i.answered = true) ∧ s' = s := by
  rw [Server.receive_copy hr hreset (h.counter ▸ hid)] at hs
  cases hs
  refine ⟨⟨fun hc ↦ ?_, fun ha _ _ d hd ↦ ?_⟩, rfl⟩
  · rw [h.answered, (hc hr hreset _ rfl).2.2 hid]
    simp
  · cases hd
    obtain ⟨x, hx⟩ := Option.ne_none_iff_exists'.mp (h.answered.mp ha)
    obtain ⟨rfl, hheld⟩ := h.reply x hx
    have hn : i.held = (requestOf bytes).id := by
      rw [← UInt32.toNat_inj]
      exact_mod_cast hheld.trans hid.symm
    obtain ⟨h1, h2⟩ := h.held.decode
    exact ⟨h1.trans hn, h2.trans hn, fun _ ↦ hx⟩

theorem receive_past (hr : Readable bytes) (hreset : ¬ IsReset bytes)
    (hid : ((requestOf bytes).id.toNat : ℤ) ≠ s.currentMaxRequestId)
    (hs : s.receive bytes = .loop s' sent) :
    { s with currentMaxRequestId := (requestOf bytes).id.toNat }.dispatch (requestOf bytes)
      (bytes.take MAXNAME) = .loop s' sent := by
  rcases lt_or_gt_of_ne hid with hlt | hgt
  · rw [Server.receive_stale hr hreset hlt] at hs
    cases hs
  · by_cases hc : (requestOf bytes).idCheck = (requestOf bytes).id
    · rwa [Server.receive_new hr hreset hgt hc] at hs
    · rw [Server.receive_idCheck hr hreset hgt hc] at hs
      cases hs

theorem Agrees.unknown (h : Agrees s c i)
    (ht : NctussEmuRequestType.ofCode (requestOf bytes).type = none) {n : ℤ}
    (hn : n = (requestOf bytes).id.toNat)
    (hs : { s with currentMaxRequestId := n }.dispatch (requestOf bytes) (bytes.take MAXNAME) =
      .loop s' sent) :
    sent = some s'.datagram ∧ Server.Answers s' i.held ∧
      (i.held = (requestOf bytes).id → Agrees s' ⟨n, sent⟩ ⟨n, true, i.held⟩) := by
  rw [Server.dispatch_unknown _ ht] at hs
  obtain ⟨rfl, ha, -, -, hc, -⟩ :=
    Server.answer_eq (s := { s with currentMaxRequestId := n }) (n := i.held) h.held.id hs
  refine ⟨rfl, ha, fun hheld ↦ ⟨hc, rfl, ha, by simp, fun d hd ↦ ?_⟩⟩
  cases hd
  exact ⟨rfl, by rw [hn, hheld]⟩

theorem Agrees.shortWrite (h : Agrees s c i) (hw : IsShortWrite bytes) {n : ℤ}
    (hs : { s with currentMaxRequestId := n }.dispatch (requestOf bytes) (bytes.take MAXNAME) =
      .loop s' sent) :
    sent = none ∧ Agrees s' ⟨n, none⟩ ⟨n, false, i.held⟩ := by
  rw [Server.dispatch_shortWrite hw.1 hw.2.1 hw.2.2] at hs
  cases hs
  exact ⟨rfl, rfl, rfl, ⟨h.held.id, h.held.idCheck, h.held.length⟩, by simp, fun d hd ↦ nomatch hd⟩

theorem agrees_complete (hw : WellFormed bytes) {n : ℤ} (hn : n = (requestOf bytes).id.toNat)
    (hs : { s with currentMaxRequestId := n }.dispatch (requestOf bytes) (bytes.take MAXNAME) =
      .loop s' sent) :
    sent = some s'.datagram ∧ Agrees s' ⟨n, sent⟩ ⟨n, true, (requestOf bytes).id⟩ := by
  obtain ⟨rfl, ha, hc⟩ := Server.dispatch_answers hw hs
  refine ⟨rfl, hc, rfl, ha, by simp, fun d hd ↦ ?_⟩
  cases hd
  exact ⟨rfl, by rw [hn]⟩

/-- One iteration: the datagram sent carries the right id exactly when the
datagram received suits, and then everything still agrees. -/
theorem Agrees.step (h : Agrees s c i) (hs : s.receive bytes = .loop s' sent) :
    (c.Carries bytes sent ↔ i.Suits bytes) ∧
      (i.Suits bytes → Agrees s' (c.after bytes sent) (i.after bytes)) := by
  by_cases hr : Readable bytes
  swap
  · rw [Server.receive_unreadable hr] at hs
    cases hs
    simp only [Computed.Carries, Incoming.Suits, Computed.after, Incoming.after, hr]
    simpa using h
  by_cases hreset : IsReset bytes
  · simp only [Computed.Carries, Incoming.Suits, Computed.after, Incoming.after, hr, hreset]
    simpa using agrees_reset hr hreset hs
  by_cases hid : ((requestOf bytes).id.toNat : ℤ) = c.newest
  · obtain ⟨hc, rfl⟩ := h.copy hr hreset hid hs
    simp only [Incoming.Suits, Computed.after, Incoming.after, hr, hreset, h.newest, hid, hc]
    simpa using fun _ ↦ h
  have hpast := receive_past hr hreset (h.counter ▸ hid) hs
  simp only [Computed.Carries, Incoming.Suits, Computed.after, Incoming.after, hr, hreset, h.newest,
    hid, not_true_eq_false, not_false_eq_true, if_false, forall_true_left, false_imp_iff, and_true]
  by_cases ht : NctussEmuRequestType.ofCode (requestOf bytes).type = none
  · obtain ⟨rfl, ha, hagrees⟩ := h.unknown ht rfl hpast
    simp only [ht, if_true, forall_true_left]
    refine ⟨⟨fun hc ↦ ?_, fun hheld d hd ↦ ?_⟩, hagrees⟩
    · rw [← (hc _ rfl).1, ha.decode.1]
    · cases hd
      rwa [ha.decode.1, ha.decode.2, and_self]
  by_cases hw : IsShortWrite bytes
  · obtain ⟨rfl, hagrees⟩ := h.shortWrite hw hpast
    simpa [ht, hw] using hagrees
  · obtain ⟨rfl, hagrees⟩ := agrees_complete (wellFormed_of_not_shortWrite hw ht) rfl hpast
    simp only [ht, hw, if_false, false_imp_iff, iff_true]
    refine ⟨fun d hd ↦ ?_, fun _ ↦ hagrees⟩
    cases hd
    exact hagrees.held.decode

theorem Agrees.run (h : Agrees s c i) {log : List (Bytes × Option Bytes)} (hlog : Serves s log s') :
    c.AllCarry log ↔ i.AllSuit (log.map Prod.fst) := by
  induction hlog generalizing c i with
  | nil s => exact Iff.rfl
  | cons hs _ ih =>
    obtain ⟨hiff, hkeep⟩ := h.step hs
    simp only [Computed.AllCarry, List.map_cons, Incoming.AllSuit, hiff]
    exact and_congr_right fun hsuits ↦ ih (hkeep hsuits)

theorem answers_carry_id_iff {srv : Server} {reset : Bytes} {log : List (Bytes × Option Bytes)}
    (hr : Readable reset) (h : IsReset reset) (hs : srv.receive reset = .loop s sent)
    (hlog : Serves s log s') :
    (Computed.mk 0 none).AllCarry log ↔
      (Incoming.mk 0 false (requestOf reset).id).AllSuit (log.map Prod.fst) :=
  (agrees_reset hr h hs).run hlog

def unknownRequest : NctussEmuRequest where
  id := 124
  type := 9
  idCheck := 124

theorem serves_unknown : ∃ s sent s' sent',
    Server.zeroed.receive oneChannelReset.encode = .loop s sent ∧
      Serves s [(unknownRequest.encode, sent')] s' := by
  obtain ⟨s, hs, hserved⟩ :=
    Server.receive_reset_encode (s := Server.zeroed) (r := oneChannelReset) rfl rfl
  have hid : s.currentMaxRequestId < (unknownRequest.id.toNat : ℤ) := by
    rw [hserved.currentMaxRequestId]
    decide
  have hnew := Server.receive_new_encode (r := unknownRequest) (d := []) (Nat.zero_le _)
    (by decide) rfl hid
  rw [List.append_nil, Server.dispatch_unknown _ rfl] at hnew
  exact ⟨s, _, _, _, hs, .cons hnew (.nil _)⟩

/-- The message of unknown type is answered under the id of the reset. -/
theorem unknown_type_answered_wrongly :
    ¬ ∀ (srv s s' : Server) (reset : Bytes) (sent : Option Bytes)
    (log : List (Bytes × Option Bytes)),
      Readable reset → IsReset reset → srv.receive reset = .loop s sent → Serves s log s' →
        (Computed.mk 0 none).AllCarry log := by
  intro h
  obtain ⟨s, sent, s', sent', hs, hlog⟩ := serves_unknown
  have hr : Readable oneChannelReset.encode := by decide +kernel
  have hreset : IsReset oneChannelReset.encode := by decide +kernel
  have hr' : Readable unknownRequest.encode := by decide +kernel
  have hreset' : ¬ IsReset unknownRequest.encode := by decide +kernel
  have hid : ((requestOf unknownRequest.encode).id.toNat : ℤ) ≠ 0 := by decide +kernel
  have ht : NctussEmuRequestType.ofCode (requestOf unknownRequest.encode).type = none := by
    decide +kernel
  have hne : (requestOf oneChannelReset.encode).id ≠ (requestOf unknownRequest.encode).id := by
    decide +kernel
  have hall := ((agrees_reset hr hreset hs).run hlog).mp (h _ _ _ _ _ _ hr hreset hs hlog)
  simp only [List.map_cons, List.map_nil, Incoming.AllSuit, and_true, Incoming.Suits,
    if_neg hid] at hall
  exact hne (hall hr' hreset' ht)

theorem answers_carry_id_iff_unknown : ∃ s sent s' sent',
    Server.zeroed.receive oneChannelReset.encode = .loop s sent ∧
      Serves s [(unknownRequest.encode, sent')] s' ∧
      ((Computed.mk 0 none).AllCarry [(unknownRequest.encode, sent')] ↔
        (Incoming.mk 0 false (requestOf oneChannelReset.encode).id).AllSuit
          [unknownRequest.encode]) := by
  obtain ⟨s, sent, s', sent', hs, hlog⟩ := serves_unknown
  exact ⟨s, sent, s', sent', hs, hlog,
    answers_carry_id_iff (by decide +kernel) (by decide +kernel) hs hlog⟩

end Nctusde.UdpServer

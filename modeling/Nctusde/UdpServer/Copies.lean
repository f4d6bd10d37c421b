import Nctusde.UdpServer.Requests

namespace Nctusde.UdpServer

open Wire

def messageId (bytes : Bytes) : ℕ := (requestOf bytes).id.toNat

def replyId (bytes : Bytes) : ℕ := (NctussEmuReply.decode bytes).id.toNat

def MAX_REPLY_SIZE : ℕ := SECTOR_SIZE + NctussEmuReply.size

/-- The server was through with this datagram last: a copy of it changes nothing
and is answered as the original was. -/
structure Settled (s : Server) (bytes : Bytes) (sent : Option Bytes) : Prop where
  copy : s.receive bytes = .loop s (some s.datagram)
  counter : s.currentMaxRequestId ≤ messageId bytes
  newest : ¬ IsReset bytes → s.currentMaxRequestId = messageId bytes
  replyId : s.reply.id.toNat ≤ messageId bytes
  header : NctussEmuReply.size ≤ s.replyLength
  length : s.replyLength ≤ MAX_REPLY_SIZE
  answered : WellFormed bytes → sent = some s.datagram ∧ s.reply.id = (requestOf bytes).id

variable {s s' : Server} {sim : MySSDSim} {r : NctussEmuRequest} {bytes buf : Bytes}
  {sent : Option Bytes}

theorem replyId_datagram (h : NctussEmuReply.size ≤ s.replyLength) :
    replyId s.datagram = s.reply.id.toNat := by
  rw [replyId, Server.datagram, List.take_append, NctussEmuReply.encode_length,
    List.take_of_length_le (by simpa using h), NctussEmuReply.decode_encode_id]

theorem datagram_length (h : s.replyLength ≤ MAX_REPLY_SIZE) : s.datagram.length ≤ MAX_REPLY_SIZE :=
  (List.length_take_le _ _).trans h

theorem setup_again {s sim : MySSDSim} {size channels speedFactor : ℤ}
    (h : s.setup size channels speedFactor = some sim) :
    sim.setup size channels speedFactor = some sim := by
  unfold MySSDSim.setup at h ⊢
  split at h
  · rename_i hc
    rw [if_pos hc]
  split at h
  · cases h
  rename_i hc hm
  rw [if_neg hc, if_neg hm]
  obtain rfl := Option.some.inj h
  simp only [Option.some.injEq, MySSDSim.mk.injEq, true_and]
  funext i
  split <;> rfl

namespace Server

theorem answer_length (h : s.answer r = .loop s' sent) :
    NctussEmuReply.size ≤ s'.replyLength ∧ s'.replyLength ≤ MAX_REPLY_SIZE := by
  simp only [answer, Outcome.loop.injEq] at h
  obtain ⟨rfl, -⟩ := h
  dsimp only [MAX_REPLY_SIZE]
  split <;> simp [SECTOR_SIZE]

theorem answer_id (h : s.answer r = .loop s' sent) : s'.reply.id = s.reply.id := by
  simp only [answer, Outcome.loop.injEq] at h
  obtain ⟨rfl, -⟩ := h
  rfl

theorem answer_sent (h : s.answer r = .loop s' sent) : sent = some s'.datagram := by
  simp only [answer, Outcome.loop.injEq] at h
  obtain ⟨rfl, rfl⟩ := h
  rfl

theorem answer_counter (h : s.answer r = .loop s' sent) :
    s'.currentMaxRequestId = s.currentMaxRequestId := by
  simp only [answer, Outcome.loop.injEq] at h
  obtain ⟨rfl, -⟩ := h
  rfl

structure Replies (s s' : Server) (r : NctussEmuRequest) (sent : Option Bytes) : Prop where
  id : s'.reply.id = r.id ∨ s'.reply.id = s.reply.id
  counter : s'.currentMaxRequestId = s.currentMaxRequestId
  length : NctussEmuReply.size ≤ s'.replyLength ∧ s'.replyLength ≤ MAX_REPLY_SIZE ∨
    s'.replyLength = s.replyLength
  sent : ∀ b ∈ sent, b = s'.datagram

theorem dispatch_reply (h : s.dispatch r buf = .loop s' sent) : Replies s s' r sent := by
  have hall {t : Server} (ht : t.answer r = .loop s' sent)
      (hid : t.reply.id = r.id ∨ t.reply.id = s.reply.id)
      (hc : t.currentMaxRequestId = s.currentMaxRequestId) : Replies s s' r sent := by
    refine ⟨(answer_id ht).symm ▸ hid, (answer_counter ht).trans hc, .inl (answer_length ht),
      fun b hb ↦ ?_⟩
    rw [answer_sent ht] at hb
    exact (Option.mem_some_iff.mp hb).symm
  rcases ht : NctussEmuRequestType.ofCode r.type with _ | t
  · rw [dispatch_unknown _ ht] at h
    exact hall h (.inr rfl) rfl
  · obtain hcode := NctussEmuRequestType.code_of_ofCode ht
    cases t with
    | reset =>
      rw [dispatch_reset _ hcode] at h
      exact hall h (.inl (replyWith_reply_id ..)) (replyWith_currentMaxRequestId ..)
    | submitReqeust =>
      rw [dispatch_submitReqeust _ hcode] at h
      split at h
      · cases h
      · exact hall h (.inl (replyWith_reply_id ..)) (replyWith_currentMaxRequestId ..)
    | getNextResponses =>
      rw [dispatch_getNextResponses _ hcode] at h
      generalize s.mySSDSim.nextResponses (time64 r) = next at h
      refine hall h (.inl ?_) ?_
      · rw [withResponses_reply_id, replyWith_reply_id]
      · rw [withResponses_currentMaxRequestId, replyWith_currentMaxRequestId]
    | readWriteData =>
      rw [dispatch, ht] at h
      dsimp only at h
      split at h
      · exact hall h (.inl (replyWith_reply_id ..)) (replyWith_currentMaxRequestId ..)
      split at h
      · simp only [Outcome.loop.injEq] at h
        obtain ⟨rfl, rfl⟩ := h
        exact ⟨.inr rfl, rfl, .inr rfl, fun _ hb ↦ absurd hb (Option.not_mem_none _)⟩
      · exact hall h (.inl (replyWith_reply_id ..)) (replyWith_currentMaxRequestId ..)

theorem receive_reply {b : Bytes} (h : s.receive bytes = .loop s' (some b))
    (hlength : s.replyLength ≤ MAX_REPLY_SIZE) :
    b = s'.datagram ∧ s'.replyLength ≤ MAX_REPLY_SIZE := by
  have hall {t : Server} {r : NctussEmuRequest} {buf : Bytes}
      (hd : t.dispatch r buf = .loop s' (some b)) (ht : t.replyLength = s.replyLength) :
      b = s'.datagram ∧ s'.replyLength ≤ MAX_REPLY_SIZE := by
    obtain ⟨-, -, hl, hsent⟩ := dispatch_reply hd
    refine ⟨hsent b rfl, ?_⟩
    rcases hl with hl | hl
    · exact hl.2
    · exact hl.trans_le (ht.trans_le hlength)
  by_cases hr : Readable bytes
  · by_cases hreset : IsReset bytes
    · rw [receive_reset hr hreset] at h
      split at h
      · cases h
      · exact hall h rfl
    · rcases lt_trichotomy
        ((requestOf bytes).id.toNat : ℤ) s.currentMaxRequestId with hid | hid | hid
      · rw [receive_stale hr hreset hid] at h
        cases h
      · rw [receive_copy hr hreset hid, Outcome.loop.injEq, Option.some.injEq] at h
        obtain ⟨rfl, rfl⟩ := h
        exact ⟨rfl, hlength⟩
      · by_cases hc : (requestOf bytes).idCheck = (requestOf bytes).id
        · rw [receive_new hr hreset hid hc] at h
          exact hall h rfl
        · rw [receive_idCheck hr hreset hid hc] at h
          cases h
  · rw [receive_unreadable hr] at h
    cases h

end Server

theorem settled_of_new (hr : Readable bytes) (h : ¬ IsReset bytes)
    (hc : (requestOf bytes).idCheck = (requestOf bytes).id)
    (hid : s.currentMaxRequestId < messageId bytes) (hreply : s.reply.id.toNat ≤ messageId bytes)
    (hlength : NctussEmuReply.size ≤ s.replyLength ∧ s.replyLength ≤ MAX_REPLY_SIZE)
    (hs : s.receive bytes = .loop s' sent) :
    Settled s' bytes sent ∧ ∀ b ∈ sent, b = s'.datagram := by
  rw [Server.receive_new hr h hid hc] at hs
  obtain ⟨hi, hcounter, hl, hsent⟩ := Server.dispatch_reply hs
  have hl : NctussEmuReply.size ≤ s'.replyLength ∧ s'.replyLength ≤ MAX_REPLY_SIZE := by
    rcases hl with hl | hl
    · exact hl
    · rwa [hl]
  refine ⟨⟨Server.receive_copy hr h hcounter.symm, hcounter.le, fun _ ↦ hcounter, ?_, hl.1, hl.2,
    fun hw ↦ ?_⟩, hsent⟩
  · rcases hi with hi | hi
    · rw [hi]
      exact le_rfl
    · rw [hi]
      exact hreply
  · obtain ⟨hsent, ha, -⟩ := Server.dispatch_answers hw hs
    exact ⟨hsent, ha.id⟩

structure WasReset (s : Server) (r : NctussEmuRequest) : Prop where
  setup : s.mySSDSim.setup r.data1.toNat r.data2.toNat r.data3.toNat = some s.mySSDSim
  totals : s.totals = ⟨0, 0, 0⟩
  counter : s.currentMaxRequestId = 0
  type : s.reply.type = NctussEmuReplyType.ok.code
  id : s.reply.id = r.id
  idCheck : s.reply.idCheck = r.id
  length : s.replyLength = NctussEmuReply.size

theorem IsReset.not_transfer (h : IsReset bytes) :
    ¬ ((requestOf bytes).type = NctussEmuRequestType.readWriteData.code ∧
      (requestOf bytes).data1 = 0) := by
  rintro ⟨ht, -⟩
  have := ht.symm.trans h
  revert this
  decide

theorem wasReset (hr : Readable bytes) (h : IsReset bytes) (hs : s.receive bytes = .loop s' sent) :
    WasReset s' (requestOf bytes) ∧ sent = some s'.datagram := by
  rw [Server.receive_reset hr h] at hs
  split at hs
  · cases hs
  rename_i sim hsim
  rw [Server.dispatch_reset _ h] at hs
  obtain ⟨s₁, h₁, hserved, -, -, -, -, -, hl⟩ :=
    Server.answer_served (r := requestOf bytes) .ok sim 0 s.memoryStorage
      (s := { s with mySSDSim := sim, totals := ⟨0, 0, 0⟩, currentMaxRequestId := 0 }.replyWith
        .ok (requestOf bytes).id) rfl rfl rfl rfl rfl
  rw [h₁, Outcome.loop.injEq] at hs
  obtain ⟨rfl, rfl⟩ := hs
  obtain ⟨-, -, -, htotals, -⟩ := Server.answer_eq (Server.replyWith_reply_id ..) h₁
  refine ⟨⟨?_, htotals, hserved.currentMaxRequestId, hserved.type, hserved.answers.id,
    hserved.answers.idCheck, ?_⟩, rfl⟩
  · rw [hserved.mySSDSim]
    exact setup_again hsim
  · rw [hl, if_neg h.not_transfer]

theorem WasReset.again (hr : Readable bytes) (h : IsReset bytes)
    (hs : WasReset s (requestOf bytes)) :
    s.receive bytes = .loop s (some s.datagram) := by
  obtain ⟨hsetup, htotals, hcounter, htype, hid, hcheck, hl⟩ := hs
  rw [Server.receive_reset hr h, hsetup]
  dsimp only
  rw [Server.dispatch_reset _ h]
  rw [Server.answer, if_neg h.not_transfer]
  obtain ⟨sim, totals, counter, memory, ⟨id, type, d1, d2, d3, d4, ids, check⟩, data, length⟩ := s
  dsimp only at htotals hcounter htype hid hcheck hl
  subst htotals hcounter htype hid hcheck hl
  rfl

theorem settled_of_reset (hr : Readable bytes) (h : IsReset bytes)
    (hs : s.receive bytes = .loop s' sent) :
    Settled s' bytes sent ∧ ∀ b ∈ sent, b = s'.datagram := by
  obtain ⟨hw, hsent⟩ := wasReset hr h hs
  refine ⟨⟨hw.again hr h, ?_, fun hn ↦ absurd h hn, ?_, hw.length.ge, ?_, fun _ ↦ ⟨hsent, hw.id⟩⟩,
    fun b hb ↦ ?_⟩
  · rw [hw.counter]
    exact Int.natCast_nonneg _
  · rw [hw.id]
    exact le_rfl
  · rw [hw.length]
    simp [MAX_REPLY_SIZE]
  · rw [hsent] at hb
    exact (Option.mem_some_iff.mp hb).symm

/-- The messages whose own content can send the server into an endless loop. -/
def Hangs (bytes : Bytes) : Trap → Prop
  | .memorySize => IsReset bytes ∧ MEMORY_STORAGE_SIZE < (requestOf bytes).data1.toNat
  | .sizeClass => (requestOf bytes).type = NctussEmuRequestType.submitReqeust.code ∧
      requestSizeIndex (toInt ((requestOf bytes).data5.toNat * SECTOR_SIZE)) = none
  | .staleId | .idCheck => False

theorem submitRequest_hang {s : MySSDSim} {totals : Totals}
    {time rw sector count ioRequestId : ℤ}
    (h : s.submitRequest totals time rw sector count ioRequestId = none) :
    requestSizeIndex (toInt (count * SECTOR_SIZE)) = none := by
  unfold MySSDSim.submitRequest at h
  generalize requestSizeIndex (toInt (count * SECTOR_SIZE)) = k at h ⊢
  dsimp only at h
  split at h
  · cases h
  · cases k with
    | none => rfl
    | some k => cases h

theorem receive_hang {trap : Trap} (hr : Readable bytes)
    (hc : (requestOf bytes).idCheck = (requestOf bytes).id)
    (hid : IsReset bytes ∨ s.currentMaxRequestId < messageId bytes)
    (hs : s.receive bytes = .hang trap) : Hangs bytes trap := by
  by_cases h : IsReset bytes
  · rw [Server.receive_reset hr h] at hs
    split at hs
    · rename_i hsetup
      rw [Outcome.hang.injEq] at hs
      subst hs
      unfold MySSDSim.setup at hsetup
      split at hsetup
      · cases hsetup
      split at hsetup
      · rename_i hbig
        exact ⟨h, hbig⟩
      · cases hsetup
    · rw [Server.dispatch_reset _ h, Server.answer] at hs
      cases hs
  · rw [Server.receive_new hr h (hid.resolve_left h) hc] at hs
    rcases ht : NctussEmuRequestType.ofCode (requestOf bytes).type with _ | t
    · rw [Server.dispatch_unknown _ ht, Server.answer] at hs
      cases hs
    · obtain hcode := NctussEmuRequestType.code_of_ofCode ht
      cases t with
      | reset => exact absurd hcode h
      | submitReqeust =>
        rw [Server.dispatch_submitReqeust _ hcode] at hs
        split at hs
        · rename_i hsub
          rw [Outcome.hang.injEq] at hs
          subst hs
          exact ⟨hcode, submitRequest_hang hsub⟩
        · rw [Server.answer] at hs
          cases hs
      | getNextResponses =>
        rw [Server.dispatch_getNextResponses _ hcode, Server.answer] at hs
        cases hs
      | readWriteData =>
        rw [Server.dispatch, ht] at hs
        dsimp only at hs
        split at hs
        · rw [Server.answer] at hs
          cases hs
        split at hs
        · cases hs
        · rw [Server.answer] at hs
          cases hs

end Nctusde.UdpServer

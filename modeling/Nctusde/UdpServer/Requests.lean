import Nctusde.UdpServer.Main

namespace Nctusde.UdpServer

open Library.Memory Wire

variable {r : NctussEmuRequest} {d : Bytes}

theorem take_datagram (hd : d.length ≤ SECTOR_SIZE) :
    (r.encode ++ d).take MAXNAME = r.encode ++ d := by
  apply List.take_of_length_le
  simp only [List.length_append, NctussEmuRequest.encode_length, NctussEmuRequest.size, MAXNAME]
  simp only [SECTOR_SIZE] at hd
  omega

theorem take_encode (r : NctussEmuRequest) (d : Bytes) :
    (r.encode ++ d).take MAXNAME = r.encode ++ d.take (MAXNAME - NctussEmuRequest.size) := by
  rw [List.take_append, NctussEmuRequest.encode_length,
    List.take_of_length_le (by simp [NctussEmuRequest.size, MAXNAME])]

@[simp] theorem requestOf_encode (r : NctussEmuRequest) (d : Bytes) :
    requestOf (r.encode ++ d) = r := by
  rw [requestOf, take_encode, NctussEmuRequest.decode_encode]

theorem readable_encode (r : NctussEmuRequest) (d : Bytes) : Readable (r.encode ++ d) := by
  rw [Readable, take_encode]
  simp

theorem time64_eq {t : ℤ} (h1 : r.data1 = toU32 (t / 2 ^ 32)) (h2 : r.data2 = toU32 t)
    (h0 : 0 ≤ t) (h : t ≤ LONG_MAX) : Server.time64 r = t := by
  rw [LONG_MAX] at h
  rw [Server.time64, h1, h2, join_split h0 (by omega)]
  exact toLong_of_fits (by omega) (by omega)

namespace Server

structure Served (s' : Server) (r : NctussEmuRequest) (type : NctussEmuReplyType)
    (sim : MySSDSim) (counter : ℤ) (memory : ℕ → UInt8) : Prop where
  answers : Answers s' r.id
  type : s'.reply.type = type.code
  mySSDSim : s'.mySSDSim = sim
  currentMaxRequestId : s'.currentMaxRequestId = counter
  memoryStorage : s'.memoryStorage = memory

variable {s : Server} {sim : MySSDSim}

theorem answer_served (t : NctussEmuReplyType) (sim : MySSDSim) (counter : ℤ) (memory : ℕ → UInt8)
    (hid : s.reply.id = r.id) (ht : s.reply.type = t.code) (hs : s.mySSDSim = sim)
    (hc : s.currentMaxRequestId = counter) (hm : s.memoryStorage = memory) :
    ∃ s', s.answer r = .loop s' (some s'.datagram) ∧ Served s' r t sim counter memory ∧
      s'.reply.data1 = s.reply.data1 ∧ s'.reply.data2 = s.reply.data2 ∧
      s'.reply.data3 = s.reply.data3 ∧ s'.reply.ioRequestIds = s.reply.ioRequestIds ∧
      s'.replyData = s.replyData ∧
      s'.replyLength = if r.type = NctussEmuRequestType.readWriteData.code ∧ r.data1 = 0 then
        SECTOR_SIZE + NctussEmuReply.size else NctussEmuReply.size := by
  refine ⟨_, rfl, ⟨⟨hid, hid, ?_⟩, ht, hs, hc, hm⟩, rfl, rfl, rfl, rfl, rfl, rfl⟩
  dsimp only
  split <;> simp [SECTOR_SIZE, NctussEmuReply.size]

theorem dispatch_reset (buf : Bytes) (ht : r.type = NctussEmuRequestType.reset.code) :
    s.dispatch r buf = (s.replyWith .ok r.id).answer r := by
  rw [dispatch, ht, NctussEmuRequestType.ofCode_code]

theorem dispatch_unknown (buf : Bytes) (ht : NctussEmuRequestType.ofCode r.type = none) :
    s.dispatch r buf = s.answer r := by
  rw [dispatch, ht]

theorem dispatch_shortWrite {buf : Bytes} (ht : r.type = NctussEmuRequestType.readWriteData.code)
    (h1 : r.data1 ≠ 0) (hl : buf.length < NctussEmuRequest.size + SECTOR_SIZE) :
    s.dispatch r buf = .loop s none := by
  rw [dispatch, ht, NctussEmuRequestType.ofCode_code]
  dsimp only
  rw [if_neg h1, if_pos hl]

theorem receive_new_encode (hd : d.length ≤ SECTOR_SIZE)
    (ht : r.type ≠ NctussEmuRequestType.reset.code) (hc : r.idCheck = r.id)
    (hid : s.currentMaxRequestId < r.id.toNat) :
    s.receive (r.encode ++ d) =
      { s with currentMaxRequestId := r.id.toNat }.dispatch r (r.encode ++ d) := by
  have hr := requestOf_encode r d
  rw [receive_new (readable_encode r d) (by rwa [IsReset, hr]) (by rwa [hr]) (by rw [hr, hc]),
    hr, take_datagram hd]

theorem receive_reset_encode (ht : r.type = NctussEmuRequestType.reset.code)
    (hs : s.mySSDSim.setup r.data1.toNat r.data2.toNat r.data3.toNat = some sim) :
    ∃ s', s.receive r.encode = .loop s' (some s'.datagram) ∧
      Served s' r .ok sim 0 s.memoryStorage := by
  have hr := requestOf_encode r []
  rw [List.append_nil] at hr
  have hread := readable_encode r []
  rw [List.append_nil] at hread
  rw [receive_reset hread (by rw [IsReset, hr, ht]), hr, hs]
  dsimp only
  rw [dispatch_reset _ ht]
  obtain ⟨s', h, hs, -⟩ := answer_served (r := r) .ok sim 0 s.memoryStorage
    (s := .replyWith
      { s with mySSDSim := sim, totals := ⟨0, 0, 0⟩, currentMaxRequestId := 0 } .ok r.id)
    rfl rfl rfl rfl rfl
  exact ⟨s', h, hs⟩

theorem dispatch_submitReqeust (buf : Bytes)
    (ht : r.type = NctussEmuRequestType.submitReqeust.code) : s.dispatch r buf =
      match s.mySSDSim.submitRequest s.totals (time64 r) r.data3.toNat r.data4.toNat
          r.data5.toNat r.data6.toNat with
      | none => .hang .sizeClass
      | some (ret, sim, totals) =>
        ({ s with mySSDSim := sim, totals := totals }.replyWith
          (if ret < 0 then .error else .ok) r.id).answer r := by
  rw [dispatch, ht]
  exact rfl

theorem dispatch_getNextResponses (buf : Bytes)
    (ht : r.type = NctussEmuRequestType.getNextResponses.code) : s.dispatch r buf =
      (({ s with mySSDSim := (s.mySSDSim.getNextResponses (time64 r)).1 }.replyWith
        .ok r.id).withResponses (s.mySSDSim.nextResponses (time64 r))).answer r := by
  rw [dispatch, ht, NctussEmuRequestType.ofCode_code]
  dsimp only
  rw [MySSDSim.getNextResponses_snd]

theorem receive_submitReqeust {c : ℤ} {totals : Totals}
    (ht : r.type = NctussEmuRequestType.submitReqeust.code) (hc : r.idCheck = r.id)
    (hid : s.currentMaxRequestId < r.id.toNat)
    (hs : s.mySSDSim.submitRequest s.totals (time64 r) r.data3.toNat r.data4.toNat r.data5.toNat
      r.data6.toNat = some (c, sim, totals)) :
    ∃ s', s.receive r.encode = .loop s' (some s'.datagram) ∧
      Served s' r (if c < 0 then .error else .ok) sim r.id.toNat s.memoryStorage := by
  have h := receive_new_encode (s := s) (d := []) (Nat.zero_le _) (by rw [ht]; decide) hc hid
  rw [List.append_nil] at h
  rw [h, dispatch_submitReqeust _ ht, hs]
  dsimp only
  obtain ⟨s', h, hs, -⟩ := answer_served (r := r) (if c < 0 then .error else .ok) sim
    r.id.toNat s.memoryStorage
    (s := { s with
      currentMaxRequestId := r.id.toNat, mySSDSim := sim, totals := totals }.replyWith
        (if c < 0 then .error else .ok) r.id) rfl rfl rfl rfl rfl
  exact ⟨s', h, hs⟩

theorem receive_submitReqeust_loop {s' : Server} {sent : Option Bytes}
    (ht : r.type = NctussEmuRequestType.submitReqeust.code) (hc : r.idCheck = r.id)
    (hid : s.currentMaxRequestId < r.id.toNat) (h : s.receive r.encode = .loop s' sent) :
    s'.currentMaxRequestId = r.id.toNat ∧ s'.memoryStorage = s.memoryStorage ∧
      ∃ c totals, s.mySSDSim.submitRequest s.totals (time64 r) r.data3.toNat r.data4.toNat
        r.data5.toNat r.data6.toNat = some (c, s'.mySSDSim, totals) := by
  rcases hs : s.mySSDSim.submitRequest s.totals (time64 r) r.data3.toNat r.data4.toNat
    r.data5.toNat r.data6.toNat with _ | ⟨c, sim, totals⟩
  · have hnew := receive_new_encode (s := s) (d := []) (Nat.zero_le _) (by rw [ht]; decide) hc hid
    rw [List.append_nil] at hnew
    rw [hnew, dispatch_submitReqeust _ ht, hs] at h
    cases h
  · obtain ⟨s₁, h₁, hserved⟩ := receive_submitReqeust ht hc hid hs
    rw [h₁, Outcome.loop.injEq] at h
    obtain ⟨rfl, -⟩ := h
    exact ⟨hserved.currentMaxRequestId, hserved.memoryStorage, c, totals, by rw [hserved.mySSDSim]⟩

theorem receive_getNextResponses (ht : r.type = NctussEmuRequestType.getNextResponses.code)
    (hc : r.idCheck = r.id) (hid : s.currentMaxRequestId < r.id.toNat) :
    ∃ s', s.receive r.encode = .loop s' (some s'.datagram) ∧
      Served s' r .ok (s.mySSDSim.getNextResponses (time64 r)).1 r.id.toNat s.memoryStorage ∧
      let next := s.mySSDSim.nextResponses (time64 r)
      s'.reply.data1 = toU32 next.numResponse ∧ s'.reply.data2 = toU32 (next.time / 2 ^ 32) ∧
      s'.reply.data3 = toU32 next.time ∧ ∀ i : ℕ, (i : ℤ) < next.numResponse →
        s'.reply.ioRequestIds i = toU32 (next.ioRequestIds.getD i 0) := by
  have h := receive_new_encode (s := s) (d := []) (Nat.zero_le _) (by rw [ht]; decide) hc hid
  rw [List.append_nil] at h
  rw [h, dispatch_getNextResponses _ ht]
  dsimp only
  generalize (s.mySSDSim.getNextResponses (time64 r)).1 = sim
  generalize s.mySSDSim.nextResponses (time64 r) = next
  obtain ⟨s', h, hs, h1, h2, h3, hi, -⟩ := answer_served (r := r) .ok sim r.id.toNat s.memoryStorage
    (s := ({ s with currentMaxRequestId := r.id.toNat, mySSDSim := sim }.replyWith
      .ok r.id).withResponses next)
    (by rw [withResponses_reply_id, replyWith_reply_id])
    (by rw [withResponses_reply_type, replyWith_reply_type])
    (by rw [withResponses_mySSDSim, replyWith_mySSDSim])
    (by rw [withResponses_currentMaxRequestId, replyWith_currentMaxRequestId])
    (by rw [withResponses_memoryStorage, replyWith_memoryStorage])
  rw [withResponses_reply_data1] at h1
  rw [withResponses_reply_data2] at h2
  rw [withResponses_reply_data3] at h3
  refine ⟨s', h, hs, h1, h2, h3, fun i hlt ↦ ?_⟩
  rw [hi]
  exact withResponses_reply_ioRequestIds _ _ hlt

theorem receive_read (ht : r.type = NctussEmuRequestType.readWriteData.code) (h0 : r.data1 = 0)
    (hc : r.idCheck = r.id) (hid : s.currentMaxRequestId < r.id.toNat) :
    ∃ s', s.receive r.encode = .loop s' (some s'.datagram) ∧
      Served s' r .ok s.mySSDSim r.id.toNat s.memoryStorage ∧
      s'.replyData = s.getSector r.data2.toNat ∧
      s'.replyLength = SECTOR_SIZE + NctussEmuReply.size := by
  have h := receive_new_encode (s := s) (d := []) (Nat.zero_le _) (by rw [ht]; decide) hc hid
  rw [List.append_nil] at h
  rw [h, dispatch, ht, NctussEmuRequestType.ofCode_code]
  dsimp only
  rw [if_pos h0]
  obtain ⟨s', h, hs, -, -, -, -, hd, hl⟩ := answer_served (r := r) .ok s.mySSDSim r.id.toNat
    s.memoryStorage
    (s := { s with
      currentMaxRequestId := r.id.toNat
      replyData := s.getSector r.data2.toNat }.replyWith .ok r.id)
    (by simp) (by simp) (by simp) (by simp) (by simp)
  simp only [replyWith_replyData] at hd
  refine ⟨s', h, hs, hd, ?_⟩
  rw [hl, if_pos ⟨ht, h0⟩]

theorem receive_write (ht : r.type = NctussEmuRequestType.readWriteData.code) (h1 : r.data1 ≠ 0)
    (hd : d.length = SECTOR_SIZE) (hc : r.idCheck = r.id)
    (hid : s.currentMaxRequestId < r.id.toNat) :
    ∃ s', s.receive (r.encode ++ d) = .loop s' (some s'.datagram) ∧
      Served s' r .ok s.mySSDSim r.id.toNat
        (blit s.memoryStorage (r.data2.toNat * SECTOR_SIZE) d) := by
  rw [receive_new_encode hd.le (by rw [ht]; decide) hc hid, dispatch, ht,
    NctussEmuRequestType.ofCode_code]
  dsimp only
  have hdata : ((r.encode ++ d).drop NctussEmuRequest.size).take SECTOR_SIZE = d := by
    rw [List.drop_left' (NctussEmuRequest.encode_length r), List.take_of_length_le hd.le]
  have hlen : ¬ (r.encode ++ d).length < NctussEmuRequest.size + SECTOR_SIZE := by
    rw [List.length_append, NctussEmuRequest.encode_length, hd]
    exact lt_irrefl _
  rw [if_neg h1, if_neg hlen, hdata]
  obtain ⟨s', h, hs, -⟩ := answer_served (r := r) .ok s.mySSDSim r.id.toNat
    (blit s.memoryStorage (r.data2.toNat * SECTOR_SIZE) d)
    (s := ({ s with currentMaxRequestId := r.id.toNat }.putSector r.data2.toNat d).replyWith
      .ok r.id) rfl rfl rfl rfl rfl
  exact ⟨s', h, hs⟩

end Server

end Nctusde.UdpServer

import Nctusde.EmulatorKernel.System

namespace Nctusde.EmulatorKernel

open BlockLayer Library Library.Memory Network UdpServer Wire

variable {top : ℤ} {E : Trap → Prop} {d : Emudisk} {w w' : World} {now c : ℤ}

namespace World

def counter (w : World) : ℤ := w.server.currentMaxRequestId

end World

structure Ahead (d : Emudisk) (w : World) : Prop where
  nonneg : 0 ≤ w.counter
  lt : d.udpSendReplyId ≠ 0 → w.counter < d.udpSendReplyId.toNat
  pos : d.udpSendReplyId = 0 → 0 < w.counter

theorem toNat_succ {n : UInt32} (h : n + 1 ≠ 0) : (n + 1).toNat = n.toNat + 1 := by
  have hne : (n + 1).toNat ≠ 0 := fun h0 ↦ h (UInt32.toNat_inj.mp h0)
  have hlt := n.toNat_lt
  simp only [UInt32.toNat_add, UInt32.reduceToNat] at hne ⊢
  omega

theorem Ahead.numbered {w' : World} (h : w'.counter = d.udpSendReplyId.toNat)
    (hid : d.udpSendReplyId ≠ 0) : Ahead d.numbered w' := by
  have hpos : d.udpSendReplyId.toNat ≠ 0 := fun h0 ↦ hid (UInt32.toNat_inj.mp h0)
  refine ⟨?_, fun hne ↦ ?_, fun _ ↦ ?_⟩
  · rw [h]
    exact Int.natCast_nonneg _
  · rw [h, show d.numbered.udpSendReplyId.toNat = _ from toNat_succ hne]
    exact_mod_cast Nat.lt_succ_self _
  · rw [h]
    exact Int.natCast_pos.mpr (Nat.pos_of_ne_zero hpos)

theorem Ahead.same {d' : Emudisk} {w' : World} (h : Ahead d w)
    (hid : d'.udpSendReplyId = d.udpSendReplyId) (hc : w'.counter = w.counter) : Ahead d' w' :=
  ⟨hc ▸ h.nonneg, hid ▸ hc ▸ h.lt, hid ▸ hc ▸ h.pos⟩

/-- What the driver relies on in the world around it, and what it owes in return: only
a message whose id has wrapped to 0 may go unserved. -/
def owed (top : ℤ) : Contract World Op Ans where
  admits := (exchanging top).admits
  requires
    | w, .communicate request data => (request.id ≠ 0 → w.Welcomes request data) ∧
      (request.id = 0 → w.server.receive (datagramOf request data) = .hang .staleId)
    | _, .ktimeGet => True
    | _, .hrtimerExpired _ => True
  ensures := (exchanging top).answers

theorem keeps_exchanging (top : ℤ) : Program.Keeps (exchanging top) (owed top) Eq where
  admits := by
    rintro v _ o rfl ha
    exact ha
  ensures := by
    rintro v _ o a v' rfl _ _ ha
    exact ⟨v', ha, rfl⟩

theorem keeps_reliable (top : ℤ) : Program.Keeps (reliable top) (owed top) Eq where
  admits := by
    rintro v _ o rfl ha
    cases o with
    | communicate request data => exact ha.2
    | ktimeGet => trivial
    | hrtimerExpired time => trivial
  ensures := by
    rintro v _ o a v' rfl _ _ ha
    exact ⟨v', ha, rfl⟩

structure Quiet (w w' : World) : Prop where
  sim : MySSDSim.SameChannels w.sim w'.sim
  now : w'.now = w.now
  passed : w'.passed = w.passed
  given : w'.given = w.given
  counter : w.counter ≤ w'.counter

theorem Quiet.refl (w : World) : Quiet w w := ⟨.refl _, rfl, rfl, rfl, le_rfl⟩

theorem Quiet.trans {w'' : World} (h : Quiet w w') (h' : Quiet w' w'') : Quiet w w'' :=
  ⟨h.sim.trans h'.sim, h'.now.trans h.now, h'.passed.trans h.passed, h'.given.trans h.given,
    h.counter.trans h'.counter⟩

/-- A submission at `t` that the emulator put on channel `i`, to complete at `c`. -/
structure Accepts (top t : ℤ) (n : UInt32) (i : ℕ) (c : ℤ) (w w' : World) : Prop where
  channels : w'.sim.channels = w.sim.channels
  speedFactor : w'.sim.speedFactor = w.sim.speedFactor
  ioRequestId : w'.sim.ioRequestId i = n.toNat
  completionTime : w'.sim.completionTime i = c
  other : ∀ j, j ≠ i → w'.sim.ssdChannels j = w.sim.ssdChannels j
  later : t ≤ c
  bounded : c ≤ top
  given : w'.given = w.given ++ [(n, c)]
  now : w'.now = w.now
  passed : w'.passed = w.passed
  new : w.counter < n.toNat
  counter : w'.counter = n.toNat

theorem requestOf_datagram (r : NctussEmuRequest) (data : Bytes) :
    requestOf (datagramOf r data) = { r with idCheck := r.id } := requestOf_encode _ _

theorem receive_zero {r : NctussEmuRequest} {data : Bytes} (hid : r.id = 0)
    (htype : r.type ≠ NctussEmuRequestType.reset.code) (hpos : 0 < w.counter) :
    w.server.receive (datagramOf r data) = .hang .staleId := by
  have hreset : ¬ IsReset (datagramOf r data) := by
    rw [IsReset, requestOf_datagram]
    exact htype
  refine Server.receive_stale (readable_encode _ _) hreset ?_
  rw [requestOf_datagram, show ({ r with idCheck := r.id } : NctussEmuRequest).id = 0 from hid]
  exact hpos

theorem World.Receives.not_hang {r : NctussEmuRequest} {data b : Bytes} {trap : UdpServer.Trap}
    (h : w.Receives r data b w') : w.server.receive (datagramOf r data) ≠ .hang trap := by
  obtain ⟨server', hrec, -, -⟩ := h
  rw [hrec]
  exact fun heq ↦ nomatch heq

theorem wp_communicate {Q : Bytes → World → Prop} {r : NctussEmuRequest} {data : Bytes}
    (hahead : Ahead d w) (hid : r.id = d.udpSendReplyId)
    (htype : r.type ≠ NctussEmuRequestType.reset.code)
    (h : d.udpSendReplyId ≠ 0 → w.counter < r.id.toNat → Fits top w.sim r → ∃ server' b,
      w.server.receive (datagramOf r data) = .loop server' (some b) ∧
      (NctussEmuReply.decode b).id = r.id ∧
      (r.type = NctussEmuRequestType.submitReqeust.code → w.Admits r) ∧ Q b { w with
        server := server'
        given := w.given ++ granted w.server.mySSDSim server'.mySSDSim r }) :
    (communicateWithEmulator r data).wp (owed top) E Q w := by
  intro ha
  by_cases h0 : r.id = 0
  · have hstale : w.server.receive (datagramOf r data) = .hang .staleId :=
      receive_zero h0 htype (hahead.pos (hid.symm.trans h0))
    exact ⟨⟨fun hne ↦ absurd h0 hne, fun _ ↦ hstale⟩, fun (b : Bytes) w' hans ↦
      absurd hstale (World.Receives.not_hang hans)⟩
  have hne : d.udpSendReplyId ≠ 0 := hid ▸ h0
  have hnew : w.counter < r.id.toNat := hid ▸ hahead.lt hne
  obtain ⟨server', b, hrec, hreply, hadmits, hQ⟩ := h hne hnew ha
  refine ⟨⟨fun _ ↦ ⟨hnew, ⟨b, _, server', hrec, hreply, rfl⟩, hadmits⟩, fun hz ↦ absurd hz h0⟩,
    fun (b' : Bytes) w' hans ↦ ?_⟩
  obtain ⟨server'', hrec', -, rfl⟩ := hans
  have hloop := hrec.symm.trans hrec'
  rw [Outcome.loop.injEq, Option.some.injEq] at hloop
  obtain ⟨rfl, rfl⟩ := hloop
  exact hQ

theorem readWrite_ne_reset :
    NctussEmuRequestType.readWriteData.code ≠ NctussEmuRequestType.reset.code := by decide

theorem readWrite_ne_submit :
    NctussEmuRequestType.readWriteData.code ≠ NctussEmuRequestType.submitReqeust.code := by decide

theorem granted_of_ne {s s' : MySSDSim} {r : NctussEmuRequest}
    (h : r.type ≠ NctussEmuRequestType.submitReqeust.code) : granted s s' r = [] :=
  if_neg fun hg ↦ h hg.1

theorem toNat_toU32_natCast {n : ℕ} (h : n < 2 ^ 32) : (toU32 n).toNat = n := by
  have := toNat_toU32 n
  omega

theorem datagramOf_nil (r : NctussEmuRequest) :
    datagramOf r [] = ({ r with idCheck := r.id } : NctussEmuRequest).encode := List.append_nil _

theorem wp_emulatorSubmitRequest {Q : Emudisk → World → Prop} {dir : DataDir} {sector count i : ℕ}
    {n : UInt32} (hn : n = d.udpSendReplyId) (hahead : Ahead d w) (h0 : 0 ≤ now)
    (hnow : now ≤ LONG_MAX)
    (hold : w.sim.oldestChannel = (w.sim.completionTime i, some i))
    (hlt : w.sim.completionTime i < now) (hcount : count ≤ MAX_REQUEST_SECTOR_NUM)
    (hspeed : 0 ≤ w.sim.speedFactor) (htop : top ≤ LONG_MAX)
    (hunused : n ∉ w.given.map (·.1))
    (h : ∀ w' c, Accepts top now n i c w w' → Ahead d.numbered w' → Q d.numbered w') :
    (d.emulatorSubmitRequest now dir sector count n).wp (owed top) E Q w := by
  have htime : Server.time64 (d.submitReqeust now dir sector count n) = now := by
    have hu : toU64 now = now := toU64_of_fits h0 (by rw [LONG_MAX] at hnow; omega)
    exact time64_eq (congrArg (fun t ↦ toU32 (t / 2 ^ 32)) hu) (congrArg toU32 hu) h0 hnow
  have hcount' : ((d.submitReqeust now dir sector count n).data5.toNat : ℤ) = count := by
    rw [MAX_REQUEST_SECTOR_NUM] at hcount
    exact_mod_cast toNat_toU32_natCast (n := count) (by omega)
  have htype : (d.submitReqeust now dir sector count n).type =
    NctussEmuRequestType.submitReqeust.code := rfl
  have hid : (d.submitReqeust now dir sector count n).id = d.udpSendReplyId := rfl
  have hio : (d.submitReqeust now dir sector count n).data6 = n := rfl
  rw [Emudisk.emulatorSubmitRequest, Program.bind_eq, Program.wp_bind]
  generalize d.submitReqeust now dir sector count n = r at htime hcount' htype hid hio ⊢
  refine wp_communicate hahead hid (htype ▸ by decide) fun hne hnew hfits ↦ ?_
  obtain ⟨k, hk⟩ : ∃ k, requestSizeIndex (toInt (r.data5.toNat * SECTOR_SIZE)) = some k := by
    apply requestSizeIndex_isSome
    rw [hcount', SECTOR_SIZE]
    rw [MAX_REQUEST_SECTOR_NUM] at hcount
    rw [toInt_of_fits (by omega) (by omega)]
    omega
  obtain ⟨sim', totals', hacc, has⟩ := w.sim.submitRequest_accepted w.server.totals now
    r.data3.toNat r.data4.toNat r.data5.toNat r.data6.toNat hold hlt hk
  obtain ⟨s', hs', hserved⟩ := Server.receive_submitReqeust (r := { r with idCheck := r.id })
    (s := w.server) (c := 0) htype rfl hnew
    (by rw [← hacc, ← htime]; rfl)
  have hgranted : granted w.server.mySSDSim s'.mySSDSim r = [(n, sim'.completionTime i)] := by
    have hold' : w.server.mySSDSim.oldestChannel = _ := hold
    rw [granted, if_pos ⟨htype, by rw [hold', htime]; exact hlt⟩, hold', hserved.mySSDSim, hio]
    rfl
  have hc : sim'.completionTime i = now + w.sim.serviceTime
      (w.sim.isSequentialRequest r.data3.toNat r.data4.toNat) r.data3.toNat k := by
    have hb := (w.sim.serviceTime_bounds (w.sim.isSequentialRequest r.data3.toNat r.data4.toNat)
      r.data3.toNat (requestSizeIndex_lt hk) hspeed).1
    have hf := hfits htype k hk
    rw [htime] at hf
    rw [LONG_MAX] at htop
    rw [has.completionTime_self]
    exact toLong_of_fits (by omega) (by omega)
  have hsim : World.sim { w with
      server := s'
      given := w.given ++ granted w.server.mySSDSim s'.mySSDSim r } = sim' := hserved.mySSDSim
  have hcounter : s'.currentMaxRequestId = d.udpSendReplyId.toNat :=
    hserved.currentMaxRequestId.trans (by rw [← hid])
  refine ⟨s', s'.datagram, datagramOf_nil r ▸ hs', hserved.answers.decode.1,
    fun _ ↦ ⟨⟨0, sim', totals', le_rfl, htime ▸ hacc⟩, hio ▸ hn ▸ hne, hio ▸ hunused⟩, ?_⟩
  refine h _ (sim'.completionTime i) ⟨?_, ?_, ?_, ?_, fun j hj ↦ ?_, ?_, ?_, ?_, rfl, rfl,
    hn ▸ hid ▸ hnew, hn ▸ hcounter⟩ (Ahead.numbered hcounter hne)
  · rw [hsim, has.channels]
  · rw [hsim, has.speedFactor]
  · rw [hsim, has.ioRequestId_self, ← hio]
    rfl
  · rw [hsim]
  · rw [hsim, has.other hj]
  · rw [hc]
    have := (w.sim.serviceTime_bounds (w.sim.isSequentialRequest r.data3.toNat r.data4.toNat)
      r.data3.toNat (requestSizeIndex_lt hk) hspeed).1
    omega
  · rw [hc]
    have := hfits htype k hk
    rwa [htime] at this
  · rw [← hgranted]

structure Reports (r : MySSDSim.Responses) (next : NextResponses) : Prop where
  num : next.num = r.numResponse
  time : next.time = r.time
  ids : ∀ i < next.num, next.ids i = toU32 (r.ioRequestIds.getD i 0)

theorem nextResponses_bounds (sim : MySSDSim) {t : ℤ} (h0 : 0 ≤ t)
    (hcount : sim.count ≤ MAX_DISK_REQUESTS_IN_PARALLEL) :
    (0 ≤ (sim.nextResponses t).numResponse ∧
      (sim.nextResponses t).numResponse ≤ MAX_DISK_REQUESTS_IN_PARALLEL) ∧
      0 ≤ (sim.nextResponses t).time ∧ (sim.nextResponses t).time < 2 ^ 63 := by
  rcases sim.nextResponses_spec t with ⟨i, -, hlt, hmax, -, heq⟩ | ⟨-, heq⟩
  · have hlen : (sim.completingAt (sim.completionTime i)).length ≤ sim.count :=
      Library.Table.entries_length_le _ _
    rw [heq]
    rw [LONG_MAX] at hmax
    dsimp only
    omega
  · rw [heq]
    decide

theorem readResponses_datagram {s : Server} {n : UInt32} (h : Server.Answers s n)
    (ht : s.reply.type = NctussEmuReplyType.ok.code)
    (hn : s.reply.data1.toNat ≤ MAX_DISK_REQUESTS_IN_PARALLEL) :
    ∃ next, Emudisk.readResponses (.decode s.datagram) = .pure next ∧
      next.num = s.reply.data1.toNat ∧
      next.time = s.reply.data2.toNat * 2 ^ 32 + s.reply.data3.toNat ∧
      ∀ i < next.num, next.ids i = s.reply.ioRequestIds i := by
  have hids {i : ℕ} (hi : i < s.reply.data1.toNat) : i < MAX_EMULATOR_CHANNELS := by
    rw [MAX_DISK_REQUESTS_IN_PARALLEL] at hn
    rw [MAX_EMULATOR_CHANNELS]
    omega
  rw [h.datagram]
  generalize s.replyData.take (s.replyLength - NctussEmuReply.size) = tail
  refine ⟨⟨s.reply.data1.toNat, s.reply.data2.toNat * 2 ^ 32 + s.reply.data3.toNat,
    (NctussEmuReply.decode (s.reply.encode ++ tail)).ioRequestIds⟩, ?_, rfl, rfl,
    fun i hi ↦ NctussEmuReply.decode_encode_ioRequestIds _ _ (hids hi)⟩
  rw [Emudisk.readResponses, NctussEmuReply.decode_encode_type, NctussEmuReply.decode_encode_data1,
    NctussEmuReply.decode_encode_data2, NctussEmuReply.decode_encode_data3,
    if_neg (not_not.mpr ht), if_neg (Nat.not_lt.mpr hn)]

/-- A batch goes through the reply unchanged, up to the ids being words on the driver's side. -/
theorem receive_reports {s : Server} {t : ℤ} (h0 : 0 ≤ t) (ht : t ≤ LONG_MAX)
    (hcount : s.mySSDSim.count ≤ MAX_DISK_REQUESTS_IN_PARALLEL)
    (hnew : s.currentMaxRequestId < d.udpSendReplyId.toNat) :
    ∃ s' next, s.receive (datagramOf (d.getNextResponses t) []) = .loop s' (some s'.datagram) ∧
      Server.Served s' { d.getNextResponses t with idCheck := d.udpSendReplyId } .ok
        (s.mySSDSim.getNextResponses t).1 d.udpSendReplyId.toNat s.memoryStorage ∧
      Emudisk.readResponses (.decode s'.datagram) = .pure next ∧
      Reports (s.mySSDSim.nextResponses t) next := by
  have htime : Server.time64 { d.getNextResponses t with idCheck := d.udpSendReplyId } = t :=
    time64_eq rfl rfl h0 ht
  obtain ⟨s', hs', hserved, h1, h2, h3, hids⟩ := Server.receive_getNextResponses
    (r := { d.getNextResponses t with idCheck := d.udpSendReplyId }) (s := s) rfl rfl hnew
  rw [htime] at h1 h2 h3 hids hserved
  obtain ⟨⟨hn0, hn8⟩, ht0, ht63⟩ := nextResponses_bounds s.mySSDSim h0 hcount
  generalize s.mySSDSim.nextResponses t = responses at h1 h2 h3 hids hn0 hn8 ht0 ht63
  have hnum : (s'.reply.data1.toNat : ℤ) = responses.numResponse := by
    rw [h1, toNat_toU32]
    rw [MAX_DISK_REQUESTS_IN_PARALLEL] at hn8
    omega
  have hsum : (s'.reply.data2.toNat : ℤ) * 2 ^ 32 + s'.reply.data3.toNat = responses.time := by
    rw [h2, h3]
    exact join_split ht0 (by omega)
  obtain ⟨next, hread, hn, ht, hi⟩ := readResponses_datagram hserved.answers hserved.type (by omega)
  refine ⟨s', next, datagramOf_nil _ ▸ hs', hserved, hread, ?_, ?_, fun i hlt ↦ ?_⟩
  · rw [hn, hnum]
  · rw [ht, hsum]
  · rw [hi i hlt, hids i (by omega)]

theorem wp_emulatorGetResponses {Q : Emudisk × NextResponses → World → Prop} {t : ℤ}
    (hahead : Ahead d w) (h0 : 0 ≤ t) (ht : t ≤ LONG_MAX)
    (hcount : w.sim.count ≤ MAX_DISK_REQUESTS_IN_PARALLEL)
    (h : ∀ w' next, Quiet w w' → Ahead d.numbered w' → Reports (w.sim.nextResponses t) next →
      Q (d.numbered, next) w') :
    (d.emulatorGetResponses t).wp (owed top) E Q w := by
  have htype : (d.getNextResponses t).type = NctussEmuRequestType.getNextResponses.code := rfl
  rw [Emudisk.emulatorGetResponses, Program.bind_eq, Program.wp_bind]
  refine wp_communicate hahead rfl (htype ▸ by decide) fun hne hnew _ ↦ ?_
  obtain ⟨s', next, hs', hserved, hread, hreports⟩ := receive_reports h0 ht hcount hnew
  have hgranted : granted w.server.mySSDSim s'.mySSDSim (d.getNextResponses t) = [] :=
    granted_of_ne (by rw [htype]; decide)
  have hcounter : s'.currentMaxRequestId = d.udpSendReplyId.toNat := hserved.currentMaxRequestId
  refine ⟨s', s'.datagram, hs', hserved.answers.decode.1,
    fun hs ↦ absurd (htype.symm.trans hs) (by decide), ?_⟩
  rw [hread]
  refine h _ next ⟨?_, rfl, rfl, ?_, hnew.le.trans hcounter.ge⟩ (Ahead.numbered hcounter hne)
    hreports
  · have hsim : World.sim { w with
        server := s'
        given := w.given ++ granted w.server.mySSDSim s'.mySSDSim (d.getNextResponses t) } =
          (w.sim.getNextResponses t).1 := hserved.mySSDSim
    rw [hsim]
    exact w.sim.sameChannels_getNextResponses t
  · rw [hgranted, List.append_nil]

structure SameRequests (d d' : Emudisk) : Prop where
  diskChannels : d'.diskChannels = d.diskChannels
  requestInflight : d'.requestInflight = d.requestInflight
  nextResponseToReplyTime : d'.nextResponseToReplyTime = d.nextResponseToReplyTime
  nextResponseToReplyNum : d'.nextResponseToReplyNum = d.nextResponseToReplyNum
  nextResponseToReplyIds : d'.nextResponseToReplyIds = d.nextResponseToReplyIds
  latestResponseTime : d'.latestResponseTime = d.latestResponseTime
  mapping : ∀ i, (d'.requestIdToReqMapping i).requestId = (d.requestIdToReqMapping i).requestId ∧
    (d'.requestIdToReqMapping i).req = (d.requestIdToReqMapping i).req

namespace SameRequests

variable {d' d'' : Emudisk}

theorem refl (d : Emudisk) : SameRequests d d := ⟨rfl, rfl, rfl, rfl, rfl, rfl, fun _ ↦ ⟨rfl, rfl⟩⟩

theorem trans (h : SameRequests d d') (h' : SameRequests d' d'') : SameRequests d d'' where
  diskChannels := h'.diskChannels.trans h.diskChannels
  requestInflight := h'.requestInflight.trans h.requestInflight
  nextResponseToReplyTime := h'.nextResponseToReplyTime.trans h.nextResponseToReplyTime
  nextResponseToReplyNum := h'.nextResponseToReplyNum.trans h.nextResponseToReplyNum
  nextResponseToReplyIds := h'.nextResponseToReplyIds.trans h.nextResponseToReplyIds
  latestResponseTime := h'.latestResponseTime.trans h.latestResponseTime
  mapping i := ⟨(h'.mapping i).1.trans (h.mapping i).1, (h'.mapping i).2.trans (h.mapping i).2⟩

theorem count (h : SameRequests d d') : d'.count = d.count := by
  rw [Emudisk.count, Emudisk.count, h.diskChannels]

end SameRequests

theorem sameRequests_numbered (d : Emudisk) : SameRequests d d.numbered :=
  ⟨rfl, rfl, rfl, rfl, rfl, rfl, fun _ ↦ ⟨rfl, rfl⟩⟩

@[simp] theorem withEntry_same (d : Emudisk) (slot : ℕ) (entry : RequestIdToReq) :
    (d.withEntry slot entry).requestIdToReqMapping slot = entry := Function.update_self ..

theorem withEntry_other (d : Emudisk) {slot i : ℕ} (entry : RequestIdToReq) (h : i ≠ slot) :
    (d.withEntry slot entry).requestIdToReqMapping i = d.requestIdToReqMapping i :=
  Function.update_of_ne h ..

theorem sameRequests_withData (d : Emudisk) (slot : ℕ) (data : ℕ → UInt8) :
    SameRequests d (d.withData slot data) := by
  refine ⟨rfl, rfl, rfl, rfl, rfl, rfl, fun i ↦ ?_⟩
  by_cases hi : i = slot
  · rw [hi, Emudisk.withData, withEntry_same]
    exact ⟨rfl, rfl⟩
  · rw [Emudisk.withData, withEntry_other _ _ hi]
    exact ⟨rfl, rfl⟩

theorem receive_sectorWrite {s : Server} {n : ℕ} {data : Bytes} (hdata : data.length = SECTOR_SIZE)
    (hnew : s.currentMaxRequestId < d.udpSendReplyId.toNat) :
    ∃ s', s.receive (datagramOf (d.readWriteData .write n) data) = .loop s' (some s'.datagram) ∧
      Server.Served s' { d.readWriteData .write n with idCheck := d.udpSendReplyId } .ok s.mySSDSim
        d.udpSendReplyId.toNat
        (blit s.memoryStorage ((toU32 (n : ℤ)).toNat * SECTOR_SIZE) data) :=
  Server.receive_write (r := { d.readWriteData .write n with idCheck := d.udpSendReplyId })
    rfl (show toU32 (DataDir.write.code) ≠ 0 by decide) hdata rfl hnew

theorem receive_sectorRead {s : Server} {n : ℕ}
    (hnew : s.currentMaxRequestId < d.udpSendReplyId.toNat) :
    ∃ s', s.receive (datagramOf (d.readWriteData .read n) []) = .loop s' (some s'.datagram) ∧
      Server.Served s' { d.readWriteData .read n with idCheck := d.udpSendReplyId } .ok s.mySSDSim
        d.udpSendReplyId.toNat s.memoryStorage ∧
      (s'.datagram.drop NctussEmuReply.size).take SECTOR_SIZE =
        s.getSector (toU32 (n : ℤ)).toNat := by
  obtain ⟨s', hs', hserved, hdata, hlength⟩ := Server.receive_read (s := s)
    (r := { d.readWriteData .read n with idCheck := d.udpSendReplyId }) rfl rfl rfl hnew
  have hdata : s'.replyData = s.getSector (toU32 (n : ℤ)).toNat := hdata
  have hlen : (s.getSector (toU32 (n : ℤ)).toNat).length = SECTOR_SIZE := slice_length ..
  refine ⟨s', datagramOf_nil _ ▸ hs', hserved, ?_⟩
  rw [hserved.answers.datagram, List.drop_left' (NctussEmuReply.encode_length _), hdata, hlength,
    Nat.add_sub_cancel, List.take_of_length_le hlen.le, List.take_of_length_le hlen.le]

theorem wp_emulatorTransferData {Q : Emudisk → World → Prop} {dir : DataDir}
    {sectorNum slot offset : ℕ} (hahead : Ahead d w)
    (h : ∀ d' w', Quiet w w' → Ahead d' w' → SameRequests d d' → Q d' w') :
    (d.emulatorTransferData dir sectorNum slot offset).wp (owed top) E Q w := by
  have hquiet {s' : Server} (hne : d.udpSendReplyId ≠ 0)
      (hs : s'.mySSDSim = w.server.mySSDSim) {r : NctussEmuRequest}
      (ht : r.type = NctussEmuRequestType.readWriteData.code)
      (hc : s'.currentMaxRequestId = d.udpSendReplyId.toNat) : Quiet w { w with
        server := s'
        given := w.given ++ granted w.server.mySSDSim s'.mySSDSim r } := by
    refine ⟨?_, rfl, rfl, ?_, (hahead.lt hne).le.trans hc.ge⟩
    · have hsim : MySSDSim.SameChannels w.server.mySSDSim s'.mySSDSim := hs ▸ .refl _
      exact hsim
    · rw [granted_of_ne (by rw [ht]; decide), List.append_nil]
  cases dir with
  | read =>
    simp only [Emudisk.emulatorTransferData, Program.bind_eq, Program.wp_bind]
    refine wp_communicate hahead rfl readWrite_ne_reset fun hne hnew _ ↦ ?_
    obtain ⟨s', hs', hserved, -⟩ := receive_sectorRead (n := sectorNum) hnew
    have hq := hquiet hne hserved.mySSDSim (r := d.readWriteData .read sectorNum) rfl
      hserved.currentMaxRequestId
    have ha : Ahead d.numbered { w with
        server := s'
        given := w.given ++ granted w.server.mySSDSim s'.mySSDSim
          (d.readWriteData .read sectorNum) } := Ahead.numbered hserved.currentMaxRequestId hne
    refine ⟨s', s'.datagram, hs', hserved.answers.decode.1,
      fun hs ↦ absurd hs readWrite_ne_submit, ?_⟩
    split
    · exact h _ _ hq ha (sameRequests_numbered d)
    · exact h _ _ hq ⟨ha.nonneg, ha.lt, ha.pos⟩
        ((sameRequests_withData d slot _).trans (sameRequests_numbered _))
  | write =>
    simp only [Emudisk.emulatorTransferData, Program.bind_eq, Program.wp_bind]
    refine wp_communicate hahead rfl readWrite_ne_reset fun hne hnew _ ↦ ?_
    obtain ⟨s', hs', hserved⟩ := receive_sectorWrite (n := sectorNum)
      (slice_length (d.requestIdToReqMapping slot).data offset SECTOR_SIZE) hnew
    exact ⟨s', s'.datagram, hs', hserved.answers.decode.1, fun hs ↦ absurd hs readWrite_ne_submit,
      h _ _ (hquiet hne hserved.mySSDSim rfl hserved.currentMaxRequestId)
        (Ahead.numbered hserved.currentMaxRequestId hne) (sameRequests_numbered d)⟩

theorem wp_transferSectors {Q : Emudisk → World → Prop} {req : Request} {slot : ℕ}
    (hahead : Ahead d w)
    (h : ∀ d' w', Quiet w w' → Ahead d' w' → SameRequests d d' → Q d' w') :
    (d.transferSectors req slot).wp (owed top) E Q w := by
  refine Program.wp_mono (Q := fun d' w' ↦ Quiet w w' ∧ Ahead d' w' ∧ SameRequests d d')
    (fun d' w' hd ↦ h d' w' hd.1 hd.2.1 hd.2.2) ?_
  apply Program.wp_foldlM_range (fun _ d' w' ↦ Quiet w w' ∧ Ahead d' w' ∧ SameRequests d d')
  · rintro k d' w' - ⟨hq, ha, hs⟩
    apply wp_emulatorTransferData ha
    exact fun d'' w'' hq' ha' hs' ↦ ⟨hq.trans hq', ha', hs.trans hs'⟩
  · exact ⟨.refl w, hahead, .refl d⟩

end Nctusde.EmulatorKernel

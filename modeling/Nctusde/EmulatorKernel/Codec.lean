import Nctusde.EmulatorKernel.Exchanges
import Nctusde.EmulatorKernel.Init
import Nctusde.Library.Memory

namespace Nctusde.Wire

open Library.Layout

inductive CType
  | u32
  | unsignedInt
  | long
  deriving DecidableEq, Repr

/-- The board: `long` has 32 bits. -/
def arm : Abi CType := ⟨fun _ ↦ 4, fun _ ↦ 4⟩

/-- The server: `long` has 64 bits. -/
def x8664 : Abi CType where
  sizeOf
    | .long => 8
    | _ => 4
  alignOf
    | .long => 8
    | _ => 4

def requestMembers (type : CType) : List (Member CType) :=
  ["id", "type", "data1", "data2", "data3", "data4", "data5", "data6", "id_check"].map
    fun name ↦ ⟨name, type, 1⟩

def replyMembers (type : CType) : List (Member CType) :=
  (["id", "type", "data1", "data2", "data3", "data4"].map fun name ↦ ⟨name, type, 1⟩) ++
    [⟨"io_request_ids", type, MAX_EMULATOR_CHANNELS⟩, ⟨"id_check", type, 1⟩]

end Nctusde.Wire

namespace Nctusde.UdpServer

open Library.Layout Wire

def nctussEmuRequest : List (Member CType) := requestMembers .unsignedInt
def nctussEmuReply : List (Member CType) := replyMembers .unsignedInt

namespace Server

structure SubmitArguments where
  time : ℤ
  rw : ℤ
  sector : ℤ
  count : ℤ
  ioRequestId : ℤ
  deriving DecidableEq, Repr

def submitArguments (request : NctussEmuRequest) : SubmitArguments :=
  ⟨time64 request, request.data3.toNat, request.data4.toNat, request.data5.toNat,
    request.data6.toNat⟩

/-- `main` from the call of `submit_request` to the end of the iteration. -/
def submit (s : Server) (request : NctussEmuRequest) (a : SubmitArguments) : Outcome :=
  match s.mySSDSim.submitRequest s.totals a.time a.rw a.sector a.count a.ioRequestId with
  | none => .hang .sizeClass
  | some (ret, sim, totals) =>
    ({ s with mySSDSim := sim, totals := totals }.replyWith
      (if ret < 0 then .error else .ok) request.id).answer request

theorem dispatch_submit {s : Server} {request : NctussEmuRequest} (buf : Bytes)
    (h : request.type = NctussEmuRequestType.submitReqeust.code) :
    s.dispatch request buf = s.submit request (submitArguments request) := by
  refine (dispatch_submitReqeust buf h).trans ?_
  unfold submit submitArguments
  generalize s.mySSDSim.submitRequest s.totals (time64 request) request.data3.toNat
    request.data4.toNat request.data5.toNat request.data6.toNat = result
  cases result with
  | none => rfl
  | some result => rfl

end Server

end Nctusde.UdpServer

namespace Nctusde.EmulatorKernel

open BlockLayer Library Library.Layout Library.Memory Network UdpServer Wire

/-- The message of `emulator_submit_request`, whose `rw` is any `int`. -/
def Emudisk.submitMessage (d : Emudisk) (time rw : ℤ) (sector count ioRequestId : UInt32) :
    NctussEmuRequest where
  id := d.udpSendReplyId
  type := NctussEmuRequestType.submitReqeust.code
  data1 := toU32 (toU64 time / 2 ^ 32)
  data2 := toU32 (toU64 time)
  data3 := toU32 rw
  data4 := sector
  data5 := count
  data6 := ioRequestId

def nctussEmuRequest : List (Member CType) := requestMembers .u32
def nctussEmuReply : List (Member CType) := replyMembers .u32

variable {t rw : ℤ} {sector count ioRequestId : UInt32} {d : Emudisk} {s : Server}

theorem samePlace (name : String) (n : ℕ) :
    SamePlace arm x8664 ⟨name, .u32, n⟩ ⟨name, .unsignedInt, n⟩ := ⟨rfl, rfl, rfl, rfl⟩

/-- The two declarations of each structure have one layout, that of its words, and the payload
starts right behind it. -/
theorem layouts_agree :
    (offsets arm 0 nctussEmuRequest = offsets x8664 0 UdpServer.nctussEmuRequest ∧
      (offsets arm 0 nctussEmuRequest).map Prod.snd = (List.range 9).map (4 * ·) ∧
      sizeof arm nctussEmuRequest = NctussEmuRequest.size ∧
      sizeof x8664 UdpServer.nctussEmuRequest = NctussEmuRequest.size) ∧
    offsets arm 0 nctussEmuReply = offsets x8664 0 UdpServer.nctussEmuReply ∧
      (offsets arm 0 nctussEmuReply).map Prod.snd =
        (List.range 7).map (4 * ·) ++ [4 * (6 + MAX_EMULATOR_CHANNELS)] ∧
      sizeof arm nctussEmuReply = NctussEmuReply.size ∧
      sizeof x8664 UdpServer.nctussEmuReply = NctussEmuReply.size := by
  have hrequest :
      List.Forall₂ (SamePlace arm x8664) nctussEmuRequest UdpServer.nctussEmuRequest := by
    refine List.forall₂_map_left_iff.mpr (List.forall₂_map_right_iff.mpr ?_)
    exact List.forall₂_same.mpr fun name _ ↦ samePlace name 1
  have hreply : List.Forall₂ (SamePlace arm x8664) nctussEmuReply UdpServer.nctussEmuReply := by
    refine List.rel_append ?_ (.cons (samePlace _ _) (.cons (samePlace _ _) .nil))
    refine List.forall₂_map_left_iff.mpr (List.forall₂_map_right_iff.mpr ?_)
    exact List.forall₂_same.mpr fun name _ ↦ samePlace name 1
  obtain ⟨hoff, hsize⟩ := layout_eq hrequest
  obtain ⟨hoff', hsize'⟩ := layout_eq hreply
  exact ⟨⟨hoff, by decide, by decide, hsize ▸ by decide⟩,
    hoff', by decide, by decide, hsize' ▸ by decide⟩

/-- The words of a submission are put together again as they were, a direction as long as it is
not negative. -/
theorem submitArguments_message (h0 : 0 ≤ t) (ht : t < 2 ^ 63) (data : Bytes) :
    Server.submitArguments
        (requestOf (datagramOf (d.submitMessage t rw sector count ioRequestId) data)) =
      ⟨t, rw % 2 ^ 32, sector.toNat, count.toNat, ioRequestId.toNat⟩ := by
  have hu := toU64_of_fits h0 (by omega)
  have htime : Server.time64 { d.submitMessage t rw sector count ioRequestId with
      idCheck := d.udpSendReplyId } = t :=
    time64_eq (congrArg (fun t ↦ toU32 (t / 2 ^ 32)) hu) (congrArg toU32 hu) h0
      (Int.le_sub_one_of_lt ht)
  rw [requestOf_datagram]
  unfold Server.submitArguments
  exact congr (congr (congr (congrArg₂ _ htime (toNat_toU32 rw)) rfl) rfl) rfl

theorem receive_submitMessage (hnew : s.currentMaxRequestId < d.udpSendReplyId.toNat) :
    s.receive (datagramOf (d.submitMessage t rw sector count ioRequestId) []) =
      { s with currentMaxRequestId := d.udpSendReplyId.toNat }.submit
        (requestOf (datagramOf (d.submitMessage t rw sector count ioRequestId) []))
        (Server.submitArguments
          (requestOf (datagramOf (d.submitMessage t rw sector count ioRequestId) []))) := by
  have htype : (d.submitMessage t rw sector count ioRequestId).type =
    NctussEmuRequestType.submitReqeust.code := rfl
  have hid : (d.submitMessage t rw sector count ioRequestId).id = d.udpSendReplyId := rfl
  generalize d.submitMessage t rw sector count ioRequestId = r at htype hid ⊢
  rw [requestOf_datagram, ← hid]
  have h := Server.receive_new_encode (s := s) (d := []) (r := { r with idCheck := r.id })
    (Nat.zero_le _) (htype ▸ by decide) rfl (hid ▸ hnew)
  rw [datagramOf, h]
  exact Server.dispatch_submit _ htype

theorem getD_fits {ids : List ℤ} (h : ∀ x ∈ ids, 0 ≤ x ∧ x < 2 ^ 32) (i : ℕ) :
    0 ≤ ids.getD i 0 ∧ ids.getD i 0 < 2 ^ 32 := by
  by_cases hi : i < ids.length
  · rw [List.getD_eq_getElem _ _ hi]
    exact h _ (List.getElem_mem hi)
  · rw [List.getD_eq_default _ _ (not_lt.mp hi)]
    decide

/-- Times, sectors, counts and ids reach the server as they were given, and so do directions that
are not negative; batches come back as the server made them; the structures are laid out alike and
the payload starts at the same place behind them. -/
theorem codec_round_trip (h0 : 0 ≤ t) (ht : t < 2 ^ 63) (d : Emudisk) (s : Server)
    (hnew : s.currentMaxRequestId < d.udpSendReplyId.toNat) :
    (∀ rw sector count ioRequestId, 0 ≤ rw → rw < 2 ^ 31 →
      s.receive (datagramOf (d.submitMessage t rw sector count ioRequestId) []) =
        { s with currentMaxRequestId := d.udpSendReplyId.toNat }.submit
          (requestOf (datagramOf (d.submitMessage t rw sector count ioRequestId) []))
          ⟨t, rw, sector.toNat, count.toNat, ioRequestId.toNat⟩) ∧
    Server.time64 (requestOf (datagramOf (d.getNextResponses t) [])) = t ∧
    (s.mySSDSim.channels ≤ 8 →
      (∀ x ∈ (s.mySSDSim.nextResponses t).ioRequestIds, 0 ≤ x ∧ x < 2 ^ 32) →
      ∃ s' next, s.receive (datagramOf (d.getNextResponses t) []) = .loop s' (some s'.datagram) ∧
        s'.mySSDSim = (s.mySSDSim.getNextResponses t).1 ∧
        Emudisk.readResponses (.decode s'.datagram) = .pure next ∧
        next.num = (s.mySSDSim.nextResponses t).numResponse ∧
        next.time = (s.mySSDSim.nextResponses t).time ∧
        ∀ i < next.num, ((next.ids i).toNat : ℤ) =
          (s.mySSDSim.nextResponses t).ioRequestIds.getD i 0) ∧
    (offsets arm 0 nctussEmuRequest = offsets x8664 0 UdpServer.nctussEmuRequest ∧
      offsets arm 0 nctussEmuReply = offsets x8664 0 UdpServer.nctussEmuReply ∧
      sizeof arm nctussEmuRequest = sizeof x8664 UdpServer.nctussEmuRequest ∧
      sizeof arm nctussEmuReply = sizeof x8664 UdpServer.nctussEmuReply) ∧
    ∀ n < 2 ^ 32, (∀ data : Bytes, data.length = SECTOR_SIZE →
        ∃ s', s.receive (datagramOf (d.readWriteData .write n) data) =
          .loop s' (some s'.datagram) ∧
          s'.memoryStorage = blit s.memoryStorage (n * SECTOR_SIZE) data) ∧
      ∃ s', s.receive (datagramOf (d.readWriteData .read n) []) = .loop s' (some s'.datagram) ∧
        (s'.datagram.drop (sizeof arm nctussEmuReply)).take SECTOR_SIZE = s.getSector n := by
  obtain ⟨⟨hrequest, -, hsize, hsize'⟩, hreply, -, hsizeReply, hsizeReply'⟩ := layouts_agree
  refine ⟨fun rw sector count ioRequestId hrw hrw' ↦ ?_, ?_, fun hchannels hids ↦ ?_,
    ⟨hrequest, hreply, hsize.trans hsize'.symm, hsizeReply.trans hsizeReply'.symm⟩,
    fun n hn ↦ ⟨fun data hdata ↦ ?_, ?_⟩⟩
  · have hmod : rw % 2 ^ 32 = rw := Int.emod_eq_of_lt hrw (by omega)
    rw [receive_submitMessage hnew, submitArguments_message h0 ht, hmod]
  · rw [requestOf_datagram]
    exact time64_eq rfl rfl h0 (Int.le_sub_one_of_lt ht)
  · have hcount : s.mySSDSim.count ≤ MAX_DISK_REQUESTS_IN_PARALLEL := by
      rw [MySSDSim.count, MAX_DISK_REQUESTS_IN_PARALLEL]
      omega
    obtain ⟨s', next, hs', hserved, hread, hreports⟩ :=
      receive_reports h0 (Int.le_sub_one_of_lt ht) hcount hnew
    refine ⟨s', next, hs', hserved.mySSDSim, hread, hreports.num, hreports.time, fun i hi ↦ ?_⟩
    rw [hreports.ids i hi, toNat_toU32]
    obtain ⟨h0, hlt⟩ := getD_fits hids i
    exact Int.emod_eq_of_lt h0 hlt
  · obtain ⟨s', hs', hserved⟩ := receive_sectorWrite (n := n) hdata hnew
    refine ⟨s', hs', ?_⟩
    rw [hserved.memoryStorage, toNat_toU32_natCast hn]
  · obtain ⟨s', hs', -, hbytes⟩ := receive_sectorRead (n := n) hnew
    refine ⟨s', hs', ?_⟩
    rw [hsizeReply, hbytes, toNat_toU32_natCast hn]

def afterReset : Emudisk := (Emudisk.initial 1 1000 fun _ _ ↦ 0).numbered

/-- A write at a time that needs both words. -/
theorem codec_round_trip_write : Server.zeroed.receive
      (datagramOf (afterReset.submitMessage (2 ^ 40 + 5) 1 8 8 124) []) =
    { Server.zeroed with currentMaxRequestId := 124 }.submit
      (requestOf (datagramOf (afterReset.submitMessage (2 ^ 40 + 5) 1 8 8 124) []))
      ⟨2 ^ 40 + 5, 1, 8, 8, 124⟩ :=
  (codec_round_trip (by decide) (by decide) afterReset Server.zeroed (by decide)).1 1 8 8 124
    (by decide) (by decide)

/-- A negative direction arrives as a positive one, since `rw` crosses the wire unsigned. -/
theorem direction_unsigned : Server.submitArguments
      (requestOf (datagramOf (afterReset.submitMessage 5 (-1) 8 8 124) [])) ≠
        ⟨5, -1, 8, 8, 124⟩ := by
  rw [submitArguments_message (by decide) (by decide)]
  decide

end Nctusde.EmulatorKernel

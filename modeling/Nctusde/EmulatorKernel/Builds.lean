import Nctusde.EmulatorKernel.Exchanges
import Nctusde.EmulatorKernel.PerSector

namespace Nctusde.EmulatorKernel

open BlockLayer Library Library.Blocks Library.Memory Network PerSector UdpServer Wire

namespace Emudisk

variable (d : Emudisk)

/-- `emulator_transfer_data` of a WRITE in the per-sector build. The skb is longer
than its data: both this and the transfer before it add the same to `len`. -/
def emulatorTransferWrite (startSector sectorNum : ℕ) (skbs : Skbs) : Prog Emudisk :=
  (List.range sectorNum).foldlM (fun d i ↦ do
    let _ ← communicateWithEmulator (d.readWriteData .write (startSector + i))
      (slice (skbs i) NctussEmuRequest.size
        (SECTOR_SIZE + (NctussEmuRequest.size + SECTOR_SIZE)))
    return d.numbered) d

/-- `emulator_transfer_data` of a READ in the per-sector build, which keeps the
replies, of whatever type, as the skbs to copy from. -/
def emulatorTransferRead (startSector sectorNum : ℕ) (skbs : Skbs) : Prog (Emudisk × Skbs) :=
  (List.range sectorNum).foldlM (fun (d, skbs) i ↦ do
    let reply ← communicateWithEmulator (d.readWriteData .read (startSector + i)) []
    return (d.numbered, Function.update skbs i fun a ↦ reply.getD a 0)) (d, skbs)

def writeCombined (req : Request) (slot : ℕ) : Prog Emudisk :=
  if req.bytes > MAX_REQUEST_SECTOR_NUM * SECTOR_SIZE then .fail .tooLong
  else (d.withData slot (gather (d.requestIdToReqMapping slot).data 0
    req.segments)).transferSectors req slot

def writePerSector (req : Request) (skbs : Skbs) : Prog Emudisk :=
  if req.bytes > MAX_REQUEST_SECTOR_NUM * SECTOR_SIZE then .fail .tooLong
  else if sectorCount req > MAX_REQUEST_SECTOR_NUM then .fail .tooLong
  else d.emulatorTransferWrite req.pos (sectorCount req) (transferWrite req skbs)

def readCombined (req : Request) (slot : ℕ) : Prog (List Bytes) := do
  let d ← d.transferSectors req slot
  if req.bytes > MAX_REQUEST_SECTOR_NUM * SECTOR_SIZE then .fail .tooLong
  else return scatter (d.requestIdToReqMapping slot).data 0 req.segments

def readPerSector (req : Request) (skbs : Skbs) : Prog (List Bytes) := do
  let (_, skbs) ← d.emulatorTransferRead req.pos (sectorCount req) skbs
  if req.bytes > MAX_REQUEST_SECTOR_NUM * SECTOR_SIZE then .fail .tooLong
  else if sectorCount req > MAX_REQUEST_SECTOR_NUM then .fail .tooLong
  else return transferRead req skbs

end Emudisk

variable {d d' : Emudisk} {s s' : Server} {req : Request} {slot i k : ℕ} {skbs : Skbs}

theorem sectorCount_eq (h : req.bytes = k * SECTOR_SIZE) : sectorCount req = k := by
  rw [sectorCount, h, SECTOR_SIZE]
  omega

theorem readWriteData_congr (h : d'.udpSendReplyId = d.udpSendReplyId) (dir : DataDir)
    (sectorNum : ℕ) : d'.readWriteData dir sectorNum = d.readWriteData dir sectorNum := by
  rw [Emudisk.readWriteData, Emudisk.readWriteData, h]

theorem matches_communicate {r : NctussEmuRequest} {data data' : Bytes}
    (h : s.receive (datagramOf r data) = s.receive (datagramOf r data')) :
    Program.Matches delivered
      (fun b b' s' ↦ b' = b ∧ s.receive (datagramOf r data) = .loop s' (some b))
      (communicateWithEmulator r data) (communicateWithEmulator r data') s := by
  rintro b s' ⟨-, b', _, hs, hb, rfl⟩
  cases hb
  have hs : s.receive (datagramOf r data) = .loop s' (some b) := hs
  exact ⟨b, ⟨trivial, b, s', show s.receive _ = _ from h.symm.trans hs, rfl, rfl⟩, rfl, hs⟩

/-- The server looks at the first 512 bytes of the data of a write. -/
theorem receive_write_congr {r : NctussEmuRequest} {data data' : Bytes}
    (ht : r.type = NctussEmuRequestType.readWriteData.code) (h1 : r.data1 ≠ 0)
    (hlen : SECTOR_SIZE ≤ data.length) (h : data'.take SECTOR_SIZE = data.take SECTOR_SIZE) :
    s.receive (r.encode ++ data') = s.receive (r.encode ++ data) := by
  have hdispatch (s : Server) {data : Bytes} (hlen : SECTOR_SIZE ≤ data.length) :
      s.dispatch r ((r.encode ++ data).take MAXNAME) =
        ((s.putSector r.data2.toNat (data.take SECTOR_SIZE)).replyWith .ok r.id).answer r := by
    have hbuf : ((r.encode ++ data.take (MAXNAME - NctussEmuRequest.size)).drop
        NctussEmuRequest.size).take SECTOR_SIZE = data.take SECTOR_SIZE := by
      rw [List.drop_left' (NctussEmuRequest.encode_length r), List.take_take]
      rfl
    have hroom : ¬ (r.encode ++ data.take (MAXNAME - NctussEmuRequest.size)).length <
        NctussEmuRequest.size + SECTOR_SIZE := by
      rw [List.length_append, NctussEmuRequest.encode_length, List.length_take]
      rw [SECTOR_SIZE, MAXNAME, NctussEmuRequest.size] at *
      omega
    rw [Server.dispatch, ht, NctussEmuRequestType.ofCode_code, take_encode]
    dsimp only
    rw [if_neg h1, if_neg hroom, hbuf]
  have hlen' : SECTOR_SIZE ≤ data'.length := by
    have := congrArg List.length h
    rw [List.length_take, List.length_take] at this
    omega
  have hreset : ¬ r.type = NctussEmuRequestType.reset.code := by rw [ht]; decide
  rw [Server.receive, Server.receive, if_neg (not_lt.mpr (readable_encode r data')),
    if_neg (not_lt.mpr (readable_encode r data)), requestOf_encode, requestOf_encode,
    if_neg hreset, if_neg hreset, hdispatch _ hlen', hdispatch _ hlen, h]

theorem receive_sector {mem : ℕ → UInt8} (hd : d'.udpSendReplyId = d.udpSendReplyId) (sectorNum : ℕ)
    (h : slice mem (i * SECTOR_SIZE) SECTOR_SIZE =
      slice (flat NctussEmuRequest.size SECTOR_SIZE skbs) (i * SECTOR_SIZE) SECTOR_SIZE) :
    s.receive (datagramOf (d'.readWriteData .write sectorNum) (slice (skbs i) NctussEmuRequest.size
        (SECTOR_SIZE + (NctussEmuRequest.size + SECTOR_SIZE)))) =
      s.receive (datagramOf (d.readWriteData .write sectorNum)
        (slice mem (i * SECTOR_SIZE) SECTOR_SIZE)) := by
  have hflat : slice (flat NctussEmuRequest.size SECTOR_SIZE skbs) (i * SECTOR_SIZE) SECTOR_SIZE =
      slice (skbs i) NctussEmuRequest.size SECTOR_SIZE := by
    rw [slice_flat Tiles.sector_pos (by rw [Nat.mul_mod_left]; omega), Nat.mul_mod_left,
      Nat.mul_div_cancel _ Tiles.sector_pos, Nat.add_zero]
  rw [readWriteData_congr hd, h, hflat]
  refine receive_write_congr rfl (show toU32 DataDir.write.code ≠ 0 by decide)
    (slice_length ..).ge ?_
  rw [slice_add, List.take_left' (slice_length ..), List.take_of_length_le (slice_length ..).le]

theorem slice_transferWrite (skbs : Skbs) (hk : req.bytes = k * SECTOR_SIZE)
    (mem : ℕ → UInt8) (hi : i < k) :
    slice (gather mem 0 req.segments) (i * SECTOR_SIZE) SECTOR_SIZE =
      slice (flat NctussEmuRequest.size SECTOR_SIZE (transferWrite req skbs)) (i * SECTOR_SIZE)
        SECTOR_SIZE := by
  rw [transferWrite, copies, flat_writeSegments _ (Cursor.at_start _), gather_eq, gather_eq]
  apply slice_congr
  intro j hj
  have hlen : i * SECTOR_SIZE + j < req.segments.flatten.length := by
    have hmul := Nat.mul_le_mul_right SECTOR_SIZE (Nat.succ_le_of_lt hi)
    rw [Nat.succ_mul] at hmul
    have := req.content_length
    rw [Request.content] at this
    omega
  have hblit (mem : ℕ → UInt8) := blit_in mem 0 _ hlen
  rw [Nat.zero_add] at hblit
  rw [hblit, hblit]

structure Sending (mem : ℕ → UInt8) (slot : ℕ) (d d' : Emudisk) : Prop where
  data : (d.requestIdToReqMapping slot).data = mem
  udpSendReplyId : d'.udpSendReplyId = d.udpSendReplyId

theorem Sending.numbered {mem : ℕ → UInt8} (h : Sending mem slot d d') :
    Sending mem slot d.numbered d'.numbered :=
  ⟨h.data, congrArg (· + 1) h.udpSendReplyId⟩

theorem emulatorTransferData_write (d : Emudisk) (sectorNum slot offset : ℕ) :
    d.emulatorTransferData .write sectorNum slot offset =
      (communicateWithEmulator (d.readWriteData .write sectorNum)
        (slice (d.requestIdToReqMapping slot).data offset SECTOR_SIZE)).bind
          fun _ ↦ .pure d.numbered := rfl

theorem matches_write {mem : ℕ → UInt8} (h : Sending mem slot d d')
    (hmem : ∀ i < k, slice mem (i * SECTOR_SIZE) SECTOR_SIZE =
      slice (flat NctussEmuRequest.size SECTOR_SIZE skbs) (i * SECTOR_SIZE) SECTOR_SIZE) (pos : ℕ) :
    Program.Matches delivered (fun d d' _ ↦ Sending mem slot d d')
        ((List.range k).foldlM (fun d i ↦ d.emulatorTransferData .write (pos + i) slot
          (i * SECTOR_SIZE)) d) (d'.emulatorTransferWrite pos k skbs) s ∧
      Program.Matches delivered (fun d' d _ ↦ Sending mem slot d d')
        (d'.emulatorTransferWrite pos k skbs)
        ((List.range k).foldlM (fun d i ↦ d.emulatorTransferData .write (pos + i) slot
          (i * SECTOR_SIZE)) d) s := by
  constructor
  · refine Program.matches_foldlM_range (fun _ d d' _ ↦ Sending mem slot d d')
      (fun i hi d d' s h ↦ ?_) h
    have hsame := receive_sector (s := s) h.udpSendReplyId (pos + i) (hmem i hi)
    rw [emulatorTransferData_write, h.data, ← readWriteData_congr h.udpSendReplyId]
    rw [← readWriteData_congr h.udpSendReplyId] at hsame
    exact Program.matches_bind (matches_communicate hsame.symm) fun _ _ _ _ ↦
      Program.matches_pure h.numbered
  · refine Program.matches_foldlM_range (fun _ d' d _ ↦ Sending mem slot d d')
      (fun i hi d' d s h ↦ ?_) h
    have hsame := receive_sector (s := s) h.udpSendReplyId (pos + i) (hmem i hi)
    rw [emulatorTransferData_write, h.data, ← readWriteData_congr h.udpSendReplyId]
    rw [← readWriteData_congr h.udpSendReplyId] at hsame
    exact Program.matches_bind (matches_communicate hsame) fun _ _ _ _ ↦
      Program.matches_pure h.numbered

structure Receiving (slot i : ℕ) (d d' : Emudisk) (skbs : Skbs) (s : Server) : Prop where
  data : ∀ p < i * SECTOR_SIZE,
    (d.requestIdToReqMapping slot).data p = flat NctussEmuReply.size SECTOR_SIZE skbs p
  udpSendReplyId : d'.udpSendReplyId = d.udpSendReplyId
  fresh : s.currentMaxRequestId ≠ d.udpSendReplyId.toNat

/-- What the caller makes of the reply in the combined build. -/
def storeReply (d : Emudisk) (slot offset : ℕ) (reply : Bytes) : Emudisk :=
  if (NctussEmuReply.decode reply).type ≠ NctussEmuReplyType.ok.code then d.numbered
  else (d.withData slot (blit (d.requestIdToReqMapping slot).data offset
    ((reply.drop NctussEmuReply.size).take SECTOR_SIZE))).numbered

theorem emulatorTransferData_read (d : Emudisk) (sectorNum slot offset : ℕ) :
    d.emulatorTransferData .read sectorNum slot offset =
      (communicateWithEmulator (d.readWriteData .read sectorNum) []).bind
        fun reply ↦ .pure (storeReply d slot offset reply) := by
  rw [Emudisk.emulatorTransferData, Program.bind_eq]
  congr 1
  funext reply
  rw [storeReply]
  split <;> rfl

theorem reply_of_read {sectorNum : ℕ} {b : Bytes}
    (hfresh : s.currentMaxRequestId ≠ d.udpSendReplyId.toNat)
    (h : s.receive (datagramOf (d.readWriteData .read sectorNum) []) = .loop s' (some b)) :
    (NctussEmuReply.decode b).type = NctussEmuReplyType.ok.code ∧
      b.length = NctussEmuReply.size + SECTOR_SIZE ∧
      s'.currentMaxRequestId = d.udpSendReplyId.toNat := by
  have hlt : s.currentMaxRequestId < d.udpSendReplyId.toNat := by
    by_contra hge
    have hstale := Server.receive_stale (s := s)
      (readable_encode { d.readWriteData .read sectorNum with idCheck := d.udpSendReplyId } [])
      (by rw [IsReset, requestOf_encode]; exact (by decide : ¬ (4 : UInt32) = 1))
      (by rw [requestOf_encode]; exact lt_of_le_of_ne (not_lt.mp hge) hfresh.symm)
    exact absurd (hstale.symm.trans h) (by simp)
  obtain ⟨t, ht, hserved, hdata, hlen⟩ := Server.receive_read
    (r := { d.readWriteData .read sectorNum with idCheck := d.udpSendReplyId }) (s := s)
    rfl rfl rfl hlt
  rw [datagramOf_nil] at h
  have hloop := ht.symm.trans h
  rw [Outcome.loop.injEq, Option.some.injEq] at hloop
  obtain ⟨rfl, rfl⟩ := hloop
  have hsize : t.replyData.length = SECTOR_SIZE := by rw [hdata, Server.getSector, slice_length]
  rw [hserved.answers.datagram, NctussEmuReply.decode_encode_type, List.length_append,
    NctussEmuReply.encode_length, List.length_take, hsize, hlen]
  exact ⟨hserved.type, by omega, hserved.currentMaxRequestId⟩

theorem Receiving.step (h : Receiving slot i d d' skbs s) {sectorNum : ℕ} {b : Bytes}
    (hb : s.receive (datagramOf (d.readWriteData .read sectorNum) []) = .loop s' (some b)) :
    Receiving slot (i + 1) (storeReply d slot (i * SECTOR_SIZE) b) d'.numbered
      (Function.update skbs i fun a ↦ b.getD a 0) s' := by
  obtain ⟨hok, hlen, hcounter⟩ := reply_of_read h.fresh hb
  rw [storeReply, if_neg (not_not.mpr hok)]
  have hsector : ((b.drop NctussEmuReply.size).take SECTOR_SIZE).length = SECTOR_SIZE := by
    simp only [List.length_take, List.length_drop]
    omega
  refine ⟨fun p hp ↦ ?_, congrArg (· + 1) h.udpSendReplyId, ?_⟩
  · have hdata : ((d.withData slot (blit (d.requestIdToReqMapping slot).data (i * SECTOR_SIZE)
        ((b.drop NctussEmuReply.size).take SECTOR_SIZE))).numbered.requestIdToReqMapping
          slot).data =
          blit (d.requestIdToReqMapping slot).data (i * SECTOR_SIZE)
            ((b.drop NctussEmuReply.size).take SECTOR_SIZE) :=
      congrArg RequestIdToReq.data (withEntry_same ..)
    rw [hdata]
    by_cases hlt : p < i * SECTOR_SIZE
    · have hi : p / SECTOR_SIZE ≠ i := ((Nat.div_lt_iff_lt_mul Tiles.sector_pos).mpr hlt).ne
      rw [blit_out _ _ _ (.inl hlt), h.data p hlt, flat, flat, Function.update_of_ne hi]
    · obtain ⟨q, rfl⟩ := Nat.exists_eq_add_of_le (not_lt.mp hlt)
      rw [Nat.succ_mul] at hp
      obtain ⟨hd, hm⟩ := div_eq_of_within (n := SECTOR_SIZE) (p := i * SECTOR_SIZE)
        Tiles.sector_pos (by rw [Nat.mul_mod_left]; omega) (i := q) (by omega)
      rw [Nat.mul_div_cancel _ Tiles.sector_pos] at hd
      rw [Nat.mul_mod_left, Nat.zero_add] at hm
      rw [blit_in _ _ _ (by omega), flat, hd, hm, Function.update_self, List.getElem_take,
        List.getElem_drop, List.getD_eq_getElem _ _ (by omega)]
  · have hnext : (d.udpSendReplyId + 1).toNat ≠ d.udpSendReplyId.toNat := by
      rw [UInt32.toNat_add]
      have := d.udpSendReplyId.toNat_lt
      have : (1 : UInt32).toNat = 1 := rfl
      omega
    rw [hcounter]
    exact fun heq ↦ hnext (Int.ofNat.inj heq).symm

theorem matches_read (h : Receiving slot 0 d d' skbs s) (pos k : ℕ) :
    Program.Matches delivered (fun d x s ↦ Receiving slot k d x.1 x.2 s)
        ((List.range k).foldlM (fun d i ↦ d.emulatorTransferData .read (pos + i) slot
          (i * SECTOR_SIZE)) d) (d'.emulatorTransferRead pos k skbs) s ∧
      Program.Matches delivered (fun x d s ↦ Receiving slot k d x.1 x.2 s)
        (d'.emulatorTransferRead pos k skbs)
        ((List.range k).foldlM (fun d i ↦ d.emulatorTransferData .read (pos + i) slot
          (i * SECTOR_SIZE)) d) s := by
  constructor
  · refine Program.matches_foldlM_range
      (fun i d (x : Emudisk × Skbs) s ↦ Receiving slot i d x.1 x.2 s)
      (fun i hi d x s h ↦ ?_) h
    rw [emulatorTransferData_read, ← readWriteData_congr h.udpSendReplyId]
    refine Program.matches_bind (matches_communicate rfl) fun b b' s' hb ↦ ?_
    obtain ⟨rfl, hb⟩ := hb
    rw [readWriteData_congr h.udpSendReplyId] at hb
    exact Program.matches_pure (h.step hb)
  · refine Program.matches_foldlM_range
      (fun i (x : Emudisk × Skbs) d s ↦ Receiving slot i d x.1 x.2 s)
      (fun i hi x d s h ↦ ?_) h
    rw [emulatorTransferData_read, ← readWriteData_congr h.udpSendReplyId]
    refine Program.matches_bind (matches_communicate rfl) fun b b' s' hb ↦ ?_
    obtain ⟨rfl, hb⟩ := hb
    rw [readWriteData_congr h.udpSendReplyId] at hb
    exact Program.matches_pure (h.step hb)

theorem scatter_congr {mem mem' : ℕ → UInt8} {off : ℕ} {segments : List Bytes}
    (h : ∀ a < off + (segments.map List.length).sum, mem a = mem' a) :
    scatter mem off segments = scatter mem' off segments := by
  induction segments generalizing off with
  | nil => rfl
  | cons segment segments ih =>
    rw [List.map_cons, List.sum_cons] at h
    rw [scatter, scatter, ih fun a ha ↦ h a (by omega)]
    congr 1
    exact slice_congr fun i hi ↦ h _ (by omega)

theorem Receiving.segments (h : Receiving slot k d d' skbs s) (hk : req.bytes = k * SECTOR_SIZE) :
    transferRead req skbs = scatter (d.requestIdToReqMapping slot).data 0 req.segments := by
  rw [transferRead, copies, readSegments_eq _ (Cursor.at_start _)]
  refine scatter_congr fun a ha ↦ (h.data a ?_).symm
  rw [Request.bytes] at hk
  omega

/-- The two builds make the server store the same sectors and fill the segments
with the same bytes; in the per-sector build each byte is copied once, to or from
the skb of its sector. A READ begins with a message that is new to the server. -/
theorem builds_agree (d : Emudisk) (s : Server) (slot : ℕ) (skbs : Skbs)
    (hk : req.bytes = k * SECTOR_SIZE) (hmax : k ≤ MAX_REQUEST_SECTOR_NUM) :
    (req.dataDir = .write → CopiesOnce NctussEmuRequest.size k req ∧
      ∀ s', (∃ d', (d.writeCombined req slot).Runs delivered s (.ok d') s') ↔
        ∃ d', (d.writePerSector req skbs).Runs delivered s (.ok d') s') ∧
    (req.dataDir = .read → CopiesOnce NctussEmuReply.size k req ∧
      (s.currentMaxRequestId ≠ d.udpSendReplyId.toNat → ∀ segments s',
        (d.readCombined req slot).Runs delivered s (.ok segments) s' ↔
          (d.readPerSector req skbs).Runs delivered s (.ok segments) s')) := by
  have hcount := sectorCount_eq hk
  have hbytes : ¬ req.bytes > MAX_REQUEST_SECTOR_NUM * SECTOR_SIZE := by
    rw [hk]
    exact not_lt.mpr (Nat.mul_le_mul_right _ hmax)
  refine ⟨fun hdir ↦ ⟨copiesOnce _ hk, fun s' ↦ ?_⟩, fun hdir ↦ ⟨copiesOnce _ hk, ?_⟩⟩
  · rw [Emudisk.writeCombined, Emudisk.writePerSector, if_neg hbytes, if_neg hbytes, hcount,
      if_neg (not_lt.mpr hmax), Emudisk.transferSectors, hcount, hdir]
    have hsending : Sending (gather (d.requestIdToReqMapping slot).data 0 req.segments) slot
        (d.withData slot (gather (d.requestIdToReqMapping slot).data 0 req.segments)) d :=
      ⟨congrArg RequestIdToReq.data (withEntry_same ..), rfl⟩
    obtain ⟨hto, hfrom⟩ := matches_write (s := s) hsending
      (fun i hi ↦ slice_transferWrite skbs hk _ hi) req.pos
    constructor
    · rintro ⟨d', hrun⟩
      obtain ⟨d'', hrun', -⟩ := hto _ _ hrun
      exact ⟨d'', hrun'⟩
    · rintro ⟨d', hrun⟩
      obtain ⟨d'', hrun', -⟩ := hfrom _ _ hrun
      exact ⟨d'', hrun'⟩
  · intro hfresh segments s'
    have hstart : Receiving slot 0 d d skbs s := ⟨fun p hp ↦ by omega, rfl, hfresh⟩
    obtain ⟨hto, hfrom⟩ := matches_read hstart req.pos k
    rw [Emudisk.readCombined, Emudisk.readPerSector, hcount, Emudisk.transferSectors, hcount, hdir]
    simp only [Program.bind_eq, if_neg hbytes, if_neg (not_lt.mpr hmax), Program.pure_eq]
    rw [Program.runs_bind_ok, Program.runs_bind_ok]
    constructor
    · rintro ⟨d', v, hrun, hsegments, rfl⟩
      obtain ⟨x, hrun', hreceiving⟩ := hto _ _ hrun
      refine ⟨x, s', hrun', ?_, rfl⟩
      rw [hreceiving.segments hk]
      exact hsegments
    · rintro ⟨x, v, hrun, hsegments, rfl⟩
      obtain ⟨d', hrun', hreceiving⟩ := hfrom _ _ hrun
      refine ⟨d', s', hrun', ?_, rfl⟩
      rw [← hreceiving.segments hk]
      exact hsegments

def splitRequest (dir : DataDir) : Request where
  tag := 0
  cmdType := .fs
  dataDir := dir
  pos := 8
  segments := [List.replicate 300 1, List.replicate 500 2, List.replicate 224 3]

theorem builds_agree_split : CopiesOnce NctussEmuRequest.size 2 (splitRequest .write) ∧
    ∀ segments s', ((Emudisk.initial 1 1000 fun _ _ ↦ 0).readCombined (splitRequest .read) 0).Runs
        delivered Server.zeroed (.ok segments) s' ↔
      ((Emudisk.initial 1 1000 fun _ _ ↦ 0).readPerSector (splitRequest .read) fun _ _ ↦ 0).Runs
        delivered Server.zeroed (.ok segments) s' := by
  have hk (dir : DataDir) : (splitRequest dir).bytes = 2 * SECTOR_SIZE := by
    rw [Request.bytes, splitRequest, List.map_cons, List.map_cons, List.map_cons]
    simp only [List.length_replicate]
    rfl
  refine ⟨((builds_agree (Emudisk.initial 1 1000 fun _ _ ↦ 0) Server.zeroed 0 (fun _ _ ↦ 0)
    (hk .write) (by decide)).1 rfl).1, ?_⟩
  exact ((builds_agree (Emudisk.initial 1 1000 fun _ _ ↦ 0) Server.zeroed 0 (fun _ _ ↦ 0)
    (hk .read) (by decide)).2 rfl).2 (by decide)

end Nctusde.EmulatorKernel

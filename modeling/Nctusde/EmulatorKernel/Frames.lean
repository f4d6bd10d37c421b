import Nctusde.EmulatorKernel.Main
import Nctusde.Network.Main

namespace Nctusde.EmulatorKernel

open BlockLayer Library.Memory Network Wire

def ETH_P_IP : UInt16 := 0x0800

def IPPROTO_UDP : UInt8 := 17

/-- A received frame from its network header on: `tag` stands for its identity,
`mem` also covers the memory behind its `len` bytes. -/
structure SkBuff where
  tag : ℕ
  protocol : UInt16
  len : UInt32
  mem : ℕ → UInt8

structure Span where
  offset : ℕ
  size : ℕ

namespace SkBuff

variable (skb : SkBuff)

def Contains (span : Span) : Prop := span.offset + span.size ≤ skb.len.toNat

instance (span : Span) : Decidable (skb.Contains span) := inferInstanceAs (Decidable (_ ≤ _))

theorem contains_mk {offset size : ℕ} :
    skb.Contains ⟨offset, size⟩ ↔ offset + size ≤ skb.len.toNat := Iff.rfl

def be16 (offset : ℕ) : UInt16 :=
  UInt16.ofNat ((skb.mem offset).toNat * 2 ^ 8 + (skb.mem (offset + 1)).toNat)

def u32 (offset : ℕ) : UInt32 := word (slice skb.mem offset 4) 0

def version : ℕ := (skb.mem 0).toNat / 16

def ihl : ℕ := (skb.mem 0).toNat % 16

def ipProtocol : UInt8 := skb.mem 9

def saddr : Bytes := slice skb.mem 12 4

def daddr : Bytes := slice skb.mem 16 4

def source : UInt16 := skb.be16 (skb.ihl * 4)

def dest : UInt16 := skb.be16 (skb.ihl * 4 + 2)

def data : ℕ := skb.ihl * 4 + 8

/-- The subtraction is that of a `u32`. -/
def dataLen : ℕ := (((skb.len.toNat : ℤ) - 8 - skb.ihl * 4) % 2 ^ 32).toNat

def replyId : UInt32 := skb.u32 skb.data

def replyType : UInt32 := skb.u32 (skb.data + 4)

def replyData1 : UInt32 := skb.u32 (skb.data + 8)

end SkBuff

structure NctussNetpoll where
  localIp : Bytes
  remoteIp : Bytes
  localPort : UInt16
  remotePort : UInt16

/-- What `nctuss_receive_skb` does with a frame: give it back, only print a line,
never return, or keep it as the reply. -/
inductive Verdict
  | returned
  | printed
  | endless
  | replied
  deriving DecidableEq, Repr

/-- `nctuss_receive_skb`, with the reads it makes on its way. -/
def nctussReceiveSkb (nn : NctussNetpoll) (currentWaitingReplyId : UInt32) (skb : SkBuff) :
    Verdict × List Span :=
  if skb.protocol ≠ ETH_P_IP then (.returned, [])
  else if nn.localIp ≠ skb.daddr then (.returned, [⟨0, 1⟩, ⟨16, 4⟩])
  else if nn.remoteIp ≠ skb.saddr then (.returned, [⟨0, 1⟩, ⟨16, 4⟩, ⟨12, 4⟩])
  else if nn.localPort ≠ skb.dest then
    (.returned, [⟨0, 1⟩, ⟨16, 4⟩, ⟨12, 4⟩, ⟨skb.ihl * 4 + 2, 2⟩])
  else if nn.remotePort ≠ skb.source then
    (.returned, [⟨0, 1⟩, ⟨16, 4⟩, ⟨12, 4⟩, ⟨skb.ihl * 4 + 2, 2⟩, ⟨skb.ihl * 4, 2⟩])
  else
    (if skb.replyId = currentWaitingReplyId then
        if skb.dataLen > MAX_SKB_DATA_SIZE then .endless else .replied
      else .printed,
      [⟨0, 1⟩, ⟨16, 4⟩, ⟨12, 4⟩, ⟨skb.ihl * 4 + 2, 2⟩, ⟨skb.ihl * 4, 2⟩, ⟨skb.data, 4⟩])

inductive Caller
  | emulatorReset
  | emulatorSubmitRequest
  | emulatorGetResponses
  | emulatorTransferData (dir : DataDir)
  deriving DecidableEq, Repr

/-- What a caller needs of a reply: the header, and a sector behind it if it asked
for one. -/
def Caller.needs : Caller → ℕ
  | .emulatorTransferData .read => NctussEmuReply.size + SECTOR_SIZE
  | _ => NctussEmuReply.size

/-- The number of ids `emulator_get_responses` copies; the count is an `int`. -/
def SkBuff.numResponses (skb : SkBuff) : ℕ := (toInt skb.replyData1.toNat).toNat

def Caller.decode (caller : Caller) (skb : SkBuff) : List Span × ℕ :=
  let type : Span := ⟨skb.data + 4, 4⟩
  match caller with
  | .emulatorReset | .emulatorSubmitRequest | .emulatorTransferData .write => ([type], 0)
  | .emulatorGetResponses =>
    if skb.replyType = NctussEmuReplyType.ok.code then
      ([type, ⟨skb.data + 8, 4⟩, ⟨skb.data + 12, 4⟩, ⟨skb.data + 16, 4⟩] ++
        (List.range skb.numResponses).map fun i ↦ ⟨skb.data + 24 + 4 * i, 4⟩, skb.numResponses)
    else ([type], 0)
  | .emulatorTransferData .read =>
    if skb.replyType = NctussEmuReplyType.ok.code then
      ([type, ⟨skb.data + NctussEmuReply.size, SECTOR_SIZE⟩], 0)
    else ([type], 0)

structure FromServer (nn : NctussNetpoll) (skb : SkBuff) : Prop where
  protocol : skb.protocol = ETH_P_IP
  version : skb.version = 4
  ihl : 5 ≤ skb.ihl
  ipProtocol : skb.ipProtocol = IPPROTO_UDP
  saddr : skb.saddr = nn.remoteIp
  daddr : skb.daddr = nn.localIp
  source : skb.source = nn.remotePort
  dest : skb.dest = nn.localPort

structure Acceptable (nn : NctussNetpoll) (caller : Caller) (skb : SkBuff) : Prop where
  fromServer : FromServer nn skb
  long : skb.data + caller.needs ≤ skb.len.toNat
  reads : ∀ span ∈ (caller.decode skb).1, skb.Contains span
  writes : (caller.decode skb).2 ≤ MAX_DISK_REQUESTS_IN_PARALLEL

structure Safe (nn : NctussNetpoll) (currentWaitingReplyId : UInt32) (caller : Caller)
    (skb : SkBuff) : Prop where
  returns : (nctussReceiveSkb nn currentWaitingReplyId skb).1 ≠ .endless
  reads : ∀ span ∈ (nctussReceiveSkb nn currentWaitingReplyId skb).2, skb.Contains span
  accepts : (nctussReceiveSkb nn currentWaitingReplyId skb).1 = .replied → Acceptable nn caller skb

/-- A frame that passes the tests of addresses and ports. -/
def Addressed (nn : NctussNetpoll) (skb : SkBuff) : Prop :=
  skb.protocol = ETH_P_IP ∧ skb.daddr = nn.localIp ∧ skb.saddr = nn.remoteIp ∧
    skb.dest = nn.localPort ∧ skb.source = nn.remotePort

/-- A frame as its own headers should make it: each test the parser makes finds its
bytes inside the frame, and what passes all of them is a UDP packet of a size the
buffer and the caller are made for, with no more ids than the caller has room for. -/
structure Proper (nn : NctussNetpoll) (currentWaitingReplyId : UInt32) (caller : Caller)
    (skb : SkBuff) : Prop where
  ip : skb.protocol = ETH_P_IP → 20 ≤ skb.len.toNat
  udp : skb.protocol = ETH_P_IP → skb.daddr = nn.localIp → skb.saddr = nn.remoteIp →
    skb.ihl * 4 + 4 ≤ skb.len.toNat
  id : Addressed nn skb → skb.data + 4 ≤ skb.len.toNat
  packet : Addressed nn skb → skb.replyId = currentWaitingReplyId →
    skb.version = 4 ∧ 5 ≤ skb.ihl ∧ skb.ipProtocol = IPPROTO_UDP
  size : Addressed nn skb → skb.replyId = currentWaitingReplyId →
    skb.data + caller.needs ≤ skb.len.toNat ∧ skb.len.toNat ≤ skb.data + MAX_SKB_DATA_SIZE
  count : Addressed nn skb → skb.replyId = currentWaitingReplyId →
    caller = .emulatorGetResponses → skb.replyType = NctussEmuReplyType.ok.code →
    toInt skb.replyData1.toNat ≤ MAX_DISK_REQUESTS_IN_PARALLEL

variable {nn : NctussNetpoll} {n : UInt32} {caller : Caller} {skb : SkBuff}

theorem nctussReceiveSkb_addressed (h : Addressed nn skb) : nctussReceiveSkb nn n skb =
    (if skb.replyId = n then
        if skb.dataLen > MAX_SKB_DATA_SIZE then .endless else .replied
      else .printed,
      [⟨0, 1⟩, ⟨16, 4⟩, ⟨12, 4⟩, ⟨skb.ihl * 4 + 2, 2⟩, ⟨skb.ihl * 4, 2⟩, ⟨skb.data, 4⟩]) := by
  obtain ⟨h1, h2, h3, h4, h5⟩ := h
  simp only [nctussReceiveSkb, h1, h2, h3, h4, h5, ne_eq, not_true_eq_false, if_false]

/-- A frame that fails one of the tests is given back, whatever it holds. -/
theorem nctussReceiveSkb_foreign (h : ¬ Addressed nn skb) :
    (nctussReceiveSkb nn n skb).1 = .returned := by
  unfold nctussReceiveSkb
  split
  · rfl
  split
  · rfl
  split
  · rfl
  split
  · rfl
  split
  · rfl
  · exact absurd ⟨by simp_all, by simp_all, by simp_all, by simp_all, by simp_all⟩ h

theorem SkBuff.dataLen_eq (h : skb.data ≤ skb.len.toNat) :
    skb.dataLen = skb.len.toNat - skb.data := by
  have hlt := skb.len.toNat_lt
  rw [SkBuff.data] at h ⊢
  rw [SkBuff.dataLen, Int.emod_eq_of_lt (by omega) (by omega)]
  omega

theorem Caller.decode_getResponses (skb : SkBuff) : emulatorGetResponses.decode skb =
    if skb.replyType = NctussEmuReplyType.ok.code then
      ([⟨skb.data + 4, 4⟩, ⟨skb.data + 8, 4⟩, ⟨skb.data + 12, 4⟩, ⟨skb.data + 16, 4⟩] ++
        (List.range skb.numResponses).map fun i ↦ ⟨skb.data + 24 + 4 * i, 4⟩, skb.numResponses)
    else ([⟨skb.data + 4, 4⟩], 0) := rfl

theorem Caller.decode_read (skb : SkBuff) : (emulatorTransferData .read).decode skb =
    if skb.replyType = NctussEmuReplyType.ok.code then
      ([⟨skb.data + 4, 4⟩, ⟨skb.data + NctussEmuReply.size, SECTOR_SIZE⟩], 0)
    else ([⟨skb.data + 4, 4⟩], 0) := rfl

/-- A caller that gets a whole reply reads only within it. -/
theorem Caller.decode_reads (hlong : skb.data + caller.needs ≤ skb.len.toNat)
    (hcount : caller = .emulatorGetResponses → skb.replyType = NctussEmuReplyType.ok.code →
      toInt skb.replyData1.toNat ≤ MAX_DISK_REQUESTS_IN_PARALLEL) :
    (∀ span ∈ (caller.decode skb).1, skb.Contains span) ∧
      (caller.decode skb).2 ≤ MAX_DISK_REQUESTS_IN_PARALLEL := by
  have hsize : NctussEmuReply.size ≤ caller.needs := by
    unfold Caller.needs
    split
    · exact Nat.le_add_right ..
    · exact le_rfl
  rw [NctussEmuReply.size] at hsize
  have htype : skb.Contains ⟨skb.data + 4, 4⟩ := skb.contains_mk.mpr (by omega)
  cases caller with
  | emulatorReset => simpa [Caller.decode] using htype
  | emulatorSubmitRequest => simpa [Caller.decode] using htype
  | emulatorGetResponses =>
    rw [Caller.decode_getResponses]
    split
    · rename_i hok
      have hn : skb.numResponses ≤ MAX_DISK_REQUESTS_IN_PARALLEL := by
        rw [SkBuff.numResponses]
        exact Int.toNat_le.mpr (hcount rfl hok)
      generalize skb.numResponses = num at hn ⊢
      refine ⟨fun span hspan ↦ ?_, hn⟩
      simp only [List.mem_append, List.mem_cons, List.not_mem_nil, or_false, List.mem_map,
        List.mem_range] at hspan
      rcases hspan with (rfl | rfl | rfl | rfl) | ⟨i, hi, rfl⟩
      · exact htype
      · exact skb.contains_mk.mpr (by omega)
      · exact skb.contains_mk.mpr (by omega)
      · exact skb.contains_mk.mpr (by omega)
      · rw [MAX_DISK_REQUESTS_IN_PARALLEL] at hn
        exact skb.contains_mk.mpr (by omega)
    · simpa using htype
  | emulatorTransferData dir =>
    cases dir with
    | write => simpa [Caller.decode] using htype
    | read =>
      rw [Caller.decode_read]
      split
      · refine ⟨fun span hspan ↦ ?_, Nat.zero_le _⟩
        simp only [List.mem_cons, List.not_mem_nil, or_false] at hspan
        rcases hspan with rfl | rfl
        · exact htype
        · rw [Caller.needs] at hlong
          exact skb.contains_mk.mpr (by omega)
      · simpa using htype

theorem reads_ip (h : skb.protocol = ETH_P_IP) : ⟨16, 4⟩ ∈ (nctussReceiveSkb nn n skb).2 := by
  unfold nctussReceiveSkb
  split
  · exact absurd h (by assumption)
  split
  · simp
  split
  · simp
  split
  · simp
  split <;> simp

theorem reads_udp (h : skb.protocol = ETH_P_IP) (hd : skb.daddr = nn.localIp)
    (hs : skb.saddr = nn.remoteIp) : ⟨skb.ihl * 4 + 2, 2⟩ ∈ (nctussReceiveSkb nn n skb).2 := by
  rw [nctussReceiveSkb, if_neg (not_not.mpr h), if_neg (not_not.mpr hd.symm),
    if_neg (not_not.mpr hs.symm)]
  split
  · simp
  split <;> simp

theorem reads_id (h : Addressed nn skb) : ⟨skb.data, 4⟩ ∈ (nctussReceiveSkb nn n skb).2 := by
  rw [nctussReceiveSkb_addressed h]
  simp

theorem nctussReceiveSkb_other (h : Addressed nn skb) (hid : skb.replyId ≠ n) :
    (nctussReceiveSkb nn n skb).1 = .printed := by
  rw [nctussReceiveSkb_addressed h]
  exact if_neg hid

theorem nctussReceiveSkb_awaited (h : Addressed nn skb) (hid : skb.replyId = n) :
    (nctussReceiveSkb nn n skb).1 =
      if skb.dataLen > MAX_SKB_DATA_SIZE then .endless else .replied := by
  rw [nctussReceiveSkb_addressed h]
  exact if_pos hid

theorem Proper.reads (h : Proper nn n caller skb) :
    ∀ span ∈ (nctussReceiveSkb nn n skb).2, skb.Contains span := by
  unfold nctussReceiveSkb
  split
  · simp
  rename_i hip
  have hlen := h.ip (not_not.mp hip)
  have h0 : skb.Contains ⟨0, 1⟩ := skb.contains_mk.mpr (by omega)
  have h16 : skb.Contains ⟨16, 4⟩ := skb.contains_mk.mpr (by omega)
  have h12 : skb.Contains ⟨12, 4⟩ := skb.contains_mk.mpr (by omega)
  split
  · simpa using ⟨h0, h16⟩
  rename_i hd
  split
  · simpa using ⟨h0, h16, h12⟩
  rename_i hs
  have hports := h.udp (not_not.mp hip) (not_not.mp hd).symm (not_not.mp hs).symm
  have hdest : skb.Contains ⟨skb.ihl * 4 + 2, 2⟩ := skb.contains_mk.mpr (by omega)
  have hsource : skb.Contains ⟨skb.ihl * 4, 2⟩ := skb.contains_mk.mpr (by omega)
  split
  · simpa using ⟨h0, h16, h12, hdest⟩
  rename_i hpd
  split
  · simpa using ⟨h0, h16, h12, hdest, hsource⟩
  rename_i hps
  have hid := h.id ⟨not_not.mp hip, (not_not.mp hd).symm, (not_not.mp hs).symm,
    (not_not.mp hpd).symm, (not_not.mp hps).symm⟩
  have hdata : skb.Contains ⟨skb.data, 4⟩ := skb.contains_mk.mpr hid
  simpa using ⟨h0, h16, h12, hdest, hsource, hdata⟩

theorem replied_iff : (nctussReceiveSkb nn n skb).1 = .replied ↔
    Addressed nn skb ∧ skb.replyId = n ∧ ¬ skb.dataLen > MAX_SKB_DATA_SIZE := by
  by_cases ha : Addressed nn skb
  swap
  · rw [nctussReceiveSkb_foreign ha]
    simp [ha]
  by_cases hid : skb.replyId = n
  swap
  · rw [nctussReceiveSkb_other ha hid]
    simp [hid]
  rw [nctussReceiveSkb_awaited ha hid]
  split <;> simp_all

theorem endless_iff : (nctussReceiveSkb nn n skb).1 = .endless ↔
    Addressed nn skb ∧ skb.replyId = n ∧ skb.dataLen > MAX_SKB_DATA_SIZE := by
  by_cases ha : Addressed nn skb
  swap
  · rw [nctussReceiveSkb_foreign ha]
    simp [ha]
  by_cases hid : skb.replyId = n
  swap
  · rw [nctussReceiveSkb_other ha hid]
    simp [hid]
  rw [nctussReceiveSkb_awaited ha hid]
  split <;> simp_all

theorem Proper.acceptable (h : Proper nn n caller skb) (ha : Addressed nn skb)
    (hid : skb.replyId = n) : Acceptable nn caller skb := by
  obtain ⟨hversion, hihl, hudp⟩ := h.packet ha hid
  obtain ⟨hlong, -⟩ := h.size ha hid
  obtain ⟨hreads, hwrites⟩ := Caller.decode_reads hlong (h.count ha hid)
  obtain ⟨h1, h2, h3, h4, h5⟩ := ha
  exact ⟨⟨h1, hversion, hihl, hudp, h3, h2, h5, h4⟩, hlong, hreads, hwrites⟩

/-- The client is safe on exactly the frames that are proper. -/
theorem frame_safe_iff (nn : NctussNetpoll) (n : UInt32) (caller : Caller) (skb : SkBuff) :
    Safe nn n caller skb ↔ Proper nn n caller skb := by
  constructor
  · intro h
    have hid (ha : Addressed nn skb) : skb.data + 4 ≤ skb.len.toNat := h.reads _ (reads_id ha)
    have hshort (ha : Addressed nn skb) (hn : skb.replyId = n) :
        ¬ skb.dataLen > MAX_SKB_DATA_SIZE :=
      fun hlong ↦ h.returns (endless_iff.mpr ⟨ha, hn, hlong⟩)
    have hacc (ha : Addressed nn skb) (hn : skb.replyId = n) : Acceptable nn caller skb :=
      h.accepts (replied_iff.mpr ⟨ha, hn, hshort ha hn⟩)
    refine ⟨fun hp ↦ h.reads _ (reads_ip hp), fun hp hd hs ↦ h.reads _ (reads_udp hp hd hs), hid,
      fun ha hn ↦ ?_, fun ha hn ↦ ?_, fun ha hn hcaller hok ↦ ?_⟩
    · have hserver := (hacc ha hn).fromServer
      exact ⟨hserver.version, hserver.ihl, hserver.ipProtocol⟩
    · have hs := hshort ha hn
      have hlen := skb.dataLen_eq (by have := hid ha; omega)
      exact ⟨(hacc ha hn).long, by omega⟩
    · have hwrites := (hacc ha hn).writes
      rw [hcaller, Caller.decode_getResponses, if_pos hok] at hwrites
      dsimp only at hwrites
      rw [SkBuff.numResponses] at hwrites
      exact Int.toNat_le.mp hwrites
  · intro h
    refine ⟨fun hendless ↦ ?_, h.reads, fun hreplied ↦ ?_⟩
    · obtain ⟨ha, hid, hlong⟩ := endless_iff.mp hendless
      obtain ⟨-, hshort⟩ := h.size ha hid
      have hlen := skb.dataLen_eq (by have := h.id ha; omega)
      omega
    · obtain ⟨ha, hid, -⟩ := replied_iff.mp hreplied
      exact h.acceptable ha hid

def SkBuff.payload (skb : SkBuff) : Bytes := slice skb.mem skb.data (skb.len.toNat - skb.data)

theorem word_slice (mem : ℕ → UInt8) (offset : ℕ) {size : ℕ} (h : 4 ≤ size) :
    word (slice mem offset size) 0 = word (slice mem offset 4) 0 := by
  have hget {k : ℕ} (hk : 4 ≤ k) {i : ℕ} (hi : i < 4) :
      (slice mem offset k).getD i 0 = mem (offset + i) := by
    rw [List.getD_eq_getElem?_getD, slice_getElem? mem (by omega), Option.getD_some]
  simp only [word, Nat.mul_zero, Nat.zero_add]
  rw [hget h (by decide), hget h (by decide), hget h (by decide), hget h (by decide),
    hget le_rfl (by decide), hget le_rfl (by decide), hget le_rfl (by decide),
    hget le_rfl (by decide)]

/-- On a frame of the server that holds at least an id, the parser does what the
client of the network model does with its payload. -/
theorem nctussReceiveSkb_client (h : Addressed nn skb) (hlen : skb.data + 4 ≤ skb.len.toNat)
    (c : Client) : c.nctussReceiveSkb skb.payload =
      match (nctussReceiveSkb nn c.currentWaitingReplyId skb).1 with
      | .endless => { c with trapped := true }
      | .replied => { c with skb := skb.payload, skbReplied := true }
      | _ => c := by
  have hid : (NctussEmuReply.decode skb.payload).id = skb.replyId :=
    word_slice skb.mem skb.data (by omega)
  have hsize : skb.payload.length = skb.dataLen := by
    rw [SkBuff.payload, slice_length, skb.dataLen_eq (by omega)]
  rw [Client.nctussReceiveSkb, hid, hsize]
  by_cases hn : skb.replyId = c.currentWaitingReplyId
  · rw [if_pos hn, nctussReceiveSkb_awaited h hn]
    split <;> rfl
  · rw [if_neg hn, nctussReceiveSkb_other h hn]

def firstEnds : NctussNetpoll := ⟨[10, 48, 101, 20], [10, 48, 101, 68], 5135, 5134⟩

def frameOf (tag : ℕ) (ipProtocol : UInt8) (payload : Bytes) : SkBuff :=
  let bytes := [0x45, 0, 0, 0, 0, 0, 0, 0, 64, ipProtocol, 0, 0, 10, 48, 101, 68, 10, 48, 101, 20,
    20, 14, 20, 15, 0, 0, 0, 0] ++ payload
  { tag := tag
    protocol := ETH_P_IP
    len := UInt32.ofNat bytes.length
    mem := fun i ↦ bytes.getD i 0 }

def payloadOf (size : ℕ) : Bytes := 123 :: List.replicate (size - 1) 0

/-- Frames that take the parser out of the frame or into an endless loop, or that are
kept as a reply although they are TCP, or too short, or announce too many ids. -/
theorem frames_unsafe :
    ¬ Safe firstEnds 123 .emulatorReset { frameOf 0 IPPROTO_UDP [] with len := 1 } ∧
      ¬ Safe firstEnds 123 .emulatorReset (frameOf 0 IPPROTO_UDP (payloadOf 2049)) ∧
      ¬ Safe firstEnds 123 .emulatorReset (frameOf 0 6 (payloadOf 156)) ∧
      ¬ Safe firstEnds 123 .emulatorReset (frameOf 0 IPPROTO_UDP (payloadOf 155)) ∧
      ¬ Safe firstEnds 123 .emulatorGetResponses
        (frameOf 0 IPPROTO_UDP ([123, 0, 0, 0, 1, 0, 0, 0, 9] ++ List.replicate 147 0)) := by
  refine ⟨fun h ↦ ?_, fun h ↦ ?_, fun h ↦ ?_, fun h ↦ ?_, fun h ↦ ?_⟩
  · exact absurd (h.reads _ (reads_ip rfl)) (by decide)
  · exact h.returns (by decide +kernel)
  · exact absurd (h.accepts (by decide +kernel)).fromServer.ipProtocol (by decide)
  · exact absurd (h.accepts (by decide +kernel)).long (by decide +kernel)
  · exact absurd (h.accepts (by decide +kernel)).writes (by decide +kernel)

end Nctusde.EmulatorKernel

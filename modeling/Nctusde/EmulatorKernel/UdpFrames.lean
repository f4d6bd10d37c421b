import Nctusde.EmulatorKernel.Frames
import Nctusde.Library.Checksum
import Nctusde.UdpServer.Requests

namespace Nctusde.EmulatorKernel

open Library.Checksum Library.Memory Network UdpServer Wire

def CSUM_MANGLED_0 : UInt16 := 0xffff

def ETH_HLEN : ℕ := 14

def NET_IP_ALIGN : ℕ := 2

def be16 (x : UInt16) : Bytes := [UInt8.ofNat (x.toNat / 256), UInt8.ofNat x.toNat]

def le16 (x : UInt16) : Bytes := [UInt8.ofNat x.toNat, UInt8.ofNat (x.toNat / 256)]

def pseudoHeader (saddr daddr : Bytes) (len : UInt16) (proto : UInt8) : Bytes :=
  saddr ++ daddr ++ [0, proto] ++ be16 len

structure Csum where
  csumPartial : Bytes → UInt32 → UInt32
  csumTcpudpMagic : Bytes → Bytes → UInt16 → UInt8 → UInt32 → UInt16
  ipFastCsum : Bytes → UInt16

/-- They add words as the machine loads them, with the carry at the low end, and the last two
give the complement of the sum. -/
structure Csum.Sums (K : Csum) : Prop where
  csumPartial : ∀ b sum, (K.csumPartial b sum).toNat ≡ sumLE b + sum.toNat [MOD 65535]
  csumTcpudpMagic : ∀ saddr daddr len proto sum,
    (K.csumTcpudpMagic saddr daddr len proto sum).toNat +
      (sumLE (pseudoHeader saddr daddr len proto) + sum.toNat) ≡ 0 [MOD 65535]
  ipFastCsum : ∀ b, (K.ipFastCsum b).toNat + sumLE b ≡ 0 [MOD 65535]

structure Ends extends NctussNetpoll where
  localMac : Bytes
  remoteMac : Bytes
  localIp_length : localIp.length = 4
  remoteIp_length : remoteIp.length = 4
  localMac_length : localMac.length = 6
  remoteMac_length : remoteMac.length = 6

/-- A frame to be sent: `data` and `len` mark the part of the buffer it has so far. -/
structure SendSkb where
  mem : ℕ → UInt8
  data : ℕ
  len : ℕ

namespace SendSkb

variable (skb : SendSkb)

def frame : Bytes := slice skb.mem skb.data skb.len

def reserve (n : ℕ) : SendSkb := { skb with data := skb.data + n }

/-- `skb_push`, which panics when there is no room in front of the data. -/
def push (n : ℕ) : Option SendSkb :=
  if skb.data < n then none else some { skb with data := skb.data - n, len := skb.len + n }

def write (header : Bytes) : SendSkb := { skb with mem := blit skb.mem skb.data header }

/-- A header is filled in without its checksum, and then with that of the first `cover` bytes. -/
def addHeader (n cover : ℕ) (header : UInt16 → Bytes) (check : Bytes → UInt16) :
    Option SendSkb := do
  let skb ← skb.push n
  let skb := skb.write (header 0)
  return skb.write (header (check (slice skb.mem skb.data cover)))

def put (message : Bytes) : SendSkb :=
  { skb with
    mem := blit skb.mem (skb.data + skb.len) message
    len := skb.len + message.length }

end SendSkb

namespace Ends

variable (nn : Ends)

def udphdr (udpLen : ℕ) (check : UInt16) : Bytes :=
  be16 nn.localPort ++ be16 nn.remotePort ++ be16 (UInt16.ofNat udpLen) ++ le16 check

def iphdr (ipLen : ℕ) (check : UInt16) : Bytes :=
  [0x45, 0] ++ be16 (UInt16.ofNat ipLen) ++ [0, 0, 0, 0, 64, IPPROTO_UDP] ++ le16 check ++
    nn.localIp ++ nn.remoteIp

def ethhdr : Bytes := nn.remoteMac ++ nn.localMac ++ be16 ETH_P_IP

end Ends

/-- The driver below hands out an empty buffer. -/
def emulatorGetNextSkb (skb : SendSkb) : SendSkb := skb.reserve (8 + 20 + ETH_HLEN + NET_IP_ALIGN)

def udpCheck (K : Csum) (nn : Ends) (udp : Bytes) : UInt16 :=
  let check := K.csumTcpudpMagic nn.localIp nn.remoteIp (UInt16.ofNat udp.length) IPPROTO_UDP
    (K.csumPartial udp 0)
  if check = 0 then CSUM_MANGLED_0 else check

def skbUdpFinish (K : Csum) (nn : Ends) (skb : SendSkb) : Option SendSkb := do
  let udpLen := skb.len + 8
  let ipLen := udpLen + 20
  let skb ← skb.addHeader 8 udpLen (nn.udphdr udpLen) (udpCheck K nn)
  let skb ← skb.addHeader 20 20 (nn.iphdr ipLen) K.ipFastCsum
  let skb ← skb.push ETH_HLEN
  return skb.write nn.ethhdr

/-- What `communicate_with_emulator` gives to the network driver. -/
def sendFrame (K : Csum) (nn : Ends) (skb : SendSkb) (request : NctussEmuRequest) (data : Bytes) :
    Option Bytes :=
  (skbUdpFinish K nn ((emulatorGetNextSkb skb).put (datagramOf request data))).map SendSkb.frame

/-! ### The other end -/

def be16At (b : Bytes) (i : ℕ) : ℕ := (b.getD i 0).toNat * 256 + (b.getD (i + 1) 0).toNat

structure Packet where
  destMac : Bytes
  sourceMac : Bytes
  saddr : Bytes
  daddr : Bytes
  source : UInt16
  dest : UInt16
  payload : Bytes
  deriving DecidableEq, Repr

def readEth (b : Bytes) : Option (Bytes × Bytes × Bytes) :=
  if b.length < ETH_HLEN ∨ be16At b 12 ≠ ETH_P_IP.toNat then none
  else some (b.take 6, (b.drop 6).take 6, b.drop ETH_HLEN)

/-- An IP packet that is whole, not a fragment, and right by its checksum. -/
def readIp (b : Bytes) : Option (Bytes × Bytes × Bytes) :=
  let ihl := (b.getD 0 0).toNat % 16
  let total := be16At b 2
  if (b.getD 0 0).toNat / 16 ≠ 4 ∨ ihl < 5 then none
  else if total < ihl * 4 ∨ b.length < total then none
  else if onesSum (b.take (ihl * 4)) ≠ 65535 then none
  else if be16At b 6 % 2 ^ 14 ≠ 0 ∨ b.getD 9 0 ≠ IPPROTO_UDP then none
  else some ((b.drop 12).take 4, (b.drop 16).take 4, (b.take total).drop (ihl * 4))

/-- A UDP packet that fills its IP packet and has a checksum, which is right. -/
def readUdp (saddr daddr b : Bytes) : Option (UInt16 × UInt16 × Bytes) :=
  if b.length < 8 ∨ be16At b 4 ≠ b.length ∨ be16At b 6 = 0 then none
  else if onesSum (pseudoHeader saddr daddr (UInt16.ofNat b.length) IPPROTO_UDP ++ b) ≠ 65535 then
    none
  else some (UInt16.ofNat (be16At b 0), UInt16.ofNat (be16At b 2), b.drop 8)

def readFrame (b : Bytes) : Option Packet := do
  let (destMac, sourceMac, ip) ← readEth b
  let (saddr, daddr, udp) ← readIp ip
  let (source, dest, payload) ← readUdp saddr daddr udp
  return { destMac, sourceMac, saddr, daddr, source, dest, payload }

theorem be16_toNat (x : UInt16) :
    (UInt8.ofNat (x.toNat / 256)).toNat * 256 + (UInt8.ofNat x.toNat).toNat = x.toNat := by
  have hx := x.toNat_lt
  rw [UInt8.toNat_ofNat', UInt8.toNat_ofNat']
  omega

theorem sumLE_append {xs : Bytes} (ys : Bytes) {n : ℕ} (h : xs.length = 2 * n) :
    sumLE (xs ++ ys) = sumLE xs + sumLE ys := words_append _ ys h

theorem sumLE_le16 (x : UInt16) (ys : Bytes) : sumLE (le16 x ++ ys) = x.toNat + sumLE ys := by
  have hx := be16_toNat x
  rw [sumLE_append ys (n := 1) rfl, ← hx, Nat.add_comm (_ * 256)]
  rfl

theorem sumLE_zeroed {pre post : Bytes} {n : ℕ} (h : pre.length = 2 * n) (check : UInt16) :
    sumLE (pre ++ (le16 check ++ post)) = check.toNat + sumLE (pre ++ (le16 0 ++ post)) := by
  rw [sumLE_append _ h, sumLE_append _ h, sumLE_le16, sumLE_le16, UInt16.toNat_zero]
  omega

theorem sumBE_append {xs : Bytes} (ys : Bytes) {n : ℕ} (h : xs.length = 2 * n) :
    sumBE (xs ++ ys) = sumBE xs + sumBE ys := words_append _ ys h

namespace SendSkb

variable {skb : SendSkb} {header : Bytes} {n : ℕ}

theorem push_eq (h : n ≤ skb.data) :
    skb.push n = some { skb with data := skb.data - n, len := skb.len + n } := if_neg (not_lt.mpr h)

theorem frame_length : skb.frame.length = skb.len := slice_length _ _ _

theorem frame_write (h : header.length ≤ skb.len) :
    (skb.write header).frame = header ++ skb.frame.drop header.length := by
  obtain ⟨rest, hrest⟩ := Nat.exists_eq_add_of_le h
  have hdrop : skb.frame.drop header.length = slice skb.mem (skb.data + header.length) rest := by
    rw [frame, hrest, slice_add, List.drop_left' (slice_length _ _ _)]
  rw [hdrop, frame, write, hrest, slice_add, slice_blit_same,
    slice_blit_disjoint _ (.inr (Nat.le_refl _))]

theorem frame_push (h : n ≤ skb.data) :
    ({ skb with data := skb.data - n, len := skb.len + n } : SendSkb).frame =
      slice skb.mem (skb.data - n) n ++ skb.frame := by
  rw [frame, frame, Nat.add_comm skb.len, slice_add, Nat.sub_add_cancel h]

theorem frame_push_write (hlen : header.length = n) (h : n ≤ skb.data) :
    (({ skb with data := skb.data - n, len := skb.len + n } : SendSkb).write header).frame =
      header ++ skb.frame := by
  subst hlen
  rw [frame_write (Nat.le_add_left _ _), frame_push h, List.drop_left' (slice_length _ _ _)]

theorem frame_write_write {header' rest : Bytes} (hf : skb.frame = header ++ rest)
    (h : header'.length = header.length) : (skb.write header').frame = header' ++ rest := by
  have hlen : header'.length ≤ skb.len := by
    rw [← frame_length, hf, List.length_append, h]
    exact Nat.le_add_right _ _
  rw [frame_write hlen, hf, h, List.drop_left]

theorem slice_eq_take (h : n ≤ skb.len) : slice skb.mem skb.data n = skb.frame.take n := by
  obtain ⟨rest, hrest⟩ := Nat.exists_eq_add_of_le h
  rw [frame, hrest, slice_add, List.take_left' (slice_length _ _ _)]

theorem addHeader_spec {cover : ℕ} {header : UInt16 → Bytes} (check : Bytes → UInt16)
    (hlen : ∀ c, (header c).length = n) (h : n ≤ skb.data) (hcover : cover ≤ skb.len + n) :
    ∃ skb', skb.addHeader n cover header check = some skb' ∧ skb'.data = skb.data - n ∧
      skb'.len = skb.len + n ∧
      skb'.frame = header (check ((header 0 ++ skb.frame).take cover)) ++ skb.frame := by
  have hframe := frame_push_write (hlen 0) h
  refine ⟨_, by rw [addHeader, push_eq h]; rfl, rfl, rfl, ?_⟩
  rw [frame_write_write hframe ((hlen _).trans (hlen 0).symm)]
  exact congrArg (fun b ↦ header (check b) ++ skb.frame)
    ((slice_eq_take hcover).trans (congrArg (List.take cover) hframe))

theorem frame_put (h : skb.len = 0) : (skb.put header).frame = header := by
  rw [frame, put, h, Nat.zero_add, Nat.add_zero, slice_blit_same]

end SendSkb

namespace Ends

variable (nn : Ends) (udpLen ipLen : ℕ) (check : UInt16)

@[simp] theorem udphdr_length : (nn.udphdr udpLen check).length = 8 := rfl

@[simp] theorem iphdr_length : (nn.iphdr ipLen check).length = 20 := by
  simp [iphdr, be16, le16, nn.localIp_length, nn.remoteIp_length]

@[simp] theorem ethhdr_length : nn.ethhdr.length = ETH_HLEN := by
  simp [ethhdr, be16, nn.localMac_length, nn.remoteMac_length, ETH_HLEN]

end Ends

theorem skbUdpFinish_frame (K : Csum) (nn : Ends) {skb : SendSkb} (h : 42 ≤ skb.data) :
    ∃ skb', skbUdpFinish K nn skb = some skb' ∧ skb'.frame = nn.ethhdr ++
      (nn.iphdr (skb.len + 28) (K.ipFastCsum (nn.iphdr (skb.len + 28) 0)) ++
        (nn.udphdr (skb.len + 8) (udpCheck K nn (nn.udphdr (skb.len + 8) 0 ++ skb.frame)) ++
          skb.frame)) := by
  obtain ⟨udp, hudp, hdata, hlen, hframe⟩ := skb.addHeader_spec (udpCheck K nn)
    (nn.udphdr_length (skb.len + 8)) (show 8 ≤ skb.data by omega) (Nat.le_refl _)
  obtain ⟨ip, hip, hdata', hlen', hframe'⟩ := udp.addHeader_spec K.ipFastCsum
    (nn.iphdr_length (skb.len + 28)) (show 20 ≤ udp.data by omega) (Nat.le_add_left 20 _)
  have heth : ETH_HLEN ≤ ip.data := by
    rw [hdata', hdata, ETH_HLEN]
    omega
  rw [List.take_of_length_le (by simp [SendSkb.frame_length]; omega)] at hframe
  rw [List.take_left' (nn.iphdr_length _ 0), hframe] at hframe'
  refine ⟨_, ?_, (SendSkb.frame_push_write nn.ethhdr_length heth).trans (congrArg _ hframe')⟩
  rw [skbUdpFinish, hudp]
  simp only [Option.bind_eq_bind, Option.bind_some]
  rw [hip, Option.bind_some, SendSkb.push_eq heth]
  rfl

theorem be16At_be16 {pre : Bytes} (post : Bytes) (x : UInt16) {n : ℕ} (h : pre.length = n) :
    be16At (pre ++ (be16 x ++ post)) n = x.toNat := by
  subst h
  rw [be16At, List.getD_append_right _ _ _ _ (Nat.le_refl _),
    List.getD_append_right _ _ _ _ (Nat.le_add_right _ 1), Nat.sub_self, Nat.add_sub_cancel_left]
  exact be16_toNat x

theorem be16At_ethhdr (nn : Ends) (rest : Bytes) :
    be16At (nn.ethhdr ++ rest) 12 = ETH_P_IP.toNat := by
  rw [show nn.ethhdr ++ rest = (nn.remoteMac ++ nn.localMac) ++ (be16 ETH_P_IP ++ rest) by
    simp only [Ends.ethhdr, List.append_assoc]]
  exact be16At_be16 rest ETH_P_IP (by
    rw [List.length_append, nn.remoteMac_length, nn.localMac_length])

theorem readEth_ethhdr (nn : Ends) (rest : Bytes) :
    readEth (nn.ethhdr ++ rest) = some (nn.remoteMac, nn.localMac, rest) := by
  have hsplit : nn.ethhdr ++ rest = nn.remoteMac ++ (nn.localMac ++ (be16 ETH_P_IP ++ rest)) := by
    simp only [Ends.ethhdr, List.append_assoc]
  rw [readEth, if_neg]
  · rw [List.drop_left' nn.ethhdr_length, hsplit, List.take_left' nn.remoteMac_length,
      List.drop_left' nn.remoteMac_length, List.take_left' nn.localMac_length]
  · rw [be16At_ethhdr, List.length_append, nn.ethhdr_length]
    exact not_or.mpr ⟨Nat.not_lt.mpr (Nat.le_add_right _ _), fun h ↦ h rfl⟩

theorem iphdr_drop_saddr (nn : Ends) (ipLen : ℕ) (check : UInt16) (rest : Bytes) :
    (nn.iphdr ipLen check ++ rest).drop 12 = nn.localIp ++ (nn.remoteIp ++ rest) := by
  simp [Ends.iphdr, be16, le16]

theorem iphdr_drop_daddr (nn : Ends) (ipLen : ℕ) (check : UInt16) (rest : Bytes) :
    (nn.iphdr ipLen check ++ rest).drop 16 = nn.remoteIp ++ rest := by
  rw [show 16 = 12 + 4 from rfl, ← List.drop_drop, iphdr_drop_saddr,
    List.drop_left' nn.localIp_length]

theorem readIp_iphdr (nn : Ends) {ipLen : ℕ} {check : UInt16} {rest : Bytes}
    (hlen : ipLen = 20 + rest.length) (hfit : ipLen < 2 ^ 16)
    (hsum : onesSum (nn.iphdr ipLen check) = 65535) :
    readIp (nn.iphdr ipLen check ++ rest) = some (nn.localIp, nn.remoteIp, rest) := by
  have htotal : be16At (nn.iphdr ipLen check ++ rest) 2 = ipLen := by
    rw [show be16At (nn.iphdr ipLen check ++ rest) 2 = (UInt16.ofNat ipLen).toNat from
      be16_toNat _, UInt16.toNat_ofNat', Nat.mod_eq_of_lt hfit]
  have hall : (nn.iphdr ipLen check ++ rest).length = ipLen := by
    rw [List.length_append, nn.iphdr_length, hlen]
  have hfragment : be16At (nn.iphdr ipLen check ++ rest) 6 = 0 := be16_toNat 0
  rw [readIp, htotal, hall, show ((nn.iphdr ipLen check ++ rest).getD 0 0).toNat = 69 from rfl,
    if_neg (by decide), if_neg (by omega), List.take_left' (nn.iphdr_length _ _), hsum,
    if_neg (fun h ↦ h rfl), hfragment, if_neg]
  · rw [List.take_of_length_le hall.le, List.drop_left' (nn.iphdr_length _ _),
      iphdr_drop_saddr, iphdr_drop_daddr, List.take_left' nn.localIp_length,
        List.take_left' nn.remoteIp_length]
  · exact not_or.mpr ⟨fun h ↦ h rfl, fun h ↦ h rfl⟩

theorem readUdp_udphdr (nn : Ends) {udpLen : ℕ} {check : UInt16} {payload : Bytes}
    (hlen : udpLen = 8 + payload.length) (hfit : udpLen < 2 ^ 16) (hcheck : check ≠ 0)
    (hsum : onesSum (pseudoHeader nn.localIp nn.remoteIp (UInt16.ofNat udpLen) IPPROTO_UDP ++
      (nn.udphdr udpLen check ++ payload)) = 65535) :
    readUdp nn.localIp nn.remoteIp (nn.udphdr udpLen check ++ payload) =
      some (nn.localPort, nn.remotePort, payload) := by
  have hall : (nn.udphdr udpLen check ++ payload).length = udpLen := by
    rw [List.length_append, nn.udphdr_length, hlen]
  have hword (x : UInt16) (i : ℕ) (h : be16At (nn.udphdr udpLen check ++ payload) i =
      (UInt8.ofNat (x.toNat / 256)).toNat * 256 + (UInt8.ofNat x.toNat).toNat) :
      be16At (nn.udphdr udpLen check ++ payload) i = x.toNat := h.trans (be16_toNat x)
  have htotal : be16At (nn.udphdr udpLen check ++ payload) 4 = udpLen := by
    rw [hword (UInt16.ofNat udpLen) 4 rfl, UInt16.toNat_ofNat', Nat.mod_eq_of_lt hfit]
  have hnonzero : be16At (nn.udphdr udpLen check ++ payload) 6 ≠ 0 := by
    intro hzero
    apply hcheck
    have hlt := check.toNat_lt
    rw [show be16At (nn.udphdr udpLen check ++ payload) 6 =
      (UInt8.ofNat check.toNat).toNat * 256 + (UInt8.ofNat (check.toNat / 256)).toNat from rfl,
      UInt8.toNat_ofNat', UInt8.toNat_ofNat'] at hzero
    apply UInt16.toNat_inj.mp
    rw [UInt16.toNat_zero]
    omega
  rw [readUdp, htotal, hall, if_neg, if_neg (fun h ↦ h hsum), hword nn.localPort 0 rfl,
    hword nn.remotePort 2 rfl, UInt16.ofNat_toNat, UInt16.ofNat_toNat,
    List.drop_left' (nn.udphdr_length _ _)]
  exact not_or.mpr ⟨by omega, not_or.mpr ⟨fun h ↦ h rfl, hnonzero⟩⟩

section

variable {K : Csum} (nn : Ends)

theorem onesSum_iphdr (hK : K.Sums) (ipLen : ℕ) :
    onesSum (nn.iphdr ipLen (K.ipFastCsum (nn.iphdr ipLen 0))) = 65535 := by
  have hsplit (check : UInt16) : nn.iphdr ipLen check = ([0x45, 0] ++ be16 (UInt16.ofNat ipLen) ++
      [0, 0, 0, 0, 64, IPPROTO_UDP]) ++ (le16 check ++ (nn.localIp ++ nn.remoteIp)) := by
    simp only [Ends.iphdr, List.append_assoc]
  refine onesSum_eq_iff.mpr ⟨?_, sumBE_of_sumLE ?_⟩
  · rw [show sumBE (nn.iphdr ipLen _) = (69 : UInt8).toNat * 256 + (0 : UInt8).toNat + _ from rfl,
      show (69 : UInt8).toNat = 69 from rfl]
    omega
  · rw [hsplit, sumLE_zeroed (n := 5) rfl, ← hsplit]
    exact hK.ipFastCsum _

theorem udpCheck_ne_zero (K : Csum) (udp : Bytes) : udpCheck K nn udp ≠ 0 := by
  unfold udpCheck
  dsimp only
  split
  · decide
  · assumption

/-- A checksum of 0 is sent as all ones, which counts the same. -/
theorem udpCheck_sums (hK : K.Sums) (udp : Bytes) : (udpCheck K nn udp).toNat +
    (sumLE (pseudoHeader nn.localIp nn.remoteIp (UInt16.ofNat udp.length) IPPROTO_UDP) +
      sumLE udp) ≡ 0 [MOD 65535] := by
  have hhead : (K.csumPartial udp 0).toNat ≡ sumLE udp [MOD 65535] := hK.csumPartial udp 0
  have hmagic := hK.csumTcpudpMagic nn.localIp nn.remoteIp (UInt16.ofNat udp.length) IPPROTO_UDP
    (K.csumPartial udp 0)
  have hsum := ((hhead.symm.add_left _).add_left _).trans hmagic
  unfold udpCheck
  dsimp only
  split
  · rename_i hzero
    rw [hzero] at hsum
    exact (Nat.ModEq.add_right _ (Nat.modEq_zero_iff_dvd.mpr ⟨1, rfl⟩)).trans hsum
  · exact hsum

theorem onesSum_udp (hK : K.Sums) {udpLen : ℕ} {payload : Bytes}
    (hlen : udpLen = 8 + payload.length) :
    onesSum (pseudoHeader nn.localIp nn.remoteIp (UInt16.ofNat udpLen) IPPROTO_UDP ++
      (nn.udphdr udpLen (udpCheck K nn (nn.udphdr udpLen 0 ++ payload)) ++ payload)) = 65535 := by
  have hpseudo : (pseudoHeader nn.localIp nn.remoteIp (UInt16.ofNat udpLen) IPPROTO_UDP).length =
      2 * 6 := by
    simp [pseudoHeader, be16, nn.localIp_length, nn.remoteIp_length]
  have haddrs : (nn.localIp ++ nn.remoteIp).length = 2 * 4 := by
    rw [List.length_append, nn.localIp_length, nn.remoteIp_length]
  have hsplit (check : UInt16) : nn.udphdr udpLen check ++ payload =
      (be16 nn.localPort ++ be16 nn.remotePort ++ be16 (UInt16.ofNat udpLen)) ++
        (le16 check ++ payload) := by
    simp only [Ends.udphdr, List.append_assoc]
  have hsums := udpCheck_sums nn hK (nn.udphdr udpLen 0 ++ payload)
  rw [List.length_append, nn.udphdr_length, ← hlen] at hsums
  refine onesSum_eq_iff.mpr ⟨?_, sumBE_of_sumLE ?_⟩
  · rw [sumBE_append _ hpseudo, pseudoHeader, List.append_assoc _ [0, IPPROTO_UDP],
      sumBE_append _ haddrs, List.cons_append, List.cons_append, sumBE_cons,
      show IPPROTO_UDP.toNat = 17 from rfl]
    omega
  · rw [sumLE_append _ hpseudo, hsplit, sumLE_zeroed (n := 3) rfl, ← hsplit, Nat.add_left_comm]
    exact hsums

end

def Ends.mirror (nn : Ends) : NctussNetpoll where
  localIp := nn.remoteIp
  remoteIp := nn.localIp
  localPort := nn.remotePort
  remotePort := nn.localPort

/-- A frame as `nctuss_receive_skb` is given it, from the network header on. -/
def SkBuff.arrived (tag : ℕ) (frame : Bytes) : SkBuff where
  tag := tag
  protocol := UInt16.ofNat (be16At frame 12)
  len := UInt32.ofNat (frame.length - ETH_HLEN)
  mem := fun i ↦ frame.getD (ETH_HLEN + i) 0

theorem slice_getD (b : Bytes) {off n : ℕ} (h : off + n ≤ b.length) :
    slice (fun i ↦ b.getD i 0) off n = (b.drop off).take n := by
  apply List.ext_getElem
  · simp only [slice_length, List.length_take, List.length_drop]
    omega
  · intro i hi _
    rw [slice_length] at hi
    simp only [slice, List.getElem_map, List.getElem_range, List.getElem_take, List.getElem_drop]
    exact List.getD_eq_getElem _ _ (by omega)

theorem word_take (b : Bytes) : word (b.take 4) 0 = word b 0 := by
  match b with
  | [] => rfl
  | [_] => rfl
  | [_, _] => rfl
  | [_, _, _] => rfl
  | _ :: _ :: _ :: _ :: _ => rfl

theorem getD_drop (b : Bytes) (n i : ℕ) : (b.drop n).getD i 0 = b.getD (n + i) 0 := by
  simp [List.getD_eq_getElem?_getD]

theorem SkBuff.arrived_mem (nn : Ends) (tag : ℕ) (ip : Bytes) :
    (SkBuff.arrived tag (nn.ethhdr ++ ip)).mem = fun i ↦ ip.getD i 0 := by
  funext i
  have hle : nn.ethhdr.length ≤ ETH_HLEN + i := nn.ethhdr_length.le.trans (Nat.le_add_right _ _)
  have hget := List.getD_append_right nn.ethhdr ip 0 _ hle
  rwa [nn.ethhdr_length, Nat.add_sub_cancel_left] at hget

/-- A driver at the other end would take the frame as the reply with the id that is its first
word. -/
theorem nctussReceiveSkb_mirror (nn : Ends) (tag ipLen udpLen : ℕ) (check check' : UInt16)
    {message : Bytes} (hmin : 4 ≤ message.length) (hmax : message.length ≤ MAX_SKB_DATA_SIZE) :
    (nctussReceiveSkb nn.mirror (word message 0) (.arrived tag (nn.ethhdr ++
      (nn.iphdr ipLen check ++ (nn.udphdr udpLen check' ++ message))))).1 = .replied := by
  have hdrop : (nn.iphdr ipLen check ++ (nn.udphdr udpLen check' ++ message)).drop 20 =
      nn.udphdr udpLen check' ++ message := List.drop_left' (nn.iphdr_length _ _)
  generalize hip : nn.iphdr ipLen check ++ (nn.udphdr udpLen check' ++ message) = ip at hdrop
  have hlen : ip.length = 28 + message.length := by
    rw [← hip, List.length_append, List.length_append, nn.iphdr_length, nn.udphdr_length]
    omega
  have hmem := SkBuff.arrived_mem nn tag ip
  generalize hskb : SkBuff.arrived tag (nn.ethhdr ++ ip) = skb at hmem
  have hlen' : skb.len.toNat = 28 + message.length := by
    rw [MAX_SKB_DATA_SIZE] at hmax
    rw [← hskb, SkBuff.arrived, List.length_append, nn.ethhdr_length, Nat.add_sub_cancel_left, hlen,
      UInt32.toNat_ofNat', Nat.mod_eq_of_lt (by omega)]
  have hslice {off n : ℕ} (h : off + n ≤ ip.length) : slice skb.mem off n =
      (ip.drop off).take n := by
    rw [hmem, slice_getD ip h]
  have hihl : skb.ihl = 5 := by
    have hfirst : skb.mem 0 = 0x45 := by
      rw [hmem, ← hip]
      rfl
    rw [SkBuff.ihl, hfirst]
    rfl
  have hport (i : ℕ) : skb.be16 (20 + i) =
      UInt16.ofNat (be16At (nn.udphdr udpLen check' ++ message) i) := by
    rw [SkBuff.be16, hmem, be16At, ← hdrop, getD_drop, getD_drop, Nat.add_assoc]
    rfl
  have haddressed : Addressed nn.mirror skb := by
    refine ⟨?_, ?_, ?_, ?_, ?_⟩
    · rw [← hskb, SkBuff.arrived, be16At_ethhdr, UInt16.ofNat_toNat]
    · rw [SkBuff.daddr, hslice (by omega), ← hip, iphdr_drop_daddr,
        List.take_left' nn.remoteIp_length]
      rfl
    · rw [SkBuff.saddr, hslice (by omega), ← hip, iphdr_drop_saddr,
        List.take_left' nn.localIp_length]
      rfl
    · rw [SkBuff.dest, hihl, hport]
      exact (congrArg UInt16.ofNat (be16_toNat nn.remotePort)).trans UInt16.ofNat_toNat
    · rw [SkBuff.source, hihl, ← Nat.add_zero (5 * 4), hport]
      exact (congrArg UInt16.ofNat (be16_toNat nn.localPort)).trans UInt16.ofNat_toNat
  have hdata : skb.data = 28 := by rw [SkBuff.data, hihl]
  have hid : skb.replyId = word message 0 := by
    rw [SkBuff.replyId, SkBuff.u32, hdata, hslice (by omega), show 28 = 20 + 8 from rfl,
      ← List.drop_drop, hdrop, List.drop_left' (nn.udphdr_length _ _), word_take]
  rw [nctussReceiveSkb_awaited haddressed hid, SkBuff.dataLen_eq (by omega), hlen', hdata,
    Nat.add_sub_cancel_left, if_neg (Nat.not_lt.mpr hmax)]

theorem word_datagramOf (request : NctussEmuRequest) (data : Bytes) :
    word (datagramOf request data) 0 = request.id := by
  have h := NctussEmuRequest.decode_encode { request with idCheck := request.id } data
  exact congrArg NctussEmuRequest.id h

theorem datagramOf_length (request : NctussEmuRequest) (data : Bytes) :
    (datagramOf request data).length = NctussEmuRequest.size + data.length := by
  rw [datagramOf, List.length_append, NctussEmuRequest.encode_length]

/-- Every message the driver sends arrives: its frame has room in the buffer, is right by all its
lengths and both checksums, and holds the datagram the server is given; a driver at the other end
would take it too. -/
theorem frames_arrive {K : Csum} (hK : K.Sums) (nn : Ends) {skb : SendSkb} (hempty : skb.len = 0)
    (request : NctussEmuRequest) {data : Bytes} (hfit : data.length + 64 < 2 ^ 16) :
    ∃ frame, sendFrame K nn skb request data = some frame ∧
      readFrame frame = some {
        destMac := nn.remoteMac
        sourceMac := nn.localMac
        saddr := nn.localIp
        daddr := nn.remoteIp
        source := nn.localPort
        dest := nn.remotePort
        payload := datagramOf request data } ∧
      requestOf (datagramOf request data) = { request with idCheck := request.id } ∧
      ((datagramOf request data).length ≤ MAX_SKB_DATA_SIZE → ∀ tag,
        (nctussReceiveSkb nn.mirror request.id (.arrived tag frame)).1 = .replied) := by
  have hlength := datagramOf_length request data
  rw [NctussEmuRequest.size] at hlength
  have hroom : 42 ≤ ((emulatorGetNextSkb skb).put (datagramOf request data)).data :=
    show 42 ≤ skb.data + 44 from (Nat.le_add_left 42 _).trans (Nat.add_le_add_left (by decide) _)
  obtain ⟨skb', hfinish, hframe⟩ := skbUdpFinish_frame K nn hroom
  have hput : ((emulatorGetNextSkb skb).put (datagramOf request data)).frame =
      datagramOf request data := SendSkb.frame_put hempty
  have hlen : ((emulatorGetNextSkb skb).put (datagramOf request data)).len =
      (datagramOf request data).length := (congrArg (· + _) hempty).trans (Nat.zero_add _)
  rw [hput, hlen] at hframe
  refine ⟨skb'.frame, by rw [sendFrame, hfinish]; rfl, ?_, requestOf_encode _ _, fun hmax tag ↦ ?_⟩
  · rw [hframe, readFrame, readEth_ethhdr]
    simp only [Option.bind_eq_bind, Option.bind_some]
    rw [readIp_iphdr nn (by rw [List.length_append, nn.udphdr_length]; omega) (by omega)
      (onesSum_iphdr nn hK _)]
    simp only [Option.bind_some]
    rw [readUdp_udphdr nn (by omega) (by omega) (udpCheck_ne_zero nn K _)
      (onesSum_udp nn hK (by omega))]
    rfl
  · rw [hframe, ← word_datagramOf request data]
    exact nctussReceiveSkb_mirror nn tag _ _ _ _ (by omega) hmax

def Csum.plain : Csum where
  csumPartial b sum := UInt32.ofNat ((sumLE b + sum.toNat) % 65535)
  csumTcpudpMagic saddr daddr len proto sum :=
    UInt16.ofNat (65535 - (sumLE (pseudoHeader saddr daddr len proto) + sum.toNat) % 65535)
  ipFastCsum b := UInt16.ofNat (65535 - sumLE b % 65535)

theorem complement_modEq (n : ℕ) :
    (UInt16.ofNat (65535 - n % 65535)).toNat + n ≡ 0 [MOD 65535] := by
  have hlt := Nat.mod_lt n (show 0 < 65535 by decide)
  have hdiv := Nat.div_add_mod n 65535
  rw [UInt16.toNat_ofNat', Nat.mod_eq_of_lt (by omega), Nat.modEq_zero_iff_dvd]
  exact ⟨n / 65535 + 1, by omega⟩

theorem Csum.plain_sums : Csum.plain.Sums where
  csumPartial b sum := by
    have hlt := Nat.mod_lt (sumLE b + sum.toNat) (show 0 < 65535 by decide)
    rw [Csum.plain, UInt32.toNat_ofNat', Nat.mod_eq_of_lt (by omega)]
    exact Nat.mod_modEq _ _
  csumTcpudpMagic _ _ _ _ _ := complement_modEq _
  ipFastCsum _ := complement_modEq _

/-- The ends as `emudisk_init` sets them for `server_port_offset` 0. -/
def Ends.first : Ends where
  localIp := [10, 48, 101, 20]
  remoteIp := [10, 48, 101, 68]
  localPort := 5135
  remotePort := 5134
  localMac := [0x00, 0x0a, 0x35, 0x00, 0x01, 0x20]
  remoteMac := [0x3c, 0x97, 0x0e, 0x6b, 0xd6, 0x01]
  localIp_length := rfl
  remoteIp_length := rfl
  localMac_length := rfl
  remoteMac_length := rfl

def tenthSectorWrite : NctussEmuRequest where
  id := 124
  type := NctussEmuRequestType.readWriteData.code
  data1 := 1
  data2 := 9

theorem frames_arrive_write : ∃ frame packet,
    sendFrame .plain .first ⟨fun _ ↦ 3, 0, 0⟩ tenthSectorWrite (List.replicate SECTOR_SIZE 7) =
        some frame ∧
      readFrame frame = some packet ∧ packet.dest = 5134 ∧
      packet.payload.drop NctussEmuRequest.size = List.replicate SECTOR_SIZE 7 ∧
      (requestOf packet.payload).data2 = 9 ∧
      (nctussReceiveSkb Ends.first.mirror 124 (.arrived 0 frame)).1 = .replied := by
  have hlength : (List.replicate SECTOR_SIZE (7 : UInt8)).length = 512 := List.length_replicate
  obtain ⟨frame, hsend, hread, hrequest, htaken⟩ := frames_arrive Csum.plain_sums .first
    (show SendSkb.len ⟨fun _ ↦ 3, 0, 0⟩ = 0 from rfl) tenthSectorWrite
    (show (List.replicate SECTOR_SIZE (7 : UInt8)).length + 64 < 2 ^ 16 by rw [hlength]; decide)
  refine ⟨frame, _, hsend, hread, rfl, ?_, congrArg NctussEmuRequest.data2 hrequest, ?_⟩
  · exact List.drop_left' (NctussEmuRequest.encode_length _)
  · refine htaken ?_ 0
    rw [datagramOf_length, hlength]
    decide

end Nctusde.EmulatorKernel

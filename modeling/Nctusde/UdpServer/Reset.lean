import Nctusde.UdpServer.Requests

namespace Nctusde.UdpServer

open Library.ForLoop Library.Table Wire

namespace MySSDSim

/-- The record of the last request that the sequential test compares with. -/
def HasRecord (s : MySSDSim) (rw sector : ℤ) (i : ℕ) : Prop :=
  (s.ssdChannels i).requestRw = rw ∧ (s.ssdChannels i).requestLastSector = sector

def SameRecords (a b : MySSDSim) (k n : ℕ) : Prop :=
  ∀ j, k ≤ j → j < n → ∀ rw sector : UInt32,
    (∃ i, j ≤ i ∧ i < n ∧ a.HasRecord rw.toNat sector.toNat i) ↔
      ∃ i, j ≤ i ∧ i < n ∧ b.HasRecord rw.toNat sector.toNat i

/-- Two simulators that have served the same requests since a reset: the first
`k` channels have been used, the others wait with what they held before it. -/
structure Alike (a b : MySSDSim) : Prop where
  channels : b.channels = a.channels
  speedFactor : b.speedFactor = a.speedFactor
  ioRequestId : ∀ i < a.count, b.ioRequestId i = a.ioRequestId i
  completionTime : ∀ i < a.count, b.completionTime i = a.completionTime i
  records : a.speedFactor = 0 ∨ ∃ k, (∀ i < k, i < a.count → b.ssdChannels i = a.ssdChannels i) ∧
    (∀ i, k ≤ i → i < a.count → a.completionTime i = 0) ∧ SameRecords a b k a.count

variable {a b : MySSDSim}

theorem Alike.count (h : Alike a b) : b.count = a.count := by
  rw [MySSDSim.count, MySSDSim.count, h.channels]

theorem Alike.oldestChannel (h : Alike a b) : b.oldestChannel = a.oldestChannel := by
  rw [MySSDSim.oldestChannel, MySSDSim.oldestChannel, h.count]
  exact scanMin_congr (fun _ _ ↦ Iff.rfl) h.completionTime

theorem Alike.nextResponses (h : Alike a b) (t : ℤ) : b.nextResponses t = a.nextResponses t := by
  have hn : b.nextChannel t = a.nextChannel t := by
    rw [nextChannel, nextChannel, h.count]
    apply scanMin_congr _ h.completionTime
    intro i hi
    rw [h.completionTime i hi]
  have hc (t' : ℤ) : b.completingAt t' = a.completingAt t' := by
    rw [completingAt, completingAt, h.count]
    apply entries_congr
    intro i hi
    simp only [guarded, h.completionTime i hi, h.ioRequestId i hi]
  simp only [MySSDSim.nextResponses, hn, hc]

theorem isSequentialRequest_eq_true {rw sector : ℤ} :
    a.isSequentialRequest rw sector = true ↔ ∃ i < a.count, a.HasRecord rw sector i := by
  simp [isSequentialRequest, HasRecord]

theorem Alike.isSequentialRequest (h : Alike a b) (h0 : a.speedFactor ≠ 0) (rw sector : UInt32) :
    b.isSequentialRequest rw.toNat sector.toNat = a.isSequentialRequest rw.toNat sector.toNat := by
  obtain ⟨k, hused, -, hsame⟩ := h.records.resolve_left h0
  rw [Bool.eq_iff_iff, isSequentialRequest_eq_true, isSequentialRequest_eq_true, h.count]
  have hlow {i : ℕ} (hi : i < k) (hin : i < a.count) :
      b.HasRecord rw.toNat sector.toNat i ↔ a.HasRecord rw.toNat sector.toNat i := by
    rw [HasRecord, HasRecord, hused i hi hin]
  constructor
  · rintro ⟨i, hi, hrec⟩
    by_cases hk : i < k
    · exact ⟨i, hi, (hlow hk hi).mp hrec⟩
    · obtain ⟨j, -, hj, hrec⟩ := (hsame k le_rfl (by omega) rw sector).mpr ⟨i, by omega, hi, hrec⟩
      exact ⟨j, hj, hrec⟩
  · rintro ⟨i, hi, hrec⟩
    by_cases hk : i < k
    · exact ⟨i, hi, (hlow hk hi).mpr hrec⟩
    · obtain ⟨j, -, hj, hrec⟩ := (hsame k le_rfl (by omega) rw sector).mp ⟨i, by omega, hi, hrec⟩
      exact ⟨j, hj, hrec⟩

theorem Alike.assigned (h : Alike a b) (time : ℤ) (rw sector : UInt32) (count ioRequestId : ℤ)
    (k : ℕ) : b.assigned time rw.toNat sector.toNat count ioRequestId k =
      a.assigned time rw.toNat sector.toNat count ioRequestId k := by
  by_cases h0 : a.speedFactor = 0
  · simp only [MySSDSim.assigned, serviceTime, h.speedFactor, h0, mul_zero]
  · simp only [MySSDSim.assigned, serviceTime, h.speedFactor, h.isSequentialRequest h0]

/-- A request goes to the same channel on both sides. If that is a fresh
channel it is the first of them, for all fresh channels complete at 0. -/
theorem Alike.assigns (h : Alike a b) {a' b' : MySSDSim} {i : ℕ} {channel : SsdChannel}
    (hi : FirstMin (fun _ ↦ True) a.completionTime a.count i)
    (ha : Assigns a a' i channel) (hb : Assigns b b' i channel) : Alike a' b' where
  channels := by rw [ha.channels, hb.channels, h.channels]
  speedFactor := by rw [ha.speedFactor, hb.speedFactor, h.speedFactor]
  ioRequestId j hj := by
    rw [ha.count] at hj
    by_cases hji : j = i
    · rw [hji, ha.ioRequestId_self, hb.ioRequestId_self]
    · rw [ha.ioRequestId_other hji, hb.ioRequestId_other hji, h.ioRequestId j hj]
  completionTime j hj := by
    rw [ha.count] at hj
    by_cases hji : j = i
    · rw [hji, ha.completionTime_self, hb.completionTime_self]
    · rw [ha.completionTime_other hji, hb.completionTime_other hji, h.completionTime j hj]
  records := by
    rw [ha.speedFactor, ha.count]
    refine h.records.imp id ?_
    rintro ⟨k, hused, hfresh, hsame⟩
    have hik : k < a.count → i ≤ k := by
      intro hk
      by_contra hlt
      have h0 := hi.first k (by omega) trivial
      rw [hfresh k le_rfl hk, hfresh i (by omega) hi.lt] at h0
      exact lt_irrefl _ h0
    have hin := hi.lt
    refine ⟨max k (i + 1), fun j hj hjn ↦ ?_, fun j hj hjn ↦ ?_, fun j hj hjn rw sector ↦ ?_⟩
    · by_cases hji : j = i
      · rw [hji, ha.self, hb.self]
      · rw [ha.other hji, hb.other hji]
        exact hused j (by omega) hjn
    · rw [ha.completionTime_other (by omega)]
      exact hfresh j (by omega) hjn
    · refine (exists_congr fun l ↦ and_congr_right fun hl ↦ and_congr_right fun _ ↦ ?_).trans
        ((hsame j (by omega) hjn rw sector).trans
          (exists_congr fun l ↦ and_congr_right fun hl ↦ and_congr_right fun _ ↦ ?_))
      · rw [HasRecord, HasRecord, ha.other (by omega)]
      · rw [HasRecord, HasRecord, hb.other (by omega)]

theorem Alike.submitRequest (h : Alike a b) (ta tb : Totals) {time : ℤ} (rw sector : UInt32)
    (count ioRequestId : ℤ) (ht : time ≤ LONG_MAX) :
    (a.submitRequest ta time rw.toNat sector.toNat count ioRequestId = none ∧
      b.submitRequest tb time rw.toNat sector.toNat count ioRequestId = none) ∨
    ∃ ret a' b' ta' tb', Alike a' b' ∧
      a.submitRequest ta time rw.toNat sector.toNat count ioRequestId = some (ret, a', ta') ∧
      b.submitRequest tb time rw.toNat sector.toNat count ioRequestId = some (ret, b', tb') := by
  by_cases hold : a.oldestChannel.1 ≥ time
  · exact .inr ⟨-1, a, b, ta, tb, h, a.submitRequest_refused hold,
      b.submitRequest_refused (h.oldestChannel.symm ▸ hold)⟩
  · obtain ⟨i, hpos, hi, hlt⟩ := a.oldestChannel_spec ht hold
    have hposb : b.oldestChannel = (b.completionTime i, some i) := by
      rw [h.oldestChannel, hpos, h.completionTime i hi.lt]
    have hltb : b.completionTime i < time := by rwa [h.completionTime i hi.lt]
    cases hk : requestSizeIndex (toInt (count * SECTOR_SIZE)) with
    | none =>
      left
      simp only [MySSDSim.submitRequest, hpos, hposb, if_neg (not_le.mpr hlt),
        if_neg (not_le.mpr hltb), hk, and_self]
    | some k =>
      obtain ⟨a', ta', ha, haa⟩ := a.submitRequest_accepted ta _ _ _ _ _ hpos hlt hk
      obtain ⟨b', tb', hb, hbb⟩ := b.submitRequest_accepted tb _ _ _ _ _ hposb hltb hk
      rw [h.assigned] at hbb
      exact .inr ⟨0, a', b', ta', tb', h.assigns hi haa hbb, ha, hb⟩

theorem Alike.getNextResponses (h : Alike a b) (t : ℤ) :
    Alike (a.getNextResponses t).1 (b.getNextResponses t).1 :=
  ⟨h.channels, h.speedFactor, h.ioRequestId, h.completionTime, h.records⟩

theorem IsSetup.alike {a' b' : MySSDSim} {n speed : ℕ} (ha : IsSetup a a' n speed)
    (hb : IsSetup b b' n speed) (h : speed = 0 ∨ SameRecords a b 0 n) : Alike a' b' where
  channels := hb.channels.trans ha.channels.symm
  speedFactor := hb.speedFactor.trans ha.speedFactor.symm
  ioRequestId i hi := by
    rw [ha.count] at hi
    rw [ha.ioRequestId i hi, hb.ioRequestId i hi]
  completionTime i hi := by
    rw [ha.count] at hi
    rw [ha.completionTime i hi, hb.completionTime i hi]
  records := by
    rw [ha.count, ha.speedFactor]
    refine h.imp (by simp) fun h ↦ ⟨0, by simp, fun i _ hi ↦ ha.completionTime i hi, ?_⟩
    intro j hj hjn rw sector
    simp only [HasRecord, ha.requestRw, ha.requestLastSector, hb.requestRw, hb.requestLastSector]
    exact h j hj hjn rw sector

end MySSDSim

def IsTiming (bytes : Bytes) : Prop :=
  (requestOf bytes).type = NctussEmuRequestType.submitReqeust.code ∨
    (requestOf bytes).type = NctussEmuRequestType.getNextResponses.code

instance (bytes : Bytes) : Decidable (IsTiming bytes) := inferInstanceAs (Decidable (_ ∨ _))

namespace Server

/-- What the clients see of a server that receives these datagrams in turn. -/
def outputs : Server → List Bytes → List (Except Trap (Option Bytes))
  | _, [] => []
  | s, bytes :: rest =>
    match s.receive bytes with
    | .hang trap => [.error trap]
    | .loop s' sent => .ok sent :: s'.outputs rest

structure Alike (s t : Server) : Prop where
  mySSDSim : s.mySSDSim.Alike t.mySSDSim
  currentMaxRequestId : t.currentMaxRequestId = s.currentMaxRequestId
  reply : t.reply = s.reply
  replyData : t.replyData = s.replyData
  replyLength : t.replyLength = s.replyLength

variable {s t : Server}

theorem answer_pair (r : NctussEmuRequest) (hr : t.reply = s.reply)
    (hd : t.replyData = s.replyData) :
    ∃ s' t' sent, s.answer r = .loop s' sent ∧ t.answer r = .loop t' sent ∧
      s'.mySSDSim = s.mySSDSim ∧ t'.mySSDSim = t.mySSDSim ∧
      s'.currentMaxRequestId = s.currentMaxRequestId ∧
      t'.currentMaxRequestId = t.currentMaxRequestId ∧
      t'.reply = s'.reply ∧ t'.replyData = s'.replyData ∧ t'.replyLength = s'.replyLength := by
  rw [answer, answer, hr, hd]
  exact ⟨_, _, _, rfl, rfl, rfl, rfl, rfl, rfl, rfl, rfl, rfl⟩

theorem Alike.datagram (h : Alike s t) : t.datagram = s.datagram := by
  rw [Server.datagram, Server.datagram, h.reply, h.replyData, h.replyLength]

theorem Alike.answer (h : Alike s t) (r : NctussEmuRequest) :
    ∃ s' t' sent, s.answer r = .loop s' sent ∧ t.answer r = .loop t' sent ∧ Alike s' t' := by
  obtain ⟨s', t', sent, hs, ht, ha, hb, hcs, hct, hr, hd, hl⟩ := answer_pair r h.reply h.replyData
  refine ⟨s', t', sent, hs, ht, ?_, ?_, hr, hd, hl⟩
  · rw [ha, hb]
    exact h.mySSDSim
  · rw [hcs, hct, h.currentMaxRequestId]

theorem Alike.receive {bytes : Bytes} (h : Alike s t) (hb : IsTiming bytes) :
    (∃ e, s.receive bytes = .hang e ∧ t.receive bytes = .hang e) ∨
    ∃ s' t' sent, s.receive bytes = .loop s' sent ∧ t.receive bytes = .loop t' sent ∧
      Alike s' t' := by
  have hreset : ¬ IsReset bytes := by
    rcases hb with hb | hb <;> rw [IsReset, hb] <;> decide
  have hc := h.currentMaxRequestId
  by_cases hr : Readable bytes
  swap
  · exact .inr ⟨s, t, none, receive_unreadable hr, receive_unreadable hr, h⟩
  rcases lt_trichotomy ((requestOf bytes).id.toNat : ℤ) s.currentMaxRequestId with hid | hid | hid
  · exact .inl ⟨_, receive_stale hr hreset hid, receive_stale hr hreset (hc ▸ hid)⟩
  · exact .inr
      ⟨s, t, _, receive_copy hr hreset hid, h.datagram ▸ receive_copy hr hreset (hc ▸ hid), h⟩
  · by_cases hcheck : (requestOf bytes).idCheck = (requestOf bytes).id
    swap
    · exact .inl
        ⟨_, receive_idCheck hr hreset hid hcheck, receive_idCheck hr hreset (hc ▸ hid) hcheck⟩
    rw [receive_new hr hreset hid hcheck, receive_new hr hreset (hc ▸ hid) hcheck]
    unfold IsTiming at hb
    generalize requestOf bytes = r at hb
    rcases hb with ht | ht
    · rw [dispatch_submitReqeust _ ht, dispatch_submitReqeust _ ht]
      dsimp only
      have hfits : time64 r ≤ LONG_MAX := toLong_le _
      obtain ⟨ha, hb⟩ | ⟨ret, a, b, ta, tb, hab, ha, hb⟩ := h.mySSDSim.submitRequest
        s.totals t.totals r.data3 r.data4 r.data5.toNat r.data6.toNat hfits
      · rw [ha, hb]
        exact .inl ⟨_, rfl, rfl⟩
      · rw [ha, hb]
        right
        apply Alike.answer
        exact ⟨hab, rfl, by simp only [replyWith, h.reply], h.replyData, h.replyLength⟩
    · rw [dispatch_getNextResponses _ ht, dispatch_getNextResponses _ ht]
      dsimp only
      rw [h.mySSDSim.nextResponses]
      have hsim := h.mySSDSim.getNextResponses (time64 r)
      generalize (s.mySSDSim.getNextResponses (time64 r)).1 = a at hsim
      generalize (t.mySSDSim.getNextResponses (time64 r)).1 = b at hsim
      generalize s.mySSDSim.nextResponses (time64 r) = next
      right
      apply Alike.answer
      unfold withResponses replyWith
      exact ⟨hsim, rfl, by rw [h.reply], h.replyData, h.replyLength⟩

theorem Alike.outputs (h : Alike s t) {ds : List Bytes} (hd : ∀ d ∈ ds, IsTiming d) :
    t.outputs ds = s.outputs ds := by
  induction ds generalizing s t with
  | nil => rfl
  | cons d ds ih =>
    obtain ⟨e, hs, ht⟩ | ⟨s', t', sent, hs, ht, h'⟩ := h.receive (hd d List.mem_cons_self)
    · rw [Server.outputs, Server.outputs, hs, ht]
    · rw [Server.outputs, Server.outputs, hs, ht]
      dsimp only
      rw [ih h' fun d hd' ↦ hd d (List.mem_cons_of_mem _ hd')]

/-- The first `k` channels are busy until far in the future with requests that
end elsewhere than `sector`; the others still carry the records `a` has. -/
structure Filled (s : Server) (a : MySSDSim) (n speed : ℕ) (sector : ℤ) (k : ℕ) : Prop where
  currentMaxRequestId : s.currentMaxRequestId = k
  channels : s.mySSDSim.channels = n
  speedFactor : s.mySSDSim.speedFactor = speed
  used : ∀ i < k, 2 ^ 52 ≤ s.mySSDSim.completionTime i ∧
    (s.mySSDSim.ssdChannels i).requestLastSector ≠ sector
  fresh : ∀ i, k ≤ i → i < n → s.mySSDSim.completionTime i = 0
  record : ∀ i, k ≤ i → (s.mySSDSim.ssdChannels i).requestRw = (a.ssdChannels i).requestRw ∧
    (s.mySSDSim.ssdChannels i).requestLastSector = (a.ssdChannels i).requestLastSector

def fillRequest (sector : UInt32) (id : UInt32) : NctussEmuRequest where
  id := id
  type := NctussEmuRequestType.submitReqeust.code
  data1 := 1048576
  data5 := if sector = 1 then 2 else 1
  idCheck := id

def probeRequest (id rw sector : UInt32) : NctussEmuRequest where
  id := id
  type := NctussEmuRequestType.submitReqeust.code
  data2 := 1
  data3 := rw
  data4 := sector
  data5 := 1
  idCheck := id

def nextRequest (id : UInt32) : NctussEmuRequest where
  id := id
  type := NctussEmuRequestType.getNextResponses.code
  idCheck := id

variable {a b : MySSDSim} {n speed k : ℕ} {sector : ℤ}

theorem Filled.count (h : Filled s a n speed sector k) : s.mySSDSim.count = n := by
  rw [MySSDSim.count, h.channels, Int.toNat_natCast]

theorem Filled.service_bounds (h : Filled s a n speed sector k) (hspeed : speed < 2 ^ 32)
    (sequential : Bool) (rw : ℤ) {c : ℕ} (hc : c < 8) :
    0 ≤ s.mySSDSim.serviceTime sequential rw c ∧
    s.mySSDSim.serviceTime sequential rw c < 2 ^ 51 := by
  obtain ⟨h0, h1⟩ := s.mySSDSim.serviceTime_bounds sequential rw hc (by rw [h.speedFactor]; omega)
  rw [h.speedFactor] at h1
  omega

theorem Filled.submit (h : Filled s a n speed sector k) (hk : k < n) {r : NctussEmuRequest} {c : ℕ}
    (hn : n ≤ MAX_EMULATOR_CHANNELS) (ht : r.type = NctussEmuRequestType.submitReqeust.code)
    (hid : r.id = UInt32.ofNat (k + 1)) (hcheck : r.idCheck = r.id) (htime : 0 < time64 r)
    (hc : requestSizeIndex (toInt (r.data5.toNat * SECTOR_SIZE)) = some c) :
    ∃ s' sent, s.receive r.encode = .loop s' sent ∧ s'.currentMaxRequestId = (k + 1 : ℕ) ∧
      s.mySSDSim.Assigns s'.mySSDSim k (s.mySSDSim.assigned (time64 r) r.data3.toNat r.data4.toNat
        r.data5.toNat r.data6.toNat c) := by
  have hnat : r.id.toNat = k + 1 := by
    rw [hid, UInt32.toNat_ofNat', Nat.mod_eq_of_lt]
    simp only [MAX_EMULATOR_CHANNELS] at hn
    omega
  have h0 := h.fresh k le_rfl hk
  have hfirst : FirstMin (fun _ ↦ True) s.mySSDSim.completionTime s.mySSDSim.count k := by
    refine ⟨h.count ▸ hk, trivial, fun j hj _ ↦ ?_, fun j hj _ ↦ ?_⟩
    · rw [h.count] at hj
      rw [h0]
      by_cases hjk : j < k
      · exact le_trans (by decide) (h.used j hjk).1
      · rw [h.fresh j (by omega) hj]
    · rw [h0]
      exact lt_of_lt_of_le (by decide) (h.used j hj).1
  obtain ⟨sim, totals, hs, hassigns⟩ := s.mySSDSim.submitRequest_accepted s.totals _ _ _ _ _
    (s.mySSDSim.oldestChannel_eq hfirst (by rw [h0]; decide)) (by rw [h0]; exact htime) hc
  obtain ⟨s', hrec, hserved⟩ := receive_submitReqeust ht hcheck
    (by rw [h.currentMaxRequestId, hnat]; omega) hs
  refine ⟨s', _, hrec, by rw [hserved.currentMaxRequestId, hnat], ?_⟩
  rw [hserved.mySSDSim]
  exact hassigns

theorem Filled.fill {sector : UInt32} (h : Filled s a n speed sector.toNat k) (hk : k < n)
    (hn : n ≤ MAX_EMULATOR_CHANNELS) (hspeed : speed < 2 ^ 32) :
    ∃ s' sent, s.receive (fillRequest sector (UInt32.ofNat (k + 1))).encode = .loop s' sent ∧
      Filled s' a n speed sector.toNat (k + 1) := by
  have htime : time64 (fillRequest sector (UInt32.ofNat (k + 1))) = 2 ^ 52 := by
    simp only [time64, fillRequest]
    decide
  obtain ⟨c, hc, hclass⟩ : ∃ c < 8, requestSizeIndex (toInt
      ((fillRequest sector (UInt32.ofNat (k + 1))).data5.toNat * SECTOR_SIZE)) = some c := by
    simp only [fillRequest]
    split
    · exact ⟨1, by decide, by decide⟩
    · exact ⟨0, by decide, by decide⟩
  obtain ⟨s', sent, hrec, hid, hassigns⟩ :=
    h.submit hk hn rfl rfl rfl (by rw [htime]; decide) hclass
  refine ⟨s', sent, hrec, hid, ?_, ?_, fun i hi ↦ ?_, fun i hi hin ↦ ?_, fun i hi ↦ ?_⟩
  · rw [hassigns.channels, h.channels]
  · rw [hassigns.speedFactor, h.speedFactor]
  · by_cases hik : i = k
    · rw [hik, hassigns.completionTime_self, hassigns.self]
      obtain ⟨h0, h1⟩ := h.service_bounds hspeed (s.mySSDSim.isSequentialRequest 0 0) 0 hc
      have hend : ((if sector = 1 then 2 else 1 : UInt32).toNat : ℤ) ≠ sector.toNat := by
        rw [Ne, Nat.cast_inj, UInt32.toNat_inj]
        split
        · simp [*]
        · exact Ne.symm ‹_›
      constructor
      · simp only [MySSDSim.assigned, htime]
        simp only [fillRequest, UInt32.toNat_zero, Nat.cast_zero]
        rw [toLong_of_fits (by omega) (by omega)]
        omega
      · simpa [MySSDSim.assigned, fillRequest] using hend
    · rw [hassigns.completionTime_other hik, hassigns.other hik]
      exact h.used i (by omega)
  · rw [hassigns.completionTime_other (by omega)]
    exact h.fresh i (by omega) hin
  · rw [hassigns.other (by omega)]
    exact h.record i (by omega)

theorem Filled.isSequentialRequest (h : Filled s a n speed sector k) (rw : ℤ) :
    s.mySSDSim.isSequentialRequest rw sector = true ↔
      ∃ i, k ≤ i ∧ i < n ∧ a.HasRecord rw sector i := by
  rw [MySSDSim.isSequentialRequest_eq_true, h.count]
  constructor
  · rintro ⟨i, hi, hrec⟩
    have hki : k ≤ i := le_of_not_gt fun hlt ↦ (h.used i hlt).2 hrec.2
    obtain ⟨h1, h2⟩ := h.record i hki
    exact ⟨i, hki, hi, h1 ▸ hrec.1, h2 ▸ hrec.2⟩
  · rintro ⟨i, hki, hi, hrec⟩
    obtain ⟨h1, h2⟩ := h.record i hki
    exact ⟨i, hi, h1.trans hrec.1, h2.trans hrec.2⟩

theorem Filled.probe {sector : UInt32} (h : Filled s a n speed sector.toNat k) (rw : UInt32)
    (hk : k < n) (hn : n ≤ MAX_EMULATOR_CHANNELS) (hspeed : speed < 2 ^ 32) :
    ∃ sent y, s.outputs [(probeRequest (UInt32.ofNat (k + 1)) rw sector).encode,
        (nextRequest (UInt32.ofNat (k + 2))).encode] = [.ok sent, .ok (some y)] ∧
      ((NctussEmuReply.decode y).data2.toNat : ℤ) * 2 ^ 32 + (NctussEmuReply.decode y).data3.toNat =
        1 + s.mySSDSim.serviceTime (s.mySSDSim.isSequentialRequest rw.toNat sector.toNat)
          rw.toNat 0 := by
  have htime : time64 (probeRequest (UInt32.ofNat (k + 1)) rw sector) = 1 := by
    simp only [time64, probeRequest]
    decide
  have hnext : time64 (nextRequest (UInt32.ofNat (k + 2))) = 0 := by
    simp only [time64, nextRequest]
    decide
  obtain ⟨s', sent, hrec, hid, hassigns⟩ :=
    h.submit hk hn (r := probeRequest (UInt32.ofNat (k + 1)) rw sector) (c := 0) rfl rfl rfl
      (by rw [htime]; decide) (by simp only [probeRequest]; decide)
  obtain ⟨h0, h1⟩ := h.service_bounds hspeed
    (s.mySSDSim.isSequentialRequest rw.toNat sector.toNat) rw.toNat (c := 0) (by decide)
  generalize hsv : s.mySSDSim.serviceTime (s.mySSDSim.isSequentialRequest rw.toNat sector.toNat)
    rw.toNat 0 = service at h0 h1 ⊢
  have hck : s'.mySSDSim.completionTime k = 1 + service := by
    rw [hassigns.completionTime_self, MySSDSim.assigned, htime]
    simp only [probeRequest]
    rw [hsv, toLong_of_fits (by omega) (by omega)]
  have hcount : s'.mySSDSim.count = n := hassigns.count.trans h.count
  have hother {i : ℕ} (hi : i < n) (hik : i ≠ k) :
      2 ^ 52 ≤ s'.mySSDSim.completionTime i ∨ s'.mySSDSim.completionTime i = 0 := by
    rw [hassigns.completionTime_other hik]
    by_cases hlt : i < k
    · exact .inl (h.used i hlt).1
    · exact .inr (h.fresh i (by omega) hi)
  have hresp : (s'.mySSDSim.nextResponses 0).time = 1 + service := by
    obtain ⟨i, hi, hpos, -, hmin, he⟩ | ⟨hnone, -⟩ := s'.mySSDSim.nextResponses_spec 0
    · rw [he]
      have hle := hmin k (hcount ▸ hk) (by rw [hck]; omega)
      rw [hck] at hle
      by_cases hik : i = k
      · rw [hik, hck]
      · have := hother (hcount ▸ hi) hik
        omega
    · have := hnone k (hcount ▸ hk) (by rw [hck]; omega)
      simp only [hck, LONG_MAX] at this
      omega
  have hid2 : s'.currentMaxRequestId < ((nextRequest (UInt32.ofNat (k + 2))).id.toNat : ℤ) := by
    simp only [MAX_EMULATOR_CHANNELS] at hn
    rw [hid, nextRequest, UInt32.toNat_ofNat', Nat.mod_eq_of_lt (by omega)]
    omega
  obtain ⟨t, hrec', hserved, -, h2, h3, -⟩ := receive_getNextResponses rfl rfl hid2
  refine ⟨sent, t.datagram, ?_, ?_⟩
  · rw [outputs, hrec]
    dsimp only
    rw [outputs, hrec']
    rfl
  · rw [hserved.answers.datagram, NctussEmuReply.decode_encode_data2,
      NctussEmuReply.decode_encode_data3, h2, h3, hnext, hresp]
    exact join_split (by omega) (by omega)

theorem outputs_fills {sector : UInt32} {t : Server} {m : ℕ}
    (hs : Filled s a n speed sector.toNat k)
    (ht : Filled t b n speed sector.toNat k) (hm : k + m ≤ n) (hn : n ≤ MAX_EMULATOR_CHANNELS)
    (hspeed : speed < 2 ^ 32) {tail : List Bytes}
    (h : s.outputs ((List.range' k m).map (fun i ↦
        (fillRequest sector (UInt32.ofNat (i + 1))).encode) ++ tail) =
      t.outputs ((List.range' k m).map (fun i ↦
        (fillRequest sector (UInt32.ofNat (i + 1))).encode) ++ tail)) :
    ∃ s' t', Filled s' a n speed sector.toNat (k + m) ∧ Filled t' b n speed sector.toNat (k + m) ∧
      s'.outputs tail = t'.outputs tail := by
  induction m generalizing s t k with
  | zero => exact ⟨s, t, hs, ht, h⟩
  | succ m ih =>
    obtain ⟨s₁, x, hs₁, hs'⟩ := hs.fill (by omega) hn hspeed
    obtain ⟨t₁, y, ht₁, ht'⟩ := ht.fill (by omega) hn hspeed
    rw [List.range'_succ, List.map_cons, List.cons_append, outputs, outputs, hs₁, ht₁] at h
    obtain ⟨s', t', h'⟩ := ih hs' ht' (by omega) (List.tail_eq_of_cons_eq h)
    refine ⟨s', t', ?_⟩
    rwa [show k + 1 + m = k + (m + 1) by omega] at h'

theorem serviceTime_ne (sim sim' : MySSDSim) (rw : ℤ) (h : sim.speedFactor = sim'.speedFactor)
    (h0 : sim.speedFactor ≠ 0) {q q' : Bool} (hq : q ≠ q') :
    sim.serviceTime q rw 0 ≠ sim'.serviceTime q' rw 0 := by
  have hrow : ∀ j < 2,
      responseTimeTableSeq j 0 / 1000 ≠ responseTimeTableRandom j 0 / 1000 := by decide
  have hne := hrow (if rw = 1 then 1 else 0) (by split <;> decide)
  unfold MySSDSim.serviceTime
  rw [← h]
  intro heq
  have := mul_right_cancel₀ h0 heq
  cases q <;> cases q' <;> simp_all

theorem isTiming_encode {r : NctussEmuRequest}
    (h : r.type = NctussEmuRequestType.submitReqeust.code ∨
      r.type = NctussEmuRequestType.getNextResponses.code) : IsTiming r.encode := by
  have hr := requestOf_encode r []
  rw [List.append_nil] at hr
  rwa [IsTiming, hr]

/-- Servers that no timing datagrams tell apart agree on all stale records. -/
theorem sameRecords_of_outputs {t : Server} (hn : n ≤ MAX_EMULATOR_CHANNELS)
    (hspeed : speed < 2 ^ 32) (h0 : speed ≠ 0)
    (hs : ∀ sector, Filled s a n speed sector 0) (ht : ∀ sector, Filled t b n speed sector 0)
    (h : ∀ ds : List Bytes, (∀ d ∈ ds, IsTiming d) → s.outputs ds = t.outputs ds) :
    a.SameRecords b 0 n := by
  intro k _ hk rw sector
  have hd :=
    h ((List.range' 0 k).map (fun i ↦ (fillRequest sector (UInt32.ofNat (i + 1))).encode) ++
    [(probeRequest (UInt32.ofNat (k + 1)) rw sector).encode,
      (nextRequest (UInt32.ofNat (k + 2))).encode]) (by
    intro d hd
    simp only [List.mem_append, List.mem_map, List.mem_cons, List.not_mem_nil, or_false] at hd
    rcases hd with ⟨i, -, rfl⟩ | rfl | rfl
    · exact isTiming_encode (.inl rfl)
    · exact isTiming_encode (.inl rfl)
    · exact isTiming_encode (.inr rfl))
  obtain ⟨s', t', hs', ht', ho⟩ := outputs_fills (hs _) (ht _) (by omega) hn hspeed hd
  rw [Nat.zero_add] at hs' ht'
  obtain ⟨x, y, hx, hy⟩ := hs'.probe rw hk hn hspeed
  obtain ⟨x', y', hx', hy'⟩ := ht'.probe rw hk hn hspeed
  have hyy : y = y' := by
    rw [hx, hx'] at ho
    simp only [List.cons.injEq, Except.ok.injEq, Option.some.injEq] at ho
    exact ho.2.1
  rw [hyy, hy'] at hy
  have hsv := Int.add_left_cancel hy
  have hseq : t'.mySSDSim.isSequentialRequest rw.toNat sector.toNat =
      s'.mySSDSim.isSequentialRequest rw.toNat sector.toNat := by
    by_contra hne
    refine serviceTime_ne _ _ _ ?_ ?_ hne hsv
    · rw [hs'.speedFactor, ht'.speedFactor]
    · rw [ht'.speedFactor]
      exact_mod_cast h0
  rw [← hs'.isSequentialRequest, ← ht'.isSequentialRequest, hseq]

end Server

/-- A reset the server can honour: 1 to 32 channels and a size it has room for. -/
structure ValidReset (bytes : Bytes) : Prop where
  readable : Readable bytes
  isReset : IsReset bytes
  pos : 0 < (requestOf bytes).data2.toNat
  channels : (requestOf bytes).data2.toNat ≤ MAX_EMULATOR_CHANNELS
  size : ((requestOf bytes).data1.toNat : ℤ) ≤ MEMORY_STORAGE_SIZE

namespace Server

theorem receive_reset_pair {s t : Server} {bytes : Bytes} (hb : ValidReset bytes)
    (hr : t.reply = s.reply) (hd : t.replyData = s.replyData) :
    ∃ s' t' sent, s.receive bytes = .loop s' sent ∧ t.receive bytes = .loop t' sent ∧
      s.mySSDSim.IsSetup s'.mySSDSim (requestOf bytes).data2.toNat (requestOf bytes).data3.toNat ∧
      t.mySSDSim.IsSetup t'.mySSDSim (requestOf bytes).data2.toNat (requestOf bytes).data3.toNat ∧
      s'.currentMaxRequestId = 0 ∧ t'.currentMaxRequestId = 0 ∧
      t'.reply = s'.reply ∧ t'.replyData = s'.replyData ∧ t'.replyLength = s'.replyLength := by
  have hspec (sim : MySSDSim) := sim.setup_spec (requestOf bytes).data3.toNat hb.channels hb.size
  obtain ⟨a, ha, hsa⟩ := hspec s.mySSDSim
  obtain ⟨b, hb', hsb⟩ := hspec t.mySSDSim
  rw [receive_reset hb.readable hb.isReset, receive_reset hb.readable hb.isReset, ha, hb']
  dsimp only
  rw [dispatch_reset _ hb.isReset, dispatch_reset _ hb.isReset]
  obtain ⟨s', t', sent, hs, ht, hsim, htim, hcs, hct, heq⟩ := answer_pair (requestOf bytes)
    (s := { s with mySSDSim := a, totals := ⟨0, 0, 0⟩, currentMaxRequestId := 0 }.replyWith .ok
      (requestOf bytes).id)
    (t := { t with mySSDSim := b, totals := ⟨0, 0, 0⟩, currentMaxRequestId := 0 }.replyWith .ok
      (requestOf bytes).id)
    (by simp only [replyWith, hr]) (by rw [replyWith_replyData, replyWith_replyData]; exact hd)
  rw [replyWith_mySSDSim] at hsim htim
  rw [replyWith_currentMaxRequestId] at hcs hct
  exact ⟨s', t', sent, hs, ht, hsim ▸ hsa, htim ▸ hsb, hcs, hct, heq⟩

theorem Filled.of_setup {s : Server} {a : MySSDSim} {n speed : ℕ}
    (h : a.IsSetup s.mySSDSim n speed) (hc : s.currentMaxRequestId = 0) (sector : ℤ) :
    Filled s a n speed sector 0 where
  currentMaxRequestId := hc
  channels := h.channels
  speedFactor := h.speedFactor
  used i hi := absurd hi (Nat.not_lt_zero i)
  fresh i _ hi := h.completionTime i hi
  record i _ := ⟨h.requestRw i, h.requestLastSector i⟩

end Server

/-- What the datagrams since a reset determine. The reset forgets everything
but the records of the sequential-access test, so two sessions are told apart
exactly when some suffix of the channels holds different records. -/
theorem reset_determines_iff {s t : Server} {bytes : Bytes} (hb : ValidReset bytes)
    (hr : t.reply = s.reply) (hd : t.replyData = s.replyData) :
    (∀ ds : List Bytes, (∀ d ∈ ds, IsTiming d) →
      s.outputs (bytes :: ds) = t.outputs (bytes :: ds)) ↔
      ((requestOf bytes).data3 = 0 ∨
        s.mySSDSim.SameRecords t.mySSDSim 0 (requestOf bytes).data2.toNat) := by
  obtain ⟨s', t', sent, hs, ht, has, hbt, hcs, hct, heq⟩ := Server.receive_reset_pair hb hr hd
  have hout (ds : List Bytes) : s.outputs (bytes :: ds) = t.outputs (bytes :: ds) ↔
      s'.outputs ds = t'.outputs ds := by
    rw [Server.outputs, Server.outputs, hs, ht]
    simp
  simp only [hout]
  have hzero : (requestOf bytes).data3 = 0 ↔ (requestOf bytes).data3.toNat = 0 := by
    rw [← UInt32.toNat_inj, UInt32.toNat_zero]
  rw [hzero]
  constructor
  · intro h
    rw [or_iff_not_imp_left]
    intro h0
    exact Server.sameRecords_of_outputs hb.channels (requestOf bytes).data3.toNat_lt h0
      (fun _ ↦ .of_setup has hcs _) (fun _ ↦ .of_setup hbt hct _) h
  · intro h ds hds
    have hal : s'.Alike t' := ⟨has.alike hbt h, hct.trans hcs.symm, heq.1, heq.2.1, heq.2.2⟩
    exact (hal.outputs hds).symm

/-- The same server after a session that read sectors 0 to 7. -/
def Server.usedBefore : Server :=
  { zeroed with mySSDSim := { zeroed.mySSDSim with ssdChannels := fun _ ↦ ⟨124, 514000, 8, 0⟩ } }

theorem oneChannelReset_valid : ValidReset oneChannelReset.encode := by
  constructor <;> decide +kernel

/-- After the same reset, a read at sector 8 is charged as random on a fresh
server and as sequential on one whose last session ended there. -/
theorem reset_keeps_records :
    ¬ ∀ (s t : Server) (bytes : Bytes), ValidReset bytes → t.reply = s.reply →
      t.replyData = s.replyData → ∀ ds : List Bytes, (∀ d ∈ ds, IsTiming d) →
        s.outputs (bytes :: ds) = t.outputs (bytes :: ds) := by
  intro h
  let submit : NctussEmuRequest :=
    { id := 124, type := 2, data2 := 1000, data4 := 8, data5 := 8, data6 := 124, idCheck := 124 }
  let next : NctussEmuRequest := { id := 125, type := 3, idCheck := 125 }
  have h := h Server.zeroed Server.usedBefore oneChannelReset.encode oneChannelReset_valid rfl rfl
    [submit.encode, next.encode] (by decide +kernel)
  revert h
  decide +kernel

theorem reset_determines_iff_example :
    (∀ ds : List Bytes, (∀ d ∈ ds, IsTiming d) →
      Server.zeroed.outputs (oneChannelReset.encode :: ds) =
        Server.usedBefore.outputs (oneChannelReset.encode :: ds)) ↔
      ((requestOf oneChannelReset.encode).data3 = 0 ∨ Server.zeroed.mySSDSim.SameRecords
        Server.usedBefore.mySSDSim 0 (requestOf oneChannelReset.encode).data2.toNat) :=
  reset_determines_iff oneChannelReset_valid rfl rfl

end Nctusde.UdpServer

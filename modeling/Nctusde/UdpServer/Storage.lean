import Nctusde.UdpServer.Answers
import Nctusde.UdpServer.Copies
import Nctusde.UdpServer.InForce

namespace Nctusde.UdpServer

open Wire

/-- The 512 bytes of a sector lie inside `memory_storage`. -/
def Stored (sector : ℤ) : Prop := (sector + 1) * SECTOR_SIZE ≤ MEMORY_STORAGE_SIZE

def Holds (size : ℤ) : Prop := ∀ sector : ℤ, 0 ≤ sector → sector < size → Stored sector

def STORAGE_SECTORS : ℤ := 819200

theorem stored_iff {sector : ℤ} : Stored sector ↔ sector < STORAGE_SECTORS := by
  rw [Stored, MEMORY_STORAGE_SIZE, SECTOR_SIZE, STORAGE_SECTORS]
  omega

theorem holds_iff {size : ℤ} : Holds size ↔ size ≤ STORAGE_SECTORS := by
  constructor
  · intro h
    by_contra hlt
    have := stored_iff.mp (h STORAGE_SECTORS (by decide) (by omega))
    omega
  · intro h sector _ hlt
    exact stored_iff.mpr (by omega)

/-- A new request for a sector is answered with ok; copies get the reply that was
kept and touch no storage. -/
structure MovesSector (s : Server) (bytes : Bytes) : Prop where
  type : (requestOf bytes).type = NctussEmuRequestType.readWriteData.code
  readable : Readable bytes
  new : ((requestOf bytes).id.toNat : ℤ) ≠ s.currentMaxRequestId
  ok : ∃ s' b, s.receive bytes = .loop s' (some b) ∧
    (NctussEmuReply.decode b).type = NctussEmuReplyType.ok.code

structure SetsSize (bytes : Bytes) : Prop where
  readable : Readable bytes
  reset : IsReset bytes
  admissible : Admissible (requestOf bytes)

/-- No access past the size that the last reset set (`set` tells whether there was
one) or past the storage, and no size past the storage. -/
def InBounds (set : Prop) (s : Server) (bytes : Bytes) : Prop :=
  (MovesSector s bytes → set ∧ ((requestOf bytes).data2.toNat : ℤ) < s.mySSDSim.size ∧
    Stored (requestOf bytes).data2.toNat) ∧
  (SetsSize bytes → ∀ s' sent, s.receive bytes = .loop s' sent → Holds s'.mySSDSim.size)

def AllInBounds (set : Prop) (s : Server) : List Bytes → Prop
  | [] => True
  | bytes :: rest => InBounds set s bytes ∧ ∀ s' sent, s.receive bytes = .loop s' sent →
      AllInBounds (set ∨ SetsSize bytes) s' rest

/-- What the incoming datagrams alone announce: the newest id and the size of the
last reset that was taken over. -/
structure Announced where
  newest : ℤ
  size : Option ℤ

def Announced.after (a : Announced) (bytes : Bytes) : Announced :=
  if ¬ Readable bytes then a
  else if IsReset bytes then
    ⟨0, if Admissible (requestOf bytes) then some (requestOf bytes).data1.toNat else a.size⟩
  else ⟨(requestOf bytes).id.toNat, a.size⟩

/-- A reset announces no more sectors than the storage has, and a new complete
request for a sector names one that was announced. -/
def Announced.Suits (a : Announced) (bytes : Bytes) : Prop :=
  Readable bytes →
    if IsReset bytes then
      Admissible (requestOf bytes) → ((requestOf bytes).data1.toNat : ℤ) ≤ STORAGE_SECTORS
    else
      ((requestOf bytes).id.toNat : ℤ) ≠ a.newest →
      (requestOf bytes).type = NctussEmuRequestType.readWriteData.code → ¬ IsShortWrite bytes →
      ∃ size, a.size = some size ∧ ((requestOf bytes).data2.toNat : ℤ) < size

def Announced.AllSuit (a : Announced) : List Bytes → Prop
  | [] => True
  | bytes :: rest => a.Suits bytes ∧ (a.after bytes).AllSuit rest

structure Follows (s : Server) (a : Announced) : Prop where
  newest : s.currentMaxRequestId = a.newest
  size : ∀ size, a.size = some size → s.mySSDSim.size = size ∧ size ≤ STORAGE_SECTORS

variable {s s' : Server} {a : Announced} {bytes : Bytes} {sent : Option Bytes}

theorem submitRequest_size {sim sim' : MySSDSim} {totals totals' : Totals}
    {time rw sector count ioRequestId ret : ℤ}
    (h : sim.submitRequest totals time rw sector count ioRequestId = some (ret, sim', totals')) :
    sim'.size = sim.size := by
  unfold MySSDSim.submitRequest at h
  generalize sim.oldestChannel = oldest at h
  obtain ⟨time', pos⟩ := oldest
  dsimp only at h
  split at h
  · cases h
    rfl
  split at h
  · cases h
  · cases h
    rfl

theorem getNextResponses_size (sim : MySSDSim) (t : ℤ) :
    (sim.getNextResponses t).1.size = sim.size := rfl

theorem dispatch_size {r : NctussEmuRequest} {buf : Bytes} (h : s.dispatch r buf = .loop s' sent) :
    s'.mySSDSim.size = s.mySSDSim.size := by
  have hall {t : Server} (ht : t.answer r = .loop s' sent)
      (hsize : t.mySSDSim.size = s.mySSDSim.size) : s'.mySSDSim.size = s.mySSDSim.size := by
    simp only [Server.answer, Outcome.loop.injEq] at ht
    obtain ⟨rfl, -⟩ := ht
    exact hsize
  rcases ht : NctussEmuRequestType.ofCode r.type with _ | t
  · rw [Server.dispatch_unknown _ ht] at h
    exact hall h rfl
  · obtain hcode := NctussEmuRequestType.code_of_ofCode ht
    cases t with
    | reset =>
      rw [Server.dispatch_reset _ hcode] at h
      exact hall h rfl
    | submitReqeust =>
      rw [Server.dispatch_submitReqeust _ hcode] at h
      split at h
      · cases h
      · rename_i hsub
        exact hall h (submitRequest_size hsub)
    | getNextResponses =>
      rw [Server.dispatch_getNextResponses _ hcode] at h
      generalize s.mySSDSim.nextResponses (Server.time64 r) = next at h
      refine hall h ?_
      rw [Server.withResponses_mySSDSim, Server.replyWith_mySSDSim]
      exact getNextResponses_size _ _
    | readWriteData =>
      rw [Server.dispatch, ht] at h
      dsimp only at h
      split at h
      · exact hall h rfl
      split at h
      · simp only [Outcome.loop.injEq] at h
        obtain ⟨rfl, -⟩ := h
        rfl
      · exact hall h rfl

theorem dispatch_readWriteData {n : ℤ} (hr : (requestOf bytes).type =
      NctussEmuRequestType.readWriteData.code) (hw : ¬ IsShortWrite bytes)
    (h : { s with currentMaxRequestId := n }.dispatch (requestOf bytes) (bytes.take MAXNAME) =
      .loop s' sent) :
    sent = some s'.datagram ∧
      (NctussEmuReply.decode s'.datagram).type = NctussEmuReplyType.ok.code := by
  have hwell := wellFormed_of_not_shortWrite hw
    (by rw [hr, NctussEmuRequestType.ofCode_code]; exact Option.some_ne_none _)
  obtain ⟨rfl, hans, -⟩ := Server.dispatch_answers hwell h
  refine ⟨rfl, ?_⟩
  rw [hans.datagram, NctussEmuReply.decode_encode_type]
  rw [Server.dispatch, hr, NctussEmuRequestType.ofCode_code] at h
  dsimp only at h
  split at h
  · simp only [Server.answer, Outcome.loop.injEq] at h
    obtain ⟨rfl, -⟩ := h
    rfl
  split at h
  · exact absurd ⟨hr, by assumption, by assumption⟩ hw
  · simp only [Server.answer, Outcome.loop.injEq] at h
    obtain ⟨rfl, -⟩ := h
    rfl

theorem movesSector_iff (hr : Readable bytes) (hreset : ¬ IsReset bytes)
    (hid : ((requestOf bytes).id.toNat : ℤ) ≠ s.currentMaxRequestId)
    (hs : s.receive bytes = .loop s' sent) :
    MovesSector s bytes ↔
      (requestOf bytes).type = NctussEmuRequestType.readWriteData.code ∧ ¬ IsShortWrite bytes := by
  have hpast := receive_past hr hreset hid hs
  constructor
  · rintro ⟨htype, -, -, _, b, hok, -⟩
    refine ⟨htype, fun hw ↦ ?_⟩
    rw [Server.dispatch_shortWrite hw.1 hw.2.1 hw.2.2] at hpast
    rw [hs] at hok
    cases hpast
    cases hok
  · rintro ⟨htype, hw⟩
    obtain ⟨rfl, hok⟩ := dispatch_readWriteData htype hw hpast
    exact ⟨htype, hr, hid, _, _, hs, hok⟩

theorem receive_reset_size (hr : Readable bytes) (h : IsReset bytes)
    (hs : s.receive bytes = .loop s' sent) : s'.currentMaxRequestId = 0 ∧
      s'.mySSDSim.size = if Admissible (requestOf bytes) then ((requestOf bytes).data1.toNat : ℤ)
        else s.mySSDSim.size := by
  rcases hsetup : s.mySSDSim.setup (requestOf bytes).data1.toNat (requestOf bytes).data2.toNat
    (requestOf bytes).data3.toNat with _ | sim
  · rw [Server.receive_reset_hang hr h hsetup] at hs
    cases hs
  · obtain ⟨_, hs', hserved, -⟩ := Server.receive_reset_ok hr h hsetup
    rw [hs', Outcome.loop.injEq] at hs
    obtain ⟨rfl, -⟩ := hs
    refine ⟨hserved.currentMaxRequestId, ?_⟩
    rw [hserved.mySSDSim]
    split
    · rename_i ha
      exact (MySSDSim.setup_inForce ha hsetup).size
    rename_i ha
    by_cases hc : (MAX_EMULATOR_CHANNELS : ℤ) < (requestOf bytes).data2.toNat
    · rw [MySSDSim.setup_tooManyChannels hc] at hsetup
      exact congrArg MySSDSim.size (Option.some.inj hsetup).symm
    · have hsize : MEMORY_STORAGE_SIZE < (requestOf bytes).data1.toNat := by
        by_contra hle
        exact ha ⟨by omega, not_lt.mp hle⟩
      rw [MySSDSim.setup_tooLarge (not_lt.mp hc) hsize] at hsetup
      cases hsetup

variable {set : Prop}

theorem Follows.reset (h : Follows s a) (hset : set ↔ a.size ≠ none) (hr : Readable bytes)
    (hreset : IsReset bytes) (hs : s.receive bytes = .loop s' sent) :
    (InBounds set s bytes ↔ a.Suits bytes) ∧
      (a.Suits bytes → Follows s' (a.after bytes) ∧
        (set ∨ SetsSize bytes ↔ (a.after bytes).size ≠ none)) := by
  have hmoves : ¬ MovesSector s bytes := by
    intro hm
    have htype := hm.type
    rw [show _ = _ from hreset] at htype
    exact absurd htype (by decide)
  obtain ⟨hcounter, hsize⟩ := receive_reset_size hr hreset hs
  by_cases ha : Admissible (requestOf bytes)
  · have hsets : SetsSize bytes := ⟨hr, hreset, ha⟩
    have hafter : a.after bytes = ⟨0, some (requestOf bytes).data1.toNat⟩ := by
      rw [Announced.after, if_neg (not_not.mpr hr), if_pos hreset, if_pos ha]
    have hsuits : a.Suits bytes ↔ ((requestOf bytes).data1.toNat : ℤ) ≤ STORAGE_SECTORS := by
      simp only [Announced.Suits, hr, hreset, ha, if_true, forall_true_left]
    rw [if_pos ha] at hsize
    refine ⟨?_, fun hle ↦ ⟨?_, ?_⟩⟩
    · rw [hsuits, ← holds_iff, ← hsize]
      exact ⟨fun hin ↦ hin.2 hsets _ _ hs, fun hholds ↦
        ⟨fun hm ↦ absurd hm hmoves, fun _ t _ ht ↦ by
        rw [hs, Outcome.loop.injEq] at ht
        exact ht.1 ▸ hholds⟩⟩
    · rw [hafter]
      refine ⟨hcounter, fun size hsome ↦ ?_⟩
      obtain rfl := Option.some.inj hsome
      exact ⟨hsize, hsuits.mp hle⟩
    · rw [hafter]
      exact iff_of_true (.inr hsets) (Option.some_ne_none _)
  · have hsets : ¬ SetsSize bytes := fun hsets ↦ ha hsets.admissible
    have hafter : a.after bytes = ⟨0, a.size⟩ := by
      rw [Announced.after, if_neg (not_not.mpr hr), if_pos hreset, if_neg ha]
    rw [if_neg ha] at hsize
    refine ⟨iff_of_true ⟨fun hm ↦ absurd hm hmoves, fun h ↦ absurd h hsets⟩ ?_, fun _ ↦ ⟨?_, ?_⟩⟩
    · simp only [Announced.Suits, hreset, ha, if_true, false_imp_iff, implies_true]
    · rw [hafter]
      exact ⟨hcounter, fun size hsome ↦ hsize ▸ h.size size hsome⟩
    · rw [hafter]
      simpa [hsets] using hset

theorem Follows.step (h : Follows s a) (hset : set ↔ a.size ≠ none)
    (hs : s.receive bytes = .loop s' sent) :
    (InBounds set s bytes ↔ a.Suits bytes) ∧
      (a.Suits bytes → Follows s' (a.after bytes) ∧
        (set ∨ SetsSize bytes ↔ (a.after bytes).size ≠ none)) := by
  by_cases hr : Readable bytes
  swap
  · have hmoves : ¬ MovesSector s bytes := fun hm ↦ hr hm.readable
    have hsets : ¬ SetsSize bytes := fun hs ↦ hr hs.readable
    rw [Server.receive_unreadable hr] at hs
    cases hs
    simp only [InBounds, Announced.Suits, Announced.after, hr, hmoves, hsets]
    simpa using ⟨h, hset⟩
  by_cases hreset : IsReset bytes
  · exact h.reset hset hr hreset hs
  have hsets : ¬ SetsSize bytes := fun hs ↦ hreset hs.reset
  have hafter : a.after bytes = ⟨(requestOf bytes).id.toNat, a.size⟩ := by
    rw [Announced.after, if_neg (not_not.mpr hr), if_neg hreset]
  have hset' : set ∨ SetsSize bytes ↔ a.size ≠ none := by simpa [hsets] using hset
  rw [hafter]
  by_cases hid : ((requestOf bytes).id.toNat : ℤ) = s.currentMaxRequestId
  · rw [Server.receive_copy hr hreset hid] at hs
    cases hs
    refine ⟨iff_of_true
      ⟨fun hm ↦ absurd hid hm.new, fun h ↦ absurd h hsets⟩ ?_, fun _ ↦ ⟨?_, hset'⟩⟩
    · simp only [Announced.Suits, hreset, if_false, ← h.newest, hid]
      exact fun _ hne ↦ absurd rfl hne
    · exact ⟨hid.symm, h.size⟩
  · have hpast := receive_past hr hreset hid hs
    have hsize := dispatch_size hpast
    have hcounter := (Server.dispatch_reply hpast).counter
    refine ⟨?_, fun _ ↦ ⟨⟨hcounter, fun size hsome ↦ hsize ▸ h.size size hsome⟩, hset'⟩⟩
    simp only [InBounds, hsets, false_imp_iff, and_true, Announced.Suits, hr, hreset, if_false,
      forall_true_left, ← h.newest, hid, movesSector_iff hr hreset hid hs, ne_eq, not_false_eq_true,
      and_imp, stored_iff]
    refine imp_congr_right fun _ ↦ imp_congr_right fun _ ↦ ?_
    constructor
    · rintro ⟨hs, hlt, -⟩
      obtain ⟨size, hsome⟩ := Option.ne_none_iff_exists'.mp (hset.mp hs)
      exact ⟨size, hsome, (h.size size hsome).1 ▸ hlt⟩
    · rintro ⟨size, hsome, hlt⟩
      obtain ⟨heq, hle⟩ := h.size size hsome
      exact ⟨hset.mpr (hsome ▸ Option.some_ne_none _), heq.symm ▸ hlt, hlt.trans_le hle⟩

theorem Follows.run (h : Follows s a) (hset : set ↔ a.size ≠ none)
    {log : List (Bytes × Option Bytes)} (hlog : Serves s log s') :
    AllInBounds set s (log.map Prod.fst) ↔ a.AllSuit (log.map Prod.fst) := by
  induction hlog generalizing a set with
  | nil s => exact Iff.rfl
  | @cons s s₁ s₂ bytes sent log hs _ ih =>
    obtain ⟨hiff, hkeep⟩ := h.step hset hs
    simp only [List.map_cons, AllInBounds, Announced.AllSuit, hiff]
    refine and_congr_right fun hsuits ↦ ?_
    obtain ⟨hfollows, hset'⟩ := hkeep hsuits
    rw [← ih hfollows hset']
    refine ⟨fun hall ↦ hall _ _ hs, fun hall t _ ht ↦ ?_⟩
    rw [hs, Outcome.loop.injEq] at ht
    exact ht.1 ▸ hall

/-- Over any run of the receive loop, no access leaves the disk that was set up or
the storage, and no size exceeds the storage, exactly when the datagrams suit. -/
theorem storage_in_bounds_iff {log : List (Bytes × Option Bytes)} (h : Serves s log s') :
    AllInBounds False s (log.map Prod.fst) ↔
      (Announced.mk s.currentMaxRequestId none).AllSuit (log.map Prod.fst) := by
  have hfollows : Follows s ⟨s.currentMaxRequestId, none⟩ := ⟨rfl, fun _ hsome ↦ nomatch hsome⟩
  exact hfollows.run (iff_of_false id fun h ↦ h rfl) h

def readAt (sector : UInt32) : NctussEmuRequest where
  id := 124
  type := NctussEmuRequestType.readWriteData.code
  data2 := sector
  idCheck := 124

theorem serves_readAt (sector : UInt32) : ∃ s s' sent sent',
    Serves Server.zeroed
      [(oneChannelReset.encode ++ [], sent), ((readAt sector).encode ++ [], sent')] s' ∧
      Server.zeroed.receive (oneChannelReset.encode ++ []) = .loop s sent ∧
      s.currentMaxRequestId = 0 ∧ s.mySSDSim.size = 819200 ∧
      s.receive ((readAt sector).encode ++ []) = .loop s' sent' := by
  have hreq := requestOf_encode oneChannelReset []
  obtain ⟨s, hs, -, hin⟩ := Server.receive_reset_admissible (s := Server.zeroed)
    (readable_encode oneChannelReset []) (by rw [IsReset, hreq]; rfl) (by rw [hreq]; decide)
  obtain ⟨hcounter, -⟩ := receive_reset_size (readable_encode oneChannelReset [])
    (by rw [IsReset, hreq]; rfl) hs
  obtain ⟨s', hs', -⟩ := Server.receive_read (r := readAt sector) (s := s) rfl rfl rfl
    (by rw [hcounter]; exact (by decide : (0 : ℤ) < (124 : UInt32).toNat))
  rw [← List.append_nil (readAt sector).encode] at hs'
  refine ⟨s, s', _, _, .cons hs (.cons hs' (.nil _)), hs, hcounter, ?_, hs'⟩
  rw [hin.size, hreq]
  rfl

theorem suits_readAt (sector : UInt32) : (Announced.mk 0 none).AllSuit
    [oneChannelReset.encode ++ [], (readAt sector).encode ++ []] ↔ sector.toNat < 819200 := by
  have hreset : IsReset (oneChannelReset.encode ++ []) := by
    rw [IsReset, requestOf_encode]
    rfl
  have hread : ¬ IsReset ((readAt sector).encode ++ []) := by
    rw [IsReset, requestOf_encode]
    exact (by decide : ¬ NctussEmuRequestType.readWriteData.code = NctussEmuRequestType.reset.code)
  have hadm : Admissible oneChannelReset := by decide
  have hshort : ¬ IsShortWrite ((readAt sector).encode ++ []) := by
    rw [IsShortWrite, requestOf_encode]
    exact fun h ↦ h.2.1 rfl
  simp only [Announced.AllSuit, Announced.Suits, Announced.after, readable_encode, hreset, hread,
    requestOf_encode, hadm, hshort]
  simp [oneChannelReset, readAt, STORAGE_SECTORS]

theorem storage_in_bounds_iff_first : ∃ s' sent sent',
    Serves Server.zeroed
      [(oneChannelReset.encode ++ [], sent), ((readAt 0).encode ++ [], sent')] s' ∧
      AllInBounds False Server.zeroed [oneChannelReset.encode ++ [], (readAt 0).encode ++ []] := by
  obtain ⟨_, s', sent, sent', hlog, -⟩ := serves_readAt 0
  exact ⟨s', sent, sent', hlog, (storage_in_bounds_iff hlog).mpr ((suits_readAt 0).mpr (by decide))⟩

/-- The server of a disk of 819200 sectors reads sector 819200, and takes over a
size of 2 ^ 20 sectors. -/
theorem storage_out_of_bounds :
    (∃ s' sent sent', Serves Server.zeroed
        [(oneChannelReset.encode ++ [], sent), ((readAt 819200).encode ++ [], sent')] s' ∧
      ¬ AllInBounds False Server.zeroed
        [oneChannelReset.encode ++ [], (readAt 819200).encode ++ []]) ∧
    ∃ s' sent, Server.zeroed.receive
        ({ oneChannelReset with data1 := 1048576 }.encode ++ []) = .loop s' sent ∧
      ¬ Holds s'.mySSDSim.size := by
  constructor
  · obtain ⟨_, s', sent, sent', hlog, -⟩ := serves_readAt 819200
    have hfollows : Follows Server.zeroed ⟨0, none⟩ := ⟨rfl, fun _ hsome ↦ nomatch hsome⟩
    have hiff := hfollows.run (iff_of_false id fun h ↦ h rfl) hlog
    refine ⟨s', sent, sent', hlog, fun hall ↦ ?_⟩
    exact absurd ((suits_readAt 819200).mp (hiff.mp hall)) (by decide)
  · have hreq := requestOf_encode { oneChannelReset with data1 := 1048576 } []
    obtain ⟨s', hs, -, hin⟩ := Server.receive_reset_admissible (s := Server.zeroed)
      (readable_encode { oneChannelReset with data1 := 1048576 } [])
      (by rw [IsReset, hreq]; rfl) (by rw [hreq]; decide)
    refine ⟨s', _, hs, ?_⟩
    rw [hin.size, hreq, holds_iff]
    decide

end Nctusde.UdpServer

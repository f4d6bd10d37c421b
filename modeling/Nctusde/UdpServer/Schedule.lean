import Nctusde.Library.Order
import Nctusde.UdpServer.Answers
import Nctusde.UdpServer.Storage

namespace Nctusde.UdpServer

open Library.Occupancy Wire

structure Granted where
  channel : ℕ
  time : ℤ
  completionTime : ℤ
  sequential : Bool
  deriving DecidableEq, Repr

def Granted.job (a : Granted) : Job ℤ := ⟨a.channel, a.time, a.completionTime⟩

def MySSDSim.accepted (s : MySSDSim) (time rw sector count ioRequestId : ℤ) : List Granted :=
  if s.oldestChannel.1 ≥ time then []
  else
    match requestSizeIndex (toInt (count * SECTOR_SIZE)) with
    | none => []
    | some k => [{
        channel := s.oldestChannel.2.getD 0
        time := time
        completionTime := (s.assigned time rw sector count ioRequestId k).completionTime
        sequential := s.isSequentialRequest rw sector }]

/-- The requests a datagram adds: none, or that of a new submission. -/
def Server.accepted (s : Server) (bytes : Bytes) : List Granted :=
  if Readable bytes ∧ (requestOf bytes).type = NctussEmuRequestType.submitReqeust.code ∧
      ((requestOf bytes).id.toNat : ℤ) ≠ s.currentMaxRequestId then
    s.mySSDSim.accepted (Server.time64 (requestOf bytes)) (requestOf bytes).data3.toNat
      (requestOf bytes).data4.toNat (requestOf bytes).data5.toNat (requestOf bytes).data6.toNat
  else []

/-- A server since the last reset that set it up: the requests it accepted until the counters
were last zeroed, and those it accepted after that. -/
inductive Accepts : Server → List Granted → List Granted → Prop
  | setup {s s' : Server} {bytes : Bytes} {sent : Option Bytes} : Readable bytes → IsReset bytes →
      Admissible (requestOf bytes) → s.receive bytes = .loop s' sent → Accepts s' [] []
  | ignored {s s' : Server} {bytes : Bytes} {sent : Option Bytes} {before since : List Granted} :
      Accepts s before since → Readable bytes → IsReset bytes → ¬ Admissible (requestOf bytes) →
      s.receive bytes = .loop s' sent → Accepts s' (before ++ since) []
  | served {s s' : Server} {bytes : Bytes} {sent : Option Bytes} {before since : List Granted} :
      Accepts s before since → ¬ (Readable bytes ∧ IsReset bytes) →
      s.receive bytes = .loop s' sent → Accepts s' before (since ++ s.accepted bytes)

def Overlaps (earlier : List Granted) (a : Granted) : Prop :=
  ∃ b ∈ earlier, a.time < b.completionTime

instance (earlier : List Granted) (a : Granted) : Decidable (Overlaps earlier a) :=
  inferInstanceAs (Decidable (∃ b ∈ earlier, a.time < b.completionTime))

/-- The requests that overlap with one accepted before them. -/
def overlapping (before : List Granted) : List Granted → ℕ
  | [] => 0
  | a :: since => (if Overlaps before a then 1 else 0) + overlapping (before ++ [a]) since

theorem overlapping_concat (before since : List Granted) (a : Granted) :
    overlapping before (since ++ [a]) =
      overlapping before since + if Overlaps (before ++ since) a then 1 else 0 := by
  induction since generalizing before with
  | nil => simp [overlapping]
  | cons b since ih =>
    rw [List.cons_append, overlapping, overlapping, ih, List.append_assoc, List.singleton_append,
      Nat.add_assoc]

structure Totals.Counts (t : Totals) (before since : List Granted) : Prop where
  random : t.randomRequestCount = since.countP fun a ↦ !a.sequential
  sequential : t.sequentialRequestCount = since.countP fun a ↦ a.sequential
  rollback : t.rollbackRequestCount = overlapping before since

structure Occupied (s : MySSDSim) (log : List Granted) : Prop where
  channels : s.channels ≤ MAX_EMULATOR_CHANNELS
  speedFactor : 0 ≤ s.speedFactor ∧ s.speedFactor < 2 ^ 32
  exclusive : Exclusive (log.map Granted.job)
  channel : ∀ a ∈ log, a.channel < s.count ∧ a.completionTime ≤ s.completionTime a.channel
  nonneg : ∀ i < s.count, 0 ≤ s.completionTime i
  frontier : ∀ t, 0 ≤ t → (t < s.mostFrontierSimulationTime ↔ ∃ a ∈ log, t < a.completionTime)

section

variable {s s' : MySSDSim} {log before since : List Granted} {totals totals' : Totals}
  {time rw sector count ioRequestId ret : ℤ} {i k : ℕ}

def Totals.after (totals : Totals) (sequential late : Bool) : Totals where
  randomRequestCount := totals.randomRequestCount + if sequential then 0 else 1
  sequentialRequestCount := totals.sequentialRequestCount + if sequential then 1 else 0
  rollbackRequestCount := totals.rollbackRequestCount + if late then 1 else 0

/-- A submission changes nothing, or is put on an idle channel and counted. -/
theorem submitRequest_cases (ht : time ≤ LONG_MAX)
    (h : s.submitRequest totals time rw sector count ioRequestId = some (ret, s', totals')) :
    (s' = s ∧ totals' = totals ∧ s.accepted time rw sector count ioRequestId = []) ∨
      ∃ i k, i < s.count ∧ s.completionTime i < time ∧ k < 8 ∧
        MySSDSim.Assigns s s' i (s.assigned time rw sector count ioRequestId k) ∧
        s'.mostFrontierSimulationTime = max s.mostFrontierSimulationTime
          (s.assigned time rw sector count ioRequestId k).completionTime ∧
        totals' = totals.after (s.isSequentialRequest rw sector)
          (time < s.mostFrontierSimulationTime) ∧
        s.accepted time rw sector count ioRequestId =
          [⟨i, time, (s.assigned time rw sector count ioRequestId k).completionTime,
            s.isSequentialRequest rw sector⟩] := by
  by_cases hfull : s.oldestChannel.1 ≥ time
  · rw [MySSDSim.submitRequest_refused s hfull, Option.some.injEq, Prod.mk.injEq,
      Prod.mk.injEq] at h
    obtain ⟨-, rfl, rfl⟩ := h
    exact .inl ⟨rfl, rfl, if_pos hfull⟩
  obtain ⟨i, hi, hmin, hlt⟩ := s.oldestChannel_spec ht hfull
  cases hk : requestSizeIndex (toInt (count * SECTOR_SIZE)) with
  | none =>
    simp only [MySSDSim.submitRequest, if_neg hfull, hk] at h
    cases h
  | some k =>
    simp only [MySSDSim.submitRequest, if_neg hfull, hk, Option.some.injEq, Prod.mk.injEq] at h
    obtain ⟨-, rfl, rfl⟩ := h
    refine .inr ⟨i, k, hmin.lt, hlt, requestSizeIndex_lt hk, ⟨rfl, rfl, ?_⟩, ?_, ?_, ?_⟩
    · rw [hi, Option.getD_some]
    · dsimp only
      split
      · rename_i hgt
        exact (max_eq_right hgt.le).symm
      · rename_i hle
        exact (max_eq_left (not_lt.mp hle)).symm
    · unfold Totals.after
      cases s.isSequentialRequest rw sector <;>
        by_cases hlate : time < s.mostFrontierSimulationTime <;>
        simp [hlate]
    · simp only [MySSDSim.accepted, hk, hi, if_neg (not_le.mpr hlt), Option.getD_some]

/-- Service of less than 2 ^ 51 cannot carry a time below 2 ^ 62 out of range. -/
theorem assigned_completionTime (hspeed : 0 ≤ s.speedFactor ∧ s.speedFactor < 2 ^ 32) (hk : k < 8)
    (h0 : 0 ≤ time) (ht : time < 2 ^ 62) :
    time ≤ (s.assigned time rw sector count ioRequestId k).completionTime := by
  obtain ⟨hlow, hhigh⟩ := s.serviceTime_bounds (s.isSequentialRequest rw sector) rw hk hspeed.1
  have htop : (2 : ℤ) ^ 19 * s.speedFactor ≤ 2 ^ 51 := by omega
  rw [MySSDSim.assigned, toLong_of_fits (by omega) (by omega)]
  exact le_add_of_nonneg_right hlow

theorem Occupied.accept (h : Occupied s log) {a : Granted} {channel : SsdChannel}
    (hi : a.channel < s.count) (hlt : s.completionTime a.channel < a.time)
    (hle : a.time ≤ a.completionTime) (hc : channel.completionTime = a.completionTime)
    (hassigns : MySSDSim.Assigns s s' a.channel channel)
    (hfrontier : s'.mostFrontierSimulationTime =
      max s.mostFrontierSimulationTime a.completionTime) :
    Occupied s' (log ++ [a]) := by
  have hself : s'.completionTime a.channel = a.completionTime :=
    hassigns.completionTime_self.trans hc
  have hgrow (j : ℕ) : s.completionTime j ≤ s'.completionTime j := by
    by_cases hj : j = a.channel
    · subst hj
      rw [hself]
      exact hlt.le.trans hle
    · rw [hassigns.completionTime_other hj]
  refine ⟨hassigns.channels ▸ h.channels, hassigns.speedFactor ▸ h.speedFactor, ?_, ?_, ?_, ?_⟩
  · rw [List.map_append, List.map_singleton]
    refine h.exclusive.concat fun j' hj' hmachine ↦ ?_
    obtain ⟨b, hb, rfl⟩ := List.mem_map.mp hj'
    have hb' := (h.channel b hb).2
    rw [show b.channel = a.channel from hmachine] at hb'
    exact hb'.trans_lt hlt
  · intro b hb
    rw [hassigns.count]
    rcases List.mem_append.mp hb with hb | hb
    · exact ⟨(h.channel b hb).1, (h.channel b hb).2.trans (hgrow _)⟩
    · obtain rfl := List.mem_singleton.mp hb
      exact ⟨hi, hself.ge⟩
  · intro j hj
    rw [hassigns.count] at hj
    exact (h.nonneg j hj).trans (hgrow j)
  · intro t ht
    rw [hfrontier, lt_max_iff, h.frontier t ht]
    simp only [List.mem_append, List.mem_singleton, or_and_right, exists_or, exists_eq_left]

theorem Totals.Counts.accept (h : totals.Counts before since) {a : Granted} {late : Bool}
    (hlate : late = true ↔ Overlaps (before ++ since) a) :
    (totals.after a.sequential late).Counts before (since ++ [a]) := by
  have hone : (if late = true then (1 : ℤ) else 0) =
      ((if Overlaps (before ++ since) a then 1 else 0 : ℕ) : ℤ) := by
    by_cases ho : Overlaps (before ++ since) a
    · rw [if_pos ho, if_pos (hlate.mpr ho)]
      rfl
    · rw [if_neg ho, if_neg (mt hlate.mp ho)]
      rfl
  refine ⟨?_, ?_, ?_⟩
  · rw [Totals.after, h.random, List.countP_append, List.countP_singleton]
    cases a.sequential <;> simp
  · rw [Totals.after, h.sequential, List.countP_append, List.countP_singleton]
    cases a.sequential <;> simp
  · rw [Totals.after, h.rollback, overlapping_concat, Nat.cast_add, ← hone]

theorem Occupied.submit (h : Occupied s (before ++ since)) (hc : totals.Counts before since)
    (ht : time ≤ LONG_MAX)
    (hsubmit : s.submitRequest totals time rw sector count ioRequestId = some (ret, s', totals'))
    (htime : ∀ a ∈ s.accepted time rw sector count ioRequestId, a.time < 2 ^ 62) :
    Occupied s' (before ++ (since ++ s.accepted time rw sector count ioRequestId)) ∧
      totals'.Counts before (since ++ s.accepted time rw sector count ioRequestId) := by
  rcases submitRequest_cases ht hsubmit with ⟨rfl, rfl, hnone⟩ |
    ⟨i, k, hi, hlt, hk, hassigns, hfrontier, rfl, hone⟩
  · rw [hnone, List.append_nil]
    exact ⟨h, hc⟩
  rw [hone] at htime ⊢
  have hpos := (h.nonneg i hi).trans hlt.le
  have hmax : time < 2 ^ 62 := htime _ (List.mem_singleton_self _)
  have hle : time ≤ (s.assigned time rw sector count ioRequestId k).completionTime :=
    assigned_completionTime h.speedFactor hk hpos hmax
  have hlate := h.frontier time hpos
  refine ⟨?_, ?_⟩
  · rw [← List.append_assoc]
    exact h.accept hi hlt hle rfl hassigns hfrontier
  · exact hc.accept (a := ⟨i, time, _, s.isSequentialRequest rw sector⟩)
      (decide_eq_true_iff.trans hlate)

end

section

variable {s s' : Server} {before since log : List Granted} {bytes : Bytes} {sent : Option Bytes}

/-- What no datagram but a submission or a reset changes. -/
structure Untouched (s s' : Server) : Prop where
  channels : MySSDSim.SameChannels s.mySSDSim s'.mySSDSim
  frontier : s'.mySSDSim.mostFrontierSimulationTime = s.mySSDSim.mostFrontierSimulationTime
  totals : s'.totals = s.totals

theorem Untouched.refl (s : Server) : Untouched s s := ⟨.refl _, rfl, rfl⟩

theorem answer_untouched {t : Server} {r : NctussEmuRequest} (h : t.answer r = .loop s' sent)
    (hu : Untouched s t) : Untouched s s' := by
  simp only [Server.answer, Outcome.loop.injEq] at h
  obtain ⟨rfl, -⟩ := h
  exact ⟨hu.channels, hu.frontier, hu.totals⟩

section

variable {t : Server}

theorem Untouched.replyWith (hu : Untouched s t) (type : NctussEmuReplyType) (id : UInt32) :
    Untouched s (t.replyWith type id) := ⟨hu.channels, hu.frontier, hu.totals⟩

theorem Untouched.withResponses (hu : Untouched s t) (r : MySSDSim.Responses) :
    Untouched s (t.withResponses r) := ⟨hu.channels, hu.frontier, hu.totals⟩

theorem Untouched.getNextResponses (hu : Untouched s t) (time : ℤ) :
    Untouched s { t with mySSDSim := (t.mySSDSim.getNextResponses time).1 } :=
  ⟨hu.channels.trans (t.mySSDSim.sameChannels_getNextResponses time), hu.frontier, hu.totals⟩

theorem Untouched.replyData (hu : Untouched s t) (data : Bytes) :
    Untouched s { t with replyData := data } := ⟨hu.channels, hu.frontier, hu.totals⟩

theorem Untouched.putSector (hu : Untouched s t) (sector : ℕ) (buf : Bytes) :
    Untouched s (t.putSector sector buf) := ⟨hu.channels, hu.frontier, hu.totals⟩

end

theorem dispatch_untouched {r : NctussEmuRequest} {buf : Bytes}
    (ht : r.type ≠ NctussEmuRequestType.submitReqeust.code) (h : s.dispatch r buf = .loop s' sent) :
    Untouched s s' := by
  have hu := Untouched.refl s
  rcases hcode : NctussEmuRequestType.ofCode r.type with _ | t
  · rw [Server.dispatch_unknown _ hcode] at h
    exact answer_untouched h hu
  obtain hr := NctussEmuRequestType.code_of_ofCode hcode
  cases t with
  | reset =>
    rw [Server.dispatch_reset _ hr] at h
    exact answer_untouched h (hu.replyWith _ _)
  | submitReqeust => exact absurd hr ht
  | getNextResponses =>
    rw [Server.dispatch_getNextResponses _ hr] at h
    exact answer_untouched h (((hu.getNextResponses _).replyWith _ _).withResponses _)
  | readWriteData =>
    rw [Server.dispatch, hcode] at h
    dsimp only at h
    split at h
    · exact answer_untouched h ((hu.replyData _).replyWith _ _)
    split at h
    · simp only [Outcome.loop.injEq] at h
      obtain ⟨rfl, -⟩ := h
      exact hu
    · exact answer_untouched h ((hu.putSector _ _).replyWith _ _)

/-- What one datagram other than a reset does to the channels and the counters. -/
theorem receive_cases (hreset : ¬ (Readable bytes ∧ IsReset bytes))
    (hs : s.receive bytes = .loop s' sent) :
    (Untouched s s' ∧ s.accepted bytes = []) ∨
      ∃ ret, s.mySSDSim.submitRequest s.totals (Server.time64 (requestOf bytes))
          (requestOf bytes).data3.toNat (requestOf bytes).data4.toNat (requestOf bytes).data5.toNat
          (requestOf bytes).data6.toNat = some (ret, s'.mySSDSim, s'.totals) ∧
        s.accepted bytes = s.mySSDSim.accepted (Server.time64 (requestOf bytes))
          (requestOf bytes).data3.toNat (requestOf bytes).data4.toNat
          (requestOf bytes).data5.toNat (requestOf bytes).data6.toNat := by
  by_cases hr : Readable bytes
  swap
  · rw [Server.receive_unreadable hr, Outcome.loop.injEq] at hs
    obtain ⟨rfl, -⟩ := hs
    exact .inl ⟨.refl s, if_neg fun h ↦ hr h.1⟩
  have hnot : ¬ IsReset bytes := fun h ↦ hreset ⟨hr, h⟩
  by_cases hid : ((requestOf bytes).id.toNat : ℤ) = s.currentMaxRequestId
  · rw [Server.receive_copy hr hnot hid, Outcome.loop.injEq] at hs
    obtain ⟨rfl, -⟩ := hs
    exact .inl ⟨.refl s, if_neg fun h ↦ h.2.2 hid⟩
  have hpast := receive_past hr hnot hid hs
  by_cases ht : (requestOf bytes).type = NctussEmuRequestType.submitReqeust.code
  · rw [Server.dispatch_submitReqeust _ ht] at hpast
    split at hpast
    · cases hpast
    · rename_i ret sim totals hsubmit
      simp only [Server.answer, Outcome.loop.injEq] at hpast
      obtain ⟨rfl, -⟩ := hpast
      exact .inr ⟨ret, hsubmit, if_pos ⟨hr, ht, hid⟩⟩
  · have hu := dispatch_untouched ht hpast
    exact .inl ⟨⟨hu.channels, hu.frontier, hu.totals⟩, if_neg fun h ↦ ht h.2.1⟩

theorem time64_le (r : NctussEmuRequest) : Server.time64 r ≤ LONG_MAX := toLong_le _

theorem Occupied.untouched (h : Occupied s.mySSDSim log) (hu : Untouched s s') :
    Occupied s'.mySSDSim log := by
  have hcompletion := hu.channels.completionTime
  refine ⟨hu.channels.channels ▸ h.channels, hu.channels.speedFactor ▸ h.speedFactor, h.exclusive,
    ?_, ?_, ?_⟩
  · rw [hu.channels.count, hcompletion]
    exact h.channel
  · rw [hu.channels.count, hcompletion]
    exact h.nonneg
  · rw [hu.frontier]
    exact h.frontier

theorem Occupied.served (h : Occupied s.mySSDSim (before ++ since))
    (hc : s.totals.Counts before since)
    (hreset : ¬ (Readable bytes ∧ IsReset bytes)) (hs : s.receive bytes = .loop s' sent)
    (htime : ∀ a ∈ s.accepted bytes, a.time < 2 ^ 62) :
    Occupied s'.mySSDSim (before ++ (since ++ s.accepted bytes)) ∧
      s'.totals.Counts before (since ++ s.accepted bytes) := by
  rcases receive_cases hreset hs with ⟨hu, hnone⟩ | ⟨ret, hsubmit, hsome⟩
  · rw [hnone, List.append_nil, hu.totals]
    exact ⟨h.untouched hu, hc⟩
  rw [hsome] at htime ⊢
  exact h.submit hc (time64_le _) hsubmit htime

theorem receive_reset_sim (hr : Readable bytes) (h : IsReset bytes)
    (hs : s.receive bytes = .loop s' sent) :
    s.mySSDSim.setup (requestOf bytes).data1.toNat (requestOf bytes).data2.toNat
      (requestOf bytes).data3.toNat = some s'.mySSDSim ∧ s'.totals = ⟨0, 0, 0⟩ := by
  rw [Server.receive_reset hr h] at hs
  split at hs
  · cases hs
  · rename_i sim hsetup
    rw [Server.dispatch_reset _ h] at hs
    simp only [Server.answer, Outcome.loop.injEq] at hs
    obtain ⟨rfl, -⟩ := hs
    exact ⟨hsetup, rfl⟩

theorem totals_zeroed (before : List Granted) : Totals.Counts ⟨0, 0, 0⟩ before [] := ⟨rfl, rfl, rfl⟩

theorem InForce.occupied {r : NctussEmuRequest} {sim : MySSDSim} (h : InForce r sim)
    (ha : Admissible r) : Occupied sim [] where
  channels := by
    have hmax := ha.channels
    rw [h.channels]
    exact_mod_cast hmax
  speedFactor := by
    have hlt := r.data3.toNat_lt
    rw [h.speedFactor]
    omega
  exclusive := exclusive_nil
  channel _ hmem := absurd hmem List.not_mem_nil
  nonneg i hi := (h.idle i hi).2.ge
  frontier t ht := by
    rw [h.mostFrontierSimulationTime]
    exact iff_of_false ht.not_gt fun ⟨_, hmem, _⟩ ↦ absurd hmem List.not_mem_nil

/-- An inadmissible reset that is answered zeroes the counters and nothing else. -/
theorem receive_reset_ignored (hr : Readable bytes) (h : IsReset bytes)
    (ha : ¬ Admissible (requestOf bytes)) (hs : s.receive bytes = .loop s' sent) :
    s'.mySSDSim = s.mySSDSim ∧ s'.totals = ⟨0, 0, 0⟩ := by
  obtain ⟨hsetup, htotals⟩ := receive_reset_sim hr h hs
  refine ⟨?_, htotals⟩
  by_cases hc : (MAX_EMULATOR_CHANNELS : ℤ) < (requestOf bytes).data2.toNat
  · rw [MySSDSim.setup_tooManyChannels hc] at hsetup
    exact (Option.some.inj hsetup).symm
  · have hsize : MEMORY_STORAGE_SIZE < (requestOf bytes).data1.toNat := by
      by_contra hle
      exact ha ⟨by omega, not_lt.mp hle⟩
    rw [MySSDSim.setup_tooLarge (not_lt.mp hc) hsize] at hsetup
    cases hsetup

theorem Accepts.kept (h : Accepts s before since) (htime : ∀ a ∈ before ++ since, a.time < 2 ^ 62) :
    Occupied s.mySSDSim (before ++ since) ∧ s.totals.Counts before since := by
  induction h with
  | setup hr hreset ha hs =>
    obtain ⟨hsetup, htotals⟩ := receive_reset_sim hr hreset hs
    rw [htotals]
    exact ⟨(MySSDSim.setup_inForce ha hsetup).occupied ha, totals_zeroed _⟩
  | ignored _ hr hreset ha hs ih =>
    obtain ⟨hsim, htotals⟩ := receive_reset_ignored hr hreset ha hs
    rw [List.append_nil] at htime ⊢
    rw [hsim, htotals]
    exact ⟨(ih htime).1, totals_zeroed _⟩
  | served _ hreset hs ih =>
    rw [← List.append_assoc, List.forall_mem_append] at htime
    obtain ⟨hocc, hcounts⟩ := ih htime.1
    exact hocc.served hcounts hreset hs htime.2

def attend (r : Server × List Granted × List Granted) (bytes : Bytes) :
    Option (Server × List Granted × List Granted) :=
  match r.1.receive bytes with
  | .hang _ => none
  | .loop s' _ =>
    if Readable bytes ∧ IsReset bytes then
      if Admissible (requestOf bytes) then some (s', [], []) else some (s', r.2.1 ++ r.2.2, [])
    else some (s', r.2.1, r.2.2 ++ r.1.accepted bytes)

/-- The session that these datagrams make, from the reset that opens it. -/
def session (s : Server) : List Bytes → Option (Server × List Granted × List Granted)
  | [] => none
  | reset :: rest =>
    if Readable reset ∧ IsReset reset ∧ Admissible (requestOf reset) then
      (attend (s, [], []) reset).bind fun r ↦ rest.foldlM attend r
    else none

theorem attend_accepts {r r' : Server × List Granted × List Granted} (h : Accepts r.1 r.2.1 r.2.2)
    (hs : attend r bytes = some r') : Accepts r'.1 r'.2.1 r'.2.2 := by
  rw [attend] at hs
  split at hs
  · cases hs
  · rename_i hrec
    split at hs
    · rename_i hreset
      split at hs <;> obtain rfl := Option.some.inj hs
      · rename_i ha
        exact .setup hreset.1 hreset.2 ha hrec
      · rename_i ha
        exact h.ignored hreset.1 hreset.2 ha hrec
    · rename_i hreset
      obtain rfl := Option.some.inj hs
      exact h.served hreset hrec

theorem foldlM_accepts {l : List Bytes} {r r' : Server × List Granted × List Granted}
    (h : Accepts r.1 r.2.1 r.2.2) (hs : l.foldlM attend r = some r') :
    Accepts r'.1 r'.2.1 r'.2.2 := by
  induction l generalizing r with
  | nil =>
    obtain rfl := Option.some.inj hs
    exact h
  | cons bytes l ih =>
    obtain ⟨r₁, h₁, hs⟩ := Option.bind_eq_some_iff.mp hs
    exact ih (attend_accepts h h₁) hs

theorem session_accepts {l : List Bytes} (hs : session s l = some (s', before, since)) :
    Accepts s' before since := by
  cases l with
  | nil => cases hs
  | cons reset rest =>
    obtain ⟨⟨hr, hreset, ha⟩, hs⟩ := Option.ite_none_right_eq_some.mp hs
    obtain ⟨r, hr', hs⟩ := Option.bind_eq_some_iff.mp hs
    have hfirst : Accepts r.1 r.2.1 r.2.2 := by
      rw [attend] at hr'
      split at hr'
      · cases hr'
      · rename_i hrec
        rw [if_pos ⟨hr, hreset⟩, if_pos ha] at hr'
        obtain rfl := Option.some.inj hr'
        exact .setup hr hreset ha hrec
    have hlast := foldlM_accepts hfirst hs
    exact hlast

end

def resetTo (channels : UInt32) : NctussEmuRequest := { oneChannelReset with data2 := channels }

def submission (id time sector count : UInt32) : NctussEmuRequest where
  id := id
  type := NctussEmuRequestType.submitReqeust.code
  data2 := time
  data4 := sector
  data5 := count
  data6 := id
  idCheck := id

/-- A request, a reset that sets two channels up, two requests of which the second continues the
first, a reset that is ignored, two more requests and one that finds both channels taken. -/
def twoChannelSession : Option (Server × List Granted × List Granted) :=
  session .zeroed (([resetTo 2, submission 124 5 0 1, resetTo 2, submission 124 5 100 1,
    submission 125 6 101 1, resetTo 33, submission 126 1000000 300 2, submission 127 1000001 302 1,
    submission 128 1000002 400 1]).map NctussEmuRequest.encode)

section

variable {s : Server} {before since : List Granted}

/-- Over any run of the receive loop, no channel is given a request before it is done with those it
was given since the last reset that set the channels up, so that at no time more of these are in
service than there are channels. -/
theorem service_exclusive (h : Accepts s before since)
    (htime : ∀ a ∈ before ++ since, a.time < 2 ^ 62) :
    Exclusive ((before ++ since).map Granted.job) ∧
      ∀ t, ((before ++ since).filter fun a ↦ a.time ≤ t ∧ t ≤ a.completionTime).length ≤
        s.mySSDSim.channels.toNat := by
  have hocc := (h.kept htime).1
  refine ⟨hocc.exclusive, fun t ↦ ?_⟩
  have hle := hocc.exclusive.length_le (n := s.mySSDSim.count) (fun j hj ↦ by
    obtain ⟨a, ha, rfl⟩ := List.mem_map.mp hj
    exact (hocc.channel a ha).1) t
  rw [List.filter_map, List.length_map] at hle
  exact hle

theorem service_exclusive_two : ∃ s before since, twoChannelSession = some (s, before, since) ∧
    (before ++ since).length = 4 ∧ Exclusive ((before ++ since).map Granted.job) ∧
      ∀ t, ((before ++ since).filter fun a ↦ a.time ≤ t ∧ t ≤ a.completionTime).length ≤ 2 := by
  obtain ⟨⟨s, before, since⟩, hs, htime, hlength, hchannels⟩ : ∃ r ∈ twoChannelSession,
      (∀ a ∈ r.2.1 ++ r.2.2, a.time < 2 ^ 62) ∧ (r.2.1 ++ r.2.2).length = 4 ∧
        r.1.mySSDSim.channels = 2 := by decide +kernel
  obtain ⟨hexclusive, hle⟩ := service_exclusive (session_accepts hs) htime
  rw [hchannels] at hle
  exact ⟨s, before, since, hs, hlength, hexclusive, hle⟩

/-- Over any run of the receive loop, the counters printed at a reset tell how many requests were
accepted since the last one: at random, in sequence, and while an earlier one, accepted since the
last reset that set the channels up, was in service. -/
theorem totals_count (h : Accepts s before since)
    (htime : ∀ a ∈ before ++ since, a.time < 2 ^ 62) :
    s.totals.randomRequestCount = (since.countP fun a ↦ !a.sequential) ∧
      s.totals.sequentialRequestCount = (since.countP fun a ↦ a.sequential) ∧
      s.totals.rollbackRequestCount = overlapping before since := by
  have hcounts := (h.kept htime).2
  exact ⟨hcounts.random, hcounts.sequential, hcounts.rollback⟩

theorem totals_count_two : ∃ s before since, twoChannelSession = some (s, before, since) ∧
    before.length = 2 ∧ s.totals = ⟨1, 1, 1⟩ := by
  obtain ⟨⟨s, before, since⟩, hs, htime, hlength, hrandom, hsequential, hrollback⟩ :
      ∃ r ∈ twoChannelSession, (∀ a ∈ r.2.1 ++ r.2.2, a.time < 2 ^ 62) ∧ r.2.1.length = 2 ∧
        (r.2.2.countP fun a ↦ !a.sequential) = 1 ∧ (r.2.2.countP fun a ↦ a.sequential) = 1 ∧
          overlapping r.2.1 r.2.2 = 1 := by decide +kernel
  obtain ⟨h₁, h₂, h₃⟩ := totals_count (session_accepts hs) htime
  refine ⟨s, before, since, hs, hlength, ?_⟩
  rw [hrandom] at h₁
  rw [hsequential] at h₂
  rw [hrollback] at h₃
  exact congr (congr (congrArg Totals.mk h₁) h₂) h₃

end

end Nctusde.UdpServer

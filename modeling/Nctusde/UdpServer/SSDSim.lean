import Mathlib.Data.List.Range
import Mathlib.Logic.Function.Basic
import Nctusde.Library.ForLoop
import Nctusde.Library.Table
import Nctusde.Wire

namespace Nctusde.UdpServer

open Library.ForLoop Library.Table Wire

def requestSizeKb : List ℤ := [512, 1024, 2048, 4096, 8192, 16384, 32768, 65536]

/-- Rates in hundredths of an operation per second; row 0 reads, row 1 writes. -/
def iorateTableRandom : List (List ℤ) :=
  [[194672, 189513, 186798, 176876, 159182, 141700, 104546, 66149],
    [898, 899, 898, 862, 778, 795, 450, 370]]

def iorateTableSeq : List (List ℤ) :=
  [[522101, 488278, 429834, 371532, 298845, 281019, 146861, 71935],
    [108649, 104858, 101045, 87071, 73645, 289488, 143416, 72945]]

/-- An entry of a response-time table, as `main` fills it from the rates. -/
def responseTime (iorateTable : List (List ℤ)) (j i : ℕ) : ℤ :=
  1000000000 / (iorateTable.getD j []).getD i 0 * 100

def responseTimeTableRandom (j i : ℕ) : ℤ := responseTime iorateTableRandom j i

def responseTimeTableSeq (j i : ℕ) : ℤ := responseTime iorateTableSeq j i

theorem responseTime_bounds : ∀ j < 2, ∀ i < 8,
    (0 ≤ responseTimeTableRandom j i / 1000 ∧ responseTimeTableRandom j i / 1000 ≤ 2 ^ 19) ∧
      0 ≤ responseTimeTableSeq j i / 1000 ∧ responseTimeTableSeq j i / 1000 ≤ 2 ^ 19 := by decide

def requestSizeIndex (nbytes : ℤ) : Option ℕ := requestSizeKb.findIdx? fun kb ↦ nbytes ≤ kb

theorem requestSizeIndex_lt {nbytes : ℤ} {k : ℕ}
    (h : requestSizeIndex nbytes = some k) : k < 8 := by
  simpa [requestSizeKb] using (List.findIdx?_eq_some_iff_findIdx_eq.mp h).1

theorem requestSizeIndex_isSome {nbytes : ℤ} (h : nbytes ≤ 65536) :
    ∃ k, requestSizeIndex nbytes = some k := by
  apply Option.isSome_iff_exists.mp
  simp [requestSizeIndex, requestSizeKb, h]

structure SsdChannel where
  ioRequestId : ℤ
  completionTime : ℤ
  requestLastSector : ℤ
  requestRw : ℤ
  deriving DecidableEq, Repr

structure MySSDSim where
  size : ℤ
  channels : ℤ
  speedFactor : ℤ
  currentTime : ℤ
  mostFrontierSimulationTime : ℤ
  ssdChannels : ℕ → SsdChannel

structure Totals where
  randomRequestCount : ℤ
  sequentialRequestCount : ℤ
  rollbackRequestCount : ℤ
  deriving DecidableEq, Repr

/-- The storage holds this many bytes; `setup` compares a size in sectors with it. -/
def MEMORY_STORAGE_SIZE : ℤ := 400 * 1024 * 1024

namespace MySSDSim

variable (s : MySSDSim)

def count : ℕ := s.channels.toNat

def completionTime (i : ℕ) : ℤ := (s.ssdChannels i).completionTime

def ioRequestId (i : ℕ) : ℤ := (s.ssdChannels i).ioRequestId

/-- `setup`; `none` is its endless loop on an inadmissible size. -/
def setup (size channels speedFactor : ℤ) : Option MySSDSim :=
  if channels > MAX_EMULATOR_CHANNELS then some s
  else if size > MEMORY_STORAGE_SIZE then none
  else some
    { size := size
      channels := channels
      speedFactor := speedFactor
      currentTime := 0
      mostFrontierSimulationTime := 0
      ssdChannels := fun i ↦
        if i < channels.toNat then
          { s.ssdChannels i with ioRequestId := -1, completionTime := 0 }
        else s.ssdChannels i }

def oldestChannel : ℤ × Option ℕ := scanMin (fun _ ↦ True) s.completionTime LONG_MAX s.count

/-- The sequential-access test reads every channel, used or not. -/
def isSequentialRequest (rw sector : ℤ) : Bool :=
  (List.range s.count).any fun i ↦
    (s.ssdChannels i).requestRw = rw ∧ (s.ssdChannels i).requestLastSector = sector

def serviceTime (sequential : Bool) (rw : ℤ) (requestSizeIndex : ℕ) : ℤ :=
  let row := if rw = 1 then 1 else 0
  (if sequential then responseTimeTableSeq row requestSizeIndex
    else responseTimeTableRandom row requestSizeIndex) / 1000 * s.speedFactor

def assigned (time rw sector count ioRequestId : ℤ) (requestSizeIndex : ℕ) : SsdChannel where
  ioRequestId := ioRequestId
  completionTime :=
    toLong (time + s.serviceTime (s.isSequentialRequest rw sector) rw requestSizeIndex)
  requestLastSector := sector + count
  requestRw := if rw = 1 then 1 else 0

/-- `submit_request`; `none` is its endless loop on an unknown size class. -/
def submitRequest (totals : Totals) (time rw sector count ioRequestId : ℤ) :
    Option (ℤ × MySSDSim × Totals) :=
  let (oldestCompletionTime, oldestCompletionTimePos) := s.oldestChannel
  if oldestCompletionTime ≥ time then some (-1, s, totals)
  else
    match requestSizeIndex (toInt (count * SECTOR_SIZE)) with
    | none => none
    | some k =>
      let channel := s.assigned time rw sector count ioRequestId k
      let totals := if s.isSequentialRequest rw sector
        then { totals with sequentialRequestCount := totals.sequentialRequestCount + 1 }
        else { totals with randomRequestCount := totals.randomRequestCount + 1 }
      let totals := if time < s.mostFrontierSimulationTime
        then { totals with rollbackRequestCount := totals.rollbackRequestCount + 1 }
        else totals
      some (0,
        { s with
          ssdChannels := Function.update s.ssdChannels (oldestCompletionTimePos.getD 0) channel
          mostFrontierSimulationTime :=
            if channel.completionTime > s.mostFrontierSimulationTime then channel.completionTime
            else s.mostFrontierSimulationTime },
        totals)

def nextChannel (currentTime : ℤ) : ℤ × Option ℕ :=
  scanMin (fun i ↦ s.completionTime i > currentTime) s.completionTime LONG_MAX s.count

def completingAt (time : ℤ) : List ℤ :=
  entries (guarded (fun i ↦ s.completionTime i = time) s.ioRequestId) s.count

def busyAfter (time : ℤ) : List ℤ :=
  entries (guarded (fun i ↦ time < s.completionTime i) s.ioRequestId) s.count

structure Responses where
  numResponse : ℤ
  time : ℤ
  ioRequestIds : List ℤ
  deriving DecidableEq, Repr

def nextResponses (currentTime : ℤ) : Responses :=
  match s.nextChannel currentTime with
  | (nextResponseTime, some _) =>
    { numResponse := (s.completingAt nextResponseTime).length
      time := nextResponseTime
      ioRequestIds := s.completingAt nextResponseTime }
  | (_, none) => { numResponse := 0, time := 0, ioRequestIds := [0] }

/-- `get_next_responses`, which always returns 0. -/
def getNextResponses (currentTime : ℤ) : MySSDSim × Responses :=
  ({ s with currentTime := if currentTime ≥ s.currentTime then currentTime else s.currentTime },
    s.nextResponses currentTime)

theorem serviceTime_bounds (sequential : Bool) (rw : ℤ) {k : ℕ} (hk : k < 8)
    (hs : 0 ≤ s.speedFactor) :
    0 ≤ s.serviceTime sequential rw k ∧ s.serviceTime sequential rw k ≤ 2 ^ 19 * s.speedFactor := by
  have hrow : (if rw = 1 then 1 else 0) < 2 := by split <;> decide
  obtain ⟨⟨hr, hr'⟩, hq, hq'⟩ := responseTime_bounds _ hrow k hk
  unfold serviceTime
  cases sequential
  · exact ⟨mul_nonneg hr hs, mul_le_mul_of_nonneg_right hr' hs⟩
  · exact ⟨mul_nonneg hq hs, mul_le_mul_of_nonneg_right hq' hs⟩

/-- What an admissible `setup` makes of a simulator. It does not touch the
records of the sequential-access test. -/
structure IsSetup (s s' : MySSDSim) (n speed : ℕ) : Prop where
  channels : s'.channels = n
  speedFactor : s'.speedFactor = speed
  ioRequestId : ∀ i < n, s'.ioRequestId i = -1
  completionTime : ∀ i < n, s'.completionTime i = 0
  requestRw : ∀ i, (s'.ssdChannels i).requestRw = (s.ssdChannels i).requestRw
  requestLastSector :
    ∀ i, (s'.ssdChannels i).requestLastSector = (s.ssdChannels i).requestLastSector

theorem setup_spec {size n : ℕ} (speed : ℕ) (hn : n ≤ MAX_EMULATOR_CHANNELS)
    (hs : (size : ℤ) ≤ MEMORY_STORAGE_SIZE) :
    ∃ s', s.setup size n speed = some s' ∧ IsSetup s s' n speed := by
  refine ⟨_, by rw [setup, if_neg (by omega), if_neg (not_lt.mpr hs)],
    rfl, rfl, fun i hi ↦ ?_, fun i hi ↦ ?_, fun i ↦ ?_, fun i ↦ ?_⟩
  · simp [MySSDSim.ioRequestId, hi]
  · simp [MySSDSim.completionTime, hi]
  all_goals
    dsimp only
    split <;> rfl

theorem IsSetup.count {s' : MySSDSim} {n speed : ℕ} (h : IsSetup s s' n speed) : s'.count = n := by
  rw [MySSDSim.count, h.channels, Int.toNat_natCast]

theorem getNextResponses_snd (currentTime : ℤ) :
    (s.getNextResponses currentTime).2 = s.nextResponses currentTime := rfl

theorem oldestChannel_eq {i : ℕ} (h : FirstMin (fun _ ↦ True) s.completionTime s.count i)
    (hlt : s.completionTime i < LONG_MAX) : s.oldestChannel = (s.completionTime i, some i) := by
  have hs := scanMin_spec (fun _ ↦ True) s.completionTime LONG_MAX s.count
  unfold oldestChannel
  rcases hr : scanMin (fun _ ↦ True) s.completionTime LONG_MAX s.count with ⟨k, _ | j⟩
  · rw [hr] at hs
    exact absurd (hs.2 i h.lt trivial) (not_le_of_gt hlt)
  · rw [hr] at hs
    obtain ⟨rfl, -, hj⟩ := hs
    rw [hj.unique h]

theorem oldestChannel_le {j : ℕ} (hj : j < s.count) (hlt : s.completionTime j < LONG_MAX) :
    ∃ i < s.count, s.oldestChannel = (s.completionTime i, some i) ∧
      s.completionTime i ≤ s.completionTime j := by
  have hs := scanMin_spec (fun _ ↦ True) s.completionTime LONG_MAX s.count
  unfold oldestChannel
  rcases hr : scanMin (fun _ ↦ True) s.completionTime LONG_MAX s.count with ⟨k, _ | i⟩
  · rw [hr] at hs
    exact absurd (hs.2 j hj trivial) (not_le_of_gt hlt)
  · rw [hr] at hs
    obtain ⟨rfl, -, hi⟩ := hs
    exact ⟨i, hi.lt, rfl, hi.least j hj trivial⟩

/-- What `oldest_completion_time_pos` points at whenever a request gets past
the slot test. -/
theorem oldestChannel_spec {time : ℤ} (ht : time ≤ LONG_MAX) (h : ¬ s.oldestChannel.1 ≥ time) :
    ∃ i, s.oldestChannel = (s.completionTime i, some i) ∧
      FirstMin (fun _ ↦ True) s.completionTime s.count i ∧ s.completionTime i < time := by
  have hs := scanMin_spec (fun _ ↦ True) s.completionTime LONG_MAX s.count
  unfold oldestChannel at h ⊢
  rcases hr : scanMin (fun _ ↦ True) s.completionTime LONG_MAX s.count with ⟨k, _ | i⟩
  · rw [hr] at hs h
    obtain ⟨rfl, -⟩ := hs
    exact absurd ht h
  · rw [hr] at hs h
    obtain ⟨rfl, -, hi⟩ := hs
    exact ⟨i, rfl, hi, not_le.mp h⟩

theorem submitRequest_refused {totals : Totals} {time rw sector count ioRequestId : ℤ}
    (h : s.oldestChannel.1 ≥ time) :
    s.submitRequest totals time rw sector count ioRequestId = some (-1, s, totals) := by
  simp only [submitRequest, if_pos h]

/-- A request was put on channel `i`; no other channel changed. -/
structure Assigns (s s' : MySSDSim) (i : ℕ) (channel : SsdChannel) : Prop where
  channels : s'.channels = s.channels
  speedFactor : s'.speedFactor = s.speedFactor
  ssdChannels : s'.ssdChannels = Function.update s.ssdChannels i channel

namespace Assigns

variable {s} {s' : MySSDSim} {i j : ℕ} {channel : SsdChannel}

theorem count (h : Assigns s s' i channel) : s'.count = s.count := by
  rw [MySSDSim.count, MySSDSim.count, h.channels]

theorem self (h : Assigns s s' i channel) : s'.ssdChannels i = channel := by
  rw [h.ssdChannels, Function.update_self]

theorem other (h : Assigns s s' i channel) (hj : j ≠ i) : s'.ssdChannels j = s.ssdChannels j := by
  rw [h.ssdChannels, Function.update_of_ne hj]

theorem completionTime_self (h : Assigns s s' i channel) :
    s'.completionTime i = channel.completionTime := by rw [completionTime, h.self]

theorem completionTime_other (h : Assigns s s' i channel) (hj : j ≠ i) :
    s'.completionTime j = s.completionTime j := by rw [completionTime, completionTime, h.other hj]

theorem ioRequestId_self (h : Assigns s s' i channel) : s'.ioRequestId i = channel.ioRequestId := by
  rw [ioRequestId, h.self]

theorem ioRequestId_other (h : Assigns s s' i channel) (hj : j ≠ i) :
    s'.ioRequestId j = s.ioRequestId j := by rw [ioRequestId, ioRequestId, h.other hj]

end Assigns

theorem submitRequest_accepted (totals : Totals) (time rw sector count ioRequestId : ℤ) {i k : ℕ}
    (hi : s.oldestChannel = (s.completionTime i, some i)) (hlt : s.completionTime i < time)
    (hk : requestSizeIndex (toInt (count * SECTOR_SIZE)) = some k) :
    ∃ s' totals', s.submitRequest totals time rw sector count ioRequestId = some (0, s', totals') ∧
      Assigns s s' i (s.assigned time rw sector count ioRequestId k) := by
  simp only [submitRequest, hi, if_neg (not_le.mpr hlt), hk, Option.getD_some]
  exact ⟨_, _, rfl, rfl, rfl, rfl⟩

/-- Simulators that no request tells apart. -/
structure SameChannels (s s' : MySSDSim) : Prop where
  channels : s'.channels = s.channels
  speedFactor : s'.speedFactor = s.speedFactor
  ssdChannels : s'.ssdChannels = s.ssdChannels

namespace SameChannels

variable {s} {s' s'' : MySSDSim}

theorem refl (s : MySSDSim) : SameChannels s s := ⟨rfl, rfl, rfl⟩

theorem trans (h : SameChannels s s') (h' : SameChannels s' s'') : SameChannels s s'' :=
  ⟨h'.channels.trans h.channels, h'.speedFactor.trans h.speedFactor,
    h'.ssdChannels.trans h.ssdChannels⟩

theorem count (h : SameChannels s s') : s'.count = s.count := by
  rw [MySSDSim.count, MySSDSim.count, h.channels]

theorem completionTime (h : SameChannels s s') : s'.completionTime = s.completionTime := by
  funext i
  rw [MySSDSim.completionTime, MySSDSim.completionTime, h.ssdChannels]

theorem ioRequestId (h : SameChannels s s') : s'.ioRequestId = s.ioRequestId := by
  funext i
  rw [MySSDSim.ioRequestId, MySSDSim.ioRequestId, h.ssdChannels]

theorem completingAt (h : SameChannels s s') (t : ℤ) : s'.completingAt t = s.completingAt t := by
  rw [MySSDSim.completingAt, MySSDSim.completingAt, h.count]
  apply entries_congr
  intro i _
  simp only [guarded, h.completionTime, h.ioRequestId]

theorem busyAfter (h : SameChannels s s') (t : ℤ) : s'.busyAfter t = s.busyAfter t := by
  rw [MySSDSim.busyAfter, MySSDSim.busyAfter, h.count]
  apply entries_congr
  intro i _
  simp only [guarded, h.completionTime, h.ioRequestId]

theorem nextResponses (h : SameChannels s s') (t : ℤ) : s'.nextResponses t = s.nextResponses t := by
  have hnext : s'.nextChannel t = s.nextChannel t := by
    rw [MySSDSim.nextChannel, MySSDSim.nextChannel, h.count]
    exact scanMin_congr (fun i _ ↦ by rw [h.completionTime]) (fun i _ ↦ by rw [h.completionTime])
  simp only [MySSDSim.nextResponses, hnext, h.completingAt]

end SameChannels

theorem sameChannels_getNextResponses (currentTime : ℤ) :
    SameChannels s (s.getNextResponses currentTime).1 := ⟨rfl, rfl, rfl⟩

/-- `get_next_responses` reports the earliest completions after its start time,
all of them together, or nothing. -/
theorem nextResponses_spec (t : ℤ) :
    (∃ i < s.count, t < s.completionTime i ∧ s.completionTime i < LONG_MAX ∧
      (∀ j < s.count, t < s.completionTime j → s.completionTime i ≤ s.completionTime j) ∧
      s.nextResponses t = ⟨(s.completingAt (s.completionTime i)).length, s.completionTime i,
        s.completingAt (s.completionTime i)⟩) ∨
    ((∀ i < s.count, t < s.completionTime i → LONG_MAX ≤ s.completionTime i) ∧
      s.nextResponses t = ⟨0, 0, [0]⟩) := by
  have hs := scanMin_spec (fun i ↦ s.completionTime i > t) s.completionTime LONG_MAX s.count
  unfold nextResponses nextChannel
  rcases hr : scanMin (fun i ↦ s.completionTime i > t) s.completionTime LONG_MAX s.count
    with ⟨k, _ | i⟩
  · rw [hr] at hs
    exact .inr ⟨hs.2, rfl⟩
  · rw [hr] at hs
    obtain ⟨rfl, hlt, hi⟩ := hs
    exact .inl ⟨i, hi.lt, hi.holds, hlt, hi.least, rfl⟩

theorem mem_completingAt {t x : ℤ} :
    x ∈ s.completingAt t ↔ ∃ i < s.count, s.completionTime i = t ∧ s.ioRequestId i = x := by
  simp only [completingAt, mem_entries, guarded_eq_some]

theorem mem_busyAfter {t x : ℤ} :
    x ∈ s.busyAfter t ↔ ∃ i < s.count, t < s.completionTime i ∧ s.ioRequestId i = x := by
  simp only [busyAfter, mem_entries, guarded_eq_some]

theorem busyAfter_split {t t' : ℤ} (ht : t < t')
    (h : ∀ i < s.count, t < s.completionTime i → t' ≤ s.completionTime i) :
    (s.busyAfter t).Perm (s.completingAt t' ++ s.busyAfter t') := by
  apply entries_split
  · intro i hi
    constructor
    · intro hlt
      have := h i hi hlt
      omega
    · omega
  · omega

end MySSDSim

end Nctusde.UdpServer

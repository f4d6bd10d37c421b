import Nctusde.UdpServer.SSDSim

namespace Nctusde.UdpServer.MySSDSim

open Library.ForLoop Library.Table Wire

/-- The simulators that accepted requests lead to after a `setup`, each with the
channels that were ever given a request. -/
inductive Accepted : (ℕ → Prop) → MySSDSim → Prop
  | setup {s s' : MySSDSim} {size channels speedFactor : ℤ} : 1 ≤ channels →
      channels ≤ MAX_EMULATOR_CHANNELS → s.setup size channels speedFactor = some s' →
      Accepted (fun _ ↦ False) s'
  | submit {held : ℕ → Prop} {s s' : MySSDSim} {totals totals' : Totals}
      {time rw sector count ioRequestId : ℤ} : Accepted held s → 0 < time → time ≤ LONG_MAX →
      s.submitRequest totals time rw sector count ioRequestId = some (0, s', totals') →
      Accepted (fun i ↦ s.oldestChannel.2 = some i ∨ held i) s'

variable (s : MySSDSim)

/-- Calls of `get_next_responses`, each with the time the one before returned. -/
def drain (s : MySSDSim) (t : ℤ) : ℕ → MySSDSim × List Responses
  | 0 => (s, [])
  | n + 1 =>
    let next := s.getNextResponses t
    let rest := drain next.1 next.2.time n
    (rest.1, next.2 :: rest.2)

def channelsAt (time : ℤ) : List ℕ :=
  entries (guarded (fun i ↦ s.completionTime i = time) id) s.count

def channelsAfter (time : ℤ) : List ℕ :=
  entries (guarded (fun i ↦ time < s.completionTime i) id) s.count

def batchAt (time : ℤ) : Responses where
  numResponse := (s.channelsAt time).length
  time := time
  ioRequestIds := (s.channelsAt time).map s.ioRequestId

def noResponse : Responses := ⟨0, 0, [0]⟩

theorem completingAt_eq (t : ℤ) : s.completingAt t = (s.channelsAt t).map s.ioRequestId := by
  rw [channelsAt, map_entries, completingAt]
  apply entries_congr
  intro i _
  by_cases hi : s.completionTime i = t <;> simp [guarded, hi]

theorem batchAt_eq (t : ℤ) :
    s.batchAt t = ⟨(s.completingAt t).length, t, s.completingAt t⟩ := by
  rw [batchAt, completingAt_eq, List.length_map]

theorem mem_channelsAt {t : ℤ} {i : ℕ} :
    i ∈ s.channelsAt t ↔ i < s.count ∧ s.completionTime i = t := by
  simp [channelsAt, mem_entries, guarded_eq_some]

theorem mem_channelsAfter {t : ℤ} {i : ℕ} :
    i ∈ s.channelsAfter t ↔ i < s.count ∧ t < s.completionTime i := by
  simp [channelsAfter, mem_entries, guarded_eq_some]

variable {s} {s' : MySSDSim} {t : ℤ} {held : ℕ → Prop}

theorem SameChannels.channelsAt (h : SameChannels s s') (t : ℤ) :
    s'.channelsAt t = s.channelsAt t := by
  rw [MySSDSim.channelsAt, MySSDSim.channelsAt, h.count, h.completionTime]

theorem SameChannels.channelsAfter (h : SameChannels s s') (t : ℤ) :
    s'.channelsAfter t = s.channelsAfter t := by
  rw [MySSDSim.channelsAfter, MySSDSim.channelsAfter, h.count, h.completionTime]

theorem SameChannels.batchAt (h : SameChannels s s') (t : ℤ) : s'.batchAt t = s.batchAt t := by
  rw [MySSDSim.batchAt, MySSDSim.batchAt, h.channelsAt, h.ioRequestId]

theorem sameChannels_drain (s : MySSDSim) (t : ℤ) (n : ℕ) : SameChannels s (s.drain t n).1 := by
  induction n generalizing s t with
  | zero => exact .refl s
  | succ n ih => exact (s.sameChannels_getNextResponses t).trans (ih ..)

theorem nextResponses_length (s : MySSDSim) (h : 1 ≤ s.channels) (t : ℤ) :
    ((s.nextResponses t).ioRequestIds.length : ℤ) ≤ s.channels := by
  have hcount : (s.count : ℤ) = s.channels := Int.toNat_of_nonneg (by omega)
  rcases s.nextResponses_spec t with ⟨i, -, -, -, -, heq⟩ | ⟨-, heq⟩
  · have hlen : (s.completingAt (s.completionTime i)).length ≤ s.count := entries_length_le _ _
    rw [heq]
    dsimp only
    omega
  · rw [heq]
    exact h

theorem drain_length (s : MySSDSim) (h : 1 ≤ s.channels) (t : ℤ) (n : ℕ) :
    ∀ r ∈ (s.drain t n).2, (r.ioRequestIds.length : ℤ) ≤ s.channels := by
  induction n generalizing s t with
  | zero => simp [drain]
  | succ n ih =>
    intro r hr
    rcases List.mem_cons.mp hr with rfl | hr
    · exact s.nextResponses_length h t
    · exact ih (s.getNextResponses t).1 h _ r hr

theorem channelsAfter_split {t' : ℤ} (ht : t < t')
    (h : ∀ i < s.count, t < s.completionTime i → t' ≤ s.completionTime i) :
    (s.channelsAfter t).Perm (s.channelsAt t' ++ s.channelsAfter t') := by
  apply entries_split
  · intro i hi
    constructor
    · intro hlt
      have := h i hi hlt
      omega
    · omega
  · omega

structure Drains (s : MySSDSim) (t : ℤ) (times : List ℤ) : Prop where
  later : ∀ x ∈ times, t < x
  sorted : times.Pairwise (· < ·)
  busy : ∀ x ∈ times, s.channelsAt x ≠ []
  responses : (s.drain t (times.length + 1)).2 = times.map s.batchAt ++ [noResponse]
  once : (times.flatMap s.channelsAt).Perm (s.channelsAfter t)

theorem Drains.nil (h : s.channelsAfter t = []) (hr : s.nextResponses t = noResponse) :
    Drains s t [] where
  later := by simp
  sorted := .nil
  busy := by simp
  responses := congrArg (fun r ↦ [r]) hr
  once := by
    rw [h]
    exact .nil

theorem Drains.cons {t' : ℤ} {times : List ℤ} (ht : t < t') (hbusy : s.channelsAt t' ≠ [])
    (hleast : ∀ i < s.count, t < s.completionTime i → t' ≤ s.completionTime i)
    (hr : s.nextResponses t = s.batchAt t')
    (h : Drains (s.getNextResponses t).1 t' times) : Drains s t (t' :: times) := by
  have hsame := s.sameChannels_getNextResponses t
  have hat : (s.getNextResponses t).1.channelsAt = s.channelsAt := funext hsame.channelsAt
  have hbatch : (s.getNextResponses t).1.batchAt = s.batchAt := funext hsame.batchAt
  refine ⟨?_, List.pairwise_cons.mpr ⟨h.later, h.sorted⟩, ?_, ?_, ?_⟩
  · intro x hx
    rcases List.mem_cons.mp hx with rfl | hx
    · exact ht
    · exact ht.trans (h.later x hx)
  · intro x hx
    rcases List.mem_cons.mp hx with rfl | hx
    · exact hbusy
    · have := h.busy x hx
      rwa [hat] at this
  · have hrest := h.responses
    rw [hbatch] at hrest
    have htime : (s.getNextResponses t).2.time = t' := congrArg Responses.time hr
    have hstep : (s.drain t (times.length + 1 + 1)).2 = s.nextResponses t ::
        ((s.getNextResponses t).1.drain (s.getNextResponses t).2.time (times.length + 1)).2 := rfl
    rw [List.length_cons, hstep, htime, hrest, hr, List.map_cons, List.cons_append]
  · have honce := h.once
    rw [hat, hsame.channelsAfter] at honce
    rw [List.flatMap_cons]
    exact (honce.append_left _).trans (channelsAfter_split ht hleast).symm

/-- Every channel still to be reported comes out in the end: each batch leaves
fewer of them. -/
theorem exists_drains (s : MySSDSim) (t : ℤ)
    (hmax : ∀ i < s.count, s.completionTime i < LONG_MAX) : ∃ times, Drains s t times := by
  induction hn : (s.channelsAfter t).length using Nat.strong_induction_on generalizing s t with
  | _ n ih =>
    rcases s.nextResponses_spec t with ⟨i, hi, hlt, -, hleast, heq⟩ | ⟨hall, heq⟩
    · have hsame := s.sameChannels_getNextResponses t
      have hmem : i ∈ s.channelsAt (s.completionTime i) := s.mem_channelsAt.mpr ⟨hi, rfl⟩
      have hlen := (channelsAfter_split hlt hleast).length_eq
      have hpos := List.length_pos_of_mem hmem
      rw [List.length_append] at hlen
      obtain ⟨times, h⟩ := ih _ (by rw [hsame.channelsAfter]; omega) (s.getNextResponses t).1
        (s.completionTime i) (by rw [hsame.count, hsame.completionTime]; exact hmax) rfl
      rw [← batchAt_eq] at heq
      exact ⟨_, h.cons hlt (List.ne_nil_of_mem hmem) hleast heq⟩
    · have hnone : s.channelsAfter t = [] := by
        apply List.eq_nil_iff_forall_not_mem.mpr
        intro i hi
        obtain ⟨hi, hlt⟩ := s.mem_channelsAfter.mp hi
        exact absurd (hall i hi hlt) (not_le.mpr (hmax i hi))
      exact ⟨[], .nil hnone heq⟩

structure Tracked (held : ℕ → Prop) (s : MySSDSim) : Prop where
  channels : 1 ≤ s.channels ∧ s.channels ≤ MAX_EMULATOR_CHANNELS
  unheld : ∀ i < s.count, ¬ held i → s.ioRequestId i = -1 ∧ s.completionTime i = 0

theorem Accepted.tracked (h : Accepted held s) : Tracked held s := by
  induction h with
  | @setup s s' size channels speedFactor h1 hn hs =>
    rw [MySSDSim.setup, if_neg (not_lt.mpr hn)] at hs
    split at hs
    · cases hs
    · obtain rfl := Option.some.inj hs
      refine ⟨⟨h1, hn⟩, fun i hi _ ↦ ?_⟩
      have hlt : i < channels.toNat := hi
      simp [MySSDSim.ioRequestId, MySSDSim.completionTime, hlt]
  | @submit held s s' totals totals' time rw sector count ioRequestId _ _ hmax hs ih =>
    by_cases hold : s.oldestChannel.1 ≥ time
    · rw [submitRequest_refused s hold] at hs
      cases hs
    · obtain ⟨i, hi, -, hlt⟩ := s.oldestChannel_spec hmax hold
      cases hk : requestSizeIndex (toInt (count * SECTOR_SIZE)) with
      | none => simp [submitRequest, hi, if_neg (not_le.mpr hlt), hk] at hs
      | some k =>
        obtain ⟨_, _, hacc, has⟩ := s.submitRequest_accepted totals time rw sector count
          ioRequestId hi hlt hk
        rw [hs] at hacc
        obtain ⟨-, rfl, rfl⟩ : (0 : ℤ) = 0 ∧ s' = _ ∧ totals' = _ := by simpa using hacc
        refine ⟨has.channels ▸ ih.channels, fun j hj hheld ↦ ?_⟩
        obtain ⟨hne, hj'⟩ := not_or.mp hheld
        have hji : j ≠ i := fun heq ↦ hne (by rw [hi, heq])
        rw [has.ioRequestId_other hji, has.completionTime_other hji]
        exact ih.unheld j (has.count ▸ hj) hj'

/-- Repeated calls, each with the time the one before returned, report every
channel that completes after the first start time once, in the order of
completion, and then nothing; they change no channel. -/
theorem drain_reports_each_once (h : Accepted held s)
    (hmax : ∀ i < s.count, s.completionTime i < LONG_MAX) (ht : 0 ≤ t) :
    (∃ times : List ℤ, times.Pairwise (· < ·) ∧
      (s.drain t (times.length + 1)).2 = times.map s.batchAt ++ [noResponse] ∧
      (times.flatMap s.channelsAt).Perm (s.channelsAfter t) ∧
      ∀ x ∈ times, s.channelsAt x ≠ [] ∧ ∀ i ∈ s.channelsAt x, held i) ∧
    (∀ i < s.count, ¬ held i → s.ioRequestId i = -1) ∧ s.channels ≤ MAX_EMULATOR_CHANNELS ∧
    ∀ t' n, (∀ r ∈ (s.drain t' n).2, (r.ioRequestIds.length : ℤ) ≤ s.channels) ∧
      SameChannels s (s.drain t' n).1 := by
  have htracked := h.tracked
  obtain ⟨times, hd⟩ := exists_drains s t hmax
  refine ⟨⟨times, hd.sorted, hd.responses, hd.once, fun x hx ↦ ⟨hd.busy x hx, fun i hi ↦ ?_⟩⟩,
    fun i hi hheld ↦ (htracked.unheld i hi hheld).1, htracked.channels.2,
    fun t' n ↦ ⟨s.drain_length htracked.channels.1 t' n, s.sameChannels_drain t' n⟩⟩
  obtain ⟨hi, heq⟩ := s.mem_channelsAt.mp hi
  by_contra hheld
  have hlater := hd.later x hx
  rw [← heq, (htracked.unheld i hi hheld).2] at hlater
  omega

/-- Reads of one sector, each with its time and its place; the channels they were put on. -/
def reads : List (ℤ × ℤ) → MySSDSim × List ℕ → Option (MySSDSim × List ℕ)
  | [], r => some r
  | (time, sector) :: l, r =>
    (r.1.submitRequest ⟨0, 0, 0⟩ time 0 sector 1 sector).bind fun x ↦
      if x.1 = 0 ∧ 0 < time ∧ time ≤ LONG_MAX then
        reads l (x.2.1, r.1.oldestChannel.2.toList ++ r.2)
      else none

theorem reads_accepted {l : List (ℤ × ℤ)} {r r' : MySSDSim × List ℕ} (h : Accepted (· ∈ r.2) r.1)
    (hs : reads l r = some r') : Accepted (· ∈ r'.2) r'.1 := by
  induction l generalizing r with
  | nil =>
    obtain rfl := Option.some.inj hs
    exact h
  | cons x l ih =>
    obtain ⟨⟨ret, s', totals'⟩, hsubmit, hs⟩ := Option.bind_eq_some_iff.mp hs
    obtain ⟨⟨hret, hpos, hmax⟩, hs⟩ := Option.ite_none_right_eq_some.mp hs
    obtain rfl : ret = 0 := hret
    have hheld : (fun i ↦ r.1.oldestChannel.2 = some i ∨ i ∈ r.2) =
        (· ∈ r.1.oldestChannel.2.toList ++ r.2) := by
      funext i
      rw [List.mem_append, Option.mem_toList]
    exact ih (hheld ▸ h.submit hpos hmax hsubmit) hs

/-- Two reads at one time, and a third one later, on a simulator of four channels. -/
def threeReads : Option (MySSDSim × List ℕ) :=
  (setup ⟨0, 0, 0, 0, 0, fun _ ↦ ⟨0, 0, 0, 0⟩⟩ 819200 4 1000).bind fun s ↦
    reads [(5, 100), (5, 300), (7, 500)] (s, [])

theorem threeReads_accepted {r : MySSDSim × List ℕ} (h : r ∈ threeReads) :
    Accepted (· ∈ r.2) r.1 := by
  obtain ⟨s, hsetup, hs⟩ := Option.bind_eq_some_iff.mp h
  refine reads_accepted (r := (s, [])) ?_ hs
  have hnone : (fun _ : ℕ ↦ False) = (· ∈ ([] : List ℕ)) := by
    funext i
    rw [List.mem_nil_iff]
  exact hnone ▸ .setup (by decide) (by decide) hsetup

/-- The two that complete at the same time come out together, and the channel that was never used
not at all. -/
theorem drain_reports_each_once_tie : ∃ (s : MySSDSim) (channels : List ℕ) (times : List ℤ),
    threeReads = some (s, channels) ∧ s.channelsAt 513005 = [0, 1] ∧
      times.Pairwise (· < ·) ∧ (times.flatMap s.channelsAt).Perm [0, 1, 2] ∧
      (s.drain 0 (times.length + 1)).2 = times.map s.batchAt ++ [noResponse] ∧
      s.ioRequestId 3 = -1 := by
  obtain ⟨⟨s, channels⟩, hs, hcount, hmax, htie, hafter, hunheld⟩ :
    ∃ r ∈ threeReads, r.1.count = 4 ∧
      (∀ i < 4, r.1.completionTime i < LONG_MAX) ∧ r.1.channelsAt 513005 = [0, 1] ∧
      r.1.channelsAfter 0 = [0, 1, 2] ∧ 3 ∉ r.2 := by decide +kernel
  obtain ⟨⟨times, hsorted, hresponses, honce, -⟩, hidle, -⟩ :=
    drain_reports_each_once (threeReads_accepted hs) (hcount ▸ hmax) le_rfl
  exact ⟨s, channels, times, hs, htie, hsorted, hafter ▸ honce, hresponses,
    hidle 3 (by rw [hcount]; decide) hunheld⟩

end Nctusde.UdpServer.MySSDSim

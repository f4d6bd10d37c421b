import Nctusde.Accesses
import Nctusde.UdpServer.SSDSim

namespace Nctusde.UdpServer.MySSDSim

open Accesses BlockLayer Library.Slots Wire

/-- The simulator since the first `setup` that found its records zeroed, with the requests it
accepted and the channels they were put on; later ones keep the records. -/
inductive Served : List (ℕ × Access) → MySSDSim → Prop
  | reset {s s' : MySSDSim} {size channels speedFactor : ℤ} :
      (∀ i, (s.ssdChannels i).requestRw = 0 ∧ (s.ssdChannels i).requestLastSector = 0) →
      s.setup size channels speedFactor = some s' → Served [] s'
  | resetAgain {log : List (ℕ × Access)} {s s' : MySSDSim} {size channels speedFactor : ℤ} :
      Served log s → s.setup size channels speedFactor = some s' → Served log s'
  | submit {log : List (ℕ × Access)} {s s' : MySSDSim} {totals totals' : Totals} {dir : DataDir}
      {time sector count ioRequestId : ℤ} : Served log s →
      s.submitRequest totals time dir.code sector count ioRequestId = some (0, s', totals') →
      Served (log ++ [(s.oldestChannel.2.getD 0, ⟨dir, sector, sector + count⟩)]) s'
  | responses {log : List (ℕ × Access)} {s : MySSDSim} (currentTime : ℤ) : Served log s →
      Served log (s.getNextResponses currentTime).1

def records (s : MySSDSim) (i : ℕ) : ℤ × ℤ :=
  ((s.ssdChannels i).requestRw, (s.ssdChannels i).requestLastSector)

variable {s s' : MySSDSim} {log : List (ℕ × Access)} {totals totals' : Totals} {dir : DataDir}
  {time sector count ioRequestId last : ℤ}

theorem isSequentialRequest_iff : s.isSequentialRequest dir.code sector = true ↔
    ∃ i < s.count, s.records i = (dir.code, sector) := by
  rw [isSequentialRequest, List.any_eq_true]
  simp only [List.mem_range, decide_eq_true_eq, records, Prod.mk.injEq]

theorem submitRequest_ok {rw : ℤ}
    (h : s.submitRequest totals time rw sector count ioRequestId = some (0, s', totals')) :
    ∃ k, requestSizeIndex (toInt (count * SECTOR_SIZE)) = some k ∧
      Assigns s s' (s.oldestChannel.2.getD 0) (s.assigned time rw sector count ioRequestId k) := by
  unfold submitRequest at h
  dsimp only at h
  split at h
  · cases h
  split at h
  · cases h
  rename_i k hk
  simp only [Option.some.injEq, Prod.mk.injEq] at h
  obtain ⟨-, rfl, -⟩ := h
  exact ⟨k, hk, rfl, rfl, rfl⟩

theorem setup_records {size channels speedFactor : ℤ}
    (h : s.setup size channels speedFactor = some s') (i : ℕ) : s'.records i = s.records i := by
  unfold setup at h
  split at h
  · obtain rfl := Option.some.inj h
    rfl
  split at h
  · cases h
  obtain rfl := Option.some.inj h
  unfold records
  dsimp only
  split <;> rfl

theorem Served.mirrors (h : Served log s) (n : ℕ) : Mirrors s.records recorded log n := by
  induction h with
  | reset hzero hsetup =>
    intro i _
    rw [setup_records hsetup]
    exact Prod.ext (hzero i).1 (hzero i).2
  | resetAgain _ hsetup ih => exact ih.congr fun i _ ↦ setup_records hsetup i
  | @submit _ s _ _ _ dir _ _ _ _ _ hok ih =>
    obtain ⟨k, -, hassigns⟩ := submitRequest_ok hok
    refine ih.assign ?_ fun j hj ↦ ?_
    · rw [records, hassigns.self]
      refine Prod.ext ?_ rfl
      cases dir <;> rfl
    · rw [records, records, hassigns.other hj]
  | responses currentTime _ ih => exact ih.congr fun _ _ ↦ rfl

theorem Served.charged (h : Served log s)
    (hok : s.submitRequest totals time dir.code sector count ioRequestId = some (0, s', totals')) :
    (∃ k, requestSizeIndex (toInt (count * SECTOR_SIZE)) = some k ∧
      s'.completionTime (s.oldestChannel.2.getD 0) = toLong (time +
        s.serviceTime (s.isSequentialRequest dir.code sector) dir.code k)) ∧
      ((s.isSequentialRequest dir.code sector = true ↔ Follows log ⟨dir, sector, last⟩) ↔
        (LikeUnused s.count log ⟨dir, sector, last⟩ → Follows log ⟨dir, sector, last⟩) ∧
          (Follows log ⟨dir, sector, last⟩ → FollowsOn s.count log ⟨dir, sector, last⟩ ∨
            LikeUnused s.count log ⟨dir, sector, last⟩)) := by
  obtain ⟨k, hk, hassigns⟩ := submitRequest_ok hok
  refine ⟨⟨k, hk, hassigns.completionTime_self⟩, right_iff ?_⟩
  rw [isSequentialRequest_iff]
  exact test_iff (a := ⟨dir, sector, last⟩) (h.mirrors s.count)

end Nctusde.UdpServer.MySSDSim

import Nctusde.UdpServer.SSDSim

namespace Nctusde.UdpServer

open Library.ForLoop Wire

structure IsSizeClass (nbytes : ℤ) (k : ℕ) : Prop where
  lt : k < requestSizeKb.length
  holds : nbytes ≤ requestSizeKb.getD k 0
  least : ∀ j < k, requestSizeKb.getD j 0 < nbytes

theorem isSizeClass_of_requestSizeIndex {nbytes : ℤ} {k : ℕ}
    (h : requestSizeIndex nbytes = some k) :
    IsSizeClass nbytes k := by
  obtain ⟨hlt, hk, hleast⟩ := List.findIdx?_eq_some_iff_getElem.mp h
  refine ⟨hlt, ?_, fun j hj ↦ ?_⟩
  · rw [List.getD_eq_getElem _ _ hlt]
    simpa using hk
  · rw [List.getD_eq_getElem _ _ (hj.trans hlt)]
    simpa using hleast j hj

theorem IsSizeClass.le {nbytes : ℤ} {k : ℕ} (h : IsSizeClass nbytes k) : nbytes ≤ 65536 := by
  have hall : ∀ k < requestSizeKb.length, requestSizeKb.getD k 0 ≤ 65536 := by decide
  exact h.holds.trans (hall k h.lt)

namespace MySSDSim

/-- What a submission may do with a request: refuse it and change nothing, or put
it on a channel at the rate of its size. -/
def Copes (s : MySSDSim) (totals : Totals) (time rw sector count ioRequestId : ℤ) :
    Option (ℤ × MySSDSim × Totals) → Prop
  | none => False
  | some (ret, s', totals') =>
    (ret < 0 ∧ s' = s ∧ totals' = totals) ∨
      (0 ≤ ret ∧ ∃ i < s.count, ∃ k, IsSizeClass (count * SECTOR_SIZE) k ∧
        Assigns s s' i (s.assigned time rw sector count ioRequestId k))

variable (s : MySSDSim) {time : ℤ}

theorem oldestChannel_ge_iff (ht : time ≤ LONG_MAX) :
    s.oldestChannel.1 ≥ time ↔ ∀ i < s.count, time ≤ s.completionTime i := by
  have hs := scanMin_spec (fun _ ↦ True) s.completionTime LONG_MAX s.count
  unfold oldestChannel
  rcases hr : scanMin (fun _ ↦ True) s.completionTime LONG_MAX s.count with ⟨k, _ | i⟩
  · rw [hr] at hs
    obtain ⟨rfl, hall⟩ := hs
    exact ⟨fun _ i hi ↦ ht.trans (hall i hi trivial), fun _ ↦ ht⟩
  · rw [hr] at hs
    obtain ⟨rfl, -, hi⟩ := hs
    exact ⟨fun h j hj ↦ h.trans (hi.least j hj trivial), fun h ↦ h i hi.lt⟩

/-- A request of more than 128 sectors that finds a free channel is either put on
it at the rate of some class its size was cut down to, or never answered. -/
theorem submitRequest_oversize {totals : Totals} {rw sector count ioRequestId : ℤ}
    (ht : time ≤ LONG_MAX) (hfree : ¬ ∀ i < s.count, time ≤ s.completionTime i)
    (hcount : 128 < count) :
    ¬ Copes s totals time rw sector count ioRequestId
      (s.submitRequest totals time rw sector count ioRequestId) := by
  obtain ⟨i, hi, -, hlt⟩ := s.oldestChannel_spec ht ((s.oldestChannel_ge_iff ht).not.mpr hfree)
  cases hk : requestSizeIndex (toInt (count * SECTOR_SIZE)) with
  | none =>
    simp only [submitRequest, hi, if_neg (not_le.mpr hlt), hk]
    exact id
  | some k =>
    obtain ⟨s', totals', hacc, -⟩ := s.submitRequest_accepted totals time rw sector count
      ioRequestId hi hlt hk
    rw [hacc]
    rintro (⟨hret, -⟩ | ⟨-, _, -, j, hj, -⟩)
    · omega
    · have hle := hj.le
      rw [SECTOR_SIZE] at hle
      omega

/-- A submission copes with a request exactly when the request has at most 128
sectors or every channel is taken. -/
theorem submitRequest_copes_iff (totals : Totals) (rw sector ioRequestId : ℤ) (count : UInt32)
    (ht : time ≤ LONG_MAX) :
    Copes s totals time rw sector count.toNat ioRequestId
        (s.submitRequest totals time rw sector count.toNat ioRequestId) ↔
      count.toNat ≤ 128 ∨ ∀ i < s.count, time ≤ s.completionTime i := by
  by_cases htaken : ∀ i < s.count, time ≤ s.completionTime i
  · rw [submitRequest_refused s ((s.oldestChannel_ge_iff ht).mpr htaken)]
    exact iff_of_true (.inl ⟨by decide, rfl, rfl⟩) (.inr htaken)
  by_cases hcount : count.toNat ≤ 128
  · refine iff_of_true ?_ (.inl hcount)
    obtain ⟨i, hi, hmin, hlt⟩ :=
      s.oldestChannel_spec ht ((s.oldestChannel_ge_iff ht).not.mpr htaken)
    have hbytes : toInt (count.toNat * SECTOR_SIZE) = count.toNat * SECTOR_SIZE := by
      rw [SECTOR_SIZE]
      exact toInt_of_fits (by omega) (by omega)
    obtain ⟨k, hk⟩ : ∃ k, requestSizeIndex (count.toNat * SECTOR_SIZE) = some k :=
      requestSizeIndex_isSome (by rw [SECTOR_SIZE]; omega)
    obtain ⟨s', totals', hacc, has⟩ := s.submitRequest_accepted totals time rw sector count.toNat
      ioRequestId hi hlt (hbytes ▸ hk)
    rw [hacc]
    exact .inr ⟨le_rfl, i, hmin.lt, k, isSizeClass_of_requestSizeIndex hk, has⟩
  · refine iff_of_false (s.submitRequest_oversize ht htaken (by omega)) ?_
    exact fun h ↦ h.elim hcount htaken

def oneIdle : MySSDSim := ⟨819200, 1, 1000, 0, 0, fun _ ↦ ⟨-1, 0, 0, 0⟩⟩

theorem submitRequest_copes_largest : Copes oneIdle ⟨0, 0, 0⟩ 1 0 0 128 124
    (oneIdle.submitRequest ⟨0, 0, 0⟩ 1 0 0 128 124) :=
  (submitRequest_copes_iff oneIdle ⟨0, 0, 0⟩ 0 0 124 128 (by decide)).mpr (.inl (by decide))

/-- 129 sectors have no class and leave the server in an endless loop; 2 ^ 23
sectors count as none and are served at the rate of one. -/
theorem submitRequest_oversize_examples :
    oneIdle.submitRequest ⟨0, 0, 0⟩ 1 0 0 129 124 = none ∧
      (oneIdle.submitRequest ⟨0, 0, 0⟩ 1 0 0 (2 ^ 23) 124).map (fun r ↦ r.2.1.completionTime 0) =
        (oneIdle.submitRequest ⟨0, 0, 0⟩ 1 0 0 1 124).map (fun r ↦ r.2.1.completionTime 0) ∧
      ¬ Copes oneIdle ⟨0, 0, 0⟩ 1 0 0 129 124 (oneIdle.submitRequest ⟨0, 0, 0⟩ 1 0 0 129 124) ∧
      ¬ Copes oneIdle ⟨0, 0, 0⟩ 1 0 0 (2 ^ 23) 124
        (oneIdle.submitRequest ⟨0, 0, 0⟩ 1 0 0 (2 ^ 23) 124) := by
  have hfree : ¬ ∀ i < oneIdle.count, 1 ≤ oneIdle.completionTime i := by decide
  have hhang : (oneIdle.submitRequest ⟨0, 0, 0⟩ 1 0 0 129 124).isNone = true := by decide +kernel
  refine ⟨Option.isNone_iff_eq_none.mp hhang, by decide +kernel, ?_, ?_⟩
  · exact oneIdle.submitRequest_oversize (by decide) hfree (by decide)
  · exact oneIdle.submitRequest_oversize (by decide) hfree (by decide)

end MySSDSim

end Nctusde.UdpServer

import Nctusde.EmulatorKernel.Exchanges
import Nctusde.Library.Table

namespace Nctusde.EmulatorKernel

open BlockLayer Library Library.Table Wire

namespace Emudisk

variable {d d' : Emudisk} {slot : ℕ} {requestId : UInt32} {entry : RequestIdToReq}
  {o : Option Request}

def held (d : Emudisk) : ℕ → Option (UInt32 × Option Request) :=
  guarded (fun i ↦ (d.requestIdToReqMapping i).requestId ≠ 0) fun i ↦
    ((d.requestIdToReqMapping i).requestId, (d.requestIdToReqMapping i).req)

def pending (d : Emudisk) : List (UInt32 × Option Request) := entries d.held d.count

theorem held_eq_some {i : ℕ} : d.held i = some (requestId, o) ↔ requestId ≠ 0 ∧
    (d.requestIdToReqMapping i).requestId = requestId ∧ (d.requestIdToReqMapping i).req = o := by
  rw [held, guarded_eq_some, Prod.mk.injEq]
  constructor
  · rintro ⟨h0, rfl, rfl⟩
    exact ⟨h0, rfl, rfl⟩
  · rintro ⟨h0, rfl, rfl⟩
    exact ⟨h0, rfl, rfl⟩

theorem held_eq_none {i : ℕ} : d.held i = none ↔ (d.requestIdToReqMapping i).requestId = 0 := by
  simp [held, guarded]

theorem held_withEntry_other {i : ℕ} (h : i ≠ slot) :
    (d.withEntry slot entry).held i = d.held i := by
  simp only [held, guarded, withEntry_other d entry h]

theorem pending_same (h : SameRequests d d') : d'.pending = d.pending := by
  rw [pending, pending, h.count]
  apply entries_congr
  intro i _
  simp only [held, guarded, (h.mapping i).1, (h.mapping i).2]

theorem findRequestId_some (h : d.findRequestId requestId = some slot) :
    slot < d.count ∧ (d.requestIdToReqMapping slot).requestId = requestId := by
  have hmem := List.mem_of_find?_eq_some h
  have hid := List.find?_some h
  exact ⟨List.mem_range.mp hmem, of_decide_eq_true hid⟩

theorem findRequestId_isSome (h : slot < d.count)
    (hid : (d.requestIdToReqMapping slot).requestId = requestId) :
    ∃ slot, d.findRequestId requestId = some slot := by
  apply Option.isSome_iff_exists.mp
  rw [findRequestId, List.find?_isSome]
  exact ⟨slot, List.mem_range.mpr h, decide_eq_true hid⟩

theorem exists_free_entry (h : d.pending.length < d.count) :
    ∃ slot, d.findRequestId 0 = some slot := by
  obtain ⟨i, hi, hnone⟩ := exists_free h
  exact findRequestId_isSome hi (held_eq_none.mp hnone)

theorem pending_put (hslot : d.findRequestId 0 = some slot) (hid : requestId ≠ 0) {req : Request}
    (hentry : entry.requestId = requestId) (hreq : entry.req = some req) :
    (d.withEntry slot entry).pending.Perm ((requestId, some req) :: d.pending) := by
  obtain ⟨hlt, h0⟩ := findRequestId_some hslot
  refine entries_insert hlt (held_eq_none.mpr h0) ?_ fun j _ hj ↦ held_withEntry_other hj
  rw [held_eq_some, withEntry_same]
  exact ⟨hid, hentry, hreq⟩

theorem findRequestId_of_mem (h : (requestId, o) ∈ d.pending) :
    ∃ slot, d.findRequestId requestId = some slot := by
  obtain ⟨i, hi, hheld⟩ := mem_entries.mp h
  exact findRequestId_isSome hi (held_eq_some.mp hheld).2.1

theorem pending_get (hslot : d.findRequestId requestId = some slot) (hid : requestId ≠ 0)
    (hentry : entry.requestId = 0) :
    d.pending.Perm ((requestId, (d.requestIdToReqMapping slot).req) ::
      (d.withEntry slot entry).pending) := by
  obtain ⟨hlt, hreq⟩ := findRequestId_some hslot
  refine entries_remove hlt (held_eq_some.mpr ⟨hid, hreq, rfl⟩) ?_
    fun j _ hj ↦ held_withEntry_other hj
  rw [held_eq_none, withEntry_same]
  exact hentry

end Emudisk

end Nctusde.EmulatorKernel

import Mathlib.Data.List.Basic
import Mathlib.Data.List.Perm.Basic

namespace Nctusde.Library.Channel

variable {α : Type}

def duplicateAt : ℕ → List α → List α
  | 0, x :: l => x :: x :: l
  | i + 1, x :: l => x :: duplicateAt i l
  | _, [] => []

def swapAt : ℕ → List α → List α
  | 0, x :: y :: l => y :: x :: l
  | i + 1, x :: l => x :: swapAt i l
  | _, l => l

inductive Fault
  | lose (i : ℕ)
  | duplicate (i : ℕ)
  | swap (i : ℕ)
  deriving DecidableEq, Repr

namespace Fault

def apply : Fault → List α → List α
  | .lose i, l => l.eraseIdx i
  | .duplicate i, l => duplicateAt i l
  | .swap i, l => swapAt i l

def KeepsOrder : Fault → Prop
  | .swap _ => False
  | _ => True

def losses : Fault → List α → ℕ
  | .lose i, l => if i < l.length then 1 else 0
  | .duplicate _, _ => 0
  | .swap _, _ => 0

instance : DecidablePred KeepsOrder := fun f ↦ by
  cases f <;> unfold KeepsOrder <;> infer_instance

end Fault

theorem mem_duplicateAt {x : α} {i : ℕ} {l : List α} (h : x ∈ duplicateAt i l) : x ∈ l := by
  induction l generalizing i with
  | nil => cases i <;> exact h
  | cons y l ih =>
    cases i with
    | zero => simpa [duplicateAt] using h
    | succ i =>
      rcases List.mem_cons.mp h with rfl | h
      · exact List.mem_cons_self
      · exact List.mem_cons_of_mem _ (ih h)

theorem mem_swapAt {x : α} {i : ℕ} {l : List α} (h : x ∈ swapAt i l) : x ∈ l := by
  induction l generalizing i with
  | nil => cases i <;> exact h
  | cons y l ih =>
    cases i with
    | zero =>
      cases l with
      | nil => exact h
      | cons z l =>
        simp only [swapAt, List.mem_cons] at h ⊢
        tauto
    | succ i =>
      rcases List.mem_cons.mp h with rfl | h
      · exact List.mem_cons_self
      · exact List.mem_cons_of_mem _ (ih h)

/-- A channel makes nothing up. -/
theorem Fault.mem {x : α} (f : Fault) {l : List α} (h : x ∈ f.apply l) : x ∈ l := by
  cases f with
  | lose i => exact List.mem_of_mem_eraseIdx h
  | duplicate i => exact mem_duplicateAt h
  | swap i => exact mem_swapAt h

theorem pairwise_duplicateAt {R : α → α → Prop} {i : ℕ} {l : List α} (hR : ∀ x ∈ l, R x x)
    (h : l.Pairwise R) : (duplicateAt i l).Pairwise R := by
  induction l generalizing i with
  | nil => cases i <;> exact h
  | cons y l ih =>
    obtain ⟨hy, hl⟩ := List.pairwise_cons.mp h
    cases i with
    | zero =>
      refine List.pairwise_cons.mpr ⟨fun x hx ↦ ?_, h⟩
      rcases List.mem_cons.mp hx with rfl | hx
      · exact hR _ List.mem_cons_self
      · exact hy x hx
    | succ i =>
      exact List.pairwise_cons.mpr ⟨fun x hx ↦ hy x (mem_duplicateAt hx),
        ih (fun x hx ↦ hR x (List.mem_cons_of_mem _ hx)) hl⟩

theorem Fault.pairwise {R : α → α → Prop} {f : Fault} (hf : f.KeepsOrder) {l : List α}
    (hR : ∀ x ∈ l, R x x) (h : l.Pairwise R) : (f.apply l).Pairwise R := by
  cases f with
  | lose i => exact h.sublist (List.eraseIdx_sublist _ _)
  | duplicate i => exact pairwise_duplicateAt hR h
  | swap i => exact hf.elim

theorem sublist_duplicateAt (i : ℕ) (l : List α) : l.Sublist (duplicateAt i l) := by
  induction l generalizing i with
  | nil => exact List.nil_sublist _
  | cons x l ih =>
    cases i with
    | zero => exact List.sublist_cons_self _ _
    | succ i => exact (ih i).cons_cons x

theorem swapAt_perm (i : ℕ) (l : List α) : (swapAt i l).Perm l := by
  induction l generalizing i with
  | nil => cases i <;> exact .refl _
  | cons x l ih =>
    cases i with
    | zero =>
      cases l with
      | nil => exact .refl _
      | cons y l => exact .swap x y l
    | succ i => exact (ih i).cons x

theorem Fault.countP_le (f : Fault) (p : α → Bool) (l : List α) :
    l.countP p ≤ (f.apply l).countP p + f.losses l := by
  cases f with
  | lose i =>
    rw [apply, losses]
    split
    · rename_i hi
      rw [← (List.getElem_cons_eraseIdx_perm hi).countP_eq p, List.countP_cons]
      split <;> omega
    · rename_i hi
      rw [List.eraseIdx_of_length_le (Nat.le_of_not_lt hi)]
      exact Nat.le_add_right _ _
  | duplicate i => exact Nat.le_trans (sublist_duplicateAt i l).countP_le (Nat.le_add_right _ _)
  | swap i => exact Nat.le_of_eq ((swapAt_perm i l).countP_eq p).symm

end Nctusde.Library.Channel

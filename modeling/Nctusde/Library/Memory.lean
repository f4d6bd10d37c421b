import Mathlib.Algebra.Order.Ring.Nat
import Mathlib.Data.List.Basic
import Mathlib.Data.Nat.Basic
import Mathlib.Logic.Function.Basic

namespace Nctusde.Library.Memory

variable {α : Type}

def slice (mem : ℕ → α) (off len : ℕ) : List α := (List.range len).map fun i ↦ mem (off + i)

def blit (mem : ℕ → α) (off : ℕ) (cells : List α) : ℕ → α :=
  fun a ↦ if off ≤ a then (cells[a - off]?).getD (mem a) else mem a

@[simp] theorem slice_length (mem : ℕ → α) (off len : ℕ) : (slice mem off len).length = len := by
  simp [slice]

@[simp] theorem slice_zero (mem : ℕ → α) (off : ℕ) : slice mem off 0 = [] := rfl

theorem slice_getElem? (mem : ℕ → α) {off len i : ℕ} (h : i < len) :
    (slice mem off len)[i]? = some (mem (off + i)) := by
  simp [slice, h]

theorem slice_congr {mem mem' : ℕ → α} {off len : ℕ}
    (h : ∀ i < len, mem (off + i) = mem' (off + i)) : slice mem off len = slice mem' off len := by
  apply List.map_congr_left
  intro i hi
  exact h i (List.mem_range.mp hi)

theorem slice_add (mem : ℕ → α) (off len len' : ℕ) :
    slice mem off (len + len') = slice mem off len ++ slice mem (off + len) len' := by
  simp [slice, List.range_add, Nat.add_assoc]

@[simp] theorem blit_nil (mem : ℕ → α) (off : ℕ) : blit mem off [] = mem := by
  funext a
  simp [blit]

theorem blit_in (mem : ℕ → α) (off : ℕ) (cells : List α) {i : ℕ} (h : i < cells.length) :
    blit mem off cells (off + i) = cells[i] := by
  simp [blit, h]

theorem blit_out (mem : ℕ → α) (off : ℕ) (cells : List α) {a : ℕ}
    (h : a < off ∨ off + cells.length ≤ a) : blit mem off cells a = mem a := by
  unfold blit
  split
  · rw [List.getElem?_eq_none (by omega)]
    rfl
  · rfl

@[simp] theorem slice_blit_same (mem : ℕ → α) (off : ℕ) (cells : List α) :
    slice (blit mem off cells) off cells.length = cells := by
  apply List.ext_getElem
  · simp
  · intro i hi hi'
    simp only [slice, List.getElem_map, List.getElem_range]
    exact blit_in mem off cells hi'

theorem slice_blit_disjoint (mem : ℕ → α) {off len off' : ℕ} {cells : List α}
    (h : off + len ≤ off' ∨ off' + cells.length ≤ off) :
    slice (blit mem off' cells) off len = slice mem off len := by
  apply slice_congr
  intro i hi
  exact blit_out mem off' cells (by omega)

theorem slice_blit_within (mem : ℕ → α) {off off' len : ℕ} {cells : List α} (h : off ≤ off')
    (h' : off' + len ≤ off + cells.length) :
    slice (blit mem off cells) off' len = (cells.drop (off' - off)).take len := by
  apply List.ext_getElem
  · simp only [slice_length, List.length_take, List.length_drop]
    omega
  · intro i hi _
    simp only [slice_length] at hi
    obtain ⟨k, rfl⟩ := Nat.exists_eq_add_of_le h
    simp only [slice, List.getElem_map, List.getElem_range, List.getElem_take, List.getElem_drop]
    rw [Nat.add_assoc, blit_in mem off cells (by omega)]
    congr 1
    omega

theorem update_eq_blit (mem : ℕ → α) (off : ℕ) (cell : α) :
    Function.update mem off cell = blit mem off [cell] := by
  funext a
  by_cases h : a = off
  · subst h
    rw [Function.update_self]
    exact (blit_in mem a [cell] Nat.one_pos).symm
  · rw [Function.update_of_ne h, blit_out mem off [cell] (by rw [List.length_singleton]; omega)]

theorem blit_append (mem : ℕ → α) (off : ℕ) (xs ys : List α) :
    blit (blit mem off xs) (off + xs.length) ys = blit mem off (xs ++ ys) := by
  funext a
  by_cases h₁ : a < off + xs.length
  · rw [blit_out _ _ _ (.inl h₁)]
    by_cases h₀ : off ≤ a
    · obtain ⟨i, rfl⟩ := Nat.exists_eq_add_of_le h₀
      have hi : i < xs.length := by omega
      rw [blit_in _ _ _ hi, blit_in _ _ _ (by simp; omega), List.getElem_append_left hi]
    · rw [blit_out _ _ _ (by omega), blit_out _ _ _ (by omega)]
  · by_cases h₂ : a < off + xs.length + ys.length
    · obtain ⟨i, rfl⟩ := Nat.exists_eq_add_of_le (not_lt.mp h₁)
      have hi : i < ys.length := by omega
      rw [blit_in _ _ _ hi, Nat.add_assoc, blit_in _ _ _ (by simp; omega),
        List.getElem_append_right (by omega)]
      simp
    · rw [blit_out _ _ _ (by omega), blit_out _ _ _ (by omega),
        blit_out _ _ _ (by simp only [List.length_append]; omega)]

end Nctusde.Library.Memory

namespace Nctusde.Library.Blocks

open Memory

variable {α : Type} (base size : ℕ)

/-- The memory that blocks of `size` cells make one after the other, each of them
lying at address `base` of a memory of its own. -/
def flat (blocks : ℕ → ℕ → α) (p : ℕ) : α := blocks (p / size) (base + p % size)

variable {base size} {blocks : ℕ → ℕ → α} {p n : ℕ}

theorem div_eq_of_within (hs : 0 < size) (h : p % size + n ≤ size) {i : ℕ} (hi : i < n) :
    (p + i) / size = p / size ∧ (p + i) % size = p % size + i := by
  have hp : p + i = p % size + i + size * (p / size) := by
    have := Nat.mod_add_div p size
    omega
  have hlt : p % size + i < size := by omega
  constructor
  · rw [hp, Nat.add_mul_div_left _ _ hs, Nat.div_eq_of_lt hlt, Nat.zero_add]
  · rw [hp, Nat.add_mul_mod_self_left, Nat.mod_eq_of_lt hlt]

theorem slice_flat (hs : 0 < size) (h : p % size + n ≤ size) :
    slice (flat base size blocks) p n = slice (blocks (p / size)) (base + p % size) n := by
  apply List.map_congr_left
  intro i hi
  obtain ⟨hd, hm⟩ := div_eq_of_within hs h (List.mem_range.mp hi)
  rw [flat, hd, hm, Nat.add_assoc]

theorem flat_update (hs : 0 < size) {cells : List α} (h : p % size + cells.length ≤ size) :
    flat base size (Function.update blocks (p / size)
      (blit (blocks (p / size)) (base + p % size) cells)) =
      blit (flat base size blocks) p cells := by
  funext a
  by_cases hin : p ≤ a ∧ a < p + cells.length
  · obtain ⟨i, rfl⟩ := Nat.exists_eq_add_of_le hin.1
    have hi : i < cells.length := by omega
    obtain ⟨hd, hm⟩ := div_eq_of_within hs h hi
    rw [flat, hd, hm, Function.update_self, ← Nat.add_assoc, blit_in _ _ _ hi, blit_in _ _ _ hi]
  · rw [blit_out _ _ _ (by omega)]
    by_cases hd : a / size = p / size
    · have ha := Nat.mod_add_div a size
      have hp := Nat.mod_add_div p size
      rw [hd] at ha
      rw [flat, hd, Function.update_self, blit_out _ _ _ (by omega), flat, hd]
    · rw [flat, Function.update_of_ne hd, flat]

end Nctusde.Library.Blocks

namespace Nctusde.Library.Layout

structure Member (T : Type) where
  name : String
  type : T
  count : ℕ

structure Abi (T : Type) where
  sizeOf : T → ℕ
  alignOf : T → ℕ

variable {T U : Type}

def alignUp (off align : ℕ) : ℕ := (off + (align - 1)) / align * align

def offsets (abi : Abi T) (off : ℕ) : List (Member T) → List (String × ℕ)
  | [] => []
  | m :: ms => (m.name, alignUp off (abi.alignOf m.type)) ::
      offsets abi (alignUp off (abi.alignOf m.type) + abi.sizeOf m.type * m.count) ms

def extent (abi : Abi T) (off : ℕ) : List (Member T) → ℕ
  | [] => off
  | m :: ms => extent abi (alignUp off (abi.alignOf m.type) + abi.sizeOf m.type * m.count) ms

def sizeof (abi : Abi T) (ms : List (Member T)) : ℕ :=
  alignUp (extent abi 0 ms) ((ms.map fun m ↦ abi.alignOf m.type).foldr max 1)

/-- Members that two declarations, read on two machines, give the same place. -/
structure SamePlace (abi : Abi T) (abi' : Abi U) (m : Member T) (m' : Member U) : Prop where
  name : m.name = m'.name
  count : m.count = m'.count
  sizeOf : abi.sizeOf m.type = abi'.sizeOf m'.type
  alignOf : abi.alignOf m.type = abi'.alignOf m'.type

variable {abi : Abi T} {abi' : Abi U} {ms : List (Member T)} {ms' : List (Member U)}

theorem offsets_eq (h : List.Forall₂ (SamePlace abi abi') ms ms') (off : ℕ) :
    offsets abi off ms = offsets abi' off ms' ∧ extent abi off ms = extent abi' off ms' := by
  induction h generalizing off with
  | nil => exact ⟨rfl, rfl⟩
  | cons hm _ ih =>
    simp only [offsets, extent, hm.name, hm.count, hm.sizeOf, hm.alignOf]
    exact ⟨congrArg _ (ih _).1, (ih _).2⟩

/-- Declarations whose members agree one by one have one layout. -/
theorem layout_eq (h : List.Forall₂ (SamePlace abi abi') ms ms') :
    offsets abi 0 ms = offsets abi' 0 ms' ∧ sizeof abi ms = sizeof abi' ms' := by
  have haligns : (ms.map fun m ↦ abi.alignOf m.type) = ms'.map fun m ↦ abi'.alignOf m.type := by
    induction h with
    | nil => rfl
    | cons hm _ ih => rw [List.map_cons, List.map_cons, hm.alignOf, ih]
  refine ⟨(offsets_eq h 0).1, ?_⟩
  rw [sizeof, sizeof, (offsets_eq h 0).2, haligns]

end Nctusde.Library.Layout

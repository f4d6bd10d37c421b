import Mathlib.Data.List.Induction
import Mathlib.Data.List.Nodup
import Mathlib.Data.List.Perm.Basic
import Mathlib.Logic.Function.Basic

namespace Nctusde.Library.Table

open List

variable {α β : Type}

def entries (g : ℕ → Option α) (n : ℕ) : List α := (List.range n).filterMap g

@[simp] theorem entries_zero (g : ℕ → Option α) : entries g 0 = [] := rfl

theorem entries_succ (g : ℕ → Option α) (n : ℕ) :
    entries g (n + 1) = entries g n ++ (g n).toList := by
  rw [entries, List.range_succ, List.filterMap_append]
  cases h : g n <;> simp [entries, h]

theorem mem_entries {g : ℕ → Option α} {n : ℕ} {x : α} :
    x ∈ entries g n ↔ ∃ i < n, g i = some x := by
  simp [entries]

theorem entries_eq_nil {g : ℕ → Option α} {n : ℕ} (h : ∀ i < n, g i = none) : entries g n = [] := by
  refine List.eq_nil_iff_forall_not_mem.mpr fun x hx ↦ ?_
  obtain ⟨i, hi, hg⟩ := mem_entries.mp hx
  rw [h i hi] at hg
  cases hg

theorem entries_congr {g g' : ℕ → Option α} {n : ℕ} (h : ∀ i < n, g i = g' i) :
    entries g n = entries g' n := by
  apply List.filterMap_congr
  intro i hi
  exact h i (List.mem_range.mp hi)

theorem map_entries (f : α → β) (g : ℕ → Option α) (n : ℕ) :
    (entries g n).map f = entries (fun i ↦ (g i).map f) n := by
  simp [entries, List.map_filterMap]

theorem entries_length_le (g : ℕ → Option α) (n : ℕ) : (entries g n).length ≤ n := by
  simpa [entries] using List.length_filterMap_le g (List.range n)

theorem entries_insert {g g' : ℕ → Option α} {n i : ℕ} {x : α} (hi : i < n)
    (hg : g i = none) (hg' : g' i = some x) (h : ∀ j < n, j ≠ i → g' j = g j) :
    entries g' n ~ x :: entries g n := by
  induction n with
  | zero => omega
  | succ n ih =>
    rw [entries_succ, entries_succ]
    rcases Nat.lt_succ_iff_lt_or_eq.mp hi with hlt | rfl
    · have hn : g' n = g n := h n (Nat.lt_succ_self n) (by omega)
      rw [hn]
      exact (ih hlt (fun j hj ↦ h j (by omega))).append_right _
    · have hlow : entries g' i = entries g i :=
        entries_congr fun j hj ↦ h j (by omega) (by omega)
      rw [hg, hg', hlow]
      rw [Option.toList_some, Option.toList_none, List.append_nil]
      exact perm_append_singleton x (entries g i)

theorem entries_remove {g g' : ℕ → Option α} {n i : ℕ} {x : α} (hi : i < n)
    (hg : g i = some x) (hg' : g' i = none) (h : ∀ j < n, j ≠ i → g' j = g j) :
    entries g n ~ x :: entries g' n :=
  entries_insert hi hg' hg fun j hj hne ↦ (h j hj hne).symm

theorem entries_sublist {g g' : ℕ → Option α} {n : ℕ} (h : ∀ i < n, g i = none ∨ g' i = g i) :
    List.Sublist (entries g n) (entries g' n) := by
  induction n with
  | zero => exact List.Sublist.refl _
  | succ n ih =>
    rw [entries_succ, entries_succ]
    refine (ih fun i hi ↦ h i (by omega)).append ?_
    rcases h n (Nat.lt_succ_self n) with hn | hn
    · rw [hn]
      exact List.nil_sublist _
    · rw [hn]

theorem exists_free {g : ℕ → Option α} {n : ℕ} (h : (entries g n).length < n) :
    ∃ i < n, g i = none := by
  induction n with
  | zero => omega
  | succ n ih =>
    rw [entries_succ, List.length_append] at h
    cases hn : g n with
    | none => exact ⟨n, Nat.lt_succ_self n, hn⟩
    | some x =>
      simp only [hn, Option.toList_some, List.length_singleton] at h
      obtain ⟨i, hi, hgi⟩ := ih (by omega)
      exact ⟨i, Nat.lt_succ_of_lt hi, hgi⟩

def guarded (c : ℕ → Prop) [DecidablePred c] (f : ℕ → α) (i : ℕ) : Option α :=
  if c i then some (f i) else none

theorem guarded_eq_some {c : ℕ → Prop} [DecidablePred c] {f : ℕ → α} {i : ℕ} {x : α} :
    guarded c f i = some x ↔ c i ∧ f i = x := by
  simp [guarded]

theorem entries_split {c c₁ c₂ : ℕ → Prop} [DecidablePred c] [DecidablePred c₁]
    [DecidablePred c₂] (f : ℕ → α) {n : ℕ} (h : ∀ i < n, c i ↔ c₁ i ∨ c₂ i)
    (hd : ∀ i < n, c₁ i → ¬ c₂ i) :
    entries (guarded c f) n ~ entries (guarded c₁ f) n ++ entries (guarded c₂ f) n := by
  induction n with
  | zero => simp
  | succ n ih =>
    have ih := ih (fun i hi ↦ h i (by omega)) (fun i hi ↦ hd i (by omega))
    simp only [entries_succ]
    have hn := h n (Nat.lt_succ_self n)
    have hdn := hd n (Nat.lt_succ_self n)
    by_cases h₁ : c₁ n
    · have hc : c n := hn.mpr (.inl h₁)
      simp only [guarded, if_pos hc, if_pos h₁, if_neg (hdn h₁), Option.toList_some,
        Option.toList_none, List.append_nil, List.append_assoc]
      refine (ih.append_right _).trans ?_
      rw [List.append_assoc]
      exact perm_append_comm.append_left _
    · by_cases h₂ : c₂ n
      · have hc : c n := hn.mpr (.inr h₂)
        simp only [guarded, if_pos hc, if_neg h₁, if_pos h₂, Option.toList_some,
          Option.toList_none, List.append_nil]
        rw [← List.append_assoc]
        exact ih.append_right _
      · have hc : ¬ c n := fun hc ↦ (hn.mp hc).elim h₁ h₂
        simpa only [guarded, if_neg hc, if_neg h₁, if_neg h₂, Option.toList_none,
          List.append_nil] using ih

end Nctusde.Library.Table

namespace Nctusde.Library.Slots

variable {α β : Type} {log : List (ℕ × α)} {i j n : ℕ} {a b : α}

/-- What a slot was last given, over a history of assignments to slots. -/
def last (log : List (ℕ × α)) : ℕ → Option α :=
  log.foldl (fun f p ↦ Function.update f p.1 (some p.2)) fun _ ↦ none

theorem last_concat (log : List (ℕ × α)) (i : ℕ) (a : α) :
    last (log ++ [(i, a)]) = Function.update (last log) i (some a) := by
  rw [last, List.foldl_append]
  rfl

@[simp] theorem last_concat_self : last (log ++ [(i, a)]) i = some a := by
  rw [last_concat, Function.update_self]

theorem last_concat_other (h : j ≠ i) : last (log ++ [(i, a)]) j = last log j := by
  rw [last_concat, Function.update_of_ne h]

/-- A slot holds nothing it was not given. -/
theorem mem_of_last (h : last log i = some a) : (i, a) ∈ log := by
  induction log using List.reverseRecOn with
  | nil => cases h
  | append_singleton log p ih =>
    obtain ⟨j, b⟩ := p
    by_cases hij : i = j
    · subst hij
      rw [last_concat_self] at h
      obtain rfl := Option.some.inj h
      exact List.mem_append_right _ (List.mem_singleton_self _)
    · rw [last_concat_other hij] at h
      exact List.mem_append_left _ (ih h)

/-- The first `n` rows of a table say of each slot what `f` makes of its last value. -/
def Mirrors (table : ℕ → β) (f : Option α → β) (log : List (ℕ × α)) (n : ℕ) : Prop :=
  ∀ i < n, table i = f (last log i)

namespace Mirrors

variable {table table' : ℕ → β} {f : Option α → β}

theorem congr (h : Mirrors table f log n) (hsame : ∀ i < n, table' i = table i) :
    Mirrors table' f log n := fun i hi ↦ (hsame i hi).trans (h i hi)

theorem assign (h : Mirrors table f log n) (hself : table' i = f (some a))
    (hother : ∀ j ≠ i, table' j = table j) : Mirrors table' f (log ++ [(i, a)]) n := by
  intro j hj
  by_cases hji : j = i
  · rw [hji, last_concat_self, hself]
  · rw [last_concat_other hji, hother j hji, h j hj]

end Mirrors

end Nctusde.Library.Slots

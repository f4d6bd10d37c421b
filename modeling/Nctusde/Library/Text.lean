import Mathlib.Data.Nat.Digits.Defs
import Mathlib.Tactic.IntervalCases

namespace Nctusde.Library

abbrev Text := List Char

namespace Text

section Lines

def lines : Text → List Text
  | [] => []
  | c :: text =>
    if c = '\n' then ['\n'] :: lines text
    else match lines text with
      | [] => [[c]]
      | line :: rest => (c :: line) :: rest

theorem lines_append {line : Text} (h : '\n' ∉ line) (text : Text) :
    lines (line ++ '\n' :: text) = (line ++ ['\n']) :: lines text := by
  induction line with
  | nil => rfl
  | cons c line ih =>
    obtain ⟨hc, hline⟩ := List.ne_and_not_mem_of_not_mem_cons h
    rw [List.cons_append, lines, if_neg (Ne.symm hc), ih hline]
    rfl

theorem lines_flatten {rows : List Text} (h : ∀ row ∈ rows, '\n' ∉ row) :
    lines (rows.flatMap (· ++ ['\n'])) = rows.map (· ++ ['\n']) := by
  induction rows with
  | nil => rfl
  | cons row rows ih =>
    obtain ⟨hrow, hrows⟩ := List.forall_mem_cons.mp h
    rw [List.flatMap_cons, List.append_assoc, List.singleton_append, lines_append hrow, ih hrows]
    rfl

end Lines

section Search

def beforeLast (key : Text) : Text → Option Text
  | [] => none
  | c :: text =>
    match beforeLast key text with
    | some before => some (c :: before)
    | none => if key <+: c :: text then some [] else none

variable {k : Char} {key text : Text}

theorem beforeLast_append (h : k ∉ text) (rest : Text) :
    beforeLast (k :: key) (text ++ rest) = (beforeLast (k :: key) rest).map (text ++ ·) := by
  induction text with
  | nil => exact (Option.map_id_apply ..).symm
  | cons c text ih =>
    obtain ⟨hc, htext⟩ := List.ne_and_not_mem_of_not_mem_cons h
    rw [List.cons_append, beforeLast, ih htext]
    cases beforeLast (k :: key) rest with
    | some before => rfl
    | none =>
      have hkey : ¬ (k :: key) <+: c :: (text ++ rest) := fun hpre ↦
        hc (List.cons_prefix_cons.mp hpre).1
      exact if_neg hkey

theorem beforeLast_none (h : k ∉ text) : beforeLast (k :: key) text = none := by
  rw [← text.append_nil, beforeLast_append h]
  rfl

theorem beforeLast_key (h : k ∉ key ++ text) :
    beforeLast (k :: key) ((k :: key) ++ text) = some [] := by
  rw [List.cons_append, beforeLast, beforeLast_none h]
  exact if_pos (List.cons_prefix_cons.mpr ⟨rfl, List.prefix_append _ _⟩)

end Search

section Hex

def hexDigit (c : Char) : Option ℕ :=
  if '0' ≤ c ∧ c ≤ '9' then some (c.toNat - '0'.toNat)
  else if 'a' ≤ c ∧ c ≤ 'f' then some (c.toNat - 'a'.toNat + 10)
  else if 'A' ≤ c ∧ c ≤ 'F' then some (c.toNat - 'A'.toNat + 10)
  else none

def ofHex (text : Text) : Option ℕ :=
  if text = [] then none
  else text.foldlM (fun n c ↦ (hexDigit c).map (16 * n + ·)) 0

def hex : ℕ → ℕ → Text
  | 0, _ => []
  | width + 1, n => hex width (n / 16) ++ [(n % 16).digitChar]

theorem hexDigit_digitChar {d : ℕ} (h : d < 16) : hexDigit d.digitChar = some d := by
  interval_cases d <;> rfl

@[simp] theorem length_hex (width n : ℕ) : (hex width n).length = width := by
  induction width generalizing n with
  | zero => rfl
  | succ width ih => rw [hex, List.length_append, ih, List.length_singleton]

theorem not_mem_hex {c : Char} (hc : hexDigit c = none) (width n : ℕ) : c ∉ hex width n := by
  induction width generalizing n with
  | zero => exact List.not_mem_nil
  | succ width ih =>
    rw [hex, List.mem_append, List.mem_singleton]
    rintro (h | rfl)
    · exact ih _ h
    · rw [hexDigit_digitChar (n.mod_lt (by decide))] at hc
      cases hc

theorem foldlM_hex (width n : ℕ) :
    (hex width n).foldlM (fun n c ↦ (hexDigit c).map (16 * n + ·)) 0 = some (n % 16 ^ width) := by
  induction width generalizing n with
  | zero => rw [pow_zero, Nat.mod_one]; rfl
  | succ width ih =>
    rw [hex, List.foldlM_append, ih]
    have hdigit := hexDigit_digitChar (n.mod_lt (show 16 > 0 by decide))
    simp only [Option.bind_eq_bind, Option.bind_some, List.foldlM_cons, List.foldlM_nil, hdigit,
      Option.map_some]
    rw [pow_succ', Nat.mod_mul, add_comm]
    rfl

theorem ofHex_hex {width n : ℕ} (hwidth : width ≠ 0) (hn : n < 16 ^ width) :
    ofHex (hex width n) = some n := by
  have hne : hex width n ≠ [] := by
    rw [← List.length_pos_iff, length_hex]
    exact Nat.pos_of_ne_zero hwidth
  rw [ofHex, if_neg hne, foldlM_hex, Nat.mod_eq_of_lt hn]

end Hex

end Text

end Nctusde.Library

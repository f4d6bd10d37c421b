import Mathlib.Data.Nat.ModEq
import Mathlib.Tactic.Ring

namespace Nctusde.Library.Checksum

/-- The sum of the 16-bit words of a packet, each read by `f`; an odd byte at the end is the
first of a word. -/
def words (f : UInt8 → UInt8 → ℕ) : List UInt8 → ℕ
  | [] => 0
  | [a] => f a 0
  | a :: b :: rest => f a b + words f rest

def sumBE : List UInt8 → ℕ := words fun a b ↦ a.toNat * 256 + b.toNat

def sumLE : List UInt8 → ℕ := words fun a b ↦ a.toNat + b.toNat * 256

/-- The addition of words with the carry added at the low end. -/
def addCarry (x y : ℕ) : ℕ := if x + y ≤ 65535 then x + y else x + y - 65535

/-- The sum a receiver forms. A packet with a checksum in it is right when all bits are ones. -/
def onesSum : List UInt8 → ℕ
  | [] => 0
  | [a] => a.toNat * 256
  | a :: b :: rest => addCarry (a.toNat * 256 + b.toNat) (onesSum rest)

theorem words_append (f : UInt8 → UInt8 → ℕ) {xs : List UInt8} (ys : List UInt8) {n : ℕ}
    (h : xs.length = 2 * n) : words f (xs ++ ys) = words f xs + words f ys := by
  induction n generalizing xs with
  | zero =>
    obtain rfl := List.length_eq_zero_iff.mp h
    exact (Nat.zero_add _).symm
  | succ n ih =>
    match xs, h with
    | a :: b :: xs, h =>
      have hxs := @ih xs (by simp only [List.length_cons] at h; omega)
      rw [List.cons_append, List.cons_append, words, words, hxs, Nat.add_assoc]

theorem sumBE_modEq (xs : List UInt8) : sumBE xs ≡ 256 * sumLE xs [MOD 65535] := by
  induction xs using words.induct with
  | case1 => rfl
  | case2 a =>
    simp only [sumBE, sumLE, words]
    rw [show UInt8.toNat 0 = 0 from rfl, Nat.zero_mul, Nat.add_zero, Nat.add_zero, Nat.mul_comm]
  | case3 a b rest ih =>
    have hword : a.toNat * 256 + b.toNat ≡ 256 * (a.toNat + b.toNat * 256) [MOD 65535] := by
      rw [Nat.ModEq, show 256 * (a.toNat + b.toNat * 256) =
        a.toNat * 256 + b.toNat + 65535 * b.toNat by ring, Nat.add_mul_mod_self_left]
    have hsum := hword.add ih
    rw [← Nat.mul_add] at hsum
    exact hsum

theorem sumBE_of_sumLE {xs : List UInt8} (h : sumLE xs ≡ 0 [MOD 65535]) :
    sumBE xs ≡ 0 [MOD 65535] := (sumBE_modEq xs).trans (h.mul_left 256)

theorem addCarry_le {x y : ℕ} (hx : x ≤ 65535) (hy : y ≤ 65535) : addCarry x y ≤ 65535 := by
  unfold addCarry
  split
  · assumption
  · omega

theorem addCarry_le_add (x y : ℕ) : addCarry x y ≤ x + y := by
  unfold addCarry
  split
  · exact Nat.le_refl _
  · exact Nat.sub_le _ _

theorem addCarry_modEq (x y : ℕ) : addCarry x y ≡ x + y [MOD 65535] := by
  unfold addCarry
  split
  · rfl
  · refine ((Nat.modEq_iff_dvd' (Nat.sub_le _ _)).mpr ⟨1, ?_⟩)
    omega

theorem addCarry_eq_zero {x y : ℕ} (h : addCarry x y = 0) : x = 0 ∧ y = 0 := by
  unfold addCarry at h
  split at h
  · omega
  · omega

theorem sumBE_singleton (a : UInt8) : sumBE [a] = a.toNat * 256 := Nat.add_zero _

theorem sumBE_cons (a b : UInt8) (rest : List UInt8) :
    sumBE (a :: b :: rest) = a.toNat * 256 + b.toNat + sumBE rest := rfl

theorem word_le (a b : UInt8) : a.toNat * 256 + b.toNat ≤ 65535 := by
  have ha := a.toNat_lt
  have hb := b.toNat_lt
  omega

theorem onesSum_le (xs : List UInt8) : onesSum xs ≤ 65535 := by
  induction xs using onesSum.induct with
  | case1 => exact Nat.zero_le _
  | case2 a =>
    have ha := a.toNat_lt
    rw [onesSum]
    omega
  | case3 a b rest ih =>
    rw [onesSum]
    exact addCarry_le (word_le a b) ih

theorem onesSum_modEq (xs : List UInt8) : onesSum xs ≡ sumBE xs [MOD 65535] := by
  induction xs using onesSum.induct with
  | case1 => exact Nat.ModEq.refl 0
  | case2 a => rw [onesSum, sumBE_singleton]
  | case3 a b rest ih =>
    rw [onesSum, sumBE_cons]
    exact (addCarry_modEq _ _).trans (ih.add_left _)

theorem onesSum_le_sumBE (xs : List UInt8) : onesSum xs ≤ sumBE xs := by
  induction xs using onesSum.induct with
  | case1 => exact Nat.le_refl 0
  | case2 a => rw [onesSum, sumBE_singleton]
  | case3 a b rest ih =>
    rw [onesSum, sumBE_cons]
    exact (addCarry_le_add _ _).trans (Nat.add_le_add_left ih _)

theorem onesSum_eq_zero {xs : List UInt8} (h : onesSum xs = 0) : sumBE xs = 0 := by
  induction xs using onesSum.induct with
  | case1 => rfl
  | case2 a =>
    rw [sumBE_singleton]
    exact h
  | case3 a b rest ih =>
    rw [onesSum] at h
    obtain ⟨hword, hrest⟩ := addCarry_eq_zero h
    rw [sumBE_cons, hword, ih hrest]

/-- What a receiver accepts: a packet that is not all zero, with a sum divisible by 65535. -/
theorem onesSum_eq_iff {xs : List UInt8} :
    onesSum xs = 65535 ↔ sumBE xs ≠ 0 ∧ sumBE xs ≡ 0 [MOD 65535] := by
  constructor
  · intro h
    have hle := onesSum_le_sumBE xs
    refine ⟨by omega, (onesSum_modEq xs).symm.trans ?_⟩
    rw [h, Nat.modEq_zero_iff_dvd]
  · rintro ⟨hne, hmod⟩
    have hdvd := (Nat.modEq_zero_iff_dvd).mp ((onesSum_modEq xs).trans hmod)
    have hle := onesSum_le xs
    have hpos : onesSum xs ≠ 0 := fun hzero ↦ hne (onesSum_eq_zero hzero)
    obtain ⟨k, hk⟩ := hdvd
    omega

end Nctusde.Library.Checksum

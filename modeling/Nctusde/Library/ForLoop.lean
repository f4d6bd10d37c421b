import Mathlib.Order.Lattice
import Mathlib.Data.List.Basic
import Mathlib.Data.Nat.Basic

namespace Nctusde.Library.ForLoop

variable {α σ : Type}

/-- The rule of a counted loop: what holds before it and is kept by each
iteration holds after it. -/
theorem foldl_range_rule (P : ℕ → σ → Prop) {body : σ → ℕ → σ} {init : σ} {n : ℕ}
    (h0 : P 0 init) (hs : ∀ i s, i < n → P i s → P (i + 1) (body s i)) :
    P n ((List.range n).foldl body init) := by
  induction n with
  | zero => simpa using h0
  | succ n ih =>
    rw [List.range_succ, List.foldl_append]
    exact hs n _ (Nat.lt_succ_self n) (ih (fun i s hi ↦ hs i s (Nat.lt_succ_of_lt hi)))

variable [LinearOrder α]

/-- Among the indices below `n` that satisfy `p`, index `i` carries the least
key, and no earlier one carries the same key. -/
structure FirstMin (p : ℕ → Prop) (key : ℕ → α) (n i : ℕ) : Prop where
  lt : i < n
  holds : p i
  least : ∀ j < n, p j → key i ≤ key j
  first : ∀ j < i, p j → key i < key j

theorem FirstMin.unique {p : ℕ → Prop} {key : ℕ → α} {n i j : ℕ}
    (hi : FirstMin p key n i) (hj : FirstMin p key n j) : i = j := by
  rcases Nat.lt_trichotomy i j with h | h | h
  · exact absurd (hi.least j hj.lt hj.holds) (not_le_of_gt (hj.first i h hi.holds))
  · exact h
  · exact absurd (hj.least i hi.lt hi.holds) (not_le_of_gt (hi.first j h hj.holds))

theorem FirstMin.congr {p : ℕ → Prop} {f g : ℕ → α} {n i : ℕ} (hi : FirstMin p f n i)
    (h : ∀ j < n, f j = g j) : FirstMin p g n i where
  lt := hi.lt
  holds := hi.holds
  least j hj hpj := by
    rw [← h i hi.lt, ← h j hj]
    exact hi.least j hj hpj
  first j hj hpj := by
    rw [← h i hi.lt, ← h j (hj.trans hi.lt)]
    exact hi.first j hj hpj

/-- The minimum over a wider set is the minimum over a narrower one when
everything outside the narrower set comes later, by key and then by index. -/
theorem FirstMin.widen {p q : ℕ → Prop} {key : ℕ → α} {n i : ℕ}
    (hi : FirstMin p key n i) (hq : q i)
    (h : ∀ j < n, q j → ¬ p j → key i < key j ∨ key i = key j ∧ i < j) : FirstMin q key n i where
  lt := hi.lt
  holds := hq
  least j hj hqj := by
    by_cases hpj : p j
    · exact hi.least j hj hpj
    · rcases h j hj hqj hpj with hlt | heq
      · exact hlt.le
      · exact heq.1.le
  first j hj hqj := by
    by_cases hpj : p j
    · exact hi.first j hj hpj
    · rcases h j (hj.trans hi.lt) hqj hpj with hlt | heq
      · exact hlt
      · exact absurd hj (Nat.lt_asymm heq.2)

/-- A loop that keeps the smallest key seen so far, started from a sentinel
above every key of interest, with the index where it was seen. -/
def scanMin (p : ℕ → Prop) [DecidablePred p] (key : ℕ → α) (top : α) (n : ℕ) : α × Option ℕ :=
  (List.range n).foldl (fun best i ↦ if p i ∧ key i < best.1 then (key i, some i) else best)
    (top, none)

theorem scanMin_congr {p q : ℕ → Prop} [DecidablePred p] [DecidablePred q] {f g : ℕ → α} {top : α}
    {n : ℕ} (hp : ∀ i < n, p i ↔ q i) (hk : ∀ i < n, f i = g i) :
    scanMin p f top n = scanMin q g top n := by
  apply List.foldl_ext
  intro best i hi
  have hi := List.mem_range.mp hi
  simp only [hp i hi, hk i hi]

theorem scanMin_spec (p : ℕ → Prop) [DecidablePred p] (key : ℕ → α) (top : α) (n : ℕ) :
    match scanMin p key top n with
    | (k, none) => k = top ∧ ∀ j < n, p j → top ≤ key j
    | (k, some i) => k = key i ∧ key i < top ∧ FirstMin p key n i := by
  unfold scanMin
  apply foldl_range_rule (fun n (s : α × Option ℕ) ↦ match s with
    | (k, none) => k = top ∧ ∀ j < n, p j → top ≤ key j
    | (k, some i) => k = key i ∧ key i < top ∧ FirstMin p key n i)
  · simp
  · rintro i ⟨k, best⟩ - h
    by_cases hb : p i ∧ key i < k
    · simp only [if_pos hb]
      cases best with
      | none =>
        obtain ⟨rfl, hall⟩ := h
        refine ⟨trivial, hb.2, Nat.lt_succ_self i, hb.1, fun j hj hpj ↦ ?_, fun j hj hpj ↦ ?_⟩
        · rcases Nat.lt_succ_iff_lt_or_eq.mp hj with hj | rfl
          · exact (hb.2.trans_le (hall j hj hpj)).le
          · exact le_rfl
        · exact hb.2.trans_le (hall j hj hpj)
      | some m =>
        obtain ⟨rfl, htop, hm⟩ := h
        refine ⟨trivial, hb.2.trans htop, Nat.lt_succ_self i, hb.1, fun j hj hpj ↦ ?_,
          fun j hj hpj ↦ hb.2.trans_le (hm.least j hj hpj)⟩
        rcases Nat.lt_succ_iff_lt_or_eq.mp hj with hj | rfl
        · exact (hb.2.trans_le (hm.least j hj hpj)).le
        · exact le_rfl
    · simp only [if_neg hb]
      have hi (hp : p i) : k ≤ key i := le_of_not_gt fun hlt ↦ hb ⟨hp, hlt⟩
      cases best with
      | none =>
        obtain ⟨rfl, hall⟩ := h
        refine ⟨rfl, fun j hj hpj ↦ ?_⟩
        rcases Nat.lt_succ_iff_lt_or_eq.mp hj with hj | rfl
        · exact hall j hj hpj
        · exact hi hpj
      | some m =>
        obtain ⟨rfl, htop, hm⟩ := h
        refine ⟨rfl, htop, hm.lt.trans (Nat.lt_succ_self i), hm.holds, fun j hj hpj ↦ ?_, hm.first⟩
        rcases Nat.lt_succ_iff_lt_or_eq.mp hj with hj | rfl
        · exact hm.least j hj hpj
        · exact hi hpj

def firstMin (p : ℕ → Prop) [DecidablePred p] (key : ℕ → α) (n : ℕ) : Option ℕ :=
  (List.range n).foldl (fun best i ↦
    if p i then
      match best with
      | none => some i
      | some b => if key i < key b then some i else some b
    else best) none

theorem firstMin_spec (p : ℕ → Prop) [DecidablePred p] (key : ℕ → α) (n : ℕ) :
    match firstMin p key n with
    | none => ∀ j < n, ¬ p j
    | some i => FirstMin p key n i := by
  unfold firstMin
  apply foldl_range_rule (fun n (s : Option ℕ) ↦ match s with
    | none => ∀ j < n, ¬ p j
    | some i => FirstMin p key n i)
  · simp
  · intro i best _ h
    have hlast {q : ℕ → Prop} (hq : ∀ j < i, q j) (hi : q i) : ∀ j < i + 1, q j := by
      intro j hj
      rcases Nat.lt_succ_iff_lt_or_eq.mp hj with hj | rfl
      · exact hq j hj
      · exact hi
    by_cases hp : p i
    · simp only [if_pos hp]
      cases best with
      | none =>
        exact ⟨Nat.lt_succ_self i, hp, hlast (fun j hj hpj ↦ absurd hpj (h j hj)) (fun _ ↦ le_rfl),
          fun j hj hpj ↦ absurd hpj (h j hj)⟩
      | some b =>
        by_cases hb : key i < key b
        · simp only [if_pos hb]
          exact ⟨Nat.lt_succ_self i, hp,
            hlast (fun j hj hpj ↦ (hb.trans_le (h.least j hj hpj)).le) (fun _ ↦ le_rfl),
            fun j hj hpj ↦ hb.trans_le (h.least j hj hpj)⟩
        · simp only [if_neg hb]
          exact ⟨h.lt.trans (Nat.lt_succ_self i), h.holds,
            hlast h.least (fun _ ↦ le_of_not_gt hb), h.first⟩
    · simp only [if_neg hp]
      cases best with
      | none => exact hlast h hp
      | some b =>
        exact ⟨h.lt.trans (Nat.lt_succ_self i), h.holds, hlast h.least (fun hpi ↦ absurd hpi hp),
          h.first⟩

end Nctusde.Library.ForLoop

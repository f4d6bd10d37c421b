import Nctusde.BlockLayer
import Nctusde.Library.Table

namespace Nctusde.Accesses

open BlockLayer Library.Slots

/-- An accepted request as the test for sequential access sees it: it ended at `last`,
the first sector it did not cover. -/
structure Access where
  dir : DataDir
  first : ℤ
  last : ℤ
  deriving DecidableEq, Repr

/-- Some request, still the last one of its channel, has the direction of `a` and
ended where `a` starts. -/
def Follows (log : List (ℕ × Access)) (a : Access) : Prop :=
  ∃ i b, last log i = some b ∧ b.dir = a.dir ∧ b.last = a.first

def FollowsOn (n : ℕ) (log : List (ℕ × Access)) (a : Access) : Prop :=
  ∃ i < n, ∃ b, last log i = some b ∧ b.dir = a.dir ∧ b.last = a.first

/-- A read of sector 0 while one of the `n` channels has not served any request. -/
def LikeUnused (n : ℕ) (log : List (ℕ × Access)) (a : Access) : Prop :=
  a.dir = .read ∧ a.first = 0 ∧ ∃ i < n, last log i = none

def recorded : Option Access → ℤ × ℤ
  | none => (0, 0)
  | some a => (a.dir.code, a.last)

variable {n : ℕ} {log : List (ℕ × Access)} {a : Access} {table : ℕ → ℤ × ℤ}

theorem code_injective {dir dir' : DataDir} (h : dir.code = dir'.code) : dir = dir' := by
  cases dir <;> cases dir' <;> first | rfl | cases h

theorem recorded_eq_iff {o : Option Access} : recorded o = (a.dir.code, a.first) ↔
    (∃ b, o = some b ∧ b.dir = a.dir ∧ b.last = a.first) ∨
      o = none ∧ a.dir = .read ∧ a.first = 0 := by
  rw [Prod.ext_iff]
  cases o with
  | none =>
    have hread : DataDir.code .read = 0 := rfl
    constructor
    · rintro ⟨hdir, hfirst⟩
      exact .inr ⟨rfl, (code_injective (hread.trans hdir)).symm, hfirst.symm⟩
    · rintro (⟨b, hb, -⟩ | ⟨-, hdir, hfirst⟩)
      · cases hb
      · rw [hdir, hfirst]
        exact ⟨rfl, rfl⟩
  | some b =>
    constructor
    · rintro ⟨hdir, hlast⟩
      exact .inl ⟨b, rfl, code_injective hdir, hlast⟩
    · rintro (⟨b', hb, hdir, hlast⟩ | ⟨hb, -⟩)
      · obtain rfl := Option.some.inj hb
        exact ⟨congrArg DataDir.code hdir, hlast⟩
      · cases hb

theorem test_iff (h : Mirrors table recorded log n) :
    (∃ i < n, table i = (a.dir.code, a.first)) ↔ FollowsOn n log a ∨ LikeUnused n log a := by
  constructor
  · rintro ⟨i, hi, heq⟩
    rw [h i hi] at heq
    rcases recorded_eq_iff.mp heq with ⟨b, hb⟩ | ⟨hnone, hdir, hfirst⟩
    · exact .inl ⟨i, hi, b, hb⟩
    · exact .inr ⟨hdir, hfirst, i, hi, hnone⟩
  · rintro (⟨i, hi, b, hb⟩ | ⟨hdir, hfirst, i, hi, hnone⟩)
    · refine ⟨i, hi, (h i hi).trans (recorded_eq_iff.mpr (.inl ⟨b, hb⟩))⟩
    · refine ⟨i, hi, (h i hi).trans (recorded_eq_iff.mpr (.inr ⟨hnone, hdir, hfirst⟩))⟩

theorem FollowsOn.follows (h : FollowsOn n log a) : Follows log a := by
  obtain ⟨i, -, b, hb⟩ := h
  exact ⟨i, b, hb⟩

/-- The test is right unless an unused channel misleads it, or the request that is
followed is not on a channel it looks at. -/
theorem right_iff {sequential : Prop} (h : sequential ↔ FollowsOn n log a ∨ LikeUnused n log a) :
    (sequential ↔ Follows log a) ↔
      (LikeUnused n log a → Follows log a) ∧
      (Follows log a → FollowsOn n log a ∨ LikeUnused n log a) := by
  rw [h]
  constructor
  · intro hright
    exact ⟨fun hunused ↦ hright.mp (.inr hunused), hright.mpr⟩
  · rintro ⟨hunused, hfollows⟩
    exact ⟨fun hor ↦ hor.elim FollowsOn.follows hunused, hfollows⟩

end Nctusde.Accesses

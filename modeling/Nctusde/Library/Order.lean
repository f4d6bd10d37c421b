import Mathlib.Data.List.MinMax
import Mathlib.Data.List.Nodup
import Mathlib.Data.List.Perm.Subperm
import Mathlib.Order.Defs.LinearOrder
import Mathlib.Order.Lattice

namespace Nctusde.Library

variable {α : Type} [LinearOrder α]

structure IsNext (as : List α) (a b : α) : Prop where
  mem : b ∈ as
  lt : a < b
  le : ∀ c ∈ as, a < c → b ≤ c

def IsTop (as : List α) (a : α) : Prop := ∀ c ∈ as, c ≤ a

def nextHigher (as : List α) (a : α) : Option α := (as.filter (a < ·)).min?

variable {as : List α} {a b : α}

theorem nextHigher_eq_some : nextHigher as a = some b ↔ IsNext as a b := by
  rw [nextHigher, List.min?_eq_some_iff]
  constructor
  · rintro ⟨hb, hle⟩
    obtain ⟨hmem, hlt⟩ := List.mem_filter.mp hb
    exact ⟨hmem, of_decide_eq_true hlt, fun c hc hac ↦
      hle c (List.mem_filter.mpr ⟨hc, decide_eq_true hac⟩)⟩
  · intro h
    refine ⟨List.mem_filter.mpr ⟨h.mem, decide_eq_true h.lt⟩, fun c hc ↦ ?_⟩
    obtain ⟨hmem, hlt⟩ := List.mem_filter.mp hc
    exact h.le c hmem (of_decide_eq_true hlt)

theorem nextHigher_eq_none : nextHigher as a = none ↔ IsTop as a := by
  rw [nextHigher, List.min?_eq_none_iff, List.filter_eq_nil_iff]
  exact forall₂_congr fun c _ ↦ by rw [decide_eq_true_eq, not_lt]

end Nctusde.Library

namespace Nctusde.Library.Occupancy

/-- A job keeps its machine from its start to its finish, both included. -/
structure Job (T : Type) where
  machine : ℕ
  start : T
  finish : T

variable {T : Type} [LinearOrder T] {jobs jobs' : List (Job T)} {j : Job T} {n : ℕ}

def Job.Covers (j : Job T) (t : T) : Prop := j.start ≤ t ∧ t ≤ j.finish

instance (j : Job T) (t : T) : Decidable (j.Covers t) := inferInstanceAs (Decidable (_ ∧ _))

/-- No machine takes a job before it has finished those it took earlier. -/
def Exclusive (jobs : List (Job T)) : Prop :=
  jobs.Pairwise fun j j' ↦ j.machine = j'.machine → j.finish < j'.start

def Idle (jobs : List (Job T)) (machine : ℕ) (t : T) : Prop :=
  ∀ j ∈ jobs, j.machine = machine → j.finish < t

/-- Whenever the first machine has finished a job, the second one finishes one then or later. -/
def IdleLonger (jobs : List (Job T)) (machine machine' : ℕ) : Prop :=
  ∀ j ∈ jobs, j.machine = machine → ∃ j' ∈ jobs, j'.machine = machine' ∧ j.finish ≤ j'.finish

theorem exclusive_nil : Exclusive ([] : List (Job T)) := List.Pairwise.nil

theorem Exclusive.concat (h : Exclusive jobs)
    (hj : Idle jobs j.machine j.start) : Exclusive (jobs ++ [j]) := by
  refine List.pairwise_append.mpr ⟨h, List.pairwise_singleton _ _, fun j' hj' k hk ↦ ?_⟩
  obtain rfl := List.mem_singleton.mp hk
  exact hj j' hj'

/-- The jobs that are under way at one time are on different machines. -/
theorem Exclusive.nodup (h : Exclusive jobs) (t : T) :
    ((jobs.filter fun j ↦ j.Covers t).map Job.machine).Nodup := by
  refine List.pairwise_map.mpr
    ((List.Pairwise.filter _ h).imp_of_mem fun {j j'} hj hj' hlt heq ↦ ?_)
  have hcovers : j.Covers t := of_decide_eq_true (List.mem_filter.mp hj).2
  have hcovers' : j'.Covers t := of_decide_eq_true (List.mem_filter.mp hj').2
  exact absurd (hcovers'.1.trans hcovers.2) (hlt heq).not_ge

/-- At most as many jobs as there are machines are under way at one time. -/
theorem Exclusive.length_le (h : Exclusive jobs) (hn : ∀ j ∈ jobs, j.machine < n) (t : T) :
    (jobs.filter fun j ↦ j.Covers t).length ≤ n := by
  have hsub : (jobs.filter fun j ↦ j.Covers t).map Job.machine ⊆ List.range n := by
    intro i hi
    obtain ⟨j, hj, rfl⟩ := List.mem_map.mp hi
    exact List.mem_range.mpr (hn j (List.mem_filter.mp hj).1)
  have hle := (List.subperm_of_subset (h.nodup t) hsub).length_le
  rwa [List.length_map, List.length_range] at hle

end Nctusde.Library.Occupancy

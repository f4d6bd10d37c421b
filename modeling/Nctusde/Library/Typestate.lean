import Mathlib.Data.List.Basic

namespace Nctusde.Library.Typestate

variable {E L σ : Type}

/-- Where the events of a run lead, if each of them is allowed where it happens. -/
def after (effect : σ → E → Option σ) (s : σ) (es : List E) : Option σ := es.foldlM effect s

variable {effect : σ → E → Option σ} {s : σ} {es es' : List E}

theorem after_append :
    after effect s (es ++ es') = (after effect s es).bind fun s' ↦ after effect s' es' :=
  List.foldlM_append

/-- The control flow of a function: each edge with the events on it. -/
structure FlowGraph (E L : Type) where
  entry : L
  exit : L
  edge : L → List E → L → Prop

namespace FlowGraph

variable {g : FlowGraph E L} {l l' l'' : L}

inductive Path (g : FlowGraph E L) : L → List E → L → Prop
  | nil (l : L) : Path g l [] l
  | cons {l l' l'' : L} {es es' : List E} : g.edge l es l' → Path g l' es' l'' →
      Path g l (es ++ es') l''

theorem Path.one (h : g.edge l es l') : g.Path l es l' := by
  have hpath := Path.cons h (.nil l')
  rwa [List.append_nil] at hpath

theorem Path.trans (h : g.Path l es l') (h' : g.Path l' es' l'') : g.Path l (es ++ es') l'' := by
  induction h with
  | nil l => exact h'
  | cons hedge _ ih =>
    rw [List.append_assoc]
    exact .cons hedge (ih h')

/-- The state at each label, right on every edge as long as its events satisfy `P`; an event that
does not satisfy it is not allowed on its edge. -/
structure Annotates (g : FlowGraph E L) (effect : σ → E → Option σ) (held : L → σ) (P : E → Prop) :
    Prop where
  keeps : ∀ l es l', g.edge l es l' → (∀ e ∈ es, P e) →
    after effect (held l) es = some (held l')
  refuses : ∀ l es l', g.edge l es l' → ¬ (∀ e ∈ es, P e) → after effect (held l) es = none

variable {held : L → σ} {P : E → Prop}

theorem Annotates.path (h : g.Annotates effect held P) (hpath : g.Path l es l')
    (hP : ∀ e ∈ es, P e) : after effect (held l) es = some (held l') := by
  induction hpath with
  | nil l => rfl
  | cons hedge _ ih =>
    obtain ⟨hfirst, hrest⟩ := List.forall_mem_append.mp hP
    rw [after_append, h.keeps _ _ _ hedge hfirst]
    exact ih hrest

theorem Annotates.path_refused (h : g.Annotates effect held P) (hpath : g.Path l es l')
    (hP : ¬ ∀ e ∈ es, P e) : after effect (held l) es = none := by
  induction hpath with
  | nil l => exact absurd (fun e he ↦ absurd he List.not_mem_nil) hP
  | @cons l l' l'' es es' hedge _ ih =>
    rw [after_append]
    by_cases hfirst : ∀ e ∈ es, P e
    · rw [h.keeps _ _ _ hedge hfirst]
      exact ih fun hrest ↦ hP (List.forall_mem_append.mpr ⟨hfirst, hrest⟩)
    · rw [h.refuses _ _ _ hedge hfirst]
      rfl

theorem Annotates.path_iff (h : g.Annotates effect held P) (hpath : g.Path l es l') :
    after effect (held l) es = some (held l') ↔ ∀ e ∈ es, P e := by
  refine ⟨fun hsome ↦ of_not_not fun hP ↦ ?_, h.path hpath⟩
  rw [h.path_refused hpath hP] at hsome
  cases hsome

end FlowGraph

end Nctusde.Library.Typestate

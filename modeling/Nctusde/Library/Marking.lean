import Nctusde.Library.Simulation

namespace Nctusde.Library

/-- The answers of calls, and those of marks, which there are none of. -/
def MarkedAns {Op : Type} (Ans : Op → Type) (Mark : Type) : Op ⊕ Mark → Type
  | .inl o => Ans o
  | .inr _ => Unit

/-- A world with a second part that marks act on; a call only lets it pass. -/
def Handler.marked {V C Op Mark : Type} {Ans : Op → Type} (G : Handler V Op Ans)
    (passes : C → C → Prop) (step : C → Mark → C → Prop) :
    Handler (V × C) (Op ⊕ Mark) (MarkedAns Ans Mark) where
  admits
    | w, .inl o => G.admits w.1 o
    | _, .inr _ => True
  answers
    | w, .inl o, a, w' => G.answers w.1 o a w'.1 ∧ passes w.2 w'.2
    | w, .inr m, _, w' => w'.1 = w.1 ∧ step w.2 m w'.2

def Contract.marks {C Op Mark : Type} {Ans : Op → Type} (passes : C → C → Prop)
    (step : C → Mark → C → Prop) (requires : C → Op ⊕ Mark → Prop) :
    Contract C (Op ⊕ Mark) (MarkedAns Ans Mark) where
  admits _ _ := True
  requires := requires
  ensures
    | c, .inl _, _, c' => passes c c'
    | c, .inr m, _, c' => step c m c'

namespace Program

variable {Op Mark : Type} {Ans : Op → Type} {ε α β σ V C : Type}

def embed : Program Op Ans ε α → Program (Op ⊕ Mark) (MarkedAns Ans Mark) ε α
  | .pure a => .pure a
  | .fail e => .fail e
  | .call o k => .call (.inl o) fun a ↦ (k a).embed

def mark (m : Mark) : Program (Op ⊕ Mark) (MarkedAns Ans Mark) ε Unit :=
  .call (.inr m) fun _ ↦ .pure ()

def erase : Program (Op ⊕ Mark) (MarkedAns Ans Mark) ε α → Program Op Ans ε α
  | .pure a => .pure a
  | .fail e => .fail e
  | .call (.inl o) k => .call o fun a ↦ (k a).erase
  | .call (.inr _) k => (k ()).erase

@[simp] theorem erase_embed (p : Program Op Ans ε α) :
    (p.embed : Program (Op ⊕ Mark) (MarkedAns Ans Mark) ε α).erase = p := by
  induction p with
  | pure a => rfl
  | fail e => rfl
  | call o k ih => exact congrArg (Program.call o) (funext ih)

@[simp] theorem erase_bind (p : Program (Op ⊕ Mark) (MarkedAns Ans Mark) ε α)
    (f : α → Program (Op ⊕ Mark) (MarkedAns Ans Mark) ε β) :
    (p.bind f).erase = p.erase.bind fun a ↦ (f a).erase := by
  induction p with
  | pure a => rfl
  | fail e => rfl
  | call o k ih =>
    cases o with
    | inl o => exact congrArg (Program.call o) (funext ih)
    | inr m => exact ih ()

@[simp] theorem pure_bind (a : α) (f : α → Program Op Ans ε β) :
    (Program.pure a).bind f = f a := rfl

@[simp] theorem erase_mark (m : Mark) :
    (mark m : Program (Op ⊕ Mark) (MarkedAns Ans Mark) ε Unit).erase = .pure () :=
  rfl

variable {G : Handler V Op Ans} {passes : C → C → Prop} {step : C → Mark → C → Prop}
  {requires : C → Op ⊕ Mark → Prop} {E : ε → Prop}

theorem keeps_marks (G : Handler V Op Ans) :
    Keeps (G.marked passes step) (.marks passes step requires) fun v c ↦ v.2 = c where
  admits _ _ _ _ _ := trivial
  ensures := by
    rintro v _ o a v' rfl _ _ hans
    cases o with
    | inl o => exact ⟨v'.2, hans.2, rfl⟩
    | inr m => exact ⟨v'.2, hans.2, rfl⟩

theorem wp_embed {p : Program Op Ans ε α} {Q : α → C → Prop} {c : C} :
    (p.embed : Program (Op ⊕ Mark) (MarkedAns Ans Mark) ε α).wp
      (.marks passes step requires) E Q c ↔
      p.wp ⟨fun _ _ ↦ True, fun c o ↦ requires c (.inl o), fun c _ _ c' ↦ passes c c'⟩ E Q c := by
  induction p generalizing c with
  | pure a => rfl
  | fail e => rfl
  | call o k ih =>
    refine forall_congr' fun _ ↦ and_congr_right fun _ ↦ ?_
    exact forall_congr' fun a ↦ forall_congr' fun c' ↦ forall_congr' fun _ ↦ ih a

/-- While calls cannot change the second part, code without marks leaves it alone. -/
theorem wp_embed_still {p : Program Op Ans ε α} {Q : α → C → Prop} {c : C}
    (hstill : ∀ c', passes c c' → c' = c) (hreq : ∀ o, requires c (.inl o)) (hE : ∀ e, E e)
    (h : ∀ a, Q a c) :
    (p.embed : Program (Op ⊕ Mark) (MarkedAns Ans Mark) ε α).wp
      (.marks passes step requires) E Q c := by
  induction p with
  | pure a => exact h a
  | fail e => exact hE e
  | call o k ih =>
    refine fun _ ↦ ⟨hreq o, fun a c' hc ↦ ?_⟩
    obtain rfl := hstill c' hc
    exact ih a

theorem Runs.erase {p : Program (Op ⊕ Mark) (MarkedAns Ans Mark) ε α}
    {r : Except ε α} {w w' : V × C}
    (h : p.Runs (G.marked passes step) w r w') : p.erase.Runs G w.1 r w'.1 := by
  induction p generalizing w with
  | pure a => exact ⟨h.1, congrArg Prod.fst h.2⟩
  | fail e => exact ⟨h.1, congrArg Prod.fst h.2⟩
  | call o k ih =>
    obtain ⟨hadm, a, w₁, hans, hrun⟩ := h
    cases o with
    | inl o => exact ⟨hadm, a, w₁.1, hans.1, ih a hrun⟩
    | inr m =>
      have hrest := ih a hrun
      rw [hans.1] at hrest
      exact hrest

end Program

namespace Turns

variable {Op Mark : Type} {Ans : Op → Type} {ε σ V C : Type} {G : Handler V Op Ans}
  {passes : C → C → Prop} {step : C → Mark → C → Prop} {T : Turns Op Ans ε σ V}
  {T' : Turns (Op ⊕ Mark) (MarkedAns Ans Mark) ε σ (V × C)} {s : σ} {w : V × C}

theorem Reachable.erase (hstart : ∀ s w, T'.start s w → T.start s w.1)
    (henters : ∀ s p, T'.enters s p → T.enters s p.erase)
    (hdrifts : ∀ w w', T'.drifts w w' → T.drifts w.1 w'.1 ∨ w'.1 = w.1)
    (h : T'.Reachable (G.marked passes step) s w) : T.Reachable G s w.1 := by
  induction h with
  | start h0 => exact .start (hstart _ _ h0)
  | turn _ hent hrun ih => exact ih.turn (henters _ _ hent) hrun.erase
  | drift _ hd ih =>
    rcases hdrifts _ _ hd with hd | heq
    · exact ih.drift hd
    · exact heq ▸ ih

end Turns

end Nctusde.Library

import Mathlib.Data.List.Basic

namespace Nctusde.Library

/-- Code that reaches the world around it only through calls, and that may
give up with an error. -/
inductive Program (Op : Type) (Ans : Op → Type) (ε α : Type) : Type
  | pure : α → Program Op Ans ε α
  | fail : ε → Program Op Ans ε α
  | call : (o : Op) → (Ans o → Program Op Ans ε α) → Program Op Ans ε α

/-- A world that answers calls. A run is considered only while every call it
makes is admitted. -/
structure Handler (W Op : Type) (Ans : Op → Type) where
  admits : W → Op → Prop
  answers : (w : W) → (o : Op) → Ans o → W → Prop

/-- What a caller owes at each admitted call, and what it is owed. -/
structure Contract (W Op : Type) (Ans : Op → Type) where
  admits : W → Op → Prop
  requires : W → Op → Prop
  ensures : (w : W) → (o : Op) → Ans o → W → Prop

def Handler.contract {W Op : Type} {Ans : Op → Type} (G : Handler W Op Ans) :
    Contract W Op Ans where
  admits := G.admits
  requires _ _ := True
  ensures := G.answers

namespace Program

variable {Op : Type} {Ans : Op → Type} {ε α β σ V W : Type}

def bind : Program Op Ans ε α → (α → Program Op Ans ε β) → Program Op Ans ε β
  | .pure a, f => f a
  | .fail e, _ => .fail e
  | .call o k, f => .call o fun a ↦ (k a).bind f

instance : Monad (Program Op Ans ε) where
  pure := .pure
  bind := bind

@[simp] theorem pure_eq (a : α) : (Pure.pure a : Program Op Ans ε α) = .pure a := rfl

@[simp] theorem bind_eq (p : Program Op Ans ε α) (f : α → Program Op Ans ε β) :
    p >>= f = p.bind f := rfl

def Runs (G : Handler W Op Ans) : Program Op Ans ε α → W → Except ε α → W → Prop
  | .pure a, w, r, w' => r = .ok a ∧ w' = w
  | .fail e, w, r, w' => r = .error e ∧ w' = w
  | .call o k, w, r, w' => G.admits w o ∧ ∃ a v, G.answers w o a v ∧ (k a).Runs G v r w'

/-- Some run of the program, complete or not, makes the call `o'` in the world `w'`. -/
def Makes (G : Handler W Op Ans) : Program Op Ans ε α → W → Op → W → Prop
  | .pure _, _, _, _ => False
  | .fail _, _, _, _ => False
  | .call o k, w, o', w' => G.admits w o ∧
      ((o' = o ∧ w' = w) ∨ ∃ a v, G.answers w o a v ∧ (k a).Makes G v o' w')

/-- The precondition under which the program meets every obligation of the
contract, ends in `Q`, and gives up only with an error allowed by `E`. -/
def wp (C : Contract W Op Ans) (E : ε → Prop) :
    Program Op Ans ε α → (α → W → Prop) → W → Prop
  | .pure a, Q, w => Q a w
  | .fail e, _, _ => E e
  | .call o k, Q, w => C.admits w o →
      C.requires w o ∧ ∀ a v, C.ensures w o a v → (k a).wp C E Q v

variable {C : Contract W Op Ans} {E : ε → Prop}

@[simp] theorem wp_pure (a : α) (Q : α → W → Prop) (w : W) :
    (Program.pure a : Program Op Ans ε α).wp C E Q w ↔ Q a w := Iff.rfl

@[simp] theorem wp_fail (e : ε) (Q : α → W → Prop) (w : W) :
    (Program.fail e : Program Op Ans ε α).wp C E Q w ↔ E e := Iff.rfl

theorem wp_mono {p : Program Op Ans ε α} {Q Q' : α → W → Prop}
    (h : ∀ a w, Q a w → Q' a w) {w : W} (hp : p.wp C E Q w) : p.wp C E Q' w := by
  induction p generalizing w with
  | pure a => exact h a w hp
  | fail e => exact hp
  | call o k ih =>
    intro ha
    exact ⟨(hp ha).1, fun a v hv ↦ ih a ((hp ha).2 a v hv)⟩

theorem wp_weaken {E' : ε → Prop} (hE : ∀ e, E e → E' e) {p : Program Op Ans ε α}
    {Q : α → W → Prop} {w : W} (hp : p.wp C E Q w) : p.wp C E' Q w := by
  induction p generalizing w with
  | pure a => exact hp
  | fail e => exact hE e hp
  | call o k ih =>
    intro ha
    exact ⟨(hp ha).1, fun a v hv ↦ ih a ((hp ha).2 a v hv)⟩

theorem wp_and {E' : ε → Prop} {p : Program Op Ans ε α} {Q Q' : α → W → Prop} {w : W}
    (hp : p.wp C E Q w) (hp' : p.wp C E' Q' w) :
    p.wp C (fun e ↦ E e ∧ E' e) (fun a v ↦ Q a v ∧ Q' a v) w := by
  induction p generalizing w with
  | pure a => exact ⟨hp, hp'⟩
  | fail e => exact ⟨hp, hp'⟩
  | call o k ih =>
    intro ha
    exact ⟨(hp ha).1, fun a v hv ↦ ih a ((hp ha).2 a v hv) ((hp' ha).2 a v hv)⟩

@[simp] theorem wp_bind (p : Program Op Ans ε α) (f : α → Program Op Ans ε β)
    (Q : β → W → Prop) (w : W) :
    (p.bind f).wp C E Q w ↔ p.wp C E (fun a v ↦ (f a).wp C E Q v) w := by
  induction p generalizing w with
  | pure a => rfl
  | fail e => rfl
  | call o k ih => simp only [bind, wp, ih]

theorem wp_foldlM_range {f : σ → ℕ → Program Op Ans ε σ} {n : ℕ} (I : ℕ → σ → W → Prop)
    (hs : ∀ i s w, i < n → I i s w → (f s i).wp C E (I (i + 1)) w)
    {s : σ} {w : W} (h : I 0 s w) : ((List.range n).foldlM f s).wp C E (I n) w := by
  rw [List.range_eq_range']
  suffices hgen : ∀ k i s w, i + k = n → I i s w →
      ((List.range' i k).foldlM f s).wp C E (I n) w from hgen n 0 s w (Nat.zero_add n) h
  intro k
  induction k with
  | zero =>
    intro i s w hi h
    obtain rfl : i = n := by omega
    exact h
  | succ k ih =>
    intro i s w hi h
    rw [List.range'_succ, List.foldlM_cons, bind_eq, wp_bind]
    exact wp_mono (fun s' w' h' ↦ ih (i + 1) s' w' (by omega) h') (hs i s w (by omega) h)

/-- A handler keeps a contract when `R` relates its worlds to the worlds the
contract speaks of. -/
structure Keeps (G : Handler V Op Ans) (C : Contract W Op Ans) (R : V → W → Prop) : Prop where
  admits : ∀ v w o, R v w → G.admits v o → C.admits w o
  ensures : ∀ v w o a v', R v w → G.admits v o → C.requires w o → G.answers v o a v' →
    ∃ w', C.ensures w o a w' ∧ R v' w'

theorem keeps_contract (G : Handler W Op Ans) : Keeps G G.contract Eq where
  admits := by
    rintro v _ o rfl ha
    exact ha
  ensures := by
    rintro v _ o a v' rfl _ _ ha
    exact ⟨v', ha, rfl⟩

variable {G : Handler V Op Ans} {R : V → W → Prop}

theorem wp_true (p : Program Op Ans ε α) (v : V) :
    p.wp G.contract (fun _ ↦ True) (fun _ _ ↦ True) v := by
  induction p generalizing v with
  | pure a => trivial
  | fail e => trivial
  | call o k ih => exact fun _ ↦ ⟨trivial, fun a v' _ ↦ ih a v'⟩

theorem wp_runs (hG : Keeps G C R) {p : Program Op Ans ε α} {Q : α → W → Prop} {v : V} {w : W}
    (hR : R v w) (hp : p.wp C E Q w) {r : Except ε α} {v' : V} (hr : p.Runs G v r v') :
    (∀ a, r = .ok a → ∃ w', R v' w' ∧ Q a w') ∧ ∀ e, r = .error e → E e := by
  induction p generalizing v w with
  | pure a =>
    obtain ⟨rfl, rfl⟩ := hr
    exact ⟨fun b hb ↦ ⟨w, hR, by cases hb; exact hp⟩, fun e he ↦ (nomatch he)⟩
  | fail e =>
    obtain ⟨rfl, rfl⟩ := hr
    exact ⟨fun b hb ↦ (nomatch hb), fun e' he ↦ by cases he; exact hp⟩
  | call o k ih =>
    obtain ⟨ha, a, v₁, hans, hrest⟩ := hr
    obtain ⟨hreq, hk⟩ := hp (hG.admits v w o hR ha)
    obtain ⟨w₁, hens, hR₁⟩ := hG.ensures v w o a v₁ hR ha hreq hans
    exact ih a hR₁ (hk a w₁ hens) hrest

/-- A program that meets a contract meets it at every call it makes. -/
theorem wp_makes (hG : Keeps G C R) {p : Program Op Ans ε α} {Q : α → W → Prop} {v : V} {w : W}
    (hR : R v w) (hp : p.wp C E Q w) {o' : Op} {v' : V} (hm : p.Makes G v o' v') :
    ∃ w', R v' w' ∧ G.admits v' o' ∧ C.requires w' o' := by
  induction p generalizing v w with
  | pure a => exact hm.elim
  | fail e => exact hm.elim
  | call o k ih =>
    obtain ⟨ha, hm⟩ := hm
    obtain ⟨hreq, hk⟩ := hp (hG.admits v w o hR ha)
    rcases hm with ⟨rfl, rfl⟩ | ⟨a, v₁, hans, hm⟩
    · exact ⟨w, hR, ha, hreq⟩
    · obtain ⟨w₁, hens, hR₁⟩ := hG.ensures v w o a v₁ hR ha hreq hans
      exact ih a hR₁ (hk a w₁ hens) hm

end Program

/-- Contexts that take turns: `enters s p` says which code may run next, alone,
from the shared state `s`; between turns the world may move by itself. -/
structure Turns (Op : Type) (Ans : Op → Type) (ε σ V : Type) where
  start : σ → V → Prop
  enters : σ → Program Op Ans ε σ → Prop
  drifts : V → V → Prop

namespace Turns

variable {Op : Type} {Ans : Op → Type} {ε σ V W : Type}

inductive Reachable (T : Turns Op Ans ε σ V) (G : Handler V Op Ans) : σ → V → Prop
  | start {s : σ} {v : V} : T.start s v → Reachable T G s v
  | turn {s s' : σ} {v v' : V} {p : Program Op Ans ε σ} :
      Reachable T G s v → T.enters s p → p.Runs G v (.ok s') v' → Reachable T G s' v'
  | drift {s : σ} {v v' : V} : Reachable T G s v → T.drifts v v' → Reachable T G s v'

def Fails (T : Turns Op Ans ε σ V) (G : Handler V Op Ans) (s : σ) (v : V) (e : ε) : Prop :=
  ∃ p, T.enters s p ∧ ∃ v', p.Runs G v (.error e) v'

def Makes (T : Turns Op Ans ε σ V) (G : Handler V Op Ans) (s : σ) (v : V) (o : Op)
    (v' : V) : Prop :=
  ∃ p, T.enters s p ∧ p.Makes G v o v'

variable {T : Turns Op Ans ε σ V} {G : Handler V Op Ans} {C : Contract W Op Ans} {E : ε → Prop}
  {R : V → W → Prop} {I : σ → W → Prop}

/-- An invariant that every turn keeps, judged by the contract alone, holds in
every reachable state of any handler that keeps the contract. -/
theorem Reachable.invariant (hG : Program.Keeps G C R)
    (hdrift : ∀ v v' w, T.drifts v v' → R v w → R v' w)
    (hstart : ∀ s v, T.start s v → ∃ w, R v w ∧ I s w)
    (hturn : ∀ s w p, I s w → T.enters s p → p.wp C E I w)
    {s : σ} {v : V} (h : Reachable T G s v) : ∃ w, R v w ∧ I s w := by
  induction h with
  | start h0 => exact hstart _ _ h0
  | turn _ hent hrun ih =>
    obtain ⟨w, hR, hI⟩ := ih
    exact (Program.wp_runs hG hR (hturn _ w _ hI hent) hrun).1 _ rfl
  | drift _ hd ih =>
    obtain ⟨w, hR, hI⟩ := ih
    exact ⟨w, hdrift _ _ w hd hR, hI⟩

theorem Fails.allowed (hG : Program.Keeps G C R)
    (hturn : ∀ s w p, I s w → T.enters s p → p.wp C E I w)
    {s : σ} {v : V} {w : W} (hR : R v w) (hI : I s w) {e : ε} (h : T.Fails G s v e) : E e := by
  obtain ⟨p, hent, v', hrun⟩ := h
  exact (Program.wp_runs hG hR (hturn s w p hI hent) hrun).2 e rfl

theorem Makes.required (hG : Program.Keeps G C R)
    (hturn : ∀ s w p, I s w → T.enters s p → p.wp C E I w)
    {s : σ} {v : V} {w : W} (hR : R v w) (hI : I s w) {o : Op} {v' : V} (h : T.Makes G s v o v') :
    ∃ w', R v' w' ∧ G.admits v' o ∧ C.requires w' o := by
  obtain ⟨p, hent, hm⟩ := h
  exact Program.wp_makes hG hR (hturn s w p hI hent) hm

end Turns

end Nctusde.Library

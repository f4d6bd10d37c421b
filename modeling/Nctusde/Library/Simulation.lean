import Nctusde.Library.Program

namespace Nctusde.Library.Program

variable {Op : Type} {Ans : Op → Type} {ε α β γ δ σ τ W : Type} {G : Handler W Op Ans}

theorem runs_bind_ok {p : Program Op Ans ε α} {f : α → Program Op Ans ε β} {b : β} {w w' : W} :
    (p.bind f).Runs G w (.ok b) w' ↔
      ∃ a v, p.Runs G w (.ok a) v ∧ (f a).Runs G v (.ok b) w' := by
  induction p generalizing w with
  | pure a =>
    constructor
    · exact fun h ↦ ⟨a, w, ⟨rfl, rfl⟩, h⟩
    · rintro ⟨a', v, ⟨ha, rfl⟩, h⟩
      cases ha
      exact h
  | fail e =>
    constructor
    · rintro ⟨h, -⟩
      cases h
    · rintro ⟨_, _, ⟨h, -⟩, -⟩
      cases h
  | call o k ih =>
    constructor
    · rintro ⟨hadm, x, v, hans, hrun⟩
      obtain ⟨a, v', ha, hb⟩ := (ih x).mp hrun
      exact ⟨a, v', ⟨hadm, x, v, hans, ha⟩, hb⟩
    · rintro ⟨a, v', ⟨hadm, x, v, hans, ha⟩, hb⟩
      exact ⟨hadm, x, v, hans, (ih x).mpr ⟨a, v', ha, hb⟩⟩

def Can (G : Handler W Op Ans) (p : Program Op Ans ε α) (Q : α → W → Prop) (w : W) : Prop :=
  ∃ a w', p.Runs G w (.ok a) w' ∧ Q a w'

theorem can_pure {Q : α → W → Prop} {a : α} {w : W} (h : Q a w) :
    Can (ε := ε) G (.pure a) Q w := ⟨a, w, ⟨rfl, rfl⟩, h⟩

theorem can_bind {P : α → W → Prop} {Q : β → W → Prop} {p : Program Op Ans ε α}
    {f : α → Program Op Ans ε β} {w : W} (hp : p.Can G P w)
    (hf : ∀ a v, P a v → (f a).Can G Q v) : (p.bind f).Can G Q w := by
  obtain ⟨a, v, ha, hP⟩ := hp
  obtain ⟨b, v', hb, hQ⟩ := hf a v hP
  exact ⟨b, v', runs_bind_ok.mpr ⟨a, v, ha, hb⟩, hQ⟩

theorem Can.and_wp {C : Contract W Op Ans} {E : ε → Prop} {P Q : α → W → Prop}
    {p : Program Op Ans ε α} {w : W} (h : p.Can G P w) (hG : Keeps G C Eq) (hwp : p.wp C E Q w) :
    p.Can G (fun a v ↦ P a v ∧ Q a v) w := by
  obtain ⟨a, v, hrun, hP⟩ := h
  obtain ⟨_, rfl, hQ⟩ := (wp_runs hG rfl hwp hrun).1 a rfl
  exact ⟨a, v, hrun, hP, hQ⟩

theorem makes_bind {p : Program Op Ans ε α} {f : α → Program Op Ans ε β} {w w' : W} {o : Op}
    (h : p.Makes G w o w') : (p.bind f).Makes G w o w' := by
  induction p generalizing w with
  | pure a => exact h.elim
  | fail e => exact h.elim
  | call o k ih =>
    obtain ⟨ha, hm⟩ := h
    rcases hm with hm | ⟨a, v, hans, hm⟩
    · exact ⟨ha, .inl hm⟩
    · exact ⟨ha, .inr ⟨a, v, hans, ih a hm⟩⟩

theorem makes_after {p : Program Op Ans ε α} {f : α → Program Op Ans ε β} {w v w' : W} {a : α}
    {o : Op} (hrun : p.Runs G w (.ok a) v) (h : (f a).Makes G v o w') :
    (p.bind f).Makes G w o w' := by
  induction p generalizing w with
  | pure a' =>
    obtain ⟨ha, rfl⟩ := hrun
    cases ha
    exact h
  | fail e => exact nomatch hrun.1
  | call o k ih =>
    obtain ⟨ha, b, v', hans, hrun⟩ := hrun
    exact ⟨ha, .inr ⟨b, v', hans, ih b hrun⟩⟩

structure Extends (G G' : Handler W Op Ans) : Prop where
  admits : ∀ w o, G.admits w o → G'.admits w o
  answers : ∀ w o a v, G.answers w o a v → G'.answers w o a v

/-- What one handler answers can be had from another one, whose worlds `R` relates to its. -/
structure Realises {V : Type} (G : Handler W Op Ans) (G' : Handler V Op Ans) (R : V → W → Prop) :
    Prop where
  admits : ∀ v w o, R v w → G.admits w o → G'.admits v o
  answers : ∀ v w o a w', R v w → G.admits w o → G.answers w o a w' →
    ∃ v', G'.answers v o a v' ∧ R v' w'

theorem Runs.realised {V : Type} {G' : Handler V Op Ans} {R : V → W → Prop}
    (hG : Realises G G' R) {p : Program Op Ans ε α} {r : Except ε α} {v : V} {w w' : W} (hR : R v w)
    (h : p.Runs G w r w') : ∃ v', p.Runs G' v r v' ∧ R v' w' := by
  induction p generalizing v w with
  | pure a =>
    obtain ⟨rfl, rfl⟩ := h
    exact ⟨v, ⟨rfl, rfl⟩, hR⟩
  | fail e =>
    obtain ⟨rfl, rfl⟩ := h
    exact ⟨v, ⟨rfl, rfl⟩, hR⟩
  | call o k ih =>
    obtain ⟨ha, a, w₁, hans, hrun⟩ := h
    obtain ⟨v₁, hans', hR₁⟩ := hG.answers v w o a w₁ hR ha hans
    obtain ⟨v', hrun', hR'⟩ := ih a hR₁ hrun
    exact ⟨v', ⟨hG.admits v w o hR ha, a, v₁, hans', hrun'⟩, hR'⟩

theorem Extends.realises {G' : Handler W Op Ans} (hG : Extends G G') : Realises G G' Eq where
  admits := by
    rintro v w o rfl
    exact hG.admits v o
  answers := by
    rintro v w o a w' rfl - hans
    exact ⟨w', hG.answers v o a w' hans, rfl⟩

theorem Runs.extends {G' : Handler W Op Ans} (hG : Extends G G') {p : Program Op Ans ε α}
    {r : Except ε α} {w w' : W} (h : p.Runs G w r w') : p.Runs G' w r w' := by
  obtain ⟨v, hrun, rfl⟩ := h.realised hG.realises rfl
  exact hrun

theorem reachable_extends {T : Turns Op Ans ε σ W} {G' : Handler W Op Ans} (hG : Extends G G')
    {s : σ} {w : W} (h : T.Reachable G s w) : T.Reachable G' s w := by
  induction h with
  | start h => exact .start h
  | turn _ hent hrun ih => exact ih.turn hent (hrun.extends hG)
  | drift _ hd ih => exact ih.drift hd

/-- The run in which `answer` answers every call. -/
def play (answer : (w : W) → (o : Op) → Option (Ans o × W)) :
    Program Op Ans ε α → W → Option (Except ε α × W)
  | .pure a, w => some (.ok a, w)
  | .fail e, w => some (.error e, w)
  | .call o k, w =>
    match answer w o with
    | none => none
    | some (a, w') => (k a).play answer w'

def Plays (G : Handler W Op Ans) (answer : (w : W) → (o : Op) → Option (Ans o × W)) : Prop :=
  ∀ w o a w', answer w o = some (a, w') → G.admits w o ∧ G.answers w o a w'

theorem Plays.extends {answer : (w : W) → (o : Op) → Option (Ans o × W)} {G' : Handler W Op Ans}
    (h : Plays G answer) (hG : Extends G G') : Plays G' answer := by
  intro w o a w' hans
  obtain ⟨hadmits, hanswers⟩ := h w o a w' hans
  exact ⟨hG.admits w o hadmits, hG.answers w o a w' hanswers⟩

theorem play_runs {answer : (w : W) → (o : Op) → Option (Ans o × W)} (hG : Plays G answer)
    {p : Program Op Ans ε α} {r : Except ε α} {w w' : W} (h : p.play answer w = some (r, w')) :
    p.Runs G w r w' := by
  induction p generalizing w with
  | pure a =>
    cases h
    exact ⟨rfl, rfl⟩
  | fail e =>
    cases h
    exact ⟨rfl, rfl⟩
  | call o k ih =>
    rw [play] at h
    cases hans : answer w o with
    | none =>
      rw [hans] at h
      cases h
    | some x =>
      rw [hans] at h
      obtain ⟨hadmits, hanswers⟩ := hG w o x.1 x.2 hans
      exact ⟨hadmits, x.1, x.2, hanswers, ih x.1 h⟩

def calls (answer : (w : W) → (o : Op) → Option (Ans o × W)) :
    Program Op Ans ε α → W → List (Op × W)
  | .pure _, _ => []
  | .fail _, _ => []
  | .call o k, w =>
    match answer w o with
    | none => []
    | some (a, w') => (o, w) :: (k a).calls answer w'

theorem calls_makes {answer : (w : W) → (o : Op) → Option (Ans o × W)} (hG : Plays G answer)
    {p : Program Op Ans ε α} {w : W} {c : Op × W} (h : c ∈ p.calls answer w) :
    p.Makes G w c.1 c.2 := by
  induction p generalizing w with
  | pure a => cases h
  | fail e => cases h
  | call o k ih =>
    rw [calls] at h
    cases hans : answer w o with
    | none =>
      rw [hans] at h
      cases h
    | some x =>
      rw [hans] at h
      obtain ⟨hadmits, hanswers⟩ := hG w o x.1 x.2 hans
      rcases List.mem_cons.mp h with rfl | h
      · exact ⟨hadmits, .inl ⟨rfl, rfl⟩⟩
      · exact ⟨hadmits, .inr ⟨x.1, x.2, hanswers, ih x.1 h⟩⟩

def Ends (p : Program Op Ans ε α) : Prop := (∃ a, p = .pure a) ∨ ∃ e, p = .fail e

theorem ends_foldlM {f : σ → β → Program Op Ans ε σ} (hf : ∀ s b, (f s b).Ends) (l : List β)
    (s : σ) : (l.foldlM f s).Ends := by
  induction l generalizing s with
  | nil => exact .inl ⟨s, rfl⟩
  | cons b l ih =>
    rw [List.foldlM_cons, bind_eq]
    rcases hf s b with ⟨s', h⟩ | ⟨e, h⟩
    · rw [h]
      exact ih s'
    · rw [h]
      exact .inr ⟨e, rfl⟩

theorem Ends.can {C : Contract W Op Ans} {Q : α → W → Prop} {p : Program Op Ans ε α} {w : W}
    (h : p.Ends) (hwp : p.wp C (fun _ ↦ False) Q w) : p.Can G Q w := by
  rcases h with ⟨a, rfl⟩ | ⟨e, rfl⟩
  · exact can_pure hwp
  · exact hwp.elim

/-- Every run of `p` that ends well is matched by one of `q` that leaves the same
world and a related result. -/
def Matches (G : Handler W Op Ans) (R : α → β → W → Prop) (p : Program Op Ans ε α)
    (q : Program Op Ans ε β) (w : W) : Prop :=
  ∀ a w', p.Runs G w (.ok a) w' → ∃ b, q.Runs G w (.ok b) w' ∧ R a b w'

variable {R : α → β → W → Prop} {S : γ → δ → W → Prop} {w : W}

theorem matches_pure {a : α} {b : β} (h : R a b w) :
    Matches (ε := ε) G R (.pure a) (.pure b) w := by
  rintro a' w' ⟨ha, rfl⟩
  cases ha
  exact ⟨b, ⟨rfl, rfl⟩, h⟩

theorem matches_bind {p : Program Op Ans ε α} {q : Program Op Ans ε β}
    {f : α → Program Op Ans ε γ} {g : β → Program Op Ans ε δ} (h : Matches G R p q w)
    (hk : ∀ a b v, R a b v → Matches G S (f a) (g b) v) :
    Matches G S (p.bind f) (q.bind g) w := by
  intro c w' hrun
  obtain ⟨a, v, ha, hc⟩ := runs_bind_ok.mp hrun
  obtain ⟨b, hb, hR⟩ := h a v ha
  obtain ⟨d, hd, hS⟩ := hk a b v hR c w' hc
  exact ⟨d, runs_bind_ok.mpr ⟨b, v, hb, hd⟩, hS⟩

theorem matches_foldlM_range {f : σ → ℕ → Program Op Ans ε σ} {g : τ → ℕ → Program Op Ans ε τ}
    {n : ℕ} (I : ℕ → σ → τ → W → Prop)
    (hs : ∀ i < n, ∀ s t w, I i s t w → Matches G (I (i + 1)) (f s i) (g t i) w)
    {s : σ} {t : τ} (h : I 0 s t w) :
    Matches G (I n) ((List.range n).foldlM f s) ((List.range n).foldlM g t) w := by
  rw [List.range_eq_range']
  suffices hgen : ∀ k i s t w, i + k = n → I i s t w →
      Matches G (I n) ((List.range' i k).foldlM f s) ((List.range' i k).foldlM g t) w from
    hgen n 0 s t w (Nat.zero_add n) h
  intro k
  induction k with
  | zero =>
    intro i s t w hi h
    obtain rfl : i = n := by omega
    exact matches_pure h
  | succ k ih =>
    intro i s t w hi h
    rw [List.range'_succ, List.foldlM_cons, List.foldlM_cons]
    exact matches_bind (hs i (by omega) s t w h) fun s' t' v h' ↦ ih (i + 1) s' t' v (by omega) h'

end Nctusde.Library.Program

namespace Nctusde.Library.Turns

variable {Op : Type} {Ans : Op → Type} {ε σ V : Type}

inductive Leads (T : Turns Op Ans ε σ V) (G : Handler V Op Ans) (s : σ) (v : V) : σ → V → Prop
  | here : Leads T G s v s v
  | turn {s' s'' : σ} {v' v'' : V} {p : Program Op Ans ε σ} : Leads T G s v s' v' →
      T.enters s' p → p.Runs G v' (.ok s'') v'' → Leads T G s v s'' v''

variable {T : Turns Op Ans ε σ V} {G : Handler V Op Ans} {s s' s'' : σ} {v v' v'' : V}

theorem Leads.trans (h : T.Leads G s v s' v') (h' : T.Leads G s' v' s'' v'') :
    T.Leads G s v s'' v'' := by
  induction h' with
  | here => exact h
  | turn _ hent hrun ih => exact ih.turn hent hrun

theorem Leads.one {p : Program Op Ans ε σ} (hent : T.enters s p) (hrun : p.Runs G v (.ok s') v') :
    T.Leads G s v s' v' := .turn .here hent hrun

theorem Leads.reachable (h : T.Leads G s v s' v') (hs : T.Reachable G s v) :
    T.Reachable G s' v' := by
  induction h with
  | here => exact hs
  | turn _ hent hrun ih => exact ih.turn hent hrun

theorem Leads.keeps {I : σ → V → Prop}
    (hturn : ∀ s v p s' v', I s v → T.enters s p → p.Runs G v (.ok s') v' → I s' v')
    (h : T.Leads G s v s' v') (hI : I s v) : I s' v' := by
  induction h with
  | here => exact hI
  | turn _ hent hrun ih => exact hturn _ _ _ _ _ ih hent hrun

/-- Turns taken in a world that another one can realise can be taken there. -/
theorem Leads.realised {W : Type} {T' : Turns Op Ans ε σ W} {G' : Handler W Op Ans}
    {R : W → V → Prop} (hG : Program.Realises G G' R)
    (hent : ∀ s p, T.enters s p → T'.enters s p) {w : W} (hR : R w v)
    (h : T.Leads G s v s' v') : ∃ w', T'.Leads G' s w s' w' ∧ R w' v' := by
  induction h with
  | here => exact ⟨w, .here, hR⟩
  | turn _ hp hrun ih =>
    obtain ⟨w₁, hl, hR₁⟩ := ih
    obtain ⟨w', hrun', hR'⟩ := hrun.realised hG hR₁
    exact ⟨w', hl.turn (hent _ _ hp) hrun', hR'⟩

/-- Whichever turns are taken, none fails, and they come to the goal. -/
inductive Inevitable (T : Turns Op Ans ε σ V) (G : Handler V Op Ans) (goal : σ → V → Prop) :
    σ → V → Prop
  | here {s : σ} {v : V} : goal s v → Inevitable T G goal s v
  | turn {s : σ} {v : V} : (∃ p, T.enters s p) →
      (∀ p, T.enters s p → ∀ e v', ¬ p.Runs G v (.error e) v') →
      (∀ p s' v', T.enters s p → p.Runs G v (.ok s') v' → Inevitable T G goal s' v') →
      Inevitable T G goal s v

theorem Inevitable.of_wp {goal : σ → V → Prop} (hsome : ∃ p, T.enters s p)
    (hall : ∀ p, T.enters s p → p.wp G.contract (fun _ ↦ False) (T.Inevitable G goal) v) :
    T.Inevitable G goal s v := by
  refine .turn hsome (fun p hp e v' hrun ↦ ?_) fun p s' v' hp hrun ↦ ?_
  · exact (Program.wp_runs (Program.keeps_contract G) rfl (hall p hp) hrun).2 e rfl
  · obtain ⟨_, rfl, hs'⟩ :=
      (Program.wp_runs (Program.keeps_contract G) rfl (hall p hp) hrun).1 s' rfl
    exact hs'

/-- What only leads to a place with nothing left to do is not inevitable. -/
theorem not_inevitable {goal : σ → V → Prop} (hs : ¬ goal s v) (hent : T.enters s (.pure s'))
    (hs' : ¬ goal s' v) (hnone : ∀ p, ¬ T.enters s' p) : ¬ T.Inevitable G goal s v := by
  intro h
  cases h with
  | here hgoal => exact hs hgoal
  | turn _ _ hnext =>
    cases hnext _ s' v hent ⟨rfl, rfl⟩ with
    | here hgoal => exact hs' hgoal
    | turn hsome _ _ =>
      obtain ⟨q, hq⟩ := hsome
      exact hnone q hq

/-- Turns taken one after the other, `k` of them of the kind `mine`. -/
inductive Counted (T : Turns Op Ans ε σ V) (G : Handler V Op Ans)
    (mine : σ → Program Op Ans ε σ → Prop) (s : σ) (v : V) : ℕ → σ → V → Prop
  | here : Counted T G mine s v 0 s v
  | mine {k : ℕ} {s' s'' : σ} {v' v'' : V} {p : Program Op Ans ε σ} :
      Counted T G mine s v k s' v' → T.enters s' p → mine s' p → p.Runs G v' (.ok s'') v'' →
      Counted T G mine s v (k + 1) s'' v''
  | other {k : ℕ} {s' s'' : σ} {v' v'' : V} {p : Program Op Ans ε σ} :
      Counted T G mine s v k s' v' → T.enters s' p → p.Runs G v' (.ok s'') v'' →
      Counted T G mine s v k s'' v''

variable {mine : σ → Program Op Ans ε σ → Prop} {k : ℕ}

theorem Counted.leads (h : T.Counted G mine s v k s' v') : T.Leads G s v s' v' := by
  induction h with
  | here => exact .here
  | mine _ hent _ hrun ih => exact ih.turn hent hrun
  | other _ hent hrun ih => exact ih.turn hent hrun

/-- A variant that no turn raises and that those of one kind lower bounds how many of them there
are before the goal is reached. -/
theorem Counted.response {I goal : σ → V → Prop} {φ : σ → ℕ}
    (hturn : ∀ s v p s' v', I s v → T.enters s p → p.Runs G v (.ok s') v' →
      goal s' v' ∨ I s' v' ∧ φ s' ≤ φ s ∧ (mine s p → φ s' < φ s))
    (hgoal : ∀ s v p s' v', goal s v → T.enters s p → p.Runs G v (.ok s') v' → goal s' v')
    (h : T.Counted G mine s v k s' v') (hI : I s v) :
    goal s' v' ∨ I s' v' ∧ φ s' + k ≤ φ s := by
  induction h with
  | here => exact .inr ⟨hI, Nat.le_refl _⟩
  | mine _ hent hmine hrun ih =>
    rcases ih with hg | ⟨hI', hle⟩
    · exact .inl (hgoal _ _ _ _ _ hg hent hrun)
    · rcases hturn _ _ _ _ _ hI' hent hrun with hg | ⟨hI'', -, hlt⟩
      · exact .inl hg
      · exact .inr ⟨hI'', by have := hlt hmine; omega⟩
  | other _ hent hrun ih =>
    rcases ih with hg | ⟨hI', hle⟩
    · exact .inl (hgoal _ _ _ _ _ hg hent hrun)
    · rcases hturn _ _ _ _ _ hI' hent hrun with hg | ⟨hI'', hkeep, -⟩
      · exact .inl hg
      · exact .inr ⟨hI'', by omega⟩

variable {κ : Type} {next : σ → κ → Option (Program Op Ans ε σ)}
  {answer : (w : V) → (o : Op) → Option (Ans o × V)}

/-- The turns that `next` takes on a list of cues, with `answer` for the world. -/
def play (next : σ → κ → Option (Program Op Ans ε σ))
    (answer : (w : V) → (o : Op) → Option (Ans o × V)) : List κ → σ → V → Option (σ × V)
  | [], s, v => some (s, v)
  | c :: cs, s, v =>
    match (next s c).bind fun p ↦ p.play answer v with
    | some (.ok s', v') => play next answer cs s' v'
    | _ => none

theorem play_cons {c : κ} {cs : List κ} (h : play next answer (c :: cs) s v = some (s'', v'')) :
    ∃ p s' v', next s c = some p ∧ p.play answer v = some (.ok s', v') ∧
      play next answer cs s' v' = some (s'', v'') := by
  rw [play] at h
  split at h
  · rename_i s' v' hplay
    obtain ⟨p, hp, hplay⟩ := Option.bind_eq_some_iff.mp hplay
    exact ⟨p, s', v', hp, hplay, h⟩
  · cases h

theorem play_counted {isMine : κ → Bool} (hnext : ∀ s c p, next s c = some p → T.enters s p)
    (hmine : ∀ s c p, next s c = some p → isMine c = true → mine s p)
    (hG : Program.Plays G answer) {cs : List κ} {k : ℕ} {s₀ : σ} {v₀ : V}
    (h₀ : T.Counted G mine s₀ v₀ k s v) (h : play next answer cs s v = some (s', v')) :
    T.Counted G mine s₀ v₀ (k + cs.countP isMine) s' v' := by
  induction cs generalizing s v k with
  | nil =>
    cases h
    exact h₀
  | cons c cs ih =>
    obtain ⟨p, s₁, v₁, hp, hplay, h⟩ := play_cons h
    have hrun := Program.play_runs hG hplay
    by_cases hc : isMine c = true
    · rw [List.countP_cons_of_pos hc, Nat.add_comm _ 1, ← Nat.add_assoc]
      exact ih (h₀.mine (hnext s c p hp) (hmine s c p hp hc) hrun) h
    · rw [List.countP_cons_of_neg hc]
      exact ih (h₀.other (hnext s c p hp) hrun) h

theorem play_leads (hnext : ∀ s c p, next s c = some p → T.enters s p) (hG : Program.Plays G answer)
    {cs : List κ} (h : play next answer cs s v = some (s', v')) : T.Leads G s v s' v' := by
  induction cs generalizing s v with
  | nil =>
    cases h
    exact .here
  | cons c cs ih =>
    obtain ⟨p, s₁, v₁, hp, hplay, h⟩ := play_cons h
    exact (Leads.here.turn (hnext s c p hp) (Program.play_runs hG hplay)).trans (ih h)

end Nctusde.Library.Turns

namespace Nctusde.Library

structure Stopping (σ : Type) where
  system : σ
  returned : Bool

namespace Stopping

variable {Op : Type} {Ans : Op → Type} {ε σ V : Type}

/-- Only the task still takes turns. The turn in which it looks at the flag is its last one. -/
def Enters (attends : σ → Program Op Ans ε σ → Prop) (looks : σ → Bool) :
    Stopping σ → Program Op Ans ε (Stopping σ) → Prop
  | ⟨_, true⟩, _ => False
  | ⟨s, false⟩, p => ∃ q, attends s q ∧ p = q.bind fun s' ↦ .pure ⟨s', looks s⟩

def turns (attends : σ → Program Op Ans ε σ → Prop) (looks : σ → Bool) :
    Turns Op Ans ε (Stopping σ) V where
  start u _ := u.returned = false
  enters := Enters attends looks
  drifts _ _ := False

def Returned (goal : σ → V → Prop) (u : Stopping σ) (v : V) : Prop :=
  u.returned = true ∧ goal u.system v

/-- The task has not returned, and nothing can happen any more that makes it go on. -/
def Asleep (attends : σ → Program Op Ans ε σ → Prop) (u : Stopping σ) (_ : V) : Prop :=
  u.returned = false ∧ ∀ q, ¬ attends u.system q

variable {attends : σ → Program Op Ans ε σ → Prop} {looks : σ → Bool} {G : Handler V Op Ans}
  {goal : σ → V → Prop} {s s' : σ} {v : V}

theorem inevitable_turn {goal : Stopping σ → V → Prop} (hsome : ∃ q, attends s q)
    (hall : ∀ q, attends s q → q.wp G.contract (fun _ ↦ False) (fun s' ↦
      (turns attends looks).Inevitable G goal ⟨s', looks s⟩) v) :
    (turns attends looks).Inevitable G goal ⟨s, false⟩ v := by
  obtain ⟨q, hq⟩ := hsome
  refine .of_wp ⟨_, q, hq, rfl⟩ fun p hp ↦ ?_
  obtain ⟨q, hq, rfl⟩ := hp
  exact Program.wp_bind .. |>.mpr (hall q hq)

theorem not_inevitable_asleep (hlooks : looks s = false) (hq : attends s (.pure s'))
    (hnone : ∀ q, ¬ attends s' q) :
    ¬ (turns attends looks).Inevitable G (Returned goal) ⟨s, false⟩ v := by
  refine Turns.not_inevitable (fun hret ↦ Bool.noConfusion hret.1) ⟨.pure s', hq, rfl⟩
    (fun hret ↦ Bool.noConfusion (hlooks.symm.trans hret.1)) fun p hp ↦ ?_
  rw [hlooks] at hp
  obtain ⟨q, hq, -⟩ := hp
  exact hnone q hq

theorem inevitable_asleep (hlooks : looks s = false) (hq : attends s (.pure s'))
    (honly : ∀ q, attends s q → q = .pure s') (hnone : ∀ q, ¬ attends s' q) :
    (turns attends looks).Inevitable G (Asleep attends) ⟨s, false⟩ v := by
  refine inevitable_turn ⟨_, hq⟩ fun q hq' ↦ ?_
  obtain rfl := honly q hq'
  exact .here ⟨hlooks, hnone⟩

end Stopping

end Nctusde.Library

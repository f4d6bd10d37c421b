import Mathlib.Data.List.Nodup
import Nctusde.Library.Simulation

namespace Nctusde.Library

namespace Linearization

/-- What the clients of a shared object see of it: operations under their names, and results. -/
inductive Event (ι Op Res : Type)
  | invoke (i : ι) (op : Op)
  | respond (i : ι) (res : Res)
  deriving DecidableEq

structure Object (S Op Res : Type) where
  apply : S → Op → S × Res

variable {ι Op Res S : Type} {o : Object S Op Res} {s s' : S}
  {h : List (Event ι Op Res)} {ps : List (ι × Op × Res)} {i j k : ι} {op : Op} {res : Res}

/-- The result of `i` was there before `j` was asked for. -/
def Precedes (h : List (Event ι Op Res)) (i j : ι) : Prop :=
  ∃ a b, h = a ++ b ∧ (∃ res, .respond i res ∈ a) ∧ ∃ op, .invoke j op ∈ b

theorem Precedes.responded (hp : Precedes h i j) : ∃ res, .respond i res ∈ h := by
  obtain ⟨a, b, rfl, ⟨res, hres⟩, -⟩ := hp
  exact ⟨res, List.mem_append_left _ hres⟩

/-- Of a history one event longer, the last event has nothing after it. -/
theorem Precedes.concat {e : Event ι Op Res} (hp : Precedes (h ++ [e]) i j) :
    Precedes h i j ∨ ∃ op, e = .invoke j op := by
  obtain ⟨a, b, heq, hres, op, hop⟩ := hp
  rcases List.eq_nil_or_concat b with rfl | ⟨b, e', rfl⟩
  · exact absurd hop List.not_mem_nil
  rw [List.concat_eq_append, ← List.append_assoc] at heq
  obtain ⟨rfl, he⟩ := List.append_inj' heq rfl
  obtain rfl : e = e' := List.singleton_inj.mp he
  rw [List.concat_eq_append] at hop
  rcases List.mem_append.mp hop with hop | hop
  · exact .inl ⟨a, b, rfl, hres, op, hop⟩
  · exact .inr ⟨op, (List.mem_singleton.mp hop).symm⟩

/-- The results are those of the operations done one after the other; they lead from `s` to the
last argument. -/
inductive Legal (o : Object S Op Res) (s : S) : List (ι × Op × Res) → S → Prop
  | nil : Legal o s [] s
  | snoc {ps : List (ι × Op × Res)} {s' : S} (i : ι) (op : Op) : Legal o s ps s' →
      Legal o s (ps ++ [(i, op, (o.apply s' op).2)]) (o.apply s' op).1

/-- The operations in the order in which they take effect at once: it has every result that was
given, and does not put an operation after one that was asked for when its result was there. -/
structure Linearizes (o : Object S Op Res) (s : S) (h : List (Event ι Op Res))
    (ps : List (ι × Op × Res)) (s' : S) : Prop where
  legal : Legal o s ps s'
  distinct : (ps.map (·.1)).Nodup
  invoked : ∀ p ∈ ps, .invoke p.1 p.2.1 ∈ h
  answered : ∀ i res, .respond i res ∈ h → ∃ op, (i, op, res) ∈ ps
  ordered : ps.Pairwise fun p q ↦ ¬ Precedes h q.1 p.1

/-- Whatever the clients see, they could see of an object that does one operation at a time. -/
def Linearizable (o : Object S Op Res) (s : S) (h : List (Event ι Op Res)) : Prop :=
  ∃ ps s', Linearizes o s h ps s'

theorem Linearizes.nil : Linearizes (ι := ι) o s [] [] s :=
  ⟨.nil, List.nodup_nil, fun _ hp ↦ absurd hp List.not_mem_nil,
    fun _ _ hp ↦ absurd hp List.not_mem_nil, .nil⟩

theorem Linearizes.invoke (hl : Linearizes o s h ps s') (op : Op) (hnew : i ∉ ps.map (·.1)) :
    Linearizes o s (h ++ [.invoke i op]) ps s' where
  legal := hl.legal
  distinct := hl.distinct
  invoked p hp := List.mem_append_left _ (hl.invoked p hp)
  answered j res hj := by
    rcases List.mem_append.mp hj with hj | hj
    · exact hl.answered j res hj
    · cases List.mem_singleton.mp hj
  ordered := by
    refine hl.ordered.imp_of_mem fun {p q} hp _ hnot hprec ↦ ?_
    rcases hprec.concat with hprec | ⟨op', he⟩
    · exact hnot hprec
    · cases he
      exact hnew (List.mem_map_of_mem hp)

theorem Linearizes.respond (hl : Linearizes o s h ps s') (hp : (i, op, res) ∈ ps) :
    Linearizes o s (h ++ [.respond i res]) ps s' where
  legal := hl.legal
  distinct := hl.distinct
  invoked p hp := List.mem_append_left _ (hl.invoked p hp)
  answered j res' hj := by
    rcases List.mem_append.mp hj with hj | hj
    · exact hl.answered j res' hj
    · cases List.mem_singleton.mp hj
      exact ⟨op, hp⟩
  ordered := by
    refine hl.ordered.imp fun {p q} hnot hprec ↦ ?_
    rcases hprec.concat with hprec | ⟨op', he⟩
    · exact hnot hprec
    · cases he

theorem Linearizes.take (hl : Linearizes o s h ps s') (hi : .invoke i op ∈ h)
    (hnew : i ∉ ps.map (·.1)) :
    Linearizes o s h (ps ++ [(i, op, (o.apply s' op).2)]) (o.apply s' op).1 where
  legal := hl.legal.snoc i op
  distinct := by
    rw [List.map_append, List.map_singleton]
    refine List.nodup_append.mpr ⟨hl.distinct, List.nodup_singleton _, fun j hj k hk hjk ↦ ?_⟩
    rw [List.mem_singleton.mp hk] at hjk
    obtain rfl : j = i := hjk
    exact hnew hj
  invoked p hp := by
    rcases List.mem_append.mp hp with hp | hp
    · exact hl.invoked p hp
    · rw [List.mem_singleton.mp hp]
      exact hi
  answered j res hj := by
    obtain ⟨op', hp⟩ := hl.answered j res hj
    exact ⟨op', List.mem_append_left _ hp⟩
  ordered := by
    refine List.pairwise_append.mpr
      ⟨hl.ordered, List.pairwise_singleton _ _, fun p _ q hq hprec ↦ ?_⟩
    rw [List.mem_singleton.mp hq] at hprec
    obtain ⟨res, hres⟩ := hprec.responded
    obtain ⟨op', hp'⟩ := hl.answered i res hres
    exact hnew (List.mem_map_of_mem hp')

def Object.after (o : Object S Op Res) (s : S) (ops : List (ι × Op)) : S :=
  ops.foldl (fun s p ↦ (o.apply s p.2).1) s

def Object.outcomes (o : Object S Op Res) (s : S) : List (ι × Op) → List (ι × Op × Res)
  | [] => []
  | (i, op) :: ops => (i, op, (o.apply s op).2) :: outcomes o (o.apply s op).1 ops

variable {ops ops' : List (ι × Op)}

theorem after_concat : o.after s (ops ++ [(i, op)]) = (o.apply (o.after s ops) op).1 :=
  List.foldl_concat ..

theorem outcomes_append :
    o.outcomes s (ops ++ ops') = o.outcomes s ops ++ o.outcomes (o.after s ops) ops' := by
  induction ops generalizing s with
  | nil => rfl
  | cons p ops ih => exact congrArg (List.cons _) ih

theorem mem_outcomes (o : Object S Op Res) (s : S) (i : ι) (op : Op) (ops ops' : List (ι × Op)) :
    (i, op, (o.apply (o.after s ops) op).2) ∈ o.outcomes s (ops ++ (i, op) :: ops') := by
  rw [outcomes_append]
  exact List.mem_append_right _ List.mem_cons_self

theorem map_outcomes : (o.outcomes s ops).map (·.1) = ops.map (·.1) := by
  induction ops generalizing s with
  | nil => rfl
  | cons p ops ih => exact congrArg (List.cons _) ih

theorem Linearizes.invokes (hl : Linearizes o s h (o.outcomes s ops) (o.after s ops))
    (hnodup : ((ops ++ ops').map (·.1)).Nodup) :
    Linearizes o s (h ++ ops'.map fun p ↦ .invoke p.1 p.2) (o.outcomes s (ops ++ ops'))
      (o.after s (ops ++ ops')) := by
  induction ops' generalizing h ops with
  | nil =>
    rw [List.map_nil, List.append_nil, List.append_nil]
    exact hl
  | cons p ops' ih =>
    obtain ⟨i, op⟩ := p
    have hnew : i ∉ (o.outcomes s ops).map (·.1) := by
      rw [map_outcomes]
      rw [List.map_append, List.map_cons] at hnodup
      exact fun hi ↦ (List.nodup_append.mp hnodup).2.2 _ hi _ List.mem_cons_self rfl
    have htake :=
      (hl.invoke op hnew).take (List.mem_append_right _ (List.mem_singleton_self _)) hnew
    have hone : o.outcomes s (ops ++ [(i, op)]) =
        o.outcomes s ops ++ [(i, op, (o.apply (o.after s ops) op).2)] := outcomes_append
    rw [← hone, ← after_concat (i := i)] at htake
    rw [List.append_cons] at hnodup ⊢
    rw [List.map_cons, List.append_cons]
    exact ih htake hnodup

theorem Linearizes.responds (hl : Linearizes o s h ps s') {rs : List (ι × Res)}
    (hrs : ∀ r ∈ rs, ∃ op, (r.1, op, r.2) ∈ ps) :
    Linearizes o s (h ++ rs.map fun r ↦ .respond r.1 r.2) ps s' := by
  induction rs generalizing h with
  | nil =>
    rw [List.map_nil, List.append_nil]
    exact hl
  | cons r rs ih =>
    obtain ⟨op, hmem⟩ := hrs r List.mem_cons_self
    rw [List.map_cons, List.append_cons]
    exact ih (hl.respond hmem) fun r hr ↦ hrs r (List.mem_cons_of_mem _ hr)

end Linearization

namespace Turns

variable {Op : Type} {Ans : Op → Type} {ε σ V W E : Type}

/-- The runs, each with what is to be seen of its turns. -/
inductive Observed (T : Turns Op Ans ε σ V) (G : Handler V Op Ans) (see : σ → σ → List E) :
    σ → V → List E → Prop
  | start {s : σ} {v : V} : T.start s v → Observed T G see s v []
  | turn {s s' : σ} {v v' : V} {h : List E} {p : Program Op Ans ε σ} : Observed T G see s v h →
      T.enters s p → p.Runs G v (.ok s') v' → Observed T G see s' v' (h ++ see s s')
  | drift {s : σ} {v v' : V} {h : List E} : Observed T G see s v h → T.drifts v v' →
      Observed T G see s v' h

variable {T : Turns Op Ans ε σ V} {G : Handler V Op Ans} {C : Contract W Op Ans} {A : ε → Prop}
  {R : V → W → Prop} {see : σ → σ → List E} {I : σ → W → List E → Prop}

theorem Observed.reachable {s : σ} {v : V} {h : List E} (hs : Observed T G see s v h) :
    T.Reachable G s v := by
  induction hs with
  | start h0 => exact .start h0
  | turn _ hent hrun ih => exact ih.turn hent hrun
  | drift _ hd ih => exact ih.drift hd

theorem Reachable.observed {s : σ} {v : V} (hs : T.Reachable G s v) (see : σ → σ → List E) :
    ∃ h, Observed T G see s v h := by
  induction hs with
  | start h0 => exact ⟨[], .start h0⟩
  | turn _ hent hrun ih =>
    obtain ⟨h, ih⟩ := ih
    exact ⟨_, ih.turn hent hrun⟩
  | drift _ hd ih =>
    obtain ⟨h, ih⟩ := ih
    exact ⟨h, ih.drift hd⟩

theorem Observed.invariant (hG : Program.Keeps G C R)
    (hdrift : ∀ v v' w, T.drifts v v' → R v w → R v' w)
    (hstart : ∀ s v, T.start s v → ∃ w, R v w ∧ I s w [])
    (hturn : ∀ s w h p, I s w h → T.enters s p →
      p.wp C A (fun s' w' ↦ I s' w' (h ++ see s s')) w)
    {s : σ} {v : V} {h : List E} (hs : Observed T G see s v h) : ∃ w, R v w ∧ I s w h := by
  induction hs with
  | start h0 => exact hstart _ _ h0
  | turn _ hent hrun ih =>
    obtain ⟨w, hR, hI⟩ := ih
    exact (Program.wp_runs hG hR (hturn _ w _ _ hI hent) hrun).1 _ rfl
  | drift _ hd ih =>
    obtain ⟨w, hR, hI⟩ := ih
    exact ⟨w, hdrift _ _ w hd hR, hI⟩

theorem Observed.realised {G' : Handler V Op Ans} {R : V → V → Prop}
    (hG : Program.Realises G G' R) (hstart : ∀ s v, T.start s v → ∃ w, T.start s w ∧ R w v)
    (hdrift : ∀ v v' w, T.drifts v v' → R w v → R w v') {s : σ} {v : V} {h : List E}
    (hs : Observed T G see s v h) : ∃ w, Observed T G' see s w h ∧ R w v := by
  induction hs with
  | start h0 =>
    obtain ⟨w, hw, hR⟩ := hstart _ _ h0
    exact ⟨w, .start hw, hR⟩
  | turn _ hent hrun ih =>
    obtain ⟨w, hw, hR⟩ := ih
    obtain ⟨w', hrun', hR'⟩ := hrun.realised hG hR
    exact ⟨w', hw.turn hent hrun', hR'⟩
  | drift _ hd ih =>
    obtain ⟨w, hw, hR⟩ := ih
    exact ⟨w, hw, hdrift _ _ w hd hR⟩

variable {κ : Type} {next : σ → κ → Option (Program Op Ans ε σ)}
  {answer : (v : V) → (o : Op) → Option (Ans o × V)}

def watch (next : σ → κ → Option (Program Op Ans ε σ))
    (answer : (v : V) → (o : Op) → Option (Ans o × V)) (see : σ → σ → List E) :
    List κ → σ → V → Option ((σ × V) × List E)
  | [], s, v => some ((s, v), [])
  | c :: cs, s, v =>
    match (next s c).bind fun p ↦ p.play answer v with
    | some (.ok s', v') =>
      (watch next answer see cs s' v').map fun r ↦ (r.1, see s s' ++ r.2)
    | _ => none

theorem watch_observed (hnext : ∀ s c p, next s c = some p → T.enters s p)
    (hG : Program.Plays G answer) {cs : List κ} {s s' : σ} {v v' : V} {h seen : List E}
    (hs : Observed T G see s v h) (hw : watch next answer see cs s v = some ((s', v'), seen)) :
    Observed T G see s' v' (h ++ seen) := by
  induction cs generalizing s v h seen with
  | nil =>
    cases hw
    rw [List.append_nil]
    exact hs
  | cons c cs ih =>
    rw [watch] at hw
    split at hw
    · rename_i s₁ v₁ hplay
      obtain ⟨p, hp, hplay⟩ := Option.bind_eq_some_iff.mp hplay
      obtain ⟨⟨r, seen'⟩, hrest, heq⟩ := Option.map_eq_some_iff.mp hw
      cases heq
      rw [← List.append_assoc]
      exact ih (hs.turn (hnext s c p hp) (Program.play_runs hG hplay)) hrest
    · cases hw

end Turns

end Nctusde.Library

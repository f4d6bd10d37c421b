import Mathlib.Data.List.MinMax
import Nctusde.Library.Simulation
import Nctusde.Ramdisk.Timing
import Nctusde.Ramdisk.Wakeup

namespace Nctusde.Ramdisk

open BlockLayer Library Library.ForLoop Library.Program Library.Table Wire

namespace System

variable {n speed now now' t : ℤ} {s s' s'' : System} {k : ℕ}

theorem keeps_clock : Keeps punctual clock.contract fun v w ↦ w ≤ v where
  admits _ _ _ _ _ := trivial
  ensures v w o a v' hR _ _ hans := by
    cases o with
    | ktimeGet =>
      obtain ⟨hle, hpos, rfl⟩ := hans
      exact ⟨_, ⟨hR.trans hle, hpos, rfl⟩, le_rfl⟩
    | hrtimerExpired time => exact ⟨w, rfl, hR.trans hans.1⟩

theorem keeps_timely : Keeps punctual timely.contract Eq where
  admits _ _ _ _ _ := trivial
  ensures v w o a v' hR _ _ hans := by
    subst hR
    cases o with
    | ktimeGet => exact ⟨_, ⟨hans.1, hans.2.2⟩, rfl⟩
    | hrtimerExpired time => exact ⟨_, hans, rfl⟩

/-- The queue is stopped only while every channel has a request in flight. -/
def Full (s : System) : Prop :=
  s.queueStopped = true → s.disk.diskChannels ≤ s.disk.requestInflight

def Later (s : System) : Prop := ∀ p ∈ s.submitted, 0 < p.2

theorem Later.noOverflow (h : s.Later) : s.NoOverflow := fun p hp ↦ (h p hp).le

structure Steady (speed : ℤ) (s : System) : Prop where
  speedFactor : s.disk.speedFactor = speed
  full : s.Full
  later : s.Later

theorem Steady.strategyLoop (hrates : ExactRates speed) (hspeed : s.disk.speedFactor = speed)
    (hrun : s.queueStopped = false) (hlater : s.Later) (wake : Bool) (queue : List Request) :
    (s.strategyLoop wake queue).wp clock.contract (fun _ ↦ True)
      (fun r _ ↦ Steady speed r.1) now := by
  induction queue generalizing s now wake with
  | nil => exact fun _ ↦ ⟨trivial, fun _ _ _ ↦ ⟨hspeed, fun hstop ↦
      absurd (hrun.symm.trans hstop) Bool.false_ne_true, hlater⟩⟩
  | cons req queue ih =>
    refine fun _ ↦ ⟨trivial, fun t now' ht ↦ ?_⟩
    obtain ⟨-, hpos, rfl⟩ := ht
    dsimp only [Program.bind]
    split
    · trivial
    rw [Program.bind_eq, Program.wp_bind]
    generalize hsub : s.disk.submit now' req = result
    rcases result with trap | ⟨d, c, w⟩
    · trivial
    obtain ⟨_, k, hk, -, hc, -, hch, -⟩ := Emudisk.submit_ok hsub
    have hcpos : 0 < c := by
      have := (s.disk.responseTime_eq (hspeed ▸ hrates) (s.disk.isSequentialRequest req) req.dataDir
        (UdpServer.requestSizeIndex_lt hk)).1
      omega
    have hlater' : ∀ p ∈ s.submitted ++ [(req, c)], 0 < p.2 := by
      intro p hp
      rcases List.mem_append.mp hp with hp | hp
      · exact hlater p hp
      · rw [List.mem_singleton.mp hp]
        exact hcpos
    dsimp only [record, Program.wp]
    split
    · rename_i hfull
      exact ⟨hch.speedFactor.trans hspeed, fun _ ↦ hfull, hlater'⟩
    · exact ih (s := { s with disk := d, submitted := s.submitted ++ [(req, c)] })
        (hch.speedFactor.trans hspeed) hrun hlater' _

theorem Steady.strategy (hrates : ExactRates speed) (hspeed : s.disk.speedFactor = speed)
    (hrun : s.queueStopped = false) (hlater : s.Later) (queue : List Request) :
    (s.strategy queue).wp clock.contract (fun _ ↦ True) (fun s' _ ↦ Steady speed s') now := by
  rw [System.strategy, Program.bind_eq, Program.wp_bind]
  refine Program.wp_mono (fun r now' hr ↦ ?_)
    (Steady.strategyLoop hrates hspeed hrun hlater false queue)
  dsimp only
  split
  · exact ⟨hr.speedFactor, hr.full, hr.later⟩
  · exact hr

theorem Steady.turn (h : Steady speed s) (hrates : ExactRates speed) {p : Prog System}
    (hp : Enters s p) : p.wp clock.contract (fun _ ↦ True) (fun s' _ ↦ Steady speed s') now := by
  cases hp with
  | strategy _ hrun _ => exact Steady.strategy hrates h.speedFactor hrun h.later _
  | softirqDone _ _ _ =>
    unfold softirqDone
    dsimp only
    split
    · exact Steady.strategy (s := { s with
        disk := { s.disk with requestInflight := s.disk.requestInflight - 1 }
        completing := s.completing.eraseP _
        queueStopped := false }) hrates h.speedFactor rfl h.later _
    · rename_i hstop
      exact ⟨h.speedFactor, fun hstop' ↦ absurd hstop' hstop, h.later⟩
  | start _ => exact { h with }
  | woken _ => exact { h with }
  | interrupted _ => exact { h with }
  | timer _ => exact fun _ ↦ ⟨trivial, fun _ _ _ ↦ { h with }⟩
  | expired _ =>
    refine fun _ ↦ ⟨trivial, fun _ _ _ ↦ ?_⟩
    dsimp only [Program.bind]
    split
    · trivial
    · exact { h with }
  | processing _ =>
    unfold processNext
    split
    · split
      · trivial
      split
      · trivial
      exact fun _ ↦ ⟨trivial, fun _ _ _ ↦ { h with }⟩
    · split
      · exact fun _ ↦ ⟨trivial, fun _ _ _ ↦ { h with }⟩
      · unfold Emudisk.findNext
        split <;> exact { h with }

structure Sound (n speed : ℤ) (s : System) (now : ℤ) : Prop where
  invariant : Invariant n speed s now
  wakeful : Wakeful s now
  full : s.Full
  later : s.Later

theorem reachable_sound (hn : 1 ≤ n) (hrates : ExactRates speed)
    (h : (turns n speed).Reachable punctual s now) : Sound n speed s now := by
  obtain ⟨w, hle, hi, hst⟩ := h.invariant keeps_clock (fun _ _ _ (hd : False) ↦ hd.elim)
    (I := fun s now ↦ Invariant n speed s now ∧ Steady speed s)
    (fun s v (h0 : IsStart n speed s ∧ v = 0) ↦ ⟨0, h0.2.ge, h0.1.invariant (by omega),
      h0.1.speedFactor, fun hstop ↦ absurd (h0.1.queueStopped.symm.trans hstop) Bool.false_ne_true,
      fun p hp ↦ absurd (h0.1.submitted ▸ hp) List.not_mem_nil⟩)
    fun s now p hi hp ↦ wp_and (hi.1.turn hrates hp) (hi.2.turn hrates hp)
  obtain ⟨_, rfl, hw⟩ := h.invariant keeps_timely (E := fun _ ↦ True)
    (I := fun s now ↦ s.NoOverflow → Wakeful s now) (fun _ _ _ (hd : False) ↦ hd.elim)
    (fun s v (h0 : IsStart n speed s ∧ v = 0) ↦ ⟨v, rfl, fun _ ↦ h0.2 ▸ h0.1.wakeful⟩)
    (fun s now p h hp ↦ wp_weaken (fun _ _ ↦ trivial) (Wakeful.turn h hp))
  exact ⟨hi.mono hle, hw hst.later.noOverflow, hst.full, hst.later⟩

theorem Sound.turn (h : Sound n speed s now) (hrates : ExactRates speed) {p : Prog System}
    (hp : Enters s p) (hrun : p.Runs punctual now (.ok s') now') : Sound n speed s' now' := by
  have hst : Steady speed s := ⟨h.invariant.speedFactor, h.full, h.later⟩
  obtain ⟨w, hle, hi, hst'⟩ := (wp_runs keeps_clock le_rfl
    (wp_and (h.invariant.turn hrates hp) (hst.turn hrates hp)) hrun).1 s' rfl
  obtain ⟨_, rfl, hw⟩ :=
    (wp_runs keeps_timely rfl (Wakeful.turn (fun _ ↦ h.wakeful) hp) hrun).1 s' rfl
  exact ⟨hi.mono hle, hw hst'.later.noOverflow, hst'.full, hst'.later⟩

theorem Sound.leads (h : Sound n speed s now) (hrates : ExactRates speed)
    (hl : (turns n speed).Leads punctual s now s' now') : Sound n speed s' now' :=
  hl.keeps (fun _ _ _ _ _ hs hp hrun ↦ Sound.turn hs hrates hp hrun) h

theorem Invariant.pending_length (h : Invariant n speed s now) :
    s.submitted.length = s.disk.pending.length + s.completed.length := by
  rw [h.submitted.length_eq, List.length_append, List.length_map]

/-- Passes of the processing task in a row, with the lock held all along. -/
inductive Passes : ℕ → System → ℤ → System → ℤ → Prop
  | none (s : System) (now : ℤ) : Passes 0 s now s now
  | pass {k : ℕ} {s s' s'' : System} {now now' now'' t : ℤ} : s.task = .processing t →
      (s.processNext t).Runs punctual now (.ok s') now' → Passes k s' now' s'' now'' →
      Passes (k + 1) s now s'' now''

def rank (s : System) : ℕ := s.disk.pending.length + s.tryProcessNextWithoutSleep.toNat

theorem sleep_ne_processing (s : System) (t : ℤ) : s.sleep.task ≠ .processing t := by
  rw [System.sleep]
  split <;> simp

theorem Sound.pass (h : Sound n speed s now) (hrates : ExactRates speed)
    (htask : s.task = .processing t) (hrun : (s.processNext t).Runs punctual now (.ok s') now') :
    Sound n speed s' now' ∧ s'.submitted = s.submitted ∧
      (∀ t', s'.task = .processing t' → t ≤ t' ∧ s'.rank < s.rank) ∧
      (s'.LockFree → ∀ p ∈ s'.disk.pending, t ≤ p.2) := by
  have h' := h.turn hrates (.processing htask) hrun
  have hlength := h.invariant.pending_length
  have hlength' := h'.invariant.pending_length
  have hle := h.invariant.reading t htask
  rcases processNext_cases hrun with
    ⟨i, req, t', -, -, ⟨hle', -⟩, rfl⟩ | ⟨-, htry, t', ⟨hle', -⟩, rfl⟩ | ⟨hnone, rfl⟩
  · refine ⟨h', rfl, fun t'' ht ↦ ?_, fun hlock ↦ absurd rfl (hlock t')⟩
    cases ht
    rw [System.complete] at hlength'
    dsimp only at hlength'
    rw [List.length_append, List.length_singleton] at hlength'
    refine ⟨hle.trans hle', ?_⟩
    rw [rank, rank, System.complete]
    dsimp only [Bool.toNat_false]
    omega
  · refine ⟨h', rfl, fun t'' ht ↦ ?_, fun hlock ↦ absurd rfl (hlock t')⟩
    cases ht
    refine ⟨hle.trans hle', ?_⟩
    rw [rank, rank, htry]
    exact Nat.lt_succ_self _
  · refine ⟨h', rfl, fun t' ht ↦ absurd ht (sleep_ne_processing _ t'), fun _ ↦ ?_⟩
    have hsame : s.disk.findNext.pending = s.disk.pending := by
      unfold Emudisk.findNext
      split <;> rfl
    show ∀ p ∈ s.disk.findNext.pending, t ≤ p.2
    rw [hsame]
    exact pending_later hnone

theorem Passes.sound (h : Passes k s now s' now') (hs : Sound n speed s now)
    (hrates : ExactRates speed) : Sound n speed s' now' ∧ s'.submitted = s.submitted ∧
      ∀ t, s.task = .processing t →
      (∀ t', s'.task = .processing t' → t ≤ t' ∧ k + s'.rank ≤ s.rank) ∧
        (s'.LockFree → k ≤ s.rank + 1 ∧ ∀ p ∈ s'.disk.pending, t ≤ p.2) := by
  induction h with
  | none s now =>
    refine ⟨hs, rfl, fun t htask ↦ ⟨fun t' htask' ↦ ?_, fun hlock ↦ absurd htask (hlock t)⟩⟩
    cases htask.symm.trans htask'
    exact ⟨le_rfl, (Nat.zero_add _).le⟩
  | @pass k s s' s'' now now' now'' t htask hrun hrest ih =>
    obtain ⟨hs', hsub, hstay, hleave⟩ := hs.pass hrates htask hrun
    obtain ⟨hs'', hsub', hih⟩ := ih hs'
    refine ⟨hs'', hsub'.trans hsub, fun t₀ ht₀ ↦ ?_⟩
    cases htask.symm.trans ht₀
    cases hrest with
    | none => exact ⟨fun t' ht' ↦ ⟨(hstay t' ht').1, by have := (hstay t' ht').2; omega⟩,
        fun hlock ↦ ⟨by omega, hleave hlock⟩⟩
    | pass htask' hrun' hrest' =>
      obtain ⟨hle, hlt⟩ := hstay _ htask'
      obtain ⟨hkept, hleft⟩ := hih _ htask'
      refine ⟨fun t' ht' ↦ ?_, fun hlock ↦ ?_⟩
      · obtain ⟨hle', hrank⟩ := hkept t' ht'
        exact ⟨hle.trans hle', by omega⟩
      · obtain ⟨hk, hall⟩ := hleft hlock
        exact ⟨by omega, fun p hp ↦ hle.trans (hall p hp)⟩

theorem enters_processing (htask : s.task = .processing t) {p : Prog System} (hp : Enters s p) :
    p = s.processNext t := by
  cases hp with
  | strategy hlock _ _ => exact absurd htask (hlock t)
  | softirqDone hlock _ _ => exact absurd htask (hlock t)
  | start h => exact nomatch htask.symm.trans h
  | woken h => exact nomatch htask.symm.trans h
  | interrupted h => exact nomatch htask.symm.trans h
  | timer h => exact nomatch htask.symm.trans h
  | expired h => exact nomatch htask.symm.trans h
  | processing h =>
    cases htask.symm.trans h
    rfl

theorem Invariant.rank_le (h : Invariant n speed s now) : (s.rank : ℤ) ≤ n + 1 := by
  have hinflight := h.inflight
  have hbounded := h.bounded
  have hbool := Bool.toNat_le s.tryProcessNextWithoutSleep
  rw [rank]
  omega

/-- The reads on record are inside the device, as the writes were when they were submitted. -/
def Within (s : System) : Prop := ∀ p ∈ s.submitted, p.1.dataDir = .read → ¬ s.disk.pastEnd p.1

instance : Decidable s.Within := inferInstanceAs (Decidable (∀ p ∈ s.submitted, _))

theorem Passes.leads (h : Passes k s now s' now') :
    (turns n speed).Leads punctual s now s' now' := by
  induction h with
  | none s now => exact .here
  | pass htask hrun _ ih => exact (Turns.Leads.one (Enters.processing htask) hrun).trans ih

theorem Within.pass (h : s.Within) (hrun : (s.processNext t).Runs punctual now (.ok s') now') :
    s'.Within := by
  rcases processNext_cases hrun with ⟨_, _, _, -, -, -, rfl⟩ | ⟨-, -, _, -, rfl⟩ | ⟨-, rfl⟩
  · exact h
  · exact h
  · show ∀ p ∈ s.submitted, p.1.dataDir = .read → ¬ s.disk.findNext.pastEnd p.1
    unfold Emudisk.findNext
    split <;> exact h

theorem Sound.pass_runs (h : Sound n speed s now) (hin : s.Within) (t : ℤ) :
    (∃ s' now', (s.processNext t).Runs punctual now (.ok s') now') ∧
      ∀ trap now', ¬ (s.processNext t).Runs punctual now (.error trap) now' := by
  obtain ⟨t', hnow, hpos⟩ : ∃ t', now ≤ t' ∧ 0 < t' := ⟨max now 1, le_max_left _ _, by omega⟩
  have hinside {i : ℕ} {req : Request} (hi : s.disk.nextResponseIndex t = some i)
      (hreq : (s.disk.channels i).request = some req) :
      ¬ (req.dataDir = .read ∧ s.disk.pastEnd req) := by
    obtain ⟨-, req', hreq', hpending⟩ := h.invariant.pending_of_next hi
    obtain rfl : req = req' := Option.some.inj (hreq.symm.trans hreq')
    exact not_and.mpr
      (hin _ (h.invariant.submitted.mem_iff.mpr (List.mem_append_left _ hpending)))
  constructor
  · cases hi : s.disk.nextResponseIndex t with
    | some i =>
      obtain ⟨-, req, hreq, -⟩ := h.invariant.pending_of_next hi
      refine ⟨{ s.complete i req t with task := .processing t' }, t', ?_⟩
      simp only [processNext, hi, hreq, if_neg (hinside hi hreq)]
      exact ⟨trivial, t', t', ⟨hnow, hpos, rfl⟩, rfl, rfl⟩
    | none =>
      by_cases htry : s.tryProcessNextWithoutSleep = true
      · refine ⟨{ s with tryProcessNextWithoutSleep := false, task := .processing t' }, t', ?_⟩
        simp only [processNext, hi, if_pos htry]
        exact ⟨trivial, t', t', ⟨hnow, hpos, rfl⟩, rfl, rfl⟩
      · refine ⟨({ s with disk := s.disk.findNext } : System).sleep, now, ?_⟩
        simp only [processNext, hi, if_neg htry]
        exact ⟨rfl, rfl⟩
  · intro trap now' hrun
    obtain ⟨i, hi, hnone | ⟨req, hreq, hread, hpast, -⟩⟩ := processNext_trap hrun
    · obtain ⟨-, req, hreq, -⟩ := h.invariant.pending_of_next hi
      exact nomatch hnone.symm.trans hreq
    · exact hinside hi hreq ⟨hread, hpast⟩

theorem Sound.processed (h : Sound n speed s now) (hrates : ExactRates speed)
    (htask : s.task = .processing t) (hin : s.Within) : ∃ k s' now', Passes k s now s' now' ∧
      s'.submitted = s.submitted ∧ s'.Within ∧ s'.LockFree ∧ ∀ p ∈ s'.disk.pending, t ≤ p.2 := by
  induction hr : s.rank using Nat.strong_induction_on generalizing s now t with
  | _ r ih =>
    obtain ⟨⟨s', now', hrun⟩, -⟩ := h.pass_runs hin t
    obtain ⟨hs', hsub, hstay, hleave⟩ := h.pass hrates htask hrun
    have hin' := hin.pass hrun
    by_cases hlock : s'.LockFree
    · exact ⟨1, s', now', .pass htask hrun (.none _ _), hsub, hin', hlock, hleave hlock⟩
    · obtain ⟨t', htask'⟩ := not_forall_not.mp hlock
      obtain ⟨hle, hlt⟩ := hstay t' htask'
      obtain ⟨k, s₂, now₂, hp, hsub₂, hin₂, hlock₂, hlater⟩ := ih _ (hr ▸ hlt) hs' htask' hin' rfl
      exact ⟨k + 1, s₂, now₂, .pass htask hrun hp, hsub₂.trans hsub, hin₂, hlock₂,
        fun p hp ↦ hle.trans (hlater p hp)⟩

/-- The clock may be read late enough for everything submitted. -/
theorem expired_leads (n speed : ℤ) (s : System) (now : ℤ) : ∃ t,
    (turns n speed).Leads punctual { s with task := .expired } now
      { s with task := .processing t } t ∧ ∀ p ∈ s.submitted, p.2 < t := by
  obtain ⟨b, hb⟩ : ∃ b, ∀ x ∈ s.submitted.map (·.2), x ≤ b :=
    ⟨(s.submitted.map (·.2)).foldr max 0, fun x hx ↦ List.le_max_of_le' 0 hx le_rfl⟩
  obtain ⟨t, ht⟩ : ∃ t, t = max (max now b) (max s.disk.nextResponseToReplyTime 0) + 1 := ⟨_, rfl⟩
  refine ⟨t, .one (.expired rfl) ⟨trivial, t, t, ⟨by omega, by omega, rfl⟩, ?_⟩, fun p hp ↦ ?_⟩
  · dsimp only [Program.bind]
    rw [if_neg (show ¬ s.disk.nextResponseToReplyTime > t by omega)]
    exact ⟨rfl, rfl⟩
  · have hle := hb p.2 (List.mem_map_of_mem hp)
    omega

theorem Sound.expires (h : Sound n speed s now) (hlock : s.LockFree)
    (hpending : s.disk.pending ≠ []) :
    ∃ now', (turns n speed).Leads punctual s now { s with task := .expired } now' := by
  have hflag : s.disk.nextResponseToReply = true := by
    obtain ⟨p, hp⟩ := List.exists_mem_of_ne_nil _ hpending
    obtain ⟨i, hi, hopen, -⟩ := Emudisk.mem_pending.mp hp
    exact (h.wakeful.deadline hlock).flag.mpr ⟨i, hi, hopen⟩
  have hsleeping {time : ℤ} {b : Bool}
      (hl : (turns n speed).Leads punctual s now { s with task := .sleepingUntil time b } now) :
      ∃ now', (turns n speed).Leads punctual s now { s with task := .expired } now' :=
    ⟨max now time, hl.turn (.timer rfl)
      ⟨trivial, (), max now time, ⟨le_max_left _ _, le_max_right _ _⟩, rfl, rfl⟩⟩
  have hasleep : s.sleep =
      { s with task := .sleepingUntil s.disk.nextResponseToReplyTime false } := by
    rw [System.sleep, hflag]
    rfl
  cases htask : s.task with
  | starting =>
    have hstart : (turns n speed).Leads punctual s now s.sleep now := .one (.start htask) ⟨rfl, rfl⟩
    rw [hasleep] at hstart
    exact hsleeping hstart
  | sleeping woken =>
    have hminds := h.wakeful.minds
    rw [htask] at hminds
    obtain rfl : true = woken := hflag.symm.trans hminds
    exact hsleeping (.one (.woken htask) ⟨rfl, rfl⟩)
  | sleepingUntil time woken =>
    have hhere : (turns n speed).Leads punctual s now
        { s with task := .sleepingUntil time woken } now := by
      rw [← htask]
      exact .here
    exact hsleeping hhere
  | expired =>
    refine ⟨now, ?_⟩
    rw [← htask]
    exact .here
  | processing t => exact absurd htask (hlock t)

/-- The task wakes up after its sleep, at a time after all that is on record. -/
theorem Sound.woken (h : Sound n speed s now) (hlock : s.LockFree)
    (hpending : s.disk.pending ≠ []) : ∃ s' t, (turns n speed).Leads punctual s now s' t ∧
      s'.submitted = s.submitted ∧ s'.disk = s.disk ∧ s'.task = .processing t ∧
        ∀ p ∈ s.submitted, p.2 < t := by
  obtain ⟨now', hexpires⟩ := h.expires hlock hpending
  obtain ⟨t, hread, hlate⟩ := expired_leads n speed s now'
  exact ⟨_, t, hexpires.trans hread, rfl, rfl, rfl, hlate⟩

theorem Sound.released (h : Sound n speed s now) (hn : 1 ≤ n) (hrates : ExactRates speed)
    (hlock : s.LockFree) (hpending : s.disk.pending = []) : ∃ s' now',
      (turns n speed).Leads punctual s now s' now' ∧ s'.submitted = s.submitted ∧
        s'.disk.pending = [] ∧ s'.completing = [] ∧ s'.queueStopped = false := by
  induction hr : s.completing.length generalizing s now with
  | zero =>
    have hnil := List.length_eq_zero_iff.mp hr
    refine ⟨s, now, .here, rfl, hpending, hnil, ?_⟩
    have hinflight := h.invariant.inflight
    have hchannels := h.invariant.diskChannels
    rw [hpending, hnil] at hinflight
    refine Bool.eq_false_iff.mpr fun hstop ↦ ?_
    have hfull := h.full hstop
    simp only [List.length_nil] at hinflight
    omega
  | succ k ih =>
    obtain ⟨req, hreq⟩ := List.exists_mem_of_length_pos (l := s.completing) (by omega)
    have hoff : s.Offers [] :=
      ⟨fun r hr ↦ absurd hr List.not_mem_nil, by simpa using h.invariant.tags⟩
    have hent : (turns n speed).enters s (s.softirqDone req []) := .softirqDone hlock hreq hoff
    have hlen : (s.completing.eraseP fun r ↦ r.tag = req.tag).length = k := by
      rw [List.length_eraseP_of_mem hreq (by simp), hr]
      rfl
    obtain ⟨t, hnow, hpos⟩ : ∃ t, now ≤ t ∧ 0 < t := ⟨max now 1, le_max_left _ _, by omega⟩
    let s' : System := { s with
      disk := { s.disk with requestInflight := s.disk.requestInflight - 1 }
      completing := s.completing.eraseP fun r ↦ r.tag = req.tag
      queueStopped := false }
    have hrun : ∃ now', (s.softirqDone req []).Runs punctual now (.ok s') now' := by
      unfold softirqDone
      dsimp only
      split
      · exact ⟨t, trivial, t, t, ⟨hnow, hpos, rfl⟩, rfl, rfl⟩
      · rename_i hstop
        refine ⟨now, ?_, rfl⟩
        rw [Bool.not_eq_true] at hstop
        rw [hstop]
    obtain ⟨now', hrun⟩ := hrun
    obtain ⟨s₂, now₂, hl, hrest⟩ := ih (s := s') (h.turn hrates hent hrun) hlock hpending hlen
    exact ⟨s₂, now₂, (Turns.Leads.one hent hrun).trans hl, hrest⟩

theorem Within.passes (h : s.Within) (hp : Passes k s now s' now') : s'.Within := by
  induction hp with
  | none => exact h
  | pass _ hrun _ ih => exact ih (h.pass hrun)

/-- The states a wake-up leads through: with the lock held the next pass is all that can happen, and
it does not fail; with the lock free everything that was due is completed. -/
structure WakesUp (t : ℤ) (s s' : System) (now' : ℤ) : Prop where
  submitted : s'.submitted = s.submitted
  alone : ∀ t', s'.task = .processing t' → ∀ p, Enters s' p → p = s'.processNext t'
  runs : ∀ t', s'.task = .processing t' →
    (∃ s'' now'', (s'.processNext t').Runs punctual now' (.ok s'') now'') ∧
      ∀ trap now'', ¬ (s'.processNext t').Runs punctual now' (.error trap) now''
  completes : s'.LockFree → ∀ p ∈ s.submitted, p.2 < t →
    ∃ c ∈ s'.completed, (c.req, c.completionTime) = p

/-- A wake-up of the processing task ends, as long as the reads are inside the device: after
`disk_channels + 2` passes at most it lets go of the lock, nothing else having run, and then every
request is completed that was due when it started. -/
theorem passes_end (hn : 1 ≤ n) (hrates : ExactRates speed)
    (h : (turns n speed).Reachable punctual s now) (htask : s.task = .processing t)
    (hin : s.Within) : (∃ k s' now', Passes k s now s' now' ∧ s'.LockFree) ∧
      ∀ k s' now', Passes k s now s' now' → (k : ℤ) ≤ n + 2 ∧ WakesUp t s s' now' := by
  have hs := reachable_sound hn hrates h
  constructor
  · obtain ⟨k, s', now', hp, -, -, hlock, -⟩ := hs.processed hrates htask hin
    exact ⟨k, s', now', hp, hlock⟩
  intro k s' now' hp
  obtain ⟨hs', hsub, hpasses⟩ := hp.sound hs hrates
  obtain ⟨hstay, hleave⟩ := hpasses t htask
  have hrank := hs.invariant.rank_le
  refine ⟨?_, hsub, fun t' ht' p hp' ↦ enters_processing ht' hp',
    fun t' _ ↦ hs'.pass_runs (hin.passes hp) t', fun hlock p hp' hlt ↦ ?_⟩
  · by_cases hlock : s'.LockFree
    · have hk := (hleave hlock).1
      omega
    · obtain ⟨t', ht'⟩ := not_forall_not.mp hlock
      have hk := (hstay t' ht').2
      omega
  · have hmem := hs'.invariant.submitted.mem_iff.mp (hsub ▸ hp')
    rcases List.mem_append.mp hmem with hpending | hdone
    · exact absurd ((hleave hlock).2 p hpending) (not_le.mpr hlt)
    · exact List.mem_map.mp hdone

theorem busy_two : ∃ r ∈ session 2 0 [.task, .strategy [sectorWrite 0 5, sectorRead 1 5], .task,
    .task, .task], r.1.task = .processing 3 ∧ r.1.queueStopped = true ∧
      r.1.submitted = [(sectorWrite 0 5, 1), (sectorRead 1 5, 2)] ∧ r.1.completed = [] ∧
        r.1.Within := by
  decide +kernel

theorem passes_end_two : ∃ k s now s' now', Passes k s now s' now' ∧ s.completed = [] ∧
    (k : ℤ) ≤ 4 ∧ s'.LockFree ∧
      ∀ p ∈ [(sectorWrite 0 5, 1), (sectorRead 1 5, 2)],
        ∃ c ∈ s'.completed, (c.req, c.completionTime) = p := by
  obtain ⟨⟨s, now⟩, hs, htask, -, hsub, hnone, hin⟩ := busy_two
  obtain ⟨⟨k, s', now', hp, hlock⟩, hall⟩ :=
    passes_end (by decide) exactRates_zero (session_reachable hs) htask hin
  obtain ⟨hk, hwakes⟩ := hall k s' now' hp
  refine ⟨k, s, now, s', now', hp, hnone, hk, hlock, fun p hp' ↦ ?_⟩
  refine hwakes.completes hlock p (hsub ▸ hp') ?_
  rcases List.mem_pair.mp hp' with rfl | rfl <;> decide

/-- Whatever state the driver has come to, it can still get rid of every request it was given: the
processing task is not asleep for good, and no queue stays stopped. -/
theorem drains (hn : 1 ≤ n) (hrates : ExactRates speed)
    (h : (turns n speed).Reachable punctual s now) (hin : s.Within) : ∃ s' now',
      (turns n speed).Leads punctual s now s' now' ∧ s'.submitted = s.submitted ∧
        s'.submitted.Perm (s'.completed.map fun c ↦ (c.req, c.completionTime)) ∧
        s'.completing = [] ∧ s'.disk.requestInflight = 0 ∧ s'.queueStopped = false := by
  have hs := reachable_sound hn hrates h
  -- first the task finishes what it is at
  obtain ⟨s₁, now₁, hl₁, hsub₁, hin₁, hlock₁⟩ : ∃ s₁ now₁,
      (turns n speed).Leads punctual s now s₁ now₁ ∧ s₁.submitted = s.submitted ∧ s₁.Within ∧
        s₁.LockFree := by
    by_cases hlock : s.LockFree
    · exact ⟨s, now, .here, rfl, hin, hlock⟩
    · obtain ⟨t, htask⟩ := not_forall_not.mp hlock
      obtain ⟨k, s₁, now₁, hp, hsub, hin₁, hlock₁, -⟩ := hs.processed hrates htask hin
      exact ⟨s₁, now₁, hp.leads, hsub, hin₁, hlock₁⟩
  have hs₁ := hs.leads hrates hl₁
  -- then it wakes up once more, late enough for all requests
  obtain ⟨s₂, now₂, hl₂, hsub₂, hlock₂, hpending₂⟩ : ∃ s₂ now₂,
      (turns n speed).Leads punctual s₁ now₁ s₂ now₂ ∧ s₂.submitted = s₁.submitted ∧ s₂.LockFree ∧
        s₂.disk.pending = [] := by
    by_cases hpending : s₁.disk.pending = []
    · exact ⟨s₁, now₁, .here, rfl, hlock₁, hpending⟩
    obtain ⟨s', t, hl', hsub', hdisk, htask, hdue⟩ := hs₁.woken hlock₁ hpending
    have hs' := hs₁.leads hrates hl'
    have hin' : s'.Within := by
      rw [Within, hsub', hdisk]
      exact hin₁
    obtain ⟨k, s₂, now₂, hp₂, hsub₂, -, hlock₂, hlater⟩ := hs'.processed hrates htask hin'
    refine ⟨s₂, now₂, hl'.trans hp₂.leads, hsub₂.trans hsub', hlock₂,
      List.eq_nil_iff_forall_not_mem.mpr fun p hp ↦ ?_⟩
    have hmem :=
      (hp₂.sound hs' hrates).1.invariant.submitted.mem_iff.mpr (List.mem_append_left _ hp)
    rw [hsub₂, hsub'] at hmem
    exact absurd (hlater p hp) (not_le.mpr (hdue p hmem))
  have hs₂ := hs₁.leads hrates hl₂
  obtain ⟨s₃, now₃, hl₃, hsub₃, hpending₃, hcompleting, hstop⟩ :=
    hs₂.released hn hrates hlock₂ hpending₂
  have hi := (hs₂.leads hrates hl₃).invariant
  have hsubmitted := hi.submitted
  have hinflight := hi.inflight
  rw [hpending₃] at hsubmitted hinflight
  rw [hcompleting] at hinflight
  exact ⟨s₃, now₃, (hl₁.trans hl₂).trans hl₃, hsub₃.trans (hsub₂.trans hsub₁), hsubmitted,
    hcompleting, hinflight, hstop⟩

theorem drains_two : ∃ s now s' now', (turns 2 0).Reachable punctual s now ∧
    s.queueStopped = true ∧ s.completed = [] ∧ (turns 2 0).Leads punctual s now s' now' ∧
      s'.completed.length = 2 ∧ s'.queueStopped = false := by
  obtain ⟨⟨s, now⟩, hs, -, hstopped, hsub, hnone, hin⟩ := busy_two
  obtain ⟨s', now', hl, hsub', hperm, -, -, hstop⟩ :=
    drains (by decide) exactRates_zero (session_reachable hs) hin
  have hlength := hperm.length_eq
  rw [hsub', hsub, List.length_map] at hlength
  exact ⟨s, now, s', now', session_reachable hs, hstopped, hnone, hl, hlength.symm, hstop⟩

/-- The queue is stopped exactly while every channel has a request in flight. -/
theorem stopped_iff_full (hn : 1 ≤ n) (hrates : ExactRates speed)
    (h : (turns n speed).Reachable punctual s now) :
    s.queueStopped = true ↔ s.disk.requestInflight = s.disk.diskChannels := by
  have hs := reachable_sound hn hrates h
  have hchannels := hs.invariant.diskChannels
  constructor
  · intro hstop
    exact le_antisymm (hchannels ▸ hs.invariant.bounded) (hs.full hstop)
  · intro hfull
    by_contra hrun
    have hlt := hs.invariant.running (Bool.eq_false_iff.mpr hrun)
    omega

theorem stopped_iff_full_two : ∃ s now, (turns 2 0).Reachable punctual s now ∧
    s.queueStopped = true ∧ s.disk.requestInflight = s.disk.diskChannels := by
  obtain ⟨⟨s, now⟩, hs, -, hstopped, -⟩ := busy_two
  exact ⟨s, now, session_reachable hs, hstopped,
    (stopped_iff_full (by decide) exactRates_zero (session_reachable hs)).mp hstopped⟩

end System

end Nctusde.Ramdisk

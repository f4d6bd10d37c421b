import Nctusde.Ramdisk.Progress

namespace Nctusde.Ramdisk

open BlockLayer Library Library.Program Wire

namespace System

variable {n speed now now' t c : ℤ} {s s' : System} {k N : ℕ} {p : Request × ℤ}

theorem runs_later {α : Type} {p : Prog α} {r : Except Trap α} (h : p.Runs punctual now r now') :
    now ≤ now' := by
  induction p generalizing now with
  | pure a => exact h.2.ge
  | fail e => exact h.2.ge
  | call o k ih =>
    obtain ⟨-, a, now₁, hans, hrun⟩ := h
    have hle : now ≤ now₁ := by
      cases o with
      | ktimeGet => exact hans.1.trans hans.2.2.ge
      | hrtimerExpired time => exact hans.1
    exact hle.trans (ih a hrun)

structure Grows (s s' : System) : Prop where
  submitted : s.submitted <+: s'.submitted
  completed : s.completed <+: s'.completed

theorem Grows.refl (s : System) : Grows s s := ⟨List.prefix_rfl, List.prefix_rfl⟩

theorem Grows.trans {s'' : System} (h : Grows s s') (h' : Grows s' s'') : Grows s s'' :=
  ⟨h.submitted.trans h'.submitted, h.completed.trans h'.completed⟩

theorem grows_strategyLoop (wake : Bool) (queue : List Request) :
    (s.strategyLoop wake queue).wp punctual.contract (fun _ ↦ True)
      (fun r _ ↦ Grows s r.1) now := by
  induction queue generalizing s now wake with
  | nil => exact fun _ ↦ ⟨trivial, fun _ _ _ ↦ .refl s⟩
  | cons req queue ih =>
    refine fun _ ↦ ⟨trivial, fun t now' _ ↦ ?_⟩
    dsimp only [Program.bind]
    split
    · trivial
    rw [Program.bind_eq, Program.wp_bind]
    rcases s.disk.submit t req with trap | ⟨d, c, w⟩
    · trivial
    have hgrows : Grows s { s with disk := d, submitted := s.submitted ++ [(req, c)] } :=
      ⟨List.prefix_append _ _, List.prefix_rfl⟩
    dsimp only [record, Program.wp]
    split
    · exact ⟨hgrows.submitted, hgrows.completed⟩
    · exact Program.wp_mono (fun r _ hr ↦ hgrows.trans hr) (ih _)

theorem grows_strategy (queue : List Request) :
    (s.strategy queue).wp punctual.contract (fun _ ↦ True) (fun s' _ ↦ Grows s s') now := by
  rw [strategy, Program.bind_eq, Program.wp_bind]
  refine Program.wp_mono (fun r _ hr ↦ ?_) (grows_strategyLoop false queue)
  dsimp only
  split
  · exact ⟨hr.submitted, hr.completed⟩
  · exact hr

theorem grows_turn {p : Prog System} (hp : Enters s p) :
    p.wp punctual.contract (fun _ ↦ True) (fun s' _ ↦ Grows s s') now := by
  cases hp with
  | strategy _ _ _ => exact grows_strategy _
  | softirqDone _ _ _ =>
    unfold softirqDone
    dsimp only
    split
    · exact Program.wp_mono (fun _ _ h ↦ ⟨h.submitted, h.completed⟩) (grows_strategy _)
    · exact ⟨List.prefix_rfl, List.prefix_rfl⟩
  | start _ => exact ⟨List.prefix_rfl, List.prefix_rfl⟩
  | woken _ => exact ⟨List.prefix_rfl, List.prefix_rfl⟩
  | interrupted _ => exact ⟨List.prefix_rfl, List.prefix_rfl⟩
  | timer _ => exact fun _ ↦ ⟨trivial, fun _ _ _ ↦ ⟨List.prefix_rfl, List.prefix_rfl⟩⟩
  | expired _ =>
    refine fun _ ↦ ⟨trivial, fun t now' _ ↦ ?_⟩
    dsimp only [Program.bind]
    split
    · trivial
    · exact ⟨List.prefix_rfl, List.prefix_rfl⟩
  | processing _ =>
    unfold processNext
    split
    · split
      · trivial
      split
      · trivial
      exact fun _ ↦ ⟨trivial, fun _ _ _ ↦ ⟨List.prefix_rfl, List.prefix_append _ _⟩⟩
    · split
      · exact fun _ ↦ ⟨trivial, fun _ _ _ ↦ ⟨List.prefix_rfl, List.prefix_rfl⟩⟩
      · exact ⟨List.prefix_rfl, List.prefix_rfl⟩

structure Overdue (c : ℤ) (d : Emudisk) : Prop where
  timesFit : d.TimesFit
  deadline : d.Deadline
  flag : d.nextResponseToReply = true
  time : d.nextResponseToReplyTime ≤ c

/-- A request submitted after a response is due does not become the next one. -/
theorem Overdue.submit {d d' : Emudisk} {req : Request} {c' : ℤ} {wake : Bool} (h : Overdue c d)
    (hlater : c < c') (hc : 0 ≤ c') (hok : d.submit t req = .ok (d', c', wake)) :
    wake = false ∧ Overdue c d' := by
  obtain ⟨i, d₁, ha, rfl, rfl⟩ := Emudisk.submitSized_announces hok
  obtain ⟨hd, hm⟩ := ha.announce h.timesFit h.deadline hc
  have hopen := Emudisk.announce_openTimes d₁ c'
  have hfit : (d₁.announce c').1.TimesFit := by
    intro x hx
    rw [hopen] at hx
    exact ha.timesFit h.timesFit hc x hx
  generalize (d₁.announce c').2 = wake at hm
  cases hm with
  | moved hflag hlt =>
    have hbefore := hlt h.flag
    have hmem := (hd.time hflag).1
    rw [hopen, ha.mem_openTimes] at hmem
    rcases hmem with heq | hold
    · have htime := h.time
      omega
    · exact absurd ((h.deadline.time h.flag).2 hold) (not_le.mpr hbefore)
  | kept hflag htime =>
    exact ⟨rfl, hfit, ⟨hd.flag, hd.time⟩, hflag.trans h.flag, htime.trans_le h.time⟩

theorem Overdue.strategyLoop (h : Overdue c s.disk) (hrates : ExactRates s.disk.speedFactor)
    (hlate : c < now) (queue : List Request) :
    (s.strategyLoop false queue).wp punctual.contract (fun _ ↦ True)
      (fun r _ ↦ r.2 = false ∧ r.1.task = s.task) now := by
  induction queue generalizing s now with
  | nil => exact fun _ ↦ ⟨trivial, fun _ _ _ ↦ ⟨rfl, rfl⟩⟩
  | cons req queue ih =>
    refine fun _ ↦ ⟨trivial, fun t now' ht ↦ ?_⟩
    obtain ⟨hle, hpos, rfl⟩ := ht
    dsimp only [Program.bind]
    split
    · trivial
    rw [Program.bind_eq, Program.wp_bind]
    generalize hsub : s.disk.submit now' req = result
    rcases result with trap | ⟨d, c', wake⟩
    · trivial
    obtain ⟨_, k, hk, -, hc, -, hch, -⟩ := Emudisk.submit_ok hsub
    have hresponse := (s.disk.responseTime_eq hrates (s.disk.isSequentialRequest req) req.dataDir
      (UdpServer.requestSizeIndex_lt hk)).1
    obtain ⟨rfl, h'⟩ := h.submit (by omega) (by omega) hsub
    dsimp only [record, Program.wp]
    split
    · exact ⟨rfl, rfl⟩
    · exact ih (s := { s with disk := d, submitted := s.submitted ++ [(req, c')] }) h'
        (hch.speedFactor.symm ▸ hrates) (hlate.trans_le hle)

theorem Overdue.strategy (h : Overdue c s.disk) (hrates : ExactRates s.disk.speedFactor)
    (hlate : c < now) (queue : List Request) :
    (s.strategy queue).wp punctual.contract (fun _ ↦ True) (fun s' _ ↦ s'.task = s.task) now := by
  rw [System.strategy, Program.bind_eq, Program.wp_bind]
  refine Program.wp_mono (fun r _ hr ↦ ?_) (h.strategyLoop hrates hlate queue)
  dsimp only
  rw [hr.1]
  exact hr.2

def Done (p : Request × ℤ) (s : System) : Prop :=
  ∃ x ∈ s.completed, (x.req, x.completionTime) = p

theorem Grows.done (h : Grows s s') (hd : s.Done p) : s'.Done p := by
  obtain ⟨x, hx, heq⟩ := hd
  exact ⟨x, h.completed.subset hx, heq⟩

structure Waits (n speed : ℤ) (p : Request × ℤ) (s : System) (now : ℤ) : Prop where
  sound : Sound n speed s now
  pending : p ∈ s.disk.pending
  late : p.2 < now

theorem Waits.overdue (h : Waits n speed p s now) (hlock : s.LockFree) : Overdue p.2 s.disk := by
  obtain ⟨i, hi, hopen, -, htime⟩ := Emudisk.mem_pending.mp h.pending
  have hd := h.sound.wakeful.deadline hlock
  have hflag := hd.flag.mpr ⟨i, hi, hopen⟩
  exact ⟨h.sound.wakeful.timesFit, hd, hflag, (hd.time hflag).2 ⟨i, hi, hopen, htime⟩⟩

theorem Waits.rank_pos (h : Waits n speed p s now) : 0 < s.rank := by
  have hpos := List.length_pos_of_mem h.pending
  rw [rank]
  omega

/-- The turns that the processing task has left before the request is completed, at most. -/
def turnsLeft (n : ℕ) (p : Request × ℤ) (s : System) : ℕ :=
  match s.task with
  | .starting | .sleeping _ => n + 4
  | .sleepingUntil _ woken => n + 3 + woken.toNat
  | .expired => n + 2
  | .processing t => if p.2 < t then s.rank else n + 4

theorem Waits.turnsLeft_le {n : ℕ} (h : Waits n speed p s now) : s.turnsLeft n p ≤ n + 4 := by
  have hrank := h.sound.invariant.rank_le
  unfold turnsLeft
  split
  · omega
  · omega
  · rename_i woken _
    have hwoken := Bool.toNat_le woken
    omega
  · omega
  · split
    · omega
    · omega

theorem Waits.turnsLeft_pos {n : ℕ} (h : Waits n speed p s now) : 0 < s.turnsLeft n p := by
  have hrank := h.rank_pos
  unfold turnsLeft
  split
  · omega
  · omega
  · omega
  · omega
  · split
    · omega
    · omega

theorem Waits.turn (h : Waits n speed p s now) (hrates : ExactRates speed) {q : Prog System}
    (hq : Enters s q) (hrun : q.Runs punctual now (.ok s') now') :
    s'.Done p ∨ Waits n speed p s' now' := by
  have hsound := h.sound.turn hrates hq hrun
  obtain ⟨_, rfl, hgrows⟩ := (wp_runs (keeps_contract punctual) rfl (grows_turn hq) hrun).1 s' rfl
  have hsub := hgrows.submitted.subset
    (h.sound.invariant.submitted.mem_iff.mpr (List.mem_append_left _ h.pending))
  rcases List.mem_append.mp (hsound.invariant.submitted.mem_iff.mp hsub) with hp | hdone
  · exact .inr ⟨hsound, hp, h.late.trans_le (runs_later hrun)⟩
  · exact .inl (List.mem_map.mp hdone)

theorem Waits.sleep (h : Waits n speed p s now) (hlock : s.LockFree) :
    s.sleep.task = .sleepingUntil s.disk.nextResponseToReplyTime false := by
  rw [System.sleep, (h.overdue hlock).flag]
  rfl

theorem Waits.strategy_task (h : Waits n speed p s now) (hrates : ExactRates speed)
    (hlock : s.LockFree) {queue : List Request} {inflight : ℤ} {b : Bool}
    {completing : List Request}
    (hrun : (({ s with
      disk := { s.disk with requestInflight := inflight }
      queueStopped := b
      completing := completing } : System).strategy queue).Runs punctual now (.ok s') now') :
    s'.task = s.task := by
  have hover := h.overdue hlock
  have hspeed : s.disk.speedFactor = speed := h.sound.invariant.speedFactor
  obtain ⟨_, -, htask⟩ := (wp_runs (keeps_contract punctual) rfl
    (Overdue.strategy (s := { s with
      disk := { s.disk with requestInflight := inflight }
      queueStopped := b
      completing := completing }) ⟨hover.timesFit, ⟨hover.deadline.flag, hover.deadline.time⟩,
      hover.flag, hover.time⟩ (hspeed ▸ hrates) h.late queue) hrun).1 s' rfl
  exact htask

theorem turnsLeft_same {n : ℕ} (htask : s'.task = s.task) (hlock : s.LockFree) :
    s'.turnsLeft n p = s.turnsLeft n p := by
  unfold turnsLeft
  rw [htask]
  cases h : s.task with
  | processing t => exact absurd h (hlock t)
  | starting => rfl
  | sleeping woken => rfl
  | sleepingUntil time woken => rfl
  | expired => rfl

/-- A pass of the processing task brings it nearer to the request, or back to sleep if it had read
the clock too early. -/
theorem Waits.pass {n : ℕ} (h : Waits n speed p s now) (hrates : ExactRates speed)
    (htask : s.task = .processing t) (hrun : (s.processNext t).Runs punctual now (.ok s') now')
    (h' : Waits n speed p s' now') : s'.turnsLeft n p < s.turnsLeft n p := by
  obtain ⟨-, -, hstay, hleave⟩ := h.sound.pass hrates htask hrun
  have hbound : (s'.rank : ℤ) ≤ n + 1 := h'.sound.invariant.rank_le
  have hsleep (hlock : s'.LockFree) (hs' : ∃ s₁ : System, s' = s₁.sleep) :
      s'.turnsLeft n p = n + 3 := by
    obtain ⟨s₁, rfl⟩ := hs'
    have hflag : s₁.disk.nextResponseToReply = true := (h'.overdue hlock).flag
    unfold turnsLeft
    rw [System.sleep, hflag]
    rfl
  have hleft : s.turnsLeft n p = if p.2 < t then s.rank else n + 4 := by
    unfold turnsLeft
    rw [htask]
  have hkeep (t' : ℤ) (ht : s'.task = .processing t') (hle : now ≤ t') :
      s'.turnsLeft n p < if p.2 < t then s.rank else n + 4 := by
    obtain ⟨-, hlt⟩ := hstay t' ht
    have hnew : s'.turnsLeft n p = s'.rank := by
      unfold turnsLeft
      rw [ht]
      exact if_pos (h.late.trans_le hle)
    rw [hnew]
    split
    · exact hlt
    · omega
  rw [hleft]
  rcases processNext_cases hrun with
    ⟨i, req, t', -, -, ⟨hle, -⟩, rfl⟩ | ⟨-, -, t', ⟨hle, -⟩, rfl⟩ | ⟨-, rfl⟩
  · exact hkeep t' rfl hle
  · exact hkeep t' rfl hle
  · rw [hsleep (fun t' ↦ sleep_ne_processing _ t') ⟨_, rfl⟩]
    split
    · rename_i hdue
      exact absurd (hleave (fun t' ↦ sleep_ne_processing _ t') p h'.pending) (not_le.mpr hdue)
    · omega

theorem Waits.attended {n : ℕ} (h : Waits n speed p s now) (hrates : ExactRates speed)
    {q : Prog System} (hq : Attends s q) (hrun : q.Runs punctual now (.ok s') now')
    (h' : Waits n speed p s' now') : s'.turnsLeft n p < s.turnsLeft n p := by
  have hleft (task : Task) (htask : s.task = task) :
      s.turnsLeft n p = turnsLeft n p { s with task := task } := by
    rw [← htask]
  cases hq with
  | start htask =>
    obtain rfl := Except.ok.inj hrun.1
    rw [hleft _ htask, turnsLeft, h.sleep fun t ht ↦ Task.noConfusion (htask.symm.trans ht)]
    exact Nat.lt_succ_self _
  | woken htask =>
    obtain rfl := Except.ok.inj hrun.1
    rw [hleft _ htask]
    exact Nat.lt_succ_self _
  | interrupted htask =>
    obtain rfl := Except.ok.inj hrun.1
    rw [hleft _ htask]
    exact Nat.lt_succ_self _
  | timer htask =>
    obtain ⟨-, _, _, -, hs, -⟩ := hrun
    obtain rfl := Except.ok.inj hs
    rw [hleft _ htask]
    show n + 2 < n + 3 + _
    omega
  | expired htask =>
    obtain ⟨-, t, now₁, ⟨hle, -, -⟩, hrun⟩ := hrun
    dsimp only [Program.bind] at hrun
    split at hrun
    · exact nomatch hrun.1
    · obtain rfl := Except.ok.inj hrun.1
      have hrank := h'.sound.invariant.rank_le
      have hnew : turnsLeft n p { s with task := .processing t } =
          rank { s with task := .processing t } := if_pos (h.late.trans_le hle)
      rw [hleft _ htask, hnew]
      show rank _ < n + 2
      omega
  | processing htask => exact h.pass hrates htask hrun h'

theorem Waits.nearer {n : ℕ} (h : Waits n speed p s now) (hrates : ExactRates speed)
    {q : Prog System} (hq : Enters s q) (hrun : q.Runs punctual now (.ok s') now') :
    s'.Done p ∨ Waits n speed p s' now' ∧ s'.turnsLeft n p ≤ s.turnsLeft n p ∧
      (Attends s q → s'.turnsLeft n p < s.turnsLeft n p) := by
  rcases h.turn hrates hq hrun with hdone | h'
  · exact .inl hdone
  refine .inr ⟨h', ?_, fun hatt ↦ h.attended hrates hatt hrun h'⟩
  cases hq with
  | strategy hlock _ _ => exact (turnsLeft_same (h.strategy_task hrates hlock hrun) hlock).le
  | softirqDone hlock _ _ =>
    unfold softirqDone at hrun
    dsimp only at hrun
    split at hrun
    · exact (turnsLeft_same (h.strategy_task hrates hlock hrun) hlock).le
    · obtain rfl := Except.ok.inj hrun.1
      exact (turnsLeft_same rfl hlock).le
  | start htask => exact (h.attended hrates (.start htask) hrun h').le
  | woken htask => exact (h.attended hrates (.woken htask) hrun h').le
  | interrupted htask => exact (h.attended hrates (.interrupted htask) hrun h').le
  | timer htask => exact (h.attended hrates (.timer htask) hrun h').le
  | expired htask => exact (h.attended hrates (.expired htask) hrun h').le
  | processing htask => exact (h.attended hrates (.processing htask) hrun h').le

theorem grows_run {q : Prog System} (hq : Enters s q) (hrun : q.Runs punctual now (.ok s') now') :
    Grows s s' := by
  obtain ⟨_, -, hgrows⟩ := (wp_runs (keeps_contract punctual) rfl (grows_turn hq) hrun).1 s' rfl
  exact hgrows

theorem grows_leads (h : (turns n speed).Leads punctual s now s' now') : Grows s s' :=
  h.keeps (I := fun s₁ _ ↦ Grows s s₁) (fun _ _ _ _ _ hs hq hrun ↦ hs.trans (grows_run hq hrun))
    (.refl s)

theorem Waits.busy (h : Waits n speed p s now) : ∃ q, Enters s q ∧ Attends s q := by
  cases htask : s.task with
  | starting => exact ⟨_, .start htask, .start htask⟩
  | sleeping woken =>
    have hlock : s.LockFree := fun t ht ↦ Task.noConfusion (htask.symm.trans ht)
    have hminds := h.sound.wakeful.minds
    rw [htask] at hminds
    obtain rfl : woken = true := hminds.symm.trans (h.overdue hlock).flag
    exact ⟨_, .woken htask, .woken htask⟩
  | sleepingUntil time woken => exact ⟨_, .timer htask, .timer htask⟩
  | expired => exact ⟨_, .expired htask, .expired htask⟩
  | processing t => exact ⟨_, .processing htask, .processing htask⟩

theorem Sound.attends_runs (h : Sound n speed s now) (hin : s.Within) {q : Prog System}
    (hq : Attends s q) : (∃ s' now', q.Runs punctual now (.ok s') now') ∧
      ∀ trap now', ¬ q.Runs punctual now (.error trap) now' := by
  cases hq with
  | start _ => exact ⟨⟨_, now, rfl, rfl⟩, fun _ _ hrun ↦ nomatch hrun.1⟩
  | woken _ => exact ⟨⟨_, now, rfl, rfl⟩, fun _ _ hrun ↦ nomatch hrun.1⟩
  | interrupted _ => exact ⟨⟨_, now, rfl, rfl⟩, fun _ _ hrun ↦ nomatch hrun.1⟩
  | @timer time _ _ =>
    refine ⟨⟨_, max now time, trivial, (), max now time, ⟨le_max_left _ _, le_max_right _ _⟩, rfl,
      rfl⟩, fun _ _ hrun ↦ ?_⟩
    obtain ⟨-, _, _, -, hs, -⟩ := hrun
    exact nomatch hs
  | expired htask =>
    have hminds := h.wakeful.minds
    rw [htask] at hminds
    have hdue {t : ℤ} (hle : now ≤ t) : ¬ s.disk.nextResponseToReplyTime > t :=
      not_lt.mpr (hminds.2.trans hle)
    refine ⟨⟨{ s with task := .processing (max now 1) }, max now 1, trivial, (max now 1 : ℤ),
      max now 1, ⟨le_max_left _ _, by omega, rfl⟩, ?_⟩, fun _ _ hrun ↦ ?_⟩
    · dsimp only [Program.bind]
      rw [if_neg (hdue (le_max_left _ _))]
      exact ⟨rfl, rfl⟩
    · obtain ⟨-, t, _, ⟨hle, -, -⟩, hrun⟩ := hrun
      dsimp only [Program.bind] at hrun
      rw [if_neg (hdue hle)] at hrun
      exact nomatch hrun.1
  | processing _ => exact h.pass_runs hin _

/-- No request starves: once its time is past, the processing task has turns to take until it is
completed, none of which fails as long as the reads are inside the device, and the request is
completed in the `disk_channels + 4`th of them at the latest, whatever other contexts do in
between. -/
theorem completed_within {n : ℕ} (hn : 1 ≤ n) (hrates : ExactRates speed)
    (h : (turns n speed).Reachable punctual s now) (hp : p ∈ s.submitted) (hlate : p.2 < now)
    (hc : (turns n speed).Counted punctual Attends s now k s' now') (hin : s'.Within) :
    (∃ c ∈ s'.completed, (c.req, c.completionTime) = p) ∨
      k < n + 4 ∧ (∃ q, Enters s' q ∧ Attends s' q) ∧
        ∀ q, Attends s' q → (∃ s'' now'', q.Runs punctual now' (.ok s'') now'') ∧
          ∀ trap now'', ¬ q.Runs punctual now' (.error trap) now'' := by
  have hs := reachable_sound (by omega) hrates h
  rcases List.mem_append.mp (hs.invariant.submitted.mem_iff.mp hp) with hpending | hdone
  · have hw : Waits n speed p s now := ⟨hs, hpending, hlate⟩
    have hturn (s : System) (now : ℤ) (q : Prog System) (s' : System) (now' : ℤ)
        (hw : Waits n speed p s now) (hq : Enters s q) (hrun : q.Runs punctual now (.ok s') now') :=
      hw.nearer hrates hq hrun
    have hgoal (s : System) (now : ℤ) (q : Prog System) (s' : System) (now' : ℤ)
        (hd : s.Done p) (hq : Enters s q) (hrun : q.Runs punctual now (.ok s') now') :=
      (grows_run hq hrun).done hd
    rcases hc.response hturn hgoal hw with hdone | ⟨hw', hle⟩
    · exact .inl hdone
    · have hpos : 0 < s'.turnsLeft n p := hw'.turnsLeft_pos
      have hmost : s.turnsLeft n p ≤ n + 4 := hw.turnsLeft_le
      exact .inr ⟨by omega, hw'.busy, fun q hq ↦ hw'.sound.attends_runs hin hq⟩
  · exact .inl ((grows_leads hc.leads).done (List.mem_map.mp hdone))

theorem continued_counted {cues : List Cue} (h : continued cues (s, now) = some (s', now')) :
    (turns n speed).Counted punctual Attends s now (cues.countP Cue.isTask) s' now' := by
  have hmine (s : System) (c : Cue) (q : Prog System) (hq : s.cued c = some q)
      (hc : c.isTask = true) : Attends s q := cued_attends hq hc
  have hcounted := Turns.play_counted (T := turns n speed) (fun _ _ _ ↦ cued_enters) hmine
    plays_punctual .here h
  rwa [Nat.zero_add] at hcounted

/-- The request is due while another one is submitted, and while the task wakes up. -/
theorem completed_within_three : ∃ s now s' now', (turns 3 0).Reachable punctual s now ∧
    (sectorWrite 0 5, 1) ∈ s.submitted ∧ 1 < now ∧
      (turns 3 0).Counted punctual Attends s now 3 s' now' ∧ s'.submitted.length = 3 ∧
        s'.completed = [] ∧ 3 < 3 + 4 ∧ (∃ q, Enters s' q ∧ Attends s' q) ∧
          ∀ q, Attends s' q → ∀ trap now'', ¬ q.Runs punctual now' (.error trap) now'' := by
  obtain ⟨⟨s, now⟩, hs, hmem, hlate, ⟨s', now'⟩, hs', hlength, hnone, hin⟩ :
      ∃ r ∈ session 3 0 [.task, .strategy [sectorWrite 0 5, sectorRead 1 5]],
        (sectorWrite 0 5, 1) ∈ r.1.submitted ∧ 1 < r.2 ∧
          ∃ r' ∈ continued [.task, .strategy [sectorRead 2 8], .task, .task] r,
            r'.1.submitted.length = 3 ∧ r'.1.completed = [] ∧ r'.1.Within := by
    decide +kernel
  have hc : (turns 3 0).Counted punctual Attends s now 3 s' now' := continued_counted hs'
  rcases completed_within (n := 3) (by decide) exactRates_zero (session_reachable hs) hmem hlate hc
    hin with ⟨c, hc, -⟩ | ⟨hk, hbusy, hruns⟩
  · rw [hnone] at hc
    exact absurd hc List.not_mem_nil
  · exact ⟨s, now, s', now', session_reachable hs, hmem, hlate, hc, hlength, hnone, hk, hbusy,
      fun q hq ↦ (hruns q hq).2⟩

end System

end Nctusde.Ramdisk

import Nctusde.EmulatorKernel.CatchUp
import Nctusde.EmulatorKernel.Queue
import Nctusde.EmulatorKernel.Sectors

namespace Nctusde.EmulatorKernel

open BlockLayer Library Library.Program Library.Table Network UdpServer Wire

variable {n speed k : ℕ} {top B : ℤ} {s s' : System} {w w' : World}

/-- There are readings of the clock and message ids left for `k` more passes of the processing
task. -/
structure Room (B : ℤ) (k : ℕ) (s : System) (w : World) : Prop where
  now : w.now ≤ B
  passed : w.passed ≤ B
  given : ∀ p ∈ w.given, p.2 ≤ B
  clock : B + 2 * k + 1 ≤ LONG_MAX
  nonzero : s.disk.udpSendReplyId ≠ 0
  ids : s.disk.udpSendReplyId.toNat + k < 2 ^ 32

theorem Invariant.num_ne_zero (h : Invariant n top s w) (htop : top < LONG_MAX)
    (hpending : s.disk.pending ≠ []) : s.disk.nextResponseToReplyNum ≠ 0 := by
  intro hzero
  obtain ⟨p, hp⟩ := List.exists_mem_of_ne_nil _ hpending
  have hun := h.books.mem_unreplied.mpr (List.mem_map_of_mem hp)
  rw [(h.nextBatch htop).num.mp hzero] at hun
  exact List.not_mem_nil hun

theorem Room.time (h : Room B k s w) (hi : Invariant n top s w) (htop : top < LONG_MAX)
    (hnum : s.disk.nextResponseToReplyNum ≠ 0) : s.disk.nextResponseToReplyTime ≤ B :=
  h.given _ ((hi.nextBatch htop).time 0 (Nat.pos_of_ne_zero hnum))

theorem Invariant.leads (h : Invariant n top s w) (hn : n ≤ MAX_DISK_REQUESTS_IN_PARALLEL)
    (htop : top ≤ LONG_MAX) (hl : (turns System.Usual n speed).Leads (reliable top) s w s' w') :
    Invariant n top s' w' := by
  refine hl.keeps (fun s w p s' w' hi hent hrun ↦ ?_) h
  obtain ⟨_, rfl, hi'⟩ := (wp_runs (keeps_reliable top) rfl
    (hi.turn (E := fun _ ↦ True) hn htop hent) hrun).1 _ rfl
  exact hi'

theorem Room.awake (speed : ℕ) (h : Room B k s w) (hi : Invariant n top s w) (htop : top < LONG_MAX)
    (hnum : s.disk.nextResponseToReplyNum ≠ 0) : ∃ task w',
      (turns System.Usual n speed).Leads (reliable top) s w { s with task := task } w' ∧
        (task = .expired ∨ task = .processing) ∧ Room B k { s with task := task } w' := by
  have htime := h.time hi htop hnum
  have hminds := hi.minds
  have hasleep : s.sleep =
      { s with task := .sleepingUntil s.disk.nextResponseToReplyTime false } := by
    rw [System.sleep, if_neg hnum]
  have htimer (b : Bool) (hl : (turns System.Usual n speed).Leads (reliable top) s w
      { s with task := .sleepingUntil s.disk.nextResponseToReplyTime b } w) : ∃ task w',
      (turns System.Usual n speed).Leads (reliable top) s w { s with task := task } w' ∧
        (task = .expired ∨ task = .processing) ∧ Room B k { s with task := task } w' :=
    ⟨.expired, { w with passed := max w.passed s.disk.nextResponseToReplyTime },
      hl.turn (System.Enters.timer rfl) ⟨trivial, (), _, rfl, rfl, rfl⟩, .inl rfl,
      ⟨h.now, max_le h.passed htime, h.given, h.clock, h.nonzero, h.ids⟩⟩
  cases htask : s.task with
  | starting =>
    have hstart : (turns System.Usual n speed).Leads (reliable top) s w s.sleep w :=
      .one (.start htask) ⟨rfl, rfl⟩
    exact htimer false (hasleep ▸ hstart)
  | sleeping woken =>
    rw [htask] at hminds
    obtain rfl : woken = true := hminds.mp hnum
    exact htimer false (.one (.woken htask) ⟨rfl, rfl⟩)
  | sleepingUntil time woken =>
    rw [htask] at hminds
    cases woken with
    | true => exact htimer false (.one (.interrupted htask) ⟨rfl, rfl⟩)
    | false =>
      refine htimer false ?_
      rw [← hminds.2 rfl, ← htask]
      exact .here
  | expired =>
    refine ⟨.expired, w, ?_, .inl rfl, { h with }⟩
    rw [← htask]
    exact .here
  | processing =>
    refine ⟨.processing, w, ?_, .inr rfl, { h with }⟩
    rw [← htask]
    exact .here

theorem Room.pass (speed : ℕ) (h : Room B (k + 1) s w) (hi : Invariant n top s w)
    (hn : n ≤ MAX_DISK_REQUESTS_IN_PARALLEL) (htop : top < LONG_MAX)
    (hpending : s.disk.pending ≠ []) : ∃ s' w',
      (turns System.Usual n speed).Leads (reliable top) s w s' w' ∧ Room (B + 2) k s' w' ∧
        s'.submitted = s.submitted ∧ s'.disk.pending.length < s.disk.pending.length := by
  have hnum := hi.num_ne_zero htop hpending
  have htime := h.time hi htop hnum
  obtain ⟨task, w₁, hl, htask, hroom⟩ := h.awake speed hi htop hnum
  have hi₁ := hi.leads hn htop.le hl
  obtain ⟨hpasses, hent⟩ : Passes n top { s with task := task } w₁ ∧
      System.Enters System.Usual { s with task := task } { s with task := task }.processNext := by
    rcases htask with rfl | rfl
    · exact ⟨hi₁.passes_expired rfl, .expired rfl⟩
    · exact ⟨hi₁.passes_processing rfl, .processing rfl⟩
  have hnow := hroom.now
  have hpassed := hroom.passed
  have hclock := hroom.clock
  have hids := hroom.ids
  push_cast at hclock
  obtain ⟨s', w', hrun, ⟨hp, -⟩, -⟩ := can_pass hi₁ hn hnum (t := B + 1) (by dsimp only; omega)
    (by omega) (by omega) (by omega) hroom.nonzero
  obtain ⟨_, -, hsubmitted⟩ :=
    (wp_runs (keeps_contract _) rfl (processNext_submitted (reliable top) _ w₁) hrun).1 s' rfl
  have hlength := hi₁.pass (keeps_reliable top) hnum hpasses.due hrun
  have hnext : s'.disk.udpSendReplyId.toNat = s.disk.udpSendReplyId.toNat + 1 := by
    rw [hp.udpSendReplyId, UInt32.toNat_add, UInt32.toNat_one,
      Nat.mod_eq_of_lt (by dsimp only at hids ⊢; omega)]
  refine ⟨s', w', hl.turn hent hrun, ⟨?_, ?_, ?_, ?_, ?_, ?_⟩, hsubmitted, ?_⟩
  · have hnow' := hp.now
    omega
  · rw [hp.passed]
    omega
  · rw [hp.given]
    exact fun p hmem ↦ (hroom.given p hmem).trans (by omega)
  · omega
  · intro hzero
    rw [hzero] at hnext
    exact Nat.succ_ne_zero _ hnext.symm
  · dsimp only at hids
    omega
  · dsimp only at hlength
    omega

theorem Room.weaken {k' : ℕ} (h : Room B k s w) (hk : k' ≤ k) : Room B k' s w where
  __ := h
  clock := by
    have hclock := h.clock
    omega
  ids := by
    have hids := h.ids
    omega

theorem Room.replied (speed : ℕ) (h : Room B k s w) (hi : Invariant n top s w)
    (hn : n ≤ MAX_DISK_REQUESTS_IN_PARALLEL) (htop : top < LONG_MAX)
    (hk : s.disk.pending.length ≤ k) : ∃ s' w' B',
      (turns System.Usual n speed).Leads (reliable top) s w s' w' ∧ Room B' 0 s' w' ∧
        s'.submitted = s.submitted ∧ s'.disk.pending = [] := by
  induction k generalizing B s w with
  | zero => exact ⟨s, w, B, .here, h, rfl, List.length_eq_zero_iff.mp (by omega)⟩
  | succ k ih =>
    by_cases hpending : s.disk.pending = []
    · exact ⟨s, w, B, .here, h.weaken (Nat.zero_le _), rfl, hpending⟩
    obtain ⟨s₁, w₁, hl, hroom, hsub, hlt⟩ := h.pass speed hi hn htop hpending
    obtain ⟨s', w', B', hl', hroom', hsub', hnone⟩ :=
      ih hroom (hi.leads hn htop.le hl) (by omega)
    exact ⟨s', w', B', hl.trans hl', hroom', hsub'.trans hsub, hnone⟩

theorem Invariant.lockFree (h : Invariant n top s w) (hpending : s.disk.pending = []) :
    s.LockFree := by
  intro htask
  have hpos := h.pending_pos (h.passes_processing htask).num
  rw [hpending] at hpos
  exact lt_irrefl 0 hpos

theorem Invariant.released (speed : ℕ) (h : Invariant n top s w) (h1 : 1 ≤ n)
    (hn : n ≤ MAX_DISK_REQUESTS_IN_PARALLEL) (htop : top ≤ LONG_MAX) (hthrottled : s.Throttled)
    (hpending : s.disk.pending = [])
    (hclock : s.queueStopped = true → ∃ t, w.now < t ∧ w.passed ≤ t ∧ t ≤ LONG_MAX) : ∃ s' w',
      (turns System.Usual n speed).Leads (reliable top) s w s' w' ∧ s'.submitted = s.submitted ∧
        s'.disk.pending = [] ∧ s'.completing = [] ∧ s'.queueStopped = false := by
  induction hr : s.completing.length generalizing s w with
  | zero =>
    have hnil := List.length_eq_zero_iff.mp hr
    refine ⟨s, w, .here, rfl, hpending, hnil, Bool.eq_false_iff.mpr fun hstop ↦ ?_⟩
    have hfull := hthrottled.stopped.mp hstop
    have hinflight := h.books.inflight
    have hchannels := h.books.diskChannels
    rw [hpending, hnil] at hinflight
    simp only [List.length_nil] at hinflight
    omega
  | succ k ih =>
    obtain ⟨req, hreq⟩ := List.exists_mem_of_length_pos (l := s.completing) (by omega)
    have hnone : ∀ r ∈ ([] : List Request), System.Usual r := fun r hr ↦ absurd hr List.not_mem_nil
    have hent : (turns System.Usual n speed).enters s (s.softirqDone req []) :=
      .softirqDone (h.lockFree hpending) hreq hnone
    have hlen : (s.completing.eraseP fun r ↦ r.tag = req.tag).length = k := by
      rw [List.length_eraseP_of_mem hreq (by simp), hr]
      rfl
    let s' : System := { s with
      disk := { s.disk with requestInflight := s.disk.requestInflight - 1 }
      completing := s.completing.eraseP fun r ↦ r.tag = req.tag
      queueStopped := false }
    have hrun : ∃ w', (s.softirqDone req []).Runs (reliable top) w (.ok s') w' := by
      unfold System.softirqDone
      dsimp only
      split
      · rename_i hstop
        obtain ⟨t, hnow, hpassed, hmax⟩ := hclock hstop
        exact ⟨_, trivial, t, _, ⟨hnow, hpassed, hmax, rfl⟩, rfl, rfl⟩
      · rename_i hstop
        refine ⟨w, ?_, rfl⟩
        rw [Bool.not_eq_true] at hstop
        rw [hstop]
    obtain ⟨w', hrun⟩ := hrun
    have hl : (turns System.Usual n speed).Leads (reliable top) s w s' w' := .one hent hrun
    have hroom : s.disk.requestInflight - 1 < s.disk.diskChannels := by
      have hbounded := hthrottled.bounded
      omega
    obtain ⟨s₂, w₂, hl₂, hrest⟩ := ih (s := s') (h.leads hn htop hl)
      (System.throttled_of_running rfl hroom) hpending
        (fun hstop ↦ absurd hstop Bool.false_ne_true) hlen
    exact ⟨s₂, w₂, hl.trans hl₂, hrest⟩

/-- Whatever state driver and emulator have come to, the driver can still get rid of every request
it was given, as long as clock and message ids last. -/
theorem requests_drain (h1 : 1 ≤ n) (hn : n ≤ MAX_DISK_REQUESTS_IN_PARALLEL) (h0 : 0 ≤ top)
    (htop : top < LONG_MAX) (h : (turns System.Usual n speed).Reachable (reliable top) s w)
    (hroom : Room B n s w) : ∃ s' w',
      (turns System.Usual n speed).Leads (reliable top) s w s' w' ∧ s'.submitted = s.submitted ∧
        (s'.submitted.map fun p ↦ (p.1, some p.2)).Perm
          (s'.completed.map fun c ↦ (c.requestId, some c.req)) ∧
        s'.completing = [] ∧ s'.disk.requestInflight = 0 ∧ s'.queueStopped = false := by
  have hi := (reachable_invariant (keeps_reliable top) h1 hn h0 htop.le h).1
  have hlength : s.disk.pending.length ≤ n := by
    have hinflight := hi.books.inflight
    have hbounded := hi.books.bounded
    omega
  obtain ⟨s₁, w₁, B', hl₁, hroom₁, hsub₁, hpending₁⟩ := hroom.replied speed hi hn htop hlength
  have hi₁ := hi.leads hn htop.le hl₁
  have hthrottled₁ := reachable_throttled (T := turns System.Usual n speed) h1 (fun _ _ hs ↦ hs.1)
    (fun _ _ hp ↦ hp) (hl₁.reachable h)
  have hclock : ∃ t, w₁.now < t ∧ w₁.passed ≤ t ∧ t ≤ LONG_MAX := by
    have hnow := hroom₁.now
    have hpassed := hroom₁.passed
    have hleft := hroom₁.clock
    exact ⟨B' + 1, by omega, by omega, by omega⟩
  obtain ⟨s₂, w₂, hl₂, hsub₂, hpending₂, hcompleting, hstop⟩ :=
    hi₁.released speed h1 hn htop.le hthrottled₁ hpending₁ fun _ ↦ hclock
  have hi₂ := hi₁.leads hn htop.le hl₂
  have hhistory := hi₂.books.history
  have hinflight := hi₂.books.inflight
  rw [hpending₂] at hhistory hinflight
  rw [hcompleting] at hinflight
  exact ⟨s₂, w₂, hl₁.trans hl₂, hsub₂.trans hsub₁, hhistory, hcompleting, hinflight, hstop⟩

theorem requests_drain_two : ∃ s w s' w',
    (turns System.Usual 2 0).Reachable (reliable (LONG_MAX - 1)) s w ∧ s.queueStopped = true ∧
      s.completed = [] ∧ (turns System.Usual 2 0).Leads (reliable (LONG_MAX - 1)) s w s' w' ∧
        s'.completed.length = 2 ∧ s'.queueStopped = false := by
  obtain ⟨⟨s, w⟩, hs, hstopped, hnone, hlength, hnow, hpassed, hgiven, hnonzero, hids⟩ :
      ∃ r ∈ session System.Usual 2 0 [.task, .strategy [writeAt 0 5, readAt 1 5]],
        r.1.queueStopped = true ∧ r.1.completed = [] ∧ r.1.submitted.length = 2 ∧ r.2.now ≤ 2 ∧
          r.2.passed ≤ 2 ∧ (∀ p ∈ r.2.given, p.2 ≤ 2) ∧ r.1.disk.udpSendReplyId ≠ 0 ∧
            r.1.disk.udpSendReplyId.toNat + 2 < 2 ^ 32 := by
    decide +kernel
  have h := session_reachable hs
  obtain ⟨s', w', hl, hsub, hperm, -, -, hstop⟩ := requests_drain (by decide) (by decide)
    (by decide) (by decide) h ⟨hnow, hpassed, hgiven, by decide, hnonzero, hids⟩
  have hdone := hperm.length_eq
  rw [hsub, List.length_map, List.length_map, show s.submitted.length = 2 from hlength] at hdone
  exact ⟨s, w, s', w', h, hstopped, hnone, hl, hdone.symm, hstop⟩

end Nctusde.EmulatorKernel

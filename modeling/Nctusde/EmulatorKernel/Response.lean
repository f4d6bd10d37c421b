import Nctusde.EmulatorKernel.Atomicity
import Nctusde.EmulatorKernel.Progress

namespace Nctusde.EmulatorKernel

open BlockLayer Library Library.Program Library.Table Network UdpServer Wire

variable {n speed k : ℕ} {top t t' : ℤ} {s s' : System} {w w' w'' : World} {req : Request}
  {requestId : UInt32} {early : List UInt32}

structure Dated (w w' : World) : Prop where
  now : w.now ≤ w'.now
  given : ∃ news, w'.given = w.given ++ news ∧ ∀ p ∈ news, w.now < p.2

theorem Dated.same (hnow : w.now ≤ w'.now) (hgiven : w'.given = w.given) : Dated w w' :=
  ⟨hnow, [], hgiven.trans (List.append_nil _).symm, fun _ hp ↦ absurd hp List.not_mem_nil⟩

theorem Dated.trans (h : Dated w w') (h' : Dated w' w'') : Dated w w'' := by
  obtain ⟨news, heq, hnews⟩ := h.given
  obtain ⟨news', heq', hnews'⟩ := h'.given
  refine ⟨h.now.trans h'.now, news ++ news', ?_, fun p hp ↦ ?_⟩
  · rw [heq', heq, List.append_assoc]
  · rcases List.mem_append.mp hp with hp | hp
    · exact hnews p hp
    · exact h.now.trans_lt (hnews' p hp)

theorem wp_submit_given (hb : Books n s w) (hsy : Synced n top s w) (htop : top ≤ LONG_MAX)
    (husual : System.Usual req) (hlt : s.disk.requestInflight < n)
    (hnow : s.disk.latestResponseTime < w.now) :
    (s.submit w.now req).wp (owed top) (fun _ ↦ True) (fun _ w' ↦ w'.now = w.now ∧
      ∃ c, w.now ≤ c ∧ w'.given = w.given ++ [(s.disk.udpSendReplyId, c)]) w := by
  obtain ⟨i, hi, hold, hfree⟩ := hsy.exists_channel hb hlt hnow hsy.now
  obtain ⟨slot, d, hnext, -, hsubmit⟩ := hb.submit_eq hsy husual hlt hnow
  rw [hsubmit, Program.wp_bind]
  refine wp_emulatorSubmitRequest (i := i) hnext.symm (hsy.ahead.same hnext rfl)
    (hsy.latest.trans hnow.le) hsy.now hold (hfree.trans_lt hnow) (sectorCount_le husual)
    hsy.speedFactor htop (hb.unused hsy.ahead) fun w₁ c hacc hahead ↦ ?_
  rw [Program.wp_bind]
  apply wp_transferSectors hahead
  intro d' w₂ hq _ _
  exact ⟨hq.now.trans hacc.now, c, hacc.later, hq.given.trans hacc.given⟩

theorem wp_strategyLoop_dated (hb : Books n s w) (hsy : Synced n top s w) (htop : top ≤ LONG_MAX)
    (hlt : s.disk.requestInflight < n) {queue : List Request}
    (hqueue : ∀ req ∈ queue, System.Usual req) (b : Bool) :
    (s.strategyLoop b queue).wp (owed top) (fun _ ↦ True) (fun _ w' ↦ Dated w w') w := by
  induction queue generalizing s w b with
  | nil =>
    rw [System.strategyLoop, Program.bind_eq, Program.wp_bind]
    exact wp_reading fun t ht _ _ ↦ .same ht.le rfl
  | cons req queue ih =>
    rw [System.strategyLoop, Program.bind_eq, Program.wp_bind]
    refine wp_reading fun t ht _ hmax ↦ ?_
    have hread := Submits.read hb hsy ht hmax
    have hnow : s.disk.latestResponseTime < t := hsy.latestNow.trans_lt ht
    have husual := hqueue req List.mem_cons_self
    rw [Program.bind_eq, Program.wp_bind]
    refine Program.wp_mono (fun s' w' hs' ↦ ?_)
      (Program.wp_weaken (fun _ _ ↦ trivial) (Program.wp_and
      (wp_submit hread.books hread.synced htop husual hlt hnow (E := fun _ ↦ True))
      (wp_submit_given hread.books hread.synced htop husual hlt hnow)))
    obtain ⟨⟨hsubmits, -, -⟩, hnow', c, hc, hgiven⟩ := hs'
    have hdated : Dated w w' := by
      refine ⟨ht.le.trans hnow'.ge, _, hgiven, fun p hp ↦ ?_⟩
      rw [List.mem_singleton.mp hp]
      exact ht.trans_le hc
    have hchannels := hsubmits.books.diskChannels
    split
    · exact hdated
    split
    · exact hdated
    · exact Program.wp_mono (fun _ _ ↦ hdated.trans) (ih hsubmits.books hsubmits.synced (by omega)
        (fun req hreq ↦ hqueue req (List.mem_cons_of_mem _ hreq)) true)

theorem BatchAt.least (hat : BatchAt s.disk w.sim t') (hb : Books n s w) (hsy : Synced n top s w)
    (hgiven : (requestId, t) ∈ w.given) (hlater : s.disk.latestResponseTime < t) : t' ≤ t := by
  have hun : requestId ∈ s.unreplied := by
    refine List.mem_filter.mpr
      ⟨hb.given ▸ List.mem_map_of_mem hgiven, decide_eq_true fun hdone ↦ ?_⟩
    obtain ⟨c, hc, rfl⟩ := List.mem_map.mp hdone
    rw [hb.given_unique hgiven (hb.completed c hc).1] at hlater
    exact absurd (hsy.replied c hc) (not_le.mpr hlater)
  obtain ⟨i, hi, hlt, hid⟩ := (hsy.mem_unreplied hb).mp hun
  rw [hb.given_unique hgiven (hsy.given_of_busy hi hlt hid)]
  exact hat.next.least i hi hlt

/-- A request is not replied although its time has come. What was to be replied by that time is in
`early`. -/
structure Waits (n : ℕ) (top : ℤ) (requestId : UInt32) (t : ℤ) (early : List UInt32) (s : System)
    (w : World) : Prop where
  invariant : Invariant n top s w
  unreplied : requestId ∈ s.unreplied
  given : (requestId, t) ∈ w.given
  late : t ≤ w.now
  early : ∀ p ∈ w.given, p.2 ≤ t → p.1 ∈ early

theorem Waits.later (h : Waits n top requestId t early s w) : s.disk.latestResponseTime < t := by
  obtain ⟨i, hi, hlt, hid⟩ := (h.invariant.synced.mem_unreplied h.invariant.books).mp h.unreplied
  rw [h.invariant.books.given_unique h.given (h.invariant.synced.given_of_busy hi hlt hid)]
  exact hlt

theorem Waits.num (h : Waits n top requestId t early s w) (htop : top < LONG_MAX) :
    s.disk.nextResponseToReplyNum ≠ 0 := by
  intro hzero
  have hnone := h.unreplied
  rw [(h.invariant.nextBatch htop).num.mp hzero] at hnone
  exact List.not_mem_nil hnone

theorem Waits.time (h : Waits n top requestId t early s w) (htop : top < LONG_MAX) :
    s.disk.nextResponseToReplyTime ≤ t := by
  obtain ⟨t', hat⟩ := h.invariant.batch.at (h.num htop)
  rw [hat.time]
  exact hat.least h.invariant.books h.invariant.synced h.given h.later

theorem Waits.announce (h : Waits n top requestId t early s w)
    (hn : n ≤ MAX_DISK_REQUESTS_IN_PARALLEL)
    (htop : top < LONG_MAX) (hs : Submits n top s w s' w') (hd : Dated w w') :
    s'.announce.wp (owed top) (fun _ ↦ True)
      (fun s'' w'' ↦ Dated w w'' ∧ s''.task = s.task) w' := by
  have hsy := hs.synced
  have hnum := h.num htop
  have htime := h.time htop
  obtain ⟨t', hat⟩ := h.invariant.batch.at hnum
  have hlater := hat.next.later
  have hbounded := hat.next.bounded
  have hlatest := h.invariant.synced.latest
  rw [LONG_MAX] at hbounded
  have hto : toU64 s.disk.nextResponseToReplyTime = t' := by
    rw [hat.time]
    exact toU64_of_fits (by omega) (by omega)
  rw [System.announce, Program.bind_eq, Program.wp_bind]
  refine wp_emulatorGetResponses hsy.ahead hsy.latest (hsy.latestNow.trans hsy.now)
    (hsy.count.trans_le hn) fun w'' next hq _ hreports ↦ ?_
  -- the emulator reports a request it had before, or one that was submitted when `t` was past
  have hnext (hpos : next.num > 0) : t' ≤ next.time := by
    have hreported := hreports.num
    have hreportedTime := hreports.time
    rcases nextAt_or_none w'.sim s'.disk.latestResponseTime with ⟨t'', hnext⟩ | hnone
    · rw [hnext.reported] at hreportedTime
      rw [show next.time = t'' from hreportedTime]
      obtain ⟨i, hi, heq⟩ := hnext.busy
      obtain ⟨id, -, hgiven⟩ := hsy.times i hi (heq ▸ hnext.later)
      obtain ⟨news, hnews, hall⟩ := hd.given
      rw [heq, hnews] at hgiven
      rcases List.mem_append.mp hgiven with hold | hnew
      · exact hat.least h.invariant.books h.invariant.synced hold (hs.batch.latest ▸ hnext.later)
      · have hgt := hall _ hnew
        have hlate := h.late
        rw [hat.time] at htime
        dsimp only at hgt
        omega
    · rw [hnone.reported] at hreported
      dsimp only at hreported
      omega
  have hflag : (s'.disk.numbered.takeUp next).2 = false := by
    unfold Emudisk.takeUp
    split
    · rename_i htake
      refine decide_eq_false fun hwake ↦ ?_
      rcases hwake with hzero | hgt
      · exact hnum (hs.batch.num.symm.trans hzero)
      · have hgt : toU64 s'.disk.nextResponseToReplyTime > next.time := hgt
        rw [hs.batch.time, hto] at hgt
        exact absurd (hnext htake.1) (not_le.mpr hgt)
    · rfl
  have htask : (if (s'.disk.numbered.takeUp next).2 then s'.task.wake else s'.task) = s.task := by
    rw [hflag]
    exact hs.task
  exact ⟨hd.trans (.same hq.now.ge hq.given), htask⟩

theorem Waits.strategy (h : Waits n top requestId t early s w)
    (hn : n ≤ MAX_DISK_REQUESTS_IN_PARALLEL)
    (htop : top < LONG_MAX) (hrun : s.queueStopped = false) {queue : List Request}
    (hqueue : ∀ req ∈ queue, System.Usual req) :
    (s.strategy queue).wp (owed top) (fun _ ↦ True)
      (fun s' w' ↦ Dated w w' ∧ s'.task = s.task) w := by
  have hi := h.invariant
  rw [System.strategy, Program.bind_eq, Program.wp_bind]
  refine Program.wp_mono (fun r w' hr ↦ ?_) (Program.wp_weaken (fun _ _ ↦ trivial) (Program.wp_and
    (wp_strategyLoop hi.books hi.synced htop.le hrun (hi.running hrun) hqueue false
      (E := fun _ ↦ True))
    (wp_strategyLoop_dated hi.books hi.synced htop.le (hi.running hrun) hqueue false)))
  obtain ⟨⟨hs, -, -⟩, hd⟩ := hr
  dsimp only
  split
  · exact h.announce hn htop hs hd
  · exact ⟨hd, hs.task⟩

theorem Invariant.release (h : Invariant n top s w) (hreq : req ∈ s.completing) (b : Bool) :
    Invariant n top { s with
      disk := { s.disk with requestInflight := s.disk.requestInflight - 1 }
      completing := s.completing.eraseP fun r ↦ r.tag = req.tag
      queueStopped := b } w := by
  have hbounded := h.books.bounded
  exact ⟨{ h.books.release hreq with }, { h.synced with ahead := h.synced.ahead.same rfl rfl },
    { h.batch with }, h.timeFits, h.minds.same ⟨rfl, rfl⟩, h.due, fun _ ↦ by dsimp only; omega⟩

theorem wp_findNext_due (hn : n ≤ MAX_DISK_REQUESTS_IN_PARALLEL) (hsy : Synced n top s w) :
    s.findNext.wp (owed top) (fun _ ↦ True) (fun s' w' ↦ w.now ≤ w'.now ∧ w'.given = w.given ∧
      s'.disk.latestResponseTime = s.disk.latestResponseTime ∧
        (s'.disk.nextResponseToReplyNum ≠ 0 → s'.disk.nextResponseToReplyTime < w'.now →
          s'.task = .processing)) w := by
  rw [System.findNext, Program.bind_eq, Program.wp_bind]
  refine wp_emulatorGetResponses hsy.ahead hsy.latest (hsy.latestNow.trans hsy.now)
    (hsy.count.trans_le hn) fun w' next hq _ _ ↦ ?_
  have hsame := SameBooks.replace s.disk.numbered next
  dsimp only
  split
  · split
    · trivial
    rw [Program.bind_eq, Program.wp_bind]
    refine wp_reading fun t ht _ _ ↦ ?_
    have hle : w.now ≤ t := hq.now.ge.trans ht.le
    split
    · exact ⟨hle, hq.given, hsame.latestResponseTime, fun _ _ ↦ rfl⟩
    · rename_i hlate
      exact ⟨hle, hq.given, hsame.latestResponseTime, fun _ hdue ↦ absurd hdue hlate⟩
  · rename_i hnum
    refine ⟨hq.now.ge, hq.given, hsame.latestResponseTime, fun hne ↦ absurd ?_ hne⟩
    unfold System.sleep Emudisk.replace
    dsimp only
    rw [if_neg hnum]

theorem Invariant.pass_due (h : Invariant n top s w) (hn : n ≤ MAX_DISK_REQUESTS_IN_PARALLEL)
    (hnum : s.disk.nextResponseToReplyNum ≠ 0)
    (hdue : ∀ t, w.now < t → w.passed ≤ t → s.disk.nextResponseToReplyTime ≤ t) :
    s.processNext.wp (owed top) (fun _ ↦ True) (fun s' w' ↦ w.now < w'.now ∧ w'.given = w.given ∧
      s'.disk.latestResponseTime = s.disk.nextResponseToReplyTime ∧
        (s'.disk.nextResponseToReplyNum ≠ 0 → s'.disk.nextResponseToReplyTime < w'.now →
          s'.task = .processing)) w := by
  obtain ⟨t', hat⟩ := h.batch.at hnum
  rw [System.processNext, Program.bind_eq, Program.wp_bind]
  refine wp_reading fun t ht hpassed hmax ↦ ?_
  have hle : t' ≤ t := hat.time ▸ hdue t ht hpassed
  obtain ⟨hnow, hnext⟩ := h.inOrder hat ht hmax
  rw [if_neg hnow, if_neg hnext, if_neg hnum, Program.bind_eq, Program.wp_bind]
  refine Program.wp_mono (fun s₁ w₁ hs₁ ↦ ?_)
    (wp_completeBatch (h.books.read t) (h.synced.read ht hmax) hat hle)
  obtain ⟨rfl, hreplies⟩ := hs₁
  have hsy₁ := hreplies.synced (h.synced.read ht hmax) hat hle
  refine Program.wp_mono (fun s' w' hs' ↦ ?_) (wp_findNext_due hn hsy₁)
  obtain ⟨hnow', hgiven, hlatest, htask⟩ := hs'
  refine ⟨ht.trans_le hnow', hgiven, hlatest.trans ?_, htask⟩
  rw [hreplies.latest (Nat.pos_of_ne_zero hnum), hat.time]

def Task.turnsToPass : Task → ℕ
  | .starting | .sleeping _ => 2
  | .sleepingUntil _ woken => 1 + woken.toNat
  | .expired | .processing => 0

theorem Task.turnsToPass_le (task : Task) : task.turnsToPass ≤ 2 := by
  cases task with
  | starting => exact le_rfl
  | sleeping woken => exact le_rfl
  | sleepingUntil time woken => exact Nat.add_le_add_left (Bool.toNat_le woken) 1
  | expired => exact Nat.zero_le 2
  | processing => exact Nat.zero_le 2

namespace System

def Replied (requestId : UInt32) (s : System) : Prop := ∃ c ∈ s.completed, c.requestId = requestId

def outstanding (early : List UInt32) (s : System) : List UInt32 :=
  early.filter (· ∉ s.completed.map (·.requestId))

def turnsLeft (early : List UInt32) (s : System) : ℕ :=
  s.task.turnsToPass + (s.outstanding early).length

theorem outstanding_sublist (early : List UInt32) (h : s.completed <+: s'.completed) :
    (s'.outstanding early).Sublist (s.outstanding early) := by
  refine List.monotone_filter_right _ fun id hid ↦ decide_eq_true fun hmem ↦ ?_
  exact of_decide_eq_true hid ((h.sublist.map _).subset hmem)

theorem outstanding_lt (h : s.completed <+: s'.completed) {c : Completion} (hc : c ∈ s'.completed)
    (hnew : c.requestId ∉ s.completed.map (·.requestId)) (hearly : c.requestId ∈ early) :
    (s'.outstanding early).length < (s.outstanding early).length := by
  have hsub := outstanding_sublist early h
  refine hsub.length_le.lt_of_ne fun heq ↦ ?_
  have hmem : c.requestId ∈ s.outstanding early := List.mem_filter.mpr ⟨hearly, decide_eq_true hnew⟩
  rw [← hsub.eq_of_length heq] at hmem
  exact of_decide_eq_true (List.mem_filter.mp hmem).2 (List.mem_map_of_mem hc)

end System

theorem Invariant.recorded (h : Invariant n top s w) : System.Recorded s s := by
  refine ⟨List.prefix_rfl, List.prefix_rfl, fun i hi hne req hreq ↦ ?_, fun c hc ↦ ?_⟩
  · obtain ⟨req', heq, hmem⟩ := h.books.pending_submitted
      (mem_entries.mpr ⟨i, hi, Emudisk.held_eq_some.mpr ⟨hne, rfl, hreq⟩⟩)
    exact Option.some.inj heq ▸ hmem
  · obtain ⟨p, hp, heq⟩ := List.mem_map.mp (h.books.history.mem_iff.mpr
      (List.mem_append_right _ (List.mem_map_of_mem hc)))
    obtain ⟨hid, hreq⟩ := Prod.mk.inj heq
    exact hid ▸ Option.some.inj hreq ▸ hp

theorem Invariant.grows (h : Invariant n top s w) (htop : top < LONG_MAX) {p : Prog System}
    (hp : System.Enters System.Usual s p) (hrun : p.Runs (reliable top) w (.ok s') w') :
    s.submitted <+: s'.submitted ∧ s.completed <+: s'.completed := by
  have hids : ∀ i < s.disk.nextResponseToReplyNum, s.disk.nextResponseToReplyIds i ≠ 0 := by
    intro i hi
    have hfirst := ((h.nextBatch htop).ids _).mpr ⟨i, hi, rfl⟩
    obtain ⟨p, hp, heq⟩ := List.mem_map.mp (List.mem_filter.mp hfirst.1).1
    exact heq ▸ h.books.nonzero p hp
  obtain ⟨_, -, hr⟩ :=
    (wp_runs (keeps_anything (reliable top)) trivial
      (h.recorded.turn (u := ()) hids hp) hrun).1 s' rfl
  exact ⟨hr.submitted, hr.completed⟩

theorem Waits.release (h : Waits n top requestId t early s w)
    (hreq : req ∈ s.completing) (b : Bool) :
    Waits n top requestId t early { s with
      disk := { s.disk with requestInflight := s.disk.requestInflight - 1 }
      completing := s.completing.eraseP fun r ↦ r.tag = req.tag
      queueStopped := b } w :=
  ⟨h.invariant.release hreq b, h.unreplied, h.given, h.late, h.early⟩

theorem Waits.dated (h : Waits n top requestId t early s w) (hn : n ≤ MAX_DISK_REQUESTS_IN_PARALLEL)
    (htop : top < LONG_MAX) {p : Prog System} (hp : System.Enters System.Usual s p) :
    p.wp (owed top) (fun _ ↦ True) (fun _ w' ↦ Dated w w') w := by
  have hpass (hpasses : Passes n top s w) :
      s.processNext.wp (owed top) (fun _ ↦ True) (fun _ w' ↦ Dated w w') w :=
    Program.wp_mono (fun _ _ hs' ↦ .same hs'.1.le hs'.2.1)
      (h.invariant.pass_due hn hpasses.num hpasses.due)
  cases hp with
  | strategy _ hrun hqueue =>
    exact Program.wp_mono (fun _ _ ↦ And.left)
      (h.strategy hn htop hrun hqueue)
  | softirqDone _ hreq hqueue =>
    unfold System.softirqDone
    dsimp only
    split
    · exact Program.wp_mono (fun _ _ ↦ And.left)
        ((h.release hreq false).strategy hn htop rfl hqueue)
    · exact .same le_rfl rfl
  | start _ => exact .same le_rfl rfl
  | woken _ => exact .same le_rfl rfl
  | interrupted _ => exact .same le_rfl rfl
  | @timer time _ _ =>
    rintro -
    refine ⟨trivial, fun _ w' hans ↦ ?_⟩
    obtain rfl : w' = { w with passed := max w.passed time } := hans
    exact .same le_rfl rfl
  | expired htask => exact hpass (h.invariant.passes_expired htask)
  | processing htask => exact hpass (h.invariant.passes_processing htask)

theorem Waits.turn (h : Waits n top requestId t early s w) (hn : n ≤ MAX_DISK_REQUESTS_IN_PARALLEL)
    (htop : top < LONG_MAX) {p : Prog System} (hp : System.Enters System.Usual s p)
    (hrun : p.Runs (reliable top) w (.ok s') w') :
    s'.Replied requestId ∨ Waits n top requestId t early s' w' := by
  obtain ⟨_, rfl, hi⟩ := (wp_runs (keeps_reliable top) rfl
    (h.invariant.turn (E := fun _ ↦ True) hn htop.le hp) hrun).1 s' rfl
  obtain ⟨_, rfl, hd⟩ := (wp_runs (keeps_reliable top) rfl (h.dated hn htop hp) hrun).1 s' rfl
  obtain ⟨hsub, -⟩ := h.invariant.grows htop hp hrun
  by_cases hdone : requestId ∈ s'.completed.map (·.requestId)
  · exact .inl (List.mem_map.mp hdone)
  obtain ⟨news, heq, hnews⟩ := hd.given
  refine .inr ⟨hi, List.mem_filter.mpr ⟨?_, decide_eq_true hdone⟩, ?_, h.late.trans hd.now,
    fun p hp hle ↦ ?_⟩
  · exact (hsub.sublist.map _).subset (List.mem_filter.mp h.unreplied).1
  · rw [heq]
    exact List.mem_append_left _ h.given
  · rw [heq] at hp
    rcases List.mem_append.mp hp with hold | hnew
    · exact h.early p hold hle
    · exact absurd (hle.trans h.late) (hnews p hnew).not_ge

/-- A pass replies one of the requests at least that must not be later, and the next pass follows
at once. -/
theorem Waits.pass (h : Waits n top requestId t early s w) (hn : n ≤ MAX_DISK_REQUESTS_IN_PARALLEL)
    (htop : top < LONG_MAX) (hp : Passes n top s w)
    (hent : System.Enters System.Usual s s.processNext)
    (hrun : s.processNext.Runs (reliable top) w (.ok s') w')
    (h' : Waits n top requestId t early s' w') :
    s'.task = .processing ∧ (s'.outstanding early).length < (s.outstanding early).length := by
  have hG := keeps_reliable top
  obtain ⟨_, rfl, hnow, -, hlatest, htask⟩ :=
    (wp_runs hG rfl (h.invariant.pass_due hn hp.num hp.due) hrun).1 s' rfl
  refine ⟨htask (h'.num htop) ((h'.time htop).trans_lt (h.late.trans_lt hnow)), ?_⟩
  obtain ⟨-, hprefix⟩ := h.invariant.grows htop hent hrun
  obtain ⟨_, -, hsubmitted⟩ :=
    (wp_runs (keeps_contract _) rfl (processNext_submitted (reliable top) s w) hrun).1 s' rfl
  have hpass := h.invariant.pass hG hp.num hp.due hrun
  have hlength := h.invariant.books.history.length_eq
  have hlength' := h'.invariant.books.history.length_eq
  have hnodup := (List.nodup_append.mp h'.invariant.books.completed_nodup).2.1
  have hnum := hp.num
  obtain ⟨more, hmore⟩ := hprefix
  rw [hsubmitted, ← hmore] at hlength'
  simp only [List.length_map, List.length_append] at hlength hlength'
  rw [← hmore, List.map_append] at hnodup
  obtain ⟨c, hc⟩ := List.exists_mem_of_length_pos (l := more) (by omega)
  have hc' : c ∈ s'.completed := hmore ▸ List.mem_append_right _ hc
  have htime : c.time ≤ t := by
    have hle := h'.invariant.synced.replied c hc'
    rw [hlatest] at hle
    exact hle.trans (h.time htop)
  refine System.outstanding_lt (.intro more hmore) hc' (fun hold ↦ ?_)
    (h'.early _ (h'.invariant.books.completed c hc').1 htime)
  exact (List.nodup_append.mp hnodup).2.2 _ hold _ (List.mem_map_of_mem hc) rfl

theorem Waits.attended (h : Waits n top requestId t early s w)
    (hn : n ≤ MAX_DISK_REQUESTS_IN_PARALLEL)
    (htop : top < LONG_MAX) {p : Prog System} (hp : System.Attends s p)
    (hrun : p.Runs (reliable top) w (.ok s') w') (h' : Waits n top requestId t early s' w') :
    s'.turnsLeft early < s.turnsLeft early := by
  have hpass (hpasses : Passes n top s w)
      (hent : System.Enters System.Usual s s.processNext)
      (hrun : s.processNext.Runs (reliable top) w (.ok s') w') :
      s'.turnsLeft early < s.turnsLeft early := by
    obtain ⟨htask', hlt⟩ := h.pass hn htop hpasses hent hrun h'
    rw [System.turnsLeft, System.turnsLeft, htask']
    exact (Nat.zero_add _).trans_lt (hlt.trans_le (Nat.le_add_left _ _))
  have hnearer (hdone : s'.completed = s.completed)
      (hlt : s'.task.turnsToPass < s.task.turnsToPass) :
      s'.turnsLeft early < s.turnsLeft early := by
    rw [System.turnsLeft, System.turnsLeft, System.outstanding, System.outstanding, hdone]
    exact Nat.add_lt_add_right hlt _
  cases hp with
  | start htask =>
    obtain rfl := Except.ok.inj hrun.1
    refine hnearer rfl ?_
    rw [htask, System.sleep, if_neg (h.num htop)]
    exact Nat.lt_succ_self 1
  | woken htask =>
    obtain rfl := Except.ok.inj hrun.1
    refine hnearer rfl ?_
    rw [htask]
    exact Nat.lt_succ_self 1
  | interrupted htask =>
    obtain rfl := Except.ok.inj hrun.1
    refine hnearer rfl ?_
    rw [htask]
    exact Nat.lt_succ_self 1
  | timer htask =>
    obtain ⟨-, _, _, -, hs, -⟩ := hrun
    obtain rfl := Except.ok.inj hs
    refine hnearer rfl ?_
    rw [htask]
    exact Nat.lt_add_right _ Nat.zero_lt_one
  | expired htask =>
    exact hpass (h.invariant.passes_expired htask) (.expired htask) hrun
  | processing htask =>
    exact hpass (h.invariant.passes_processing htask) (.processing htask) hrun

theorem Waits.nearer (h : Waits n top requestId t early s w)
    (hn : n ≤ MAX_DISK_REQUESTS_IN_PARALLEL)
    (htop : top < LONG_MAX) {p : Prog System} (hp : System.Enters System.Usual s p)
    (hrun : p.Runs (reliable top) w (.ok s') w') :
    s'.Replied requestId ∨ Waits n top requestId t early s' w' ∧
      s'.turnsLeft early ≤ s.turnsLeft early ∧
        (System.Attends s p → s'.turnsLeft early < s.turnsLeft early) := by
  rcases h.turn hn htop hp hrun with hdone | h'
  · exact .inl hdone
  refine .inr ⟨h', ?_, fun hatt ↦ h.attended hn htop hatt hrun h'⟩
  have hmine (hatt : System.Attends s p) : s'.turnsLeft early ≤ s.turnsLeft early :=
    (h.attended hn htop hatt hrun h').le
  have hother (htask : s'.task = s.task) : s'.turnsLeft early ≤ s.turnsLeft early := by
    rw [System.turnsLeft, System.turnsLeft, htask]
    exact Nat.add_le_add_left
      (System.outstanding_sublist early (h.invariant.grows htop hp hrun).2).length_le _
  cases hp with
  | strategy _ hstop hqueue =>
    obtain ⟨_, -, -, htask⟩ :=
      (wp_runs (keeps_reliable top) rfl (h.strategy hn htop hstop hqueue) hrun).1 s' rfl
    exact hother htask
  | softirqDone _ hreq hqueue =>
    refine hother ?_
    unfold System.softirqDone at hrun
    dsimp only at hrun
    split at hrun
    · obtain ⟨_, -, -, htask⟩ := (wp_runs (keeps_reliable top) rfl
        ((h.release hreq false).strategy hn htop rfl hqueue) hrun).1 s' rfl
      exact htask
    · obtain rfl := Except.ok.inj hrun.1
      rfl
  | start htask => exact hmine (.start htask)
  | woken htask => exact hmine (.woken htask)
  | interrupted htask => exact hmine (.interrupted htask)
  | timer htask => exact hmine (.timer htask)
  | expired htask => exact hmine (.expired htask)
  | processing htask => exact hmine (.processing htask)

theorem Waits.busy (h : Waits n top requestId t early s w) (htop : top < LONG_MAX) :
    ∃ p, System.Enters System.Usual s p ∧ System.Attends s p := by
  have hminds := h.invariant.minds
  cases htask : s.task with
  | starting => exact ⟨_, .start htask, .start htask⟩
  | sleeping woken =>
    rw [htask] at hminds
    obtain rfl : woken = true := hminds.mp (h.num htop)
    exact ⟨_, .woken htask, .woken htask⟩
  | sleepingUntil time woken => exact ⟨_, .timer htask, .timer htask⟩
  | expired => exact ⟨_, .expired htask, .expired htask⟩
  | processing => exact ⟨_, .processing htask, .processing htask⟩

theorem Waits.turnsLeft_pos (h : Waits n top requestId t early s w) : 0 < s.turnsLeft early := by
  have hun := List.mem_filter.mp h.unreplied
  have hmem : requestId ∈ s.outstanding early :=
    List.mem_filter.mpr ⟨h.early _ h.given le_rfl, hun.2⟩
  exact Nat.add_pos_right _ (List.length_pos_of_mem hmem)

def World.dueBy (t : ℤ) (w : World) : List UInt32 := (w.given.filter (·.2 ≤ t)).map (·.1)

theorem Invariant.turnsLeft_le (h : Invariant n top s w) (t : ℤ) :
    s.turnsLeft (w.dueBy t) ≤ n + 2 := by
  have htask := s.task.turnsToPass_le
  have hsub : s.outstanding (w.dueBy t) ⊆ s.disk.pending.map (·.1) := by
    intro id hid
    obtain ⟨hearly, hdone⟩ := List.mem_filter.mp hid
    obtain ⟨p, hp, rfl⟩ := List.mem_map.mp hearly
    refine h.books.mem_unreplied.mp (List.mem_filter.mpr ⟨?_, hdone⟩)
    rw [← h.books.given]
    exact List.mem_map_of_mem (List.mem_filter.mp hp).1
  have hnodup : (s.outstanding (w.dueBy t)).Nodup := by
    have hids := h.books.ids
    rw [← h.books.given] at hids
    exact (hids.sublist (List.filter_sublist.map _)).filter _
  have hle := (List.subperm_of_subset hnodup hsub).length_le
  have hinflight := h.books.inflight
  have hbounded := h.books.bounded
  rw [List.length_map] at hle
  rw [System.turnsLeft]
  omega

/-- No request starves: once its time has come, the processing task has turns to take until it is
replied, none of which fails, and takes at most `disk_channels + 2` of them, whatever other contexts
do in between. -/
theorem replied_within (h1 : 1 ≤ n) (hn : n ≤ MAX_DISK_REQUESTS_IN_PARALLEL) (h0 : 0 ≤ top)
    (htop : top < LONG_MAX) (h : (turns System.Usual n speed).Reachable (reliable top) s w)
    (hgiven : (requestId, t) ∈ w.given) (hlate : t ≤ w.now)
    (hc : (turns System.Usual n speed).Counted (reliable top) System.Attends s w k s' w') :
    (∃ c ∈ s'.completed, c.requestId = requestId) ∨
      k < n + 2 ∧ (∃ p, System.Enters System.Usual s' p ∧ System.Attends s' p) ∧
        ∀ p, System.Attends s' p → ∀ e w'', ¬ p.Runs (reliable top) w' (.error e) w'' := by
  have hi := (reachable_invariant (keeps_reliable top) h1 hn h0 htop.le h).1
  have hkept (s : System) (w : World) (p : Prog System) (s' : System) (w' : World)
      (hdone : Invariant n top s w ∧ s.Replied requestId) (hp : System.Enters System.Usual s p)
      (hrun : p.Runs (reliable top) w (.ok s') w') :
      Invariant n top s' w' ∧ s'.Replied requestId := by
    obtain ⟨hi, c, hc, heq⟩ := hdone
    exact ⟨hi.leads hn htop.le (.one (T := turns System.Usual n speed) hp hrun), c,
      (hi.grows htop hp hrun).2.subset hc, heq⟩
  have hturn (s : System) (w₁ : World) (p : Prog System) (s' : System) (w₁' : World)
      (hw : Waits n top requestId t (w.dueBy t) s w₁) (hp : System.Enters System.Usual s p)
      (hrun : p.Runs (reliable top) w₁ (.ok s') w₁') :
      (Invariant n top s' w₁' ∧ s'.Replied requestId) ∨
        Waits n top requestId t (w.dueBy t) s' w₁' ∧
          s'.turnsLeft (w.dueBy t) ≤ s.turnsLeft (w.dueBy t) ∧
            (System.Attends s p → s'.turnsLeft (w.dueBy t) < s.turnsLeft (w.dueBy t)) := by
    have hi' := hw.invariant.leads hn htop.le (.one (T := turns System.Usual n speed) hp hrun)
    exact (hw.nearer hn htop hp hrun).imp (fun hdone ↦ ⟨hi', hdone⟩) id
  by_cases hdone : requestId ∈ s.completed.map (·.requestId)
  · exact .inl (hc.leads.keeps (I := fun s w ↦ Invariant n top s w ∧ s.Replied requestId) hkept
      ⟨hi, List.mem_map.mp hdone⟩).2
  have hwaits : Waits n top requestId t (w.dueBy t) s w := by
    refine ⟨hi, List.mem_filter.mpr ⟨?_, decide_eq_true hdone⟩, hgiven, hlate, fun p hp hle ↦ ?_⟩
    · rw [← hi.books.given]
      exact List.mem_map_of_mem hgiven
    · exact List.mem_map_of_mem (List.mem_filter.mpr ⟨hp, decide_eq_true hle⟩)
  rcases hc.response hturn hkept hwaits with hdone | ⟨hw', hle⟩
  · exact .inl hdone.2
  · have hpos := hw'.turnsLeft_pos
    have hmost := hi.turnsLeft_le t
    have hfails := (reachable_invariant (keeps_reliable top) h1 hn h0 htop.le
      (hc.leads.reachable h)).2.1
    exact .inr ⟨by omega, hw'.busy htop, fun p hp e w'' hrun ↦
      hfails e ⟨p, hp.enters System.Usual, w'', hrun⟩⟩

/-- A read is due, and another one is submitted, while the task wakes up and replies the write that
was due before it. -/
theorem replied_within_three : ∃ s w s' w',
    (turns System.Usual 3 0).Reachable (reliable (LONG_MAX - 1)) s w ∧ (126, 2) ∈ w.given ∧
      2 ≤ w.now ∧ (turns System.Usual 3 0).Counted (reliable (LONG_MAX - 1)) System.Attends s w 3
        s' w' ∧ s'.submitted.length = 3 ∧ s'.completed.map (·.requestId) = [124] ∧ 3 < 3 + 2 ∧
          (∃ p, System.Enters System.Usual s' p ∧ System.Attends s' p) ∧
            ∀ p, System.Attends s' p →
              ∀ e w'', ¬ p.Runs (reliable (LONG_MAX - 1)) w' (.error e) w'' := by
  obtain ⟨⟨s, w⟩, hs, hgiven, hlate, ⟨s', w'⟩, hs', hlength, hcompleted⟩ :
      ∃ r ∈ session System.Usual 3 0 [.task, .strategy [writeAt 0 5, readAt 1 5]],
        (126, 2) ∈ r.2.given ∧ 2 ≤ r.2.now ∧
          ∃ r' ∈ continued System.Usual [.task, .strategy [readAt 2 8], .task, .task] r,
            r'.1.submitted.length = 3 ∧ r'.1.completed.map (·.requestId) = [124] := by
    decide +kernel
  have h := session_reachable hs
  have hc : (turns System.Usual 3 0).Counted (reliable (LONG_MAX - 1)) System.Attends s w 3 s' w' :=
    continued_counted hs'
  rcases replied_within (by decide) (by decide) (by decide) (by decide) h hgiven hlate hc with
    ⟨c, hc', hid⟩ | ⟨hk, hbusy, hruns⟩
  · have hmem : (126 : UInt32) ∈ s'.completed.map (·.requestId) := hid ▸ List.mem_map_of_mem hc'
    rw [show s'.completed.map (·.requestId) = [124] from hcompleted] at hmem
    exact absurd hmem (by decide)
  · exact ⟨s, w, s', w', h, hgiven, hlate, hc, hlength, hcompleted, hk, hbusy, hruns⟩

end Nctusde.EmulatorKernel

import Nctusde.EmulatorKernel.Delivery

namespace Nctusde.EmulatorKernel

open BlockLayer Library Library.Table Network UdpServer Wire

/-- The next batch is not past the time for which the processing task waits. -/
def Task.Due (d : Emudisk) (w : World) : Task → Prop
  | .sleepingUntil time _ => d.nextResponseToReplyTime ≤ time
  | .expired => d.nextResponseToReplyTime ≤ w.passed
  | .processing => d.nextResponseToReplyTime < w.now
  | .starting | .sleeping _ => True

/-- What holds of the driver and the emulator whenever the lock is free or held by the
processing task. -/
structure Invariant (n : ℕ) (top : ℤ) (s : System) (w : World) : Prop where
  books : Books n s w
  synced : Synced n top s w
  batch : Batch s.disk w.sim
  timeFits : TimeFits s.disk
  minds : s.task.Minds s.disk
  due : s.task.Due s.disk w
  running : s.queueStopped = false → s.disk.requestInflight < n

variable {n : ℕ} {top : ℤ} {s s' : System} {w w' : World} {d : Emudisk} {next : NextResponses}
  {E : Trap → Prop}

theorem Batch.sameChannels {sim sim' : MySSDSim} (h : Batch d sim)
    (hs : MySSDSim.SameChannels sim sim') : Batch d sim' := by
  refine ⟨?_, ?_, ?_⟩
  · rw [hs.nextResponses]
    exact h.num
  · rw [hs.nextResponses]
    exact h.time
  · rw [hs.nextResponses]
    exact h.ids

theorem takeUp_time_le {sim : MySSDSim} (h : Batch d sim) (h0 : 0 ≤ d.latestResponseTime)
    (hnum : d.nextResponseToReplyNum ≠ 0) (hnext : 0 ≤ next.time) :
    (d.takeUp next).1.nextResponseToReplyTime ≤ d.nextResponseToReplyTime := by
  obtain ⟨t', hat⟩ := h.at hnum
  have hlater := hat.next.later
  have hbounded := hat.next.bounded
  have htime := hat.time
  rw [LONG_MAX] at hbounded
  have hto : toU64 d.nextResponseToReplyTime = d.nextResponseToReplyTime :=
    toU64_of_fits (by omega) (by omega)
  unfold Emudisk.takeUp
  rw [hto]
  split
  · rename_i htake
    have hle : next.time ≤ d.nextResponseToReplyTime := by
      rcases htake.2 with hzero | hlt | ⟨heq, -⟩
      · exact absurd hzero hnum
      · exact hlt.le
      · exact heq.ge
    dsimp only
    rw [toLong_of_fits (by omega) (by omega)]
    exact hle
  · exact le_rfl

theorem Task.Due.takeUp {task : Task} {sim : MySSDSim} (h : task.Due d w) (hm : task.Minds d)
    (hb : Batch d sim) (h0 : 0 ≤ d.latestResponseTime) (hnext : 0 ≤ next.time) (w' : World)
    (hpassed : w'.passed = w.passed) (hnow : w.now ≤ w'.now) (b : Bool) :
    (if b then task.wake else task).Due (d.takeUp next).1 w' := by
  have hle (hnum : d.nextResponseToReplyNum ≠ 0) := takeUp_time_le hb h0 hnum hnext
  cases task with
  | starting => cases b <;> trivial
  | sleeping woken => cases b <;> trivial
  | sleepingUntil time woken => cases b <;> exact (hle hm.1).trans h
  | expired => cases b <;> exact (hle hm).trans (h.trans hpassed.ge)
  | processing => cases b <;> exact (hle hm).trans_lt (h.trans_le hnow)

/-- The end of `strategy`: the batch is compared with what the emulator reports now. -/
theorem Invariant.announce (h : Invariant n top s w) (hn : n ≤ MAX_DISK_REQUESTS_IN_PARALLEL)
    (hs : Submits n top s w s' w')
    (hrun : s'.queueStopped = false → s'.disk.requestInflight < n) :
    s'.announce.wp (owed top) E (Invariant n top) w' := by
  have hsy := hs.synced
  rw [System.announce, Program.bind_eq, Program.wp_bind]
  refine wp_emulatorGetResponses hsy.ahead hsy.latest (hsy.latestNow.trans hsy.now)
    (hsy.count.trans_le hn) fun w'' next hq hahead hreports ↦ ?_
  have hnumbered : SameRequests s'.disk s'.disk.numbered := sameRequests_numbered _
  have hbatch₀ : Batch s'.disk.numbered w.sim :=
    (hs.batch.trans (.of_sameRequests hnumbered)).batch h.batch
  have hgrows : Grows s'.disk.numbered.latestResponseTime w.sim w'.sim :=
    hs.batch.latest.symm ▸ hs.grows
  have hbatch := hbatch₀.takeUp hsy.latest hgrows hreports
  have hsame := (SameBooks.of_sameRequests hnumbered).trans (.takeUp s'.disk.numbered next)
  have hnext : 0 ≤ next.time :=
    hreports.time ▸ (nextResponses_bounds w'.sim hsy.latest (hsy.count.trans_le hn)).2.1
  have htime := hs.batch.time
  have hnum := hs.batch.num
  have hminds : s'.task.Minds s'.disk.numbered := hs.task ▸ h.minds.same ⟨htime, hnum⟩
  have hfits : TimeFits s'.disk.numbered := by
    have hfits := h.timeFits
    rw [TimeFits, ← htime] at hfits
    exact hfits
  have hdue : s'.task.Due s'.disk.numbered w := by
    have hdue := h.due
    unfold Task.Due at hdue
    rw [← htime, ← hs.task] at hdue
    exact hdue
  obtain ⟨hfits', hminds'⟩ := hminds.takeUp hfits next
  have hahead' : Ahead (s'.disk.numbered.takeUp next).1 w'' := by
    unfold Emudisk.takeUp
    split <;> exact ⟨hahead.nonneg, hahead.lt, hahead.pos⟩
  have hdue' := hdue.takeUp hminds hbatch₀ hsy.latest hnext w''
    (hq.passed.trans hs.passed) (hs.now.trans hq.now.ge) (s'.disk.numbered.takeUp next).2
  exact ⟨{ (hs.books.quiet hq).same hsame with }, { hsy.quiet hq hsame hahead' with },
    hbatch.sameChannels hq.sim, hfits', hminds', hdue', fun hstop ↦
      hsame.requestInflight.trans_lt (hrun hstop)⟩

theorem Invariant.strategy (h : Invariant n top s w) (hn : n ≤ MAX_DISK_REQUESTS_IN_PARALLEL)
    (htop : top ≤ LONG_MAX) (hlock : s.LockFree) (hrun : s.queueStopped = false)
    {queue : List Request}
    (hqueue : ∀ req ∈ queue, System.Usual req) :
    (s.strategy queue).wp (owed top) E (Invariant n top) w := by
  rw [System.strategy, Program.bind_eq, Program.wp_bind]
  refine Program.wp_mono (fun r w' hr ↦ ?_)
    (wp_strategyLoop h.books h.synced htop hrun (h.running hrun) hqueue false)
  obtain ⟨hs, hrun', hquiet⟩ := hr
  dsimp only
  split
  · exact h.announce hn hs hrun'
  · rename_i hnone
    have hsim := (hquiet (Bool.not_eq_true _ ▸ hnone)).2
    refine ⟨hs.books, hs.synced, ?_, ?_, ?_, ?_, hrun'⟩
    · rw [hsim]
      exact hs.batch.batch h.batch
    · rw [TimeFits, hs.batch.time]
      exact h.timeFits
    · rw [hs.task]
      exact h.minds.same ⟨hs.batch.time, hs.batch.num⟩
    · have hdue := h.due
      rw [hs.task]
      cases htask : s.task with
      | starting => trivial
      | sleeping woken => trivial
      | sleepingUntil time woken =>
        rw [htask] at hdue
        exact hs.batch.time.le.trans hdue
      | expired =>
        rw [htask] at hdue
        exact (hs.batch.time.le.trans hdue).trans hs.passed.ge
      | processing => exact absurd htask hlock

theorem Books.release (h : Books n s w) {req : Request} (hreq : req ∈ s.completing) :
    Books n { s with
      disk := { s.disk with requestInflight := s.disk.requestInflight - 1 }
      completing := s.completing.eraseP fun r ↦ r.tag = req.tag } w where
  __ := h
  inflight := by
    have hlen : (s.completing.eraseP fun r ↦ r.tag = req.tag).length + 1 = s.completing.length := by
      rw [List.length_eraseP_of_mem hreq (by simp)]
      have := List.length_pos_of_mem hreq
      omega
    have hinflight := h.inflight
    change s.disk.requestInflight - 1 = s.disk.pending.length +
      ((s.completing.eraseP fun r ↦ r.tag = req.tag).length : ℤ)
    omega
  bounded := by
    have := h.bounded
    dsimp only
    omega

theorem Invariant.softirqDone (h : Invariant n top s w) (hn : n ≤ MAX_DISK_REQUESTS_IN_PARALLEL)
    (htop : top ≤ LONG_MAX) (hlock : s.LockFree) {req : Request} (hreq : req ∈ s.completing)
    {queue : List Request} (hqueue : ∀ req ∈ queue, System.Usual req) :
    (s.softirqDone req queue).wp (owed top) E (Invariant n top) w := by
  have hb := h.books.release hreq
  have hbounded := h.books.bounded
  have hrun : s.disk.requestInflight - 1 < n := by omega
  have hsy : Synced n top { s with
      disk := { s.disk with requestInflight := s.disk.requestInflight - 1 }
      completing := s.completing.eraseP fun r ↦ r.tag = req.tag } w :=
    { h.synced with ahead := h.synced.ahead.same rfl rfl }
  have hbatch : Batch { s.disk with requestInflight := s.disk.requestInflight - 1 } w.sim :=
    { h.batch with }
  have hminds : s.task.Minds { s.disk with requestInflight := s.disk.requestInflight - 1 } :=
    h.minds.same ⟨rfl, rfl⟩
  have hdue : s.task.Due { s.disk with requestInflight := s.disk.requestInflight - 1 } w := h.due
  unfold System.softirqDone
  dsimp only
  split
  · refine Invariant.strategy (s := { s with
      disk := { s.disk with requestInflight := s.disk.requestInflight - 1 }
      completing := s.completing.eraseP fun r ↦ r.tag = req.tag
      queueStopped := false }) ?_ hn htop hlock rfl hqueue
    exact ⟨{ hb with }, { hsy with }, hbatch, h.timeFits, hminds, hdue, fun _ ↦ hrun⟩
  · exact ⟨hb, hsy, hbatch, h.timeFits, hminds, hdue, fun _ ↦ hrun⟩

theorem invariant_sleep (hb : Books n s w) (hsy : Synced n top s w) (hbatch : Batch s.disk w.sim)
    (hfits : TimeFits s.disk) (hrun : s.queueStopped = false → s.disk.requestInflight < n) :
    Invariant n top s.sleep w := by
  have hw := System.Wakeful.sleep hfits
  refine ⟨{ hb with }, { hsy with }, hbatch, hfits, hw.minds, ?_, hrun⟩
  unfold System.sleep
  dsimp only
  split
  · trivial
  · exact le_rfl

/-- The next batch is found and slept on, or processed at once when it is due. -/
theorem wp_findNext (hn : n ≤ MAX_DISK_REQUESTS_IN_PARALLEL) (hb : Books n s w)
    (hsy : Synced n top s w) (hfits : TimeFits s.disk)
    (hrun : s.queueStopped = false → s.disk.requestInflight < n) :
    s.findNext.wp (owed top) E (Invariant n top) w := by
  rw [System.findNext, Program.bind_eq, Program.wp_bind]
  refine wp_emulatorGetResponses hsy.ahead hsy.latest (hsy.latestNow.trans hsy.now)
    (hsy.count.trans_le hn) fun w' next hq hahead hreports ↦ ?_
  dsimp only
  have hnumbered : SameRequests s.disk s.disk.numbered := sameRequests_numbered _
  have hsame := (SameBooks.of_sameRequests hnumbered).trans (.replace s.disk.numbered next)
  have hahead' : Ahead (s.disk.numbered.replace next) w' := by
    unfold Emudisk.replace
    dsimp only
    split <;> exact ⟨hahead.nonneg, hahead.lt, hahead.pos⟩
  have hb' := (hb.quiet hq).same hsame
  have hsy' := hsy.quiet hq hsame hahead'
  have hbatch : Batch (s.disk.numbered.replace next) w'.sim :=
    (Batch.replace (d := s.disk.numbered) hsy.latest hreports).sameChannels hq.sim
  have hfits' := System.timeFits_replace (d := s.disk.numbered) hfits next
  have hrun' : s.queueStopped = false → (s.disk.numbered.replace next).requestInflight < n :=
    fun hstop ↦ hsame.requestInflight.trans_lt (hrun hstop)
  split
  · rename_i hnum
    split
    · rename_i hearly
      exfalso
      have hn' := hreports.num
      have ht' := hreports.time
      rcases nextAt_or_none w.sim s.disk.latestResponseTime with ⟨t', hnext⟩ | hnone
      · rw [hnext.reported] at ht'
        have hlater := hnext.later
        have htime : next.time = t' := ht'
        have hearly : next.time < s.disk.latestResponseTime := hearly
        omega
      · rw [hnone.reported] at hn'
        exact hnum (Int.natCast_eq_zero.mp hn')
    rw [Program.bind_eq, Program.wp_bind]
    refine wp_reading fun t ht _ hmax ↦ ?_
    split
    · rename_i hdue
      refine ⟨{ hb'.read t with }, { hsy'.read ht hmax with }, hbatch, hfits', ?_, hdue, hrun'⟩
      unfold Emudisk.replace
      dsimp only
      rw [if_pos hnum]
      exact hnum
    · exact invariant_sleep (hb'.read t) (hsy'.read ht hmax) hbatch hfits' hrun'
  · exact invariant_sleep hb' hsy' hbatch hfits' hrun'

theorem Invariant.inOrder (h : Invariant n top s w) {t t' : ℤ} (hat : BatchAt s.disk w.sim t')
    (ht : w.now < t) (hmax : t ≤ LONG_MAX) : ¬ s.disk.latestResponseTime > toU64 t ∧
      ¬ s.disk.latestResponseTime > toU64 s.disk.nextResponseToReplyTime := by
  have hlatest := h.synced.latest
  have hlatestNow := h.synced.latestNow
  have hlater := hat.next.later
  have hbounded := hat.next.bounded
  rw [LONG_MAX] at hmax hbounded
  rw [hat.time, toU64_of_fits (by omega) (by omega), toU64_of_fits (by omega) (by omega)]
  omega

theorem Invariant.findNext (h : Invariant n top s w) (hn : n ≤ MAX_DISK_REQUESTS_IN_PARALLEL)
    {t t' : ℤ} (hat : BatchAt s.disk w.sim t') (hle : t' ≤ t) (ht : w.now < t) (hmax : t ≤ LONG_MAX)
    (hreplies : Replies n t' s { w with now := t } s.disk.nextResponseToReplyNum s') :
    s'.findNext.wp (owed top) E (Invariant n top) { w with now := t } := by
  refine wp_findNext hn hreplies.books (hreplies.synced (h.synced.read ht hmax) hat hle) ?_
    fun hstop ↦ ?_
  · rw [TimeFits, hreplies.time]
    exact h.timeFits
  · rw [hreplies.requestInflight]
    exact h.running (hreplies.queueStopped ▸ hstop)

theorem Invariant.processNext (h : Invariant n top s w) (hn : n ≤ MAX_DISK_REQUESTS_IN_PARALLEL)
    (hnum : s.disk.nextResponseToReplyNum ≠ 0)
    (hdue : ∀ t, w.now < t → w.passed ≤ t → s.disk.nextResponseToReplyTime ≤ t) :
    s.processNext.wp (owed top) E (Invariant n top) w := by
  obtain ⟨t', hat⟩ := h.batch.at hnum
  rw [System.processNext, Program.bind_eq, Program.wp_bind]
  refine wp_reading fun t ht hpassed hmax ↦ ?_
  have hle : t' ≤ t := hat.time ▸ hdue t ht hpassed
  obtain ⟨hnow, hnext⟩ := h.inOrder hat ht hmax
  rw [if_neg hnow, if_neg hnext, if_neg hnum, Program.bind_eq, Program.wp_bind]
  refine Program.wp_mono (fun s' w' hs' ↦ ?_)
    (wp_completeBatch (h.books.read t) (h.synced.read ht hmax) hat hle)
  obtain ⟨rfl, hreplies⟩ := hs'
  exact h.findNext hn hat hle ht hmax hreplies

theorem Invariant.turn (h : Invariant n top s w) (hn : n ≤ MAX_DISK_REQUESTS_IN_PARALLEL)
    (htop : top ≤ LONG_MAX) {p : Prog System} (hp : System.Enters System.Usual s p) :
    p.wp (owed top) E (Invariant n top) w := by
  have hminds := h.minds
  have hdue := h.due
  cases hp with
  | strategy hlock hrun hqueue => exact h.strategy hn htop hlock hrun hqueue
  | softirqDone hlock hreq hqueue => exact h.softirqDone hn htop hlock hreq hqueue
  | start htask => exact invariant_sleep h.books h.synced h.batch h.timeFits h.running
  | woken htask =>
    rw [htask] at hminds
    exact ⟨{ h.books with }, { h.synced with }, h.batch, h.timeFits, ⟨hminds.mpr rfl, fun _ ↦ rfl⟩,
      le_rfl, h.running⟩
  | interrupted htask =>
    rw [htask] at hminds
    exact ⟨{ h.books with }, { h.synced with }, h.batch, h.timeFits, ⟨hminds.1, fun _ ↦ rfl⟩,
      le_rfl, h.running⟩
  | @timer time _ htask =>
    rw [htask] at hminds hdue
    rintro -
    refine ⟨trivial, fun _ w' hans ↦ ?_⟩
    obtain rfl : w' = { w with passed := max w.passed time } := hans
    have hpassed : s.disk.nextResponseToReplyTime ≤ max w.passed time :=
      hdue.trans (le_max_right _ _)
    exact ⟨{ h.books with }, { h.synced with
      ahead := h.synced.ahead.same rfl rfl }, h.batch, h.timeFits, hminds.1, hpassed,
      h.running⟩
  | expired htask =>
    rw [htask] at hminds hdue
    exact h.processNext hn hminds fun t _ hpassed ↦ hdue.trans hpassed
  | processing htask =>
    rw [htask] at hminds hdue
    exact h.processNext hn hminds fun t ht _ ↦ (hdue.trans ht).le

theorem noneAfter_of_idle {sim : MySSDSim} (h : ∀ i < sim.count, sim.completionTime i = 0) :
    NoneAfter sim 0 := by
  rcases nextAt_or_none sim 0 with ⟨t', hnext⟩ | hnone
  · obtain ⟨i, hi, htime⟩ := hnext.busy
    have hlater := hnext.later
    rw [h i hi] at htime
    omega
  · exact hnone

/-- Any server takes the reset: it is idle then, expects any id, and its storage is as it was. -/
theorem System.IsStart.boots {speed : ℕ} (hs : s.IsStart n speed)
    (hn : n ≤ MAX_DISK_REQUESTS_IN_PARALLEL) (server : Server) :
    ∃ server' : Server,
      server.receive (datagramOf s.bootRequest []) = .loop server' (some server'.datagram) ∧
      InForce (requestOf (datagramOf s.bootRequest [])) server'.mySSDSim ∧
      (requestOf (datagramOf s.bootRequest [])).data2.toNat = n ∧
      Server.Served server' (requestOf (datagramOf s.bootRequest [])) .ok server'.mySSDSim 0
        server.memoryStorage := by
  have hreq := requestOf_reset { s.disk with udpSendReplyId := 123 }
  have hsize : (toU32 s.disk.size).toNat ≤ 819200 := by
    rw [hs.size]
    decide
  have hchannels : (requestOf (datagramOf s.bootRequest [])).data2.toNat = n := by
    rw [MAX_DISK_REQUESTS_IN_PARALLEL] at hn
    have hto : (toU32 s.disk.diskChannels).toNat = n := by
      rw [hs.diskChannels]
      exact toNat_toU32_natCast (by omega)
    rw [System.bootRequest, hreq]
    exact hto
  have hadm : Admissible (requestOf (datagramOf s.bootRequest [])) := by
    refine ⟨hchannels.trans_le (hn.trans (by decide)), ?_⟩
    rw [System.bootRequest, hreq]
    exact (Int.ofNat_le.mpr hsize).trans (by decide)
  obtain ⟨sim, hsetup⟩ := server.mySSDSim.setup_isSome hadm
  obtain ⟨server', hrec, hserved, -⟩ :=
    Server.receive_reset_ok (readable_reset _) (isReset_reset _) hsetup
  obtain rfl : server'.mySSDSim = sim := hserved.mySSDSim
  exact ⟨server', hrec, MySSDSim.setup_inForce hadm hsetup, hchannels, hserved⟩

theorem World.IsStart.server_spec {speed : ℕ} (h : w.IsStart s) (hs : s.IsStart n speed)
    (hn : n ≤ MAX_DISK_REQUESTS_IN_PARALLEL) : w.sim.channels = n ∧
      w.sim.speedFactor = (toU32 speed).toNat ∧ w.counter = 0 ∧
      ∀ i < w.sim.count, w.sim.completionTime i = 0 := by
  obtain ⟨server, b, hrec⟩ := h.server
  obtain ⟨server', hrec', hin, hchannels, hserved⟩ := hs.boots hn server
  obtain rfl := Outcome.server_unique hrec' hrec
  have hspeed : w.server.mySSDSim.speedFactor = _ := hin.speedFactor
  rw [System.bootRequest, requestOf_reset] at hspeed
  exact ⟨hin.channels.trans (congrArg Nat.cast hchannels),
    hspeed.trans (by rw [← hs.speedFactor]; rfl), hserved.currentMaxRequestId,
    fun i hi ↦ (hin.idle i hi).2⟩

theorem System.IsStart.pending {speed : ℕ} (h : s.IsStart n speed) : s.disk.pending = [] :=
  entries_eq_nil fun i hi ↦ Emudisk.held_eq_none.mpr (h.free i hi)

theorem System.IsStart.books {speed : ℕ} (h : s.IsStart n speed) (hw : w.IsStart s) :
    Books n s w where
  diskChannels := h.diskChannels
  usual := by
    rw [h.submitted]
    exact fun p hp ↦ nomatch hp
  ids := by
    rw [h.submitted]
    exact List.nodup_nil
  nonzero := by
    rw [h.submitted]
    exact fun p hp ↦ nomatch hp
  old := by
    rw [h.submitted]
    exact fun p hp ↦ nomatch hp
  history := by
    rw [h.submitted, h.pending, h.completed]
    exact .refl _
  given := by
    rw [hw.given, h.submitted]
    rfl
  completed := by
    rw [h.completed]
    exact fun c hc ↦ nomatch hc
  ordered := by
    rw [h.completed]
    exact .nil
  inflight := by
    rw [h.requestInflight, h.pending, h.completing]
    rfl
  bounded := by
    rw [h.requestInflight]
    exact Int.natCast_nonneg n

theorem System.IsStart.synced {speed : ℕ} (h : s.IsStart n speed) (hw : w.IsStart s)
    (hn : n ≤ MAX_DISK_REQUESTS_IN_PARALLEL) (htop : 0 ≤ top) : Synced n top s w := by
  obtain ⟨hchannels, hspeed, hcounter, hidle⟩ := hw.server_spec h hn
  refine ⟨hchannels, hspeed.ge.trans' (Int.natCast_nonneg _),
    ⟨hcounter.ge, fun _ ↦ ?_, fun h0 ↦ ?_⟩, ?_, fun i hi hlt ↦ ?_, fun i hi ↦ ?_, ?_,
    h.latestResponseTime.ge, ?_, ?_⟩
  · rw [hcounter, h.udpSendReplyId]
    decide
  · rw [h.udpSendReplyId] at h0
    exact absurd h0 (by decide)
  · have hbusy : w.sim.busyAfter s.disk.latestResponseTime = [] := by
      refine entries_eq_nil fun i hi ↦ ?_
      rw [guarded, hidle i hi, h.latestResponseTime, if_neg (lt_irrefl 0)]
    rw [hbusy, h.pending]
    exact .refl _
  · rw [hidle i hi, h.latestResponseTime] at hlt
    exact absurd hlt (lt_irrefl 0)
  · exact (hidle i hi).trans_le htop
  · rw [h.completed]
    exact fun c hc ↦ absurd hc List.not_mem_nil
  · rw [h.latestResponseTime, hw.now]
  · rw [hw.now]
    decide

theorem invariant_start {speed : ℕ} (h : s.IsStart n speed) (hw : w.IsStart s) (h1 : 1 ≤ n)
    (hn : n ≤ MAX_DISK_REQUESTS_IN_PARALLEL) (htop : 0 ≤ top) : Invariant n top s w := by
  obtain ⟨-, -, -, hidle⟩ := hw.server_spec h hn
  refine ⟨h.books hw, h.synced hw hn htop, ?_, ?_, ?_, ?_, fun _ ↦ ?_⟩
  · exact NoneAfter.batch (h.latestResponseTime ▸ noneAfter_of_idle hidle) h.nextResponseToReplyNum
  · rw [TimeFits, h.nextResponseToReplyTime]
    decide
  · rw [h.task]
    trivial
  · rw [h.task]
    trivial
  · rw [h.requestInflight]
    exact Int.natCast_pos.mpr h1

/-- The invariant holds in every reachable state of the driver and the emulator, no run
ends in a trap, and every message is served unless its id is 0. -/
theorem reachable_invariant {G : Handler World Op Ans} (hG : Program.Keeps G (owed top) Eq)
    {speed : ℕ} (h1 : 1 ≤ n) (hn : n ≤ MAX_DISK_REQUESTS_IN_PARALLEL) (h0 : 0 ≤ top)
    (htop : top ≤ LONG_MAX) (h : (turns System.Usual n speed).Reachable G s w) :
    Invariant n top s w ∧ (∀ e, ¬ (turns System.Usual n speed).Fails G s w e) ∧
      ∀ r data w', (turns System.Usual n speed).Makes G s w (.communicate r data) w' →
        G.admits w' (.communicate r data) ∧ (r.id ≠ 0 → w'.Welcomes r data) ∧
          (r.id = 0 → w'.server.receive (datagramOf r data) = .hang .staleId) := by
  have hturn : ∀ s w p, Invariant n top s w → (turns System.Usual n speed).enters s p →
      p.wp (owed top) (fun _ ↦ False) (Invariant n top) w := fun s w p hi hp ↦ hi.turn hn htop hp
  have hstart : ∀ s w, (turns System.Usual n speed).start s w → ∃ v, w = v ∧ Invariant n top s v :=
    fun s w hs ↦ ⟨w, rfl, invariant_start hs.1 hs.2 h1 hn h0⟩
  have hdrift (v v' w : World) (hd : (turns System.Usual n speed).drifts v v') : v = w → v' = w :=
    hd.elim
  obtain ⟨_, rfl, hi⟩ := h.invariant hG hdrift hstart hturn
  refine ⟨hi, fun e hf ↦ hf.allowed hG hturn rfl hi, fun r data w' hm ↦ ?_⟩
  obtain ⟨_, rfl, hadm, hreq⟩ := hm.required hG hturn rfl hi
  exact ⟨hadm, hreq⟩

end Nctusde.EmulatorKernel

import Nctusde.EmulatorKernel.Rounds

namespace Nctusde.EmulatorKernel

open BlockLayer Library Library.Program Network UdpServer Wire

variable {n speed : ℕ} {top top' t : ℤ} {s : System} {w : World} {req : Request}

theorem World.exists_isStart (n speed : ℕ) : ∃ w : World, w.IsStart (System.loaded n speed) := by
  obtain ⟨server, hs, -⟩ := receive_resetRequest
    (d := { (System.loaded n speed).disk with udpSendReplyId := 123 }) Server.zeroed rfl
  exact ⟨⟨server, 0, 0, []⟩, ⟨_, _, hs⟩, rfl, rfl, rfl⟩

theorem reachable_loaded {G : Handler World Op Ans} {P : Request → Prop}
    (hw : w.IsStart (System.loaded n speed)) :
    (turns P n speed).Reachable G (System.loaded n speed) w :=
  .start ⟨System.loaded_isStart n speed, hw⟩

def sectorRead : Request where
  tag := 0
  cmdType := .fs
  dataDir := .read
  pos := 0
  segments := [List.replicate SECTOR_SIZE 0]

theorem sectorRead_usual : System.Usual sectorRead := by
  refine ⟨rfl, ?_⟩
  rw [sectorRead, Request.bytes, List.map_singleton, List.sum_singleton, List.length_replicate]
  decide

theorem sectorRead_one : sectorCount sectorRead = 1 := by
  rw [sectorCount, sectorRead, Request.bytes, List.map_singleton, List.sum_singleton,
    List.length_replicate]
  rfl

/-- Admission never fails and never loses a request: there is room for every request
that is fetched, the emulator accepts it, and holds what was not replied. -/
theorem admission_kept (h1 : 1 ≤ n) (hn : n ≤ MAX_DISK_REQUESTS_IN_PARALLEL)
    (h : (turns System.Usual n speed).Reachable (reliable LONG_MAX) s w) :
    (0 ≤ s.disk.requestInflight ∧ s.disk.requestInflight ≤ s.disk.diskChannels) ∧
      ¬ (turns System.Usual n speed).Fails (reliable LONG_MAX) s w .noFreeEntry ∧
      ¬ (turns System.Usual n speed).Fails (reliable LONG_MAX) s w .staleTime ∧
      (∀ r data w', (turns System.Usual n speed).Makes (reliable LONG_MAX) s w
        (.communicate r data) w' → w'.Welcomes r data) ∧
      (s.submitted.map fun p ↦ (p.1, some p.2)).Perm
        (s.disk.pending ++ s.completed.map fun c ↦ (c.requestId, some c.req)) ∧
      (w.sim.busyAfter s.disk.latestResponseTime).Perm
        (s.disk.pending.map fun p ↦ (p.1.toNat : ℤ)) := by
  obtain ⟨hi, hfails, hserved⟩ :=
    reachable_invariant (keeps_reliable LONG_MAX) h1 hn (by decide) le_rfl h
  have hbounded := hi.books.bounded
  have hinflight := hi.books.inflight
  have hchannels := hi.books.diskChannels
  refine ⟨⟨by omega, by omega⟩, hfails _, hfails _, fun r data w' hm ↦ ?_, hi.books.history,
    hi.synced.busy⟩
  obtain ⟨hadm, hwelcome, -⟩ := hserved r data w' hm
  exact hwelcome hadm.1

theorem exists_first (htop : top ≤ LONG_MAX) (h0 : 0 < t) (ht : t ≤ top) : ∃ s w,
    (turns System.Usual 1 0).Reachable (reliable top) s w ∧ s.LockFree ∧
      s.disk.requestInflight = 1 ∧ s.completed = [] ∧ s.submitted = [(124, sectorRead)] ∧
        w.given = [(124, t)] := by
  obtain ⟨w, hw⟩ := World.exists_isStart 1 0
  have hs := System.loaded_isStart 1 0
  have hspeed : w.sim.speedFactor = 0 := (hw.server_spec hs (by decide)).2.1
  have hlock : (System.loaded 1 0).LockFree := fun htask ↦ nomatch htask
  have hi := invariant_start hs hw le_rfl (by decide) (h0.le.trans ht)
  obtain ⟨s', w', hrun, ⟨hsent, -, htask⟩, -⟩ := can_strategy hi htop hlock rfl sectorRead_usual
    sectorRead_one (hw.now.trans_lt h0) (hw.passed.trans_le h0.le) ht hspeed (by decide) (by decide)
    (by decide)
  refine ⟨s', w', (reachable_loaded hw).turn (.strategy hlock rfl fun r hr ↦ ?_) hrun, ?_,
    hsent.requestInflight, hsent.completed, hsent.submitted, ?_⟩
  · rw [List.mem_singleton.mp hr]
    exact sectorRead_usual
  · intro hprocessing
    rcases htask with htask | htask
    · exact nomatch htask.symm.trans hprocessing
    · exact nomatch htask.symm.trans hprocessing
  · rw [hsent.given, hw.given]
    rfl

theorem admission_kept_one : ∃ s w, s.disk.requestInflight = 1 ∧
    (turns System.Usual 1 0).Reachable (reliable LONG_MAX) s w ∧
      s.disk.requestInflight ≤ s.disk.diskChannels ∧
        ¬ (turns System.Usual 1 0).Fails (reliable LONG_MAX) s w .noFreeEntry := by
  obtain ⟨s, w, h, -, hone, -⟩ := exists_first le_rfl (t := 1) (by decide) (by decide)
  have hkept := admission_kept (by decide) (by decide) h
  exact ⟨s, w, hone, h, hkept.1.2, hkept.2.1⟩

/-- Delivery is exactly once, in order and never early, while no completion is at the
largest time there is: the batch is the requests that complete first, no turn gets caught, and the
history pairs every completed request with its id and its time. -/
theorem delivery_kept (h1 : 1 ≤ n) (hn : n ≤ MAX_DISK_REQUESTS_IN_PARALLEL)
    (h : (turns System.Usual n speed).Reachable (reliable (LONG_MAX - 1)) s w) :
    (s.LockFree → s.NextBatch w) ∧
      (∀ e, ¬ (turns System.Usual n speed).Fails (reliable (LONG_MAX - 1)) s w e) ∧
      (∀ c ∈ s.completed, (c.requestId, c.req) ∈ s.submitted ∧ (c.requestId, c.time) ∈ w.given ∧
        c.time ≤ c.now) ∧
      (s.submitted.map (·.1)).Nodup ∧ (s.completed.map (·.requestId)).Nodup ∧
      s.completed.Pairwise fun c c' ↦ c.time ≤ c'.time := by
  obtain ⟨hi, hfails, -⟩ :=
    reachable_invariant (keeps_reliable (LONG_MAX - 1)) h1 hn (by decide) (by decide) h
  refine ⟨fun _ ↦ hi.nextBatch (by decide), hfails, fun c hc ↦ ?_, hi.books.ids,
    (List.nodup_append.mp hi.books.completed_nodup).2.1, hi.books.ordered⟩
  have hmem : (c.requestId, some c.req) ∈ s.submitted.map fun p ↦ (p.1, some p.2) :=
    hi.books.history.mem_iff.mpr (List.mem_append_right _ (List.mem_map.mpr ⟨c, hc, rfl⟩))
  obtain ⟨p, hp, heq⟩ := List.mem_map.mp hmem
  rw [Prod.mk.injEq, Option.some.injEq] at heq
  obtain ⟨hid, hreq⟩ := heq
  exact ⟨hid ▸ hreq ▸ hp, hi.books.completed c hc⟩

theorem exists_idle : ∃ s w, Idle 0 s w ∧ s.disk.udpSendReplyId = 124 := by
  obtain ⟨w, hw⟩ := World.exists_isStart 1 0
  have hs := System.loaded_isStart 1 0
  refine ⟨(System.loaded 1 0).sleep, w, ⟨(reachable_loaded hw).turn (.start rfl)
    ⟨rfl, rfl⟩, rfl, rfl, rfl, (hw.server_spec hs (by decide)).2.1, ?_, hw.passed.le, hw.now.le⟩,
      rfl⟩
  rw [hw.given]
  exact fun p hp ↦ nomatch hp

/-- The last of three requests was replied first, the second one is the next batch. -/
theorem delivery_kept_three : ∃ s w,
    (turns System.Usual 3 1).Reachable (reliable (LONG_MAX - 1)) s w ∧
      s.completed.map (·.requestId) = [129] ∧ s.unreplied = [124, 126] ∧
        s.disk.nextResponseToReplyNum = 1 ∧ s.NextBatch w ∧
          (∀ e, ¬ (turns System.Usual 3 1).Fails (reliable (LONG_MAX - 1)) s w e) ∧
            ∀ c ∈ s.completed, (c.requestId, c.time) ∈ w.given ∧ c.time ≤ c.now := by
  obtain ⟨⟨s, w⟩, hs, hcompleted, hunreplied, hnum, htask⟩ : ∃ r ∈ session System.Usual 3 1
      [.task, .strategy [writeAt 0 5, readAt 1 5], .strategy [readAt 2 6], .task, .task, .task],
      r.1.completed.map (·.requestId) = [129] ∧ r.1.unreplied = [124, 126] ∧
        r.1.disk.nextResponseToReplyNum = 1 ∧ r.1.task = .sleepingUntil 515 false := by
    decide +kernel
  have h := session_reachable hs
  obtain ⟨hbatch, hfails, hdone, -⟩ := delivery_kept (by decide) (by decide) h
  have hlock : s.LockFree := fun hprocessing ↦ Task.noConfusion (htask.symm.trans hprocessing)
  exact ⟨s, w, h, hcompleted, hunreplied, hnum, hbatch hlock, hfails, fun c hc ↦ (hdone c hc).2⟩

/-- A request that completes at the largest time there is never gets into a batch. -/
theorem delivery_at_LONG_MAX : ∃ s w,
    (turns System.Usual 1 0).Reachable (reliable LONG_MAX) s w ∧ s.LockFree ∧
      s.disk.nextResponseToReplyNum = 0 ∧ s.unreplied = [124] ∧ w.given = [(124, LONG_MAX)] := by
  obtain ⟨s, w, h, hlock, -, hcompleted, hsubmitted, hgiven⟩ :=
    exists_first le_rfl (t := LONG_MAX) (by decide) le_rfl
  obtain ⟨hi, -, -⟩ :=
    reachable_invariant (keeps_reliable LONG_MAX) le_rfl (by decide) (by decide) le_rfl h
  refine ⟨s, w, h, hlock, ?_, ?_, hgiven⟩
  · by_contra hnum
    obtain ⟨t', hat⟩ := hi.batch.at hnum
    obtain ⟨i, hi', htime⟩ := hat.next.busy
    obtain ⟨id, -, hmem⟩ := hi.synced.times i hi' (htime ▸ hat.next.later)
    rw [hgiven, List.mem_singleton, Prod.mk.injEq] at hmem
    exact absurd (htime.symm.trans hmem.2) hat.next.bounded.ne
  · rw [System.unreplied, hsubmitted, hcompleted]
    rfl

theorem extends_exchanging (h : top ≤ top') : Extends (reliable top) (exchanging top') where
  admits w o ha := by
    cases o with
    | communicate request data => exact fun hs k hk ↦ (ha.2 hs k hk).trans h
    | ktimeGet => trivial
    | hrtimerExpired time => trivial
  answers _ _ _ _ hans := hans

/-- However long the run, exactly the messages whose id has not wrapped to 0 are served
as new ones, a submission under an id that no request in the mapping has. -/
theorem numbering_kept_iff (h1 : 1 ≤ n) (hn : n ≤ MAX_DISK_REQUESTS_IN_PARALLEL)
    (h : (turns System.Usual n speed).Reachable (exchanging LONG_MAX) s w) :
    (∀ r data w', (turns System.Usual n speed).Makes (exchanging LONG_MAX) s w
        (.communicate r data) w' → (w'.Welcomes r data ↔ r.id ≠ 0)) ∧
      (∀ p ∈ s.disk.pending, p.1 ∈ w.given.map (·.1)) ∧ (w.given.map (·.1)).Nodup ∧
      0 ∉ w.given.map (·.1) := by
  obtain ⟨hi, -, hserved⟩ :=
    reachable_invariant (keeps_exchanging LONG_MAX) h1 hn (by decide) le_rfl h
  have hb := hi.books
  rw [hb.given]
  refine ⟨fun r data w' hm ↦ ?_, fun p hp ↦ ?_, hb.ids, fun h0 ↦ ?_⟩
  · obtain ⟨-, hwelcome, hstale⟩ := hserved r data w' hm
    refine ⟨fun hw h0 ↦ ?_, hwelcome⟩
    obtain ⟨reply, w'', hrec⟩ := hw.answered
    exact hrec.not_hang (hstale h0)
  · obtain ⟨requestId, o⟩ := p
    obtain ⟨req, -, hmem⟩ := hb.pending_submitted hp
    exact List.mem_map_of_mem hmem
  · obtain ⟨p, hp, hzero⟩ := List.mem_map.mp h0
    exact hb.nonzero p hp hzero

/-- A third submission, after two that were accepted. -/
theorem numbering_kept_iff_three : ∃ s w r data w',
    (turns System.Usual 3 1).Reachable (exchanging LONG_MAX) s w ∧
      w.given.map (·.1) = [124, 126] ∧ (turns System.Usual 3 1).Makes (exchanging LONG_MAX) s w
        (.communicate r data) w' ∧ r.type = NctussEmuRequestType.submitReqeust.code ∧
          r.id = 129 ∧ w'.Welcomes r data ∧ (w.given.map (·.1)).Nodup := by
  obtain ⟨⟨s, w⟩, hs, hgiven, htask, hrun, ⟨o, w'⟩, hcall, ⟨r, data⟩, hm, htype, hid⟩ :
      ∃ x ∈ session System.Usual 3 1 [.task, .strategy [writeAt 0 5, readAt 1 5]],
        x.2.given.map (·.1) = [124, 126] ∧ x.1.task = .sleeping true ∧ x.1.queueStopped = false ∧
          ∃ c ∈ (x.1.strategy [readAt 2 6]).calls (World.answer (LONG_MAX - 1)) x.2,
            ∃ m ∈ c.1.message, m.1.type = NctussEmuRequestType.submitReqeust.code ∧
              m.1.id = 129 := by
    decide +kernel
  obtain rfl := Op.message_eq_some hm
  have hG := extends_exchanging (show LONG_MAX - 1 ≤ LONG_MAX by decide)
  have h := reachable_extends hG (session_reachable hs)
  have hlock : s.LockFree := fun hprocessing ↦ Task.noConfusion (htask.symm.trans hprocessing)
  have hmakes : (turns System.Usual 3 1).Makes (exchanging LONG_MAX) s w (.communicate r data) w' :=
    ⟨_, .strategy hlock hrun (by decide +kernel), calls_makes ((plays_reliable _).extends hG) hcall⟩
  obtain ⟨hserved, -, hnodup, -⟩ := numbering_kept_iff (by decide) (by decide) h
  have hne : r.id ≠ 0 := by
    rw [show r.id = 129 from hid]
    decide
  exact ⟨s, w, r, data, w', h, hgiven, hmakes, htype, hid,
    (hserved r data w' hmakes).mpr hne, hnodup⟩

theorem ofNat_ne_zero {m : ℕ} (h0 : 0 < m) (h : m < 2 ^ 32) : UInt32.ofNat m ≠ 0 := by
  intro heq
  have hto := congrArg UInt32.toNat heq
  rw [UInt32.toNat_ofNat_of_lt' h] at hto
  exact h0.ne' hto

theorem exists_rounds {k : ℕ} (hk : 124 + 4 * k ≤ 2 ^ 32) :
    ∃ s w, Idle (4 * k : ℕ) s w ∧ s.disk.udpSendReplyId = UInt32.ofNat (124 + 4 * k) := by
  induction k with
  | zero => exact exists_idle
  | succ k ih =>
    obtain ⟨s, w, hidle, hid⟩ := ih (by omega)
    have hadd (j : ℕ) : s.disk.udpSendReplyId + UInt32.ofNat j =
        UInt32.ofNat (124 + 4 * k + j) := by
      rw [hid]
      exact (UInt32.ofNat_add _ j).symm
    have hne (j : ℕ) (hj : j < 4) : s.disk.udpSendReplyId + UInt32.ofNat j ≠ 0 := by
      rw [hadd]
      exact ofNat_ne_zero (by omega) (by omega)
    have hmax : ((4 * k : ℕ) : ℤ) + 4 ≤ LONG_MAX - 1 := by
      rw [LONG_MAX]
      omega
    obtain ⟨s₁, w₁, hbusy, hid₁⟩ := hidle.busy (by omega) sectorRead_usual sectorRead_one
      (by rw [hid]; exact ofNat_ne_zero (by omega) (by omega)) (hne 1 (by decide))
        (hne 2 (by decide))
    obtain ⟨s₂, w₂, hidle₂, hid₂⟩ := hbusy.idle (by omega) (hid₁ ▸ hne 3 (by decide))
    refine ⟨s₂, w₂, ?_, ?_⟩
    · have ht : ((4 * (k + 1) : ℕ) : ℤ) = ((4 * k : ℕ) : ℤ) + 1 + 3 := by omega
      rw [ht]
      exact hidle₂
    · rw [hid₂, hid₁]
      exact (UInt32.add_assoc _ 3 1).trans (hadd 4)

theorem Idle.makes (h : Idle t s w) (ht : t + 1 ≤ LONG_MAX) : ∃ r w',
    (turns System.Usual 1 0).Makes (exchanging LONG_MAX) s w (.communicate r []) w' ∧
      r.type = NctussEmuRequestType.submitReqeust.code ∧ r.id = s.disk.udpSendReplyId ∧
        r.data6 = s.disk.udpSendReplyId := by
  have hlock : s.LockFree := by
    intro hprocessing
    rw [h.task] at hprocessing
    cases hprocessing
  have hi := reachable_one h.reachable
  have hnow : w.now < t + 1 := h.now.trans_lt (lt_add_one t)
  have hlatest : s.disk.latestResponseTime < t + 1 := hi.synced.latestNow.trans_lt hnow
  have h0 : 0 ≤ t + 1 := hi.synced.latest.trans hlatest.le
  obtain ⟨slot, d, hid, -, hsubmit⟩ := (hi.books.read (t + 1)).submit_eq (hi.synced.read hnow ht)
    sectorRead_usual (hi.running h.queueStopped) hlatest
  refine ⟨d.submitReqeust (t + 1) sectorRead.dataDir sectorRead.pos (sectorCount sectorRead)
    s.disk.udpSendReplyId, { w with now := t + 1 }, ⟨s.strategy [sectorRead],
      .strategy hlock h.queueStopped fun r hr ↦ ?_, ?_⟩, rfl, hid, rfl⟩
  · rw [List.mem_singleton.mp hr]
    exact sectorRead_usual
  · rw [System.strategy, Program.bind_eq, System.strategyLoop, Program.bind_eq]
    refine makes_bind (makes_after (a := t + 1) (v := { w with now := t + 1 })
      ⟨trivial, t + 1, _, ⟨hnow, h.passed.trans (by omega), ht, rfl⟩, rfl, rfl⟩ ?_)
    rw [Program.bind_eq]
    refine makes_bind ?_
    dsimp only at hsubmit
    rw [hsubmit, Emudisk.emulatorSubmitRequest, Program.bind_eq]
    exact makes_bind (makes_bind
      ⟨fits_submitReqeust h.speedFactor h0 ht ht _ _ _ _, .inl ⟨rfl, rfl⟩⟩)

/-- After 1073741793 reads the next message has the id 0, and so has its request; the
server never returns from it. -/
theorem numbering_wraps : ∃ s w r w',
    (turns System.Usual 1 0).Reachable (exchanging LONG_MAX) s w ∧
      (turns System.Usual 1 0).Makes (exchanging LONG_MAX) s w (.communicate r []) w' ∧
      r.id = 0 ∧ r.type = NctussEmuRequestType.submitReqeust.code ∧ r.data6 = 0 ∧
        w'.server.receive (datagramOf r []) = .hang .staleId := by
  obtain ⟨s, w, hidle, hid⟩ := exists_rounds (k := 1073741793) (by decide)
  have hid : s.disk.udpSendReplyId = 0 := hid
  obtain ⟨r, w', hm, htype, hr, hio⟩ := hidle.makes (by decide)
  have h : (turns System.Usual 1 0).Reachable (exchanging LONG_MAX) s w :=
    reachable_extends (extends_exchanging (by decide)) hidle.reachable
  have hserved := (reachable_invariant (keeps_exchanging LONG_MAX) le_rfl (by decide) (by decide)
    le_rfl h).2.2 r [] w' hm
  exact ⟨s, w, r, w', h, hm, hr.trans hid, htype, hio.trans hid, hserved.2.2 (hr.trans hid)⟩

end Nctusde.EmulatorKernel

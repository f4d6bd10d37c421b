import Nctusde.EmulatorKernel.NextBatch
import Nctusde.Library.Simulation

namespace Nctusde.EmulatorKernel

open BlockLayer Library Library.Program Library.Table Network UdpServer Wire

variable {n : ℕ} {top top' t : ℤ} {s s' : System} {w w' : World} {d : Emudisk} {req : Request}

theorem can_reading {Q : ℤ → World → Prop} (hnow : w.now < t) (hpassed : w.passed ≤ t)
    (hmax : t ≤ LONG_MAX) (h : Q t { w with now := t }) : ktimeGet.Can (reliable top) Q w :=
  ⟨t, _, ⟨trivial, t, _, ⟨hnow, hpassed, hmax, rfl⟩, rfl, rfl⟩, h⟩

theorem can_exchange {α : Type} {K : α → Prop} {Q : α → World → Prop} {r : NctussEmuRequest}
    {data : Bytes} {f : Bytes → Prog α} (hid : r.id ≠ 0) (hfits : Fits top w.sim r)
    (hfits' : Fits top' w.sim r)
    (hf : ∀ b, (∃ a, f b = .pure a ∧ K a) ∨ ∃ e, f b = .fail e)
    (hwp : ((communicateWithEmulator r data).bind f).wp (owed top) (fun _ ↦ False) Q w) :
    ((communicateWithEmulator r data).bind f).Can (reliable top') (fun a v ↦ K a ∧ Q a v) w := by
  obtain ⟨hreq, hens⟩ := hwp hfits
  obtain ⟨reply, v, hrec⟩ := (hreq.1 hid).answered
  have hk : (f reply).wp (owed top) (fun _ ↦ False) Q v := hens reply v hrec
  rcases hf reply with ⟨a, ha, hK⟩ | ⟨e, he⟩
  · rw [ha] at hk
    refine ⟨a, v, ⟨⟨hid, hfits'⟩, reply, v, hrec, ?_⟩, hK, hk⟩
    show (f reply).Runs (reliable top') v (.ok a) v
    rw [ha]
    exact ⟨rfl, rfl⟩
  · rw [he] at hk
    exact hk.elim

theorem fits_of_ne {sim : MySSDSim} {r : NctussEmuRequest}
    (h : r.type ≠ NctussEmuRequestType.submitReqeust.code) : Fits top sim r :=
  fun hs ↦ absurd hs h

theorem can_emulatorGetResponses {Q : Emudisk × NextResponses → World → Prop} {time : ℤ}
    (hid : d.udpSendReplyId ≠ 0)
    (hwp : (d.emulatorGetResponses time).wp (owed top) (fun _ ↦ False) Q w) :
    (d.emulatorGetResponses time).Can (reliable top) (fun r v ↦ r.1 = d.numbered ∧ Q r v) w := by
  rw [Emudisk.emulatorGetResponses, Program.bind_eq] at hwp ⊢
  refine can_exchange hid (fits_of_ne ?_) (fits_of_ne ?_) (fun b ↦ ?_) hwp
  · exact show NctussEmuRequestType.getNextResponses.code ≠ _ by decide
  · exact show NctussEmuRequestType.getNextResponses.code ≠ _ by decide
  · rw [Emudisk.readResponses]
    split
    · exact .inr ⟨_, rfl⟩
    split
    · exact .inr ⟨_, rfl⟩
    · exact .inl ⟨_, rfl, rfl⟩

theorem can_emulatorTransferData {Q : Emudisk → World → Prop} {dir : DataDir}
    {sectorNum slot offset : ℕ} (hid : d.udpSendReplyId ≠ 0)
    (hwp : (d.emulatorTransferData dir sectorNum slot offset).wp (owed top) (fun _ ↦ False) Q w) :
    (d.emulatorTransferData dir sectorNum slot offset).Can (reliable top)
      (fun d' v ↦ d'.udpSendReplyId = d.udpSendReplyId + 1 ∧ Q d' v) w := by
  cases dir with
  | read =>
    simp only [Emudisk.emulatorTransferData, Program.bind_eq] at hwp ⊢
    refine can_exchange hid (fits_of_ne readWrite_ne_submit) (fits_of_ne readWrite_ne_submit)
      (fun b ↦ .inl ?_) hwp
    split
    · exact ⟨_, rfl, rfl⟩
    · exact ⟨_, rfl, rfl⟩
  | write =>
    simp only [Emudisk.emulatorTransferData, Program.bind_eq] at hwp ⊢
    exact can_exchange hid (fits_of_ne readWrite_ne_submit) (fits_of_ne readWrite_ne_submit)
      (fun b ↦ .inl ⟨_, rfl, rfl⟩) hwp

theorem fits_submitReqeust {sim : MySSDSim} (hspeed : sim.speedFactor = 0) (h0 : 0 ≤ t)
    (hmax : t ≤ LONG_MAX) (htop : t ≤ top) (dir : DataDir) (sector count : ℕ) (requestId : UInt32) :
    Fits top sim (d.submitReqeust t dir sector count requestId) := by
  intro _ k _
  have hu : toU64 t = t := toU64_of_fits h0 (by rw [LONG_MAX] at hmax; omega)
  have htime : Server.time64 (d.submitReqeust t dir sector count requestId) = t :=
    time64_eq (congrArg (fun t ↦ toU32 (t / 2 ^ 32)) hu) (congrArg toU32 hu) h0 hmax
  rw [htime, MySSDSim.serviceTime, hspeed, mul_zero, add_zero]
  exact htop

theorem can_emulatorSubmitRequest {Q : Emudisk → World → Prop} {dir : DataDir} {sector count : ℕ}
    {requestId : UInt32} (hid : d.udpSendReplyId ≠ 0)
    (hfits : Fits top w.sim (d.submitReqeust t dir sector count requestId))
    (hfits' : Fits top' w.sim (d.submitReqeust t dir sector count requestId))
    (hwp : (d.emulatorSubmitRequest t dir sector count requestId).wp (owed top)
      (fun _ ↦ False) Q w) :
    (d.emulatorSubmitRequest t dir sector count requestId).Can (reliable top')
      (fun d' v ↦ d' = d.numbered ∧ Q d' v) w := by
  rw [Emudisk.emulatorSubmitRequest, Program.bind_eq] at hwp ⊢
  exact can_exchange hid hfits hfits' (fun b ↦ .inl ⟨_, rfl, rfl⟩) hwp

theorem transferSectors_one (d : Emudisk) (h : sectorCount req = 1) (slot : ℕ) :
    d.transferSectors req slot =
      (d.emulatorTransferData req.dataDir (req.pos + 0) slot (0 * SECTOR_SIZE)).bind .pure := by
  rw [Emudisk.transferSectors, h]
  rfl

structure Sent (t : ℤ) (req : Request) (k : UInt32) (s : System) (w : World) (s' : System)
    (w' : World) : Prop where
  udpSendReplyId : s'.disk.udpSendReplyId = s.disk.udpSendReplyId + k
  requestInflight : s'.disk.requestInflight = s.disk.requestInflight + 1
  completing : s'.completing = s.completing
  completed : s'.completed = s.completed
  submitted : s'.submitted = s.submitted ++ [(s.disk.udpSendReplyId, req)]
  given : w'.given = w.given ++ [(s.disk.udpSendReplyId, t)]
  speedFactor : w'.sim.speedFactor = w.sim.speedFactor
  passed : w'.passed = w.passed
  now : w'.now = t

theorem can_submit (hb : Books n s w) (hsy : Synced n top s w)
    (husual : System.Usual req) (hone : sectorCount req = 1) (hlt : s.disk.requestInflight < n)
    (hnow : s.disk.latestResponseTime < w.now) (hfits : w.now ≤ top)
    (hspeed : w.sim.speedFactor = 0) (hid : s.disk.udpSendReplyId ≠ 0)
    (hid' : s.disk.udpSendReplyId + 1 ≠ 0) :
    (s.submit w.now req).Can (reliable top) (fun s' w' ↦ Sent w.now req 2 s w s' w') w := by
  have h0 : 0 ≤ w.now := hsy.latest.trans hnow.le
  obtain ⟨i, hi, hold, hfree⟩ := hsy.exists_channel hb hlt hnow hsy.now
  obtain ⟨slot, d₁, hnext, hadmitted, heq⟩ := hb.submit_eq hsy husual hlt hnow
  rw [heq]
  have hahead : Ahead d₁ w := hsy.ahead.same hnext rfl
  have hsubmit : (d₁.emulatorSubmitRequest w.now req.dataDir req.pos (sectorCount req)
      s.disk.udpSendReplyId).wp (owed w.now) (fun _ ↦ False) (fun d' w' ↦
        (∃ c, Accepts w.now w.now s.disk.udpSendReplyId i c w w') ∧ Ahead d' w') w :=
    wp_emulatorSubmitRequest hnext.symm hahead h0 hsy.now hold (hfree.trans_lt hnow)
      (sectorCount_le husual) hsy.speedFactor hsy.now (hb.unused hsy.ahead) fun w' c hacc hahead ↦
        ⟨⟨c, hacc⟩, hahead⟩
  refine can_bind (can_emulatorSubmitRequest (hnext ▸ hid)
    (fits_submitReqeust hspeed h0 hsy.now le_rfl _ _ _ _)
    (fits_submitReqeust hspeed h0 hsy.now hfits _ _ _ _) hsubmit) ?_
  rintro d₂ w₁ ⟨rfl, ⟨c, hacc⟩, hahead₁⟩
  obtain rfl : c = w.now := le_antisymm hacc.bounded hacc.later
  rw [transferSectors_one _ hone]
  have hnumbered : d₁.numbered.udpSendReplyId = s.disk.udpSendReplyId + 1 := congrArg (· + 1) hnext
  have htransfer : (d₁.numbered.emulatorTransferData req.dataDir (req.pos + 0) slot
      (0 * SECTOR_SIZE)).wp (owed top) (fun _ ↦ False)
        (fun d' w' ↦ Quiet w₁ w' ∧ SameRequests d₁.numbered d') w₁ :=
    wp_emulatorTransferData hahead₁ fun d' w' hq _ hs ↦ ⟨hq, hs⟩
  refine can_bind (can_bind (can_emulatorTransferData (hnumbered ▸ hid') htransfer)
    fun d' w' h ↦ can_pure h) ?_
  rintro d₃ w₂ ⟨hcount, hq, hs⟩
  refine can_pure
    ⟨?_, ?_, rfl, rfl, rfl, ?_, ?_, hq.passed.trans hacc.passed, hq.now.trans hacc.now⟩
  · show d₃.udpSendReplyId = s.disk.udpSendReplyId + 2
    rw [hcount, hnumbered]
    exact UInt32.add_assoc _ 1 1
  · exact congrArg (· + 1) (hs.requestInflight.trans (hadmitted hid).requestInflight)
  · rw [hq.given, hacc.given]
  · rw [hq.sim.speedFactor, hacc.speedFactor]

theorem can_strategy (h : Invariant 1 top s w) (htop : top ≤ LONG_MAX) (hlock : s.LockFree)
    (hrun : s.queueStopped = false) (husual : System.Usual req) (hone : sectorCount req = 1)
    (hnow : w.now < t) (hpassed : w.passed ≤ t) (ht : t ≤ top) (hspeed : w.sim.speedFactor = 0)
    (hid : s.disk.udpSendReplyId ≠ 0) (hid' : s.disk.udpSendReplyId + 1 ≠ 0)
    (hid'' : s.disk.udpSendReplyId + 2 ≠ 0) :
    (s.strategy [req]).Can (reliable top) (fun s' w' ↦ (Sent t req 3 s w s' w' ∧
      s'.queueStopped = true ∧ (s'.task = s.task ∨ s'.task = s.task.wake)) ∧
        Invariant 1 top s' w') w := by
  have hmax := ht.trans htop
  have hlatest : s.disk.latestResponseTime < t := h.synced.latestNow.trans_lt hnow
  have hb := h.books.read t
  have hsy := h.synced.read hnow hmax
  have husual' : ∀ r ∈ [req], System.Usual r := by
    intro r hr
    rw [List.mem_singleton.mp hr]
    exact husual
  refine Can.and_wp ?_ (keeps_reliable top)
    (h.strategy (E := fun _ ↦ False) (by decide) htop hlock hrun husual')
  have hsubmit := (can_submit (w := { w with now := t }) hb hsy husual hone (h.running hrun) hlatest
    ht hspeed hid hid').and_wp (keeps_reliable top)
      (wp_submit hb hsy htop husual (h.running hrun) hlatest (E := fun _ ↦ False))
  have hloop : (s.strategyLoop false [req]).Can (reliable top) (fun r w' ↦ r.2 = true ∧
      Sent t req 2 s w r.1 w' ∧ Submits 1 top s { w with now := t } r.1 w' ∧
        r.1.queueStopped = true) w := by
    rw [System.strategyLoop, Program.bind_eq]
    refine can_bind (can_reading (Q := fun t' w' ↦ t' = t ∧ w' = { w with now := t }) hnow hpassed
      hmax ⟨rfl, rfl⟩) ?_
    rintro _ _ ⟨rfl, rfl⟩
    rw [Program.bind_eq]
    refine can_bind hsubmit ?_
    rintro s' w' ⟨hsent, hsubmits, -, -⟩
    have hfull : s'.disk.requestInflight ≥ s'.disk.diskChannels := by
      have hb' := hsubmits.books.diskChannels
      have hinflight := hsent.requestInflight
      have hlen := h.books.inflight
      omega
    rw [if_pos hfull]
    exact can_pure ⟨rfl, { hsent with }, hsubmits.stop, rfl⟩
  rw [System.strategy, Program.bind_eq]
  refine can_bind hloop ?_
  rintro ⟨s₁, b⟩ w₁ ⟨hflag, hsent, hsubmits, hstop⟩
  obtain rfl : b = true := hflag
  dsimp only at hsent hsubmits hstop
  have hsy₁ := hsubmits.synced
  have hid₁ : s₁.disk.udpSendReplyId ≠ 0 := hsent.udpSendReplyId ▸ hid''
  have hresponses : (s₁.disk.emulatorGetResponses s₁.disk.latestResponseTime).wp (owed top)
      (fun _ ↦ False) (fun _ w' ↦ Quiet w₁ w') w₁ :=
    wp_emulatorGetResponses hsy₁.ahead hsy₁.latest (hsy₁.latestNow.trans hsy₁.now)
      (hsy₁.count.trans_le (by decide)) fun w' next hq _ _ ↦ hq
  show (s₁.announce).Can _ _ _
  rw [System.announce, Program.bind_eq]
  refine can_bind (can_emulatorGetResponses hid₁ hresponses) ?_
  rintro ⟨d, next⟩ w₂ ⟨hd, hq⟩
  obtain rfl : d = s₁.disk.numbered := hd
  have hsame := SameBooks.takeUp s₁.disk.numbered next
  have hcount : (s₁.disk.numbered.takeUp next).1.udpSendReplyId = s₁.disk.udpSendReplyId + 1 := by
    unfold Emudisk.takeUp
    split <;> rfl
  refine can_pure ⟨⟨?_, hsame.requestInflight.trans hsent.requestInflight, hsent.completing,
    hsent.completed, hsent.submitted, hq.given.trans hsent.given,
    hq.sim.speedFactor.trans hsent.speedFactor, hq.passed.trans hsent.passed,
    hq.now.trans hsent.now⟩, hstop, ?_⟩
  · show (s₁.disk.numbered.takeUp next).1.udpSendReplyId = _
    rw [hcount, hsent.udpSendReplyId]
    exact UInt32.add_assoc _ 2 1
  · dsimp only
    rw [hsubmits.task]
    split
    · exact .inr rfl
    · exact .inl rfl

theorem completeEntry_ends (s : System) (now : ℤ) (requestId : UInt32)
    (entry : Option (RequestIdToReq × Emudisk)) : (s.completeEntry now requestId entry).Ends := by
  cases entry with
  | none => exact .inr ⟨_, rfl⟩
  | some entry =>
    unfold System.completeEntry
    split
    · rename_i heq
      cases heq
    · split
      · exact .inr ⟨_, rfl⟩
      split
      · exact .inr ⟨_, rfl⟩
      · exact .inl ⟨_, rfl⟩

theorem completeBatch_ends (s : System) (now : ℤ) : (s.completeBatch now).Ends :=
  ends_foldlM (fun s _ ↦ completeEntry_ends s now _ _) _ s

theorem can_findNext (hsy : Synced n top s w) (hn : n ≤ MAX_DISK_REQUESTS_IN_PARALLEL)
    (hnow : w.now < t) (hpassed : w.passed ≤ t) (hmax : t ≤ LONG_MAX)
    (hid : s.disk.udpSendReplyId ≠ 0)
    (hwp : s.findNext.wp (owed top) (fun _ ↦ False) (Invariant n top) w) :
    s.findNext.Can (reliable top) (fun s' w' ↦ s'.disk.udpSendReplyId = s.disk.udpSendReplyId + 1 ∧
      SameBooks s.disk s'.disk ∧ s'.queueStopped = s.queueStopped ∧
        (s'.disk.nextResponseToReplyNum = 0 → s'.task = .sleeping false) ∧ w'.given = w.given ∧
          w'.sim.speedFactor = w.sim.speedFactor ∧ w'.passed = w.passed ∧ w'.now ≤ t) w := by
  have hquiet : (s.disk.emulatorGetResponses s.disk.latestResponseTime).wp (owed top)
      (fun _ ↦ False) (fun _ w' ↦ Quiet w w') w :=
    wp_emulatorGetResponses hsy.ahead hsy.latest (hsy.latestNow.trans hsy.now)
      (hsy.count.trans_le hn) fun w' next hq _ _ ↦ hq
  rw [System.findNext, Program.bind_eq] at hwp ⊢
  refine can_bind ((can_emulatorGetResponses hid hquiet).and_wp (keeps_reliable top)
    (Program.wp_bind .. |>.mp hwp)) ?_
  rintro ⟨d, next⟩ w₁ ⟨⟨hd, hq⟩, hrest⟩
  obtain rfl : d = s.disk.numbered := hd
  have hsame := (SameBooks.of_sameRequests (sameRequests_numbered s.disk)).trans
    (.replace s.disk.numbered next)
  have hcount : (s.disk.numbered.replace next).udpSendReplyId = s.disk.udpSendReplyId + 1 := by
    unfold Emudisk.replace
    dsimp only
    split <;> rfl
  have hsleep (hzero : (s.disk.numbered.replace next).nextResponseToReplyNum = 0) :
      ({ s with disk := s.disk.numbered.replace next } : System).sleep.task = .sleeping false := by
    rw [System.sleep]
    exact if_pos hzero
  dsimp only at hrest ⊢
  split at hrest
  · rename_i hnum
    rw [if_pos hnum]
    split at hrest
    · exact hrest.elim
    rename_i hearly
    rw [if_neg hearly, Program.bind_eq]
    refine can_bind (can_reading (Q := fun t' w' ↦ t' = t ∧ w' = { w₁ with now := t })
      (hq.now.trans_lt hnow) (hq.passed.trans_le hpassed) hmax ⟨rfl, rfl⟩) ?_
    rintro _ _ ⟨rfl, rfl⟩
    split
    · refine can_pure ⟨hcount, hsame, rfl, fun hzero ↦ ?_, hq.given, hq.sim.speedFactor, hq.passed,
        le_rfl⟩
      unfold Emudisk.replace at hzero
      dsimp only at hzero
      rw [if_pos hnum] at hzero
      exact absurd hzero hnum
    · exact can_pure ⟨hcount, hsame, rfl, hsleep, hq.given, hq.sim.speedFactor, hq.passed, le_rfl⟩
  · rename_i hnum
    rw [if_neg hnum]
    exact can_pure ⟨hcount, hsame, rfl, hsleep, hq.given, hq.sim.speedFactor, hq.passed,
      (hq.now.trans_le hnow.le)⟩

structure Passed (t : ℤ) (s : System) (w : World) (s' : System) (w' : World) : Prop where
  udpSendReplyId : s'.disk.udpSendReplyId = s.disk.udpSendReplyId + 1
  requestInflight : s'.disk.requestInflight = s.disk.requestInflight
  queueStopped : s'.queueStopped = s.queueStopped
  task : s'.disk.nextResponseToReplyNum = 0 → s'.task = .sleeping false
  given : w'.given = w.given
  speedFactor : w'.sim.speedFactor = w.sim.speedFactor
  passed : w'.passed = w.passed
  now : w'.now ≤ t + 1

theorem can_pass (h : Invariant n top s w) (hn : n ≤ MAX_DISK_REQUESTS_IN_PARALLEL)
    (hnum : s.disk.nextResponseToReplyNum ≠ 0) (hdue : s.disk.nextResponseToReplyTime ≤ t)
    (hnow : w.now < t) (hpassed : w.passed ≤ t) (hmax : t + 1 ≤ LONG_MAX)
    (hid : s.disk.udpSendReplyId ≠ 0) :
    s.processNext.Can (reliable top) (fun s' w' ↦ (Passed t s w s' w' ∧ ∃ t' s₁,
      BatchAt s.disk w.sim t' ∧
        Replies n t' s { w with now := t } s.disk.nextResponseToReplyNum s₁ ∧
          s'.disk.pending = s₁.disk.pending) ∧ Invariant n top s' w') w := by
  obtain ⟨t', hat⟩ := h.batch.at hnum
  have hle : t' ≤ t := hat.time ▸ hdue
  have hmax' : t ≤ LONG_MAX := by omega
  obtain ⟨hnow', hnext⟩ := h.inOrder hat hnow hmax'
  rw [System.processNext, Program.bind_eq]
  refine can_bind (can_reading (Q := fun t₁ w₁ ↦ t = t₁ ∧ w₁ = { w with now := t }) hnow hpassed
    hmax' ⟨rfl, rfl⟩) ?_
  rintro _ _ ⟨rfl, rfl⟩
  rw [if_neg hnow', if_neg hnext, if_neg hnum, Program.bind_eq]
  refine can_bind ((completeBatch_ends s _).can
    (wp_completeBatch (h.books.read _) (h.synced.read hnow hmax') hat hle)) ?_
  rintro s₁ w₁ ⟨rfl, hreplies⟩
  have hsy₁ := hreplies.synced (h.synced.read hnow hmax') hat hle
  have hwp := h.findNext (E := fun _ ↦ False) hn hat hle hnow hmax' hreplies
  have hid₁ : s₁.disk.udpSendReplyId ≠ 0 := hreplies.udpSendReplyId ▸ hid
  obtain ⟨s', w', hrun, hfound, hinv⟩ :=
    (can_findNext hsy₁ hn (t := t + 1) (lt_add_one t) (by dsimp only; omega) hmax hid₁
      hwp).and_wp (keeps_reliable top) hwp
  obtain ⟨hcount, hsame, hstop, htask, hgiven, hspeed, hpassed', hnow''⟩ := hfound
  refine ⟨s', w', hrun, ⟨⟨?_, hsame.requestInflight.trans hreplies.requestInflight,
    hstop.trans hreplies.queueStopped, htask, hgiven, hspeed, hpassed', hnow''⟩, t',
      s₁, hat, hreplies,
    hsame.pending⟩, hinv⟩
  rw [hcount, hreplies.udpSendReplyId]

structure Processed (t : ℤ) (s : System) (w : World) (s' : System) (w' : World) : Prop where
  udpSendReplyId : s'.disk.udpSendReplyId = s.disk.udpSendReplyId + 1
  requestInflight : s'.disk.requestInflight = s.disk.requestInflight
  queueStopped : s'.queueStopped = s.queueStopped
  pending : s'.disk.pending = []
  task : s'.disk.nextResponseToReplyNum = 0 → s'.task = .sleeping false
  given : w'.given = w.given
  speedFactor : w'.sim.speedFactor = w.sim.speedFactor
  passed : w'.passed = w.passed
  now : w'.now ≤ t + 1

theorem can_processNext (h : Invariant 1 top s w) (hnum : s.disk.nextResponseToReplyNum ≠ 0)
    (hdue : s.disk.nextResponseToReplyTime ≤ t) (hnow : w.now < t) (hpassed : w.passed ≤ t)
    (hmax : t + 1 ≤ LONG_MAX) (hid : s.disk.udpSendReplyId ≠ 0) :
    s.processNext.Can (reliable top)
      (fun s' w' ↦ Processed t s w s' w' ∧ Invariant 1 top s' w') w := by
  obtain ⟨s', w', hrun, ⟨hp, t', s₁, hat, hreplies, hpending⟩, hinv⟩ :=
    can_pass h (by decide) hnum hdue hnow hpassed hmax hid
  -- the one channel held the request that was just replied
  have hnone : s₁.disk.pending = [] := by
    have hlen := (w.sim.busyAfter_split hat.next.later hat.next.least).length_eq
    have hbusy : (w.sim.busyAfter s.disk.latestResponseTime).length ≤ w.sim.count :=
      entries_length_le _ _
    have hcount := h.synced.count
    have hpos := hat.next.length_pos
    have hall := hreplies.pending.length_eq
    rw [hat.num] at hall
    have hsim : World.sim { w with now := t } = w.sim := rfl
    simp only [hsim, List.drop_length, List.nil_append, List.length_map,
      List.length_append] at hall hlen
    exact List.length_eq_zero_iff.mp (by omega)
  exact ⟨s', w', hrun,
    ⟨hp.udpSendReplyId, hp.requestInflight, hp.queueStopped, hpending.trans hnone,
    hp.task, hp.given, hp.speedFactor, hp.passed, hp.now⟩, hinv⟩

/-- Between two rounds: nothing is in flight, and the task waits to be told. -/
structure Idle (t : ℤ) (s : System) (w : World) : Prop where
  reachable : (turns System.Usual 1 0).Reachable (reliable (LONG_MAX - 1)) s w
  requestInflight : s.disk.requestInflight = 0
  queueStopped : s.queueStopped = false
  task : s.task = .sleeping false
  speedFactor : w.sim.speedFactor = 0
  given : ∀ p ∈ w.given, p.2 ≤ t
  passed : w.passed ≤ t
  now : w.now ≤ t

theorem reachable_one
    (h : (turns System.Usual 1 0).Reachable (reliable (LONG_MAX - 1)) s w) :
    Invariant 1 (LONG_MAX - 1) s w :=
  (reachable_invariant (keeps_reliable _) le_rfl (by decide) (by decide) (by decide) h).1

structure Busy (t : ℤ) (s : System) (w : World) : Prop where
  reachable : (turns System.Usual 1 0).Reachable (reliable (LONG_MAX - 1)) s w
  requestInflight : s.disk.requestInflight = 1
  queueStopped : s.queueStopped = true
  task : s.task = .sleeping true
  num : s.disk.nextResponseToReplyNum ≠ 0
  time : s.disk.nextResponseToReplyTime ≤ t
  speedFactor : w.sim.speedFactor = 0
  given : ∀ p ∈ w.given, p.2 ≤ t
  passed : w.passed ≤ t
  now : w.now = t

theorem Idle.busy (h : Idle t s w) (hmax : t + 1 ≤ LONG_MAX - 1) (husual : System.Usual req)
    (hone : sectorCount req = 1) (hid : s.disk.udpSendReplyId ≠ 0)
    (hid' : s.disk.udpSendReplyId + 1 ≠ 0) (hid'' : s.disk.udpSendReplyId + 2 ≠ 0) :
    ∃ s' w', Busy (t + 1) s' w' ∧ s'.disk.udpSendReplyId = s.disk.udpSendReplyId + 3 := by
  have hlock : s.LockFree := by
    intro htask
    rw [h.task] at htask
    cases htask
  have hi := reachable_one h.reachable
  obtain ⟨s', w', hrun, ⟨hsent, hstop, htask⟩, hi'⟩ :=
    can_strategy (t := t + 1) hi (by decide) hlock
    h.queueStopped husual hone (h.now.trans_lt (lt_add_one t)) (h.passed.trans (by omega)) hmax
    h.speedFactor hid hid' hid''
  have hreach : (turns System.Usual 1 0).Reachable (reliable (LONG_MAX - 1)) s' w' := by
    refine h.reachable.turn (.strategy hlock h.queueStopped fun r hr ↦ ?_) hrun
    rw [List.mem_singleton.mp hr]
    exact husual
  have hgiven : ∀ p ∈ w'.given, p.2 ≤ t + 1 := by
    intro p hp
    rw [hsent.given] at hp
    rcases List.mem_append.mp hp with hp | hp
    · exact (h.given p hp).trans (by omega)
    · rw [List.mem_singleton.mp hp]
  have hinflight := hi.books.inflight
  have hinflight' := hi'.books.inflight
  have hsame := hsent.requestInflight
  rw [h.requestInflight] at hinflight hsame
  rw [hsent.completing] at hinflight'
  have hbatch := hi'.nextBatch (by decide)
  have hnum : s'.disk.nextResponseToReplyNum ≠ 0 := by
    intro hzero
    obtain ⟨p, hp⟩ := List.exists_mem_of_length_pos (l := s'.disk.pending) (by omega)
    have hun := hi'.books.mem_unreplied.mpr (List.mem_map_of_mem hp)
    rw [hbatch.num.mp hzero] at hun
    cases hun
  have htask' : s'.task = .sleeping true := by
    rw [h.task] at htask
    rcases htask with htask | htask
    · have hminds := hi'.minds
      rw [htask] at hminds
      exact absurd (hminds.mp hnum) Bool.false_ne_true
    · exact htask
  exact ⟨s', w', ⟨hreach, hsame, hstop, htask', hnum,
    hgiven _ (hbatch.time 0 (Nat.pos_of_ne_zero hnum)),
      hsent.speedFactor.trans h.speedFactor, hgiven,
    hsent.passed.trans_le (h.passed.trans (by omega)), hsent.now⟩, hsent.udpSendReplyId⟩

theorem Busy.idle (h : Busy t s w) (hmax : t + 3 ≤ LONG_MAX) (hid : s.disk.udpSendReplyId ≠ 0) :
    ∃ s' w', Idle (t + 3) s' w' ∧ s'.disk.udpSendReplyId = s.disk.udpSendReplyId + 1 := by
  have hslept := h.reachable.turn (.woken h.task) ⟨rfl, rfl⟩
  have hexpired : (turns System.Usual 1 0).Reachable (reliable (LONG_MAX - 1))
      { s with task := .expired }
        { w with passed := max w.passed s.disk.nextResponseToReplyTime } :=
    hslept.turn (System.Enters.timer (s := s.resleep) rfl) ⟨trivial, (), _, rfl, rfl, rfl⟩
  obtain ⟨s', w', hrun, hp, hi⟩ := can_processNext (t := t + 1) (reachable_one hexpired) h.num
    (h.time.trans (by omega)) (h.now.trans_lt (lt_add_one t))
    ((max_le h.passed h.time).trans (by omega)) (by omega) hid
  have hreach := hexpired.turn (.expired rfl) hrun
  have hnum : s'.disk.nextResponseToReplyNum = 0 := by
    refine (hi.nextBatch (by decide)).num.mpr (List.eq_nil_iff_forall_not_mem.mpr fun id hun ↦ ?_)
    have hmem := hi.books.mem_unreplied.mp hun
    rw [hp.pending] at hmem
    cases hmem
  have htask := hp.task hnum
  have hlock : s'.LockFree := by
    intro hprocessing
    rw [htask] at hprocessing
    cases hprocessing
  have hinflight := hi.books.inflight
  rw [hp.requestInflight, hp.pending] at hinflight
  have hone := h.requestInflight
  obtain ⟨req, hreq⟩ := List.exists_mem_of_length_pos (l := s'.completing) (by
    simp only [List.length_nil] at hinflight
    omega)
  have hstop : s'.queueStopped = true := hp.queueStopped.trans h.queueStopped
  have hnone : ∀ r ∈ ([] : List Request), System.Usual r := fun r hr ↦ nomatch hr
  refine ⟨{ s' with
    disk := { s'.disk with requestInflight := s'.disk.requestInflight - 1 }
    completing := s'.completing.eraseP fun r ↦ r.tag = req.tag
    queueStopped := false }, { w' with now := t + 3 }, ⟨hreach.turn
      (.softirqDone hlock hreq hnone) ?_, ?_, rfl, htask, ?_, ?_, ?_, le_rfl⟩, hp.udpSendReplyId⟩
  · rw [System.softirqDone, if_pos hstop, System.strategy, System.strategyLoop]
    have hnow := hp.now
    refine ⟨trivial, t + 3, _, ⟨by omega, ?_, hmax, rfl⟩, rfl, rfl⟩
    rw [hp.passed]
    exact (max_le h.passed h.time).trans (by omega)
  · show s'.disk.requestInflight - 1 = 0
    rw [hp.requestInflight]
    exact sub_eq_zero.mpr hone
  · exact hp.speedFactor.trans h.speedFactor
  · intro p hmem
    have hmem : p ∈ w'.given := hmem
    rw [hp.given] at hmem
    exact (h.given p hmem).trans (by omega)
  · show w'.passed ≤ t + 3
    rw [hp.passed]
    exact (max_le h.passed h.time).trans (by omega)

end Nctusde.EmulatorKernel

import Nctusde.EmulatorKernel.Books

namespace Nctusde.EmulatorKernel

open BlockLayer Library Library.Table Network UdpServer Wire

variable {n : ℕ} {top : ℤ} {s s' : System} {w w' : World} {d : Emudisk} {req : Request}
  {requestId : UInt32} {now c : ℤ} {i : ℕ} {E : Trap → Prop}

structure Admitted (s : System) (d : Emudisk) (requestId : UInt32) (req : Request) : Prop where
  pending : d.pending.Perm ((requestId, some req) :: s.disk.pending)
  diskChannels : d.diskChannels = s.disk.diskChannels
  requestInflight : d.requestInflight = s.disk.requestInflight
  batch : SameBatch s.disk d

def System.enrol (s : System) (d : Emudisk) (requestId : UInt32) (req : Request) : System :=
  { s with
    disk := { d with requestInflight := d.requestInflight + 1 }
    submitted := s.submitted ++ [(requestId, req)] }

theorem Books.enrol (h : Books n s w) (ha : Admitted s d requestId req)
    (hacc : Accepts top now requestId i c w w') (hid : requestId ≠ 0)
    (husual : System.Usual req) (hlt : s.disk.requestInflight < n) :
    Books n (s.enrol d requestId req) w' := by
  refine ⟨ha.diskChannels.trans h.diskChannels, ?_, ?_, ?_, ?_, ?_, ?_, fun x hx ↦ ?_,
    h.ordered, ?_, ?_⟩
  · intro p hp
    rcases List.mem_append.mp hp with hp | hp
    · exact h.usual p hp
    · rw [List.mem_singleton.mp hp]
      exact husual
  · rw [System.enrol, List.map_append]
    refine List.nodup_append.mpr ⟨h.ids, List.nodup_singleton _, fun x hx y hy hxy ↦ ?_⟩
    obtain ⟨p, hp, rfl⟩ := List.mem_map.mp hx
    rw [List.map_singleton, List.mem_singleton] at hy
    have := h.old p hp
    rw [hxy, hy] at this
    exact absurd this (not_le.mpr hacc.new)
  · intro p hp
    rcases List.mem_append.mp hp with hp | hp
    · exact h.nonzero p hp
    · rw [List.mem_singleton.mp hp]
      exact hid
  · intro p hp
    rw [hacc.counter]
    rcases List.mem_append.mp hp with hp | hp
    · exact (h.old p hp).trans hacc.new.le
    · rw [List.mem_singleton.mp hp]
  · rw [System.enrol, List.map_append]
    have hlast := List.perm_append_singleton (requestId, some req)
      (s.submitted.map fun p ↦ (p.1, some p.2))
    exact hlast.trans ((h.history.cons _).trans (ha.pending.symm.append_right _))
  · rw [System.enrol, hacc.given, List.map_append, List.map_append, h.given]
    rfl
  · rw [hacc.given]
    exact ⟨List.mem_append_left _ (h.completed x hx).1, (h.completed x hx).2⟩
  · have hlen := ha.pending.length_eq
    have hinflight := h.inflight
    have hsame := ha.requestInflight
    have hpending : (s.enrol d requestId req).disk.pending = d.pending := rfl
    rw [hpending, hlen, List.length_cons]
    simp only [System.enrol]
    omega
  · have hsame := ha.requestInflight
    simp only [System.enrol]
    omega

theorem Synced.enrol (h : Synced n top s w) (ha : Admitted s d requestId req)
    (hacc : Accepts top now requestId i c w w') (hi : i < w.sim.count)
    (hfree : w.sim.completionTime i ≤ s.disk.latestResponseTime)
    (hlatest : s.disk.latestResponseTime < now) (hahead : Ahead d w') :
    Synced n top (s.enrol d requestId req) w' := by
  have hcount : w'.sim.count = w.sim.count := by
    rw [MySSDSim.count, MySSDSim.count, hacc.channels]
  have hother {j : ℕ} (hj : j ≠ i) : w'.sim.completionTime j = w.sim.completionTime j ∧
      w'.sim.ioRequestId j = w.sim.ioRequestId j := by
    rw [MySSDSim.completionTime, MySSDSim.completionTime, MySSDSim.ioRequestId,
      MySSDSim.ioRequestId,
      hacc.other j hj]
    exact ⟨rfl, rfl⟩
  have hsame : (s.enrol d requestId req).disk.latestResponseTime = s.disk.latestResponseTime :=
    ha.batch.latest
  have hc : s.disk.latestResponseTime < c := hlatest.trans_le hacc.later
  refine ⟨hacc.channels.trans h.channels, hacc.speedFactor.ge.trans' h.speedFactor,
    ⟨hahead.nonneg, hahead.lt, hahead.pos⟩, ?_, ?_, ?_, ?_, ?_, ?_, ?_⟩
  · have hbusy : (w'.sim.busyAfter s.disk.latestResponseTime).Perm
        ((requestId.toNat : ℤ) :: w.sim.busyAfter s.disk.latestResponseTime) := by
      rw [MySSDSim.busyAfter, MySSDSim.busyAfter, hcount]
      refine entries_insert hi (if_neg (not_lt.mpr hfree)) ?_ fun j _ hj ↦ ?_
      · rw [guarded_eq_some, hacc.completionTime]
        exact ⟨hc, hacc.ioRequestId⟩
      · simp only [guarded, (hother hj).1, (hother hj).2]
    have hpending : (s.enrol d requestId req).disk.pending = d.pending := rfl
    have hids := ha.pending.map fun p : UInt32 × Option Request ↦ (p.1.toNat : ℤ)
    rw [hsame, hpending]
    exact (hbusy.trans (h.busy.cons _)).trans hids.symm
  · rw [hsame, hcount, hacc.given]
    intro j hj hlt
    by_cases hji : j = i
    · rw [hji]
      exact ⟨requestId, hacc.ioRequestId,
        List.mem_append_right _ (hacc.completionTime ▸ List.mem_singleton_self _)⟩
    · rw [(hother hji).1] at hlt ⊢
      rw [(hother hji).2]
      obtain ⟨id, hid, hmem⟩ := h.times j hj hlt
      exact ⟨id, hid, List.mem_append_left _ hmem⟩
  · rw [hcount]
    intro j hj
    by_cases hji : j = i
    · rw [hji, hacc.completionTime]
      exact hacc.bounded
    · rw [(hother hji).1]
      exact h.fits j hj
  · rw [hsame]
    exact h.replied
  · rw [hsame]
    exact h.latest
  · rw [hsame, hacc.now]
    exact h.latestNow
  · rw [hacc.now]
    exact h.now

theorem Accepts.grows (hacc : Accepts top now requestId i c w w') {t : ℤ}
    (hfree : w.sim.completionTime i ≤ t) : Grows t w.sim w'.sim := by
  refine ⟨by rw [MySSDSim.count, MySSDSim.count, hacc.channels], fun j _ hlt ↦ ?_⟩
  have hj : j ≠ i := by
    rintro rfl
    omega
  rw [MySSDSim.completionTime, MySSDSim.completionTime, MySSDSim.ioRequestId, MySSDSim.ioRequestId,
    hacc.other j hj]
  exact ⟨rfl, rfl⟩

/-- What `strategy` leaves behind while it submits: the books and the channels agree,
and only the batch may be out of date. -/
structure Submits (n : ℕ) (top : ℤ) (s : System) (w : World) (s' : System) (w' : World) : Prop where
  books : Books n s' w'
  synced : Synced n top s' w'
  batch : SameBatch s.disk s'.disk
  grows : Grows s.disk.latestResponseTime w.sim w'.sim
  task : s'.task = s.task
  passed : w'.passed = w.passed
  now : w.now ≤ w'.now

theorem Submits.trans {s'' : System} {w'' : World} (h : Submits n top s w s' w')
    (h' : Submits n top s' w' s'' w'') : Submits n top s w s'' w'' :=
  ⟨h'.books, h'.synced, h.batch.trans h'.batch, h.grows.trans (h.batch.latest ▸ h'.grows),
    h'.task.trans h.task, h'.passed.trans h.passed, h.now.trans h'.now⟩

theorem sectorCount_le (h : System.Usual req) : sectorCount req ≤ MAX_REQUEST_SECTOR_NUM := by
  have hbytes := h.2
  rw [sectorCount]
  rw [MAX_REQUEST_SECTOR_NUM, SECTOR_SIZE] at *
  omega

theorem System.submitSlot_eq (s : System) (now : ℤ) (h : System.Usual req) (slot : ℕ) :
    ∃ d, SameRequests s.disk d ∧ d.udpSendReplyId = s.disk.udpSendReplyId ∧
      s.submitSlot now req slot =
        (d.emulatorSubmitRequest now req.dataDir req.pos (sectorCount req)
          s.disk.udpSendReplyId).bind fun d ↦ (d.transferSectors req slot).bind fun d ↦
            .pure (s.enrol d s.disk.udpSendReplyId req) := by
  rw [submitSlot, if_neg fun hlong ↦ absurd h.2 (not_le.mpr hlong.2)]
  cases req.dataDir with
  | read => exact ⟨_, .refl _, rfl, rfl⟩
  | write => exact ⟨_, sameRequests_withData .., rfl, rfl⟩

theorem wp_reading {Q : ℤ → World → Prop}
    (h : ∀ t, w.now < t → w.passed ≤ t → t ≤ LONG_MAX → Q t { w with now := t }) :
    ktimeGet.wp (owed top) E Q w := by
  rintro -
  refine ⟨trivial, fun t w' hans ↦ ?_⟩
  obtain ⟨hlt, hpassed, hmax, rfl⟩ := hans
  exact h t hlt hpassed hmax

theorem Admitted.same {d' : Emudisk} (h : Admitted s d requestId req) (hs : SameRequests d d') :
    Admitted s d' requestId req where
  pending := Emudisk.pending_same hs ▸ h.pending
  diskChannels := hs.diskChannels.trans h.diskChannels
  requestInflight := hs.requestInflight.trans h.requestInflight
  batch := h.batch.trans (.of_sameRequests hs)

theorem Books.submit_eq (hb : Books n s w) (hsy : Synced n top s w) (husual : System.Usual req)
    (hlt : s.disk.requestInflight < n) (hnow : s.disk.latestResponseTime < w.now) :
    ∃ slot d, d.udpSendReplyId = s.disk.udpSendReplyId ∧
      (s.disk.udpSendReplyId ≠ 0 → Admitted s d s.disk.udpSendReplyId req) ∧
      s.submit w.now req =
        (d.emulatorSubmitRequest w.now req.dataDir req.pos (sectorCount req)
          s.disk.udpSendReplyId).bind fun d ↦ (d.transferSectors req slot).bind fun d ↦
            .pure (s.enrol d s.disk.udpSendReplyId req) := by
  have htime : toU64 w.now = w.now := by
    have h0 := hsy.latest
    have h1 := hsy.now
    rw [LONG_MAX] at h1
    exact toU64_of_fits (by omega) (by omega)
  have hlen : s.disk.pending.length < s.disk.count := by
    have := hb.inflight
    have := hb.count
    omega
  obtain ⟨slot, hslot⟩ := Emudisk.exists_free_entry hlen
  rw [System.submit, if_neg (not_not.mpr husual.1), htime, if_neg (not_le.mpr hnow),
    Emudisk.putRequestIdToReqMapping, hslot, Option.map_some, System.submitPut]
  generalize hentry : { s.disk.requestIdToReqMapping slot with
    requestId := s.disk.udpSendReplyId
    req := some req
    reqSectors := sectorCount req } = entry
  obtain ⟨d, hsame, hnext, hsubmit⟩ := ({ s with
    disk := s.disk.withEntry slot entry } : System).submitSlot_eq w.now husual slot
  refine ⟨slot, d, hnext, fun hid ↦ Admitted.same ?_ hsame, hsubmit⟩
  exact ⟨Emudisk.pending_put hslot hid (hentry ▸ rfl) (hentry ▸ rfl), rfl, rfl, rfl, rfl, rfl, rfl⟩

/-- `strategy` never gets a request too early, never lacks a free entry, and its
submission is accepted. -/
theorem wp_submit (hb : Books n s w) (hsy : Synced n top s w) (htop : top ≤ LONG_MAX)
    (husual : System.Usual req) (hlt : s.disk.requestInflight < n)
    (hnow : s.disk.latestResponseTime < w.now) :
    (s.submit w.now req).wp (owed top) E (fun s' w' ↦ Submits n top s w s' w' ∧
      w'.now = w.now ∧ s'.queueStopped = s.queueStopped) w := by
  obtain ⟨i, hi, hold, hfree⟩ := hsy.exists_channel hb hlt hnow hsy.now
  obtain ⟨slot, d₁, hnext, hadmitted, hsubmit⟩ := hb.submit_eq hsy husual hlt hnow
  rw [hsubmit, Program.wp_bind]
  apply wp_emulatorSubmitRequest (i := i) hnext.symm (d := d₁)
  · exact hsy.ahead.same hnext rfl
  · exact hsy.latest.trans hnow.le
  · exact hsy.now
  · exact hold
  · exact hfree.trans_lt hnow
  · exact sectorCount_le husual
  · exact hsy.speedFactor
  · exact htop
  · exact hb.unused hsy.ahead
  intro w₁ c hacc hahead₁
  have hid : s.disk.udpSendReplyId ≠ 0 := by
    intro h0
    have hnew := hacc.new
    rw [h0] at hnew
    exact absurd (hsy.ahead.nonneg.trans_lt hnew) (lt_irrefl _)
  rw [Program.wp_bind]
  apply wp_transferSectors hahead₁
  intro d' w₂ hq hahead₂ hsame
  have hadm := (hadmitted hid).same ((sameRequests_numbered d₁).trans hsame)
  have hback : Ahead d' w₁ := ⟨by rw [hacc.counter]; exact Int.natCast_nonneg _,
    fun hne ↦ hq.counter.trans_lt (hahead₂.lt hne),
    fun _ ↦ by rw [hacc.counter]; exact hsy.ahead.nonneg.trans_lt hacc.new⟩
  have hbooks := hb.enrol hadm hacc hid husual hlt
  have hsynced := hsy.enrol hadm hacc hi hfree hnow hback
  refine ⟨⟨hbooks.quiet hq,
    hsynced.quiet hq ⟨rfl, rfl, rfl, rfl⟩ (hahead₂.same rfl rfl), ?_, ?_, rfl,
    hq.passed.trans hacc.passed, (hq.now.trans hacc.now).ge⟩, hq.now.trans hacc.now, rfl⟩
  · exact ⟨hadm.batch.time, hadm.batch.num, hadm.batch.ids, hadm.batch.latest⟩
  · exact (hacc.grows hfree).trans (.of_same _ hq.sim)

theorem Submits.read (hb : Books n s w) (hsy : Synced n top s w) {t : ℤ} (ht : w.now < t)
    (hmax : t ≤ LONG_MAX) : Submits n top s w s { w with now := t } :=
  ⟨hb.read t, hsy.read ht hmax, .refl _, .refl _ _, rfl, rfl, ht.le⟩

theorem Submits.stop (h : Submits n top s w s' w') :
    Submits n top s w { s' with queueStopped := true } w' where
  __ := h
  books := { h.books with }
  synced := { h.synced with }

theorem wp_strategyLoop (hb : Books n s w) (hsy : Synced n top s w) (htop : top ≤ LONG_MAX)
    (hrun : s.queueStopped = false) (hlt : s.disk.requestInflight < n) {queue : List Request}
    (hqueue : ∀ req ∈ queue, System.Usual req) (b : Bool) :
    (s.strategyLoop b queue).wp (owed top) E (fun r w' ↦ Submits n top s w r.1 w' ∧
      (r.1.queueStopped = false → r.1.disk.requestInflight < n) ∧
      (r.2 = false → b = false ∧ w'.sim = w.sim)) w := by
  induction queue generalizing s w b with
  | nil =>
    rw [System.strategyLoop, Program.bind_eq, Program.wp_bind]
    exact wp_reading fun t ht _ hmax ↦ ⟨.read hb hsy ht hmax, fun _ ↦ hlt, fun hr ↦ ⟨hr, rfl⟩⟩
  | cons req queue ih =>
    rw [System.strategyLoop, Program.bind_eq, Program.wp_bind]
    refine wp_reading fun t ht _ hmax ↦ ?_
    have hread := Submits.read hb hsy ht hmax
    have hnow : s.disk.latestResponseTime < t := hsy.latestNow.trans_lt ht
    rw [Program.bind_eq, Program.wp_bind]
    refine Program.wp_mono (fun s' w' hs' ↦ ?_) (wp_submit hread.books hread.synced htop
      (hqueue req List.mem_cons_self) hlt hnow)
    obtain ⟨hsubmits, -, hqueue'⟩ := hs'
    have hall := hread.trans hsubmits
    have hn := hall.books.diskChannels
    split
    · exact ⟨hall.stop, fun hstop ↦ Bool.noConfusion hstop, fun hr ↦ Bool.noConfusion hr⟩
    · rename_i hroom
      have hlt' : s'.disk.requestInflight < n := by omega
      split
      · exact ⟨hall, fun _ ↦ hlt', fun hr ↦ Bool.noConfusion hr⟩
      · refine Program.wp_mono (fun r w'' hr ↦ ⟨hall.trans hr.1, hr.2.1, fun hf ↦
          Bool.noConfusion (hr.2.2 hf).1⟩)
          (ih hsubmits.books hsubmits.synced (hqueue'.trans hrun) hlt'
            (fun req hreq ↦ hqueue req (List.mem_cons_of_mem _ hreq)) true)

end Nctusde.EmulatorKernel

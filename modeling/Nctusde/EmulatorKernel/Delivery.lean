import Nctusde.EmulatorKernel.Admission

namespace Nctusde.EmulatorKernel

open BlockLayer Library Library.Table Network UdpServer Wire

variable {n : ℕ} {top t' now : ℤ} {s s' : System} {w w' : World} {d d' : Emudisk}
  {requestId : UInt32} {req : Request}

/-- After `k` of the requests of the batch at `t'` were replied. -/
structure Replies (n : ℕ) (t' : ℤ) (s : System) (w : World) (k : ℕ) (s' : System) : Prop where
  books : Books n s' w
  pending : (s'.disk.pending.map fun p ↦ (p.1.toNat : ℤ)).Perm
    ((w.sim.completingAt t').drop k ++ w.sim.busyAfter t')
  time : s'.disk.nextResponseToReplyTime = s.disk.nextResponseToReplyTime
  ids : s'.disk.nextResponseToReplyIds = s.disk.nextResponseToReplyIds
  latest : 0 < k → s'.disk.latestResponseTime = t'
  replied : ∀ c ∈ s'.completed, c.time ≤ t'
  udpSendReplyId : s'.disk.udpSendReplyId = s.disk.udpSendReplyId
  requestInflight : s'.disk.requestInflight = s.disk.requestInflight
  queueStopped : s'.queueStopped = s.queueStopped

theorem Replies.start (hb : Books n s w) (hsy : Synced n top s w) (hat : BatchAt s.disk w.sim t') :
    Replies n t' s w 0 s := by
  refine ⟨hb, ?_, rfl, rfl, fun hk ↦ absurd hk (lt_irrefl 0), fun c hc ↦ ?_, rfl, rfl, rfl⟩
  · rw [List.drop_zero]
    exact hsy.busy.symm.trans (w.sim.busyAfter_split hat.next.later hat.next.least)
  · exact (hsy.replied c hc).trans hat.next.later.le

theorem Replies.found {k : ℕ} (h : Replies n t' s w k s') (hat : BatchAt s.disk w.sim t')
    (hk : k < s.disk.nextResponseToReplyNum) : ∃ slot req,
      s'.disk.findRequestId (s'.disk.nextResponseToReplyIds k) = some slot ∧
      (s'.disk.requestIdToReqMapping slot).req = some req ∧
      (s'.disk.nextResponseToReplyIds k, req) ∈ s'.submitted ∧
      s'.disk.nextResponseToReplyIds k ≠ 0 ∧
      (w.sim.completingAt t').drop k = ((s'.disk.nextResponseToReplyIds k).toNat : ℤ) ::
        (w.sim.completingAt t').drop (k + 1) := by
  rw [hat.num] at hk
  have hdrop := List.drop_eq_getElem_cons hk
  have hmem : (w.sim.completingAt t')[k] ∈ s'.disk.pending.map fun p ↦ (p.1.toNat : ℤ) := by
    rw [h.pending.mem_iff, hdrop]
    exact List.mem_append_left _ List.mem_cons_self
  obtain ⟨⟨id, o⟩, hp, hid⟩ := List.mem_map.mp hmem
  have hids : s'.disk.nextResponseToReplyIds k = id := by
    rw [h.ids, hat.ids k (hat.num ▸ hk), List.getD_eq_getElem _ _ hk, ← hid, toU32_natCast_toNat]
  obtain ⟨slot, hslot⟩ := Emudisk.findRequestId_of_mem hp
  obtain ⟨i, hi, hheld⟩ := mem_entries.mp hp
  obtain ⟨hne, -, -⟩ := Emudisk.held_eq_some.mp hheld
  obtain ⟨hlt, hslotId⟩ := Emudisk.findRequestId_some hslot
  have hentry : (id, (s'.disk.requestIdToReqMapping slot).req) ∈ s'.disk.pending :=
    mem_entries.mpr ⟨slot, hlt, Emudisk.held_eq_some.mpr ⟨hne, hslotId, rfl⟩⟩
  obtain ⟨req, hreq, hsub⟩ := h.books.pending_submitted hentry
  rw [hids]
  exact ⟨slot, req, hslot, hreq, hsub, hne, by rw [hdrop, ← hid]⟩

theorem Synced.given_of_completing (h : Synced n top s w) (hlater : s.disk.latestResponseTime < t')
    (hmem : (requestId.toNat : ℤ) ∈ w.sim.completingAt t') : (requestId, t') ∈ w.given := by
  obtain ⟨i, hi, htime, hid⟩ := w.sim.mem_completingAt.mp hmem
  obtain ⟨id, hid', hgiven⟩ := h.times i hi (htime ▸ hlater)
  obtain rfl : id = requestId := UInt32.toNat_inj.mp (Int.ofNat_inj.mp (hid'.symm.trans hid))
  exact htime ▸ hgiven

theorem Replies.step {k : ℕ} (h : Replies n t' s w k s') (hsy : Synced n top s w)
    (hat : BatchAt s.disk w.sim t') (hnow : t' ≤ now) {slot : ℕ}
    (hslot : s'.disk.findRequestId requestId = some slot) (hid : requestId ≠ 0)
    (hreq : (s'.disk.requestIdToReqMapping slot).req = some req)
    (hdrop : (w.sim.completingAt t').drop k =
      (requestId.toNat : ℤ) :: (w.sim.completingAt t').drop (k + 1))
    {entry : RequestIdToReq} (hentry : entry.requestId = 0) (segments : List Bytes) :
    Replies n t' s w (k + 1) { s' with
      disk := { s'.disk.withEntry slot entry with
        latestResponseTime := toU64 s'.disk.nextResponseToReplyTime }
      completing := s'.completing ++ [req]
      completed := s'.completed ++
        [⟨requestId, req, s'.disk.nextResponseToReplyTime, now, segments⟩] } := by
  have hget := Emudisk.pending_get hslot hid hentry
  rw [hreq] at hget
  have htime : s'.disk.nextResponseToReplyTime = t' := h.time.trans hat.time
  have hto : toU64 t' = t' := by
    have h0 := hsy.latest
    have h1 := hat.next.later
    have h2 := hat.next.bounded
    rw [LONG_MAX] at h2
    exact toU64_of_fits (by omega) (by omega)
  have hgiven : (requestId, t') ∈ w.given := by
    refine hsy.given_of_completing hat.next.later (List.mem_of_mem_drop (i := k) ?_)
    rw [hdrop]
    exact List.mem_cons_self
  have hb := h.books
  refine ⟨⟨hb.diskChannels, hb.usual, hb.ids, hb.nonzero, hb.old, ?_, hb.given, ?_, ?_,
    ?_, hb.bounded⟩, ?_,
    h.time, h.ids, fun _ ↦ ?_, ?_, h.udpSendReplyId, h.requestInflight, h.queueStopped⟩
  · dsimp only
    rw [List.map_append, List.map_singleton]
    refine hb.history.trans ((hget.append_right _).trans ?_)
    rw [List.cons_append, ← List.append_assoc]
    exact (List.perm_append_singleton _ _).symm
  · intro c hc
    rcases List.mem_append.mp hc with hc | hc
    · exact hb.completed c hc
    · rw [List.mem_singleton.mp hc]
      dsimp only
      rw [htime]
      exact ⟨hgiven, hnow⟩
  · refine List.pairwise_append.mpr ⟨hb.ordered, List.pairwise_singleton _ _, fun c hc c' hc' ↦ ?_⟩
    rw [List.mem_singleton.mp hc']
    dsimp only
    rw [htime]
    exact h.replied c hc
  · have hinflight := hb.inflight
    have hlen := hget.length_eq
    rw [List.length_cons] at hlen
    change s'.disk.requestInflight = ((s'.disk.withEntry slot entry).pending.length : ℤ) +
      ((s'.completing ++ [req]).length : ℕ)
    rw [List.length_append, List.length_singleton]
    omega
  · have hids := hget.map fun p : UInt32 × Option Request ↦ (p.1.toNat : ℤ)
    have hall := hids.symm.trans h.pending
    rw [hdrop, List.cons_append] at hall
    exact hall.cons_inv
  · dsimp only
    rw [htime, hto]
  · intro c hc
    rcases List.mem_append.mp hc with hc | hc
    · exact h.replied c hc
    · rw [List.mem_singleton.mp hc]
      exact htime.le

theorem wp_completeBatch {E : Trap → Prop} (hb : Books n s w) (hsy : Synced n top s w)
    (hat : BatchAt s.disk w.sim t') (hnow : t' ≤ now) :
    (s.completeBatch now).wp (owed top) E
      (fun s' w' ↦ w' = w ∧ Replies n t' s w s.disk.nextResponseToReplyNum s') w := by
  apply Program.wp_foldlM_range fun k s' w' ↦ w' = w ∧ Replies n t' s w k s'
  · rintro k s' _ hk ⟨rfl, h⟩
    obtain ⟨slot, req, hslot, hreq, hsub, hid, hdrop⟩ := h.found hat hk
    have husual := (h.books.usual _ hsub).2
    rw [Emudisk.getRequestIdToReqMapping, hslot, Option.map_some, System.completeEntry]
    dsimp only
    rw [hreq]
    dsimp only
    rw [if_neg fun hlong ↦ absurd husual (not_le.mpr hlong.2)]
    exact ⟨rfl, h.step hsy hat hnow hslot hid hreq hdrop rfl _⟩
  · exact ⟨rfl, .start hb hsy hat⟩

theorem Replies.synced (h : Replies n t' s w s.disk.nextResponseToReplyNum s')
    (hsy : Synced n top s w) (hat : BatchAt s.disk w.sim t') (hnow : t' ≤ w.now) :
    Synced n top s' w := by
  have hlatest : s'.disk.latestResponseTime = t' := h.latest (hat.num ▸ hat.next.length_pos)
  have hlater := hat.next.later
  refine ⟨hsy.channels, hsy.speedFactor, hsy.ahead.same h.udpSendReplyId rfl, ?_,
    fun i hi hlt ↦ hsy.times i hi ?_, hsy.fits, ?_, ?_, ?_, hsy.now⟩
  · have hpending := h.pending
    rw [hat.num, List.drop_length, List.nil_append] at hpending
    rw [hlatest]
    exact hpending.symm
  · rw [hlatest] at hlt
    exact hlater.trans hlt
  · rw [hlatest]
    exact h.replied
  · rw [hlatest]
    exact hsy.latest.trans hlater.le
  · rw [hlatest]
    exact hnow

end Nctusde.EmulatorKernel

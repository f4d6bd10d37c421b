import Nctusde.EmulatorKernel.Batches
import Nctusde.EmulatorKernel.Mapping

namespace Nctusde.EmulatorKernel

open BlockLayer Library Library.Table Network UdpServer Wire

structure Books (n : ℕ) (s : System) (w : World) : Prop where
  diskChannels : s.disk.diskChannels = n
  usual : ∀ p ∈ s.submitted, System.Usual p.2
  ids : (s.submitted.map (·.1)).Nodup
  nonzero : ∀ p ∈ s.submitted, p.1 ≠ 0
  old : ∀ p ∈ s.submitted, (p.1.toNat : ℤ) ≤ w.counter
  history : (s.submitted.map fun p ↦ (p.1, some p.2)).Perm
    (s.disk.pending ++ s.completed.map fun c ↦ (c.requestId, some c.req))
  given : w.given.map (·.1) = s.submitted.map (·.1)
  completed : ∀ c ∈ s.completed, (c.requestId, c.time) ∈ w.given ∧ c.time ≤ c.now
  ordered : s.completed.Pairwise fun c c' ↦ c.time ≤ c'.time
  inflight : s.disk.requestInflight = s.disk.pending.length + s.completing.length
  bounded : s.disk.requestInflight ≤ n

/-- The emulator's channels that complete after the latest response hold the pending
requests, and everything up to it was replied. -/
structure Synced (n : ℕ) (top : ℤ) (s : System) (w : World) : Prop where
  channels : w.sim.channels = n
  speedFactor : 0 ≤ w.sim.speedFactor
  ahead : Ahead s.disk w
  busy : (w.sim.busyAfter s.disk.latestResponseTime).Perm
    (s.disk.pending.map fun p ↦ (p.1.toNat : ℤ))
  times : ∀ i < w.sim.count, s.disk.latestResponseTime < w.sim.completionTime i →
    ∃ requestId : UInt32, w.sim.ioRequestId i = requestId.toNat ∧
      (requestId, w.sim.completionTime i) ∈ w.given
  fits : ∀ i < w.sim.count, w.sim.completionTime i ≤ top
  replied : ∀ c ∈ s.completed, c.time ≤ s.disk.latestResponseTime
  latest : 0 ≤ s.disk.latestResponseTime
  latestNow : s.disk.latestResponseTime ≤ w.now
  now : w.now ≤ LONG_MAX

variable {n : ℕ} {top : ℤ} {s : System} {w w' : World} {d : Emudisk}

theorem Synced.count (h : Synced n top s w) : w.sim.count = n := by
  rw [MySSDSim.count, h.channels, Int.toNat_natCast]

theorem Books.count (h : Books n s w) : s.disk.count = n := by
  rw [Emudisk.count, h.diskChannels, Int.toNat_natCast]

theorem Books.read (h : Books n s w) (t : ℤ) : Books n s { w with now := t } where
  __ := h

theorem Synced.read (h : Synced n top s w) {t : ℤ} (ht : w.now < t) (hmax : t ≤ LONG_MAX) :
    Synced n top s { w with now := t } where
  __ := h
  ahead := ⟨h.ahead.nonneg, h.ahead.lt, h.ahead.pos⟩
  latestNow := h.latestNow.trans ht.le
  now := hmax

theorem Books.unused (h : Books n s w) (ha : Ahead s.disk w) :
    s.disk.udpSendReplyId ∉ w.given.map (·.1) := by
  rw [h.given]
  intro hmem
  obtain ⟨p, hp, heq⟩ := List.mem_map.mp hmem
  have hold := h.old p hp
  rw [heq] at hold
  by_cases h0 : s.disk.udpSendReplyId = 0
  · exact h.nonzero p hp (heq.trans h0)
  · exact absurd hold (not_le.mpr (ha.lt h0))

theorem Books.quiet (h : Books n s w) (hq : Quiet w w') : Books n s w' where
  __ := h
  old p hp := (h.old p hp).trans hq.counter
  given := hq.given ▸ h.given
  completed := hq.given ▸ h.completed

structure SameBooks (d d' : Emudisk) : Prop where
  diskChannels : d'.diskChannels = d.diskChannels
  requestInflight : d'.requestInflight = d.requestInflight
  latestResponseTime : d'.latestResponseTime = d.latestResponseTime
  pending : d'.pending = d.pending

theorem SameBooks.of_sameRequests {d' : Emudisk} (h : SameRequests d d') : SameBooks d d' :=
  ⟨h.diskChannels, h.requestInflight, h.latestResponseTime, Emudisk.pending_same h⟩

theorem SameBooks.takeUp (d : Emudisk) (next : NextResponses) : SameBooks d (d.takeUp next).1 := by
  unfold Emudisk.takeUp
  split <;> exact ⟨rfl, rfl, rfl, rfl⟩

theorem SameBooks.replace (d : Emudisk) (next : NextResponses) : SameBooks d (d.replace next) := by
  unfold Emudisk.replace
  dsimp only
  split <;> exact ⟨rfl, rfl, rfl, rfl⟩

theorem SameBooks.trans {d' d'' : Emudisk} (h : SameBooks d d') (h' : SameBooks d' d'') :
    SameBooks d d'' :=
  ⟨h'.diskChannels.trans h.diskChannels, h'.requestInflight.trans h.requestInflight,
    h'.latestResponseTime.trans h.latestResponseTime, h'.pending.trans h.pending⟩

theorem Books.same (h : Books n s w) (hs : SameBooks s.disk d) :
    Books n { s with disk := d } w where
  __ := h
  diskChannels := hs.diskChannels.trans h.diskChannels
  history := hs.pending ▸ h.history
  inflight := hs.pending ▸ hs.requestInflight.trans h.inflight
  bounded := hs.requestInflight.le.trans h.bounded

theorem Synced.quiet (h : Synced n top s w) (hq : Quiet w w') (hs : SameBooks s.disk d)
    (ha : Ahead d w') : Synced n top { s with disk := d } w' := by
  have hcount := hq.sim.count
  have htime := hq.sim.completionTime
  have hid := hq.sim.ioRequestId
  have hlatest := hs.latestResponseTime
  refine ⟨hq.sim.channels.trans h.channels, hq.sim.speedFactor.ge.trans' h.speedFactor, ha, ?_, ?_,
    ?_, ?_, ?_, ?_, ?_⟩
  · dsimp only
    rw [hlatest, hq.sim.busyAfter, hs.pending]
    exact h.busy
  · dsimp only
    rw [hlatest, hcount, htime, hid, hq.given]
    exact h.times
  · rw [hcount, htime]
    exact h.fits
  · dsimp only
    rw [hlatest]
    exact h.replied
  · dsimp only
    rw [hlatest]
    exact h.latest
  · dsimp only
    rw [hlatest, hq.now]
    exact h.latestNow
  · rw [hq.now]
    exact h.now

theorem Books.pending_nodup (h : Books n s w) : (s.disk.pending.map (·.1)).Nodup := by
  have hperm := h.history.map Prod.fst
  rw [List.map_map, List.map_append] at hperm
  exact (List.nodup_append.mp (hperm.nodup_iff.mp h.ids)).1

theorem Books.pending_submitted (h : Books n s w) {requestId : UInt32} {o : Option Request}
    (hp : (requestId, o) ∈ s.disk.pending) :
    ∃ req, o = some req ∧ (requestId, req) ∈ s.submitted := by
  obtain ⟨⟨id, req⟩, hmem, heq⟩ :=
    List.mem_map.mp (h.history.mem_iff.mpr (List.mem_append_left _ hp))
  rw [Prod.mk.injEq] at heq
  obtain ⟨rfl, rfl⟩ := heq
  exact ⟨req, rfl, hmem⟩

/-- While fewer requests are in flight than there are channels, a channel is free for
a request submitted after the latest response. -/
theorem Synced.exists_channel (h : Synced n top s w) (hb : Books n s w)
    (hlt : s.disk.requestInflight < n) {now : ℤ} (hlatest : s.disk.latestResponseTime < now)
    (hnow : now ≤ LONG_MAX) : ∃ i < w.sim.count,
      w.sim.oldestChannel = (w.sim.completionTime i, some i) ∧
      w.sim.completionTime i ≤ s.disk.latestResponseTime := by
  have hlen := h.busy.length_eq
  rw [List.length_map] at hlen
  have hinflight := hb.inflight
  have hcount := h.count
  obtain ⟨j, hj, hnone⟩ := exists_free (g := guarded
    (fun i ↦ s.disk.latestResponseTime < w.sim.completionTime i) w.sim.ioRequestId)
    (n := w.sim.count) (by rw [MySSDSim.busyAfter] at hlen; omega)
  have hj' : w.sim.completionTime j ≤ s.disk.latestResponseTime := by
    by_contra hbusy
    rw [guarded, if_pos (not_le.mp hbusy)] at hnone
    cases hnone
  obtain ⟨i, hi, hold, hle⟩ := w.sim.oldestChannel_le hj (by omega)
  exact ⟨i, hi, hold, hle.trans hj'⟩

end Nctusde.EmulatorKernel

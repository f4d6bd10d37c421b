import Nctusde.EmulatorKernel.Composed

namespace Nctusde.EmulatorKernel

open BlockLayer Library Library.Table Network UdpServer Wire

variable {n : ℕ} {top t t' : ℤ} {s : System} {w : World} {requestId : UInt32}

namespace System

def unreplied (s : System) : List UInt32 :=
  (s.submitted.map (·.1)).filter (· ∉ s.completed.map (·.requestId))

def First (s : System) (w : World) (requestId : UInt32) : Prop :=
  requestId ∈ s.unreplied ∧ ∃ t, (requestId, t) ∈ w.given ∧
    ∀ requestId' ∈ s.unreplied, ∀ t', (requestId', t') ∈ w.given → t ≤ t'

/-- The pending batch is exactly the set of unreplied requests that complete first. -/
structure NextBatch (s : System) (w : World) : Prop where
  num : s.disk.nextResponseToReplyNum = 0 ↔ s.unreplied = []
  ids : ∀ requestId, s.First w requestId ↔
    ∃ i < s.disk.nextResponseToReplyNum, s.disk.nextResponseToReplyIds i = requestId
  time : ∀ i < s.disk.nextResponseToReplyNum,
    (s.disk.nextResponseToReplyIds i, s.disk.nextResponseToReplyTime) ∈ w.given
  distinct : ∀ i < s.disk.nextResponseToReplyNum, ∀ j < s.disk.nextResponseToReplyNum,
    s.disk.nextResponseToReplyIds i = s.disk.nextResponseToReplyIds j → i = j

end System

theorem Books.completed_nodup (h : Books n s w) :
    (s.disk.pending.map (·.1) ++ s.completed.map (·.requestId)).Nodup := by
  have hperm := h.history.map Prod.fst
  rw [List.map_append, List.map_map, List.map_map] at hperm
  exact hperm.nodup_iff.mp h.ids

theorem Books.mem_unreplied (h : Books n s w) :
    requestId ∈ s.unreplied ↔ requestId ∈ s.disk.pending.map (·.1) := by
  have hperm := h.history.map Prod.fst
  rw [List.map_append, List.map_map, List.map_map] at hperm
  have hmem : requestId ∈ s.submitted.map (·.1) ↔
      requestId ∈ s.disk.pending.map (·.1) ∨ requestId ∈ s.completed.map (·.requestId) :=
    hperm.mem_iff.trans List.mem_append
  rw [System.unreplied, List.mem_filter, hmem, decide_eq_true_iff]
  constructor
  · rintro ⟨hor, hnot⟩
    exact hor.resolve_right hnot
  · intro hp
    exact ⟨.inl hp, fun hc ↦ (List.nodup_append.mp h.completed_nodup).2.2 _ hp _ hc rfl⟩

theorem Books.given_unique (h : Books n s w) (ht : (requestId, t) ∈ w.given)
    (ht' : (requestId, t') ∈ w.given) : t = t' := by
  have hnodup := h.ids
  rw [← h.given] at hnodup
  exact congrArg Prod.snd (List.inj_on_of_nodup_map hnodup ht ht' rfl)

theorem Synced.mem_unreplied (h : Synced n top s w) (hb : Books n s w) :
    requestId ∈ s.unreplied ↔
    ∃ i < w.sim.count, s.disk.latestResponseTime < w.sim.completionTime i ∧
      w.sim.ioRequestId i = requestId.toNat := by
  have hmem : (requestId.toNat : ℤ) ∈ s.disk.pending.map (fun p ↦ (p.1.toNat : ℤ)) ↔
      requestId ∈ s.disk.pending.map (·.1) := by
    constructor
    · intro hp
      obtain ⟨p, hp, heq⟩ := List.mem_map.mp hp
      exact List.mem_map.mpr ⟨p, hp, UInt32.toNat_inj.mp (Int.ofNat_inj.mp heq)⟩
    · intro hmem
      obtain ⟨p, hp, heq⟩ := List.mem_map.mp hmem
      exact List.mem_map.mpr ⟨p, hp, heq ▸ rfl⟩
  rw [hb.mem_unreplied, ← hmem, ← h.busy.mem_iff, MySSDSim.mem_busyAfter]

theorem Synced.given_of_busy (h : Synced n top s w) {i : ℕ} (hi : i < w.sim.count)
    (hlt : s.disk.latestResponseTime < w.sim.completionTime i)
    (hid : w.sim.ioRequestId i = requestId.toNat) :
    (requestId, w.sim.completionTime i) ∈ w.given := by
  obtain ⟨id, hid', hgiven⟩ := h.times i hi hlt
  obtain rfl : id = requestId := UInt32.toNat_inj.mp (Int.ofNat_inj.mp (hid'.symm.trans hid))
  exact hgiven

/-- The requests that complete first are those of the next batch. -/
theorem first_iff (hb : Books n s w) (hsy : Synced n top s w)
    (hnext : NextAt w.sim s.disk.latestResponseTime t') :
    s.First w requestId ↔ (requestId.toNat : ℤ) ∈ w.sim.completingAt t' := by
  rw [MySSDSim.mem_completingAt]
  constructor
  · rintro ⟨hun, t, ht, hleast⟩
    obtain ⟨i, hi, hlt, hid⟩ := (hsy.mem_unreplied hb).mp hun
    obtain rfl := hb.given_unique ht (hsy.given_of_busy hi hlt hid)
    obtain ⟨j, hj, htime⟩ := hnext.busy
    have hlater : s.disk.latestResponseTime < w.sim.completionTime j := htime ▸ hnext.later
    obtain ⟨id, hid', hgiven⟩ := hsy.times j hj hlater
    have hle := hleast id ((hsy.mem_unreplied hb).mpr ⟨j, hj, hlater, hid'⟩) _ hgiven
    exact ⟨i, hi, le_antisymm (hle.trans htime.le) (hnext.least i hi hlt), hid⟩
  · rintro ⟨i, hi, rfl, hid⟩
    refine ⟨(hsy.mem_unreplied hb).mpr ⟨i, hi, hnext.later, hid⟩, _,
      hsy.given_of_busy hi hnext.later hid, fun id hun t ht ↦ ?_⟩
    obtain ⟨j, hj, hlt, hid'⟩ := (hsy.mem_unreplied hb).mp hun
    rw [hb.given_unique ht (hsy.given_of_busy hj hlt hid')]
    exact hnext.least j hj hlt

theorem completing_id (hsy : Synced n top s w) (hnext : NextAt w.sim s.disk.latestResponseTime t')
    {x : ℤ} (hx : x ∈ w.sim.completingAt t') : ∃ requestId : UInt32, x = requestId.toNat := by
  obtain ⟨i, hi, htime, hid⟩ := w.sim.mem_completingAt.mp hx
  obtain ⟨id, hid', -⟩ := hsy.times i hi (htime ▸ hnext.later)
  exact ⟨id, hid.symm.trans hid'⟩

theorem completingAt_nodup (hb : Books n s w) (hsy : Synced n top s w)
    (hnext : NextAt w.sim s.disk.latestResponseTime t') : (w.sim.completingAt t').Nodup := by
  have hsplit := w.sim.busyAfter_split hnext.later hnext.least
  have hbusy : (w.sim.busyAfter s.disk.latestResponseTime).Nodup := by
    have hmap : s.disk.pending.map (fun p ↦ (p.1.toNat : ℤ)) =
        (s.disk.pending.map (·.1)).map fun id ↦ (id.toNat : ℤ) := by rw [List.map_map]; rfl
    rw [hsy.busy.nodup_iff, hmap]
    exact hb.pending_nodup.map fun a b hab ↦ UInt32.toNat_inj.mp (Int.ofNat_inj.mp hab)
  exact (List.nodup_append.mp (hsplit.nodup_iff.mp hbusy)).1

theorem Invariant.nextBatch (h : Invariant n top s w) (htop : top < LONG_MAX) : s.NextBatch w := by
  have hb := h.books
  have hsy := h.synced
  by_cases hnum : s.disk.nextResponseToReplyNum = 0
  · have hnone : s.unreplied = [] := by
      refine List.eq_nil_iff_forall_not_mem.mpr fun id hid ↦ ?_
      obtain ⟨i, hi, hlt, -⟩ := (hsy.mem_unreplied hb).mp hid
      rcases nextAt_or_none w.sim s.disk.latestResponseTime with ⟨t', hnext⟩ | hnone
      · have hlen := hnext.length_pos
        have hzero := h.batch.num
        rw [hnext.reported, hnum] at hzero
        dsimp only at hzero
        omega
      · have hmax := hnone.unbounded i hi hlt
        have hfits := hsy.fits i hi
        omega
    refine ⟨iff_of_true hnum hnone, fun id ↦ iff_of_false ?_ ?_, ?_, ?_⟩
    · rintro ⟨hun, -⟩
      rw [hnone] at hun
      cases hun
    · rintro ⟨i, hi, -⟩
      omega
    · intro i hi
      omega
    · intro i hi
      omega
  · obtain ⟨t', hat⟩ := h.batch.at hnum
    have hget {i : ℕ} (hi : i < s.disk.nextResponseToReplyNum)
        (hlt : i < (w.sim.completingAt t').length) :
        ((s.disk.nextResponseToReplyIds i).toNat : ℤ) = (w.sim.completingAt t')[i] := by
      obtain ⟨id, hid⟩ := completing_id hsy hat.next (List.getElem_mem hlt)
      rw [hat.ids i hi, List.getD_eq_getElem _ _ hlt, hid, toU32_natCast_toNat]
    have hids (id : UInt32) : s.First w id ↔
        ∃ i < s.disk.nextResponseToReplyNum, s.disk.nextResponseToReplyIds i = id := by
      rw [first_iff hb hsy hat.next, List.mem_iff_getElem]
      constructor
      · rintro ⟨i, hi, heq⟩
        have hlt : i < s.disk.nextResponseToReplyNum := hat.num ▸ hi
        exact ⟨i, hlt, UInt32.toNat_inj.mp (Int.ofNat_inj.mp ((hget hlt hi).trans heq))⟩
      · rintro ⟨i, hi, rfl⟩
        have hlt : i < (w.sim.completingAt t').length := hat.num ▸ hi
        exact ⟨i, hlt, (hget hi hlt).symm⟩
    refine ⟨iff_of_false hnum fun hnone ↦ ?_, hids, fun i hi ↦ ?_, fun i hi j hj hij ↦ ?_⟩
    · have hfirst := (hids (s.disk.nextResponseToReplyIds 0)).mpr
        ⟨0, Nat.pos_of_ne_zero hnum, rfl⟩
      have hun := hfirst.1
      rw [hnone] at hun
      cases hun
    · have hlt : i < (w.sim.completingAt t').length := hat.num ▸ hi
      rw [hat.time]
      refine hsy.given_of_completing hat.next.later ?_
      rw [hget hi hlt]
      exact List.getElem_mem _
    · have hlt : i < (w.sim.completingAt t').length := hat.num ▸ hi
      have hlt' : j < (w.sim.completingAt t').length := hat.num ▸ hj
      have hnumbers : ((s.disk.nextResponseToReplyIds i).toNat : ℤ) =
          (s.disk.nextResponseToReplyIds j).toNat := by rw [hij]
      have heq := (hget hi hlt).symm.trans (hnumbers.trans (hget hj hlt'))
      exact (completingAt_nodup hb hsy hat.next).getElem_inj_iff.mp heq

end Nctusde.EmulatorKernel

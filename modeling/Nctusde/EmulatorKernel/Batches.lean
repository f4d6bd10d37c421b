import Nctusde.EmulatorKernel.Exchanges
import Nctusde.EmulatorKernel.Wakeup

namespace Nctusde.EmulatorKernel

open BlockLayer Library Library.Table UdpServer Wire

variable {d : Emudisk} {sim sim₀ : MySSDSim} {next : NextResponses} {t t' : ℤ}

/-- The emulator reports the completions at `t'` to one who asks from `t` on. -/
structure NextAt (sim : MySSDSim) (t t' : ℤ) : Prop where
  later : t < t'
  bounded : t' < LONG_MAX
  busy : ∃ i < sim.count, sim.completionTime i = t'
  least : ∀ i < sim.count, t < sim.completionTime i → t' ≤ sim.completionTime i
  reported : sim.nextResponses t = ⟨(sim.completingAt t').length, t', sim.completingAt t'⟩

structure NoneAfter (sim : MySSDSim) (t : ℤ) : Prop where
  unbounded : ∀ i < sim.count, t < sim.completionTime i → LONG_MAX ≤ sim.completionTime i
  reported : sim.nextResponses t = ⟨0, 0, [0]⟩

theorem nextAt_or_none (sim : MySSDSim) (t : ℤ) : (∃ t', NextAt sim t t') ∨ NoneAfter sim t := by
  rcases sim.nextResponses_spec t with ⟨i, hi, hlt, hmax, hleast, heq⟩ | ⟨hnone, heq⟩
  · exact .inl ⟨_, hlt, hmax, ⟨i, hi, rfl⟩, hleast, heq⟩
  · exact .inr ⟨hnone, heq⟩

theorem NextAt.length_pos (h : NextAt sim t t') : 0 < (sim.completingAt t').length := by
  obtain ⟨i, hi, htime⟩ := h.busy
  exact List.length_pos_of_mem (sim.mem_completingAt.mpr ⟨i, hi, htime, rfl⟩)

/-- The batch that the driver completes next is the one the emulator would report. -/
structure Batch (d : Emudisk) (sim : MySSDSim) : Prop where
  num : d.nextResponseToReplyNum = (sim.nextResponses d.latestResponseTime).numResponse
  time : d.nextResponseToReplyNum ≠ 0 →
    d.nextResponseToReplyTime = (sim.nextResponses d.latestResponseTime).time
  ids : ∀ i < d.nextResponseToReplyNum, d.nextResponseToReplyIds i =
    toU32 ((sim.nextResponses d.latestResponseTime).ioRequestIds.getD i 0)

structure SameBatch (d d' : Emudisk) : Prop where
  time : d'.nextResponseToReplyTime = d.nextResponseToReplyTime
  num : d'.nextResponseToReplyNum = d.nextResponseToReplyNum
  ids : d'.nextResponseToReplyIds = d.nextResponseToReplyIds
  latest : d'.latestResponseTime = d.latestResponseTime

namespace SameBatch

variable {d' d'' : Emudisk}

theorem refl (d : Emudisk) : SameBatch d d := ⟨rfl, rfl, rfl, rfl⟩

theorem trans (h : SameBatch d d') (h' : SameBatch d' d'') : SameBatch d d'' :=
  ⟨h'.time.trans h.time, h'.num.trans h.num, h'.ids.trans h.ids, h'.latest.trans h.latest⟩

theorem of_sameRequests (h : SameRequests d d') : SameBatch d d' :=
  ⟨h.nextResponseToReplyTime, h.nextResponseToReplyNum, h.nextResponseToReplyIds,
    h.latestResponseTime⟩

theorem batch (hs : SameBatch d d') (h : Batch d sim) : Batch d' sim := by
  refine ⟨?_, ?_, ?_⟩
  · rw [hs.num, hs.latest]
    exact h.num
  · rw [hs.num, hs.latest, hs.time]
    exact h.time
  · rw [hs.num, hs.latest, hs.ids]
    exact h.ids

end SameBatch

structure BatchAt (d : Emudisk) (sim : MySSDSim) (t' : ℤ) : Prop where
  next : NextAt sim d.latestResponseTime t'
  num : d.nextResponseToReplyNum = (sim.completingAt t').length
  time : d.nextResponseToReplyTime = t'
  ids : ∀ i < d.nextResponseToReplyNum,
    d.nextResponseToReplyIds i = toU32 ((sim.completingAt t').getD i 0)

theorem Batch.at (h : Batch d sim) (hnum : d.nextResponseToReplyNum ≠ 0) :
    ∃ t', BatchAt d sim t' := by
  have hn := h.num
  have ht := h.time hnum
  have hi := h.ids
  rcases nextAt_or_none sim d.latestResponseTime with ⟨t', hnext⟩ | hnone
  · rw [hnext.reported] at hn ht hi
    exact ⟨t', hnext, Int.ofNat_inj.mp hn, ht, hi⟩
  · rw [hnone.reported] at hn
    exact absurd (Int.natCast_eq_zero.mp hn) hnum

theorem BatchAt.batch (h : BatchAt d sim t') : Batch d sim := by
  have hnum := h.num
  have htime := h.time
  have hids := h.ids
  refine ⟨?_, fun _ ↦ ?_, ?_⟩
  · rw [h.next.reported, hnum]
  · rw [h.next.reported]
    exact htime
  · rw [h.next.reported]
    exact hids

theorem NoneAfter.batch (h : NoneAfter sim d.latestResponseTime)
    (hnum : d.nextResponseToReplyNum = 0) : Batch d sim := by
  refine ⟨?_, fun hne ↦ absurd hnum hne, fun i hi ↦ absurd hi (by omega)⟩
  rw [h.reported, hnum]
  rfl

structure Grows (t : ℤ) (sim₀ sim : MySSDSim) : Prop where
  count : sim.count = sim₀.count
  busy : ∀ i < sim.count, t < sim₀.completionTime i →
    sim.completionTime i = sim₀.completionTime i ∧ sim.ioRequestId i = sim₀.ioRequestId i

namespace Grows

theorem refl (t : ℤ) (sim : MySSDSim) : Grows t sim sim := ⟨rfl, fun _ _ _ ↦ ⟨rfl, rfl⟩⟩

theorem trans {sim' : MySSDSim} (h : Grows t sim₀ sim) (h' : Grows t sim sim') :
    Grows t sim₀ sim' := by
  refine ⟨h'.count.trans h.count, fun i hi hlt ↦ ?_⟩
  obtain ⟨htime, hid⟩ := h.busy i (h'.count ▸ hi) hlt
  obtain ⟨htime', hid'⟩ := h'.busy i hi (htime ▸ hlt)
  exact ⟨htime'.trans htime, hid'.trans hid⟩

theorem of_same (t : ℤ) (h : MySSDSim.SameChannels sim₀ sim) : Grows t sim₀ sim :=
  ⟨h.count, fun _ _ _ ↦ ⟨by rw [h.completionTime], by rw [h.ioRequestId]⟩⟩

theorem noneAfter (h : Grows t sim₀ sim) (hnone : NoneAfter sim t) : NoneAfter sim₀ t := by
  rcases nextAt_or_none sim₀ t with ⟨t', hnext⟩ | h₀
  · obtain ⟨i, hi, rfl⟩ := hnext.busy
    have htime := (h.busy i (h.count ▸ hi) hnext.later).1
    have := hnone.unbounded i (h.count ▸ hi) (htime ▸ hnext.later)
    have := hnext.bounded
    omega
  · exact h₀

theorem nextAt_le {t₀ : ℤ} (h : Grows t sim₀ sim) (h₀ : NextAt sim₀ t t₀) (h' : NextAt sim t t') :
    t' ≤ t₀ := by
  obtain ⟨i, hi, rfl⟩ := h₀.busy
  have htime := (h.busy i (h.count ▸ hi) h₀.later).1
  rw [← htime]
  exact h'.least i (h.count ▸ hi) (htime ▸ h₀.later)

theorem completingAt_sublist (h : Grows t sim₀ sim) (ht : t < t') :
    List.Sublist (sim₀.completingAt t') (sim.completingAt t') := by
  rw [MySSDSim.completingAt, MySSDSim.completingAt, h.count]
  apply entries_sublist
  intro i hi
  by_cases htime : sim₀.completionTime i = t'
  · obtain ⟨htime', hid⟩ := h.busy i (h.count ▸ hi) (htime ▸ ht)
    right
    simp only [guarded, htime', hid]
  · left
    simp only [guarded, if_neg htime]

end Grows

/-- Whatever was submitted since the batch was right, it is right again after the
driver has compared it with what is reported now. -/
theorem Batch.takeUp (h : Batch d sim₀) (h0 : 0 ≤ d.latestResponseTime)
    (hgrows : Grows d.latestResponseTime sim₀ sim)
    (hreports : Reports (sim.nextResponses d.latestResponseTime) next) :
    Batch (d.takeUp next).1 sim := by
  have hn := hreports.num
  have ht := hreports.time
  have hi := hreports.ids
  rcases nextAt_or_none sim d.latestResponseTime with ⟨t', hnext⟩ | hnone
  · rw [hnext.reported] at hn ht hi
    have hpos := hnext.length_pos
    have hlater := hnext.later
    have hbounded := hnext.bounded
    rw [LONG_MAX] at hbounded
    have hnum : next.num = (sim.completingAt t').length := Int.ofNat_inj.mp hn
    have htime : (next.time : ℤ) = t' := ht
    unfold Emudisk.takeUp
    split
    · suffices hat : BatchAt _ sim t' from hat.batch
      refine ⟨hnext, hnum, ?_, fun i hlt ↦ ?_⟩
      · dsimp only
        rw [htime]
        exact toLong_of_fits (by omega) (by omega)
      · dsimp only at hlt ⊢
        rw [if_pos hlt]
        exact hi i hlt
    · rename_i hkeep
      have hcase := not_and.mp hkeep (by omega)
      obtain ⟨hold, hrest⟩ := not_or.mp hcase
      obtain ⟨hle, hties⟩ := not_or.mp hrest
      obtain ⟨t₀, hb⟩ := h.at hold
      have hlater₀ := hb.next.later
      have hbounded₀ := hb.next.bounded
      rw [LONG_MAX] at hbounded₀
      rw [hb.time, htime, toU64_of_fits (by omega) (by omega)] at hle hties
      have hge := hgrows.nextAt_le hb.next hnext
      obtain rfl : t' = t₀ := by omega
      have hlist : sim₀.completingAt t' = sim.completingAt t' := by
        refine (hgrows.completingAt_sublist hlater).eq_of_length_le ?_
        have := hb.num
        have := not_and.mp hties rfl
        omega
      have hat : BatchAt d sim t' := ⟨hnext, hlist ▸ hb.num, hb.time, hlist ▸ hb.ids⟩
      exact hat.batch
  · rw [hnone.reported] at hn
    have hnum : next.num = 0 := Int.natCast_eq_zero.mp hn
    have hzero : d.nextResponseToReplyNum = 0 := by
      have hnone₀ := (hgrows.noneAfter hnone).reported
      have hd := h.num
      rw [hnone₀] at hd
      exact Int.natCast_eq_zero.mp hd
    have hkeep : (d.takeUp next).1 = d := by
      rw [Emudisk.takeUp, if_neg (by omega)]
    rw [hkeep]
    exact hnone.batch hzero

theorem Batch.replace (h0 : 0 ≤ d.latestResponseTime)
    (hreports : Reports (sim.nextResponses d.latestResponseTime) next) :
    Batch (d.replace next) sim := by
  have hn := hreports.num
  have ht := hreports.time
  have hi := hreports.ids
  rcases nextAt_or_none sim d.latestResponseTime with ⟨t', hnext⟩ | hnone
  · rw [hnext.reported] at hn ht hi
    have hpos := hnext.length_pos
    have hlater := hnext.later
    have hbounded := hnext.bounded
    rw [LONG_MAX] at hbounded
    have hnum : next.num = (sim.completingAt t').length := Int.ofNat_inj.mp hn
    have htime : (next.time : ℤ) = t' := ht
    unfold Emudisk.replace
    dsimp only
    rw [if_pos (by omega)]
    suffices hat : BatchAt _ sim t' from hat.batch
    refine ⟨hnext, hnum, ?_, fun i hlt ↦ ?_⟩
    · dsimp only
      rw [htime]
      exact toLong_of_fits (by omega) (by omega)
    · dsimp only at hlt ⊢
      rw [if_pos hlt]
      exact hi i hlt
  · rw [hnone.reported] at hn
    have hnum : next.num = 0 := Int.natCast_eq_zero.mp hn
    unfold Emudisk.replace
    dsimp only
    rw [if_neg (not_not.mpr hnum)]
    exact NoneAfter.batch hnone rfl

end Nctusde.EmulatorKernel

import Nctusde.Ramdisk.Completion

namespace Nctusde.Ramdisk

open BlockLayer Library.ForLoop Library.Table UdpServer Wire

/-- The sectors a request covers, as both drivers count them. -/
def sectorCount (req : Request) : ℕ := (req.bytes + (SECTOR_SIZE - 1)) / SECTOR_SIZE

/-- A submission both sides are given, not before the time `last`: whole sectors,
at most 64 KiB, and room in the drive for one more request. -/
structure Submission (d : Emudisk) (last time : ℤ) (req : Request) : Prop where
  later : last ≤ time
  pos : 0 < time
  whole : SECTOR_SIZE ∣ req.bytes
  small : req.bytes ≤ 65536
  sectors : req.pos + sectorCount req < 2 ^ 32
  room : d.pending.length < d.count
  exact : ∀ k, requestSizeIndex (toInt req.bytes) = some k →
    time + d.responseTime (d.isSequentialRequest req) req.dataDir k ≤ LONG_MAX

/-- The ramdisk driver and the server fed with the same submissions, with passes
of the processing task of the driver in between. -/
inductive Lockstep : Emudisk → MySSDSim → ℤ → Prop
  | start {d : Emudisk} {sim : MySSDSim} : 1 ≤ d.diskChannels →
      d.diskChannels ≤ MAX_DISK_REQUESTS_IN_PARALLEL → ExactRates d.speedFactor →
      sim.channels = d.diskChannels → sim.speedFactor = d.speedFactor →
      (∀ i < d.count, d.isCompleted i ∧ d.completionTime i = 0 ∧ sim.completionTime i = 0 ∧
        (sim.ssdChannels i).requestRw = (d.channels i).requestRw ∧
        (sim.ssdChannels i).requestLastSector = (d.channels i).requestLastSector) →
      Lockstep d sim 0
  | submit {d d' : Emudisk} {sim sim' : MySSDSim} {last time c ret id : ℤ} {req : Request}
      {wake : Bool} {totals totals' : Totals} : Lockstep d sim last → Submission d last time req →
      d.submit time req = .ok (d', c, wake) →
      sim.submitRequest totals time req.dataDir.code req.pos (sectorCount req) id =
        some (ret, sim', totals') →
      Lockstep d' sim' time
  | pass {d : Emudisk} {sim : MySSDSim} {last time : ℤ} {i : ℕ} : Lockstep d sim last →
      last ≤ time → d.nextResponseIndex time = some i →
      Lockstep (d.complete i) sim time
  | idle {d : Emudisk} {sim : MySSDSim} {last time : ℤ} : Lockstep d sim last → last ≤ time →
      d.nextResponseIndex time = none → Lockstep d.findNext sim time

structure Agrees (ssdChannel : SsdChannel) (channel : Channel) : Prop where
  completionTime : ssdChannel.completionTime = channel.requestCompletionTime
  requestRw : ssdChannel.requestRw = channel.requestRw
  requestLastSector : ssdChannel.requestLastSector = channel.requestLastSector

/-- The two sides agree on every channel, and the completed channels come before
the others by completion time and then by index. -/
structure InStep (d : Emudisk) (sim : MySSDSim) (last : ℤ) : Prop where
  rates : ExactRates d.speedFactor
  channels : sim.channels = d.diskChannels
  speedFactor : sim.speedFactor = d.speedFactor
  agrees : ∀ i < d.count, Agrees (sim.ssdChannels i) (d.channels i)
  held : ∀ i < d.count, (d.channels i).requestCompleted = false → (d.channels i).request ≠ none
  due : ∀ i < d.count, d.isCompleted i → ∀ t, last ≤ t → 0 < t → d.completionTime i < t
  before : ∀ i < d.count, ∀ j < d.count, d.isCompleted i → ¬ d.isCompleted j →
    d.completionTime i < d.completionTime j ∨ d.completionTime i = d.completionTime j ∧ i < j

variable {d d' : Emudisk} {sim sim' : MySSDSim} {last time : ℤ} {req : Request}

theorem InStep.count (h : InStep d sim last) : sim.count = d.count := by
  rw [MySSDSim.count, Emudisk.count, h.channels]

theorem InStep.completionTime (h : InStep d sim last) {i : ℕ} (hi : i < d.count) :
    sim.completionTime i = d.completionTime i := (h.agrees i hi).completionTime

theorem sectorCount_bytes (h : Submission d last time req) :
    (sectorCount req : ℤ) * SECTOR_SIZE = req.bytes := by
  have := h.whole
  simp only [sectorCount, SECTOR_SIZE] at *
  omega

theorem Submission.sizeClass (h : Submission d last time req) :
    ∃ k, requestSizeIndex (toInt req.bytes) = some k ∧ k < 8 := by
  have hsmall := h.small
  obtain ⟨k, hk⟩ : ∃ k, requestSizeIndex (toInt req.bytes) = some k := by
    apply requestSizeIndex_isSome
    rw [toInt_of_fits (by omega) (by omega)]
    exact_mod_cast hsmall
  exact ⟨k, hk, requestSizeIndex_lt hk⟩

theorem InStep.isSequentialRequest (h : InStep d sim last) (req : Request) :
    sim.isSequentialRequest req.dataDir.code req.pos = d.isSequentialRequest req := by
  rw [MySSDSim.isSequentialRequest, Emudisk.isSequentialRequest, h.count, Bool.eq_iff_iff,
    List.any_eq_true, List.any_eq_true]
  refine exists_congr fun i ↦ and_congr_right fun hi ↦ ?_
  have hi := List.mem_range.mp hi
  rw [(h.agrees i hi).requestRw, (h.agrees i hi).requestLastSector]

/-- With room for one more request, the slot the driver picks is the channel the
server picks, and its last request is over by the time of the submission. -/
theorem InStep.oldestChannel (h : InStep d sim last) (hs : Submission d last time req) :
    ∃ i < d.count, d.emptySlot = some i ∧ d.completionTime i < time ∧
      sim.oldestChannel = (sim.completionTime i, some i) := by
  have hne : d.emptySlot ≠ none := by
    intro he
    have hn := firstMin_spec d.isCompleted d.completionTime d.count
    rw [Emudisk.emptySlot] at he
    rw [he] at hn
    obtain ⟨i, hi, hfree⟩ := exists_free hs.room
    have hc : (d.channels i).requestCompleted = false := by
      simpa [Emudisk.isCompleted] using hn i hi
    rw [Emudisk.busy, hc] at hfree
    exact h.held i hi hc (by simpa using hfree)
  obtain ⟨i, hi⟩ := Option.ne_none_iff_exists'.mp hne
  have hmin := Emudisk.emptySlot_spec hi
  have hlt := h.due i hmin.lt hmin.holds time hs.later hs.pos
  have hall : FirstMin (fun _ ↦ True) d.completionTime d.count i :=
    hmin.widen trivial fun j hj _ hopen ↦ h.before i hmin.lt j hj hmin.holds hopen
  have hsim : FirstMin (fun _ ↦ True) sim.completionTime sim.count i := by
    rw [h.count]
    exact hall.congr fun j hj ↦ (h.completionTime hj).symm
  refine ⟨i, hmin.lt, hi, hlt, sim.oldestChannel_eq hsim ?_⟩
  obtain ⟨k, hk, hk8⟩ := hs.sizeClass
  have hexact := hs.exact k hk
  have hnonneg := (d.responseTime_eq h.rates (d.isSequentialRequest req) req.dataDir hk8).1
  rw [h.completionTime hmin.lt]
  omega

theorem InStep.serviceTime (h : InStep d sim last) (sequential : Bool) (dir : DataDir) {k : ℕ}
    (hk : k < 8) : sim.serviceTime sequential dir.code k = d.responseTime sequential dir k := by
  rw [(d.responseTime_eq h.rates sequential dir hk).2, ← h.speedFactor]
  cases dir <;> rfl

theorem InStep.assigned (h : InStep d sim last) (hs : Submission d last time req) {k : ℕ}
    (hk : requestSizeIndex (toInt req.bytes) = some k) (ioRequestId : ℤ) :
    Agrees (sim.assigned time req.dataDir.code req.pos (sectorCount req) ioRequestId k)
      (.assigned req (time + d.responseTime (d.isSequentialRequest req) req.dataDir k)) := by
  have hk8 := requestSizeIndex_lt hk
  have hexact := hs.exact k hk
  have hnonneg := (d.responseTime_eq h.rates (d.isSequentialRequest req) req.dataDir hk8).1
  have hpos := hs.pos
  have hsectors := hs.sectors
  rw [LONG_MAX] at hexact
  refine ⟨?_, ?_, ?_⟩
  · rw [MySSDSim.assigned, h.isSequentialRequest, h.serviceTime _ _ hk8]
    exact toLong_of_fits (by omega) (by omega)
  · dsimp only [MySSDSim.assigned, Channel.assigned]
    cases req.dataDir <;> rfl
  · change (req.pos + sectorCount req : ℤ) = (req.pos + sectorCount req : ℕ) % 2 ^ 32
    omega

theorem InStep.start (hn : sim.channels = d.diskChannels) (hspeed : sim.speedFactor = d.speedFactor)
    (hrates : ExactRates d.speedFactor)
    (h : ∀ i < d.count, d.isCompleted i ∧ d.completionTime i = 0 ∧ sim.completionTime i = 0 ∧
      (sim.ssdChannels i).requestRw = (d.channels i).requestRw ∧
      (sim.ssdChannels i).requestLastSector = (d.channels i).requestLastSector) :
    InStep d sim 0 where
  rates := hrates
  channels := hn
  speedFactor := hspeed
  agrees i hi := ⟨(h i hi).2.2.1.trans (h i hi).2.1.symm, (h i hi).2.2.2.1, (h i hi).2.2.2.2⟩
  held i hi hc := by
    rw [show (d.channels i).requestCompleted = true from (h i hi).1] at hc
    cases hc
  due i hi _ t _ ht := by rwa [(h i hi).2.1]
  before i _ j hj _ hopen := absurd (h j hj).1 hopen

theorem InStep.submit (h : InStep d sim last) (hs : Submission d last time req)
    {c ret ioRequestId : ℤ} {wake : Bool} {totals totals' : Totals}
    (hd : d.submit time req = .ok (d', c, wake))
    (hsim : sim.submitRequest totals time req.dataDir.code req.pos (sectorCount req) ioRequestId =
      some (ret, sim', totals')) : InStep d' sim' time := by
  obtain ⟨i, k, hk, hi, hc, -, hch, -⟩ := Emudisk.submit_ok hd
  have hk8 := requestSizeIndex_lt hk
  obtain ⟨i', hlt, hi', hdue, hold⟩ := h.oldestChannel hs
  obtain rfl : i = i' := Option.some.inj (hi.symm.trans hi')
  obtain ⟨s', _, hacc, has⟩ := sim.submitRequest_accepted totals _ _ _ _ ioRequestId hold
    (h.completionTime hlt ▸ hdue) (by rw [sectorCount_bytes hs]; exact hk)
  rw [hsim] at hacc
  obtain ⟨-, rfl, -⟩ : ret = 0 ∧ sim' = s' ∧ _ := by simpa using hacc
  have hagrees := h.assigned hs hk ioRequestId
  rw [← hc] at hagrees
  have hlate : time ≤ c := by
    have := (d.responseTime_eq h.rates (d.isSequentialRequest req) req.dataDir hk8).1
    omega
  have hcount := hch.count
  have hopen : ¬ d'.isCompleted i := by
    rw [Emudisk.isCompleted, hch.self]
    exact Bool.false_ne_true
  have hself : d'.completionTime i = c := by
    rw [Emudisk.completionTime, hch.self]
    rfl
  refine ⟨hch.speedFactor.symm ▸ h.rates, ?_, ?_, ?_, ?_, ?_, ?_⟩
  · rw [has.channels, h.channels, hch.diskChannels]
  · rw [has.speedFactor, h.speedFactor, hch.speedFactor]
  · intro j hj
    by_cases hji : j = i
    · rw [hji, has.self, hch.self]
      exact hagrees
    · rw [has.other hji, hch.other hji]
      exact h.agrees j (hcount ▸ hj)
  · intro j hj hcj
    by_cases hji : j = i
    · rw [hji, hch.self]
      exact Option.some_ne_none req
    · rw [hch.other hji] at hcj ⊢
      exact h.held j (hcount ▸ hj) hcj
  · intro j hj hcj t ht ht0
    have hji : j ≠ i := fun he ↦ hopen (he ▸ hcj)
    rw [Emudisk.isCompleted, hch.other hji] at hcj
    rw [Emudisk.completionTime, hch.other hji]
    exact h.due j (hcount ▸ hj) hcj t (hs.later.trans ht) ht0
  · intro j hj m hm hcj hcm
    have hji : j ≠ i := fun he ↦ hopen (he ▸ hcj)
    rw [Emudisk.isCompleted, hch.other hji] at hcj
    rw [Emudisk.completionTime, hch.other hji]
    by_cases hmi : m = i
    · rw [hmi, hself]
      exact .inl ((h.due j (hcount ▸ hj) hcj time hs.later hs.pos).trans_le hlate)
    · rw [Emudisk.isCompleted, hch.other hmi] at hcm
      rw [Emudisk.completionTime, hch.other hmi]
      exact h.before j (hcount ▸ hj) m (hcount ▸ hm) hcj hcm

theorem InStep.pass (h : InStep d sim last) (hlater : last ≤ time) {i : ℕ}
    (hi : d.nextResponseIndex time = some i) : InStep (d.complete i) sim time := by
  have hmin := Emudisk.nextResponseIndex_spec hi
  have hch := Emudisk.changes_complete d i
  generalize d.complete i = d' at hch ⊢
  have hcount := hch.count
  have htime (j : ℕ) : d'.completionTime j = d.completionTime j := by
    by_cases hji : j = i
    · rw [Emudisk.completionTime, hji, hch.self]
      rfl
    · rw [Emudisk.completionTime, hch.other hji]
      rfl
  refine ⟨hch.speedFactor.symm ▸ h.rates, ?_, ?_, ?_, ?_, ?_, ?_⟩
  · rw [h.channels, hch.diskChannels]
  · rw [h.speedFactor, hch.speedFactor]
  · intro j hj
    by_cases hji : j = i
    · rw [hji, hch.self]
      exact ⟨(h.agrees i hmin.lt).1, (h.agrees i hmin.lt).2, (h.agrees i hmin.lt).3⟩
    · rw [hch.other hji]
      exact h.agrees j (hcount ▸ hj)
  · intro j hj hcj
    by_cases hji : j = i
    · rw [hji, hch.self] at hcj
      cases hcj
    · rw [hch.other hji] at hcj ⊢
      exact h.held j (hcount ▸ hj) hcj
  · intro j hj hcj t ht ht0
    rw [htime]
    by_cases hji : j = i
    · rw [hji]
      exact hmin.holds.2.trans_le ht
    · rw [Emudisk.isCompleted, hch.other hji] at hcj
      exact h.due j (hcount ▸ hj) hcj t (hlater.trans ht) ht0
  · intro j hj m hm hcj hcm
    rw [htime, htime]
    have hmi : m ≠ i := by
      rintro rfl
      rw [Emudisk.isCompleted, hch.self] at hcm
      exact hcm rfl
    rw [Emudisk.isCompleted, hch.other hmi] at hcm
    by_cases hji : j = i
    · rw [hji]
      -- among the requests that are due, channel `i` is the first minimum
      by_cases hm' : d.completionTime m < time
      · have hle := hmin.least m (hcount ▸ hm) ⟨hcm, hm'⟩
        rcases Nat.lt_or_gt_of_ne hmi with hlt | hgt
        · exact .inl (hmin.first m hlt ⟨hcm, hm'⟩)
        · omega
      · exact .inl (hmin.holds.2.trans_le (not_lt.mp hm'))
    · rw [Emudisk.isCompleted, hch.other hji] at hcj
      exact h.before j (hcount ▸ hj) m (hcount ▸ hm) hcj hcm

theorem InStep.idle (h : InStep d sim last) (hlater : last ≤ time) :
    InStep d.findNext sim time := by
  have hdue : ∀ i < d.count, d.isCompleted i → ∀ t, time ≤ t → 0 < t → d.completionTime i < t :=
    fun i hi hc t ht ↦ h.due i hi hc t (hlater.trans ht)
  unfold Emudisk.findNext
  split <;> exact ⟨h.rates, h.channels, h.speedFactor, h.agrees, h.held, hdue, h.before⟩

theorem Lockstep.inStep (h : Lockstep d sim last) : InStep d sim last := by
  induction h with
  | start _ _ hrates hn hspeed h0 => exact .start hn hspeed hrates h0
  | submit _ hs hd hsim ih => exact ih.submit hs hd hsim
  | pass _ hlater hi ih => exact ih.pass hlater hi
  | idle _ hlater _ ih => exact ih.idle hlater

theorem Emudisk.submit_accepted {i k : ℕ} (hk : requestSizeIndex (toInt req.bytes) = some k)
    (hi : d.emptySlot = some i)
    (hc : time + d.responseTime (d.isSequentialRequest req) req.dataDir k ≤ LONG_MAX)
    (hin : req.dataDir = .write → ¬ d.pastEnd req) :
    ∃ d' wake, d.submit time req =
      .ok (d', time + d.responseTime (d.isSequentialRequest req) req.dataDir k, wake) := by
  rw [Emudisk.submit, hk]
  simp only [Emudisk.submitSized, hi, if_neg (not_lt.mpr hc), if_neg (not_and.mpr hin)]
  exact ⟨_, _, rfl⟩

/-- Whatever the two sides were given so far, they agree on the next request:
on its size class, its kind of access, its channel and its completion time. -/
theorem timing_agrees (h : Lockstep d sim last) (hs : Submission d last time req)
    (totals : Totals) (ioRequestId : ℤ) :
    ∃ i k sim' totals', requestSizeIndex (toInt req.bytes) = some k ∧
      requestSizeIndex (toInt (sectorCount req * SECTOR_SIZE)) = some k ∧
      sim.isSequentialRequest req.dataDir.code req.pos = d.isSequentialRequest req ∧
      d.emptySlot = some i ∧ sim.oldestChannel = (sim.completionTime i, some i) ∧
      sim.submitRequest totals time req.dataDir.code req.pos (sectorCount req) ioRequestId =
        some (0, sim', totals') ∧
      (sim'.ssdChannels i).ioRequestId = ioRequestId ∧
      ((req.dataDir = .write → ¬ d.pastEnd req) → ∃ d' wake,
        d.submit time req = .ok (d', sim'.completionTime i, wake) ∧
        (d'.channels i).request = some req ∧ d'.completionTime i = sim'.completionTime i) := by
  have hin := h.inStep
  obtain ⟨i, hlt, hi, hdue, hold⟩ := hin.oldestChannel hs
  obtain ⟨k, hk, hk8⟩ := hs.sizeClass
  have hk' : requestSizeIndex (toInt (sectorCount req * SECTOR_SIZE)) = some k := by
    rw [sectorCount_bytes hs, hk]
  obtain ⟨sim', totals', hacc, has⟩ := sim.submitRequest_accepted totals _ _ _ _
    ioRequestId hold (hin.completionTime hlt ▸ hdue) hk'
  have htime : sim'.completionTime i =
      time + d.responseTime (d.isSequentialRequest req) req.dataDir k := by
    rw [has.completionTime_self]
    exact (hin.assigned hs hk ioRequestId).completionTime
  refine ⟨i, k, sim', totals', hk, hk', hin.isSequentialRequest req, hi, hold, hacc,
    has.ioRequestId_self, fun hwrite ↦ ?_⟩
  obtain ⟨d', wake, hd⟩ := Emudisk.submit_accepted hk hi (hs.exact k hk) hwrite
  obtain ⟨i', _, -, hi', -, -, hch, -⟩ := Emudisk.submit_ok hd
  obtain rfl : i = i' := Option.some.inj (hi.symm.trans hi')
  refine ⟨d', wake, htime ▸ hd, ?_, ?_⟩
  · rw [hch.self]
    rfl
  · rw [Emudisk.completionTime, hch.self, htime]
    rfl

theorem sectorCount_sectorWrite (tag pos : ℕ) : sectorCount (sectorWrite tag pos) = 1 := by
  rw [sectorCount, Request.bytes, sectorWrite, List.map_singleton, List.sum_singleton,
    List.length_replicate]
  rfl

def twoChannels : MySSDSim := ⟨819200, 2, 1000, 0, 0, fun _ ↦ ⟨-1, 0, 0, 0⟩⟩

theorem twoChannels_write : ∃ r ∈ ((System.loaded 2 1000).disk.submit 1 (sectorWrite 0 5)).toOption,
    ∃ r' ∈ twoChannels.submitRequest ⟨0, 0, 0⟩ 1 1 5 1 124, r'.1 = 0 ∧
      r.1.nextResponseIndex 200000000 = some 0 ∧ r'.2.1.oldestChannel.2 = some 1 ∧
        (r.1.complete 0).pending.length < (r.1.complete 0).count ∧
        ¬ (r.1.complete 0).pastEnd (sectorWrite 1 6) ∧ ∀ k < 8, 200000000 +
          (r.1.complete 0).responseTime
            ((r.1.complete 0).isSequentialRequest (sectorWrite 1 6)) .write
            k ≤ LONG_MAX := by
  decide +kernel

theorem toOption_eq_some {ε α : Type} {x : Except ε α} {a : α}
    (h : a ∈ x.toOption) : x = .ok a := by
  cases x with
  | error e => cases h
  | ok a' => exact congrArg Except.ok (Option.some.inj h)

theorem lockstep_loaded : Lockstep (System.loaded 2 1000).disk twoChannels 0 :=
  .start (by decide) (by decide) System.exactRates_default rfl rfl fun _ _ ↦
    ⟨rfl, rfl, rfl, rfl, rfl⟩

theorem submission_write : Submission (System.loaded 2 1000).disk 0 1 (sectorWrite 0 5) where
  later := by decide
  pos := by decide
  whole := by decide +kernel
  small := by decide +kernel
  sectors := by decide +kernel
  room := by decide +kernel
  exact k hk := by
    have hall : ∀ k < 8, 1 + (System.loaded 2 1000).disk.responseTime
        ((System.loaded 2 1000).disk.isSequentialRequest (sectorWrite 0 5)) .write
          k ≤ LONG_MAX := by
      decide +kernel
    exact hall k (requestSizeIndex_lt hk)

/-- The second write, in whole sectors after the first one, goes to the other channel. -/
theorem timing_agrees_two : ∃ d sim sim' totals' d' wake, Lockstep d sim 200000000 ∧
    d.emptySlot = some 1 ∧ sim.isSequentialRequest 1 6 = d.isSequentialRequest (sectorWrite 1 6) ∧
      sim.submitRequest ⟨0, 0, 0⟩ 200000000 1 6 1 126 = some (0, sim', totals') ∧
        d.submit 200000000 (sectorWrite 1 6) = .ok (d', sim'.completionTime 1, wake) := by
  obtain ⟨⟨d₁, c, wake⟩, hd, ⟨ret, sim, totals⟩, hsim, hret, hnext, hold, hroom, hin, hexact⟩ :=
    twoChannels_write
  dsimp only at hret hnext hold hroom hin hexact
  subst hret
  have hfirst : twoChannels.submitRequest ⟨0, 0, 0⟩ 1 (sectorWrite 0 5).dataDir.code
      (sectorWrite 0 5).pos (sectorCount (sectorWrite 0 5)) 124 = some (0, sim, totals) := by
    rw [sectorCount_sectorWrite]
    exact hsim
  have hlock := (lockstep_loaded.submit submission_write (toOption_eq_some hd) hfirst).pass
    (show (1 : ℤ) ≤ 200000000 by decide) hnext
  have hs : Submission (d₁.complete 0) 200000000 200000000 (sectorWrite 1 6) :=
    ⟨le_rfl, by decide, by decide +kernel, by decide +kernel, by decide +kernel, hroom,
      fun k hk ↦ hexact k (requestSizeIndex_lt hk)⟩
  obtain ⟨i, k, sim', totals', -, -, hseq, hi, hold', hacc, -, hdriver⟩ :=
    timing_agrees hlock hs ⟨0, 0, 0⟩ 126
  obtain rfl : i = 1 := Option.some.inj ((congrArg Prod.snd hold').symm.trans hold)
  obtain ⟨d', wake', hok, -, -⟩ := hdriver fun _ ↦ hin
  rw [sectorCount_sectorWrite] at hacc
  exact ⟨_, sim, sim', totals', d', wake', hlock, hi, hseq, hacc, hok⟩

end Nctusde.Ramdisk

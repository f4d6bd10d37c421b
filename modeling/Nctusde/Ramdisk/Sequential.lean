import Nctusde.Ramdisk.System
import Nctusde.Ramdisk.Timing
import Nctusde.UdpServer.Sequential

namespace Nctusde.Ramdisk

open Accesses BlockLayer Library Library.Slots UdpServer Wire

def access (req : Request) : Access := ⟨req.dataDir, req.pos, req.pos + sectorCount req⟩

/-- A request inside the 819200 sectors that `set_capacity` tells the block layer of. -/
def Inside (req : Request) : Prop := req.pos + sectorCount req ≤ 819200

/-- The driver since it was loaded, with the requests it accepted and the channels they
were put on: any order of submissions, completions and searches for the next response. -/
inductive Served (n speed : ℤ) : List (ℕ × Access) → Emudisk → Prop
  | loaded {s : System} : System.IsStart n speed s → Served n speed [] s.disk
  | submit {log : List (ℕ × Access)} {d d' : Emudisk} {now c : ℤ} {req : Request} {wake : Bool}
      {i : ℕ} : Served n speed log d → Inside req → d.emptySlot = some i →
      d.submit now req = .ok (d', c, wake) → Served n speed (log ++ [(i, access req)]) d'
  | complete {log : List (ℕ × Access)} {d : Emudisk} (i : ℕ) : Served n speed log d →
      Served n speed log (d.complete i)
  | findNext {log : List (ℕ × Access)} {d : Emudisk} : Served n speed log d →
      Served n speed log d.findNext
  | softirqDone {log : List (ℕ × Access)} {d : Emudisk} : Served n speed log d →
      Served n speed log { d with requestInflight := d.requestInflight - 1 }

def Emudisk.records (d : Emudisk) (i : ℕ) : ℤ × ℤ :=
  ((d.channels i).requestRw, (d.channels i).requestLastSector)

variable {speed m : ℤ} {d : Emudisk} {req : Request}

theorem Emudisk.isSequentialRequest_iff : d.isSequentialRequest req = true ↔
    ∃ i < d.count, d.records i = ((access req).dir.code, (access req).first) := by
  rw [Emudisk.isSequentialRequest, List.any_eq_true]
  simp only [List.mem_range, decide_eq_true_eq, Emudisk.records, Prod.mk.injEq]
  exact Iff.rfl

structure Kept (log : List (ℕ × Access)) (d : Emudisk) : Prop where
  records : Mirrors d.records recorded log d.count
  channels : ∀ p ∈ log, p.1 < d.count

theorem Kept.congr {d' : Emudisk} (h : Kept log d) (hcount : d'.count = d.count)
    (hsame : ∀ i, d'.records i = d.records i) : Kept log d' := by
  refine ⟨?_, ?_⟩
  · rw [hcount]
    exact h.records.congr fun i _ ↦ hsame i
  · rw [hcount]
    exact h.channels

theorem Served.kept (h : Served m speed log d) : Kept log d := by
  induction h with
  | loaded h =>
    refine ⟨fun i hi ↦ ?_, fun p hp ↦ absurd hp List.not_mem_nil⟩
    rw [Emudisk.records, h.channels i hi]
    rfl
  | @submit log d d' now c req wake i _ hin hslot hok ih =>
    obtain ⟨j, k, -, hj, -, -, hch, -⟩ := Emudisk.submit_ok hok
    obtain rfl := Option.some.inj (hslot.symm.trans hj)
    have hlt := (Emudisk.emptySlot_spec hslot).lt
    have hlast : ((req.pos + sectorCount req : ℕ) : ℤ) % 2 ^ 32 = req.pos + sectorCount req := by
      have hin : req.pos + sectorCount req ≤ 819200 := hin
      omega
    refine ⟨?_, fun p hp ↦ ?_⟩
    · rw [hch.count]
      refine ih.records.assign ?_ fun j hj ↦ ?_
      · rw [Emudisk.records, hch.self]
        exact Prod.ext rfl hlast
      · rw [Emudisk.records, Emudisk.records, hch.other hj]
    · rw [hch.count]
      rcases List.mem_append.mp hp with hp | hp
      · exact ih.channels p hp
      · rw [List.mem_singleton.mp hp]
        exact hlt
  | @complete log d i _ ih =>
    refine ih.congr (Emudisk.changes_complete d i).count fun j ↦ ?_
    have hch := Emudisk.changes_complete d i
    by_cases hj : j = i
    · rw [Emudisk.records, hj, hch.self]
      rfl
    · rw [Emudisk.records, Emudisk.records, hch.other hj]
  | @findNext log d _ ih =>
    have hsame : d.findNext.count = d.count ∧ ∀ i, d.findNext.records i = d.records i := by
      unfold Emudisk.findNext
      split <;> exact ⟨rfl, fun _ ↦ rfl⟩
    exact ih.congr hsame.1 hsame.2
  | softirqDone _ ih => exact ih.congr rfl fun _ ↦ rfl

namespace System

variable {s : System} {now : ℤ}

def Charted (n speed : ℤ) (s : System) : Prop :=
  (∀ p ∈ s.submitted, Inside p.1) → ∃ log, Served n speed log s.disk ∧
    log.map Prod.snd = s.submitted.map fun p ↦ access p.1

theorem Charted.submit (h : Charted m speed s) {d' : Emudisk} {c : ℤ} {wake : Bool}
    (hok : s.disk.submit now req = .ok (d', c, wake)) (b : Bool) :
    Charted m speed
      { s with disk := d', queueStopped := b, submitted := s.submitted ++ [(req, c)] } := by
  intro hin
  obtain ⟨log, hserved, hlog⟩ := h fun p hp ↦ hin p (List.mem_append_left _ hp)
  obtain ⟨i, k, -, hslot, -⟩ := Emudisk.submit_ok hok
  have hreq := hin (req, c) (List.mem_append_right _ (List.mem_singleton_self _))
  refine ⟨_, hserved.submit hreq hslot hok, ?_⟩
  rw [List.map_append, hlog, List.map_append]
  rfl

theorem Charted.strategyLoop (h : Charted m speed s) (wake : Bool) {queue : List Request} :
    (s.strategyLoop wake queue).wp clock.contract (fun _ ↦ True)
      (fun r _ ↦ Charted m speed r.1) now := by
  induction queue generalizing s now wake with
  | nil => exact fun _ ↦ ⟨trivial, fun _ _ _ ↦ h⟩
  | cons req queue ih =>
    refine fun _ ↦ ⟨trivial, fun t now' _ ↦ ?_⟩
    dsimp only [Program.bind]
    split
    · trivial
    rw [Program.bind_eq, Program.wp_bind]
    generalize hsub : s.disk.submit t req = result
    rcases result with trap | ⟨d, c, w⟩
    · trivial
    dsimp only [record, Program.wp]
    split
    · exact h.submit hsub true
    · exact ih (h.submit hsub s.queueStopped) _

theorem Charted.strategy (h : Charted m speed s) {queue : List Request} :
    (s.strategy queue).wp clock.contract (fun _ ↦ True) (fun s' _ ↦ Charted m speed s') now := by
  rw [System.strategy, Program.bind_eq, Program.wp_bind]
  refine Program.wp_mono (fun r now' hr ↦ ?_) (h.strategyLoop false)
  dsimp only
  split <;> exact hr

theorem Charted.turn (h : Charted m speed s) {p : Prog System} (hp : Enters s p) :
    p.wp clock.contract (fun _ ↦ True) (fun s' _ ↦ Charted m speed s') now := by
  cases hp with
  | strategy hlock hrun hoff => exact h.strategy
  | softirqDone hlock hreq hoff =>
    have hdone : Charted m speed
        { s with disk := { s.disk with requestInflight := s.disk.requestInflight - 1 } } := by
      intro hin
      obtain ⟨log, hserved, hlog⟩ := h hin
      exact ⟨log, hserved.softirqDone, hlog⟩
    unfold softirqDone
    dsimp only
    split
    · exact Charted.strategy (by exact hdone)
    · exact hdone
  | start htask => exact h
  | woken htask => exact h
  | interrupted htask => exact h
  | timer htask => exact fun _ ↦ ⟨trivial, fun _ _ _ ↦ h⟩
  | expired htask =>
    refine fun _ ↦ ⟨trivial, fun t now' _ ↦ ?_⟩
    dsimp only [Program.bind]
    split
    · trivial
    · exact h
  | processing htask =>
    unfold processNext
    split
    · split
      · trivial
      split
      · trivial
      refine fun _ ↦ ⟨trivial, fun t now' _ hin ↦ ?_⟩
      obtain ⟨log, hserved, hlog⟩ := h hin
      exact ⟨log, hserved.complete _, hlog⟩
    · split
      · exact fun _ ↦ ⟨trivial, fun _ _ _ ↦ h⟩
      · intro hin
        obtain ⟨log, hserved, hlog⟩ := h hin
        exact ⟨log, hserved.findNext, hlog⟩

theorem reachable_charted (h : (turns m speed).Reachable clock s now) : Charted m speed s := by
  obtain ⟨-, -, hcharted⟩ := h.invariant (C := clock.contract) (E := fun _ ↦ True)
    (I := fun s _ ↦ Charted m speed s) (Program.keeps_contract clock)
    (fun _ _ _ (hd : False) ↦ hd.elim)
    (fun s v (h0 : IsStart m speed s ∧ v = 0) ↦ ⟨v, rfl, fun _ ↦ ⟨[], .loaded h0.1, by
      rw [h0.1.submitted]
      rfl⟩⟩)
    (fun s now p h hp ↦ Charted.turn h hp)
  exact hcharted

end System

theorem Served.charged {d' : Emudisk} {now c : ℤ} {wake : Bool} (h : Served m speed log d)
    (hok : d.submit now req = .ok (d', c, wake)) :
    (∃ k, requestSizeIndex (toInt req.bytes) = some k ∧
      c = now + d.responseTime (d.isSequentialRequest req) req.dataDir k) ∧
      ((d.isSequentialRequest req = true ↔ Follows log (access req)) ↔
        (LikeUnused d.count log (access req) → Follows log (access req))) := by
  obtain ⟨i, k, hk, -, hc, -⟩ := Emudisk.submit_ok hok
  have hkept := h.kept
  refine ⟨⟨k, hk, hc⟩, ?_⟩
  rw [right_iff (Emudisk.isSequentialRequest_iff.trans (test_iff hkept.records))]
  refine and_iff_left fun hfollows ↦ .inl ?_
  obtain ⟨j, b, hb, hdir, hlast⟩ := hfollows
  exact ⟨j, hkept.channels _ (mem_of_last hb), b, hb, hdir, hlast⟩

/-- The sequential rate is charged where it should be unless a read of sector 0 meets a channel
that was never used; the server, which keeps its records when it gets fewer channels, may also
overlook a request on a channel it no longer has. -/
theorem sequential_charged_iff (log : List (ℕ × Access)) :
    (∀ m speed d, Served m speed log d → ∀ now req d' c wake,
      d.submit now req = .ok (d', c, wake) →
      (∃ k, requestSizeIndex (toInt req.bytes) = some k ∧
        c = now + d.responseTime (d.isSequentialRequest req) req.dataDir k) ∧
      ((d.isSequentialRequest req = true ↔ Follows log (access req)) ↔
        (LikeUnused d.count log (access req) → Follows log (access req)))) ∧
    (∀ m speed s now, (System.turns m speed).Reachable System.clock s now →
      (∀ p ∈ s.submitted, Inside p.1) → ∃ served, Served m speed served s.disk ∧
        served.map Prod.snd = s.submitted.map fun p ↦ access p.1) ∧
    ∀ sim, MySSDSim.Served log sim → ∀ totals time dir sector count id sim' totals',
      sim.submitRequest totals time (DataDir.code dir) sector count id = some (0, sim', totals') →
      (∃ k, requestSizeIndex (toInt (count * SECTOR_SIZE)) = some k ∧
        sim'.completionTime (sim.oldestChannel.2.getD 0) = toLong (time +
          sim.serviceTime (sim.isSequentialRequest dir.code sector) dir.code k)) ∧
      ((sim.isSequentialRequest dir.code sector = true ↔
          Follows log ⟨dir, sector, sector + count⟩) ↔
        (LikeUnused sim.count log ⟨dir, sector, sector + count⟩ →
          Follows log ⟨dir, sector, sector + count⟩) ∧
        (Follows log ⟨dir, sector, sector + count⟩ →
          FollowsOn sim.count log ⟨dir, sector, sector + count⟩ ∨
            LikeUnused sim.count log ⟨dir, sector, sector + count⟩)) :=
  ⟨fun _ _ _ h _ _ _ _ _ hok ↦ h.charged hok,
    fun _ _ _ _ h ↦ System.reachable_charted h,
    fun _ h _ _ _ _ _ _ _ _ hok ↦ h.charged hok⟩

theorem not_follows_nil (a : Access) : ¬ Follows [] a := by
  rintro ⟨i, b, hb, -⟩
  cases hb

theorem twoChannels_writes :
    ∃ r ∈ ((System.loaded 2 1000).disk.submit 1 (sectorWrite 0 5)).toOption,
    (System.loaded 2 1000).disk.emptySlot = some 0 ∧
      (∃ r₁ ∈ (r.1.submit 2 (sectorWrite 1 6)).toOption, r₁.2.1 ≤ LONG_MAX) ∧
      ∃ r' ∈ twoChannels.submitRequest ⟨0, 0, 0⟩ 1 1 5 1 124, r'.1 = 0 ∧
        twoChannels.oldestChannel.2 = some 0 ∧ r'.2.1.count = 2 ∧
        ∃ r₁ ∈ r'.2.1.submitRequest ⟨0, 0, 0⟩ 2 1 6 1 126, r₁.1 = 0 := by
  decide +kernel

theorem twoChannels_setup : twoChannels.setup 819200 2 1000 = some twoChannels := by
  rw [MySSDSim.setup, if_neg (by decide), if_neg (by decide)]
  refine congrArg some (congrArg (MySSDSim.mk 819200 2 1000 0 0) (funext fun i ↦ ?_))
  split <;> rfl

/-- The second write is charged as sequential on both sides. -/
theorem sequential_charged_iff_two : ∃ d sim, Served 2 1000 [(0, ⟨.write, 5, 6⟩)] d ∧
    MySSDSim.Served [(0, ⟨.write, 5, 6⟩)] sim ∧ Follows [(0, ⟨.write, 5, 6⟩)] ⟨.write, 6, 7⟩ ∧
      d.isSequentialRequest (sectorWrite 1 6) = true ∧ sim.isSequentialRequest 1 6 = true := by
  obtain ⟨⟨d, c, wake⟩, hd, hslot, ⟨⟨d', c', wake'⟩, hd', -⟩, ⟨ret, sim, totals⟩, hsim, hret, hold,
    hcount, ⟨ret', sim', totals'⟩, hsim', hret'⟩ := twoChannels_writes
  dsimp only at hd' hret hcount hsim' hret'
  subst hret hret'
  have hw : access (sectorWrite 0 5) = ⟨.write, 5, 6⟩ := by
    rw [access, sectorCount_sectorWrite]
    rfl
  have hw' : access (sectorWrite 1 6) = ⟨.write, 6, 7⟩ := by
    rw [access, sectorCount_sectorWrite]
    rfl
  have hinside : Inside (sectorWrite 0 5) := by
    rw [Inside, sectorCount_sectorWrite]
    show 5 + 1 ≤ 819200
    decide
  have hserved : Served 2 1000 [(0, ⟨.write, 5, 6⟩)] d := by
    have h := (Served.loaded (System.loaded_isStart 2 1000)).submit
      hinside hslot (toOption_eq_some hd)
    rwa [hw] at h
  have hreset : MySSDSim.Served [] twoChannels := .reset (fun _ ↦ ⟨rfl, rfl⟩) twoChannels_setup
  have hserved' : MySSDSim.Served [(0, ⟨.write, 5, 6⟩)] sim := by
    have hok : twoChannels.submitRequest ⟨0, 0, 0⟩ 1 DataDir.write.code 5 1 124 =
        some (0, sim, totals) := hsim
    have h := hreset.submit hok
    rwa [hold] at h
  have hfollows : Follows [(0, ⟨.write, 5, 6⟩)] ⟨.write, 6, 7⟩ := ⟨0, _, rfl, rfl, rfl⟩
  obtain ⟨hdriver, -, hserver⟩ := sequential_charged_iff [(0, ⟨.write, 5, 6⟩)]
  have hcharged := (hdriver 2 1000 d hserved 2 (sectorWrite 1 6) d' c' wake'
    (toOption_eq_some hd')).2
  rw [hw'] at hcharged
  have hcharged' := (hserver sim hserved' ⟨0, 0, 0⟩ 2 .write 6 1 126 sim' totals' hsim').2
  have hon : FollowsOn sim.count [(0, ⟨.write, 5, 6⟩)] ⟨.write, 6, 7⟩ :=
    ⟨0, by omega, _, rfl, rfl, rfl⟩
  exact ⟨d, sim, hserved, hserved', hfollows, (hcharged.mpr fun _ ↦ hfollows).mpr hfollows,
    (hcharged'.mpr ⟨fun _ ↦ hfollows, fun _ ↦ .inl hon⟩).mpr hfollows⟩

def firstRead : Request := ⟨0, .fs, .read, 0, [List.replicate 512 0]⟩

def oneChannel : MySSDSim := ⟨819200, 1, 1000, 0, 0, fun _ ↦ ⟨-1, 0, 0, 0⟩⟩

theorem oneChannel_setup : oneChannel.setup 819200 1 1000 = some oneChannel := by
  rw [MySSDSim.setup, if_neg (by decide), if_neg (by decide)]
  refine congrArg some (congrArg (MySSDSim.mk 819200 1 1000 0 0) (funext fun i ↦ ?_))
  split <;> rfl

/-- The very first request of both sides, a read of sector 0, is charged as sequential. -/
theorem sequential_unused :
    (Served 1 1000 [] (System.loaded 1 1000).disk ∧ ¬ Follows [] (access firstRead) ∧
      (System.loaded 1 1000).disk.isSequentialRequest firstRead = true ∧
      ∃ d' wake, (System.loaded 1 1000).disk.submit 5 firstRead =
        .ok (d', 5 + (System.loaded 1 1000).disk.responseTime true .read 0, wake)) ∧
    MySSDSim.Served [] oneChannel ∧ oneChannel.isSequentialRequest 0 0 = true ∧
      ∃ sim' totals', oneChannel.submitRequest ⟨0, 0, 0⟩ 5 0 0 1 124 = some (0, sim', totals') ∧
        sim'.completionTime 0 = 5 + oneChannel.serviceTime true 0 0 ∧
        oneChannel.serviceTime true 0 0 ≠ oneChannel.serviceTime false 0 0 := by
  constructor
  · refine ⟨.loaded (System.loaded_isStart 1 1000), not_follows_nil _, rfl, ?_⟩
    exact Emudisk.submit_accepted (k := 0) (by decide +kernel) (show _ = some 0 from rfl)
      (by decide +kernel) fun hdir ↦ nomatch hdir
  · refine ⟨.reset (fun _ ↦ ⟨rfl, rfl⟩) oneChannel_setup, rfl, ?_⟩
    obtain ⟨sim', totals', hok, hassigns⟩ := oneChannel.submitRequest_accepted (i := 0) (k := 0)
      ⟨0, 0, 0⟩ 5 0 0 1 124 rfl (by decide) (by decide)
    refine ⟨sim', totals', hok, ?_, by decide⟩
    rw [hassigns.completionTime_self]
    decide

end Nctusde.Ramdisk

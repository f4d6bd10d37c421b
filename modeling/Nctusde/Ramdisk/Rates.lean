import Nctusde.Ramdisk.Completion
import Nctusde.UdpServer.InForce

namespace Nctusde.Ramdisk

open BlockLayer UdpServer Wire

def baseRate (sequential : Bool) (dir : DataDir) (k : ℕ) : ℤ :=
  (if sequential then responseTimeTableSeq dir.code.toNat k
    else responseTimeTableRandom dir.code.toNat k) / 1000

theorem baseRate_bounds : ∀ sequential : Bool, ∀ dir : DataDir, ∀ k < 8,
    0 ≤ baseRate sequential dir k ∧ baseRate sequential dir k ≤ baseRate false .write 7 := by
  have h : ∀ sequential : Bool, ∀ row < 2, ∀ k < 8,
      0 ≤
        (if sequential then responseTimeTableSeq row k else responseTimeTableRandom row k) / 1000 ∧
      (if sequential then responseTimeTableSeq row k else responseTimeTableRandom row k) / 1000 ≤
        270270 := by decide
  intro sequential dir k hk
  cases dir with
  | read => exact h sequential 0 (by decide) k hk
  | write => exact h sequential 1 (by decide) k hk

theorem baseRate_slowest : baseRate false .write 7 = 270270 := by decide

/-- The largest factor that keeps the slowest access within 31 bits. -/
def MAX_SPEED_FACTOR : ℤ := 7945

variable {d d' : Emudisk} {sim : MySSDSim}

theorem Emudisk.responseTime_baseRate (d : Emudisk) (sequential : Bool) (dir : DataDir) (k : ℕ) :
    d.responseTime sequential dir k = toInt (baseRate sequential dir k * d.speedFactor) := rfl

theorem serviceTime_baseRate (sim : MySSDSim) (sequential : Bool) (dir : DataDir) (k : ℕ) :
    sim.serviceTime sequential dir.code k = baseRate sequential dir k * sim.speedFactor := by
  cases dir <;> rfl

theorem toInt_lt (x : ℤ) : toInt x < 2 ^ 31 := by
  have := Int.bmod_lt (x := x) (show 0 < 2 ^ 32 by decide)
  simp only [toInt]
  omega

/-- The driver and the server charge the same times, and none is negative. -/
def SameRates (d : Emudisk) (sim : MySSDSim) : Prop :=
  ∀ (sequential : Bool) (dir : DataDir), ∀ k < 8,
    d.responseTime sequential dir k = sim.serviceTime sequential dir.code k ∧
      0 ≤ d.responseTime sequential dir k

/-- The driver never completes a request before it was submitted. -/
def NeverBack (d : Emudisk) : Prop :=
  ∀ time req d' c wake, d.submit time req = .ok (d', c, wake) → time ≤ c

theorem SameRates.neverBack (h : SameRates d sim) : NeverBack d := by
  intro time req d' c wake hd
  obtain ⟨_, k, hk, -, hc, -⟩ := Emudisk.submit_ok hd
  have := (h (d.isSequentialRequest req) req.dataDir k (requestSizeIndex_lt hk)).2
  omega

/-- A factor in the range survives both the 32-bit product and the conversion to
an unsigned word. -/
theorem sameRates_of_range (hs : sim.speedFactor = (toU32 d.speedFactor).toNat)
    (h0 : 0 ≤ d.speedFactor) (h : d.speedFactor ≤ MAX_SPEED_FACTOR) : SameRates d sim := by
  intro sequential dir k hk
  rw [MAX_SPEED_FACTOR] at h
  have hspeed : sim.speedFactor = d.speedFactor := by
    have := toNat_toU32 d.speedFactor
    omega
  obtain ⟨hr, hr'⟩ := baseRate_bounds sequential dir k hk
  rw [baseRate_slowest] at hr'
  have hnonneg := mul_nonneg hr h0
  have hle : baseRate sequential dir k * d.speedFactor ≤ 270270 * 7945 :=
    mul_le_mul hr' h h0 (by decide)
  rw [d.responseTime_baseRate, serviceTime_baseRate, hspeed, toInt_of_fits (by omega) (by omega)]
  exact ⟨rfl, hnonneg⟩

/-- Outside the range it is the slowest access on which the two sides differ. -/
theorem range_of_sameRates (hs : sim.speedFactor = (toU32 d.speedFactor).toNat)
    (hmin : -2 ^ 31 ≤ d.speedFactor) (hmax : d.speedFactor < 2 ^ 31) (h : SameRates d sim) :
    0 ≤ d.speedFactor ∧ d.speedFactor ≤ MAX_SPEED_FACTOR := by
  obtain ⟨heq, -⟩ := h false .write 7 (by decide)
  rw [d.responseTime_baseRate, serviceTime_baseRate, baseRate_slowest] at heq
  have hlt := toInt_lt (270270 * d.speedFactor)
  have hu := toNat_toU32 d.speedFactor
  rw [MAX_SPEED_FACTOR]
  omega

/-- With the factor a driver was loaded with sent to the server in an admissible
reset, the two charge the same times, all of them non-negative, exactly when the
factor lies between 0 and `MAX_SPEED_FACTOR`. -/
theorem service_times_agree_iff {s s' : Server} {bytes : Bytes} {sent : Option Bytes}
    (hmin : -2 ^ 31 ≤ d.speedFactor) (hmax : d.speedFactor < 2 ^ 31) (hr : Readable bytes)
    (hreset : IsReset bytes) (ha : Admissible (requestOf bytes))
    (h3 : (requestOf bytes).data3 = toU32 d.speedFactor) (h : s.receive bytes = .loop s' sent) :
    SameRates d s'.mySSDSim ∧ NeverBack d ↔
      0 ≤ d.speedFactor ∧ d.speedFactor ≤ MAX_SPEED_FACTOR := by
  obtain ⟨_, hs, -, hin⟩ := Server.receive_reset_admissible (s := s) hr hreset ha
  rw [h, Outcome.loop.injEq] at hs
  obtain ⟨rfl, -⟩ := hs
  have hspeed := hin.speedFactor
  rw [h3] at hspeed
  constructor
  · exact fun hsame ↦ range_of_sameRates hspeed hmin hmax hsame.1
  · intro hrange
    have hsame := sameRates_of_range hspeed hrange.1 hrange.2
    exact ⟨hsame, hsame.neverBack⟩

def speedReset (speed : ℤ) : NctussEmuRequest := { oneChannelReset with data3 := toU32 speed }

theorem requestOf_speedReset (speed : ℤ) :
    requestOf ((speedReset speed).encode ++ []) = speedReset speed := requestOf_encode _ []

theorem isReset_speedReset (speed : ℤ) : IsReset ((speedReset speed).encode ++ []) := by
  rw [IsReset, requestOf_speedReset]
  rfl

theorem admissible_speedReset (speed : ℤ) :
    Admissible (requestOf ((speedReset speed).encode ++ [])) := by
  have h : Admissible oneChannelReset := by decide
  rw [requestOf_speedReset]
  exact ⟨h.channels, h.size⟩

theorem service_times_agree_iff_default : ∃ s',
    Server.zeroed.receive ((speedReset 1000).encode ++ []) = .loop s' (some s'.datagram) ∧
      SameRates (System.loaded 1 1000).disk s'.mySSDSim ∧
      NeverBack (System.loaded 1 1000).disk := by
  have hr := readable_encode (speedReset 1000) []
  have hreset := isReset_speedReset 1000
  have ha := admissible_speedReset 1000
  obtain ⟨s', hs, -⟩ := Server.receive_reset_admissible (s := Server.zeroed) hr hreset ha
  refine ⟨s', hs, (@service_times_agree_iff (System.loaded 1 1000).disk Server.zeroed s' _ _
    (by decide) (by decide) hr hreset ha ?_ hs).mpr (by decide)⟩
  rw [requestOf_speedReset]
  rfl

/-- With the factor 7946 the slowest write completes before it was submitted; with
the factor -1 the server charges more than 2 ^ 32 times as much. -/
theorem service_times_differ :
    (System.loaded 1 7946).disk.responseTime false .write 7 < 0 ∧
      ∀ speed : ℤ, speed = 7946 ∨ speed = -1 → ∃ s',
        Server.zeroed.receive ((speedReset speed).encode ++ []) = .loop s' (some s'.datagram) ∧
          ¬ SameRates (System.loaded 1 speed).disk s'.mySSDSim := by
  refine ⟨by decide, fun speed hspeed ↦ ?_⟩
  obtain ⟨s', hs, -, hin⟩ := Server.receive_reset_admissible (s := Server.zeroed)
    (readable_encode (speedReset speed) []) (isReset_speedReset speed) (admissible_speedReset speed)
  have hfactor := hin.speedFactor
  rw [requestOf_speedReset] at hfactor
  refine ⟨s', hs, fun h ↦ ?_⟩
  have hrange := @range_of_sameRates (System.loaded 1 speed).disk s'.mySSDSim hfactor
  have hd : (System.loaded 1 speed).disk.speedFactor = speed := rfl
  rw [hd, MAX_SPEED_FACTOR] at hrange
  have := hrange (by omega) (by omega) h
  omega

end Nctusde.Ramdisk

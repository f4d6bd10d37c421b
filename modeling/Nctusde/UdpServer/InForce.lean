import Nctusde.UdpServer.Requests

namespace Nctusde.UdpServer

open Wire

/-- The values `setup` takes over; it ignores others or never returns from them. -/
structure Admissible (r : NctussEmuRequest) : Prop where
  channels : r.data2.toNat ≤ MAX_EMULATOR_CHANNELS
  size : (r.data1.toNat : ℤ) ≤ MEMORY_STORAGE_SIZE

instance (r : NctussEmuRequest) : Decidable (Admissible r) :=
  decidable_of_iff (_ ∧ _) ⟨fun h ↦ ⟨h.1, h.2⟩, fun h ↦ ⟨h.channels, h.size⟩⟩

/-- The simulator is the one the reset asked for, and idle. -/
structure InForce (r : NctussEmuRequest) (sim : MySSDSim) : Prop where
  size : sim.size = r.data1.toNat
  channels : sim.channels = r.data2.toNat
  speedFactor : sim.speedFactor = r.data3.toNat
  currentTime : sim.currentTime = 0
  mostFrontierSimulationTime : sim.mostFrontierSimulationTime = 0
  idle : ∀ i < sim.count, sim.ioRequestId i = -1 ∧ sim.completionTime i = 0

/-- The acknowledgement of a reset can be relied on: an ok says that its values are
in force, and values that cannot be are answered with an error and change nothing. -/
def Acknowledges (s : Server) (bytes : Bytes) : Prop :=
  (∀ s' b, s.receive bytes = .loop s' (some b) →
    (NctussEmuReply.decode b).type = NctussEmuReplyType.ok.code →
    InForce (requestOf bytes) s'.mySSDSim) ∧
  (¬ Admissible (requestOf bytes) → ∃ s' b, s.receive bytes = .loop s' (some b) ∧
    (NctussEmuReply.decode b).type = NctussEmuReplyType.error.code ∧
    s'.mySSDSim = s.mySSDSim ∧ s'.totals = s.totals)

namespace MySSDSim

variable {s sim : MySSDSim}

theorem setup_inForce {r : NctussEmuRequest} (h : Admissible r)
    (hs : s.setup r.data1.toNat r.data2.toNat r.data3.toNat = some sim) : InForce r sim := by
  rw [setup, if_neg (by have := h.channels; omega), if_neg (not_lt.mpr h.size)] at hs
  obtain rfl := Option.some.inj hs
  refine ⟨rfl, rfl, rfl, rfl, rfl, fun i hi ↦ ?_⟩
  have hlt : i < (r.data2.toNat : ℤ).toNat := hi
  simp only [MySSDSim.ioRequestId, MySSDSim.completionTime, if_pos hlt, and_self]

theorem setup_tooManyChannels {size channels speedFactor : ℤ}
    (h : MAX_EMULATOR_CHANNELS < channels) : s.setup size channels speedFactor = some s := by
  rw [setup, if_pos h]

theorem setup_tooLarge {size channels speedFactor : ℤ} (hc : channels ≤ MAX_EMULATOR_CHANNELS)
    (h : MEMORY_STORAGE_SIZE < size) : s.setup size channels speedFactor = none := by
  rw [setup, if_neg (not_lt.mpr hc), if_pos h]

theorem setup_isSome {r : NctussEmuRequest} (h : Admissible r) :
    ∃ sim, s.setup r.data1.toNat r.data2.toNat r.data3.toNat = some sim := by
  rw [setup, if_neg (by have := h.channels; omega), if_neg (not_lt.mpr h.size)]
  exact ⟨_, rfl⟩

end MySSDSim

namespace Server

variable {s : Server} {bytes : Bytes} {sim : MySSDSim}

theorem receive_reset_ok (hr : Readable bytes) (h : IsReset bytes)
    (hs : s.mySSDSim.setup (requestOf bytes).data1.toNat (requestOf bytes).data2.toNat
      (requestOf bytes).data3.toNat = some sim) :
    ∃ s', s.receive bytes = .loop s' (some s'.datagram) ∧
      Served s' (requestOf bytes) .ok sim 0 s.memoryStorage ∧
      (NctussEmuReply.decode s'.datagram).type = NctussEmuReplyType.ok.code := by
  rw [receive_reset hr h, hs]
  dsimp only
  rw [dispatch_reset _ h]
  obtain ⟨s', hans, hserved, -⟩ := answer_served (r := requestOf bytes) .ok sim 0 s.memoryStorage
    (s := { s with mySSDSim := sim, totals := ⟨0, 0, 0⟩, currentMaxRequestId := 0 }.replyWith .ok
      (requestOf bytes).id) rfl rfl rfl rfl rfl
  refine ⟨s', hans, hserved, ?_⟩
  rw [hserved.answers.datagram, NctussEmuReply.decode_encode_type]
  exact hserved.type

theorem receive_reset_hang (hr : Readable bytes) (h : IsReset bytes)
    (hs : s.mySSDSim.setup (requestOf bytes).data1.toNat (requestOf bytes).data2.toNat
      (requestOf bytes).data3.toNat = none) : s.receive bytes = .hang .memorySize := by
  rw [receive_reset hr h, hs]

/-- Values that cannot be put into force are never answered with an error. -/
theorem receive_reset_inadmissible (hr : Readable bytes) (h : IsReset bytes)
    (ha : ¬ Admissible (requestOf bytes)) : ¬ Acknowledges s bytes := by
  rintro ⟨-, herror⟩
  obtain ⟨s', b, hs, htype, -⟩ := herror ha
  rcases hsetup : s.mySSDSim.setup (requestOf bytes).data1.toNat (requestOf bytes).data2.toNat
    (requestOf bytes).data3.toNat with _ | sim
  · rw [receive_reset_hang hr h hsetup] at hs
    cases hs
  · obtain ⟨_, hs', -, hok⟩ := receive_reset_ok hr h hsetup
    rw [hs', Outcome.loop.injEq, Option.some.injEq] at hs
    obtain ⟨rfl, rfl⟩ := hs
    rw [hok] at htype
    exact absurd htype (by decide)

theorem receive_reset_admissible (hr : Readable bytes) (h : IsReset bytes)
    (ha : Admissible (requestOf bytes)) : ∃ s', s.receive bytes = .loop s' (some s'.datagram) ∧
      (NctussEmuReply.decode s'.datagram).type = NctussEmuReplyType.ok.code ∧
      InForce (requestOf bytes) s'.mySSDSim := by
  obtain ⟨sim, hsetup⟩ := s.mySSDSim.setup_isSome ha
  obtain ⟨s', hs, hserved, hok⟩ := receive_reset_ok hr h hsetup
  exact ⟨s', hs, hok, hserved.mySSDSim ▸ MySSDSim.setup_inForce ha hsetup⟩

/-- Exactly the resets `setup` takes over are acknowledged as they should be. -/
theorem acknowledges_iff (hr : Readable bytes) (h : IsReset bytes) :
    Acknowledges s bytes ↔ Admissible (requestOf bytes) := by
  constructor
  · intro hh
    by_contra ha
    exact receive_reset_inadmissible hr h ha hh
  · intro ha
    refine ⟨fun s' b hs _ ↦ ?_, fun hn ↦ absurd ha hn⟩
    obtain ⟨_, hs', -, hin⟩ := receive_reset_admissible (s := s) hr h ha
    rw [hs', Outcome.loop.injEq] at hs
    exact hs.1 ▸ hin

end Server

end Nctusde.UdpServer

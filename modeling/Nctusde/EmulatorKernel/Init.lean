import Nctusde.EmulatorKernel.Main
import Nctusde.Network.Main
import Nctusde.UdpServer.InForce

namespace Nctusde.EmulatorKernel

open Library Network UdpServer Wire

/-- The driver when `emudisk_init` gets to the reset; `memory` is what the region
for the request data happens to hold. -/
def Emudisk.initial (diskChannels speedFactor : ℤ) (memory : ℕ → ℕ → UInt8) : Emudisk where
  size := 819200
  diskChannels := diskChannels
  speedFactor := speedFactor
  requestInflight := 0
  nextResponseToReplyTime := 0
  nextResponseToReplyNum := 0
  nextResponseToReplyIds _ := 0
  latestResponseTime := 0
  udpSendReplyId := 123
  requestIdToReqMapping i := ⟨0, none, 0, memory i⟩

/-- `emudisk_init`; `none` when it rejects the number of channels. -/
def emudiskInit (diskChannels speedFactor : ℤ) (memory : ℕ → ℕ → UInt8) : Option (Prog Emudisk) :=
  if diskChannels > MAX_DISK_REQUESTS_IN_PARALLEL then none
  else some (Emudisk.initial diskChannels speedFactor memory).emulatorReset

def delivered : Handler Server Op Ans where
  admits _ _ := True
  answers
    | s, .communicate request data, (reply : Bytes), s' =>
      s.receive (datagramOf request data) = .loop s' (some reply)
    | s, .ktimeGet, _, s' => s' = s
    | s, .hrtimerExpired _, _, s' => s' = s

variable {s s' : Server} {d : Emudisk}

theorem readable_reset (d : Emudisk) : Readable (datagramOf d.resetRequest []) :=
  readable_encode _ []

theorem requestOf_reset (d : Emudisk) : requestOf (datagramOf d.resetRequest []) =
    { d.resetRequest with idCheck := d.udpSendReplyId } := requestOf_encode _ []

theorem isReset_reset (d : Emudisk) : IsReset (datagramOf d.resetRequest []) := by
  rw [IsReset, requestOf_reset]
  rfl

theorem receive_resetRequest (s : Server) (hsize : d.size = 819200) :
    ∃ s', s.receive (datagramOf d.resetRequest []) = .loop s' (some s'.datagram) ∧
      s'.mySSDSim.channels = if (toU32 d.diskChannels).toNat ≤ MAX_EMULATOR_CHANNELS
        then ((toU32 d.diskChannels).toNat : ℤ) else s.mySSDSim.channels := by
  have h2 : (requestOf (datagramOf d.resetRequest [])).data2 = toU32 d.diskChannels := by
    rw [requestOf_reset]
    rfl
  have h1 : (requestOf (datagramOf d.resetRequest [])).data1 = toU32 819200 := by
    rw [requestOf_reset, ← hsize]
    rfl
  by_cases hc : (toU32 d.diskChannels).toNat ≤ MAX_EMULATOR_CHANNELS
  · have ha : Admissible (requestOf (datagramOf d.resetRequest [])) := by
      refine ⟨by rw [h2]; exact hc, ?_⟩
      rw [h1]
      decide
    obtain ⟨s', hs, -, hin⟩ := Server.receive_reset_admissible (s := s) (readable_reset d)
      (isReset_reset d) ha
    refine ⟨s', hs, ?_⟩
    rw [if_pos hc, hin.channels, h2]
  · obtain ⟨s', hs, hserved, -⟩ := Server.receive_reset_ok (s := s) (readable_reset d)
      (isReset_reset d) (MySSDSim.setup_tooManyChannels (by rw [h2]; omega))
    refine ⟨s', hs, ?_⟩
    rw [if_neg hc, hserved.mySSDSim]

/-- A channel count that `emudisk_init` does not reject is sent as 32 bits, which
a negative one does not survive. -/
theorem channels_after_init {n : ℤ} (h : -2 ^ 31 ≤ n) (hn : n ≤ MAX_DISK_REQUESTS_IN_PARALLEL)
    (channels : ℤ) :
    (if (toU32 n).toNat ≤ MAX_EMULATOR_CHANNELS then ((toU32 n).toNat : ℤ) else channels) = n ↔
      0 ≤ n ∨ channels = n := by
  have hto := toNat_toU32 n
  rw [MAX_DISK_REQUESTS_IN_PARALLEL] at hn
  rw [MAX_EMULATOR_CHANNELS]
  by_cases h0 : 0 ≤ n
  · rw [if_pos (by omega)]
    exact iff_of_true (by omega) (.inl h0)
  · rw [if_neg (by omega)]
    exact ⟨.inr, fun hor ↦ hor.resolve_left h0⟩

theorem emudiskInit_runs {diskChannels speedFactor : ℤ} {memory : ℕ → ℕ → UInt8} {p : Prog Emudisk}
    (h : -2 ^ 31 ≤ diskChannels) (hp : emudiskInit diskChannels speedFactor memory = some p) :
    ∃ s', (∀ r s'', p.Runs delivered s r s'' ↔
        r = .ok (Emudisk.initial diskChannels speedFactor memory).numbered ∧ s'' = s') ∧
      (s'.mySSDSim.channels = diskChannels ↔
        0 ≤ diskChannels ∨ s.mySSDSim.channels = diskChannels) := by
  unfold emudiskInit at hp
  split at hp
  · cases hp
  rename_i hn
  obtain rfl := Option.some.inj hp
  obtain ⟨s', hs, hchannels⟩ :=
    @receive_resetRequest (Emudisk.initial diskChannels speedFactor memory) s rfl
  refine ⟨s', fun r s'' ↦ ?_, ?_⟩
  · constructor
    · rintro ⟨-, reply, t, ht, hrun⟩
      have ht : s.receive _ = .loop t (some reply) := ht
      rw [hs, Outcome.loop.injEq] at ht
      obtain ⟨rfl, -⟩ := ht
      exact hrun
    · rintro ⟨rfl, rfl⟩
      exact ⟨trivial, _, _, hs, rfl, rfl⟩
  · rw [hchannels]
    exact channels_after_init h (not_lt.mp hn) _

/-- Exactly the resets with an admissible size and channel count are acknowledged
as they should be, and exactly the non-negative channel counts reach the server
(or the one it happens to have). -/
theorem acknowledged_reset_in_force_iff (s : Server) :
    (∀ bytes, Readable bytes → IsReset bytes →
      (Acknowledges s bytes ↔ Admissible (requestOf bytes))) ∧
    ∀ (diskChannels speedFactor : ℤ) (memory : ℕ → ℕ → UInt8) (p : Prog Emudisk),
      -2 ^ 31 ≤ diskChannels → emudiskInit diskChannels speedFactor memory = some p →
      (∃ d s', p.Runs delivered s (.ok d) s') ∧
      ∀ d s', p.Runs delivered s (.ok d) s' → (s'.mySSDSim.channels = diskChannels ↔
        0 ≤ diskChannels ∨ s.mySSDSim.channels = diskChannels) := by
  refine ⟨fun bytes hr h ↦ Server.acknowledges_iff hr h, fun n speed memory p h hp ↦ ?_⟩
  obtain ⟨s', hruns, hchannels⟩ := emudiskInit_runs (s := s) h hp
  refine ⟨⟨_, s', (hruns _ s').mpr ⟨rfl, rfl⟩⟩, fun d s'' hrun ↦ ?_⟩
  rw [((hruns _ s'').mp hrun).2]
  exact hchannels

theorem acknowledged_reset_in_force_iff_one :
    Acknowledges Server.zeroed (datagramOf oneChannelReset []) ∧
      ∃ p, emudiskInit 1 1000 (fun _ _ ↦ 0) = some p ∧
        ∃ d s', p.Runs delivered Server.zeroed (.ok d) s' ∧ s'.mySSDSim.channels = 1 := by
  obtain ⟨hack, hinit⟩ := acknowledged_reset_in_force_iff Server.zeroed
  have hreq : requestOf (datagramOf oneChannelReset []) = oneChannelReset := requestOf_encode _ []
  have hread : Readable (datagramOf oneChannelReset []) := readable_encode _ []
  have hreset : IsReset (datagramOf oneChannelReset []) := by
    rw [IsReset, hreq]
    rfl
  refine ⟨(hack _ hread hreset).mpr ?_, _, rfl, ?_⟩
  · rw [hreq]
    decide
  · obtain ⟨⟨d, s', hrun⟩, hchannels⟩ := hinit 1 1000 (fun _ _ ↦ 0) _ (by decide) rfl
    exact ⟨d, s', hrun, (hchannels d s' hrun).mpr (.inl (by decide))⟩

/-- A reset for 33 channels is answered with ok and ignored, one of more than 400
Mi sectors is never answered, and a driver loaded with -1 channels runs against a
server that has none. -/
theorem acknowledged_reset_not_in_force :
    ¬ Acknowledges Server.zeroed (datagramOf { oneChannelReset with data2 := 33 } []) ∧
      ¬ Acknowledges Server.zeroed (datagramOf { oneChannelReset with data1 := 419430401 } []) ∧
      ∃ p, emudiskInit (-1) 1000 (fun _ _ ↦ 0) = some p ∧
        ∃ d s', p.Runs delivered Server.zeroed (.ok d) s' ∧ s'.mySSDSim.channels ≠ -1 := by
  refine ⟨?_, ?_, _, rfl, ?_⟩
  · refine Server.receive_reset_inadmissible (readable_encode _ []) ?_ ?_
    · rw [IsReset, datagramOf, requestOf_encode]
      rfl
    · rw [datagramOf, requestOf_encode]
      decide
  · refine Server.receive_reset_inadmissible (readable_encode _ []) ?_ ?_
    · rw [IsReset, datagramOf, requestOf_encode]
      rfl
    · rw [datagramOf, requestOf_encode]
      decide
  · obtain ⟨s', hruns, hchannels⟩ :=
      @emudiskInit_runs Server.zeroed (-1) 1000 (fun _ _ ↦ 0) _ (by decide) rfl
    refine ⟨_, s', (hruns _ s').mpr ⟨rfl, rfl⟩, fun h ↦ ?_⟩
    rcases hchannels.mp h with h | h
    · omega
    · exact absurd h (by decide)

end Nctusde.EmulatorKernel

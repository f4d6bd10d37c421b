import Nctusde.UdpServer.Schedule
import Nctusde.UdpServer.SizeClass

namespace Nctusde.UdpServer

open Library.Occupancy Wire

/-- A submission of at most 128 sectors, under an id that the server has not seen yet. -/
structure NewSubmission (s : Server) (bytes : Bytes) : Prop where
  readable : Readable bytes
  type : (requestOf bytes).type = NctussEmuRequestType.submitReqeust.code
  id : s.currentMaxRequestId < (requestOf bytes).id.toNat
  idCheck : (requestOf bytes).idCheck = (requestOf bytes).id
  sectors : (requestOf bytes).data5.toNat ≤ 128

instance (s : Server) (bytes : Bytes) : Decidable (NewSubmission s bytes) :=
  decidable_of_iff (_ ∧ _ ∧ _ ∧ _ ∧ _) ⟨fun h ↦ ⟨h.1, h.2.1, h.2.2.1, h.2.2.2.1, h.2.2.2.2⟩,
    fun h ↦ ⟨h.readable, h.type, h.id, h.idCheck, h.sectors⟩⟩

theorem NewSubmission.not_reset {s : Server} {bytes : Bytes} (h : NewSubmission s bytes) :
    ¬ IsReset bytes := by
  rw [IsReset, h.type]
  decide

section

variable {s s' : MySSDSim} {log : List Granted} {totals totals' : Totals} {i : ℕ}
  {time rw sector count ioRequestId ret : ℤ}

/-- Each channel carries the completion time of the last request it was given. -/
structure Booked (s : MySSDSim) (log : List Granted) : Prop where
  occupied : Occupied s log
  last : ∀ i < s.count, s.completionTime i = 0 ∨
    ∃ a ∈ log, a.channel = i ∧ a.completionTime = s.completionTime i
  positive : ∀ a ∈ log, 0 < a.completionTime

theorem Booked.idle_iff (h : Booked s log) (hi : i < s.count) (ht : 0 < time) :
    s.completionTime i < time ↔ Idle (log.map Granted.job) i time := by
  constructor
  · intro hlt j hj hmachine
    obtain ⟨a, ha, rfl⟩ := List.mem_map.mp hj
    have hle := (h.occupied.channel a ha).2
    rw [show a.channel = i from hmachine] at hle
    exact hle.trans_lt hlt
  · intro hidle
    rcases h.last i hi with hzero | ⟨a, ha, hchannel, htime⟩
    · rw [hzero]
      exact ht
    · rw [← htime]
      exact hidle _ (List.mem_map_of_mem ha) hchannel

theorem Booked.idleLonger (h : Booked s log) {i' : ℕ} (hi' : i' < s.count)
    (hle : s.completionTime i ≤ s.completionTime i') : IdleLonger (log.map Granted.job) i i' := by
  intro j hj hmachine
  obtain ⟨a, ha, rfl⟩ := List.mem_map.mp hj
  have hlast := (h.occupied.channel a ha).2
  rw [show a.channel = i from hmachine] at hlast
  have hpos : 0 < s.completionTime i' := (h.positive a ha).trans_le (hlast.trans hle)
  rcases h.last i' hi' with hzero | ⟨b, hb, hchannel, htime⟩
  · exact absurd hzero hpos.ne'
  · exact ⟨b.job, List.mem_map_of_mem hb, hchannel, (hlast.trans hle).trans htime.ge⟩

theorem Booked.submit (h : Booked s log) (hocc : Occupied s'
    (log ++ s.accepted time rw sector count ioRequestId)) (ht : time ≤ LONG_MAX)
    (hsubmit : s.submitRequest totals time rw sector count ioRequestId = some (ret, s', totals'))
    (htime : ∀ a ∈ s.accepted time rw sector count ioRequestId, a.time < 2 ^ 62) :
    Booked s' (log ++ s.accepted time rw sector count ioRequestId) := by
  rcases submitRequest_cases ht hsubmit with ⟨rfl, -, hnone⟩ |
    ⟨i, k, hi, hlt, hk, hassigns, -, -, hone⟩
  · rw [hnone, List.append_nil]
    exact h
  rw [hone] at hocc htime ⊢
  have hpos := (h.occupied.nonneg i hi).trans_lt hlt
  have hle : time ≤ (s.assigned time rw sector count ioRequestId k).completionTime :=
    assigned_completionTime h.occupied.speedFactor hk hpos.le (htime _ (List.mem_singleton_self _))
  refine ⟨hocc, fun j hj ↦ ?_, fun a ha ↦ ?_⟩
  · rw [hassigns.count] at hj
    by_cases hji : j = i
    · subst hji
      rw [hassigns.completionTime_self]
      exact .inr ⟨_, List.mem_append_right _ (List.mem_singleton_self _), rfl, rfl⟩
    · rw [hassigns.completionTime_other hji]
      refine (h.last j hj).imp_right fun ⟨a, ha, hlast⟩ ↦ ?_
      exact ⟨a, List.mem_append_left _ ha, hlast⟩
  · rcases List.mem_append.mp ha with ha | ha
    · exact h.positive a ha
    · rw [List.mem_singleton.mp ha]
      exact hpos.trans_le hle

theorem submitRequest_ret
    (h : s.submitRequest totals time rw sector count ioRequestId = some (ret, s', totals')) :
    ret < 0 ↔ s.oldestChannel.1 ≥ time := by
  by_cases hfull : s.oldestChannel.1 ≥ time
  · rw [MySSDSim.submitRequest_refused s hfull, Option.some.injEq, Prod.mk.injEq] at h
    exact iff_of_true (h.1 ▸ by decide) hfull
  · refine iff_of_false ?_ hfull
    cases hk : requestSizeIndex (toInt (count * SECTOR_SIZE)) with
    | none =>
      simp only [MySSDSim.submitRequest, if_neg hfull, hk] at h
      cases h
    | some k =>
      simp only [MySSDSim.submitRequest, if_neg hfull, hk, Option.some.injEq, Prod.mk.injEq] at h
      exact h.1 ▸ lt_irrefl 0

/-- A request is refused if all channels are taken; else it gets the one that is free for
longest. -/
theorem Booked.admits (h : Booked s log) (ht : time ≤ LONG_MAX) (hpos : 0 < time)
    (hsubmit : s.submitRequest totals time rw sector count ioRequestId = some (ret, s', totals')) :
    (ret < 0 ↔ ∀ i < s.count, ¬ Idle (log.map Granted.job) i time) ∧
      (¬ ret < 0 → ∃ a, s.accepted time rw sector count ioRequestId = [a] ∧ a.channel < s.count ∧
        Idle (log.map Granted.job) a.channel time ∧
          ∀ i < s.count, IdleLonger (log.map Granted.job) a.channel i) := by
  have hret := submitRequest_ret hsubmit
  constructor
  · rw [hret, s.oldestChannel_ge_iff ht]
    refine forall₂_congr fun i hi ↦ ?_
    rw [← h.idle_iff hi hpos, not_lt]
  · intro hok
    have hfree := mt hret.mpr hok
    obtain ⟨i, hi, hmin, hlt⟩ := s.oldestChannel_spec ht hfree
    cases hk : requestSizeIndex (toInt (count * SECTOR_SIZE)) with
    | none =>
      simp only [MySSDSim.submitRequest, if_neg hfree, hk] at hsubmit
      cases hsubmit
    | some k =>
      have hone : ∃ a, s.accepted time rw sector count ioRequestId = [a] ∧ a.channel = i := by
        rw [MySSDSim.accepted, if_neg hfree, hk, hi, Option.getD_some]
        exact ⟨_, rfl, rfl⟩
      obtain ⟨a, ha, rfl⟩ := hone
      exact ⟨a, ha, hmin.lt, (h.idle_iff hmin.lt hpos).mp hlt,
        fun j hj ↦ h.idleLonger hj (hmin.least j hj trivial)⟩

end

section

variable {s s' : Server} {before since log : List Granted} {bytes : Bytes} {sent : Option Bytes}

theorem Booked.untouched (h : Booked s.mySSDSim log) (hu : Untouched s s') :
    Booked s'.mySSDSim log where
  occupied := h.occupied.untouched hu
  last := by
    rw [hu.channels.count, hu.channels.completionTime]
    exact h.last
  positive := h.positive

theorem InForce.booked {r : NctussEmuRequest} {sim : MySSDSim} (h : InForce r sim)
    (ha : Admissible r) : Booked sim [] where
  occupied := h.occupied ha
  last i hi := .inl (h.idle i hi).2
  positive _ hmem := absurd hmem List.not_mem_nil

theorem Accepts.booked (h : Accepts s before since)
    (htime : ∀ a ∈ before ++ since, a.time < 2 ^ 62) :
    Booked s.mySSDSim (before ++ since) := by
  induction h with
  | setup hr hreset ha hs =>
    exact (MySSDSim.setup_inForce ha (receive_reset_sim hr hreset hs).1).booked ha
  | ignored _ hr hreset ha hs ih =>
    rw [List.append_nil] at htime ⊢
    rw [(receive_reset_ignored hr hreset ha hs).1]
    exact ih htime
  | served h hreset hs ih =>
    have hocc := ((h.served hreset hs).kept htime).1
    rw [← List.append_assoc] at hocc htime ⊢
    obtain ⟨hold, hnew⟩ := List.forall_mem_append.mp htime
    have hbooked := ih hold
    rcases receive_cases hreset hs with ⟨hu, hnone⟩ | ⟨ret, hsubmit, hsome⟩
    · rw [hnone, List.append_nil]
      exact hbooked.untouched hu
    · rw [hsome] at hocc hnew ⊢
      exact hbooked.submit hocc (time64_le _) hsubmit hnew

theorem receive_newSubmission (h : NewSubmission s bytes) : ∃ s' ret sim totals,
    s.mySSDSim.submitRequest s.totals (Server.time64 (requestOf bytes))
      (requestOf bytes).data3.toNat
        (requestOf bytes).data4.toNat (requestOf bytes).data5.toNat (requestOf bytes).data6.toNat =
      some (ret, sim, totals) ∧
    s.receive bytes = .loop s' (some s'.datagram) ∧
      s'.reply.type = (if ret < 0 then NctussEmuReplyType.error else .ok).code := by
  have hcopes := (s.mySSDSim.submitRequest_copes_iff s.totals (requestOf bytes).data3.toNat
    (requestOf bytes).data4.toNat (requestOf bytes).data6.toNat (requestOf bytes).data5
    (time64_le (requestOf bytes))).mpr (.inl h.sectors)
  rw [Server.receive_new h.readable h.not_reset h.id h.idCheck,
    Server.dispatch_submitReqeust _ h.type]
  cases hsubmit : s.mySSDSim.submitRequest s.totals (Server.time64 (requestOf bytes))
    (requestOf bytes).data3.toNat (requestOf bytes).data4.toNat (requestOf bytes).data5.toNat
    (requestOf bytes).data6.toNat with
  | none =>
    rw [hsubmit] at hcopes
    exact hcopes.elim
  | some r => exact ⟨_, r.1, r.2.1, r.2.2, rfl, rfl, rfl⟩

/-- Over any run of the receive loop, a new submission is answered: refused if and only if each
channel has a request at that time; else it is put on an idle channel, and none has been idle for
longer. -/
theorem admission_exact (h : Accepts s before since)
    (htime : ∀ a ∈ before ++ since, a.time < 2 ^ 62) (hnew : NewSubmission s bytes)
    (hpos : 0 < Server.time64 (requestOf bytes)) :
    ∃ s', s.receive bytes = .loop s' (some s'.datagram) ∧
      (s'.reply.type = NctussEmuReplyType.error.code ↔ ∀ i < s.mySSDSim.count,
        ¬ Idle ((before ++ since).map Granted.job) i (Server.time64 (requestOf bytes))) ∧
      (s'.reply.type ≠ NctussEmuReplyType.error.code → s'.reply.type = NctussEmuReplyType.ok.code ∧
        ∃ a, s.accepted bytes = [a] ∧ a.channel < s.mySSDSim.count ∧
          Idle ((before ++ since).map Granted.job) a.channel (Server.time64 (requestOf bytes)) ∧
          ∀ i < s.mySSDSim.count, IdleLonger ((before ++ since).map Granted.job) a.channel i) := by
  obtain ⟨s', ret, sim, totals, hsubmit, hs, hreply⟩ := receive_newSubmission hnew
  obtain ⟨hrefused, haccepted⟩ := (h.booked htime).admits (time64_le _) hpos hsubmit
  have herror : s'.reply.type = NctussEmuReplyType.error.code ↔ ret < 0 := by
    rw [hreply]
    split
    · exact iff_of_true rfl ‹_›
    · exact iff_of_false (by decide) ‹_›
  refine ⟨s', hs, herror.trans hrefused, fun hok ↦ ?_⟩
  have hfree : ¬ ret < 0 := mt herror.mpr hok
  rw [if_neg hfree] at hreply
  rw [Server.accepted, if_pos ⟨hnew.readable, hnew.type, hnew.id.ne'⟩]
  exact ⟨hreply, haccepted hfree⟩

def Refused (s : Server) (bytes : Bytes) : Prop :=
  match s.receive bytes with
  | .hang _ => False
  | .loop s' _ => s'.reply.type = NctussEmuReplyType.error.code

instance (s : Server) (bytes : Bytes) : Decidable (Refused s bytes) := by
  unfold Refused
  split <;> infer_instance

/-- A submission while both channels are taken, and one after that. -/
theorem admission_exact_two : ∃ s before since, twoChannelSession = some (s, before, since) ∧
    (∀ i < 2, ¬ Idle ((before ++ since).map Granted.job) i 1000003) ∧
    ∃ a, s.accepted (submission 129 90000000 7 1).encode = [a] ∧ a.channel < 2 ∧
      ∀ i < 2, IdleLonger ((before ++ since).map Granted.job) a.channel i := by
  obtain ⟨⟨s, before, since⟩, hs, htime, hcount, hearly, hlate, hrefused, haccepted⟩ :
      ∃ r ∈ twoChannelSession, (∀ a ∈ r.2.1 ++ r.2.2, a.time < 2 ^ 62) ∧ r.1.mySSDSim.count = 2 ∧
        NewSubmission r.1 (submission 129 1000003 7 1).encode ∧
        NewSubmission r.1 (submission 129 90000000 7 1).encode ∧
        Refused r.1 (submission 129 1000003 7 1).encode ∧
        ¬ Refused r.1 (submission 129 90000000 7 1).encode := by decide +kernel
  have htime₁ : Server.time64 (requestOf (submission 129 1000003 7 1).encode) = 1000003 := by
    decide +kernel
  have htime₂ : Server.time64 (requestOf (submission 129 90000000 7 1).encode) = 90000000 := by
    decide +kernel
  obtain ⟨s₁, h₁, hiff, -⟩ := admission_exact (session_accepts hs) htime hearly
    (by rw [htime₁]; decide)
  obtain ⟨s₂, h₂, -, hput⟩ := admission_exact (session_accepts hs) htime hlate
    (by rw [htime₂]; decide)
  dsimp only at hrefused haccepted hcount
  simp only [Refused, h₁] at hrefused
  simp only [Refused, h₂] at haccepted
  obtain ⟨-, a, ha, hchannel, -, hlonger⟩ := hput haccepted
  rw [hcount] at hiff hchannel hlonger
  rw [htime₁] at hiff
  exact ⟨s, before, since, hs, hiff.mp hrefused, a, ha, hchannel, hlonger⟩

end

end Nctusde.UdpServer

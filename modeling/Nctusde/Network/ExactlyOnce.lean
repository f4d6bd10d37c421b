import Nctusde.Network.Exchange

namespace Nctusde.Network

open Library.Channel UdpServer Wire

variable {server : Server} {s s' : Net}

/-- The requests in flight are sorted by id, and none is older than an executed one. -/
structure Fifo (s : Net) : Prop where
  sorted : s.requests.Pairwise fun d d' ↦ messageId d ≤ messageId d'
  executed : ∀ e ∈ s.executed, ∀ d ∈ s.requests, messageId e.datagram ≤ messageId d

theorem Fifo.inOrder (h : Fifo s) (e : Event) : s.InOrder e := by
  cases e with
  | deliver =>
    intro d hd e he
    exact h.executed e he d (List.mem_of_mem_head? hd)
  | _ => trivial

theorem Fifo.send (h : Fifo s) {d : Bytes} {issued : List Bytes} (hi : Numbered (d :: issued))
    (hq : ∀ x ∈ s.requests, x ∈ d :: issued) (he : ∀ e ∈ s.executed, e.datagram ∈ d :: issued)
    {s' : Net} (hq' : s'.requests = s.requests ++ [d]) (he' : s'.executed = s.executed) :
    Fifo s' := by
  constructor
  · rw [hq']
    refine List.pairwise_append.mpr ⟨h.sorted, List.pairwise_singleton _ _, fun x hx y hy ↦ ?_⟩
    rw [List.mem_singleton.mp hy]
    exact hi.le (hq x hx)
  · rw [hq', he']
    intro e hmem x hx
    rcases List.mem_append.mp hx with hx | hx
    · exact h.executed e hmem x hx
    · rw [List.mem_singleton.mp hx]
      exact hi.le (he e hmem)

theorem Fifo.step (h : Fifo s) (hinv : Invariant server s) {e : Event} (hid : s.NextId e)
    (hkeep : Net.KeepsOrder e) (hs : s.step e = some s') : Fifo s' := by
  cases e with
  | communicate request data =>
    obtain ⟨hidle, rfl⟩ := Net.step_communicate hs
    exact h.send (hinv.communicate hidle hid).numbered
      (fun x hx ↦ List.mem_cons_of_mem _ (hinv.requests x hx))
      (fun e he ↦ List.mem_cons_of_mem _ (hinv.executed e he).1) rfl rfl
  | poll frames =>
    obtain ⟨d, hd, rfl⟩ := Net.step_poll hs
    obtain ⟨l, hl⟩ : ∃ l, s.issued = d :: l :=
      List.head?_eq_some_iff.mp (hinv.sending d hd).newest
    unfold Net.poll
    dsimp only
    split
    · exact h.send (hl ▸ hinv.numbered) (hl ▸ hinv.requests)
        (fun e he ↦ hl ▸ (hinv.executed e he).1) rfl rfl
    · exact ⟨h.sorted, h.executed⟩
  | «return» =>
    obtain ⟨d, -, -, rfl⟩ := Net.step_return hs
    exact ⟨h.sorted, h.executed⟩
  | deliver =>
    obtain ⟨-, d, requests, hq, rfl⟩ := Net.step_deliver hs
    have hsorted := h.sorted
    rw [hq] at hsorted
    obtain ⟨hle, hsorted⟩ := List.pairwise_cons.mp hsorted
    have hold : ∀ e ∈ s.executed, ∀ x ∈ requests, messageId e.datagram ≤ messageId x := by
      intro e he x hx
      exact h.executed e he x (by rw [hq]; exact List.mem_cons_of_mem _ hx)
    rcases s.server.receive d with t | ⟨s', sent⟩
    · exact ⟨hsorted, hold⟩
    · refine ⟨hsorted, fun e he x hx ↦ ?_⟩
      dsimp only [Net.handle] at he
      split at he
      · rcases List.mem_cons.mp he with rfl | he
        · exact hle x hx
        · exact hold e he x hx
      · exact hold e he x hx
  | requestFault fault =>
    obtain rfl := Option.some.inj hs
    exact ⟨fault.pairwise hkeep (fun _ _ ↦ le_rfl) h.sorted,
      fun e he d hd ↦ h.executed e he d (fault.mem hd)⟩
  | replyFault fault =>
    obtain rfl := Option.some.inj hs
    exact ⟨h.sorted, h.executed⟩

/-- What a run over a network that keeps the order may do. -/
def Ordered (s : Net) (e : Event) : Prop := s.NextId e ∧ Net.KeepsOrder e

instance (s : Net) (e : Event) : Decidable (Ordered s e) := inferInstanceAs (Decidable (_ ∧ _))

theorem reachable_invariant (h : Net.Reachable Ordered server s) : Invariant server s ∧ Fifo s := by
  induction h with
  | start h0 =>
    refine ⟨h0.invariant, ?_, ?_⟩
    · rw [h0.requests]
      exact List.Pairwise.nil
    · simp [h0.executed]
  | step _ he hs ih =>
    exact ⟨ih.1.step he.1 (ih.2.inOrder _) hs, ih.2.step ih.1 he.1 he.2 hs⟩

theorem Invariant.executed_unique (h : Invariant server s) {e : Execution} (he : e ∈ s.executed)
    (hreset : ¬ IsReset e.datagram) :
    (s.executed.filter fun e' ↦ messageId e'.datagram = messageId e.datagram) = [e] := by
  have hmem : e ∈ s.executed.filter fun e' ↦ messageId e'.datagram = messageId e.datagram :=
    List.mem_filter.mpr ⟨he, by simp⟩
  have hall : ∀ e' ∈ s.executed.filter fun e' ↦ messageId e'.datagram = messageId e.datagram,
      messageId e'.datagram = messageId e.datagram ∧ ¬ IsReset e'.datagram := by
    intro e' he'
    obtain ⟨he', hid⟩ := List.mem_filter.mp he'
    have hid : messageId e'.datagram = messageId e.datagram := by simpa using hid
    refine ⟨hid, ?_⟩
    rwa [h.numbered.unique (h.executed e' he').1 (h.executed e he).1 hid]
  have honce := h.once.sublist
    (List.filter_sublist (p := fun e' ↦ messageId e'.datagram = messageId e.datagram))
  generalize s.executed.filter (fun e' ↦ messageId e'.datagram = messageId e.datagram) = l at *
  match l with
  | [] => cases hmem
  | [e'] => rw [List.mem_singleton.mp hmem]
  | e' :: e'' :: l =>
    obtain ⟨hid', -⟩ := hall e' List.mem_cons_self
    obtain ⟨hid'', hr''⟩ := hall e'' (List.mem_cons_of_mem _ List.mem_cons_self)
    rcases (List.pairwise_cons.mp honce).1 e'' List.mem_cons_self with hlt | ⟨hr, -⟩
    · omega
    · exact absurd hr hr''

/-- Executing a request: a reset sets the server up, any other takes the message counter
with it, and the switch is entered. -/
def execute (s : Server) (bytes : Bytes) : Outcome :=
  if IsReset bytes then
    match s.mySSDSim.setup (requestOf bytes).data1.toNat (requestOf bytes).data2.toNat
        (requestOf bytes).data3.toNat with
    | none => .hang .memorySize
    | some sim =>
      { s with mySSDSim := sim, totals := ⟨0, 0, 0⟩, currentMaxRequestId := 0 }.dispatch
        (requestOf bytes) (bytes.take MAXNAME)
  else { s with currentMaxRequestId := messageId bytes }.dispatch
    (requestOf bytes) (bytes.take MAXNAME)

/-- What the executions make of a server, newest first, when each sends what it says. -/
inductive Made (server : Server) : List Execution → Server → Prop
  | nil : Made server [] server
  | cons {l : List Execution} {now now' : Server} {e : Execution} : Made server l now →
      execute now e.datagram = .loop now' e.sent → Made server (e :: l) now'

theorem receive_executes {now now' : Server} {d : Bytes} {sent : Option Bytes}
    (hx : Executes now d) (h : now.receive d = .loop now' sent) :
    execute now d = .loop now' sent := by
  obtain ⟨hr, hx⟩ := hx
  by_cases hreset : IsReset d
  · rw [Server.receive_reset hr hreset] at h
    rw [execute, if_pos hreset]
    exact h
  · have hid := hx.resolve_left hreset
    have hcheck : (requestOf d).idCheck = (requestOf d).id := by
      by_contra hne
      rw [Server.receive_idCheck hr hreset hid hne] at h
      cases h
    rw [Server.receive_new hr hreset hid hcheck] at h
    rw [execute, if_neg hreset]
    exact h

theorem receive_ignores {now now' : Server} {d : Bytes} {sent : Option Bytes}
    (hx : ¬ Executes now d) (h : now.receive d = .loop now' sent) : now' = now := by
  by_cases hr : Readable d
  · obtain ⟨hreset, hid⟩ := not_or.mp (not_and.mp hx hr)
    rcases (not_lt.mp hid).lt_or_eq with hlt | heq
    · rw [Server.receive_stale hr hreset hlt] at h
      cases h
    · rw [Server.receive_copy hr hreset heq] at h
      exact (Outcome.loop.inj h).1.symm
  · rw [Server.receive_unreadable hr] at h
    exact (Outcome.loop.inj h).1.symm

theorem made_step (h : Made server s.executed s.server) {e : Event} (hs : s.step e = some s') :
    Made server s'.executed s'.server := by
  cases e with
  | communicate request data =>
    obtain ⟨-, rfl⟩ := Net.step_communicate hs
    exact h
  | poll frames =>
    obtain ⟨d, -, rfl⟩ := Net.step_poll hs
    obtain ⟨pollCount, requests, hpoll⟩ := s.poll_eq d frames
    rw [hpoll]
    exact h
  | «return» =>
    obtain ⟨d, -, -, rfl⟩ := Net.step_return hs
    exact h
  | deliver =>
    obtain ⟨-, d, requests, -, rfl⟩ := Net.step_deliver hs
    rcases hrec : s.server.receive d with t | ⟨now, sent⟩
    · exact h
    · by_cases hx : Executes s.server d
      · simp only [Net.handle, if_pos hx]
        exact h.cons (receive_executes hx hrec)
      · simp only [Net.handle, if_neg hx]
        rw [receive_ignores hx hrec]
        exact h
  | requestFault fault =>
    obtain rfl := Option.some.inj hs
    exact h
  | replyFault fault =>
    obtain rfl := Option.some.inj hs
    exact h

/-- The server is what the executions made of it, whatever the network did. -/
theorem reachable_made {P : Net → Event → Prop} (h : Net.Reachable P server s) :
    Made server s.executed s.server := by
  induction h with
  | start h0 =>
    rw [h0.executed, h0.server]
    exact .nil
  | step _ _ hs ih => exact made_step ih hs

/-- In any run over a network that loses and duplicates datagrams but keeps their
order, the server is what its executions made of it: each message other than a reset is
executed once at most, a copy of an executed one changes nothing, and a call that returned
had its message executed, exactly once and with the reply that the call returned. -/
theorem executed_exactly_once (h : Net.Reachable Ordered server s) :
    Made server s.executed s.server ∧
      (s.client.sending = none → replay server s.issued = some s.server) ∧
      (∀ t ∈ s.hung, t ≠ .staleId) ∧
      (∀ e ∈ s.executed, e.datagram ∈ s.issued) ∧
      ((s.executed.filter fun e ↦ ¬ IsReset e.datagram).map fun e ↦ messageId e.datagram).Nodup ∧
      (∀ e ∈ s.executed, s.requests.head? = some e.datagram → ∀ s', s.step .deliver = some s' →
        s'.server = s.server) ∧
      ∀ p ∈ s.returned, WellFormed p.1 → ¬ IsReset p.1 →
        (s.executed.filter fun e ↦ messageId e.datagram = messageId p.1) = [⟨p.1, some p.2⟩] ∧
          replyId p.2 = messageId p.1 := by
  obtain ⟨hinv, hfifo⟩ := reachable_invariant h
  have honce : (s.executed.filter fun e ↦ ¬ IsReset e.datagram).Pairwise
      fun e' e ↦ messageId e.datagram < messageId e'.datagram := by
    refine (hinv.once.sublist List.filter_sublist).imp_of_mem fun {e' e} _ he hlt ↦ ?_
    have hn : ¬ IsReset e.datagram := by simpa using (List.mem_filter.mp he).2
    exact hlt.resolve_right fun hr ↦ hn hr.1
  refine ⟨reachable_made h, hinv.replay_idle, fun t ht ↦ ?_, fun e he ↦ (hinv.executed e he).1, ?_,
    fun e he hd s' hs ↦ hinv.copy_kept (hfifo.inOrder .deliver) he hd hs, fun p hp hw hreset ↦ ?_⟩
  · rintro rfl
    obtain ⟨_, -, hh⟩ := hinv.hung _ ht
    exact hh
  · exact List.pairwise_map.mpr (honce.imp fun hlt ↦ hlt.ne')
  · obtain ⟨hissued, hexec⟩ := hinv.returned p hp
    have hexec := hexec hw
    have hunique := hinv.executed_unique hexec hreset
    obtain ⟨b, hb, hid⟩ := (hinv.executed _ hexec).2 hw
    rw [Option.some.injEq] at hb
    rw [← hb] at hid
    exact ⟨hunique, hid⟩

/-- A reset and a read whose requests come twice, and a third copy of the read. -/
def copiedRead : List Event :=
  [.communicate oneChannelReset [], .requestFault (.duplicate 0), .deliver,
    .deliver, .poll 1, .return,
    .communicate (readFirstSector 124) [], .requestFault (.duplicate 0),
      .requestFault (.duplicate 0),
    .deliver, .deliver, .poll 3, .return]

theorem copiedRead_ends : (Net.run Ordered copiedRead Net.zeroed).map
    (fun s ↦ (s.client.sending, s.returned.head?.map (·.1), s.requests,
      s.executed.map (·.datagram))) =
      some (none, some (datagramOf (readFirstSector 124) []), [datagramOf (readFirstSector 124) []],
        [datagramOf (readFirstSector 124) [], datagramOf oneChannelReset [],
          datagramOf oneChannelReset []]) := by
  decide +kernel

theorem readFirstSector_wellFormed (id : UInt32) :
    WellFormed (datagramOf (readFirstSector id) []) ∧
      ¬ IsReset (datagramOf (readFirstSector id) []) := by
  have hr : requestOf (datagramOf (readFirstSector id) []) =
      { readFirstSector id with idCheck := id } := requestOf_datagramOf _ _
  have hn : NctussEmuRequestType.readWriteData.code ≠ NctussEmuRequestType.reset.code := by decide
  refine ⟨⟨.readWriteData, by rw [hr]; rfl, fun _ h ↦ absurd (by rw [hr]; rfl) h⟩, ?_⟩
  rw [IsReset, hr]
  exact hn

theorem executed_exactly_once_read : ∃ s b, Net.run Ordered copiedRead Net.zeroed = some s ∧
    Made .zeroed s.executed s.server ∧ replay .zeroed s.issued = some s.server ∧
    (∀ s', s.step .deliver = some s' → s'.server = s.server) ∧
    (s.executed.filter fun e ↦ messageId e.datagram = 124) =
      [⟨datagramOf (readFirstSector 124) [], some b⟩] := by
  obtain ⟨s, hs, hfacts⟩ := Option.map_eq_some_iff.mp copiedRead_ends
  simp only [Prod.mk.injEq] at hfacts
  obtain ⟨hsending, hret, hq, hexec⟩ := hfacts
  obtain ⟨⟨_, b⟩, hp, rfl⟩ := Option.map_eq_some_iff.mp hret
  obtain ⟨e, l, hl, he, -⟩ := List.map_eq_cons_iff.mp hexec
  obtain ⟨hw, hreset⟩ := readFirstSector_wellFormed 124
  have hid : messageId (datagramOf (readFirstSector 124) []) = 124 := messageId_datagramOf _ _
  obtain ⟨hmade, hidle, -, -, -, hcopy, hreturned⟩ :=
    executed_exactly_once (Net.Reachable.run (.start Net.zeroed_isStart) hs)
  have hunique := (hreturned _ (List.mem_of_mem_head? hp) hw hreset).1
  simp only [hid] at hunique
  refine ⟨s, b, hs, hmade, hidle hsending, hcopy e (hl ▸ List.mem_cons_self) ?_, hunique⟩
  rw [hq, he]
  rfl

end Nctusde.Network

import Nctusde.EmulatorKernel.Service

namespace Nctusde.EmulatorKernel

open BlockLayer Library Library.Table Network UdpServer Wire

variable {E : Trap → Prop} {d : Emudisk} {s s' : System} {u : Unit}

theorem sameRequests_emulatorTransferData {dir : DataDir} {sectorNum slot offset : ℕ} :
    (d.emulatorTransferData dir sectorNum slot offset).wp anything E
      (fun d' _ ↦ SameRequests d d') u := by
  cases dir with
  | read =>
    simp only [Emudisk.emulatorTransferData, Program.bind_eq, Program.wp_bind]
    apply wp_communicateWithEmulator
    intro b u
    split
    · exact sameRequests_numbered d
    · exact (sameRequests_withData d slot _).trans (sameRequests_numbered _)
  | write =>
    simp only [Emudisk.emulatorTransferData, Program.bind_eq, Program.wp_bind]
    apply wp_communicateWithEmulator
    exact fun _ _ ↦ sameRequests_numbered d

theorem sameRequests_transferSectors {req : Request} {slot : ℕ} :
    (d.transferSectors req slot).wp anything E (fun d' _ ↦ SameRequests d d') u := by
  apply Program.wp_foldlM_range fun _ d' _ ↦ SameRequests d d'
  · intro k d' u _ h
    exact Program.wp_mono (fun _ _ ↦ h.trans) sameRequests_emulatorTransferData
  · exact .refl d

theorem sameRequests_emulatorSubmitRequest {t : ℤ} {dir : DataDir}
    {sector count : ℕ} {id : UInt32} :
    (d.emulatorSubmitRequest t dir sector count id).wp anything E
      (fun d' _ ↦ SameRequests d d') u := by
  rw [Emudisk.emulatorSubmitRequest, Program.bind_eq, Program.wp_bind]
  apply wp_communicateWithEmulator
  exact fun _ _ ↦ sameRequests_numbered d

theorem wp_emulatorGetResponses_numbered {t : ℤ} : (d.emulatorGetResponses t).wp anything
    (fun _ ↦ True) (fun r _ ↦ r.1 = d.numbered) u :=
  Program.wp_weaken (fun _ _ ↦ trivial) (wp_emulatorGetResponses_any fun _ _ ↦ rfl)

namespace System

structure Takes (req : Request) (s s' : System) : Prop where
  queueStopped : s'.queueStopped = s.queueStopped
  submitted : s'.submitted = s.submitted ++ [(s.disk.udpSendReplyId, req)]
  completed : s'.completed = s.completed
  diskChannels : s'.disk.diskChannels = s.disk.diskChannels
  requestInflight : s'.disk.requestInflight = s.disk.requestInflight + 1
  mapping : ∀ i, ((s'.disk.requestIdToReqMapping i).requestId,
    (s'.disk.requestIdToReqMapping i).req) = (s.disk.udpSendReplyId, some req) ∨
      (s'.disk.requestIdToReqMapping i).requestId = (s.disk.requestIdToReqMapping i).requestId ∧
        (s'.disk.requestIdToReqMapping i).req = (s.disk.requestIdToReqMapping i).req

theorem wp_submit_takes {now : ℤ} {req : Request} :
    (s.submit now req).wp anything (fun _ ↦ True) (fun s' _ ↦ Takes req s s') u := by
  unfold submit
  split
  · trivial
  split
  · trivial
  rw [Emudisk.putRequestIdToReqMapping]
  cases s.disk.findRequestId 0 with
  | none => trivial
  | some slot =>
    rw [Option.map_some, submitPut, submitSlot]
    split
    · trivial
    rw [Program.bind_eq, Program.wp_bind]
    refine Program.wp_mono (fun d u hd ↦ ?_)
      (sameRequests_emulatorSubmitRequest (E := fun _ ↦ True))
    rw [Program.bind_eq, Program.wp_bind]
    refine Program.wp_mono (fun d' u hd' ↦ ?_) sameRequests_transferSectors
    have hput : SameRequests (s.disk.withEntry slot { s.disk.requestIdToReqMapping slot with
        requestId := s.disk.udpSendReplyId
        req := some req
        reqSectors := sectorCount req }) d' := by
      cases hdir : req.dataDir with
      | read =>
        rw [hdir] at hd
        exact hd.trans hd'
      | write =>
        rw [hdir] at hd
        exact ((sameRequests_withData _ slot _).trans hd).trans hd'
    refine ⟨rfl, rfl, rfl, hput.diskChannels, congrArg (· + 1) hput.requestInflight, fun i ↦ ?_⟩
    obtain ⟨hid, hreq⟩ := hput.mapping i
    by_cases hi : i = slot
    · rw [hi, withEntry_same] at hid hreq
      exact .inl (Prod.ext (hi ▸ hid) (hi ▸ hreq))
    · rw [withEntry_other _ _ hi] at hid hreq
      exact .inr ⟨hid, hreq⟩

/-- The queue is stopped exactly while every channel has a request in flight. -/
structure Throttled (s : System) : Prop where
  bounded : s.disk.requestInflight ≤ s.disk.diskChannels
  stopped : s.queueStopped = true ↔ s.disk.requestInflight = s.disk.diskChannels

theorem Throttled.same (h : s.Throttled) (hs : s'.queueStopped = s.queueStopped)
    (hc : s'.disk.diskChannels = s.disk.diskChannels)
    (hi : s'.disk.requestInflight = s.disk.requestInflight) : s'.Throttled := by
  refine ⟨?_, ?_⟩
  · rw [hc, hi]
    exact h.bounded
  · rw [hs, hc, hi]
    exact h.stopped

theorem throttled_of_running (hrun : s.queueStopped = false)
    (h : s.disk.requestInflight < s.disk.diskChannels) : s.Throttled :=
  ⟨h.le, fun hstop ↦ absurd (hrun.symm.trans hstop) Bool.false_ne_true, fun heq ↦ absurd heq h.ne⟩

theorem Throttled.lt (h : s.Throttled) (hrun : s.queueStopped = false) :
    s.disk.requestInflight < s.disk.diskChannels :=
  h.bounded.lt_of_ne fun heq ↦ Bool.false_ne_true (hrun.symm.trans (h.stopped.mpr heq))

theorem throttled_strategyLoop (hrun : s.queueStopped = false)
    (hlt : s.disk.requestInflight < s.disk.diskChannels) (b : Bool) (queue : List Request) :
    (s.strategyLoop b queue).wp anything (fun _ ↦ True) (fun r _ ↦ r.1.Throttled) u := by
  induction queue generalizing s b u with
  | nil => exact fun _ ↦ ⟨trivial, fun _ _ _ ↦ throttled_of_running hrun hlt⟩
  | cons req queue ih =>
    refine fun _ ↦ ⟨trivial, fun now u _ ↦ ?_⟩
    dsimp only [Program.bind]
    rw [Program.bind_eq, Program.wp_bind]
    refine Program.wp_mono (fun s' u hs' ↦ ?_) wp_submit_takes
    have hqueue := hs'.queueStopped
    have hchannels := hs'.diskChannels
    have hinflight := hs'.requestInflight
    split
    · rename_i hfull
      have heq : s'.disk.requestInflight = s'.disk.diskChannels := by omega
      exact ⟨heq.le, fun _ ↦ heq, fun _ ↦ rfl⟩
    rename_i hroom
    split
    · exact throttled_of_running (hqueue.trans hrun) (not_le.mp hroom)
    · exact ih (hqueue.trans hrun) (not_le.mp hroom) true

theorem throttled_strategy (hrun : s.queueStopped = false)
    (hlt : s.disk.requestInflight < s.disk.diskChannels) (queue : List Request) :
    (s.strategy queue).wp anything (fun _ ↦ True) (fun s' _ ↦ s'.Throttled) u := by
  rw [strategy, Program.bind_eq, Program.wp_bind]
  refine Program.wp_mono (fun r u hr ↦ ?_) (throttled_strategyLoop hrun hlt false queue)
  dsimp only
  split
  · rw [announce, Program.bind_eq, Program.wp_bind]
    refine Program.wp_mono (fun r' u hd ↦ ?_) wp_emulatorGetResponses_numbered
    obtain ⟨d', next⟩ := r'
    obtain rfl : d' = r.1.disk.numbered := hd
    have hsame := SameBooks.takeUp r.1.disk.numbered next
    exact hr.same rfl hsame.diskChannels hsame.requestInflight
  · exact hr

theorem Throttled.completeBatch (h : s.Throttled) (now : ℤ) :
    (s.completeBatch now).wp anything (fun _ ↦ True) (fun s' _ ↦ s'.Throttled) u := by
  apply Program.wp_foldlM_range fun _ (s' : System) _ ↦ s'.Throttled
  · intro i s' u _ hs'
    rw [Emudisk.getRequestIdToReqMapping]
    cases s'.disk.findRequestId (s'.disk.nextResponseToReplyIds i) with
    | none => trivial
    | some slot =>
      rw [Option.map_some, completeEntry]
      split
      · trivial
      split
      · trivial
      · exact hs'.same rfl rfl rfl
  · exact h

theorem Throttled.findNext (h : s.Throttled) :
    s.findNext.wp anything (fun _ ↦ True) (fun s' _ ↦ s'.Throttled) u := by
  rw [System.findNext, Program.bind_eq, Program.wp_bind]
  refine Program.wp_mono (fun r u hd ↦ ?_) wp_emulatorGetResponses_numbered
  obtain ⟨d, next⟩ := r
  obtain rfl : d = s.disk.numbered := hd
  have hsame := SameBooks.replace s.disk.numbered next
  have hthrottled : Throttled { s with disk := s.disk.numbered.replace next } :=
    h.same rfl hsame.diskChannels hsame.requestInflight
  dsimp only
  split
  · split
    · trivial
    refine fun _ ↦ ⟨trivial, fun t u _ ↦ ?_⟩
    dsimp only [Program.bind]
    split
    · exact hthrottled.same rfl rfl rfl
    · exact hthrottled.same rfl rfl rfl
  · exact hthrottled.same rfl rfl rfl

theorem Throttled.processNext (h : s.Throttled) :
    s.processNext.wp anything (fun _ ↦ True) (fun s' _ ↦ s'.Throttled) u := by
  refine fun _ ↦ ⟨trivial, fun t u _ ↦ ?_⟩
  dsimp only [Program.bind]
  split
  · trivial
  split
  · trivial
  split
  · trivial
  rw [Program.bind_eq, Program.wp_bind]
  exact Program.wp_mono (fun s' u hs' ↦ hs'.findNext) (h.completeBatch t)

theorem Throttled.turn {P : Request → Prop} (h : s.Throttled) {p : Prog System}
    (hp : Enters P s p) :
    p.wp anything (fun _ ↦ True) (fun s' _ ↦ s'.Throttled) u := by
  cases hp with
  | strategy _ hrun _ => exact throttled_strategy hrun (h.lt hrun) _
  | softirqDone _ _ _ =>
    have hbounded := h.bounded
    unfold softirqDone
    dsimp only
    split
    · exact throttled_strategy rfl (by dsimp only; omega) _
    · rename_i hrun
      have hlt := h.lt (Bool.eq_false_iff.mpr hrun)
      exact throttled_of_running (Bool.eq_false_iff.mpr hrun) (by dsimp only; omega)
  | start _ => exact h.same rfl rfl rfl
  | woken _ => exact h.same rfl rfl rfl
  | interrupted _ => exact h.same rfl rfl rfl
  | timer _ => exact fun _ ↦ ⟨trivial, fun _ _ _ ↦ h.same rfl rfl rfl⟩
  | expired _ => exact h.processNext
  | processing _ => exact h.processNext

end System

theorem reachable_throttled {W : Type} {G : Handler W Op Ans} {P : Request → Prop} {n speed : ℕ}
    {w : W} {T : Turns Op Ans Trap System W} (h1 : 1 ≤ n)
    (hstart : ∀ s w, T.start s w → s.IsStart n speed)
    (hent : ∀ s p, T.enters s p → System.Enters P s p) (h : T.Reachable G s w) : s.Throttled := by
  obtain ⟨_, -, hthrottled⟩ := h.invariant (keeps_anything G) (fun _ _ _ _ _ ↦ trivial)
    (I := fun s (_ : Unit) ↦ s.Throttled)
    (fun s w hs ↦ ⟨(), trivial, System.throttled_of_running (hstart s w hs).queueStopped (by
      rw [(hstart s w hs).requestInflight, (hstart s w hs).diskChannels]
      omega)⟩)
    fun s u p hs hp ↦ hs.turn (hent s p hp)
  exact hthrottled

/-- Whatever emulator, network and clock answer, the queue is stopped exactly while every channel
has a request in flight. -/
theorem queue_throttled {G : Handler World Op Ans} {P : Request → Prop} {n speed : ℕ} {w : World}
    (h1 : 1 ≤ n) (h : (turns P n speed).Reachable G s w) :
    s.disk.requestInflight ≤ s.disk.diskChannels ∧
      (s.queueStopped = true ↔ s.disk.requestInflight = s.disk.diskChannels) := by
  have hthrottled := reachable_throttled (T := turns P n speed) h1 (fun _ _ hs ↦ hs.1)
    (fun _ _ hp ↦ hp) h
  exact ⟨hthrottled.bounded, hthrottled.stopped⟩

theorem queue_throttled_two :
    ∃ s w, (turns System.Usual 2 0).Reachable (reliable (LONG_MAX - 1)) s w ∧
    s.completed = [] ∧ s.queueStopped = true ∧ s.disk.requestInflight = s.disk.diskChannels := by
  obtain ⟨⟨s, w⟩, hs, hnone, hstopped⟩ : ∃ r ∈ session System.Usual 2 0
      [.task, .strategy [writeAt 0 5, readAt 1 5]], r.1.completed = [] ∧
        r.1.queueStopped = true := by
    decide +kernel
  have h := session_reachable hs
  exact ⟨s, w, h, hnone, hstopped, (queue_throttled (by decide) h).2.mp hstopped⟩

end Nctusde.EmulatorKernel

import Nctusde.EmulatorKernel.Sessions

namespace Nctusde.EmulatorKernel

open BlockLayer Library UdpServer Wire

/-- Nothing is known of what is asked of the world, nor of what it answers. -/
def anything : Contract Unit Op Ans where
  admits _ _ := True
  requires _ _ := True
  ensures _ _ _ _ := True

theorem keeps_anything {W : Type} (G : Handler W Op Ans) :
    Program.Keeps G anything fun _ _ ↦ True :=
  ⟨fun _ _ _ _ _ ↦ trivial, fun _ w _ _ _ _ _ _ _ ↦ ⟨w, trivial, trivial⟩⟩

variable {E : Trap → Prop} {d d' : Emudisk} {s s' : System} {u : Unit}

theorem wp_communicateWithEmulator {Q : Bytes → Unit → Prop} {r : NctussEmuRequest} {data : Bytes}
    (h : ∀ b u, Q b u) : (communicateWithEmulator r data).wp anything E Q u :=
  fun _ ↦ ⟨trivial, fun b v _ ↦ h b v⟩

theorem wp_ktimeGet {Q : ℤ → Unit → Prop} (h : ∀ t u, Q t u) : ktimeGet.wp anything E Q u :=
  fun _ ↦ ⟨trivial, fun t v _ ↦ h t v⟩

structure SameNext (d d' : Emudisk) : Prop where
  time : d'.nextResponseToReplyTime = d.nextResponseToReplyTime
  num : d'.nextResponseToReplyNum = d.nextResponseToReplyNum

namespace SameNext

theorem refl (d : Emudisk) : SameNext d d := ⟨rfl, rfl⟩

theorem trans {d'' : Emudisk} (h : SameNext d d') (h' : SameNext d' d'') : SameNext d d'' :=
  ⟨h'.time.trans h.time, h'.num.trans h.num⟩

end SameNext

theorem sameNext_emulatorTransferData {dir : DataDir} {sectorNum slot offset : ℕ} :
    (d.emulatorTransferData dir sectorNum slot offset).wp anything E (fun d' _ ↦ SameNext d d')
      u := by
  cases dir with
  | read =>
    simp only [Emudisk.emulatorTransferData, Program.bind_eq, Program.wp_bind]
    apply wp_communicateWithEmulator
    intro b u
    split <;> exact ⟨rfl, rfl⟩
  | write =>
    simp only [Emudisk.emulatorTransferData, Program.bind_eq, Program.wp_bind]
    apply wp_communicateWithEmulator
    exact fun _ _ ↦ ⟨rfl, rfl⟩

theorem sameNext_transferSectors {req : Request} {slot : ℕ} :
    (d.transferSectors req slot).wp anything E (fun d' _ ↦ SameNext d d') u := by
  apply Program.wp_foldlM_range fun _ d' _ ↦ SameNext d d'
  · intro k d' u _ h
    exact Program.wp_mono (fun _ _ ↦ h.trans) sameNext_emulatorTransferData
  · exact .refl d

theorem sameNext_emulatorSubmitRequest {time : ℤ} {dir : DataDir} {sector count : ℕ} {n : UInt32} :
    (d.emulatorSubmitRequest time dir sector count n).wp anything E (fun d' _ ↦ SameNext d d')
      u := by
  rw [Emudisk.emulatorSubmitRequest, Program.bind_eq, Program.wp_bind]
  apply wp_communicateWithEmulator
  exact fun _ _ ↦ ⟨rfl, rfl⟩

theorem wp_emulatorGetResponses_any {Q : Emudisk × NextResponses → Unit → Prop} {t : ℤ}
    (h : ∀ next u, Q (d.numbered, next) u) :
    (d.emulatorGetResponses t).wp anything (· ≠ .nothingPending) Q u := by
  rw [Emudisk.emulatorGetResponses, Program.bind_eq, Program.wp_bind]
  apply wp_communicateWithEmulator
  intro b u
  rw [Program.bind_eq, Program.wp_bind, Emudisk.readResponses]
  split
  · exact Trap.noConfusion
  split
  · exact Trap.noConfusion
  · exact h _ u

namespace System

structure SameTask (s s' : System) : Prop where
  next : SameNext s.disk s'.disk
  task : s'.task = s.task

namespace SameTask

theorem refl (s : System) : SameTask s s := ⟨.refl _, rfl⟩

theorem trans {s'' : System} (h : SameTask s s') (h' : SameTask s' s'') : SameTask s s'' :=
  ⟨h.next.trans h'.next, h'.task.trans h.task⟩

end SameTask

theorem sameTask_submit {now : ℤ} {req : Request} :
    (s.submit now req).wp anything (· ≠ .nothingPending) (fun s' _ ↦ SameTask s s') u := by
  unfold submit
  split
  · exact Trap.noConfusion
  split
  · exact Trap.noConfusion
  rw [Emudisk.putRequestIdToReqMapping]
  cases s.disk.findRequestId 0 with
  | none => exact Trap.noConfusion
  | some slot =>
    rw [Option.map_some, submitPut, submitSlot]
    split
    · exact Trap.noConfusion
    rw [Program.bind_eq, Program.wp_bind]
    refine Program.wp_mono (fun d u hd ↦ ?_) sameNext_emulatorSubmitRequest
    rw [Program.bind_eq, Program.wp_bind]
    refine Program.wp_mono (fun d' u hd' ↦ ?_) sameNext_transferSectors
    have hnext := hd.trans hd'
    refine ⟨?_, rfl⟩
    cases hdir : req.dataDir with
    | read =>
      rw [hdir] at hnext
      exact ⟨hnext.time, hnext.num⟩
    | write =>
      rw [hdir] at hnext
      exact ⟨hnext.time, hnext.num⟩

theorem sameTask_strategyLoop {queue : List Request} {b : Bool} :
    (s.strategyLoop b queue).wp anything (· ≠ .nothingPending) (fun r _ ↦ SameTask s r.1) u := by
  induction queue generalizing s u b with
  | nil =>
    rw [strategyLoop, Program.bind_eq, Program.wp_bind]
    exact wp_ktimeGet fun _ _ ↦ .refl s
  | cons req queue ih =>
    rw [strategyLoop, Program.bind_eq, Program.wp_bind]
    apply wp_ktimeGet
    intro now u
    rw [Program.bind_eq, Program.wp_bind]
    refine Program.wp_mono (fun s' u hs ↦ ?_) sameTask_submit
    split
    · exact ⟨hs.next, hs.task⟩
    split
    · exact hs
    · exact Program.wp_mono (fun _ _ ↦ hs.trans) ih

end System

/-- What the processing task relies on where it is. -/
def Task.Minds (d : Emudisk) : Task → Prop
  | .sleeping woken => d.nextResponseToReplyNum ≠ 0 ↔ woken = true
  | .sleepingUntil time woken => d.nextResponseToReplyNum ≠ 0 ∧
      (woken = false → time = d.nextResponseToReplyTime)
  | .expired | .processing => d.nextResponseToReplyNum ≠ 0
  | .starting => True

theorem Task.Minds.same {task : Task} (h : task.Minds d) (hs : SameNext d d') : task.Minds d' := by
  unfold Task.Minds
  rw [hs.num, hs.time]
  exact h

theorem toLong_toU64 (x : ℤ) : toLong (toU64 x) = toLong x := Int.emod_bmod x _

theorem toLong_toLong (x : ℤ) : toLong (toLong x) = toLong x := Int.bmod_bmod

def TimeFits (d : Emudisk) : Prop := toLong d.nextResponseToReplyTime = d.nextResponseToReplyTime

/-- The task is woken for a batch taken up, unless it completes at the same time as
the one it has been told of. -/
theorem Task.Minds.takeUp {task : Task} (h : task.Minds d) (hfits : TimeFits d)
    (next : NextResponses) :
    TimeFits (d.takeUp next).1 ∧
      (if (d.takeUp next).2 then task.wake else task).Minds (d.takeUp next).1 := by
  unfold Emudisk.takeUp
  split
  · rename_i htake
    obtain ⟨hnum, hcase⟩ := htake
    refine ⟨toLong_toLong _, ?_⟩
    split
    · cases task with
      | sleeping woken => exact iff_of_true hnum.ne' rfl
      | sleepingUntil time woken => exact ⟨hnum.ne', fun hw ↦ nomatch hw⟩
      | starting => trivial
      | _ => exact hnum.ne'
    · rename_i hwake
      obtain ⟨hold, hle⟩ := not_or.mp (of_decide_eq_false (Bool.not_eq_true _ ▸ hwake))
      have htime : toLong next.time = d.nextResponseToReplyTime := by
        obtain ⟨heq, -⟩ := (hcase.resolve_left hold).resolve_left hle
        rw [← heq, toLong_toU64]
        exact hfits
      cases task with
      | sleeping woken => exact iff_of_true hnum.ne' (h.mp hold)
      | sleepingUntil time woken => exact ⟨hnum.ne', fun hw ↦ (h.2 hw).trans htime.symm⟩
      | starting => trivial
      | _ => exact hnum.ne'
  · exact ⟨hfits, h⟩

namespace System

structure Wakeful (s : System) : Prop where
  timeFits : TimeFits s.disk
  minds : s.task.Minds s.disk

theorem Wakeful.same (h : Wakeful s) (hs : SameTask s s') : Wakeful s' := by
  refine ⟨?_, ?_⟩
  · rw [TimeFits, hs.next.time]
    exact h.timeFits
  · rw [hs.task]
    exact h.minds.same hs.next

theorem Wakeful.announce (h : Wakeful s) :
    s.announce.wp anything (· ≠ .nothingPending) (fun s' _ ↦ Wakeful s') u := by
  rw [System.announce, Program.bind_eq, Program.wp_bind]
  refine wp_emulatorGetResponses_any fun next u ↦ ?_
  have hminds : s.task.Minds s.disk.numbered := h.minds.same ⟨rfl, rfl⟩
  obtain ⟨hfits, hwake⟩ := hminds.takeUp (d := s.disk.numbered) h.timeFits next
  exact ⟨hfits, hwake⟩

theorem Wakeful.strategy (h : Wakeful s) {queue : List Request} :
    (s.strategy queue).wp anything (· ≠ .nothingPending) (fun s' _ ↦ Wakeful s') u := by
  rw [System.strategy, Program.bind_eq, Program.wp_bind]
  refine Program.wp_mono (fun r u hr ↦ ?_) sameTask_strategyLoop
  dsimp only
  split
  · exact (h.same hr).announce
  · exact h.same hr

theorem Wakeful.sleep (h : TimeFits s.disk) : Wakeful s.sleep := by
  refine ⟨h, ?_⟩
  unfold System.sleep
  split
  · rename_i hnum
    exact iff_of_false (not_not.mpr hnum) Bool.false_ne_true
  · rename_i hnum
    exact ⟨hnum, fun _ ↦ rfl⟩

theorem timeFits_replace (h : TimeFits d) (next : NextResponses) : TimeFits (d.replace next) := by
  unfold Emudisk.replace
  dsimp only
  split
  · exact toLong_toLong _
  · exact h

theorem wakeful_findNext (h : TimeFits s.disk) :
    s.findNext.wp anything (· ≠ .nothingPending) (fun s' _ ↦ Wakeful s') u := by
  rw [System.findNext, Program.bind_eq, Program.wp_bind]
  refine wp_emulatorGetResponses_any fun next u ↦ ?_
  dsimp only
  have hfits := timeFits_replace (d := s.disk.numbered) h next
  split
  · rename_i hnum
    split
    · exact Trap.noConfusion
    rw [Program.bind_eq, Program.wp_bind]
    apply wp_ktimeGet
    intro now u
    split
    · refine ⟨hfits, ?_⟩
      unfold Emudisk.replace
      dsimp only
      rw [if_pos hnum]
      exact hnum
    · exact Wakeful.sleep hfits
  · exact Wakeful.sleep hfits

theorem timeFits_completeBatch (h : TimeFits s.disk) (now : ℤ) :
    (s.completeBatch now).wp anything (· ≠ .nothingPending) (fun s' _ ↦ TimeFits s'.disk) u := by
  apply Program.wp_foldlM_range fun _ (s' : System) _ ↦ TimeFits s'.disk
  · intro i s' u _ hs'
    rw [Emudisk.getRequestIdToReqMapping]
    cases s'.disk.findRequestId (s'.disk.nextResponseToReplyIds i) with
    | none => exact Trap.noConfusion
    | some slot =>
      rw [Option.map_some, completeEntry]
      split
      · exact Trap.noConfusion
      split
      · exact Trap.noConfusion
      · exact hs'
  · exact h

theorem Wakeful.processNext (h : Wakeful s) (hnum : s.disk.nextResponseToReplyNum ≠ 0) :
    s.processNext.wp anything (· ≠ .nothingPending) (fun s' _ ↦ Wakeful s') u := by
  rw [System.processNext, Program.bind_eq, Program.wp_bind]
  apply wp_ktimeGet
  intro now u
  split
  · exact Trap.noConfusion
  split
  · exact Trap.noConfusion
  rw [Program.bind_eq, Program.wp_bind]
  exact Program.wp_mono (fun s' u hs' ↦ wakeful_findNext hs')
    (timeFits_completeBatch h.timeFits now)

theorem Wakeful.turn {P : Request → Prop} (h : Wakeful s) {p : Prog System} (hp : Enters P s p) :
    p.wp anything (· ≠ .nothingPending) (fun s' _ ↦ Wakeful s') u := by
  have hminds := h.minds
  cases hp with
  | strategy => exact h.strategy
  | softirqDone =>
    unfold softirqDone
    dsimp only
    split
    · refine Wakeful.strategy ?_
      exact ⟨h.timeFits, h.minds.same ⟨rfl, rfl⟩⟩
    · exact ⟨h.timeFits, h.minds.same ⟨rfl, rfl⟩⟩
  | start htask => exact Wakeful.sleep h.timeFits
  | woken htask =>
    rw [htask] at hminds
    exact ⟨h.timeFits, hminds.mpr rfl, fun _ ↦ rfl⟩
  | interrupted htask =>
    rw [htask] at hminds
    exact ⟨h.timeFits, hminds.1, fun _ ↦ rfl⟩
  | timer htask =>
    rw [htask] at hminds
    exact fun _ ↦ ⟨trivial, fun _ _ _ ↦ ⟨h.timeFits, hminds.1⟩⟩
  | expired htask =>
    rw [htask] at hminds
    exact h.processNext hminds
  | processing htask =>
    rw [htask] at hminds
    exact h.processNext hminds

end System

/-- The driver, with a block layer whose requests satisfy `P`, in a world that moves
as it likes. -/
def schedule (W : Type) (P : Request → Prop) (n speed : ℕ) : Turns Op Ans Trap System W where
  start s _ := s.IsStart n speed
  enters := System.Enters P
  drifts _ _ := True

/-- Whatever the emulator, the clock and the timers answer, the task does not sleep
past a pending batch, and never gets to complete a batch that is empty. -/
theorem wakeup_kept {W : Type} {G : Handler W Op Ans} {P : Request → Prop} {n speed : ℕ} {w : W}
    (h : (schedule W P n speed).Reachable G s w) :
    (s.LockFree → 0 < s.disk.nextResponseToReplyNum → s.task ≠ .sleeping false ∧
      ∀ time, s.task = .sleepingUntil time false → time ≤ s.disk.nextResponseToReplyTime) ∧
      ¬ (schedule W P n speed).Fails G s w .nothingPending := by
  have hturn : ∀ s (u : Unit) p, s.Wakeful → (schedule W P n speed).enters s p →
      p.wp anything (· ≠ .nothingPending) (fun s' _ ↦ s'.Wakeful) u :=
    fun s u p h hp ↦ h.turn hp
  have hstart (s : System) (hs : s.IsStart n speed) : s.Wakeful := by
    refine ⟨?_, ?_⟩
    · rw [TimeFits, hs.nextResponseToReplyTime]
      decide
    · rw [hs.task]
      trivial
  obtain ⟨u, -, hw⟩ := h.invariant (keeps_anything G) (fun _ _ _ _ _ ↦ trivial)
    (fun s v hs ↦ ⟨(), trivial, hstart s hs⟩) hturn
  have hminds := hw.minds
  refine ⟨fun _ hnum ↦ ⟨fun htask ↦ ?_, fun time htask ↦ ?_⟩, fun hf ↦ ?_⟩
  · rw [htask] at hminds
    exact Bool.false_ne_true (hminds.mp hnum.ne')
  · rw [htask] at hminds
    exact (hminds.2 rfl).le
  · exact hf.allowed (keeps_anything G) hturn (w := u) trivial hw rfl

theorem schedule_reachable {P : Request → Prop} {G : Handler World Op Ans} {n speed : ℕ} {w : World}
    (h : (turns P n speed).Reachable G s w) : (schedule World P n speed).Reachable G s w := by
  induction h with
  | start h => exact .start h.1
  | turn _ hent hrun ih => exact ih.turn hent hrun
  | drift _ hdrift _ => exact hdrift.elim

/-- The task is woken for a write and for the read that is over before it, and then sleeps until the
time of the read. -/
theorem wakeup_kept_two : ∃ s w s' w',
    (schedule World System.Usual 2 1000).Reachable (reliable (LONG_MAX - 1)) s w ∧
      s.task = .sleeping true ∧ 0 < s.disk.nextResponseToReplyNum ∧ s.task ≠ .sleeping false ∧
        (schedule World System.Usual 2 1000).Reachable (reliable (LONG_MAX - 1)) s' w' ∧
          s'.task = .sleepingUntil 513002 false ∧ 0 < s'.disk.nextResponseToReplyNum ∧
            513002 ≤ s'.disk.nextResponseToReplyTime ∧
              ¬ (schedule World System.Usual 2 1000).Fails (reliable (LONG_MAX - 1)) s' w'
                .nothingPending := by
  obtain ⟨⟨s, w⟩, hs, htask, hnum, ⟨s', w'⟩, hs', htask', hnum'⟩ : ∃ r ∈ session System.Usual 2 1000
      [.task, .strategy [writeAt 0 5, readAt 1 5]], r.1.task = .sleeping true ∧
        0 < r.1.disk.nextResponseToReplyNum ∧ ∃ r' ∈ continued System.Usual [.task] r,
          r'.1.task = .sleepingUntil 513002 false ∧ 0 < r'.1.disk.nextResponseToReplyNum := by
    decide +kernel
  have h := session_reachable hs
  have h' := (continued_counted hs').leads.reachable h
  have hlock : s.LockFree := fun hprocessing ↦ Task.noConfusion (htask.symm.trans hprocessing)
  have hlock' : s'.LockFree := fun hprocessing ↦ Task.noConfusion (htask'.symm.trans hprocessing)
  have hkept := wakeup_kept (schedule_reachable h')
  exact ⟨s, w, s', w', schedule_reachable h, htask, hnum,
    ((wakeup_kept (schedule_reachable h)).1 hlock hnum).1, schedule_reachable h', htask', hnum',
    (hkept.1 hlock' hnum').2 _ htask', hkept.2⟩

end Nctusde.EmulatorKernel

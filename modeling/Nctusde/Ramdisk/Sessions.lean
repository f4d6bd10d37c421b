import Nctusde.Library.Linearization
import Nctusde.Ramdisk.System

namespace Nctusde.Ramdisk

open BlockLayer Library Library.Program Wire

namespace System

variable {n speed now now' : ℤ} {s s' : System} {c : Cue} {cues : List Cue} {p : Prog System}

instance (s : System) : Decidable s.LockFree :=
  match h : s.task with
  | .processing now => .isFalse fun hfree ↦ hfree now h
  | .starting | .sleeping _ | .sleepingUntil _ _ | .expired =>
    .isTrue fun _ hprocessing ↦ nomatch h.symm.trans hprocessing

instance (s : System) (queue : List Request) : Decidable (s.Offers queue) :=
  decidable_of_iff ((∀ req ∈ queue, req.cmdType = .fs ∧ req.bytes ≤ 65536) ∧
    (s.submitted.map (·.1.tag) ++ queue.map (·.tag)).Nodup)
    ⟨fun h ↦ ⟨h.1, h.2⟩, fun h ↦ ⟨h.fs, h.fresh⟩⟩

/-- The next turn of the processing task. A task that was woken does not wait for its timer. -/
def attended (s : System) : Option (Prog System) :=
  match s.task with
  | .starting => some (.pure s.sleep)
  | .sleeping false => none
  | .sleeping true | .sleepingUntil _ true => some (.pure s.resleep)
  | .sleepingUntil time false => some (s.timerExpired time)
  | .expired => some s.wakeUp
  | .processing now => some (s.processNext now)

def cued (s : System) : Cue → Option (Prog System)
  | .strategy queue =>
    if s.LockFree ∧ s.queueStopped = false ∧ s.Offers queue then some (s.strategy queue) else none
  | .softirqDone tag queue =>
    match s.completing.find? fun req ↦ req.tag = tag with
    | none => none
    | some req => if s.LockFree ∧ s.Offers queue then some (s.softirqDone req queue) else none
  | .task => s.attended

theorem attended_attends (h : s.attended = some p) : Attends s p := by
  rw [attended] at h
  split at h
  · rename_i htask
    cases h
    exact .start htask
  · cases h
  · rename_i htask
    cases h
    exact .woken htask
  · rename_i htask
    cases h
    exact .interrupted htask
  · rename_i htask
    cases h
    exact .timer htask
  · rename_i htask
    cases h
    exact .expired htask
  · rename_i htask
    cases h
    exact .processing htask

theorem Attends.enters (h : Attends s p) : Enters s p := by
  cases h with
  | start htask => exact .start htask
  | woken htask => exact .woken htask
  | interrupted htask => exact .interrupted htask
  | timer htask => exact .timer htask
  | expired htask => exact .expired htask
  | processing htask => exact .processing htask

theorem cued_enters (h : s.cued c = some p) : Enters s p := by
  cases c with
  | strategy queue =>
    simp only [cued, Option.ite_none_right_eq_some, Option.some.injEq] at h
    obtain ⟨⟨hlock, hrun, hoff⟩, rfl⟩ := h
    exact .strategy hlock hrun hoff
  | softirqDone tag queue =>
    rw [cued] at h
    split at h
    · cases h
    rename_i req hfind
    simp only [Option.ite_none_right_eq_some, Option.some.injEq] at h
    obtain ⟨⟨hlock, hoff⟩, rfl⟩ := h
    exact .softirqDone hlock (List.mem_of_find?_eq_some hfind) hoff
  | task => exact (attended_attends h).enters

theorem cued_attends (h : s.cued c = some p) (hc : c.isTask = true) : Attends s p := by
  cases c with
  | task => exact attended_attends h
  | strategy queue => exact Bool.noConfusion hc
  | softirqDone tag queue => exact Bool.noConfusion hc

/-- A clock that counts its readings, and timers that are on time. -/
def answer (now : ℤ) : (o : Op) → Option (Ans o × ℤ)
  | .ktimeGet =>
    let t : ℤ := max (now + 1) 1
    some (t, t)
  | .hrtimerExpired time => some ((), max now time)

theorem plays_punctual : Plays punctual answer := by
  intro now o a now' h
  refine ⟨trivial, ?_⟩
  cases o with
  | ktimeGet =>
    cases h
    exact ⟨by omega, by omega, rfl⟩
  | hrtimerExpired time =>
    cases h
    exact ⟨le_max_left _ _, le_max_right _ _⟩

def continued (cues : List Cue) (r : System × ℤ) : Option (System × ℤ) :=
  Turns.play cued answer cues r.1 r.2

def session (n speed : ℤ) (cues : List Cue) : Option (System × ℤ) :=
  continued cues (loaded n speed, 0)

theorem continued_leads (h : continued cues (s, now) = some (s', now')) :
    (turns n speed).Leads punctual s now s' now' :=
  Turns.play_leads (fun _ _ _ ↦ cued_enters) plays_punctual h

theorem session_reachable (h : session n speed cues = some (s, now)) :
    (turns n speed).Reachable punctual s now :=
  (continued_leads h).reachable (.start ⟨loaded_isStart n speed, rfl⟩)

theorem punctual_timely : Extends punctual timely where
  admits _ _ _ := trivial
  answers _ o _ _ hans := by
    cases o with
    | ktimeGet => exact ⟨hans.1, hans.2.2⟩
    | hrtimerExpired time => exact hans

theorem punctual_clock : Realises punctual clock fun v w ↦ v ≤ w where
  admits _ _ _ _ _ := trivial
  answers v w o a w' hle _ hans := by
    cases o with
    | ktimeGet => exact ⟨w', ⟨hle.trans hans.1, hans.2.1, hans.2.2⟩, le_rfl⟩
    | hrtimerExpired time => exact ⟨v, rfl, hle.trans hans.1⟩

theorem session_timely (h : session n speed cues = some (s, now)) :
    (turns n speed).Reachable timely s now :=
  reachable_extends punctual_timely (session_reachable h)

theorem session_clock (h : session n speed cues = some (s, now)) :
    ∃ v, (turns n speed).Reachable clock s v := by
  obtain ⟨log, hlog⟩ := (session_reachable h).observed fun _ _ ↦ ([] : List Unit)
  obtain ⟨v, hv, -⟩ := hlog.realised punctual_clock (fun s v h ↦ ⟨v, h, le_rfl⟩)
    fun _ _ _ (hd : False) ↦ hd.elim
  exact ⟨v, hv.reachable⟩

end System

def sectorWrite (tag pos : ℕ) : Request := ⟨tag, .fs, .write, pos, [List.replicate 512 7]⟩

def sectorRead (tag pos : ℕ) : Request := ⟨tag, .fs, .read, pos, [List.replicate 512 0]⟩

end Nctusde.Ramdisk

import Nctusde.EmulatorKernel.Init
import Nctusde.EmulatorKernel.System
import Nctusde.Library.Linearization

namespace Nctusde.EmulatorKernel

open BlockLayer Library Library.Program Network UdpServer Wire

namespace System

instance (s : System) : Decidable s.LockFree := inferInstanceAs (Decidable (¬ s.task = .processing))

instance : DecidablePred Usual := fun _ ↦ inferInstanceAs (Decidable (_ ∧ _))

/-- The next turn of the processing task. A task that was woken does not wait for its timer. -/
def attended (s : System) : Option (Prog System) :=
  match s.task with
  | .starting => some (.pure s.sleep)
  | .sleeping false => none
  | .sleeping true | .sleepingUntil _ true => some (.pure s.resleep)
  | .sleepingUntil time false => some (s.timerExpired time)
  | .expired | .processing => some s.processNext

def cued (P : Request → Prop) [DecidablePred P] (s : System) : Cue → Option (Prog System)
  | .strategy queue =>
    if s.LockFree ∧ s.queueStopped = false ∧ ∀ req ∈ queue, P req then some (s.strategy queue)
    else none
  | .softirqDone tag queue =>
    match s.completing.find? fun req ↦ req.tag = tag with
    | none => none
    | some req => if s.LockFree ∧ ∀ req ∈ queue, P req then some (s.softirqDone req queue) else none
  | .task => s.attended

variable {P : Request → Prop} {s : System} {c : Cue} {p : Prog System}

theorem attended_attends (h : s.attended = some p) : Attends s p := by
  rw [attended] at h
  split at h
  · rename_i htask
    cases h
    exact .start htask
  · cases h
  · rename_i htask
    cases h
    exact .woken htask
  · rename_i htask
    cases h
    exact .interrupted htask
  · rename_i htask
    cases h
    exact .timer htask
  · rename_i htask
    cases h
    exact .expired htask
  · rename_i htask
    cases h
    exact .processing htask

theorem Attends.enters (P : Request → Prop) (h : Attends s p) : Enters P s p := by
  cases h with
  | start htask => exact .start htask
  | woken htask => exact .woken htask
  | interrupted htask => exact .interrupted htask
  | timer htask => exact .timer htask
  | expired htask => exact .expired htask
  | processing htask => exact .processing htask

theorem cued_enters [DecidablePred P] (h : s.cued P c = some p) : Enters P s p := by
  cases c with
  | strategy queue =>
    simp only [cued, Option.ite_none_right_eq_some, Option.some.injEq] at h
    obtain ⟨⟨hlock, hrun, hqueue⟩, rfl⟩ := h
    exact .strategy hlock hrun hqueue
  | softirqDone tag queue =>
    rw [cued] at h
    split at h
    · cases h
    rename_i req hfind
    simp only [Option.ite_none_right_eq_some, Option.some.injEq] at h
    obtain ⟨⟨hlock, hqueue⟩, rfl⟩ := h
    exact .softirqDone hlock (List.mem_of_find?_eq_some hfind) hqueue
  | task => exact (attended_attends h).enters P

theorem cued_attends [DecidablePred P] (h : s.cued P c = some p) (hc : c.isTask = true) :
    Attends s p := by
  cases c with
  | task => exact attended_attends h
  | strategy queue => exact Bool.noConfusion hc
  | softirqDone tag queue => exact Bool.noConfusion hc

def loaded (n speed : ℕ) : System where
  disk := (Emudisk.initial n speed fun _ _ ↦ 0).numbered
  queueStopped := false
  task := .starting
  completing := []
  submitted := []
  completed := []

theorem loaded_isStart (n speed : ℕ) : IsStart n speed (loaded n speed) :=
  ⟨rfl, rfl, rfl, rfl, rfl, rfl, rfl, rfl, fun _ _ ↦ rfl, rfl, rfl, rfl, rfl, rfl⟩

end System

instance (top : ℤ) (sim : MySSDSim) (request : NctussEmuRequest) :
    Decidable (Fits top sim request) :=
  decidable_of_iff (request.type = NctussEmuRequestType.submitReqeust.code →
    ∀ k ∈ requestSizeIndex (toInt (request.data5.toNat * SECTOR_SIZE)),
      Server.time64 request + sim.serviceTime
        (sim.isSequentialRequest request.data3.toNat request.data4.toNat) request.data3.toNat k ≤
          top) Iff.rfl

/-- The emulator answers, the clock counts its readings, and timers are on time. -/
def World.answer (top : ℤ) (w : World) : (o : Op) → Option (Ans o × World)
  | .communicate request data =>
    if request.id ≠ 0 ∧ Fits top w.sim request then
      match w.server.receive (datagramOf request data) with
      | .loop server (some reply) =>
        if (NctussEmuReply.decode reply).id = request.id then
          some (reply, { w with
            server := server
            given := w.given ++ granted w.server.mySSDSim server.mySSDSim request })
        else none
      | _ => none
    else none
  | .ktimeGet =>
    let t := max (w.now + 1) w.passed
    if t ≤ LONG_MAX then some (t, { w with now := t }) else none
  | .hrtimerExpired time => some ((), { w with passed := max w.passed time })

theorem plays_reliable (top : ℤ) : Plays (reliable top) (World.answer top) := by
  intro w o a w' h
  cases o with
  | communicate request data =>
    simp only [World.answer, Option.ite_none_right_eq_some] at h
    obtain ⟨hadmits, h⟩ := h
    split at h
    · rename_i server reply hrec
      simp only [Option.ite_none_right_eq_some, Option.some.injEq] at h
      obtain ⟨hid, heq⟩ := h
      cases heq
      exact ⟨hadmits, server, hrec, hid, rfl⟩
    · cases h
  | ktimeGet =>
    simp only [World.answer, Option.ite_none_right_eq_some, Option.some.injEq] at h
    obtain ⟨hle, heq⟩ := h
    cases heq
    exact ⟨trivial, (lt_add_one _).trans_le (le_max_left _ _), le_max_right _ _, hle, rfl⟩
  | hrtimerExpired time =>
    cases h
    exact ⟨trivial, rfl⟩

def World.booted : Outcome → Option World
  | .loop server (some _) => some ⟨server, 0, 0, []⟩
  | _ => none

theorem World.booted_eq_some {outcome : Outcome} {w : World} (h : booted outcome = some w) :
    (∃ b, outcome = .loop w.server (some b)) ∧ w.now = 0 ∧ w.passed = 0 ∧ w.given = [] := by
  unfold booted at h
  split at h
  · cases h
    exact ⟨⟨_, rfl⟩, rfl, rfl, rfl⟩
  · cases h

section

variable (P : Request → Prop) [DecidablePred P] (n speed : ℕ) (cues : List Cue)

def continued (r : System × World) : Option (System × World) :=
  Turns.play (System.cued P) (World.answer (LONG_MAX - 1)) cues r.1 r.2

def session : Option (System × World) :=
  (World.booted (Server.zeroed.receive (datagramOf (System.loaded n speed).bootRequest []))).bind
    fun w ↦ continued P cues (System.loaded n speed, w)

end

variable {P : Request → Prop} [DecidablePred P] {n speed : ℕ} {cues : List Cue} {s s' : System}
  {w w' : World}

theorem continued_counted (h : continued P cues (s, w) = some (s', w')) :
    (turns P n speed).Counted (reliable (LONG_MAX - 1)) System.Attends s w
      (cues.countP Cue.isTask) s' w' := by
  have hmine (s : System) (c : Cue) (q : Prog System) (hq : s.cued P c = some q)
      (hc : c.isTask = true) : System.Attends s q := System.cued_attends hq hc
  have hcounted := Turns.play_counted (T := turns P n speed) (fun _ _ _ ↦ System.cued_enters) hmine
    (plays_reliable _) .here h
  rwa [Nat.zero_add] at hcounted

theorem session_reachable (h : session P n speed cues = some (s, w)) :
    (turns P n speed).Reachable (reliable (LONG_MAX - 1)) s w := by
  obtain ⟨w₀, hw₀, h⟩ := Option.bind_eq_some_iff.mp h
  obtain ⟨⟨b, hserver⟩, hnow, hpassed, hgiven⟩ := World.booted_eq_some hw₀
  exact (continued_counted h).leads.reachable (.start ⟨System.loaded_isStart n speed,
    ⟨⟨_, b, hserver⟩, hnow, hpassed, hgiven⟩⟩)

theorem continued_pass (htask : s.task = .expired ∨ s.task = .processing)
    (h : continued P [.task] (s, w) = some (s', w')) :
    s.processNext.Runs (reliable (LONG_MAX - 1)) w (.ok s') w' := by
  obtain ⟨p, s₁, w₁, hp, hplay, hrest⟩ := Turns.play_cons h
  cases hrest
  have hp : s.attended = some p := hp
  rw [System.attended] at hp
  rcases htask with htask | htask
  · rw [htask] at hp
    cases hp
    exact play_runs (plays_reliable _) hplay
  · rw [htask] at hp
    cases hp
    exact play_runs (plays_reliable _) hplay

def Op.message : Op → Option (NctussEmuRequest × Bytes)
  | .communicate request data => some (request, data)
  | _ => none

theorem Op.message_eq_some {o : Op} {m : NctussEmuRequest × Bytes} (h : o.message = some m) :
    o = .communicate m.1 m.2 := by
  cases o with
  | communicate request data =>
    cases h
    rfl
  | ktimeGet => cases h
  | hrtimerExpired time => cases h

def writeAt (tag pos : ℕ) : Request := ⟨tag, .fs, .write, pos, [List.replicate SECTOR_SIZE 7]⟩

def readAt (tag pos : ℕ) : Request := ⟨tag, .fs, .read, pos, [List.replicate SECTOR_SIZE 0]⟩

end Nctusde.EmulatorKernel

import Nctusde.EmulatorKernel.Service

namespace Nctusde.EmulatorKernel

open BlockLayer Library Library.Program Library.Table Network UdpServer Wire

variable {n speed k : ℕ} {top : ℤ} {s s' s'' : System} {w w' w'' : World} {G : Handler World Op Ans}

/-- `k` jumps to `process_next_without_sleep` in a row, with the lock held all along. -/
inductive Jumps (G : Handler World Op Ans) : ℕ → System → World → System → World → Prop
  | none (s : System) (w : World) : Jumps G 0 s w s w
  | jump {k : ℕ} {s s' s'' : System} {w w' w'' : World} : s.processNext.Runs G w (.ok s') w' →
      s'.task = .processing → Jumps G k s' w' s'' w'' → Jumps G (k + 1) s w s'' w''

theorem findNext_pending {V : Type} (G : Handler V Op Ans) (s : System) (v : V) :
    s.findNext.wp G.contract (fun _ ↦ True) (fun s' _ ↦ s'.disk.pending = s.disk.pending) v := by
  have hnumbered : s.disk.numbered.pending = s.disk.pending :=
    Emudisk.pending_same (sameRequests_numbered _)
  have hreplace (next : NextResponses) : (s.disk.numbered.replace next).pending = s.disk.pending :=
    (SameBooks.replace s.disk.numbered next).pending.trans hnumbered
  have hresponses : (s.disk.emulatorGetResponses s.disk.latestResponseTime).wp G.contract
      (fun _ ↦ True) (fun r _ ↦ r.1 = s.disk.numbered) v := by
    rw [Emudisk.emulatorGetResponses, Program.bind_eq, Program.wp_bind]
    refine Program.wp_mono (fun b v' _ ↦ ?_) (Program.wp_true _ _)
    rw [Program.bind_eq, Program.wp_bind]
    exact Program.wp_mono (fun _ _ _ ↦ rfl) (Program.wp_true _ _)
  rw [System.findNext, Program.bind_eq, Program.wp_bind]
  refine Program.wp_mono (fun r v' hr ↦ ?_) hresponses
  obtain ⟨disk, next⟩ := r
  obtain rfl : disk = s.disk.numbered := hr
  dsimp only
  split
  · split
    · trivial
    refine fun _ ↦ ⟨trivial, fun t v'' _ ↦ ?_⟩
    dsimp only [Program.bind]
    split
    · exact hreplace next
    · exact hreplace next
  · exact hreplace next

/-- A pass that has its batch takes every request of it out of the mapping. -/
theorem Invariant.pass (h : Invariant n top s w) (hG : Program.Keeps G (owed top) Eq)
    (hnum : s.disk.nextResponseToReplyNum ≠ 0)
    (hdue : ∀ t, w.now < t → w.passed ≤ t → s.disk.nextResponseToReplyTime ≤ t)
    (hrun : s.processNext.Runs G w (.ok s') w') :
    s'.disk.pending.length + s.disk.nextResponseToReplyNum = s.disk.pending.length := by
  obtain ⟨t', hat⟩ := h.batch.at hnum
  rw [System.processNext, Program.bind_eq] at hrun
  obtain ⟨t, w₁, hread, hrun⟩ := runs_bind_ok.mp hrun
  obtain ⟨_, rfl, ht, hpassed, hmax, rfl⟩ := (wp_runs hG rfl
    (wp_reading (E := fun _ ↦ True) (w := w)
      (Q := fun t v ↦ w.now < t ∧ w.passed ≤ t ∧ t ≤ LONG_MAX ∧ v = { w with now := t })
      fun t ht hpassed hmax ↦ ⟨ht, hpassed, hmax, rfl⟩) hread).1 t rfl
  obtain ⟨hnow, hnext⟩ := h.inOrder hat ht hmax
  have hle : t' ≤ t := hat.time ▸ hdue t ht hpassed
  rw [if_neg hnow, if_neg hnext, if_neg hnum, Program.bind_eq] at hrun
  obtain ⟨s₁, w₂, hbatch, hfind⟩ := runs_bind_ok.mp hrun
  obtain ⟨_, rfl, rfl, hreplies⟩ := (wp_runs hG rfl (wp_completeBatch (E := fun _ ↦ True)
    (h.books.read t) (h.synced.read ht hmax) hat hle) hbatch).1 s₁ rfl
  obtain ⟨_, rfl, hpending⟩ :=
    (wp_runs (keeps_contract G) rfl (findNext_pending G s₁ _) hfind).1 s' rfl
  have hsplit := (w.sim.busyAfter_split hat.next.later hat.next.least).length_eq
  have hbusy := h.synced.busy.length_eq
  have hleft : (s₁.disk.pending.map fun p ↦ (p.1.toNat : ℤ)).length =
      ((w.sim.completingAt t').drop s.disk.nextResponseToReplyNum ++ w.sim.busyAfter t').length :=
    hreplies.pending.length_eq
  rw [hat.num, List.drop_length, List.nil_append, List.length_map] at hleft
  rw [List.length_append] at hsplit
  rw [List.length_map] at hbusy
  rw [hpending, hat.num]
  omega

theorem Invariant.pending_pos (h : Invariant n top s w) (hnum : s.disk.nextResponseToReplyNum ≠ 0) :
    0 < s.disk.pending.length := by
  obtain ⟨t', hat⟩ := h.batch.at hnum
  have hsplit := (w.sim.busyAfter_split hat.next.later hat.next.least).length_eq
  have hbusy := h.synced.busy.length_eq
  have hpos := hat.next.length_pos
  rw [List.length_append] at hsplit
  rw [List.length_map] at hbusy
  omega

theorem enters_processing {P : Request → Prop} {p : Prog System} (htask : s.task = .processing)
    (hp : System.Enters P s p) : p = s.processNext := by
  cases hp with
  | strategy hlock _ _ => exact absurd htask hlock
  | softirqDone hlock _ _ => exact absurd htask hlock
  | start h => exact nomatch htask.symm.trans h
  | woken h => exact nomatch htask.symm.trans h
  | interrupted h => exact nomatch htask.symm.trans h
  | timer h => exact nomatch htask.symm.trans h
  | expired h => exact nomatch htask.symm.trans h
  | processing _ => rfl

/-- What the processing task has while it holds the lock: its batch, and the right to reply it. -/
structure Passes (n : ℕ) (top : ℤ) (s : System) (w : World) : Prop where
  invariant : Invariant n top s w
  num : s.disk.nextResponseToReplyNum ≠ 0
  due : ∀ t, w.now < t → w.passed ≤ t → s.disk.nextResponseToReplyTime ≤ t

theorem Invariant.passes_expired (h : Invariant n top s w) (htask : s.task = .expired) :
    Passes n top s w := by
  have hminds := h.minds
  have hdue := h.due
  rw [htask] at hminds hdue
  exact ⟨h, hminds, fun t _ hpassed ↦ hdue.trans hpassed⟩

theorem Invariant.passes_processing (h : Invariant n top s w) (htask : s.task = .processing) :
    Passes n top s w := by
  have hminds := h.minds
  have hdue := h.due
  rw [htask] at hminds hdue
  exact ⟨h, hminds, fun t ht _ ↦ (hdue.trans ht).le⟩

theorem Passes.pass (h : Passes n top s w) (hG : Program.Keeps G (owed top) Eq)
    (hn : n ≤ MAX_DISK_REQUESTS_IN_PARALLEL) (hrun : s.processNext.Runs G w (.ok s') w') :
    Invariant n top s' w' ∧ s'.disk.pending.length < s.disk.pending.length := by
  obtain ⟨_, rfl, hi⟩ := (wp_runs hG rfl
    (h.invariant.processNext (E := fun _ ↦ True) hn h.num h.due) hrun).1 s' rfl
  have hpass := h.invariant.pass hG h.num h.due hrun
  have hnum := h.num
  exact ⟨hi, by omega⟩

theorem Passes.jump (h : Passes n top s w) (hG : Program.Keeps G (owed top) Eq)
    (hn : n ≤ MAX_DISK_REQUESTS_IN_PARALLEL) (hrun : s.processNext.Runs G w (.ok s') w')
    (htask : s'.task = .processing) :
    Passes n top s' w' ∧ s'.disk.pending.length < s.disk.pending.length := by
  obtain ⟨hi, hlt⟩ := h.pass hG hn hrun
  exact ⟨hi.passes_processing htask, hlt⟩

theorem Jumps.passes (h : Jumps G k s w s' w') (hG : Program.Keeps G (owed top) Eq)
    (hn : n ≤ MAX_DISK_REQUESTS_IN_PARALLEL) (hp : Passes n top s w) :
    Passes n top s' w' ∧ s'.disk.pending.length + k ≤ s.disk.pending.length := by
  induction h with
  | none s w => exact ⟨hp, le_rfl⟩
  | jump hrun htask _ ih =>
    obtain ⟨hp', hlt⟩ := hp.jump hG hn hrun htask
    obtain ⟨hp'', hle⟩ := ih hp'
    exact ⟨hp'', by omega⟩

theorem Jumps.task (h : Jumps G k s w s' w') (hk : 0 < k) : s'.task = .processing := by
  induction h with
  | none s w => exact absurd hk (lt_irrefl 0)
  | @jump k _ _ _ _ _ _ _ htask hrest ih =>
    rcases Nat.eq_zero_or_pos k with rfl | hpos
    · cases hrest
      exact htask
    · exact ih hpos

/-- The requests that are not replied, in the mapping and in the server's channels alike. -/
def Matched (s : System) (w : World) : Prop :=
  (w.sim.busyAfter s.disk.latestResponseTime).Perm (s.disk.pending.map fun p ↦ (p.1.toNat : ℤ))

/-- One wake-up of the processing task jumps back at most `disk_channels - 1` times before it
lets go of the lock: each pass, the last one included, takes requests out of the mapping and of the
server's channels, and while the lock is held none is added and no pass gets caught. -/
theorem catchUp_ends (h1 : 1 ≤ n) (hn : n ≤ MAX_DISK_REQUESTS_IN_PARALLEL)
    (h : (turns System.Usual n speed).Reachable (reliable LONG_MAX) s w) (htask : s.task = .expired)
    (hjumps : Jumps (reliable LONG_MAX) k s w s' w') :
    (k : ℤ) ≤ s.disk.diskChannels - 1 ∧ s'.disk.pending.length + k ≤ s.disk.pending.length ∧
      Matched s' w' ∧
      (∀ s'' w'', s'.processNext.Runs (reliable LONG_MAX) w' (.ok s'') w'' →
        s''.disk.pending.length < s'.disk.pending.length ∧ Matched s'' w'') ∧
      (∀ e w'', ¬ s'.processNext.Runs (reliable LONG_MAX) w' (.error e) w'') ∧
      (0 < k → ∀ p, System.Enters System.Usual s' p → p = s'.processNext) := by
  have hG := keeps_reliable LONG_MAX
  obtain ⟨hi, -, -⟩ := reachable_invariant hG h1 hn (by decide) le_rfl h
  obtain ⟨hp, hle⟩ := hjumps.passes hG hn (hi.passes_expired htask)
  have hpos := hp.invariant.pending_pos hp.num
  have hchannels := hi.books.diskChannels
  have hinflight := hi.books.inflight
  have hbounded := hi.books.bounded
  refine ⟨by omega, hle, hp.invariant.synced.busy, fun s'' w'' hrun ↦ ?_, fun e w'' hrun ↦ ?_,
    fun hk p hent ↦ enters_processing (hjumps.task hk) hent⟩
  · obtain ⟨hi'', hlt⟩ := hp.pass hG hn hrun
    exact ⟨hlt, hi''.synced.busy⟩
  · exact (wp_runs hG rfl
      (hp.invariant.processNext (E := fun _ ↦ False) hn hp.num hp.due) hrun).2 e rfl

theorem extends_reliable {top' : ℤ} (h : top ≤ top') : Extends (reliable top) (reliable top') where
  admits w o ha := by
    cases o with
    | communicate request data => exact ⟨ha.1, fun hs k hk ↦ (ha.2 hs k hk).trans h⟩
    | ktimeGet => trivial
    | hrtimerExpired time => trivial
  answers _ _ _ _ hans := hans

/-- A wake-up for a read that finds a write, which is due by then, and jumps back for it. -/
theorem catchUp_ends_two : ∃ s w s' w' s'' w'',
    (turns System.Usual 2 0).Reachable (reliable LONG_MAX) s w ∧ s.task = .expired ∧
      s.disk.pending.length = 2 ∧ Jumps (reliable LONG_MAX) 1 s w s' w' ∧
        (1 : ℤ) ≤ s.disk.diskChannels - 1 ∧
          s'.processNext.Runs (reliable LONG_MAX) w' (.ok s'') w'' ∧ s''.LockFree ∧
            s''.disk.pending.length < s'.disk.pending.length ∧
              s'.disk.pending.length + 1 ≤ s.disk.pending.length := by
  obtain ⟨⟨s, w⟩, hs, htask, hpending, ⟨s', w'⟩, hs', htask', ⟨s'', w''⟩, hs'', hlock⟩ :
      ∃ r ∈ session System.Usual 2 0 [.task, .strategy [writeAt 0 5, readAt 1 5], .task, .task],
        r.1.task = .expired ∧ r.1.disk.pending.length = 2 ∧
          ∃ r' ∈ continued System.Usual [.task] r, r'.1.task = .processing ∧
            ∃ r'' ∈ continued System.Usual [.task] r', r''.1.LockFree := by
    decide +kernel
  have hextends := extends_reliable (show LONG_MAX - 1 ≤ LONG_MAX by decide)
  have h := reachable_extends hextends (session_reachable hs)
  have hjumps : Jumps (reliable LONG_MAX) 1 s w s' w' :=
    .jump ((continued_pass (.inl htask) hs').extends hextends) htask' (.none s' w')
  have hpass := (continued_pass (.inr htask') hs'').extends hextends
  obtain ⟨hk, hleft, -, hremoves, -⟩ := catchUp_ends (by decide) (by decide) h htask hjumps
  exact ⟨s, w, s', w', s'', w'', h, htask, hpending, hjumps, hk, hpass, hlock,
    (hremoves s'' w'' hpass).1, hleft⟩

end Nctusde.EmulatorKernel

import Mathlib.Data.Finset.Lattice.Basic
import Mathlib.Data.Finset.Option
import Mathlib.Data.Multiset.AddSub
import Nctusde.ModuleInit

namespace Nctusde.ModuleInit

namespace Kernel

variable (k : Kernel)

def putDisk (gd : ℕ) : Kernel := { k with gendisks := k.gendisks.erase gd }

def iounmap (data : ℕ) : Kernel := { k with mappings := k.mappings.erase data }

def add (k l : Kernel) : Kernel where
  blkdevs := k.blkdevs ∪ l.blkdevs
  queues := k.queues ∪ l.queues
  gendisks := k.gendisks ∪ l.gendisks
  mappings := k.mappings ∪ l.mappings
  netdevRefs := k.netdevRefs + l.netdevRefs

end Kernel

/-- `emudisk_exit` as far as it gives back what is registered. The objects are those that the load
got, and `Emudisk.major` is its major. -/
def releaseDisk (c : Calls) (k : Kernel) : Kernel :=
  (((k.putDisk (c.gd.getD 0)).blkCleanupQueue (c.queue.getD 0)).unregisterBlkdev c.devMajor
    "nctuss_emudisk").iounmap (c.data.getD 0)

/-- `close_ethernet_channel` does nothing, and the device is not put. -/
def EmulatorKernel.emudiskExit : Calls → Kernel → Kernel := releaseDisk

def Ramdisk.emudiskExit : Calls → Kernel → Kernel := releaseDisk

/-- The module is loaded, and unloaded again if it was. -/
def cycle (init : Calls → Kernel → ℤ × Kernel) (exit : Calls → Kernel → Kernel) (k : Kernel)
    (c : Calls) : Kernel :=
  if (init c k).1 = 0 then exit c (init c k).2 else (init c k).2

/-- The kernel gives away what is not in use. -/
structure Calls.Fresh (c : Calls) (k : Kernel) : Prop where
  fits : c.Fits k
  queue : ∀ queue, c.queue = some queue → queue ∉ k.queues
  gd : ∀ gd, c.gd = some gd → gd ∉ k.gendisks
  data : ∀ data, c.data = some data → data ∉ k.mappings

def Calls.diskLeft (c : Calls) : Option Call → Kernel
  | some .blkInitQueue | some .allocDisk =>
    { Kernel.empty with blkdevs := {(c.devMajor, "nctuss_emudisk")} }
  | some .ioremapNocache =>
    { Kernel.empty with
      blkdevs := {(c.devMajor, "nctuss_emudisk")}
      gendisks := c.gd.toFinset }
  | some .openEthernetChannel =>
    { Kernel.empty with
      blkdevs := {(c.devMajor, "nctuss_emudisk")}
      queues := c.queue.toFinset
      gendisks := c.gd.toFinset
      mappings := c.data.toFinset }
  | _ => Kernel.empty

def Ramdisk.left (c : Calls) : Kernel := c.diskLeft (c.firstFailure calls)

/-- Once it was got, the reference to the device stays, also after the module was unloaded. -/
def EmulatorKernel.left (c : Calls) : Kernel :=
  { c.diskLeft (c.firstFailure calls) with
    netdevRefs :=
      if c.fails .diskChannels ∨ c.fails .getMyIpiBase ∨
        c.fails .devGetByName then 0 else {"eth0"} }

variable {c : Calls} {k : Kernel} {rest : Kernel → ℤ × Kernel} {more : List Call}
  {queue gd data : ℕ}

theorem Kernel.add_empty (k : Kernel) : k.add .empty = k := by
  simp only [add, empty, Finset.union_empty, add_zero]

theorem erase_emudisk0 (h : c.Fits k) (hmajor : 0 < c.devMajor) :
    (insert (c.devMajor, "nctuss_emudisk") k.blkdevs).erase (c.devMajor, "emudisk0") =
      k.blkdevs ∪ {(c.devMajor, "nctuss_emudisk")} := by
  rw [Finset.union_singleton]
  refine Finset.erase_eq_of_notMem fun hmem ↦ ?_
  rcases Finset.mem_insert.mp hmem with heq | hold
  · have hname : "emudisk0" = "nctuss_emudisk" := congrArg Prod.snd heq
    exact absurd hname (by decide)
  · exact h hmajor _ hold

theorem firstFailure_here {call : Call} {calls : List Call} (h : c.fails call = true) :
    c.firstFailure (call :: calls) = some call := List.find?_cons_of_pos h

def Kernel.withDisk (k : Kernel) (devMajor : ℤ) (queue gd data : ℕ) : Kernel :=
  { k with
    blkdevs := insert (devMajor, "nctuss_emudisk") k.blkdevs
    queues := insert queue k.queues
    gendisks := insert gd k.gendisks
    mappings := insert data k.mappings }

theorem releaseDisk_withDisk (h : c.Fresh k) (hmajor : 0 < c.devMajor)
    (hqueue : c.queue = some queue)
    (hgd : c.gd = some gd) (hdata : c.data = some data) :
    releaseDisk c (k.withDisk c.devMajor queue gd data) = k := by
  simp only [releaseDisk, Kernel.withDisk, Kernel.putDisk, Kernel.blkCleanupQueue,
    Kernel.unregisterBlkdev, Kernel.iounmap, hqueue, hgd, hdata, Option.getD_some]
  rw [Finset.erase_insert (h.fits hmajor _), Finset.erase_insert (h.queue _ hqueue),
    Finset.erase_insert (h.gd _ hgd), Finset.erase_insert (h.data _ hdata)]

def diskCycle (c : Calls) (k : Kernel) (rest : Kernel → ℤ × Kernel) : Kernel :=
  if (registerDisk c k rest).1 = 0 then releaseDisk c (registerDisk c k rest).2
  else (registerDisk c k rest).2

theorem diskCycle_failed {k' : Kernel} (h : registerDisk c k rest = (-ENOMEM, k')) :
    diskCycle c k rest = k' := by
  rw [diskCycle, h]
  exact if_neg (show ¬ -ENOMEM = 0 by decide)

theorem diskCycle_made (h : c.Fresh k) (hmajor : 0 < c.devMajor) (hqueue : c.queue = some queue)
    (hgd : c.gd = some gd) (hdata : c.data = some data)
    (hmore : more = [] ∨ more = [.openEthernetChannel])
    (hrest : ∀ k', rest k' = if c.firstFailure more = none then (0, k') else (-EBUSY, k')) :
    diskCycle c k rest = k.add (c.diskLeft (c.firstFailure more)) := by
  have hdisk : registerDisk c k rest = rest (k.withDisk c.devMajor queue gd data) := by
    simp only [registerDisk, if_neg hmajor.not_ge, hqueue, hgd, hdata, Kernel.registerBlkdev,
      Kernel.blkInitQueue, Kernel.allocDisk, Kernel.ioremapNocache, Kernel.withDisk]
  rw [diskCycle, hdisk, hrest]
  by_cases hopen : c.firstFailure more = none
  · have hleft : c.diskLeft none = .empty := rfl
    rw [if_pos hopen, if_pos rfl, hopen, releaseDisk_withDisk h hmajor hqueue hgd hdata, hleft,
      Kernel.add_empty]
  · have hfailure : c.firstFailure more = some .openEthernetChannel := by
      rcases hmore with rfl | rfl
      · exact absurd rfl hopen
      · cases hfails : c.fails .openEthernetChannel with
        | true => exact firstFailure_here hfails
        | false => exact absurd (firstFailure_skip (Bool.not_eq_true _ ▸ hfails)) hopen
    rw [if_neg hopen, if_neg (show ¬ -EBUSY = 0 by decide), hfailure]
    simp only [Kernel.withDisk, Kernel.add, Calls.diskLeft, Kernel.empty, add_zero, hqueue, hgd,
      hdata, Option.toFinset_some, Finset.union_singleton]

theorem diskCycle_left (h : c.Fresh k) (hmore : more = [] ∨ more = [.openEthernetChannel])
    (hrest : ∀ k', rest k' = if c.firstFailure more = none then (0, k') else (-EBUSY, k')) :
    diskCycle c k rest = k.add (c.diskLeft (c.firstFailure (diskCalls ++ more))) := by
  rw [show diskCalls ++ more =
    .registerBlkdev :: .blkInitQueue :: .allocDisk :: .ioremapNocache :: more from rfl]
  by_cases hbusy : c.devMajor ≤ 0
  · have hfails : c.fails .registerBlkdev = true := decide_eq_true hbusy
    have hleft : c.diskLeft (some .registerBlkdev) = .empty := rfl
    rw [firstFailure_here hfails, hleft, Kernel.add_empty, diskCycle, registerDisk_busy hbusy]
    rfl
  have hmajor := not_le.mp hbusy
  have hmade : ¬ c.fails .registerBlkdev = true := fun hfails ↦ hbusy (of_decide_eq_true hfails)
  have hname := erase_emudisk0 h.fits hmajor
  rw [firstFailure_skip hmade]
  cases hqueue : c.queue with
  | none =>
    have hfails : c.fails .blkInitQueue = true := Option.isNone_iff_eq_none.mpr hqueue
    rw [firstFailure_here hfails]
    refine diskCycle_failed ?_
    simp only [registerDisk, if_neg hbusy, hqueue, errInitQueue, Kernel.registerBlkdev,
      Kernel.blkInitQueue, Kernel.unregisterBlkdev, hname, Kernel.add, Calls.diskLeft, Kernel.empty,
      Finset.union_empty, add_zero]
  | some queue =>
    have hqueues := Finset.erase_insert (h.queue _ hqueue)
    have hmade : ¬ c.fails .blkInitQueue = true := by
      rw [Calls.fails, hqueue]
      exact Bool.false_ne_true
    rw [firstFailure_skip hmade]
    cases hgd : c.gd with
    | none =>
      have hfails : c.fails .allocDisk = true := Option.isNone_iff_eq_none.mpr hgd
      rw [firstFailure_here hfails]
      refine diskCycle_failed ?_
      simp only [registerDisk, if_neg hbusy, hqueue, hgd, errNoGendisk, errInitQueue,
        Kernel.registerBlkdev, Kernel.blkInitQueue, Kernel.allocDisk, Kernel.blkCleanupQueue,
        Kernel.unregisterBlkdev, hname, hqueues, Kernel.add, Calls.diskLeft, Kernel.empty,
        Finset.union_empty, add_zero]
    | some gd =>
      have hmade : ¬ c.fails .allocDisk = true := by
        rw [Calls.fails, hgd]
        exact Bool.false_ne_true
      rw [firstFailure_skip hmade]
      cases hdata : c.data with
      | none =>
        have hfails : c.fails .ioremapNocache = true := Option.isNone_iff_eq_none.mpr hdata
        rw [firstFailure_here hfails]
        refine diskCycle_failed ?_
        simp only [registerDisk, if_neg hbusy, hqueue, hgd, hdata, errNoGendisk, errInitQueue,
          Kernel.registerBlkdev, Kernel.blkInitQueue, Kernel.allocDisk, Kernel.ioremapNocache,
          Kernel.blkCleanupQueue, Kernel.unregisterBlkdev, hname, hqueues,
            Kernel.add, Calls.diskLeft,
          Kernel.empty, Finset.union_empty, add_zero, Option.toFinset_some, Finset.union_singleton]
      | some data =>
        have hmade : ¬ c.fails .ioremapNocache = true := by
          rw [Calls.fails, hdata]
          exact Bool.false_ne_true
        rw [firstFailure_skip hmade]
        exact diskCycle_made h hmajor hqueue hgd hdata hmore hrest

theorem diskLeft_netdevRefs (failure : Option Call) : (c.diskLeft failure).netdevRefs = 0 := by
  unfold Calls.diskLeft
  split <;> rfl

theorem ramdisk_cycle (h : c.Fresh k) :
    cycle Ramdisk.emudiskInit Ramdisk.emudiskExit k c = k.add (Ramdisk.left c) := by
  rw [Ramdisk.left, show Ramdisk.calls = .diskChannels :: (diskCalls ++ []) from rfl]
  by_cases hchannels : c.fails .diskChannels = true
  · have hgt : c.diskChannels > Ramdisk.MAX_DISK_REQUESTS_IN_PARALLEL := of_decide_eq_true hchannels
    have hleft : c.diskLeft (some .diskChannels) = .empty := rfl
    rw [firstFailure_here hchannels, hleft, Kernel.add_empty, cycle,
      Ramdisk.emudiskInit, if_pos hgt]
    rfl
  have hinit : Ramdisk.emudiskInit c k = registerDisk c k fun k ↦ (0, k) :=
    if_neg (mt decide_eq_true hchannels)
  rw [firstFailure_skip hchannels, cycle, hinit]
  exact diskCycle_left h (.inl rfl) fun k' ↦ rfl

theorem emulatorKernel_cycle (h : c.Fresh k) :
    cycle EmulatorKernel.emudiskInit EmulatorKernel.emudiskExit k c =
      k.add (EmulatorKernel.left c) := by
  have hearly (hfails : c.fails .diskChannels ∨ c.fails .getMyIpiBase ∨ c.fails .devGetByName)
      (hleft : c.diskLeft (c.firstFailure EmulatorKernel.calls) = .empty)
      (hinit : (EmulatorKernel.emudiskInit c k).2 = k)
        (hret : (EmulatorKernel.emudiskInit c k).1 ≠ 0) :
      cycle EmulatorKernel.emudiskInit EmulatorKernel.emudiskExit k c =
        k.add (EmulatorKernel.left c) := by
    rw [cycle, if_neg hret, hinit, EmulatorKernel.left, hleft, if_pos hfails]
    exact k.add_empty.symm
  have hcalls : EmulatorKernel.calls = .diskChannels :: .getMyIpiBase :: .devGetByName ::
    (diskCalls ++ [.openEthernetChannel]) := rfl
  by_cases hchannels : c.fails .diskChannels = true
  · have hgt := of_decide_eq_true hchannels
    refine hearly (.inl hchannels) ?_ ?_ ?_
    · rw [hcalls, firstFailure_here hchannels]
      rfl
    · rw [EmulatorKernel.emudiskInit, if_pos hgt]
    · rw [EmulatorKernel.emudiskInit, if_pos hgt]
      exact show ¬ -EINVAL = 0 by decide
  have hle := mt decide_eq_true hchannels
  by_cases hipi : c.fails .getMyIpiBase = true
  · have hnone := Option.isNone_iff_eq_none.mp hipi
    refine hearly (.inr (.inl hipi)) ?_ ?_ ?_
    · rw [hcalls, firstFailure_skip hchannels, firstFailure_here hipi]
      rfl
    · rw [EmulatorKernel.emudiskInit, if_neg hle, if_pos hnone]
    · rw [EmulatorKernel.emudiskInit, if_neg hle, if_pos hnone]
      exact show ¬ (-1 : ℤ) = 0 by decide
  have hsome := mt Option.isNone_iff_eq_none.mpr hipi
  by_cases hndev : c.fails .devGetByName = true
  · have hnone := Option.isNone_iff_eq_none.mp hndev
    refine hearly (.inr (.inr hndev)) ?_ ?_ ?_
    · rw [hcalls, firstFailure_skip hchannels, firstFailure_skip hipi, firstFailure_here hndev]
      rfl
    · rw [EmulatorKernel.emudiskInit, if_neg hle, if_neg hsome, if_pos hnone, hnone]
      rfl
    · rw [EmulatorKernel.emudiskInit, if_neg hle, if_neg hsome, if_pos hnone]
      exact show ¬ -ENODEV = 0 by decide
  obtain ⟨ndev, hndev'⟩ := Option.ne_none_iff_exists'.mp (mt Option.isNone_iff_eq_none.mpr hndev)
  have hinit : EmulatorKernel.emudiskInit c k = registerDisk c
      { k with netdevRefs := "eth0" ::ₘ k.netdevRefs }
      fun k ↦ if c.openEthernetChannel ≠ 0 then (-EBUSY, k) else (0, k) := by
    rw [EmulatorKernel.emudiskInit, if_neg hle, if_neg hsome, hndev']
    rfl
  have hfresh : c.Fresh { k with netdevRefs := "eth0" ::ₘ k.netdevRefs } :=
    ⟨h.fits, h.queue, h.gd, h.data⟩
  have hopen (k' : Kernel) : (if c.openEthernetChannel ≠ 0 then (-EBUSY, k') else (0, k')) =
      if c.firstFailure [.openEthernetChannel] = none then (0, k') else (-EBUSY, k') := by
    by_cases hopen : c.fails .openEthernetChannel = true
    · rw [if_pos (of_decide_eq_true hopen), firstFailure_here hopen]
      rfl
    · rw [if_neg (mt decide_eq_true hopen), firstFailure_skip hopen]
      rfl
  have hdisk := diskCycle_left hfresh (.inr rfl) hopen
  rw [cycle, hinit]
  refine hdisk.trans ?_
  rw [EmulatorKernel.left, hcalls, firstFailure_skip hchannels, firstFailure_skip hipi,
    firstFailure_skip hndev, if_neg (not_or.mpr ⟨hchannels, not_or.mpr ⟨hipi, hndev⟩⟩)]
  generalize c.firstFailure (diskCalls ++ [.openEthernetChannel]) = failure
  simp only [Kernel.add, diskLeft_netdevRefs, add_zero]
  rw [Multiset.add_comm]
  rfl

/-- At each load the kernel gives away what is not in use. -/
def FreshRun (step : Kernel → Calls → Kernel) : Kernel → List Calls → Prop
  | _, [] => True
  | k, c :: cs => c.Fresh k ∧ FreshRun step (step k c) cs

def leftAll (left : Calls → Kernel) (cs : List Calls) : Kernel :=
  (cs.map left).foldr Kernel.add .empty

theorem Kernel.add_add (k l m : Kernel) : (k.add l).add m = k.add (l.add m) := by
  simp only [add, Finset.union_assoc, Multiset.add_assoc]

variable {step : Kernel → Calls → Kernel} {left : Calls → Kernel} {cs : List Calls}

theorem FreshRun.foldl (hstep : ∀ c k, c.Fresh k → step k c = k.add (left c))
    (h : FreshRun step k cs) : cs.foldl step k = k.add (leftAll left cs) := by
  induction cs generalizing k with
  | nil => exact k.add_empty.symm
  | cons c cs ih =>
    obtain ⟨hc, hcs⟩ := h
    have hrest := ih hcs
    rw [hstep c k hc] at hrest
    rw [List.foldl_cons, hstep c k hc, hrest, Kernel.add_add]
    rfl

theorem leftAll_empty (h : ∀ c ∈ cs, left c = .empty) : leftAll left cs = .empty := by
  induction cs with
  | nil => rfl
  | cons c cs ih =>
    obtain ⟨hc, hcs⟩ := List.forall_mem_cons.mp h
    rw [leftAll, List.map_cons, List.foldr_cons, ← leftAll, ih hcs, hc]
    exact Kernel.empty.add_empty

theorem leftAll_refs (h : ∀ c ∈ cs, left c = { Kernel.empty with netdevRefs := {"eth0"} }) :
    leftAll left cs = { Kernel.empty with netdevRefs := .replicate cs.length "eth0" } := by
  induction cs with
  | nil => rfl
  | cons c cs ih =>
    obtain ⟨hc, hcs⟩ := List.forall_mem_cons.mp h
    rw [leftAll, List.map_cons, List.foldr_cons, ← leftAll, ih hcs, hc]
    simp only [Kernel.add, Kernel.empty, Finset.union_empty, List.length_cons,
      Multiset.replicate_succ,
      Multiset.singleton_add]

theorem ramdisk_left_ok (h : c.firstFailure Ramdisk.calls = none) : Ramdisk.left c = .empty := by
  rw [Ramdisk.left, h]
  rfl

theorem emulatorKernel_left_ok (h : c.firstFailure EmulatorKernel.calls = none) :
    EmulatorKernel.left c = { Kernel.empty with netdevRefs := {"eth0"} } := by
  have hok := List.find?_eq_none.mp h
  have hget : ¬ (c.fails .diskChannels ∨ c.fails .getMyIpiBase ∨ c.fails .devGetByName) :=
    not_or.mpr ⟨hok _ (by decide), not_or.mpr ⟨hok _ (by decide), hok _ (by decide)⟩⟩
  rw [EmulatorKernel.left, h, if_neg hget]
  rfl

/-- However often a driver is loaded, and unloaded again where the load succeeded, exactly what the
failed loads leave stays, and of the emudisk a reference to the device for each load that got one.
Where no load fails, that is nothing of the ramdisk and one reference a load of the emudisk. -/
theorem cycles_leave (k : Kernel) (cs : List Calls) :
    (FreshRun (cycle Ramdisk.emudiskInit Ramdisk.emudiskExit) k cs →
      cs.foldl (cycle Ramdisk.emudiskInit Ramdisk.emudiskExit) k = k.add (leftAll Ramdisk.left cs) ∧
        ((∀ c ∈ cs, c.firstFailure Ramdisk.calls = none) →
          cs.foldl (cycle Ramdisk.emudiskInit Ramdisk.emudiskExit) k = k)) ∧
      (FreshRun (cycle EmulatorKernel.emudiskInit EmulatorKernel.emudiskExit) k cs →
        cs.foldl (cycle EmulatorKernel.emudiskInit EmulatorKernel.emudiskExit) k =
            k.add (leftAll EmulatorKernel.left cs) ∧
          ((∀ c ∈ cs, c.firstFailure EmulatorKernel.calls = none) →
            cs.foldl (cycle EmulatorKernel.emudiskInit EmulatorKernel.emudiskExit) k =
              { k with netdevRefs := k.netdevRefs + .replicate cs.length "eth0" })) := by
  constructor
  · intro hfresh
    have hleft := hfresh.foldl fun c k ↦ ramdisk_cycle
    refine ⟨hleft, fun hok ↦ ?_⟩
    rw [hleft, leftAll_empty fun c hc ↦ ramdisk_left_ok (hok c hc), Kernel.add_empty]
  · intro hfresh
    have hleft := hfresh.foldl fun c k ↦ emulatorKernel_cycle
    refine ⟨hleft, fun hok ↦ ?_⟩
    rw [hleft, leftAll_refs fun c hc ↦ emulatorKernel_left_ok (hok c hc)]
    simp only [Kernel.add, Kernel.empty, Finset.union_empty]

theorem fresh_of_empty (hblkdevs : ∀ dev ∈ k.blkdevs, dev.1 ≠ c.devMajor) (hqueues : k.queues = ∅)
    (hgendisks : k.gendisks = ∅) (hmappings : k.mappings = ∅) : c.Fresh k where
  fits _ _ hmem := hblkdevs _ hmem rfl
  queue _ _ := hqueues ▸ Finset.notMem_empty _
  gd _ _ := hgendisks ▸ Finset.notMem_empty _
  data _ _ := hmappings ▸ Finset.notMem_empty _

/-- Loaded without a request queue and then twice with all calls, the ramdisk leaves the major of
the failed load. -/
theorem cycles_leave_three :
    let cs := [{ Calls.ok with queue := none, devMajor := 251 }, .ok, .ok]
    (cs.foldl (cycle Ramdisk.emudiskInit Ramdisk.emudiskExit) .empty).blkdevs =
        {(251, "nctuss_emudisk")} ∧
      ([Calls.ok, .ok].foldl (cycle EmulatorKernel.emudiskInit EmulatorKernel.emudiskExit)
        .empty).netdevRefs = {"eth0", "eth0"} := by
  intro cs
  constructor
  · have hfresh : FreshRun (cycle Ramdisk.emudiskInit Ramdisk.emudiskExit) .empty cs := by
      refine ⟨?_, ?_, ?_, trivial⟩ <;>
        exact fresh_of_empty (by decide) (by decide) (by decide) (by decide)
    rw [((cycles_leave .empty cs).1 hfresh).1]
    decide
  · have hfresh : FreshRun (cycle EmulatorKernel.emudiskInit EmulatorKernel.emudiskExit) .empty
        [.ok, .ok] := by
      refine ⟨?_, ?_, trivial⟩ <;>
        exact fresh_of_empty (by decide) (by decide) (by decide) (by decide)
    rw [((cycles_leave .empty [.ok, .ok]).2 hfresh).2 (by decide)]
    decide

end Nctusde.ModuleInit

import Mathlib.Data.Finset.Basic
import Mathlib.Data.Int.Order.Basic
import Mathlib.Data.Multiset.AddSub
import Nctusde.EmulatorKernel.Main
import Nctusde.Ramdisk.Main

namespace Nctusde.ModuleInit

/-- What drivers register with the kernel or get from it: block majors under their names,
request queues, gendisks, I/O mappings, and a reference per entry of `netdevRefs`. -/
structure Kernel where
  blkdevs : Finset (ℤ × String)
  queues : Finset ℕ
  gendisks : Finset ℕ
  mappings : Finset ℕ
  netdevRefs : Multiset String
  deriving DecidableEq

/-- How the calls of `emudisk_init` end; a null pointer is `none`. -/
structure Calls where
  diskChannels : ℤ
  myIpiBase : Option ℕ
  ndev : Option ℕ
  devMajor : ℤ
  queue : Option ℕ
  gd : Option ℕ
  data : Option ℕ
  openEthernetChannel : ℤ

def EINVAL : ℤ := 22
def ENODEV : ℤ := 19
def EBUSY : ℤ := 16
def ENOMEM : ℤ := 12

namespace Kernel

variable (k : Kernel)

def devGetByName (name : String) : Option ℕ → Kernel
  | none => k
  | some _ => { k with netdevRefs := name ::ₘ k.netdevRefs }

def registerBlkdev (name : String) (devMajor : ℤ) : Kernel :=
  if devMajor ≤ 0 then k else { k with blkdevs := insert (devMajor, name) k.blkdevs }

/-- A major is removed only under the name it has. -/
def unregisterBlkdev (devMajor : ℤ) (name : String) : Kernel :=
  { k with blkdevs := k.blkdevs.erase (devMajor, name) }

def blkInitQueue : Option ℕ → Kernel
  | none => k
  | some queue => { k with queues := insert queue k.queues }

def blkCleanupQueue (queue : ℕ) : Kernel := { k with queues := k.queues.erase queue }

def allocDisk : Option ℕ → Kernel
  | none => k
  | some gd => { k with gendisks := insert gd k.gendisks }

def ioremapNocache : Option ℕ → Kernel
  | none => k
  | some data => { k with mappings := insert data k.mappings }

end Kernel

variable (c : Calls) (k : Kernel)

def errInitQueue : ℤ × Kernel := (-ENOMEM, k.unregisterBlkdev c.devMajor "emudisk0")

/-- `err_ioremap` and `err_no_gendisk`, which are one place. -/
def errNoGendisk (queue : ℕ) : ℤ × Kernel := errInitQueue c (k.blkCleanupQueue queue)

/-- `emudisk_init` from `register_blkdev` to `ioremap_nocache`, the same in both drivers, and
`rest` after that. -/
def registerDisk (rest : Kernel → ℤ × Kernel) : ℤ × Kernel :=
  let k := k.registerBlkdev "nctuss_emudisk" c.devMajor
  if c.devMajor ≤ 0 then (-EBUSY, k)
  else
    let k := k.blkInitQueue c.queue
    match c.queue with
    | none => errInitQueue c k
    | some queue =>
      let k := k.allocDisk c.gd
      match c.gd with
      | none => errNoGendisk c k queue
      | some _ =>
        let k := k.ioremapNocache c.data
        match c.data with
        | none => errNoGendisk c k queue
        | some _ => rest k

/-- `open_ethernet_channel` registers nothing, and the one in the source always returns 0. -/
def EmulatorKernel.emudiskInit : ℤ × Kernel :=
  if c.diskChannels > EmulatorKernel.MAX_DISK_REQUESTS_IN_PARALLEL then (-EINVAL, k)
  else if c.myIpiBase = none then (-1, k)
  else
    let k := k.devGetByName "eth0" c.ndev
    if c.ndev = none then (-ENODEV, k)
    else registerDisk c k fun k ↦ if c.openEthernetChannel ≠ 0 then (-EBUSY, k) else (0, k)

def Ramdisk.emudiskInit : ℤ × Kernel :=
  if c.diskChannels > Ramdisk.MAX_DISK_REQUESTS_IN_PARALLEL then (-EINVAL, k)
  else registerDisk c k fun k ↦ (0, k)

inductive Call
  | diskChannels
  | getMyIpiBase
  | devGetByName
  | registerBlkdev
  | blkInitQueue
  | allocDisk
  | ioremapNocache
  | openEthernetChannel
  deriving DecidableEq, Repr

def Calls.fails : Call → Bool
  | .diskChannels => c.diskChannels > EmulatorKernel.MAX_DISK_REQUESTS_IN_PARALLEL
  | .getMyIpiBase => c.myIpiBase.isNone
  | .devGetByName => c.ndev.isNone
  | .registerBlkdev => c.devMajor ≤ 0
  | .blkInitQueue => c.queue.isNone
  | .allocDisk => c.gd.isNone
  | .ioremapNocache => c.data.isNone
  | .openEthernetChannel => c.openEthernetChannel ≠ 0

def diskCalls : List Call := [.registerBlkdev, .blkInitQueue, .allocDisk, .ioremapNocache]

def EmulatorKernel.calls : List Call :=
  [.diskChannels, .getMyIpiBase, .devGetByName] ++ diskCalls ++ [.openEthernetChannel]

def Ramdisk.calls : List Call := .diskChannels :: diskCalls

def Calls.firstFailure (calls : List Call) : Option Call := calls.find? c.fails

/-- A load that returns an error leaves the kernel as it was. -/
def Clean (init : Kernel → ℤ × Kernel) (k : Kernel) : Prop := (init k).1 ≠ 0 → (init k).2 = k

/-- `register_blkdev` with major 0 gives a major that is not in use. -/
def Calls.Fits : Prop := 0 < c.devMajor → ∀ name, (c.devMajor, name) ∉ k.blkdevs

variable {c k} {rest : Kernel → ℤ × Kernel}

theorem errInitQueue_blkdevs (h : (c.devMajor, "nctuss_emudisk") ∈ k.blkdevs) :
    (c.devMajor, "nctuss_emudisk") ∈ (errInitQueue c k).2.blkdevs := by
  refine Finset.mem_erase.mpr ⟨fun heq ↦ ?_, h⟩
  have hname : "nctuss_emudisk" = "emudisk0" := congrArg Prod.snd heq
  exact absurd hname (by decide)

theorem registerDisk_blkdevs (h : 0 < c.devMajor)
    (hrest : ∀ k', (rest k').2.blkdevs = k'.blkdevs) :
    (c.devMajor, "nctuss_emudisk") ∈ (registerDisk c k rest).2.blkdevs := by
  have hin : (c.devMajor, "nctuss_emudisk") ∈
      (k.registerBlkdev "nctuss_emudisk" c.devMajor).blkdevs := by
    rw [Kernel.registerBlkdev, if_neg h.not_ge]
    exact Finset.mem_insert_self _ _
  rw [registerDisk, if_neg h.not_ge]
  split
  · rename_i hqueue
    rw [hqueue]
    exact errInitQueue_blkdevs hin
  · rename_i queue hqueue
    rw [hqueue]
    split
    · rename_i hgd
      rw [hgd]
      exact errInitQueue_blkdevs hin
    · rename_i gd hgd
      rw [hgd]
      split
      · rename_i hdata
        rw [hdata]
        exact errInitQueue_blkdevs hin
      · rename_i data hdata
        rw [hdata, hrest]
        exact hin

theorem registerDisk_busy (h : c.devMajor ≤ 0) : registerDisk c k rest = (-EBUSY, k) := by
  rw [registerDisk, if_pos h, Kernel.registerBlkdev, if_pos h]

theorem registerDisk_netdevRefs (hrest : ∀ k', (rest k').2.netdevRefs = k'.netdevRefs) :
    (registerDisk c k rest).2.netdevRefs = k.netdevRefs := by
  by_cases h : c.devMajor ≤ 0
  · rw [registerDisk_busy h]
  rw [registerDisk, if_neg h, Kernel.registerBlkdev, if_neg h]
  cases hqueue : c.queue with
  | none => rfl
  | some queue =>
    cases hgd : c.gd with
    | none => rfl
    | some gd =>
      cases hdata : c.data with
      | none => rfl
      | some data => exact hrest _

theorem registerDisk_zero_iff {P : Prop} (hrest : ∀ k', (rest k').1 = 0 ↔ P) :
    (registerDisk c k rest).1 = 0 ↔ (∀ call ∈ diskCalls, ¬ c.fails call = true) ∧ P := by
  have hcalls : (∀ call ∈ diskCalls, ¬ c.fails call = true) ↔
      0 < c.devMajor ∧ c.queue ≠ none ∧ c.gd ≠ none ∧ c.data ≠ none := by
    simp [diskCalls, Calls.fails, Option.isSome_iff_ne_none]
  rw [hcalls]
  by_cases h : c.devMajor ≤ 0
  · rw [registerDisk_busy h]
    exact iff_of_false (show ¬ -EBUSY = 0 by decide) fun hall ↦ absurd hall.1.1 h.not_gt
  rw [registerDisk, if_neg h]
  cases hqueue : c.queue with
  | none => exact iff_of_false (show ¬ -ENOMEM = 0 by decide) fun hall ↦ hall.1.2.1 rfl
  | some queue =>
    cases hgd : c.gd with
    | none => exact iff_of_false (show ¬ -ENOMEM = 0 by decide) fun hall ↦ hall.1.2.2.1 rfl
    | some gd =>
      cases hdata : c.data with
      | none => exact iff_of_false (show ¬ -ENOMEM = 0 by decide) fun hall ↦ hall.1.2.2.2 rfl
      | some data =>
        refine (hrest _).trans ⟨fun hP ↦ ⟨⟨not_le.mp h, ?_, ?_, ?_⟩, hP⟩, And.right⟩
        · exact Option.some_ne_none queue
        · exact Option.some_ne_none gd
        · exact Option.some_ne_none data

theorem clean_same {init : Kernel → ℤ × Kernel} (h : (init k).2 = k) : Clean init k := fun _ ↦ h

/-- Where something stays whatever happens, only a successful load is clean. -/
theorem clean_iff_zero {init : Kernel → ℤ × Kernel} (h : (init k).2 ≠ k) :
    Clean init k ↔ (init k).1 = 0 :=
  ⟨fun hclean ↦ of_not_not fun herr ↦ h (hclean herr), fun hzero herr ↦ absurd hzero herr⟩

variable {call : Call} {calls : List Call} {P : Call → Prop}

theorem firstFailure_cons (h : c.fails call = true) :
    (∀ call', c.firstFailure (call :: calls) = some call' → P call') ↔ P call := by
  rw [Calls.firstFailure, List.find?_cons_of_pos h]
  exact ⟨fun hall ↦ hall call rfl, fun hcall call' heq ↦ Option.some.inj heq ▸ hcall⟩

theorem firstFailure_skip (h : ¬ c.fails call = true) :
    c.firstFailure (call :: calls) = c.firstFailure calls := List.find?_cons_of_neg h

theorem firstFailure_none (h : ∀ call ∈ calls, ¬ P call) :
    (∀ call, c.firstFailure calls = some call → P call) ↔
      ∀ call ∈ calls, ¬ c.fails call = true := by
  rw [← List.find?_eq_none]
  constructor
  · intro hall
    cases hfirst : calls.find? c.fails with
    | none => rfl
    | some call => exact absurd (hall call hfirst) (h call (List.mem_of_find?_eq_some hfirst))
  · intro hnone call hfirst
    rw [Calls.firstFailure, hnone] at hfirst
    cases hfirst

theorem emulatorKernel_clean_iff :
    Clean (EmulatorKernel.emudiskInit c) k ↔
      ∀ call, c.firstFailure EmulatorKernel.calls = some call →
        call = .diskChannels ∨ call = .getMyIpiBase ∨ call = .devGetByName := by
  rw [show EmulatorKernel.calls = .diskChannels :: .getMyIpiBase :: .devGetByName ::
    (diskCalls ++ [.openEthernetChannel]) from rfl]
  by_cases hchannels : c.fails .diskChannels = true
  · rw [firstFailure_cons hchannels]
    have hgt := of_decide_eq_true hchannels
    refine iff_of_true (clean_same ?_) (.inl rfl)
    rw [EmulatorKernel.emudiskInit, if_pos hgt]
  rw [firstFailure_skip hchannels]
  have hle := mt decide_eq_true hchannels
  by_cases hipi : c.fails .getMyIpiBase = true
  · rw [firstFailure_cons hipi]
    refine iff_of_true (clean_same ?_) (.inr (.inl rfl))
    rw [EmulatorKernel.emudiskInit, if_neg hle, if_pos (Option.isNone_iff_eq_none.mp hipi)]
  rw [firstFailure_skip hipi]
  have hsome := mt Option.isNone_iff_eq_none.mpr hipi
  by_cases hndev : c.fails .devGetByName = true
  · rw [firstFailure_cons hndev]
    have hnone := Option.isNone_iff_eq_none.mp hndev
    refine iff_of_true (clean_same ?_) (.inr (.inr rfl))
    rw [EmulatorKernel.emudiskInit, if_neg hle, if_neg hsome, if_pos hnone, hnone]
    rfl
  rw [firstFailure_skip hndev, firstFailure_none (by decide)]
  obtain ⟨ndev, hndev⟩ := Option.ne_none_iff_exists'.mp (mt Option.isNone_iff_eq_none.mpr hndev)
  have hinit : EmulatorKernel.emudiskInit c k = registerDisk c
      { k with netdevRefs := "eth0" ::ₘ k.netdevRefs }
      fun k ↦ if c.openEthernetChannel ≠ 0 then (-EBUSY, k) else (0, k) := by
    rw [EmulatorKernel.emudiskInit, if_neg hle, if_neg hsome, hndev]
    rfl
  have hrefs : (EmulatorKernel.emudiskInit c k).2 ≠ k := by
    intro heq
    have hsame := congrArg Kernel.netdevRefs heq
    rw [hinit, registerDisk_netdevRefs (fun k' ↦ by split <;> rfl)] at hsame
    have hcard := congrArg Multiset.card hsame
    rw [Multiset.card_cons] at hcard
    omega
  rw [clean_iff_zero hrefs, hinit,
    registerDisk_zero_iff (P := ¬ c.fails .openEthernetChannel = true), List.forall_mem_append,
    List.forall_mem_singleton]
  intro k'
  by_cases hopen : c.openEthernetChannel ≠ 0
  · rw [if_pos hopen]
    exact iff_of_false (show ¬ -EBUSY = 0 by decide) fun hok ↦ hok (decide_eq_true hopen)
  · rw [if_neg hopen]
    exact iff_of_true rfl fun hfail ↦ hopen (of_decide_eq_true hfail)

theorem ramdisk_clean_iff (h : c.Fits k) :
    Clean (Ramdisk.emudiskInit c) k ↔
      ∀ call, c.firstFailure Ramdisk.calls = some call →
        call = .diskChannels ∨ call = .registerBlkdev := by
  rw [show Ramdisk.calls = .diskChannels :: .registerBlkdev ::
    [.blkInitQueue, .allocDisk, .ioremapNocache] from rfl]
  by_cases hchannels : c.fails .diskChannels = true
  · rw [firstFailure_cons hchannels]
    have hgt : c.diskChannels > Ramdisk.MAX_DISK_REQUESTS_IN_PARALLEL := of_decide_eq_true hchannels
    refine iff_of_true (clean_same ?_) (.inl rfl)
    rw [Ramdisk.emudiskInit, if_pos hgt]
  rw [firstFailure_skip hchannels]
  have hinit : Ramdisk.emudiskInit c k = registerDisk c k fun k ↦ (0, k) :=
    if_neg (mt decide_eq_true hchannels)
  by_cases hmajor : c.fails .registerBlkdev = true
  · rw [firstFailure_cons hmajor]
    refine iff_of_true (clean_same ?_) (.inr rfl)
    rw [hinit, registerDisk_busy (of_decide_eq_true hmajor)]
  rw [firstFailure_skip hmajor, firstFailure_none (by decide)]
  have hpos := not_le.mp (mt decide_eq_true hmajor)
  have hstays : (Ramdisk.emudiskInit c k).2 ≠ k := by
    intro heq
    have hin : (c.devMajor, "nctuss_emudisk") ∈ (registerDisk c k fun k ↦ (0, k)).2.blkdevs :=
      registerDisk_blkdevs hpos fun _ ↦ rfl
    rw [← hinit, heq] at hin
    exact h hpos _ hin
  rw [clean_iff_zero hstays, hinit,
    registerDisk_zero_iff (P := True) (fun _ ↦ iff_of_true rfl trivial),
    and_true,
      show diskCalls = .registerBlkdev :: [.blkInitQueue, .allocDisk, .ioremapNocache] from rfl,
    List.forall_mem_cons]
  exact and_iff_right hmajor

/-- Every exit after the device lookup keeps the reference to the device, and every exit after
`register_blkdev` the major, so that only earlier failures leave nothing behind. -/
theorem failed_load_clean_iff (h : c.Fits k) :
    (Clean (EmulatorKernel.emudiskInit c) k ↔
      ∀ call, c.firstFailure EmulatorKernel.calls = some call →
        call = .diskChannels ∨ call = .getMyIpiBase ∨ call = .devGetByName) ∧
      (Clean (Ramdisk.emudiskInit c) k ↔
        ∀ call, c.firstFailure Ramdisk.calls = some call →
          call = .diskChannels ∨ call = .registerBlkdev) :=
  ⟨emulatorKernel_clean_iff, ramdisk_clean_iff h⟩

def Kernel.empty : Kernel := ⟨∅, ∅, ∅, ∅, 0⟩

def Calls.ok : Calls := ⟨8, some 1, some 1, 250, some 1, some 1, some 1, 0⟩

theorem failed_load_clean_iff_no_device :
    Clean (EmulatorKernel.emudiskInit { Calls.ok with ndev := none }) .empty ∧
      Clean (Ramdisk.emudiskInit { Calls.ok with devMajor := -16 }) .empty := by
  constructor
  · refine (failed_load_clean_iff (c := { Calls.ok with ndev := none })
      fun _ name ↦ Finset.notMem_empty _).1.mpr fun call hcall ↦ ?_
    exact .inr (.inr (Option.some.inj hcall).symm)
  · refine (failed_load_clean_iff (c := { Calls.ok with devMajor := -16 })
      fun _ name ↦ Finset.notMem_empty _).2.mpr fun call hcall ↦ ?_
    exact .inr (Option.some.inj hcall).symm

/-- Without a request queue both drivers leave the major behind; without a major, or with the
Ethernet channel not open, the emudisk leaves the device referenced. -/
theorem failed_load_not_clean :
    ¬ Clean (EmulatorKernel.emudiskInit { Calls.ok with queue := none }) .empty ∧
      ¬ Clean (EmulatorKernel.emudiskInit { Calls.ok with devMajor := -16 }) .empty ∧
      ¬ Clean (EmulatorKernel.emudiskInit { Calls.ok with openEthernetChannel := 1 }) .empty ∧
      ¬ Clean (Ramdisk.emudiskInit { Calls.ok with queue := none }) .empty := by
  refine ⟨?_, ?_, ?_, ?_⟩
  all_goals
    unfold Clean
    decide

end Nctusde.ModuleInit

import Nctusde.Ramdisk.System

namespace Nctusde.Ramdisk

open BlockLayer Library.Memory Wire

/-- The addresses, relative to `Emudisk.data`, of the bytes the loop of
`nctuss_emudisk_transfer` copies, with `offset` an `unsigned long` of 32 bits. -/
def copied (offset : ℕ) : List Bytes → List ℕ
  | [] => []
  | segment :: segments =>
    ((List.range segment.length).map fun i ↦ (offset + i) % 2 ^ 32) ++
      copied ((offset + segment.length) % 2 ^ 32) segments

namespace Emudisk

variable (d : Emudisk)

def storeSize : ℤ := d.size * SECTOR_SIZE % 2 ^ 32

/-- `nctuss_emudisk_transfer`: the addresses it copies from or to, or `none` if it
is caught in the loop behind its test. -/
def transfer (req : Request) : Option (List ℕ) :=
  if d.pastEnd req then none else some (copied (transferOffset req) req.segments)

/-- A transfer that passes the test ends inside the device, and each byte is copied
at its own position, inside the backing store. -/
def GuardSound (req : Request) : Prop :=
  ∀ addresses, d.transfer req = some addresses →
    (req.pos * SECTOR_SIZE + req.bytes : ℕ) ≤ d.storeSize ∧ addresses.length = req.bytes ∧
      ∀ i a, addresses[i]? = some a → a = req.pos * SECTOR_SIZE + i ∧ a < d.storeSize

end Emudisk

variable {d : Emudisk} {req : Request}

/-- However the bytes are cut into segments, they are copied to consecutive addresses
modulo 2^32. -/
theorem copied_eq (offset : ℕ) (segments : List Bytes) :
    copied (offset % 2 ^ 32) segments =
      (List.range (segments.map List.length).sum).map fun i ↦ (offset + i) % 2 ^ 32 := by
  induction segments generalizing offset with
  | nil => rfl
  | cons segment segments ih =>
    have hfirst (i : ℕ) : (offset % 2 ^ 32 + i) % 2 ^ 32 = (offset + i) % 2 ^ 32 :=
      Nat.mod_add_mod offset _ i
    rw [copied, hfirst, ih, List.map_cons, List.sum_cons, List.range_add, List.map_append,
      List.map_map]
    simp only [hfirst, Function.comp_def, Nat.add_assoc]

theorem transferOut_copied (data : ℕ → UInt8) (offset : ℕ) (segments : List Bytes) :
    (transferOut data offset segments).flatten = (copied offset segments).map data := by
  induction segments generalizing offset with
  | nil => rfl
  | cons segment segments ih =>
    rw [transferOut, List.flatten_cons, ih, copied, List.map_append, List.map_map]
    rfl

theorem transferOffset_add (req : Request) :
    (transferOffset req + req.bytes) % 2 ^ 32 = (req.pos * SECTOR_SIZE + req.bytes) % 2 ^ 32 :=
  Nat.mod_add_mod _ _ _

theorem Emudisk.storeSize_lt (d : Emudisk) : d.storeSize < 2 ^ 32 :=
  Int.emod_lt_of_pos _ (by decide)

theorem transfer_eq (d : Emudisk) (req : Request) : d.transfer req =
    if d.storeSize < ((req.pos * SECTOR_SIZE + req.bytes) % 2 ^ 32 : ℕ) then none
    else some ((List.range req.bytes).map fun i ↦ (req.pos * SECTOR_SIZE + i) % 2 ^ 32) := by
  have hpast : d.pastEnd req ↔
      d.storeSize < ((req.pos * SECTOR_SIZE + req.bytes) % 2 ^ 32 : ℕ) := by
    rw [← transferOffset_add]
    exact Iff.rfl
  rw [Emudisk.transfer, transferOffset, copied_eq]
  exact if_congr hpast rfl rfl

theorem guardSound_inside (h : (req.pos * SECTOR_SIZE + req.bytes : ℕ) ≤ d.storeSize) :
    d.GuardSound req := by
  have hlt := d.storeSize_lt
  intro addresses hsome
  rw [transfer_eq] at hsome
  split at hsome
  · cases hsome
  obtain rfl := Option.some.inj hsome
  refine ⟨h, by rw [List.length_map, List.length_range], fun i a hi ↦ ?_⟩
  obtain ⟨hlen, rfl⟩ := List.getElem?_eq_some_iff.mp hi
  rw [List.length_map, List.length_range] at hlen
  rw [List.getElem_map, List.getElem_range]
  have hmod : (req.pos * SECTOR_SIZE + i) % 2 ^ 32 = req.pos * SECTOR_SIZE + i :=
    Nat.mod_eq_of_lt (by omega)
  rw [hmod]
  exact ⟨rfl, by omega⟩

/-- The guard of the ramdisk is sound for exactly the requests that do not end within
a device size above a multiple of 2^32. -/
theorem guard_sound_iff (d : Emudisk) (req : Request) :
    d.GuardSound req ↔ ¬ ∃ k, 1 ≤ k ∧ k * 2 ^ 32 ≤ req.pos * SECTOR_SIZE + req.bytes ∧
      (req.pos * SECTOR_SIZE + req.bytes : ℕ) ≤ (k * 2 ^ 32 : ℕ) + d.storeSize := by
  have hlt := d.storeSize_lt
  generalize hend : req.pos * SECTOR_SIZE + req.bytes = e
  have hsplit := Nat.div_add_mod e (2 ^ 32)
  have hmod := Nat.mod_lt e (show 2 ^ 32 > 0 by decide)
  constructor
  · rintro hsound ⟨k, hk, hlo, hhi⟩
    have hpass : ¬ d.storeSize < (e % 2 ^ 32 : ℕ) := by omega
    have hsome := transfer_eq d req
    rw [hend, if_neg hpass] at hsome
    have hle := (hsound _ hsome).1
    rw [hend] at hle
    omega
  · intro hno addresses hsome
    have hle : (e : ℤ) ≤ d.storeSize := by
      by_contra hgt
      have hcopy := hsome
      rw [transfer_eq, hend] at hcopy
      split at hcopy
      · cases hcopy
      · exact hno ⟨e / 2 ^ 32, by omega, by omega, by omega⟩
    exact guardSound_inside (hend ▸ hle) addresses hsome

def farSector : Request := ⟨0, .fs, .write, 2 ^ 23, [List.replicate 512 1]⟩

theorem farSector_bytes : farSector.bytes = 512 := by
  rw [Request.bytes, farSector, List.map_singleton, List.sum_singleton, List.length_replicate]

/-- It passes the test and goes to the first sector. -/
theorem guard_unsound : ¬ (System.loaded 8 1).disk.GuardSound farSector := by
  intro h
  have hsome := transfer_eq (System.loaded 8 1).disk farSector
  rw [farSector_bytes, show farSector.pos = 2 ^ 23 from rfl, if_neg (by decide)] at hsome
  have hle := (h _ hsome).1
  rw [farSector_bytes, show farSector.pos = 2 ^ 23 from rfl] at hle
  exact absurd hle (by decide)

end Nctusde.Ramdisk

import Nctusde.Library.Linearization
import Nctusde.Library.Memory
import Nctusde.Wire

namespace Nctusde.BlockLayer

open Library.Memory Wire

inductive CmdType
  | fs
  | other
  deriving DecidableEq, Repr

inductive DataDir
  | read
  | write
  deriving DecidableEq, Repr

def DataDir.code : DataDir → ℤ
  | .read => 0
  | .write => 1

/-- A `struct request`: `tag` stands for its identity, `segments` for the buffers
its bio_vecs point at. -/
structure Request where
  tag : ℕ
  cmdType : CmdType
  dataDir : DataDir
  pos : ℕ
  segments : List Bytes
  deriving DecidableEq

namespace Request

variable (req : Request)

def bytes : ℕ := (req.segments.map List.length).sum

def content : Bytes := req.segments.flatten

theorem content_length : req.content.length = req.bytes := by
  rw [content, bytes, List.length_flatten]

end Request

/-- What takes the next turn of a run: a call of the block layer, or the processing task. -/
inductive Cue
  | strategy (queue : List Request)
  | softirqDone (tag : ℕ) (queue : List Request)
  | task

def Cue.isTask : Cue → Bool
  | .task => true
  | _ => false

/-- A walk over the segments that copies each into `mem`. -/
def gather (mem : ℕ → UInt8) (off : ℕ) : List Bytes → ℕ → UInt8
  | [] => mem
  | segment :: segments => gather (blit mem off segment) (off + segment.length) segments

def scatter (mem : ℕ → UInt8) (off : ℕ) : List Bytes → List Bytes
  | [] => []
  | segment :: segments =>
    slice mem off segment.length :: scatter mem (off + segment.length) segments

theorem gather_eq (mem : ℕ → UInt8) (off : ℕ) (segments : List Bytes) :
    gather mem off segments = blit mem off segments.flatten := by
  induction segments generalizing mem off with
  | nil => simp [gather]
  | cons segment segments ih => rw [gather, ih, blit_append, List.flatten_cons]

theorem scatter_flatten (mem : ℕ → UInt8) (off : ℕ) (segments : List Bytes) :
    (scatter mem off segments).flatten = slice mem off (segments.map List.length).sum := by
  induction segments generalizing off with
  | nil => simp [scatter]
  | cons segment segments ih =>
    rw [scatter, List.flatten_cons, ih, List.map_cons, List.sum_cons, slice_add]

theorem scatter_lengths (mem : ℕ → UInt8) (off : ℕ) (segments : List Bytes) :
    (scatter mem off segments).map List.length = segments.map List.length := by
  induction segments generalizing off with
  | nil => rfl
  | cons segment segments ih => rw [scatter, List.map_cons, List.map_cons, slice_length, ih]

section

open Library Library.Linearization

/-- What a disk is for: a write replaces the bytes of its sectors, a read returns them. -/
def sectorStore : Object (ℕ → UInt8) Request (Option Bytes) where
  apply mem req :=
    match req.dataDir with
    | .read => (mem, some (slice mem (req.pos * SECTOR_SIZE) req.bytes))
    | .write => (blit mem (req.pos * SECTOR_SIZE) req.content, none)

variable {mem : ℕ → UInt8} {req : Request}

theorem sectorStore_read (hdir : req.dataDir = .read) :
    sectorStore.apply mem req = (mem, some (slice mem (req.pos * SECTOR_SIZE) req.bytes)) := by
  simp only [sectorStore, hdir]

theorem sectorStore_write (hdir : req.dataDir = .write) :
    sectorStore.apply mem req = (blit mem (req.pos * SECTOR_SIZE) req.content, none) := by
  simp only [sectorStore, hdir]

/-- What the block layer sees in the buffers of a request that was completed with `segments`. -/
def resultOf (req : Request) (segments : List Bytes) : Option Bytes :=
  match req.dataDir with
  | .read => some segments.flatten
  | .write => none

theorem resultOf_read (hdir : req.dataDir = .read) (segments : List Bytes) :
    resultOf req segments = some segments.flatten := by
  simp only [resultOf, hdir]

theorem resultOf_write (hdir : req.dataDir = .write) (segments : List Bytes) :
    resultOf req segments = none := by
  simp only [resultOf, hdir]

end

end Nctusde.BlockLayer

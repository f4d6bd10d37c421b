import Mathlib.Data.UInt
import Nctusde.FtraceProcessing.ComputeTotalISize

namespace Nctusde.FtraceProcessing

open Library Library.Text

def Name := {text : Text // ∀ c ∈ text, ¬ c.isWhitespace ∧ c ≠ ':'}

def Phrase := {text : Text // '\n' ∉ text}

/-- What a trace prints before column 48: the task, the processor, the flags and the time. -/
def Column := {text : Text // text.length = 48 ∧ '\n' ∉ text}

inductive TraceLine
  | call (column : Column) (function caller : Name)
  | mark (column : Column) (text : Phrase)

namespace TraceLine

def body : TraceLine → Text
  | .call _ function caller => function.val ++ (" <-".toList ++ caller.val)
  | .mark _ text => "tracing_mark_write:".toList ++ (' ' :: text.val)

@[simp] theorem body_call (column : Column) (function caller : Name) :
    (call column function caller).body = function.val ++ (" <-".toList ++ caller.val) := rfl

@[simp] theorem body_mark (column : Column) (text : Phrase) :
    (mark column text).body = "tracing_mark_write:".toList ++ (' ' :: text.val) := rfl

def column : TraceLine → Column
  | .call column _ _ => column
  | .mark column _ => column

def row (line : TraceLine) : Text := line.column.val ++ line.body

end TraceLine

def header (entries : Phrase) : List Text :=
  ["# tracer: function".toList,
    "#".toList,
    entries.val,
    "#".toList,
    "#                              _-----=> irqs-off".toList,
    "#                             / _----=> need-resched".toList,
    "#                            | / _---=> hardirq/softirq".toList,
    "#                            || / _--=> preempt-depth".toList,
    "#                            ||| /     delay".toList,
    "#           TASK-PID   CPU#  ||||    TIMESTAMP  FUNCTION".toList,
    "#              | |       |   ||||       |         |".toList]

def traceText (entries : Phrase) (trace : List TraceLine) : Text :=
  (header entries ++ trace.map TraceLine.row).flatMap (· ++ ['\n'])

/-- A line of `kallsyms`; the functions of a module carry its name. -/
structure Entry where
  address : UInt32
  type : {c : Char // ¬ c.isWhitespace}
  name : Name
  moduleName : Option Name

namespace Entry

def tag (e : Entry) : Text :=
  match e.moduleName with
  | some moduleName => "\t[".toList ++ moduleName.val ++ "]".toList
  | none => []

def row (e : Entry) : Text :=
  hex 8 e.address.toNat ++ [' ', e.type.val, ' '] ++ (e.name.val ++ e.tag)

end Entry

def listingText (listing : List Entry) : Text :=
  (listing.map Entry.row).flatMap (· ++ ['\n'])

section Rows

variable {c : Char}

theorem Name.not_mem (name : Name) (hc : c.isWhitespace ∨ c = ':') : c ∉ name.val := by
  intro h
  obtain ⟨hspace, hcolon⟩ := name.property c h
  exact hc.elim hspace hcolon

theorem TraceLine.not_mem_row (line : TraceLine) : '\n' ∉ line.row := by
  have hname (name : Name) : '\n' ∉ name.val := name.not_mem (.inl (by decide))
  rw [row, List.mem_append, not_or]
  refine ⟨line.column.property.2, ?_⟩
  cases line with
  | call column function caller =>
    rw [body_call, List.mem_append, List.mem_append, not_or, not_or]
    exact ⟨hname function, by decide, hname caller⟩
  | mark column text =>
    rw [body_mark, List.mem_append, List.mem_cons, not_or, not_or]
    exact ⟨by decide, by decide, text.property⟩

theorem header_not_mem (entries : Phrase) : ∀ row ∈ header entries, '\n' ∉ row := by
  have hentries := entries.property
  simp only [header, List.forall_mem_cons]
  exact ⟨by decide, by decide, hentries, by decide, by decide, by decide, by decide, by decide,
    by decide, by decide, by decide, fun _ h ↦ absurd h List.not_mem_nil⟩

theorem Entry.not_mem_tag (e : Entry) (hc : c.isWhitespace ∨ c = ':') (htab : c ≠ '\t') :
    c ∉ e.tag := by
  unfold tag
  split
  · rename_i moduleName hmodule
    have hbrackets : c ≠ '[' ∧ c ≠ ']' := by
      constructor <;> (rintro rfl; revert hc; decide)
    have hname := moduleName.not_mem hc
    intro h
    rcases List.mem_append.mp h with h | h
    · rcases List.mem_append.mp h with h | h
      · rcases List.mem_cons.mp h with h | h
        · exact htab h
        · exact hbrackets.1 (List.mem_singleton.mp h)
      · exact hname h
    · exact hbrackets.2 (List.mem_singleton.mp h)
  · exact List.not_mem_nil

theorem Entry.not_mem_row (e : Entry) : '\n' ∉ e.row := by
  have htype : '\n' ≠ e.type.val := by
    intro h
    exact e.type.property (h ▸ by decide)
  rw [row, List.mem_append, List.mem_append, not_or, not_or]
  refine ⟨⟨not_mem_hex rfl _ _, ?_⟩, ?_⟩
  · simpa using htype
  · rw [List.mem_append, not_or]
    exact ⟨e.name.not_mem (.inl (by decide)), e.not_mem_tag (.inl (by decide)) (by decide)⟩

theorem lines_traceText (entries : Phrase) (trace : List TraceLine) :
    lines (traceText entries trace) =
      (header entries).map (· ++ ['\n']) ++ trace.map fun line ↦ line.row ++ ['\n'] := by
  rw [traceText, lines_flatten, List.map_append, List.map_map]
  · rfl
  · refine List.forall_mem_append.mpr ⟨header_not_mem entries, ?_⟩
    exact List.forall_mem_map.mpr fun line _ ↦ line.not_mem_row

theorem lines_listingText (listing : List Entry) :
    lines (listingText listing) = listing.map fun e ↦ e.row ++ ['\n'] := by
  rw [listingText, lines_flatten, List.map_map]
  · rfl
  · exact List.forall_mem_map.mpr fun e _ ↦ e.not_mem_row

end Rows

section Fields

theorem TraceLine.drop_row (line : TraceLine) :
    (line.row ++ ['\n']).drop 48 = line.body ++ ['\n'] := by
  rw [row, List.append_assoc, List.drop_left' line.column.property.1]

theorem Entry.sym_row (e : Entry) :
    (e.row ++ ['\n']).dropLast.drop 11 = e.name.val ++ e.tag := by
  rw [List.dropLast_concat, row]
  exact List.drop_left' (by rw [List.length_append, length_hex]; rfl)

theorem Entry.address_row (e : Entry) :
    FtraceProcessing.address (e.row ++ ['\n']) = .ok e.address.toNat := by
  have htake : (e.row ++ ['\n']).take 8 = hex 8 e.address.toNat := by
    rw [row, List.append_assoc, List.append_assoc, List.take_left' (length_hex _ _)]
  rw [FtraceProcessing.address, htake,
    ofHex_hex (by decide) (e.address.toNat_lt.trans_le (by decide))]

end Fields

end Nctusde.FtraceProcessing

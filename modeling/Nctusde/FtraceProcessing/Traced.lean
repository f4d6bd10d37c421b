import Nctusde.FtraceProcessing.Format

namespace Nctusde.FtraceProcessing

open Library Library.Text

namespace TraceLine

def starts : Phrase := ⟨"nctuss----1".toList, by decide⟩

def stops : Phrase := ⟨"nctuss----2".toList, by decide⟩

def switch : TraceLine → Option Bool
  | .call .. => none
  | .mark _ text =>
    if text.val = starts.val then some true else if text.val = stops.val then some false else none

@[simp] theorem switch_call (column : Column) (function caller : Name) :
    (call column function caller).switch = none := rfl

end TraceLine

/-- The last of the two marks is `nctuss----1`. -/
def Recording (before : List TraceLine) : Prop :=
  (before.filterMap TraceLine.switch).getLast? = some true

def Traced (trace : List TraceLine) (name : Name) : Prop :=
  ∃ before column caller after,
    trace = before ++ TraceLine.call column name caller :: after ∧ Recording before

variable {trace : List TraceLine} {line : TraceLine} {name : Name} {scan : Scan}

theorem recording_nil : ¬ Recording [] := by
  unfold Recording
  decide

theorem recording_append :
    Recording (trace ++ [line]) ↔
      line.switch = some true ∨ Recording trace ∧ line.switch ≠ some false := by
  rw [Recording, List.filterMap_append]
  cases hswitch : line.switch with
  | none =>
    rw [List.filterMap_cons_none hswitch, List.filterMap_nil, List.append_nil]
    exact ⟨fun h ↦ .inr ⟨h, by decide⟩, fun h ↦ (h.resolve_left (by decide)).1⟩
  | some b =>
    rw [List.filterMap_cons_some hswitch, List.filterMap_nil, List.getLast?_concat]
    cases b with
    | false => exact ⟨fun h ↦ .inl h, fun h ↦ h.elim id fun h ↦ absurd rfl h.2⟩
    | true => exact iff_of_true rfl (.inl rfl)

theorem traced_append :
    Traced (trace ++ [line]) name ↔
      Traced trace name ∨ (∃ column caller, line = .call column name caller) ∧ Recording trace := by
  constructor
  · rintro ⟨before, column, caller, after, heq, hrec⟩
    rcases after.eq_nil_or_concat' with rfl | ⟨after, last, rfl⟩
    · obtain ⟨rfl, hline⟩ := List.append_inj' heq rfl
      exact .inr ⟨⟨column, caller, List.singleton_inj.mp hline⟩, hrec⟩
    · rw [← List.cons_append, ← List.append_assoc] at heq
      exact .inl ⟨before, column, caller, after, (List.append_inj' heq rfl).1, hrec⟩
  · rintro (⟨before, column, caller, after, rfl, hrec⟩ | ⟨⟨column, caller, rfl⟩, hrec⟩)
    · exact ⟨before, column, caller, after ++ [line], by rw [List.append_assoc]; rfl, hrec⟩
    · exact ⟨trace, column, caller, [], rfl, hrec⟩

section Scanning

theorem colon_mem_startMark : ':' ∈ startMark := by decide

theorem colon_mem_stopMark : ':' ∈ stopMark := by decide

theorem startMark_eq :
    startMark = "tracing_mark_write:".toList ++ (' ' :: TraceLine.starts.val) ++ ['\n'] :=
  rfl

theorem stopMark_eq :
    stopMark = "tracing_mark_write:".toList ++ (' ' :: TraceLine.stops.val) ++ ['\n'] :=
  rfl

theorem mark_body_eq {column : Column} {text text' : Phrase} :
    (TraceLine.mark column text).body ++ ['\n'] =
      "tracing_mark_write:".toList ++ (' ' :: text'.val) ++ ['\n'] ↔ text.val = text'.val := by
  rw [TraceLine.body_mark, List.append_left_inj, List.append_right_inj, List.cons_inj_right]

theorem colon_not_mem_call {column : Column} {function caller : Name} :
    ':' ∉ (TraceLine.call column function caller).body ++ ['\n'] := by
  rw [TraceLine.body_call, List.mem_append, List.mem_append, List.mem_append,
    not_or, not_or, not_or]
  exact ⟨⟨function.not_mem (.inr rfl), by decide, caller.not_mem (.inr rfl)⟩, by decide⟩

/-- The marks of the script are those of the trace. -/
theorem switch_eq_true : line.switch = some true ↔ line.body ++ ['\n'] = startMark := by
  cases line with
  | call column function caller =>
    rw [TraceLine.switch_call]
    refine iff_of_false (by decide) fun h ↦ ?_
    exact colon_not_mem_call (h ▸ colon_mem_startMark)
  | mark column text =>
    rw [startMark_eq, mark_body_eq, TraceLine.switch]
    split
    · rename_i hstarts
      exact iff_of_true rfl hstarts
    rename_i hstarts
    split
    · exact iff_of_false (by decide) hstarts
    · exact iff_of_false (by decide) hstarts

theorem switch_eq_false : line.switch = some false ↔ line.body ++ ['\n'] = stopMark := by
  cases line with
  | call column function caller =>
    rw [TraceLine.switch_call]
    refine iff_of_false (by decide) fun h ↦ ?_
    exact colon_not_mem_call (h ▸ colon_mem_stopMark)
  | mark column text =>
    rw [stopMark_eq, mark_body_eq, TraceLine.switch]
    split
    · rename_i hstarts
      refine iff_of_false (by decide) fun hstops ↦ ?_
      exact absurd (hstarts.symm.trans hstops) (by decide)
    split
    · rename_i hstops
      exact iff_of_true rfl hstops
    · rename_i hstops
      exact iff_of_false (by decide) hstops

theorem searchSymbol_row :
    searchSymbol (line.row ++ ['\n']) = beforeLast " <-".toList line.body := by
  rw [searchSymbol, List.dropLast_concat, TraceLine.row, List.drop_left' line.column.property.1]

theorem searchSymbol_call {column : Column} {function caller : Name} :
    searchSymbol ((TraceLine.call column function caller).row ++ ['\n']) = some function.val := by
  have hspace (name : Name) : ' ' ∉ name.val := name.not_mem (.inl (by decide))
  have harrow : beforeLast " <-".toList (" <-".toList ++ caller.val) = some [] := by
    apply beforeLast_key (k := ' ')
    rw [List.mem_append, not_or]
    exact ⟨by decide, hspace caller⟩
  rw [searchSymbol_row, TraceLine.body_call]
  refine (beforeLast_append (hspace function) _).trans ?_
  rw [show ' ' :: _ = " <-".toList from rfl, harrow, Option.map_some, List.append_nil]

/-- A mark that looks like a call gives no name of a function. -/
theorem searchSymbol_mark {column : Column} {text : Phrase} {symbol : Text}
    (h : searchSymbol ((TraceLine.mark column text).row ++ ['\n']) = some symbol) :
    ':' ∈ symbol := by
  rw [searchSymbol_row, TraceLine.body_mark] at h
  have hbefore := (@beforeLast_append ' ' "<-".toList "tracing_mark_write:".toList (by decide)
    (' ' :: text.val)).symm.trans h
  obtain ⟨rest, -, rfl⟩ := Option.map_eq_some_iff.mp hbefore
  exact List.mem_append_left _ (by decide)

structure Knows (scan : Scan) (trace : List TraceLine) : Prop where
  start : scan.start = true ↔ Recording trace
  symbols : ∀ symbol, ':' ∉ symbol → (symbol ∈ scan.symbolsToProcess ↔
    ∃ name : Name, name.val = symbol ∧ Traced trace name)

theorem line_start (l : Text) :
    (scan.line l).start =
      if l.drop 48 = stopMark then false
      else if l.drop 48 = startMark then true else scan.start := by
  unfold Scan.line
  dsimp only
  generalize (if l.drop 48 = stopMark then false
    else if l.drop 48 = startMark then true else scan.start) = start
  cases start with
  | false => rfl
  | true =>
    rw [if_pos rfl]
    split <;> rfl

theorem mem_line_symbols (l : Text) {symbol : Text} :
    symbol ∈ (scan.line l).symbolsToProcess ↔
      symbol ∈ scan.symbolsToProcess ∨
        (scan.line l).start = true ∧ searchSymbol l = some symbol := by
  rw [line_start]
  unfold Scan.line
  dsimp only
  generalize (if l.drop 48 = stopMark then false
    else if l.drop 48 = startMark then true else scan.start) = start
  cases start with
  | false => exact ⟨.inl, fun h ↦ h.resolve_right fun h ↦ nomatch h.1⟩
  | true =>
    rw [if_pos rfl]
    cases searchSymbol l with
    | none => exact ⟨.inl, fun h ↦ h.resolve_right fun h ↦ nomatch h.2⟩
    | some found =>
      dsimp only
      rw [List.mem_insert_iff, or_comm, Option.some_inj, eq_comm (a := found)]
      exact or_congr_right ⟨fun h ↦ ⟨rfl, h⟩, fun h ↦ h.2⟩

theorem Knows.line_start (h : Knows scan trace) (line : TraceLine) :
    (scan.line (line.row ++ ['\n'])).start = true ↔ Recording (trace ++ [line]) := by
  rw [FtraceProcessing.line_start, line.drop_row, recording_append]
  by_cases hstop : line.body ++ ['\n'] = stopMark
  · rw [if_pos hstop, switch_eq_false.mpr hstop]
    exact iff_of_false (by decide) fun h ↦ h.elim (by decide) fun h ↦ h.2 rfl
  have hnot := mt switch_eq_false.mp hstop
  rw [if_neg hstop]
  by_cases hstart : line.body ++ ['\n'] = startMark
  · rw [if_pos hstart]
    exact iff_of_true rfl (.inl (switch_eq_true.mpr hstart))
  · rw [if_neg hstart, h.start]
    exact ⟨fun hrec ↦ .inr ⟨hrec, hnot⟩,
      fun h ↦ (h.resolve_left (mt switch_eq_true.mp hstart)).1⟩

theorem Knows.next (h : Knows scan trace) (line : TraceLine) :
    Knows (scan.line (line.row ++ ['\n'])) (trace ++ [line]) where
  start := h.line_start line
  symbols := by
    intro symbol hcolon
    rw [mem_line_symbols, h.line_start, h.symbols symbol hcolon]
    simp only [traced_append]
    cases line with
    | call column function caller =>
      rw [searchSymbol_call, recording_append, TraceLine.switch_call]
      constructor
      · rintro (⟨name, hname, htraced⟩ | ⟨hrec, hfunction⟩)
        · exact ⟨name, hname, .inl htraced⟩
        · exact ⟨function, Option.some_inj.mp hfunction, .inr ⟨⟨column, caller, rfl⟩,
            (hrec.resolve_left (by decide)).1⟩⟩
      · rintro ⟨name, hname, htraced | ⟨⟨column', caller', heq⟩, hrec⟩⟩
        · exact .inl ⟨name, hname, htraced⟩
        · obtain ⟨-, rfl, -⟩ := TraceLine.call.inj heq
          exact .inr ⟨.inr ⟨hrec, by decide⟩, congrArg some hname⟩
    | mark column text =>
      constructor
      · rintro (⟨name, hname, htraced⟩ | ⟨-, hfound⟩)
        · exact ⟨name, hname, .inl htraced⟩
        · exact absurd (searchSymbol_mark hfound) hcolon
      · rintro ⟨name, hname, htraced | ⟨⟨column', caller', heq⟩, -⟩⟩
        · exact .inl ⟨name, hname, htraced⟩
        · cases heq

theorem knows_nil : Knows ⟨false, []⟩ [] where
  start := iff_of_false (by decide) recording_nil
  symbols := by
    intro symbol _
    refine iff_of_false List.not_mem_nil ?_
    rintro ⟨name, -, before, column, caller, after, heq, -⟩
    exact absurd heq.symm (List.append_ne_nil_of_right_ne_nil _ (List.cons_ne_nil _ _))

theorem knows_foldl (trace : List TraceLine) :
    Knows ((trace.map fun line ↦ line.row ++ ['\n']).foldl Scan.line ⟨false, []⟩) trace := by
  induction trace using List.reverseRecOn with
  | nil => exact knows_nil
  | append_singleton trace line ih =>
    rw [List.map_append, List.foldl_append]
    exact ih.next line

/-- The eleventh line of the header is read as a line of the trace, and is none. -/
theorem knows_symbolsToProcess (entries : Phrase) (trace : List TraceLine) :
    ∃ scan, Knows scan trace ∧
      symbolsToProcess (traceText entries trace) = scan.symbolsToProcess := by
  refine ⟨_, knows_foldl trace, ?_⟩
  rw [symbolsToProcess, lines_traceText]
  rfl

theorem mem_symbolsToProcess {entries : Phrase} {symbol : Text} (hcolon : ':' ∉ symbol) :
    symbol ∈ symbolsToProcess (traceText entries trace) ↔
      ∃ name : Name, name.val = symbol ∧ Traced trace name := by
  obtain ⟨scan, hknows, heq⟩ := knows_symbolsToProcess entries trace
  rw [heq]
  exact hknows.symbols symbol hcolon

end Scanning

end Nctusde.FtraceProcessing

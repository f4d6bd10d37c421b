import Nctusde.FtraceProcessing.Traced
import Nctusde.Library.Order

namespace Nctusde.FtraceProcessing

open Library Library.Text

theorem countUpTo_succ (symbols rows : List Text) (n : ℕ) :
    countUpTo symbols rows (n + 1) = (countUpTo symbols rows n).bind (·.count symbols rows n) := by
  rw [countUpTo, List.range_succ, List.foldlM_append, ← countUpTo]
  simp only [List.foldlM_cons, List.foldlM_nil, bind_pure]
  rfl

def addresses (listing : List Entry) : List ℕ := listing.map fun e ↦ e.address.toNat

/-- The distance from an entry to the next strictly higher address. -/
def distance (listing : List Entry) (e : Entry) : ℤ :=
  match nextHigher (addresses listing) e.address.toNat with
  | some next => next - e.address.toNat
  | none => 0

open Classical in
/-- What an entry has to contribute to the size of what was traced. -/
noncomputable def footprint (trace : List TraceLine) (listing : List Entry) (e : Entry) : ℤ :=
  if Traced trace e.name then distance listing e else 0

def Prints (entries : Phrase) (trace : List TraceLine) (listing : List Entry) : Prop :=
  ∃ out, main (traceText entries trace) (listingText listing) = .ok out ∧
    out.totalISize = (listing.map (footprint trace listing)).sum

/-- The script prints the size of what was traced, and has added up what each entry contributes on
the way there. -/
structure Measures (entries : Phrase) (trace : List TraceLine) (listing : List Entry) : Prop where
  prints : Prints entries trace listing
  contributes : ∀ n ≤ listing.length, ∃ out,
    countUpTo (symbolsToProcess (traceText entries trace))
      (lines (listingText listing)) n = .ok out ∧
      out.totalISize = ((listing.take n).map (footprint trace listing)).sum

/-- The next line of the listing has the next higher address, or the same if none is higher. -/
def Adjacent (listing : List Entry) (i : ℕ) (e : Entry) : Prop :=
  ∃ next, listing[i + 1]? = some next ∧
    (IsNext (addresses listing) e.address.toNat next.address.toNat ∨
      IsTop (addresses listing) e.address.toNat ∧ next.address = e.address)

/-- An entry of the kernel is followed by the next address; one of a module has none above it. -/
def InOrder (listing : List Entry) (i : ℕ) (e : Entry) : Prop :=
  match e.moduleName with
  | some _ => IsTop (addresses listing) e.address.toNat
  | none => Adjacent listing i e

open Classical in
/-- What the script adds for an entry beyond what it has to contribute; it adds nothing for a
function of a module. -/
noncomputable def surplus (trace : List TraceLine) (listing : List Entry) (i : ℕ) (e : Entry) : ℤ :=
  if Traced trace e.name then
    match e.moduleName, listing[i + 1]? with
    | none, some next => next.address.toNat - e.address.toNat - distance listing e
    | _, _ => -distance listing e
  else 0

def Measured (trace : List TraceLine) (e : Entry) : Prop :=
  Traced trace e.name ∧ e.moduleName = none

/-- The last line is not measured, and what is too much for some entries is too little for
others. -/
def Balanced (trace : List TraceLine) (listing : List Entry) : Prop :=
  (∀ e, listing.getLast? = some e → ¬ Measured trace e) ∧
    (listing.zipIdx.map fun p ↦ surplus trace listing p.2 p.1).sum = 0

variable {trace : List TraceLine} {listing : List Entry} {e next : Entry} {entries : Phrase} {i : ℕ}

theorem distance_eq_zero : distance listing e = 0 ↔ IsTop (addresses listing) e.address.toNat := by
  rw [← nextHigher_eq_none, distance]
  cases hnext : nextHigher (addresses listing) e.address.toNat with
  | none => exact iff_of_true rfl rfl
  | some b =>
    have hlt := (nextHigher_eq_some.mp hnext).lt
    refine iff_of_false (fun h ↦ ?_) (fun h ↦ nomatch h)
    dsimp only at h
    omega

theorem distance_eq_sub :
    distance listing e = next.address.toNat - e.address.toNat ↔
      IsNext (addresses listing) e.address.toNat next.address.toNat ∨
        IsTop (addresses listing) e.address.toNat ∧ next.address = e.address := by
  rw [← nextHigher_eq_none, ← nextHigher_eq_some, distance, ← UInt32.toNat_inj]
  cases nextHigher (addresses listing) e.address.toNat with
  | none =>
    dsimp only
    have hsub : (0 : ℤ) = next.address.toNat - e.address.toNat ↔
        next.address.toNat = e.address.toNat := by omega
    rw [hsub]
    exact ⟨fun h ↦ .inr ⟨rfl, h⟩, fun h ↦ (h.resolve_left fun h ↦ nomatch h).2⟩
  | some b =>
    dsimp only
    rw [sub_left_inj, Nat.cast_inj, Option.some_inj]
    exact ⟨.inl, fun h ↦ h.resolve_right fun h ↦ nomatch h.1⟩

section Rounds

variable {symbols : List Text} {out : Output}

theorem getElem?_lines (i : ℕ) :
    (lines (listingText listing))[i]? = listing[i]?.map fun e ↦ e.row ++ ['\n'] := by
  rw [lines_listingText, List.getElem?_map]

theorem sym_mem_iff (entries : Phrase) (trace : List TraceLine) (e : Entry) :
    e.name.val ++ e.tag ∈ symbolsToProcess (traceText entries trace) ↔
      e.moduleName = none ∧ Traced trace e.name := by
  have hcolon : ':' ∉ e.name.val ++ e.tag := by
    rw [List.mem_append, not_or]
    exact ⟨e.name.not_mem (.inr rfl), e.not_mem_tag (.inr rfl) (by decide)⟩
  rw [mem_symbolsToProcess hcolon, Entry.tag]
  cases e.moduleName with
  | none =>
    rw [List.append_nil]
    constructor
    · rintro ⟨name, hname, htraced⟩
      exact ⟨rfl, Subtype.ext hname ▸ htraced⟩
    · exact fun h ↦ ⟨e.name, rfl, h.2⟩
  | some moduleName =>
    refine iff_of_false ?_ (fun h ↦ nomatch h.1)
    rintro ⟨name, hname, -⟩
    have htab : '\t' ∈ name.val := by
      rw [hname]
      exact List.mem_append_right _ (List.mem_append_left _ (List.mem_append_left _ (by decide)))
    exact name.not_mem (.inl (by decide)) htab

theorem count_skip (he : listing[i]? = some e) (hsym : e.name.val ++ e.tag ∉ symbols) :
    out.count symbols (lines (listingText listing)) i = .ok out := by
  rw [Output.count, getElem?_lines, he]
  dsimp only [Option.map_some]
  rw [e.sym_row, if_neg hsym]
  rfl

theorem count_found (he : listing[i]? = some e) (hsym : e.name.val ++ e.tag ∈ symbols) :
    out.count symbols (lines (listingText listing)) i =
      match listing[i + 1]? with
      | none => .error .indexError
      | some next => .ok ⟨out.syms ++ [e.name.val ++ e.tag],
          out.totalISize + (next.address.toNat - e.address.toNat)⟩ := by
  rw [Output.count, getElem?_lines, getElem?_lines, he]
  dsimp only [Option.map_some]
  rw [e.sym_row, if_pos hsym, e.address_row]
  cases listing[i + 1]? with
  | none => rfl
  | some next =>
    dsimp only [Option.map_some]
    rw [next.address_row]
    rfl

theorem count_entry (entries : Phrase) (out : Output) (he : listing[i]? = some e)
    (hnext : Measured trace e → listing[i + 1]? ≠ none) :
    ∃ out', out.count (symbolsToProcess (traceText entries trace)) (lines (listingText listing)) i =
        .ok out' ∧
      out'.totalISize =
        out.totalISize + (footprint trace listing e + surplus trace listing i e) := by
  rw [footprint, surplus]
  by_cases htraced : Traced trace e.name
  · rw [if_pos htraced, if_pos htraced]
    cases hmodule : e.moduleName with
    | some moduleName =>
      have hsym := (sym_mem_iff entries trace e).not.mpr fun h ↦ nomatch hmodule.symm.trans h.1
      refine ⟨out, count_skip he hsym, ?_⟩
      rw [add_neg_cancel, add_zero]
    | none =>
      have hsym := (sym_mem_iff entries trace e).mpr ⟨hmodule, htraced⟩
      have hsome := hnext ⟨htraced, hmodule⟩
      rw [count_found he hsym]
      cases hline : listing[i + 1]? with
      | none => exact absurd hline hsome
      | some next => exact ⟨_, rfl, by rw [add_sub_cancel]⟩
  · have hsym := (sym_mem_iff entries trace e).not.mpr fun h ↦ htraced h.2
    refine ⟨out, count_skip he hsym, ?_⟩
    rw [if_neg htraced, if_neg htraced, add_zero, add_zero]

theorem count_aborts (entries : Phrase) (out : Output) (he : listing[i]? = some e)
    (hmeasured : Measured trace e)
    (hnone : listing[i + 1]? = none) :
    out.count (symbolsToProcess (traceText entries trace)) (lines (listingText listing)) i =
      .error .indexError := by
  rw [count_found he ((sym_mem_iff entries trace e).mpr hmeasured.symm), hnone]

theorem surplus_eq_zero (hnext : Measured trace e → listing[i + 1]? ≠ none) :
    surplus trace listing i e = 0 ↔ (Traced trace e.name → InOrder listing i e) := by
  rw [surplus]
  by_cases htraced : Traced trace e.name
  · rw [if_pos htraced, InOrder]
    cases hmodule : e.moduleName with
    | some moduleName =>
      rw [neg_eq_zero, distance_eq_zero]
      exact ⟨fun h _ ↦ h, fun h ↦ h htraced⟩
    | none =>
      rw [Adjacent]
      cases hline : listing[i + 1]? with
      | none => exact absurd hline (hnext ⟨htraced, hmodule⟩)
      | some next =>
        dsimp only
        rw [sub_eq_zero, eq_comm, distance_eq_sub]
        constructor
        · exact fun h _ ↦ ⟨next, rfl, h⟩
        · intro h
          obtain ⟨next', hnext', horder⟩ := h htraced
          cases hnext'
          exact horder
  · rw [if_neg htraced]
    exact iff_of_true rfl fun h ↦ absurd h htraced

/-- A round of the loop adds what the entry contributes if and only if the entry is not traced or
stands in order. -/
theorem count_footprint (out : Output) (he : listing[i]? = some e) :
    (∃ out', out.count (symbolsToProcess (traceText entries trace))
      (lines (listingText listing)) i =
        .ok out' ∧ out'.totalISize = out.totalISize + footprint trace listing e) ↔
      (Traced trace e.name → InOrder listing i e) := by
  by_cases hnext : Measured trace e → listing[i + 1]? ≠ none
  · obtain ⟨out', hcount, htotal⟩ := count_entry entries out he hnext
    rw [hcount, ← surplus_eq_zero hnext]
    constructor
    · rintro ⟨_, heq, htotal'⟩
      cases heq
      omega
    · exact fun h ↦ ⟨out', rfl, by rw [htotal, h, add_zero]⟩
  · obtain ⟨hmeasured, hnone⟩ := Classical.not_imp.mp hnext
    rw [count_aborts _ out he hmeasured (of_not_not hnone)]
    refine iff_of_false (fun ⟨_, h, _⟩ ↦ nomatch h) fun h ↦ ?_
    have horder := h hmeasured.1
    rw [InOrder, hmeasured.2] at horder
    obtain ⟨next, hline, -⟩ := horder
    exact hnone (fun h ↦ nomatch h.symm.trans hline)

end Rounds

theorem sum_take_succ {α : Type} {as : List α} {a : α} (f : α → ℤ) (ha : as[i]? = some a) :
    ((as.take (i + 1)).map f).sum = ((as.take i).map f).sum + f a := by
  rw [List.take_add_one, ha, List.map_append, List.sum_append]
  exact congrArg _ (add_zero _)

/-- The loop is right after every round if and only if every traced entry stands in order. -/
theorem contributes_iff (entries : Phrase) :
    (∀ n ≤ listing.length, ∃ out,
      countUpTo (symbolsToProcess (traceText entries trace)) (lines (listingText listing)) n =
        .ok out ∧ out.totalISize = ((listing.take n).map (footprint trace listing)).sum) ↔
      ∀ i e, listing[i]? = some e → Traced trace e.name → InOrder listing i e := by
  constructor
  · intro h i e he
    obtain ⟨hi, -⟩ := List.getElem?_eq_some_iff.mp he
    obtain ⟨out, hout, htotal⟩ := h i hi.le
    obtain ⟨out', hout', htotal'⟩ := h (i + 1) hi
    rw [countUpTo_succ, hout] at hout'
    rw [sum_take_succ _ he, ← htotal] at htotal'
    exact (count_footprint out he).mp ⟨out', hout', htotal'⟩
  · intro h n hn
    induction n with
    | zero => exact ⟨⟨[], 0⟩, rfl, rfl⟩
    | succ n ih =>
      obtain ⟨out, hout, htotal⟩ := ih (Nat.le_of_succ_le hn)
      have he := List.getElem?_eq_getElem hn
      obtain ⟨out', hout', htotal'⟩ := (count_footprint out he).mpr (h n _ he)
      refine ⟨out', ?_, ?_⟩
      · rw [countUpTo_succ, hout]
        exact hout'
      · rw [sum_take_succ _ he, ← htotal]
        exact htotal'

theorem getLast?_eq_some (he : listing[i]? = some e) (hnone : listing[i + 1]? = none) :
    listing.getLast? = some e := by
  obtain ⟨hi, -⟩ := List.getElem?_eq_some_iff.mp he
  have hlast := List.getElem?_eq_none_iff.mp hnone
  rw [List.getLast?_eq_getElem?, show listing.length - 1 = i by omega, he]

theorem countUpTo_total (entries : Phrase)
    (hlast : ∀ e, listing.getLast? = some e → ¬ Measured trace e) {n : ℕ}
    (hn : n ≤ listing.length) : ∃ out,
      countUpTo (symbolsToProcess (traceText entries trace)) (lines (listingText listing)) n =
        .ok out ∧
      out.totalISize = ((listing.take n).map (footprint trace listing)).sum +
        ((listing.zipIdx.take n).map fun p ↦ surplus trace listing p.2 p.1).sum := by
  induction n with
  | zero => exact ⟨⟨[], 0⟩, rfl, rfl⟩
  | succ n ih =>
    obtain ⟨out, hout, htotal⟩ := ih (Nat.le_of_succ_le hn)
    have he := List.getElem?_eq_getElem hn
    have hp : listing.zipIdx[n]? = some (listing[n], n) := by
      rw [List.getElem?_zipIdx, he, Option.map_some, Nat.zero_add]
    obtain ⟨out', hout', htotal'⟩ := count_entry entries out he
      fun hmeasured hnone ↦ hlast _ (getLast?_eq_some he hnone) hmeasured
    refine ⟨out', ?_, ?_⟩
    · rw [countUpTo_succ, hout]
      exact hout'
    · rw [sum_take_succ _ he, sum_take_succ _ hp, htotal', htotal]
      ring

/-- The script prints the right size if and only if the last line is not measured and its errors
make up for each other. -/
theorem prints_iff : Prints entries trace listing ↔ Balanced trace listing := by
  have hmain : main (traceText entries trace) (listingText listing) = countUpTo
      (symbolsToProcess (traceText entries trace))
        (lines (listingText listing)) listing.length := by
    rw [main, lines_listingText, List.length_map]
  rw [Prints, hmain]
  by_cases hlast : ∀ e, listing.getLast? = some e → ¬ Measured trace e
  · obtain ⟨out, hout, htotal⟩ := countUpTo_total entries hlast le_rfl
    rw [List.take_length, List.take_of_length_le (List.length_zipIdx ..).le] at htotal
    rw [hout]
    constructor
    · rintro ⟨_, heq, hsum⟩
      cases heq
      exact ⟨hlast, by omega⟩
    · exact fun h ↦ ⟨out, rfl, by rw [htotal, h.2, add_zero]⟩
  · refine iff_of_false ?_ fun h ↦ hlast h.1
    simp only [not_forall, not_not] at hlast
    obtain ⟨e, hlast, hmeasured⟩ := hlast
    rintro ⟨out', hout', -⟩
    obtain ⟨n, hn, he⟩ : ∃ n, listing.length = n + 1 ∧ listing[n]? = some e := by
      rw [List.getLast?_eq_getElem?] at hlast
      obtain ⟨hlt, -⟩ := List.getElem?_eq_some_iff.mp hlast
      exact ⟨listing.length - 1, by omega, hlast⟩
    rw [hn, countUpTo_succ] at hout'
    cases hcount : countUpTo (symbolsToProcess (traceText entries trace))
        (lines (listingText listing)) n with
    | error error =>
      rw [hcount] at hout'
      cases hout'
    | ok out =>
      rw [hcount] at hout'
      have haborts := count_aborts entries out he hmeasured
        (List.getElem?_eq_none_iff.mpr hn.le)
      exact nomatch haborts.symm.trans hout'

/-- The script measures what was traced exactly if each traced entry of the kernel is followed by
the next address, and each traced entry of a module has the highest one. The number alone also comes
out right when the errors make up for each other. -/
theorem measures_iff (entries : Phrase) (trace : List TraceLine) (listing : List Entry) :
    (Measures entries trace listing ↔
      ∀ i e, listing[i]? = some e → Traced trace e.name → InOrder listing i e) ∧
    (Prints entries trace listing ↔ Balanced trace listing) := by
  refine ⟨⟨fun h ↦ (contributes_iff _).mp h.contributes, fun h ↦ ?_⟩, prints_iff⟩
  have hcontributes := (contributes_iff entries).mpr h
  refine ⟨?_, hcontributes⟩
  have hlast := hcontributes listing.length le_rfl
  rw [List.take_length] at hlast
  rw [Prints, main, lines_listingText, List.length_map, ← lines_listingText]
  exact hlast

section Listings

def blankColumn : Column := ⟨List.replicate 48 ' ', by decide⟩

def vfsWrite : Name := ⟨"vfs_write".toList, by simp⟩

def sysWrite : Name := ⟨"sys_write".toList, by simp⟩

def nctussEmudisk : Name := ⟨"nctuss_emudisk".toList, by simp⟩

def entriesInBuffer : Phrase :=
  ⟨"# entries-in-buffer/entries-written: 2/2   #P:2".toList, by decide⟩

def vfsWriteTrace : List TraceLine :=
  [.mark blankColumn TraceLine.starts, .call blankColumn vfsWrite sysWrite]

def vfsWriteLast : List Entry :=
  [⟨0xc0008200, ⟨'T', by decide⟩, sysWrite, none⟩, ⟨0xc000837c, ⟨'T', by decide⟩, vfsWrite, none⟩]

def vfsWriteInModule : List Entry :=
  [⟨0xbf003000, ⟨'t', by decide⟩, vfsWrite, some nctussEmudisk⟩,
    ⟨0xbf003114, ⟨'t', by decide⟩, sysWrite, none⟩]

def vfsWriteUnsorted : List Entry :=
  [⟨0xc000837c, ⟨'T', by decide⟩, vfsWrite, none⟩, ⟨0xc0008200, ⟨'T', by decide⟩, sysWrite, none⟩]

theorem traced_vfsWrite : Traced vfsWriteTrace vfsWrite :=
  ⟨[.mark blankColumn TraceLine.starts], blankColumn, sysWrite, [],
    rfl, by unfold Recording; decide⟩

/-- The last line has no next one, a function of a module is not found, and the next line may have
a lower address. -/
theorem listing_not_measured :
    main (traceText entriesInBuffer vfsWriteTrace) (listingText vfsWriteLast) =
        .error .indexError ∧
      ¬ Prints entriesInBuffer vfsWriteTrace vfsWriteLast ∧
      ¬ Measures entriesInBuffer vfsWriteTrace vfsWriteInModule ∧
      ¬ Measures entriesInBuffer vfsWriteTrace vfsWriteUnsorted := by
  have hlast : main (traceText entriesInBuffer vfsWriteTrace) (listingText vfsWriteLast) =
      .error .indexError := by decide +kernel
  refine ⟨hlast, fun h ↦ ?_, fun h ↦ ?_, fun h ↦ ?_⟩
  · obtain ⟨out, hout, -⟩ := h
    exact nomatch hlast.symm.trans hout
  · have horder : IsTop (addresses vfsWriteInModule) 0xbf003000 :=
      (contributes_iff _).mp h.contributes 0 _ rfl traced_vfsWrite
    exact absurd (horder 0xbf003114 (by decide)) (by decide)
  · obtain ⟨next, hnext, horder⟩ : Adjacent vfsWriteUnsorted 0 _ :=
      (contributes_iff _).mp h.contributes 0 _ rfl traced_vfsWrite
    cases hnext
    rcases horder with horder | ⟨-, heq⟩
    · exact absurd horder.lt (by decide)
    · exact absurd heq (by decide)

end Listings

end Nctusde.FtraceProcessing

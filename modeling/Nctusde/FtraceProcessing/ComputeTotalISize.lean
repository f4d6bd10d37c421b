import Nctusde.Library.Text

namespace Nctusde.FtraceProcessing

open Library Library.Text

inductive Error
  | valueError
  | indexError
  deriving DecidableEq, Repr

structure Output where
  syms : List Text
  totalISize : ℤ
  deriving DecidableEq, Repr

structure Scan where
  start : Bool
  symbolsToProcess : List Text

def startMark : Text := "tracing_mark_write: nctuss----1\n".toList

def stopMark : Text := "tracing_mark_write: nctuss----2\n".toList

/-- `re.search('(.*) <-.*', line[48:-1])`: the greedy group ends before the last arrow. -/
def searchSymbol (line : Text) : Option Text := beforeLast " <-".toList (line.dropLast.drop 48)

def Scan.line (scan : Scan) (line : Text) : Scan :=
  let start := if line.drop 48 = startMark then true else scan.start
  let start := if line.drop 48 = stopMark then false else start
  if start then
    match searchSymbol line with
    | some symbol => ⟨start, scan.symbolsToProcess.insert symbol⟩
    | none => ⟨start, scan.symbolsToProcess⟩
  else ⟨start, scan.symbolsToProcess⟩

/-- The function names of the trace; the loop begins at the eleventh line. -/
def symbolsToProcess (trace : Text) : List Text :=
  (((lines trace).drop 10).foldl Scan.line ⟨false, []⟩).symbolsToProcess

/-- `int(line[0:8], 16)`, of a text without blanks, sign and prefix. -/
def address (line : Text) : Except Error ℕ :=
  match ofHex (line.take 8) with
  | some n => .ok n
  | none => .error .valueError

def Output.count (symbols rows : List Text) (out : Output) (i : ℕ) : Except Error Output :=
  match rows[i]? with
  | none => .error .indexError
  | some line =>
    let sym := line.dropLast.drop 11
    if sym ∈ symbols then do
      let address ← FtraceProcessing.address line
      match rows[i + 1]? with
      | none => .error .indexError
      | some next => do
        let addressNext ← FtraceProcessing.address next
        return ⟨out.syms ++ [sym], out.totalISize + ((addressNext : ℤ) - address)⟩
    else return out

def countUpTo (symbols rows : List Text) (n : ℕ) : Except Error Output :=
  (List.range n).foldlM (Output.count symbols rows) ⟨[], 0⟩

def main (trace syms : Text) : Except Error Output :=
  countUpTo (symbolsToProcess trace) (lines syms) (lines syms).length

end Nctusde.FtraceProcessing

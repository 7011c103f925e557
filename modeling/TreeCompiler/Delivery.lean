import TreeCompiler.Lowering.Gen

/-!
Writing the lines of a unit to an output that may have room for only so many bytes. A write
that does not fit stores the part that fits and fails, and the first failure ends the writing.
-/

namespace TreeCompiler

/-- Why a unit was not written to its end. -/
inductive EmissionError where
  | lowering (e : LoweringError)
  | sinkFull
deriving DecidableEq, Repr

def EmissionError.message : EmissionError → String
  | lowering e => e.message
  | sinkFull => "I/O error: sink is full"

/-- An output: what it holds, and how many more bytes it takes if that is limited. -/
structure Sink where
  written : ByteArray := ByteArray.empty
  room : Option Nat := none

namespace Sink

/-- Writes bytes, and tells whether they all fit. -/
def write (sink : Sink) (bytes : ByteArray) : Sink × Bool :=
  match sink.room with
  | none => (⟨sink.written ++ bytes, none⟩, true)
  | some n =>
    if bytes.size ≤ n then (⟨sink.written ++ bytes, some (n - bytes.size)⟩, true)
    else (⟨sink.written ++ bytes.extract 0 n, some 0⟩, false)

/-- Writes lines up to the first that does not fit, and returns that one. -/
def writeLines (sink : Sink) : List Emitted → Sink × Option Emitted
  | [] => (sink, none)
  | l :: rest =>
    match sink.write l.line.bytes with
    | (sink, true) => sink.writeLines rest
    | (sink, false) => (sink, some l)

theorem write_unlimited (written bytes : ByteArray) :
    write ⟨written, none⟩ bytes = (⟨written ++ bytes, none⟩, true) := rfl

end Sink

end TreeCompiler

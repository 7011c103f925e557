import TreeCompiler.Diagnostic

/-!
The options of analysis, and how a phase collects its reports. Without `keepGoing` a phase
halts at its first report, so it has at most one.
-/

namespace TreeCompiler

/-- What the user may ask of analysis: to go on after the first error, and to let a scope
declare a name twice. -/
structure Options where
  keepGoing : Bool := false
  allowRedeclaration : Bool := false
deriving DecidableEq, Repr

namespace Options

/-- Whether a phase with these reports does nothing more. -/
def halts (opts : Options) (errors : List Diagnostic) : Bool :=
  !errors.isEmpty && !opts.keepGoing

/-- Adds a report, unless the phase has halted. -/
def report (opts : Options) (errors : List Diagnostic) (d : Diagnostic) : List Diagnostic :=
  if opts.halts errors then errors else errors ++ [d]

@[simp] theorem halts_nil (opts : Options) : opts.halts [] = false := rfl

theorem halts_of_keepGoing {opts : Options} (h : opts.keepGoing = true)
    (errors : List Diagnostic) : opts.halts errors = false := by
  simp [halts, h]

theorem report_nil (opts : Options) (d : Diagnostic) : opts.report [] d = [d] := rfl

theorem report_of_halts {opts : Options} {errors : List Diagnostic}
    (h : opts.halts errors = true) (d : Diagnostic) : opts.report errors d = errors := by
  simp [report, h]

/-- A report never leaves a phase without one. -/
theorem report_ne_nil (opts : Options) (errors : List Diagnostic) (d : Diagnostic) :
    opts.report errors d ≠ [] := by
  unfold report
  split
  · rename_i h
    rintro rfl
    simp at h
  · simp

end Options

end TreeCompiler

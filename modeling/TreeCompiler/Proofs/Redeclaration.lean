import TreeCompiler.Proofs.TypeSystem
import TreeCompiler.Proofs.Relabelling

/-!
To allow redeclarations only relaxes analysis.

The option is asked for in one place, where a scope that has the name already is about to declare it
again, and there analysis without the option has something to report. So if it reports nothing, then
analysis with the option takes the same steps, through the same scopes and to the same symbols.
Neither the check of types nor code generation knows the option.
-/

namespace TreeCompiler

/-- Whether a check accepts a program does not depend on the options, which only say how many
reports there are. -/
lemma Program.check_of_options {opts opts' : Options} {arena : Arena} {p : Program}
    (hbound : BoundUses p.events) (h : p.check ⟨opts, arena⟩ [] = .ok ((), [])) :
    p.check ⟨opts', arena⟩ [] = .ok ((), []) := by
  have htyped : p.Typed arena := ((p.decides_check hbound [] ()).mp h).2
  exact (p.decides_check hbound [] ()).mpr ⟨rfl, htyped⟩

namespace Session

variable {s : Session} {p : Program} {a : Analysis} {opts : Options}

/-- The session as it is, with other options from now on. -/
def withOptions (s : Session) (opts : Options) : Session := { s with options := opts }

/-- A program that is resolved leaves no scope open. -/
lemma scopes_of_resolve (h : s.reset.resolve p = .ok a) (ha : a.errors = []) :
    a.session.scopes = {} := by
  obtain ⟨t, hrun, ht, hsession⟩ := resolve_eq_ok h
  obtain ⟨u, hwalk, rfl, -⟩ := Program.run_resolve hrun (ht.symm.trans ha)
  -- the scope of the top level is the only one before the end
  have hlevels : u.scopes.scopes.map (·.level) = [0] := hwalk.levels
  obtain ⟨sc, hscopes, -⟩ := List.map_eq_singleton_iff.mp hlevels
  rw [hsession]
  change u.scopes.exit = {}
  rw [ScopeStack.exit, hscopes]
  rfl

/-- Names are resolved to the same symbols with relaxed options. -/
lemma resolve_of_relaxes (hopts : s.options.Relaxes opts) (h : s.reset.resolve p = .ok a)
    (ha : a.errors = []) : (s.withOptions opts).reset.resolve p =
      .ok ⟨a.session.withOptions opts, a.program, []⟩ := by
  obtain ⟨b, hb, hfollows⟩ := follows_resolve (s.withOptions opts) hopts
    Relabelling.keepsStorage_id h (.inr ha)
  rw [Program.relabel_id] at hb
  have hclean : b.errors = [] := hfollows.errors.eq_nil_iff.mpr ha
  have hprogram : b.program = a.program := hfollows.program.trans a.program.relabel_id
  have hsession : b.session = a.session.withOptions opts := by
    have hscopes : b.session.scopes = a.session.scopes := by
      rw [scopes_of_resolve hb hclean, scopes_of_resolve h ha]
    have harena : b.session.arena = a.session.arena :=
      hfollows.arena.trans (Arena.map_relabel_id a.session.arena)
    obtain ⟨t, -, -, hsame⟩ := resolve_eq_ok hb
    obtain ⟨u, -, -, hsame'⟩ := resolve_eq_ok h
    rw [hsame, hsame'] at harena hscopes
    rw [hsame, hsame', withOptions, reset, reset]
    exact congrArg₂ (fun arena scopes => ({ options := opts, arena, scopes } : Session))
      harena hscopes
  rw [hb, ← hprogram, ← hsession, ← hclean]

/-- A program that is accepted is accepted with relaxed options, as the same tree with the same
symbols. -/
lemma analyze_of_relaxes (hopts : s.options.Relaxes opts) (h : s.analyze p = .ok a)
    (ha : a.errors = []) : (s.withOptions opts).analyze p =
      .ok ⟨a.session.withOptions opts, a.program, []⟩ := by
  obtain ⟨b, hb, -⟩ := s.exists_resolve p
  have hclean : b.errors = [] := by
    by_contra hreports
    obtain rfl := Except.ok.inj (h.symm.trans (analyze_of_reports hb hreports))
    exact hreports ha
  obtain ⟨hcheck, hprogram, hsession⟩ := check_of_analyze hb hclean h
  have hbound : BoundUses b.program.events := by
    obtain ⟨t, hrun, ht, -⟩ := resolve_eq_ok hb
    obtain ⟨u, hin, rfl⟩ := Resolve.run_inScope.mp hrun
    exact Decl.boundUses_resolveAll p hin (ht.symm.trans hclean)
  have hcheck' : (b.session.withOptions opts).check b.program = .ok [] := by
    obtain ⟨⟨_, errors⟩, hrun, hpure⟩ := bind_eq_ok.mp hcheck
    obtain rfl : errors = [] := (Except.ok.inj hpure).trans ha
    exact bind_eq_ok.mpr ⟨((), []), Program.check_of_options hbound hrun, rfl⟩
  rw [hprogram, hsession]
  exact analyze_of_resolve (resolve_of_relaxes hopts hb hclean) rfl hcheck'

/-- Code generation does not look at the options. -/
lemma emit_withOptions {room : Option ℕ} {e : Emission} (opts : Options)
    (h : s.emit room p = .ok e) : (s.withOptions opts).emit room p =
      .ok ⟨e.session.withOptions opts, e.output, e.error⟩ := by
  have hunit : p.lower (s.withOptions opts).arena
      { labels := (s.withOptions opts).labels, bank := (s.withOptions opts).bank } =
        p.lower s.arena { labels := s.labels, bank := s.bank } := rfl
  rw [emit] at h ⊢
  rw [hunit]
  generalize p.lower s.arena { labels := s.labels, bank := s.bank } = outcome at h ⊢
  obtain ⟨code, g, result⟩ := outcome
  rcases hwrite : ({ room } : Sink).writeLines code with ⟨sink, _ | l⟩
  · simp only [hwrite] at h ⊢
    rcases result with (stop | d) | _
    · obtain rfl := Except.ok.inj h
      rfl
    · cases h
    · obtain rfl := Except.ok.inj h
      rfl
  · simp only [hwrite] at h ⊢
    obtain rfl := Except.ok.inj h
    rfl

/-- **Redeclarations only relax**: if analysis accepts a program without redeclarations being
allowed, then it also does if they are allowed, and nothing in the result is different but the
option itself: the tree with its annotations is the same, and so are the symbols. Compilation to any
output then writes the same bytes and ends in the same way. -/
theorem accepted_with_redeclarations (keepGoing : Bool)
    (hanalyze : (s.withOptions ⟨keepGoing, false⟩).analyze p = .ok a) (herrors : a.errors = []) :
    (s.withOptions ⟨keepGoing, true⟩).analyze p =
      .ok ⟨a.session.withOptions ⟨keepGoing, true⟩, a.program, []⟩ ∧
    ∀ room, ∃ c, (s.withOptions ⟨keepGoing, false⟩).compile room p = .ok c ∧
      (s.withOptions ⟨keepGoing, true⟩).compile room p =
        .ok ⟨c.session.withOptions ⟨keepGoing, true⟩, c.program, c.output, c.error⟩ := by
  have hopts : (s.withOptions ⟨keepGoing, false⟩).options.Relaxes ⟨keepGoing, true⟩ :=
    ⟨rfl, fun _ => rfl⟩
  have hrelaxed := analyze_of_relaxes hopts hanalyze herrors
  refine ⟨hrelaxed, fun room => ?_⟩
  obtain ⟨e, hemit⟩ := exists_emit (accepted hanalyze herrors) room
  exact ⟨_, compile_of_emit hanalyze herrors hemit,
    compile_of_emit hrelaxed rfl (emit_withOptions ⟨keepGoing, true⟩ hemit)⟩

/-- A function with a local in an inner scope that hides its parameter. -/
def shadowFunction : FunDecl where
  name := ⟨"f", 0, some 0⟩
  params := [⟨⟨"x", 0, some 1⟩, .int, none⟩]
  returns := some .int
  body := [.cond ⟨.binary (.compare .lt) (.name ⟨"x", 0, some 1⟩) (.int 1),
      [.decl (.localVar ⟨⟨"x", 0, some 2⟩, .int, some (.int 1)⟩),
        .ret (some (.name ⟨"x", 0, some 2⟩))], .done⟩,
    .ret (some (.name ⟨"x", 0, some 1⟩))]
  variableSize := 8
  parameterSize := 8

def shadowSession : Session where
  arena := #[⟨"f", .function, .int, 0, 0, [1]⟩, ⟨"x", .param, .int, 8, 0, []⟩,
    ⟨"x", .localVar, .int, 8, 8, []⟩]

theorem accepted_shadow :
    (withOptions {} ⟨true, false⟩).analyze [.function shadowFunction] =
      .ok ⟨shadowSession.withOptions ⟨true, false⟩, [.function shadowFunction], []⟩ ∧
    (withOptions {} ⟨true, true⟩).analyze [.function shadowFunction] =
      .ok ⟨shadowSession.withOptions ⟨true, true⟩, [.function shadowFunction], []⟩ ∧
    ∀ room, ∃ c, (withOptions {} ⟨true, false⟩).compile room [.function shadowFunction] = .ok c ∧
      (withOptions {} ⟨true, true⟩).compile room [.function shadowFunction] =
        .ok ⟨c.session.withOptions ⟨true, true⟩, c.program, c.output, c.error⟩ := by
  have hanalyze : (withOptions {} ⟨true, false⟩).analyze [.function shadowFunction] =
      .ok ⟨shadowSession.withOptions ⟨true, false⟩, [.function shadowFunction], []⟩ :=
    analyze_of_resolve
      (a := ⟨shadowSession.withOptions ⟨true, false⟩, [.function shadowFunction], []⟩) rfl rfl rfl
  exact ⟨hanalyze, accepted_with_redeclarations true hanalyze rfl⟩

/-- A name that the top level declares twice is accepted only if that is allowed. -/
example : let x : Decl := .globalVar ⟨⟨"x", 0, none⟩, .int, none⟩
    (∃ a, (withOptions {} ⟨false, false⟩).analyze [x, x] = .ok a ∧
      a.errors = [.redefinition "x"]) ∧
    ∃ a, (withOptions {} ⟨false, true⟩).analyze [x, x] = .ok a ∧ a.errors = [] :=
  ⟨⟨_, rfl, rfl⟩, _, rfl, rfl⟩

end Session

end TreeCompiler

import TreeCompiler.Proofs.Contents
import TreeCompiler.Proofs.LocalLabels
import TreeCompiler.Proofs.MemorySafety
import TreeCompiler.Proofs.Signatures

/-!
Units are closed, and their symbols do not clash.

Whatever the code of a unit refers to by a symbol, the unit defines or takes from outside: routines
that are called, and globals that are loaded or stored. The symbols themselves are those of the
top level of the program, and four more that are the same for every program. The forms in which
they are spelled keep the kinds of definitions apart, so a symbol is defined twice only if the
program declares a function twice, or a variable.
-/

namespace TreeCompiler

/-! ### Definitions of a unit -/

/-- Where a symbol of a unit comes from: from outside, from the unit itself, or from a declaration
of that name at the top level. -/
inductive Definition where
  | printf
  | exit
  | print
  | format
  | function (name : String)
  | global (name : String)
deriving DecidableEq, Repr

namespace Definition

def symbol : Definition → String
  | printf => "printf"
  | exit => "exit"
  | print => printSymbol
  | format => formatSymbol
  | function x => functionSymbol x
  | global x => globalSymbol x

/-- It comes from a declaration. -/
def isNamed : Definition → Bool
  | function _ | global _ => true
  | printf | exit | print | format => false

/-- The first letter of the symbol. -/
def initial : Definition → Char
  | printf | print => 'p'
  | exit => 'e'
  | format => 'n'
  | function x => if x == entryName then 'm' else 'f'
  | global _ => 'g'

lemma head?_symbol (d : Definition) : d.symbol.toList.head? = some d.initial := by
  cases d with
  | printf | exit | print | format => rfl
  | global x => simp [symbol, initial, globalSymbol]
  | function x =>
    rw [symbol, initial, functionSymbol]
    split
    · next hx =>
      rw [beq_iff_eq.mp hx]
      rfl
    · simp

/-- Symbols of different definitions are spelled differently, whatever the names are. -/
lemma symbol_injective : Function.Injective symbol := by
  intro d e h
  have hinitial : d.initial = e.initial := by
    have hhead := congrArg (·.toList.head?) h
    simpa only [head?_symbol, Option.some.injEq] using hhead
  cases d <;> cases e
  case function.function x y => rw [functionSymbol_injective h]
  case global.global x y => rw [(String.append_right_inj _).mp h]
  -- of the other pairs, only those of `print` and `printf` have one first letter
  all_goals grind [initial, Definition.symbol, printSymbol]

end Definition

/-- The name and the kind of a declaration at the top level. -/
def Decl.entry : Decl → String × SymbolKind
  | .globalVar v | .localVar v => (v.name.name, .globalVar)
  | .function f => (f.name.name, .function)

namespace Program

variable {p q : Program}

/-- The names that are declared at the top level with that kind, in order. -/
def named (kind : SymbolKind) (p : Program) : List String :=
  ((p.map Decl.entry).filter (·.2 == kind)).map Prod.fst

lemma named_function (p : Program) : p.named .function = p.functions.map (·.name.name) := by
  induction p with
  | nil => rfl
  | cons d rest ih =>
    cases d with
    | globalVar v | localVar v => exact ih
    | function f => exact congrArg (f.name.name :: ·) ih

lemma named_globalVar (p : Program) : p.named .globalVar = p.globals.map (·.name.name) := by
  induction p with
  | nil => rfl
  | cons d rest ih =>
    cases d with
    | globalVar v | localVar v => exact congrArg (v.name.name :: ·) ih
    | function f => exact ih

lemma named_bare (kind : SymbolKind) (p : Program) : p.bare.named kind = p.named kind := by
  have hentry : Decl.entry ∘ Decl.image .bare = Decl.entry := by
    funext d
    cases d with
    | globalVar v | localVar v => rfl
    | function f => cases f; rfl
  rw [named, named, bare, image, List.map_map, hentry]

/-- Annotations do not matter for them. -/
lemma named_congr (h : p.bare = q.bare) (kind : SymbolKind) : p.named kind = q.named kind := by
  rw [← named_bare, h, named_bare]

lemma exists_function_named {f : FunDecl} (h : p.bare = q.bare) (hf : f ∈ p.functions) :
    ∃ f' ∈ q.functions, f'.name.name = f.name.name := by
  have hmem : f.name.name ∈ q.functions.map (·.name.name) := by
    rw [← named_function, ← named_congr h, named_function]
    exact List.mem_map_of_mem hf
  exact List.mem_map.mp hmem

/-- All definitions of the unit of a program, in the order in which they stand there. -/
def definitions (p : Program) : List Definition :=
  [.printf, .exit, .print] ++ (p.functions.map (.function ·.name.name) ++
    (p.globals.map (.global ·.name.name) ++ [.format]))

lemma definitions_eq (p : Program) : p.definitions = [.printf, .exit, .print] ++
    ((p.named .function).map .function ++ ((p.named .globalVar).map .global ++ [.format])) := by
  rw [definitions, named_function, named_globalVar, List.map_map, List.map_map]
  rfl

lemma definitions_congr (h : p.bare = q.bare) : p.definitions = q.definitions := by
  rw [definitions_eq, definitions_eq, named_congr h, named_congr h]

/-- There is one of each that is the same for all programs. -/
lemma filter_isNamed (p : Program) :
    p.definitions.filter (!·.isNamed) = [.printf, .exit, .print, .format] := by
  have hfunctions :
      (p.functions.map (Definition.function ·.name.name)).filter (!·.isNamed) = [] := by
    simp [Definition.isNamed]
  have hglobals :
      (p.globals.map (Definition.global ·.name.name)).filter (!·.isNamed) = [] := by
    simp [Definition.isNamed]
  rw [definitions, List.filter_append, List.filter_append, List.filter_append, hfunctions, hglobals]
  rfl

/-- Two definitions have one symbol only if they come from two functions of one name, or from two
variables of one name. -/
lemma definitions_pairwise (p : Program) : p.definitions.Pairwise fun d e =>
    d.symbol = e.symbol →
      (∃ x, d = .function x ∧ e = .function x) ∨ ∃ x, d = .global x ∧ e = .global x := by
  have hfixed : (p.definitions.filter (!·.isNamed)).Nodup := by
    rw [filter_isNamed]
    decide
  rw [List.Nodup, List.pairwise_filter] at hfixed
  refine hfixed.imp fun {d e} hne hsymbol => ?_
  obtain rfl := Definition.symbol_injective hsymbol
  cases d with
  | function x => exact .inl ⟨x, rfl, rfl⟩
  | global x => exact .inr ⟨x, rfl, rfl⟩
  | printf | exit | print | format => exact absurd rfl (hne rfl rfl)

lemma definitions_nodup (hfunctions : (p.named .function).Nodup)
    (hglobals : (p.named .globalVar).Nodup) : p.definitions.Nodup := by
  have hfunctions' : ((p.named .function).map Definition.function).Nodup :=
    hfunctions.map fun _ _ => Definition.function.inj
  have hglobals' : ((p.named .globalVar).map Definition.global).Nodup :=
    hglobals.map fun _ _ => Definition.global.inj
  have hlast : ((p.named .globalVar).map Definition.global ++ [Definition.format]).Nodup :=
    List.nodup_append.mpr ⟨hglobals', List.nodup_singleton _, by simp⟩
  have hnamed : ((p.named .function).map Definition.function ++
      ((p.named .globalVar).map Definition.global ++ [Definition.format])).Nodup :=
    List.nodup_append.mpr ⟨hfunctions', hlast, by grind⟩
  rw [definitions_eq]
  exact List.nodup_append.mpr ⟨by decide, hnamed, by grind⟩

end Program

/-! ### Declarations at the top level -/

/-- What is declared in a function is not at the top level. -/
lemma FunDecl.inner_outer {f : FunDecl} (hflat : f.Flat) :
    ∀ d ∈ declarations f.inner, d.2.1.outer = false := by
  rw [declarations_inner hflat, List.forall_mem_append, List.forall_mem_map, List.forall_mem_map]
  exact ⟨fun _ _ => rfl, fun _ _ => rfl⟩

lemma Decl.named_events {kind : SymbolKind} (hkind : kind.outer = true) : (ds : List Decl) →
    (∀ f, .function f ∈ ds → f.Flat) →
    ((declarations (Decl.eventsAll ds)).filter (·.2.1 == kind)).map (·.1.name) =
      Program.named kind ds
  | [], _ => rfl
  | d :: rest, hflat => by
    have hrest := Decl.named_events hkind rest fun f hf => hflat f (List.mem_cons_of_mem _ hf)
    rw [Decl.eventsAll, declarations_append, List.filter_append, List.map_append, hrest]
    cases d with
    | globalVar v | localVar v =>
      rw [Decl.events, Var.declarations_events]
      cases kind <;> rfl
    | function f =>
      have hinner : (declarations f.inner).filter (·.2.1 == kind) = [] := by
        refine List.filter_eq_nil_iff.mpr fun d hd hk => ?_
        have houter := FunDecl.inner_outer (hflat f (List.mem_cons_self ..)) d hd
        rw [beq_iff_eq.mp hk, hkind] at houter
        cases houter
      have hevents : declarations f.events =
          (f.name, .function, f.returns.getD .void) :: declarations f.inner := by
        have hscoped : declarations (scopedEvents f.inner) = declarations f.inner :=
          declarations_scoped
        rw [FunDecl.events_eq, ← hscoped]
        simp [declarations, Event.declared?]
      rw [Decl.events, hevents, List.filter_cons, hinner]
      cases kind <;> rfl

section Trace

variable {opts : Options} {t : Resolver} {p : Program} {kind : SymbolKind}

/-- The symbols of that kind are the ones of the top level, in order. -/
lemma Trace.names (h : Trace opts .start p.events t) (hflat : ∀ f ∈ p.functions, f.Flat)
    (hkind : kind.outer = true) :
    (t.arena.toList.filter (·.kind == kind)).map (·.name) = p.named kind := by
  have hsymbols : t.arena.toList.map Symbol.signature = signatures p.events := h.symbols.2
  calc (t.arena.toList.filter (·.kind == kind)).map (·.name)
      = ((t.arena.toList.map Symbol.signature).filter (·.2.1 == kind)).map (·.1) := by
        rw [List.filter_map, List.map_map]
        rfl
    _ = ((declarations p.events).filter (·.2.1 == kind)).map (·.1.name) := by
        rw [hsymbols, signatures, List.filter_map, List.map_map]
        rfl
    _ = p.named kind := Decl.named_events hkind p fun f hf =>
        hflat f (Program.mem_functions.mpr hf)

/-- Without redeclarations no name is declared twice at the top level. -/
lemma Trace.named_nodup (h : Trace opts .start p.events t) (hflat : ∀ f ∈ p.functions, f.Flat)
    (hopts : opts.allowRedeclaration = false) (hkind : kind.outer = true) :
    (p.named kind).Nodup := by
  rw [← h.names hflat hkind, List.Nodup, List.pairwise_map, List.pairwise_filter,
    List.pairwise_iff_getElem]
  intro i j hi hj hij hsymbol hsymbol' hname
  have hat : t.arena[i]? = some t.arena.toList[i] := by simp
  have hat' : t.arena[j]? = some t.arena.toList[j] := by simp
  have heq : i = j := h.outer_unique hopts hat hat' (by rw [beq_iff_eq.mp hsymbol, hkind])
    (by rw [beq_iff_eq.mp hsymbol', hkind]) hname
  exact absurd heq (Nat.ne_of_lt hij)

end Trace

/-! ### Symbols of a text -/

/-- The symbol that a line makes known: one that it defines, or one from outside. -/
def Line.linked? : Line → Option String
  | .external x => some x
  | line => line.symbol?

/-- The symbols that a text makes known, in order. -/
def linked (text : List Line) : List String := text.filterMap Line.linked?

lemma linked_append (text text' : List Line) :
    linked (text ++ text') = linked text ++ linked text' := List.filterMap_append

lemma linked_of_isCode {text : List Line} (h : ∀ line ∈ text, line.isCode = true) :
    linked text = [] := by
  refine List.filterMap_eq_nil_iff.mpr fun line hline => ?_
  have hcode := h line hline
  cases line with
  | label | instr => rfl
  | blank | segment | relativeAddresses | external | exported | routine | reserve | format =>
    cases hcode

lemma linked_routines {arena : Arena} {globals : List Var} : (rs : List Routine) →
    (∀ r ∈ rs, ∃ g', r.Generated arena globals g') →
    linked (rs.flatMap Routine.text) = rs.map fun r => functionSymbol r.fn.name.name
  | [], _ => rfl
  | r :: rest, h => by
    obtain ⟨⟨g', hr⟩, hrest⟩ := List.forall_mem_cons.mp h
    have htext : linked r.text = [functionSymbol r.fn.name.name] :=
      congrArg (functionSymbol r.fn.name.name :: ·) (linked_of_isCode hr.isCode_inner)
    rw [List.flatMap_cons, linked_append, htext, linked_routines rest hrest]
    rfl

lemma linked_reserveLines (arena : Arena) : linked (reserveLines arena) =
    ((arena.toList.filter (·.kind == .globalVar)).map (·.name)).map globalSymbol := by
  rw [reserveLines]
  split
  · next hnone =>
    rw [hnone]
    rfl
  · have hreserve :
        Line.linked? ∘ (fun s : Symbol => .reserve (globalSymbol s.name) (max s.size 1)) =
          some ∘ (globalSymbol ∘ fun s => s.name) := rfl
    rw [linked_append, linked, linked, List.filterMap_map, hreserve, List.filterMap_eq_map,
      List.map_map]
    rfl

/-- The line stands in a segment of that name: no other segment starts in between. -/
def StandsIn (name : String) (text : List Line) (line : Line) : Prop :=
  ∃ before between after, text = before ++ .segment name :: (between ++ line :: after) ∧
    ∀ other, .segment other ∉ between

lemma StandsIn.append {name : String} {text : List Line} {line : Line} (h : StandsIn name text line)
    (before after : List Line) : StandsIn name (before ++ (text ++ after)) line := by
  obtain ⟨pre, between, post, rfl, hbetween⟩ := h
  exact ⟨before ++ pre, between, post ++ after, by simp, hbetween⟩

lemma standsIn_reserveLines {arena : Arena} {x : String} {bytes : ℕ}
    (h : .reserve x bytes ∈ reserveLines arena) :
    StandsIn "bss" (reserveLines arena) (.reserve x bytes) := by
  rw [reserveLines] at h ⊢
  split at h
  · cases h
  · next globals _ =>
    have hmem := (List.mem_append.mp h).resolve_left (by simp)
    obtain ⟨before, after, hsplit⟩ := List.append_of_mem hmem
    refine ⟨[.blank], before, after, by rw [hsplit]; rfl, fun other hother => ?_⟩
    have hreserve := hsplit ▸ List.mem_append_left _ hother
    obtain ⟨_, -, hline⟩ := List.mem_map.mp hreserve
    cases hline

/-! ### Calls -/

/-- Calls go to what prints, to functions of the program, and to two routines from outside. -/
def Program.callTerms (p : Program) : Terms where
  line l := (∀ x, l = .instr (.call x) →
      x = printSymbol ∨ ∃ f ∈ p.functions, x = functionSymbol f.name.name) ∧
    ∀ x, l = .instr (.callExternal x) → x = "printf" ∨ x = "exit"
  stop _ := True
  plain l hl := by
    constructor <;> rintro x rfl <;> cases hl
  runtime := by simp [preludeLines, leaveProcess]
  error _ := trivial

section Unit

variable {s : Session} {p : Program} {a : Analysis} {arena : Arena} {g g' : GenState}
  {text : List Line} {u : Unit}

lemma Session.permits_calls {f : FunDecl} (hanalyze : s.analyze p = .ok a) (herrors : a.errors = [])
    (hf : f ∈ a.program.functions) : a.program.callTerms.Permits a.session.arena
      (f.generated a.program.globals) (f.initialized a.program.globals) where
  exprs e he := by
    refine ⟨fun _ _ _ _ _ => trivial, fun x args hcall => ⟨?_, nofun⟩⟩
    rintro y hy
    obtain rfl := Instr.call.inj (Line.instr.inj hy)
    by_cases hx : x.name = printName
    · exact .inl (by simp [Ident.routine, hx])
    · obtain ⟨symbol, callee, hcallee⟩ := Session.callee_of_analyze hanalyze herrors
        (Program.mem_exprs hf he) hcall hx
      exact .inr ⟨callee, hcallee.mem, by simp [Ident.routine, hx, hcallee.name]⟩
  vars v hv := ⟨fun _ _ _ _ _ => trivial, nofun⟩

/-- What can be called is there. -/
lemma Program.routine_mem {x : String} (h : (p.lower arena).Yields g text g' u)
    (hx : x = printSymbol ∨ ∃ f ∈ p.functions, x = functionSymbol f.name.name) :
    .routine x ∈ text := by
  obtain ⟨rs, hfns, rfl, -⟩ := Program.exists_routines h
  rcases hx with rfl | ⟨f, hf, rfl⟩
  · exact List.mem_append_left _ (by simp [preludeLines])
  · obtain ⟨r, hr, rfl⟩ := List.mem_map.mp (hfns ▸ hf)
    have hroutine : .routine (functionSymbol r.fn.name.name) ∈ r.text := by simp [Routine.text]
    exact List.mem_append_right _ (List.mem_append_left _ (List.mem_flatMap.mpr ⟨r, hr, hroutine⟩))

lemma Program.external_mem {x : String} (h : (p.lower arena).Yields g text g' u)
    (hx : x = "printf" ∨ x = "exit") : .external x ∈ text := by
  obtain ⟨rs, -, rfl, -⟩ := Program.exists_routines h
  refine List.mem_append_left _ ?_
  rcases hx with rfl | rfl <;> simp [preludeLines]

/-! ### Globals -/

/-- An operand with a symbol is one of a global. -/
lemma Symbol.global_of_locate {symbol : Symbol} {n m : ℕ} {o : Operand} {x : String}
    (h : symbol.locate n = .ok o) (ho : o.address = .symbol x m) :
    symbol.kind = .globalVar ∧ x = globalSymbol symbol.name := by
  rw [locate] at h
  split at h
  · cases h
  · split at h
    · cases h
    · cases hkind : symbol.kind with
      | globalVar =>
        rw [hkind] at h
        obtain rfl := Except.ok.inj h
        exact ⟨rfl, (Address.symbol.inj ho).1.symm⟩
      | localVar | param =>
        rw [hkind] at h
        obtain rfl := Except.ok.inj h
        cases ho
      | function =>
        rw [hkind] at h
        cases h

/-- Such an operand of an accepted program has storage. -/
lemma Session.exists_reserve {o : Operand} {x : String} {n : ℕ} (hanalyze : s.analyze p = .ok a)
    (herrors : a.errors = []) (ho : o ∈ operands (a.session.unit a.program))
    (hx : o.address = .symbol x n) : ∃ bytes, .reserve x bytes ∈ reserveLines a.session.arena := by
  obtain ⟨k, hk⟩ := List.mem_iff_getElem?.mp ho
  obtain ⟨f, y, id, symbol, -, -, -, hsymbol, hlocate, -, -⟩ :=
    Session.exists_access hanalyze herrors hk
  obtain ⟨hkind, rfl⟩ := Symbol.global_of_locate hlocate hx
  exact ⟨_, mem_reserveLines hsymbol hkind⟩

/-! ### Units -/

/-- The symbols of a unit are those of the definitions. -/
lemma Program.linked_lower (h : (p.lower arena).Yields g text g' u)
    (hglobals : (arena.toList.filter (·.kind == .globalVar)).map (·.name) = p.named .globalVar) :
    linked text = p.definitions.map Definition.symbol := by
  obtain ⟨rs, hfns, rfl, hrs⟩ := Program.exists_routines h
  have hroutines : linked (rs.flatMap Routine.text) =
      p.functions.map fun f => functionSymbol f.name.name := by
    rw [← hfns, List.map_map]
    exact linked_routines rs fun r hr => have ⟨_, _, g₁, _, hr, _⟩ := hrs r hr; ⟨g₁, hr⟩
  rw [linked_append, linked_append, linked_append, hroutines, linked_reserveLines, hglobals,
    named_globalVar, definitions, List.map_append, List.map_append, List.map_append, List.map_map,
    List.map_map, List.map_map]
  rfl

/-- **Linkage**: the unit of an accepted program is closed. A routine that is called is that which
prints or one of a function of the program, and stands in the unit; a routine from outside that is
called is one of the two that are taken from there. An operand with a symbol has its storage in the
segment for it. All symbols that the unit makes known come from its definitions. Two of them are
the same only if they are of functions of one name or of variables of one name, and that is so
nowhere unless redeclarations are allowed. -/
theorem Session.unit_closed {room : Option ℕ} {out : Emission} (hanalyze : s.analyze p = .ok a)
    (herrors : a.errors = []) (hemit : a.session.emit room a.program = .ok out)
    (hout : out.error = none) :
    out.output = textBytes (a.session.unit a.program) ∧
    (∀ x, .instr (.call x) ∈ a.session.unit a.program → .routine x ∈ a.session.unit a.program ∧
      (x = printSymbol ∨ ∃ f ∈ p.functions, x = functionSymbol f.name.name)) ∧
    (∀ x, .instr (.callExternal x) ∈ a.session.unit a.program →
      .external x ∈ a.session.unit a.program ∧ (x = "printf" ∨ x = "exit")) ∧
    (∀ o ∈ operands (a.session.unit a.program), ∀ x n, o.address = .symbol x n →
      ∃ bytes, StandsIn "bss" (a.session.unit a.program) (.reserve x bytes)) ∧
    linked (a.session.unit a.program) = p.definitions.map Definition.symbol ∧
    (p.definitions.Pairwise fun d e => d.symbol = e.symbol →
      (∃ x, d = .function x ∧ e = .function x) ∨ ∃ x, d = .global x ∧ e = .global x) ∧
    (s.options.allowRedeclaration = false → (p.definitions.map Definition.symbol).Nodup) := by
  obtain ⟨t, htrace, harena, hflat⟩ := Session.trace_of_analyze hanalyze herrors
  obtain ⟨g', hyields, rfl⟩ := emit_eq_ok hemit hout
  have hbare : a.program.bare = p.bare := by
    obtain ⟨_, hresolve, -⟩ := Session.analyze_eq_ok hanalyze herrors
    exact Program.bare_resolve hresolve
  have hcalls : ∀ l ∈ a.session.unit a.program, a.program.callTerms.line l := fun l hl =>
    (Program.meets_lower (fun f hf => Session.permits_calls hanalyze herrors hf) _).1 l hl
  dsimp only
  refine ⟨rfl, fun x hx => ?_, fun x hx => ?_, fun o ho x n hx => ?_, ?_, p.definitions_pairwise,
    fun hopts => ?_⟩
  · have hcallee := (hcalls _ hx).1 x rfl
    refine ⟨Program.routine_mem hyields hcallee, hcallee.imp_right ?_⟩
    -- analysis has annotated the functions, but not renamed them
    rintro ⟨f, hf, rfl⟩
    obtain ⟨f', hf', hname⟩ := Program.exists_function_named hbare hf
    exact ⟨f', hf', by rw [hname]⟩
  · have hexternal := (hcalls _ hx).2 x rfl
    exact ⟨Program.external_mem hyields hexternal, hexternal⟩
  · obtain ⟨bytes, hreserve⟩ := Session.exists_reserve hanalyze herrors ho hx
    obtain ⟨rs, -, hunit, -⟩ := Program.exists_routines hyields
    have hstands := (standsIn_reserveLines hreserve).append
      (preludeLines ++ rs.flatMap Routine.text) dataLines
    exact ⟨bytes, by simpa [hunit] using hstands⟩
  · rw [← Program.definitions_congr hbare]
    exact Program.linked_lower hyields (harena ▸ htrace.names hflat rfl)
  · rw [← Program.definitions_congr hbare]
    have hnodup := Program.definitions_nodup (htrace.named_nodup hflat hopts rfl)
      (htrace.named_nodup hflat hopts rfl)
    exact hnodup.map Definition.symbol_injective

end Unit

def totalName : Ident := ⟨"total", 0, some 0⟩

/-- A function that adds to the total. -/
def addFunction : FunDecl where
  name := ⟨"add", 0, some 1⟩
  params := [⟨⟨"n", 0, some 2⟩, .int, none⟩]
  returns := some .int
  body := [.ret (some (.assign totalName
    (.binary (.arith .add) (.name totalName) (.name ⟨"n", 0, some 2⟩))))]
  parameterSize := 8

/-- An entry point that prints what the function gives. -/
def totalFunction : FunDecl where
  name := ⟨"main", 0, some 3⟩
  params := []
  returns := some .int
  body := [.expr (.call ⟨printName, 0, none⟩ [.call addFunction.name [.int 4]]),
    .ret (some (.name totalName))]

def totalProgram : Program :=
  [.globalVar ⟨totalName, .int, some (.int 3)⟩, .function addFunction, .function totalFunction]

def totalSession : Session where
  arena := #[⟨"total", .globalVar, .int, 8, 8, []⟩, ⟨"add", .function, .int, 0, 0, [2]⟩,
    ⟨"n", .param, .int, 8, 0, []⟩, ⟨"main", .function, .int, 0, 0, []⟩]

theorem Session.unit_total :
    ({} : Session).analyze totalProgram = .ok ⟨totalSession, totalProgram, []⟩ ∧
    (∃ out, totalSession.emit none totalProgram = .ok out ∧ out.error = none) ∧
    linked (totalSession.unit totalProgram) =
      ["printf", "exit", "print", "function_add", "main", "global_total", "num_fmt"] ∧
    (linked (totalSession.unit totalProgram)).Nodup ∧
    .routine "function_add" ∈ totalSession.unit totalProgram ∧
    ∃ bytes, StandsIn "bss" (totalSession.unit totalProgram) (.reserve "global_total" bytes) := by
  have hanalyze : ({} : Session).analyze totalProgram = .ok ⟨totalSession, totalProgram, []⟩ :=
    Session.analyze_of_resolve (a := ⟨totalSession, totalProgram, []⟩) rfl rfl rfl
  have hresult : (totalProgram.lower totalSession.arena {}).result = .ok () := by decide +kernel
  have hemit : totalSession.emit none totalProgram = .ok _ :=
    emit_of_yields (Gen.yields_of_result hresult)
  have hcall : .instr (.call "function_add") ∈ totalSession.unit totalProgram := by decide +kernel
  have hoperand : ⟨.qword, .symbol "global_total" 0⟩ ∈
      operands (totalSession.unit totalProgram) := by decide +kernel
  obtain ⟨-, hcalls, -, hglobals, hlinked, -, hnodup⟩ := Session.unit_closed hanalyze rfl hemit rfl
  exact ⟨hanalyze, ⟨_, hemit, rfl⟩, hlinked, hlinked ▸ hnodup rfl, (hcalls _ hcall).1,
    hglobals _ hoperand _ _ rfl⟩

end TreeCompiler

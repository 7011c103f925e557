import TreeCompiler.Proofs.Linkage
import TreeCompiler.Proofs.Relabelling

/-!
The code of a program does not depend on the names of its locals.

Names are compared with each other and with two that are built in, and those of functions and
globals become symbols of the unit. So a renaming that keeps different names different, and that
keeps the names of the top level and the two that are built in, is followed by resolution, by
checking and by code generation step by step, and the lines that are written are the same.
-/

namespace TreeCompiler

variable {φ : Relabelling} {α β : Type}

/-! ### Checking -/

/-- A report that quotes something else is of the same kind. -/
lemma Diagnostic.Like.unquoted_eq {S : String → String → Prop} {T : Ty → Ty → Prop}
    {d d' : Diagnostic} (h : d.Like S T d') : d'.unquoted = d.unquoted := by
  cases h with
  | mismatch h => cases h <;> rfl
  | missingReturnType _ | notAVariable _ | notAFunction _ => rfl

namespace Check

variable {opts : Options}

/-- Two checks whose reports are of the same kinds. -/
abbrev Couples (E : α → α → Prop) (x y : Check α) : Prop :=
  TreeCompiler.Couples SameKinds (fun _ => True) E x y

namespace Couples

lemma report {d d' : Diagnostic} (h : d'.unquoted = d.unquoted) :
    Couples (fun _ _ => True) (report opts d) (report opts d') := by
  have hmodify : Couples Eq (Check.report opts d) (Check.report opts d') :=
    .modify (fun _ _ => trivial) fun _ _ hs _ => hs.report rfl h
  exact hmodify.mono fun _ _ _ => trivial

lemma unlessHalted {x y : Check Unit} (h : Couples (fun _ _ => True) x y) :
    Couples (fun _ _ => True) (unlessHalted opts x) (unlessHalted opts y) where
  back _ := ⟨fun _ => trivial, (), trivial⟩
  step {_ s' _ _} hs hrun ht := by
    rw [Check.unlessHalted, hs.halts_eq rfl]
    rw [Check.unlessHalted] at hrun
    split at hrun
    · next hhalts =>
      obtain ⟨-, rfl⟩ := Prod.mk.inj (Except.ok.inj hrun)
      rw [if_pos hhalts]
      exact ⟨(), s', rfl, trivial, hs⟩
    · next hhalts =>
      rw [if_neg hhalts]
      exact h.step hs hrun ht

end Couples

/-- The rules, from what is known of the leaves, the types and the symbols. -/
lemma Rules.couples {arena arena' : Arena} {S : String → String → Prop} {T : Ty → Ty → Prop}
    {m : LeafMap} (types : TypeLaws T) (leaves : LeafLaws S T m)
    (find : ∀ id symbol, Arena.find arena id = .ok symbol →
      ∃ symbol', Arena.find arena' id = .ok symbol' ∧
        symbol.Like (fun _ => True) T symbol') :
    Rules (fun E x y => Couples E x y) ⟨opts, arena⟩ ⟨opts, arena'⟩ (fun _ => True) S T m where
  types := types
  leaves := leaves
  pure h := TreeCompiler.Couples.pure h
  bind h hf := h.bind hf
  report h := Couples.report h.unquoted_eq
  unlessHalted h := Couples.unlessHalted h
  find {id} _ := TreeCompiler.Couples.lift (find id)

end Check

/-- The symbols, with their other names and types. -/
def CheckContext.relabel (φ : Relabelling) (ctx : CheckContext) : CheckContext :=
  { ctx with arena := ctx.arena.map (Symbol.relabel φ) }

lemma Relabelling.KeepsTyping.typeLaws (hφ : φ.KeepsTyping) :
    Check.TypeLaws fun t t' => φ.ty t = t' where
  void := hφ.void
  int := hφ.int
  bool := hφ.bool
  element := by
    rintro t t' rfl
    exact (hφ.element t).symm
  isNumeric := by
    rintro t t' rfl
    exact hφ.isNumeric t
  isBool := by
    rintro t t' rfl
    exact hφ.isBool t
  compatible := by
    rintro t t' u u' rfl rfl
    exact hφ.compatible t u

/-- The texts that are quoted may be any. -/
lemma Relabelling.KeepsTyping.leafLaws (hφ : φ.KeepsTyping) :
    Check.LeafLaws (fun _ _ => True) (fun t t' => φ.ty t = t') φ.leaves where
  used_symbol _ := rfl
  used_name _ := trivial
  used_render _ := trivial
  called_print f := hφ.beq_print f
  called_symbol _ _ := rfl
  called_render _ := trivial
  declared_render _ := trivial
  render _ := trivial
  nothing := trivial
  ty _ := rfl

/-- **Relabelled checking**: a program and the relabelled program are checked side by side. -/
lemma Program.couples_check (hφ : φ.KeepsTyping) (p : Program) (ctx : CheckContext) :
    Check.Couples (fun _ _ => True) (p.check ctx) ((p.relabel φ).check (ctx.relabel φ)) := by
  refine p.holds_check (.couples hφ.typeLaws hφ.leafLaws fun id symbol hid => ?_) allKnown_true
  exact ⟨symbol.relabel φ, Arena.find_map _ hid, rfl, rfl, rfl, fun _ _ => trivial⟩

/-! ### Steps of code generation -/

/-- The error, without the name that it quotes. -/
def LoweringError.unquoted : LoweringError → LoweringError
  | outOfRegisters => .outOfRegisters
  | unresolved _ => .unresolved ""
  | notAddressable _ => .notAddressable ""
  | outOfBounds _ n => .outOfBounds "" n

def Stop.unquoted : Stop → Stop
  | error e => .error e.unquoted
  | dangling d => .dangling d

namespace Gen

variable {x y : Gen α}

/-- Both steps write the same, leave the same state and end alike, if the functions that the first
one calls keep their names. -/
def Alike (φ : Relabelling) (x y : Gen α) : Prop :=
  ∀ g, (∀ f, .instr (.call (functionSymbol f)) ∈ lines (x g).code → φ.name f = f) →
    (y g).code = (x g).code ∧ (y g).state = (x g).state ∧
      (y g).result.mapError Stop.unquoted = (x g).result.mapError Stop.unquoted

namespace Alike

lemma refl (x : Gen α) : Alike φ x x := fun _ _ => ⟨rfl, rfl, rfl⟩

lemma bind {f f' : α → Gen β} (h : Alike φ x y) (hf : ∀ a, Alike φ (f a) (f' a)) :
    Alike φ (x >>= f) (y >>= f') := by
  intro g hcalls
  match hx : x g, hy : y g with
  | ⟨code, g₁, .ok a⟩, ⟨code', g₁', result⟩ =>
    rw [bind_of_ok hx] at hcalls ⊢
    simp only [lines_append, List.mem_append] at hcalls
    obtain ⟨hcode, hstate, hresult⟩ := h g fun f hcall => hcalls f (.inl (by rwa [hx] at hcall))
    obtain ⟨rfl, rfl⟩ : code' = code ∧ g₁' = g₁ := by
      rw [hx, hy] at hcode hstate
      exact ⟨hcode, hstate⟩
    obtain rfl : result = .ok a := by
      rw [hx, hy] at hresult
      cases result with
      | ok b => exact hresult
      | error e => cases hresult
    rw [bind_of_ok hy]
    obtain ⟨hcode, hstate, hresult⟩ := hf a g₁' fun f hcall => hcalls f (.inr hcall)
    exact ⟨congrArg (code' ++ ·) hcode, hstate, hresult⟩
  | ⟨code, g₁, .error e⟩, ⟨code', g₁', result⟩ =>
    rw [bind_of_error hx] at hcalls ⊢
    obtain ⟨hcode, hstate, hresult⟩ := h g (by rwa [hx])
    rw [hx, hy] at hcode hstate hresult
    cases result with
    | ok b => cases hresult
    | error e' =>
      rw [bind_of_error hy]
      exact ⟨hcode, hstate, congrArg Except.error (Except.error.inj hresult)⟩

lemma stop {e e' : LoweringError} (h : e'.unquoted = e.unquoted) :
    Alike φ (stop e : Gen α) (Gen.stop e') := by
  intro _ _
  refine ⟨rfl, rfl, ?_⟩
  exact congrArg (fun e => Except.error (Stop.error e)) h

lemma ofExcept {r r' : Except LoweringError α}
    (h : r'.mapError LoweringError.unquoted = r.mapError LoweringError.unquoted) :
    Alike φ (ofExcept r) (Gen.ofExcept r') := by
  match r, r' with
  | .ok a, .ok b =>
    obtain rfl := Except.ok.inj h
    exact refl _
  | .error _, .error _ => exact stop (Except.error.inj h)
  | .ok _, .error _ | .error _, .ok _ => cases h

end Alike

/-- Looking up a symbol that is there. -/
lemma symbol_eq_pure {arena : Arena} {id : SymbolId} {s : Symbol} (h : arena[id]? = some s) :
    symbol arena id = pure s := by
  funext g
  rw [symbol, Arena.find_eq_ok_iff.mpr h]
  rfl

lemma symbol_bind_eq_dangling {arena : Arena} {id : SymbolId} {f : Symbol → Gen α}
    (h : arena[id]? = none) :
    symbol arena id >>= f = fun g => ⟨[], g, .error (.dangling ⟨id⟩)⟩ := by
  funext g
  refine bind_of_error ?_
  rw [symbol, Arena.find, h]

end Gen

open Gen (Alike)

/-- Code generation sees no difference: the globals keep their names. -/
structure Relabelling.KeepsCode (φ : Relabelling) (arena : Arena) : Prop
    extends φ.KeepsStorage where
  globals (symbol : Symbol) : symbol ∈ arena → symbol.kind = .globalVar →
    φ.name symbol.name = symbol.name

section Code

variable {arena : Arena}

lemma Symbol.locate_relabel (hφ : φ.KeepsStorage) (symbol : Symbol) (n : ℕ)
    (hname : symbol.kind = .globalVar → φ.name symbol.name = symbol.name) :
    ((symbol.relabel φ).locate n).mapError LoweringError.unquoted =
      (symbol.locate n).mapError LoweringError.unquoted := by
  have hsize : (symbol.relabel φ).ty.elementSize = symbol.ty.elementSize := hφ.elementSize symbol.ty
  have hbytes : (symbol.relabel φ).size = symbol.size := rfl
  have hkind : (symbol.relabel φ).kind = symbol.kind := rfl
  rw [locate, locate, hsize, hbytes, hkind]
  split
  · rfl
  · split
    · rfl
    · split
      · next hglobal =>
        have hsame : (symbol.relabel φ).name = symbol.name := hname hglobal
        rw [hsame]
      · rfl
      · rfl
      · rfl

lemma Ident.alike_operand (h : φ.KeepsCode arena) (x : Ident) :
    Alike φ (x.operand arena) ((x.relabel φ).operand (arena.map (Symbol.relabel φ))) := by
  have hsymbol : (x.relabel φ).symbol = x.symbol := rfl
  have hoffset : (x.relabel φ).offset = x.offset := rfl
  rw [operand, operand, hsymbol, hoffset]
  split
  · exact .stop rfl
  · next id _ =>
    -- the id is in both arenas or in none of them
    cases hid : arena[id]? with
    | none =>
      have hid' : (arena.map (Symbol.relabel φ))[id]? = none := by
        rw [Array.getElem?_map, hid]
        rfl
      rw [Gen.symbol_bind_eq_dangling hid, Gen.symbol_bind_eq_dangling hid']
      exact .refl _
    | some symbol =>
      have hid' : (arena.map (Symbol.relabel φ))[id]? = some (symbol.relabel φ) := by
        rw [Array.getElem?_map, hid]
        rfl
      rw [Gen.symbol_eq_pure hid, Gen.symbol_eq_pure hid', pure_bind, pure_bind]
      exact .ofExcept (Symbol.locate_relabel h.toKeepsStorage symbol x.offset
        (h.globals symbol (Array.mem_of_getElem? hid)))

/-- A call is to the same routine if the function keeps its name. -/
lemma Ident.alike_call (hφ : φ.KeepsTyping) (f : Ident) :
    Alike φ (Gen.instr (.call f.routine)) (Gen.instr (.call (f.relabel φ).routine)) := by
  intro g hcalls
  have hroutine : (f.relabel φ).routine = f.routine := by
    rw [routine, routine, hφ.beq_print]
    split
    · rfl
    · next hprint =>
      have hname : φ.name f.name = f.name := hcalls f.name (by simp [Gen.instr, Gen.emit, lines,
        routine, hprint])
      exact congrArg functionSymbol hname
  rw [hroutine]
  exact ⟨rfl, rfl, rfl⟩

lemma Gen.Rules.alike (h : φ.KeepsCode arena) :
    Rules (fun x y => Alike φ x y) arena (arena.map (Symbol.relabel φ)) φ.leaves where
  refl := .refl
  bind hx hf := hx.bind hf
  used x := x.alike_operand h
  declared x := x.alike_operand h
  called_print f := h.beq_print f
  called f := f.alike_call h.toKeepsTyping
  bytes _ := rfl

lemma reserveLines_relabel (h : φ.KeepsCode arena) :
    reserveLines (arena.map (Symbol.relabel φ)) = reserveLines arena := by
  have hfilter : (arena.map (Symbol.relabel φ)).toList.filter (·.kind == .globalVar) =
      (arena.toList.filter (·.kind == .globalVar)).map (Symbol.relabel φ) := by
    rw [Array.toList_map, List.filter_map]
    rfl
  have hlines : ((arena.toList.filter (·.kind == .globalVar)).map (Symbol.relabel φ)).map
      (fun s => Line.reserve (globalSymbol s.name) (max s.size 1)) =
        (arena.toList.filter (·.kind == .globalVar)).map
          fun s => .reserve (globalSymbol s.name) (max s.size 1) := by
    rw [List.map_map]
    refine List.map_congr_left fun symbol hsymbol => ?_
    obtain ⟨hmem, hkind⟩ := List.mem_filter.mp hsymbol
    have hname := h.globals symbol (Array.mem_toList_iff.mp hmem) (eq_of_beq hkind)
    exact congrArg (fun x => Line.reserve (globalSymbol x) (max symbol.size 1)) hname
  rw [reserveLines, reserveLines, hfilter]
  generalize arena.toList.filter (·.kind == .globalVar) = globals at hlines ⊢
  cases globals with
  | nil => rfl
  | cons symbol rest => exact congrArg ([.blank, .segment "bss"] ++ ·) hlines

/-- **Relabelled code**: a program and the relabelled program are lowered side by side. -/
lemma Program.alike_lower (h : φ.KeepsCode arena) (p : Program)
    (hnames : ∀ f ∈ p.functions, φ.name f.name.name = f.name.name) :
    Alike φ (p.lower arena) ((p.relabel φ).lower (arena.map (Symbol.relabel φ))) :=
  p.holds_lower (.alike h) hnames (reserveLines_relabel h)

end Code

/-! ### Renamings -/

def Element.rename (σ : String → String) : Element → Element
  | prim p => .prim p
  | named x => .named (σ x)

lemma Element.rename_injective {σ : String → String} (hσ : Function.Injective σ) :
    Function.Injective (Element.rename σ) := by
  intro e e' h
  cases e <;> cases e'
  case prim.prim => exact h
  case named.named => rw [hσ (Element.named.inj h)]
  all_goals cases h

/-- The type, if the types that are known by name only have other names. -/
def Ty.rename (σ : String → String) (t : Ty) : Ty := { t with elem := t.elem.rename σ }

namespace Relabelling

/-- Other names for what is declared, and other names for types. -/
def ofNames (ρ σ : String → String) : Relabelling := ⟨ρ, Ty.rename σ⟩

/-- What a type is like does not depend on how it is called. -/
lemma keepsStorage_ofNames {ρ σ : String → String} (hρ : Function.Injective ρ)
    (hσ : Function.Injective σ) (hprint : ρ printName = printName) :
    (ofNames ρ σ).KeepsStorage where
  print _ := hρ.eq_iff' hprint
  void := rfl
  int := rfl
  bool := rfl
  element _ := rfl
  isNumeric t := by
    obtain ⟨elem, _⟩ := t
    cases elem <;> rfl
  isBool t := by
    obtain ⟨elem, _⟩ := t
    cases elem <;> rfl
  compatible t u := by
    obtain ⟨elem, _⟩ := t
    obtain ⟨elem', _⟩ := u
    have helem : (elem.rename σ == elem'.rename σ) = (elem == elem') := by
      rw [Bool.eq_iff_iff, beq_iff_eq, beq_iff_eq, (Element.rename_injective hσ).eq_iff]
    have hnumeric (e : Element) : (e.rename σ).isNumeric = e.isNumeric := by
      cases e <;> rfl
    simp only [ofNames, Ty.rename, Ty.compatible, Ty.isNumeric, helem, hnumeric]
  injective := hρ
  isPointer _ := rfl
  elementSize t := by
    obtain ⟨elem, _⟩ := t
    cases elem <;> rfl
  elements? _ := rfl

end Relabelling

/-! ### Sessions -/

def EmissionError.unquoted : EmissionError → EmissionError
  | lowering e => .lowering e.unquoted
  | sinkFull => .sinkFull

def CompileError.unquoted : CompileError → CompileError
  | semantic errors => .semantic (errors.map Diagnostic.unquoted)
  | codegen e => .codegen e.unquoted

/-- The relabelled emission: the output and the counters are the same, and so is the kind of
error. -/
structure Emission.Follows (φ : Relabelling) (e e' : Emission) : Prop where
  error : e'.error.map EmissionError.unquoted = e.error.map EmissionError.unquoted
  output : e'.output = e.output
  arena : e'.session.arena = e.session.arena.map (Symbol.relabel φ)
  labels : e'.session.labels = e.session.labels
  bank : e'.session.bank = e.session.bank

/-- The relabelled compilation: the output and the counters are the same, and so are the kinds of
errors. The tree and the symbols are the relabelled ones. -/
structure Compilation.Follows (φ : Relabelling) (c c' : Compilation) : Prop where
  error : c'.error.map CompileError.unquoted = c.error.map CompileError.unquoted
  output : c'.output = c.output
  program : c'.program = c.program.relabel φ
  arena : c'.session.arena = c.session.arena.map (Symbol.relabel φ)
  labels : c'.session.labels = c.session.labels
  bank : c'.session.bank = c.session.bank

/-- A renaming that keeps the names of the top level keeps those of each kind. -/
lemma Program.name_eq_of_named {p : Program} (htop : ∀ d ∈ p, φ.name d.entry.1 = d.entry.1)
    {kind : SymbolKind} {x : String} (hx : x ∈ p.named kind) : φ.name x = x := by
  obtain ⟨entry, hentry, rfl⟩ := List.mem_map.mp hx
  obtain ⟨d, hd, rfl⟩ := List.mem_map.mp (List.mem_filter.mp hentry).1
  exact htop d hd

namespace Session

variable {s s' : Session} {p : Program} {a : Analysis}

/-- Checking the relabelled program reports the same kinds of errors. -/
lemma follows_check {errors : List Diagnostic} (hφ : φ.KeepsTyping)
    (hoptions : s'.options = s.options) (harena : s'.arena = s.arena.map (Symbol.relabel φ))
    (h : s.check p = .ok errors) :
    ∃ errors', s'.check (p.relabel φ) = .ok errors' ∧ SameKinds errors errors' := by
  obtain ⟨⟨_, es⟩, hrun, hes⟩ := bind_eq_ok.mp h
  obtain rfl : es = errors := Except.ok.inj hes
  have hstart : SameKinds [] [] := rfl
  obtain ⟨_, errors', hrun', -, hkinds⟩ := (p.couples_check hφ _).step hstart hrun trivial
  refine ⟨errors', ?_, hkinds⟩
  rw [check, hoptions, harena]
  exact bind_eq_ok.mpr ⟨_, hrun', rfl⟩

/-- Analysis takes the relabelled program to the relabelled analysis. -/
lemma follows_analyze (hφ : φ.KeepsStorage) (s : Session) (p : Program) :
    ∃ a a', s.analyze p = .ok a ∧ s.analyze (p.relabel φ) = .ok a' ∧ a.Follows φ a' := by
  obtain ⟨a, hresolve, -⟩ := s.exists_resolve p
  obtain ⟨a', hresolve', hfollows⟩ := follows_resolve s ⟨rfl, id⟩ hφ hresolve (.inl rfl)
  by_cases ha : a.errors = []
  · have ha' : a'.errors = [] := hfollows.errors.eq_nil_iff.mpr ha
    have hoptions : a'.session.options = a.session.options := by
      obtain ⟨_, -, -, hsession⟩ := resolve_eq_ok hresolve
      obtain ⟨_, -, -, hsession'⟩ := resolve_eq_ok hresolve'
      rw [hsession, hsession']
    obtain ⟨b, hb⟩ := s.exists_analyze p
    obtain ⟨hcheck, hprogram, hsession⟩ := check_of_analyze hresolve ha hb
    obtain ⟨errors', hcheck', hkinds⟩ :=
      follows_check hφ.toKeepsTyping hoptions hfollows.arena hcheck
    rw [← hfollows.program] at hcheck'
    refine ⟨b, _, hb, analyze_of_resolve hresolve' ha' hcheck', hkinds, ?_, ?_, ?_, ?_⟩
    · rw [hprogram]
      exact hfollows.program
    all_goals rw [hsession]
    · exact hfollows.arena
    · exact hfollows.labels
    · exact hfollows.bank
  · exact ⟨a, a', analyze_of_reports hresolve ha, analyze_of_reports hresolve'
      (mt hfollows.errors.eq_nil_iff.mp ha), hfollows⟩

/-- So does emission, for a program whose functions keep their names, as those do that are
called. -/
lemma follows_emit {room : Option ℕ} {e : Emission} (hcode : φ.KeepsCode s.arena)
    (hnames : ∀ f ∈ p.functions, φ.name f.name.name = f.name.name)
    (hcalls : ∀ f, .instr (.call (functionSymbol f)) ∈ s.unit p → φ.name f = f)
    (harena : s'.arena = s.arena.map (Symbol.relabel φ)) (hlabels : s'.labels = s.labels)
    (hbank : s'.bank = s.bank) (h : s.emit room p = .ok e) :
    ∃ e', s'.emit room (p.relabel φ) = .ok e' ∧ e.Follows φ e' := by
  obtain ⟨hlines, hstate, hresult⟩ :=
    p.alike_lower hcode hnames { labels := s.labels, bank := s.bank } hcalls
  rw [emit] at h ⊢
  rw [harena, hlabels, hbank]
  generalize p.lower s.arena { labels := s.labels, bank := s.bank } = outcome at *
  generalize (p.relabel φ).lower (s.arena.map (Symbol.relabel φ))
    { labels := s.labels, bank := s.bank } = outcome' at *
  obtain ⟨code, g, result⟩ := outcome
  obtain ⟨code', g', result'⟩ := outcome'
  obtain rfl : code' = code := hlines
  obtain rfl : g' = g := hstate
  -- the same lines go to the same output, so it is full at the same line or not at all
  rcases hwrite : ({ room } : Sink).writeLines code' with ⟨sink, _ | l⟩
  · simp only [hwrite] at h ⊢
    rcases result with (stop | d) | _
    · rcases result' with (stop' | d') | _
      · obtain rfl := Except.ok.inj h
        have hkind := Stop.error.inj (Except.error.inj hresult)
        exact ⟨_, rfl, congrArg (some <| EmissionError.lowering ·) hkind, rfl, rfl, rfl, rfl⟩
      all_goals cases hresult
    · cases h
    · cases result' with
      | ok u =>
        obtain rfl := Except.ok.inj h
        exact ⟨_, rfl, rfl, rfl, rfl, rfl, rfl⟩
      | error stop' => cases hresult
  · simp only [hwrite] at h ⊢
    obtain rfl := Except.ok.inj h
    exact ⟨_, rfl, rfl, rfl, rfl, rfl, rfl⟩

/-- The names of the top level are all that code generation looks at. -/
lemma keeps_of_analyze (hφ : φ.KeepsStorage) (htop : ∀ d ∈ p, φ.name d.entry.1 = d.entry.1)
    (hanalyze : s.analyze p = .ok a) (herrors : a.errors = []) : φ.KeepsCode a.session.arena ∧
      (∀ f ∈ a.program.functions, φ.name f.name.name = f.name.name) ∧
      ∀ f, .instr (.call (functionSymbol f)) ∈ a.session.unit a.program → φ.name f = f := by
  obtain ⟨t, htrace, harena, hflat⟩ := trace_of_analyze hanalyze herrors
  have hbare : a.program.bare = p.bare := (analyze_keeps hanalyze).2
  have hnamed (kind : SymbolKind) {x : String} (hx : x ∈ a.program.named kind) : φ.name x = x :=
    Program.name_eq_of_named htop (Program.named_congr hbare kind ▸ hx)
  have hfunctions : ∀ f ∈ a.program.functions, φ.name f.name.name = f.name.name := fun f hf =>
    hnamed .function (by
      rw [Program.named_function]
      exact List.mem_map_of_mem hf)
  refine ⟨⟨hφ, fun symbol hsymbol hkind => ?_⟩, hfunctions, fun f hf => ?_⟩
  · refine hnamed .globalVar ?_
    rw [← htrace.names hflat rfl, ← harena]
    have hmem : symbol ∈ a.session.arena.toList.filter (·.kind == .globalVar) :=
      List.mem_filter.mpr ⟨Array.mem_toList_iff.mpr hsymbol, by simp [hkind]⟩
    exact List.mem_map_of_mem hmem
  · have hline := (Program.meets_lower (fun f hf => permits_calls hanalyze herrors hf) _).1 _ hf
    obtain hprint | ⟨callee, hcallee, hsymbol⟩ := hline.1 _ rfl
    · -- no function has the symbol of the built-in, whatever its name is
      have hsymbol : (Definition.function f).symbol = Definition.print.symbol := hprint
      cases Definition.symbol_injective hsymbol
    · rw [functionSymbol_injective hsymbol]
      exact hfunctions callee hcallee

/-- **Local names do not matter**: give other names to what a program declares, and to the types
that are known by name only, so that different names stay different and so that the name of the
built-in and all names of the top level stay as they are. For any options and any output, the
program and the renamed program compile alike: the same bytes are written, the same labels are
issued, the same registers were used, and what is reported is of the same kinds in the same order.
The symbols are the same but for their names, and so are the trees, with the ids that they refer
to. -/
theorem compile_renamed {ρ σ : String → String} (hρ : Function.Injective ρ)
    (hσ : Function.Injective σ) (hprint : ρ printName = printName)
    (htop : ∀ d ∈ p, ρ d.entry.1 = d.entry.1) (s : Session) (room : Option ℕ) :
    ∃ c c', s.compile room p = .ok c ∧
      s.compile room (p.relabel (.ofNames ρ σ)) = .ok c' ∧ c.Follows (.ofNames ρ σ) c' := by
  have hφ := Relabelling.keepsStorage_ofNames hρ hσ hprint
  obtain ⟨a, a', ha, ha', hfollows⟩ := follows_analyze hφ s p
  by_cases hclean : a.errors = []
  · have hclean' : a'.errors = [] := hfollows.errors.eq_nil_iff.mpr hclean
    obtain ⟨hcode, hnames, hcalls⟩ := keeps_of_analyze hφ htop ha hclean
    obtain ⟨e, he⟩ := exists_emit (accepted ha hclean) room
    obtain ⟨e', he', hemit⟩ := follows_emit hcode hnames hcalls hfollows.arena hfollows.labels
      hfollows.bank he
    rw [← hfollows.program] at he'
    have herror : (e'.error.map CompileError.codegen).map CompileError.unquoted =
        (e.error.map CompileError.codegen).map CompileError.unquoted := by
      have hcodegen := congrArg (Option.map CompileError.codegen) hemit.error
      rw [Option.map_map, Option.map_map] at hcodegen
      rw [Option.map_map, Option.map_map]
      exact hcodegen
    exact ⟨_, _, compile_of_emit ha hclean he, compile_of_emit ha' hclean' he', herror,
      hemit.output, hfollows.program, hemit.arena, hemit.labels, hemit.bank⟩
  · have hclean' : a'.errors ≠ [] := mt hfollows.errors.eq_nil_iff.mp hclean
    exact ⟨_, _, compile_of_reports ha hclean room, compile_of_reports ha' hclean' room,
      congrArg (some <| CompileError.semantic ·) hfollows.errors, rfl, hfollows.program,
      hfollows.arena, hfollows.labels, hfollows.bank⟩

/-- A function that takes a local from its parameter. -/
def differenceFunction : FunDecl where
  name := ⟨"difference", 0, some 0⟩
  params := [⟨⟨"x", 0, some 1⟩, .int, none⟩]
  returns := some .int
  body := [.decl (.localVar ⟨⟨"y", 0, some 2⟩, .int, some (.int 1)⟩),
    .ret (some (.binary (.arith .sub) (.name ⟨"x", 0, some 1⟩) (.name ⟨"y", 0, some 2⟩)))]
  variableSize := 8
  parameterSize := 8

def differenceSession : Session where
  arena := #[⟨"difference", .function, .int, 0, 0, [1]⟩, ⟨"x", .param, .int, 8, 0, []⟩,
    ⟨"y", .localVar, .int, 8, 8, []⟩]

theorem compile_swapped :
    [.function differenceFunction] ≠
      Program.relabel (.ofNames (Equiv.swap "x" "y") id) [.function differenceFunction] ∧
    ∃ c c', ({} : Session).compile none [.function differenceFunction] = .ok c ∧
      ({} : Session).compile none (Program.relabel (.ofNames (Equiv.swap "x" "y") id)
        [.function differenceFunction]) = .ok c' ∧
      c.error = none ∧ c.Follows (.ofNames (Equiv.swap "x" "y") id) c' := by
  have hswapped (x : String) (hx : x ≠ "x") (hy : x ≠ "y") : Equiv.swap "x" "y" x = x :=
    Equiv.swap_apply_of_ne_of_ne hx hy
  have htop : ∀ d ∈ [Decl.function differenceFunction],
      Equiv.swap "x" "y" d.entry.1 = d.entry.1 := by
    intro d hd
    obtain rfl := List.mem_singleton.mp hd
    exact hswapped "difference" (by decide) (by decide)
  obtain ⟨c, c', hc, hc', hfollows⟩ := compile_renamed (Equiv.swap "x" "y").injective
    Function.injective_id (hswapped printName (by decide) (by decide)) htop {} none
  have hanalyze : ({} : Session).analyze [.function differenceFunction] =
      .ok ⟨differenceSession, [.function differenceFunction], []⟩ :=
    analyze_of_resolve (a := ⟨differenceSession, [.function differenceFunction], []⟩) rfl rfl rfl
  have hresult : (Program.lower differenceSession.arena [.function differenceFunction] {}).result =
      .ok () := by decide +kernel
  have hemit : differenceSession.emit none [.function differenceFunction] = .ok _ :=
    emit_of_yields (Gen.yields_of_result hresult)
  obtain rfl := Except.ok.inj (hc.symm.trans (compile_of_emit hanalyze rfl hemit))
  refine ⟨fun h => ?_, _, c', hc, hc', rfl, hfollows⟩
  -- the parameter has another name
  have hnames := congrArg (fun p => (Program.functions p).map fun f => f.params.map (·.name.name)) h
  exact absurd hnames (by decide)

end Session

end TreeCompiler

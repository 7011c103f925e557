import TreeCompiler.Session
import TreeCompiler.Proofs.Binding
import TreeCompiler.Proofs.ExprSimulation
import TreeCompiler.Proofs.Generated

/-!
Accepted programs.

If analysis has nothing to report, then every name in the code of a function stands for a
symbol of its name, variables are used as variables and lie within the frame, and calls pass
as many words as their routine takes. This is what the code of an expression has to know to
compute its value.
-/

namespace TreeCompiler

variable {arena : Arena} {bytes frame : ℕ}

/-- What analysis says of an expression in a function whose variables take that many bytes. -/
structure Expr.Accepted (arena : Arena) (bytes : ℕ) (e : Expr) : Prop where
  grounded : ∀ x ∈ e.uses, ∃ id symbol, x.Grounded arena bytes id symbol
  checked : e.Checked arena

/-- A name that stands for a variable with its size; a local lies within the frame. -/
def Ident.Stored (arena : Arena) (bytes : ℕ) (x : Ident) (ty : Ty) : Prop :=
  ∃ kind id symbol, kind ≠ .function ∧ x.Declared arena bytes kind ty id symbol

/-- The variables that the code of a function may give their values. -/
def FunDecl.initialized (globals : List Var) (f : FunDecl) : List Var :=
  f.preset globals ++ Stmt.varsAll f.body

/-- What analysis says of the functions of a program. -/
structure Program.Accepted (arena : Arena) (p : Program) : Prop where
  exprs : ∀ f ∈ p.functions, ∀ e ∈ f.generated p.globals, e.Accepted arena f.variableSize
  vars : ∀ f ∈ p.functions, ∀ v ∈ f.initialized p.globals, v.name.Stored arena f.variableSize v.ty
  room : ∀ f ∈ p.functions, f.variableSize ≤ storageLimit

/-! ### What analysis establishes -/

lemma bind_eq_ok {α β : Type} {x : Except Dangling α} {f : α → Except Dangling β} {b : β} :
    (x >>= f) = .ok b ↔ ∃ a, x = .ok a ∧ f a = .ok b := by
  cases x with
  | ok a => exact ⟨fun h => ⟨a, rfl, h⟩, fun ⟨_, ha, h⟩ => Except.ok.inj ha ▸ h⟩
  | error d => exact ⟨nofun, fun ⟨_, ha, _⟩ => nomatch ha⟩

/-- What a run gives can be looked at without writing it down. -/
lemma exists_ok_of_any {ε α : Type} {x : Except ε α} {P : α → Prop} [DecidablePred P]
    (h : x.toOption.any (fun a => P a) = true) : ∃ a, x = .ok a ∧ P a := by
  cases x with
  | error e => cases h
  | ok a => exact ⟨a, rfl, of_decide_eq_true h⟩

namespace Session

variable {s : Session} {p : Program} {a : Analysis}

lemma resolve_eq_ok (h : s.resolve p = .ok a) : ∃ t : Resolver,
    p.resolve s.options { arena := s.arena, scopes := s.scopes } = .ok (a.program, t) ∧
      a.errors = t.errors ∧ a.session = { s with arena := t.arena, scopes := t.scopes } := by
  obtain ⟨r, hr, h⟩ := bind_eq_ok.mp h
  obtain rfl := Except.ok.inj h
  exact ⟨r.2, hr, rfl, rfl⟩

/-- A program that is accepted was resolved and checked. -/
lemma analyze_eq_ok (h : s.analyze p = .ok a) (ha : a.errors = []) : ∃ t : Resolver,
    p.resolve s.options { arena := #[], scopes := {} } = .ok (a.program, t) ∧ t.errors = [] ∧
      a.session = { s.reset with arena := t.arena, scopes := t.scopes } ∧
      a.program.check ⟨s.options, t.arena⟩ [] = .ok ((), []) := by
  obtain ⟨b, hb, h⟩ := bind_eq_ok.mp h
  obtain ⟨t, hresolve, herrors, hsession⟩ := resolve_eq_ok hb
  split at h
  · next hempty =>
    obtain ⟨errors, hcheck, h⟩ := bind_eq_ok.mp h
    obtain rfl := Except.ok.inj h
    obtain ⟨⟨_, errors⟩, hrun, hpure⟩ := bind_eq_ok.mp hcheck
    obtain rfl : errors = [] := (Except.ok.inj hpure).trans ha
    rw [hsession] at hrun
    refine ⟨t, hresolve, ?_, hsession, hrun⟩
    rw [← herrors]
    exact List.isEmpty_iff.mp hempty
  · next hempty =>
    obtain rfl := Except.ok.inj h
    simp [ha] at hempty

/-- A program that is resolved is then checked. -/
lemma analyze_of_resolve {errors : List Diagnostic} (hresolve : s.reset.resolve p = .ok a)
    (ha : a.errors = []) (hcheck : a.session.check a.program = .ok errors) :
    s.analyze p = .ok { a with errors } := by
  refine bind_eq_ok.mpr ⟨a, hresolve, ?_⟩
  rw [if_pos (List.isEmpty_iff.mpr ha)]
  exact bind_eq_ok.mpr ⟨errors, hcheck, rfl⟩

end Session

lemma Program.mem_globals {p : Program} {v : Var} (h : v ∈ p.globals) :
    ∃ d ∈ p, d.vars = [v] ∧ d.events .globalVar = v.events .globalVar := by
  obtain ⟨d, hd, hv⟩ := List.mem_filterMap.mp h
  cases d with
  | function f => exact nomatch hv
  | globalVar w | localVar w =>
    obtain rfl := Option.some.inj hv
    exact ⟨_, hd, rfl, rfl⟩

lemma FunDecl.mem_preset {f : FunDecl} {globals : List Var} {v : Var} (h : v ∈ f.preset globals) :
    v ∈ globals := by
  rw [preset] at h
  split at h
  · exact h
  · exact nomatch h

/-- Declarations that come later change nothing about what is known of an expression. -/
lemma Ident.Grounded.exists_grows {a b : Arena} {x : Ident}
    (h : ∃ id symbol, x.Grounded a bytes id symbol) (hab : Arena.Grows a b) :
    ∃ id symbol, x.Grounded b bytes id symbol := by
  obtain ⟨id, symbol, h⟩ := h
  obtain ⟨params, h⟩ := h.grows hab
  exact ⟨id, _, h⟩

lemma Ident.Declared.stored {a b : Arena} {x : Ident} {kind : SymbolKind} {ty : Ty}
    (h : ∃ id symbol, x.Declared a bytes kind ty id symbol) (hab : Arena.Grows a b)
    (hkind : kind ≠ .function) : x.Stored b bytes ty := by
  obtain ⟨id, symbol, h⟩ := h
  obtain ⟨params, h⟩ := h.grows hab
  exact ⟨kind, id, _, hkind, h⟩

section Program

variable {opts : Options} {p : Program} {t : Resolver}

/-- The value of a global is accepted in any function. -/
lemma Trace.accepted_global {v : Var} (h : Trace opts .start p.events t)
    (hcheck : ∀ d ∈ p, d.check ⟨opts, t.arena⟩ [] = .ok ((), [])) (hv : v ∈ p.globals)
    (bytes : ℕ) :
    (∀ e ∈ v.exprs, e.Accepted t.arena bytes) ∧ v.name.Stored t.arena bytes v.ty := by
  obtain ⟨d, hd, hvars, hevents⟩ := Program.mem_globals hv
  obtain ⟨u₁, u₂, hu₁, htrace, hgrows⟩ := h.decl hd
  rw [hevents] at htrace
  obtain ⟨huses, hdeclared⟩ := htrace.global hu₁ bytes
  refine ⟨fun e he => ⟨fun x hx => ?_, ?_⟩, Ident.Declared.stored hdeclared hgrows nofun⟩
  · rw [Var.exprs, Option.mem_toList] at he
    rw [he] at huses
    exact Ident.Grounded.exists_grows (huses x hx) hgrows
  · exact (d.checkedTo (hcheck d hd)).2 e (by simpa [Decl.exprs, hvars] using he)

/-- So is what stands in the function itself. -/
lemma Trace.accepted_function {f : FunDecl} (h : Trace opts .start p.events t)
    (hcheck : ∀ d ∈ p, d.check ⟨opts, t.arena⟩ [] = .ok ((), [])) (hf : f ∈ p.functions)
    (hflat : f.Flat) :
    (∀ e ∈ f.exprs, e.Accepted t.arena f.variableSize) ∧
      ∀ v ∈ Stmt.varsAll f.body, v.name.Stored t.arena f.variableSize v.ty := by
  have hmem := Program.mem_functions.mp hf
  obtain ⟨u₁, u₂, hu₁, htrace, hgrows⟩ := h.decl hmem
  have hcovers := f.covers
  refine ⟨fun e he => ⟨fun x hx => ?_, ?_⟩, fun v hv => ?_⟩
  · exact Ident.Grounded.exists_grows (htrace.grounded hu₁ hflat (hcovers.uses e he x hx)) hgrows
  · exact (f.checkedTo (Check.run_unlessHalted (hcheck _ hmem))).2 e he
  · exact Ident.Declared.stored (htrace.declared hu₁ hflat (hcovers.declares v hv)) hgrows nofun

/-- **Analysis**: what it accepts, it has bound and checked. -/
theorem Session.accepted {s : Session} {a : Analysis} (h : s.analyze p = .ok a)
    (ha : a.errors = []) : a.program.Accepted a.session.arena := by
  obtain ⟨t, hresolve, ht, hsession, hcheck⟩ := Session.analyze_eq_ok h ha
  obtain ⟨u, hwalk, rfl, hflat⟩ := Program.run_resolve hresolve ht
  obtain ⟨-, hchecked⟩ := Program.run_check _ hcheck
  have harena : a.session.arena = u.arena := by rw [hsession]
  rw [harena]
  refine ⟨fun f hf e he => ?_, fun f hf v hv => ?_, fun f hf => ?_⟩
  · rcases List.mem_append.mp he with he | he
    · obtain ⟨v, hv, he⟩ := List.mem_flatMap.mp he
      exact (hwalk.trace.accepted_global hchecked (FunDecl.mem_preset hv) _).1 e he
    · exact (hwalk.trace.accepted_function hchecked hf (hflat f hf)).1 e
        (List.mem_append_right _ he)
  · rcases List.mem_append.mp hv with hv | hv
    · exact (hwalk.trace.accepted_global hchecked (FunDecl.mem_preset hv) _).2
    · exact (hwalk.trace.accepted_function hchecked hf (hflat f hf)).2 v hv
  · obtain ⟨u₁, u₂, hu₁, htrace, -⟩ := hwalk.trace.decl (Program.mem_functions.mp hf)
    exact htrace.variableSize_le hu₁

end Program

/-! ### What code has to know -/

lemma functionSymbol_injective {x y : String} (h : functionSymbol x = functionSymbol y) :
    x = y := by
  have hentry : ∀ z : String, "function_" ++ z ≠ entryName := fun z hz => by
    have hlength := congrArg String.length hz
    rw [String.length_append] at hlength
    have : "function_".length = 9 := by decide
    have : entryName.length = 4 := by decide
    omega
  simp only [functionSymbol, beq_iff_eq] at h
  split at h <;> split at h
  · next hx hy => rw [hx, hy]
  · next hx _ => exact absurd (h.symm.trans hx) (hentry y)
  · next _ hy => exact absurd (h.trans hy) (hentry x)
  · exact (String.append_right_inj _).mp h

/-- A call of a grounded function passes as many words as the routine takes. -/
lemma Ident.Grounded.arity {f : Ident} {id : SymbolId} {symbol : Symbol}
    (h : f.Grounded arena bytes id symbol) (hf : symbol.isFunction = true) :
    arena.arity (functionSymbol f.name) = symbol.params.length := by
  have hfind : arena.toList.find? (fun s => s.isFunction && functionSymbol s.name ==
      functionSymbol f.name) = some symbol := by
    obtain ⟨hlt, hsymbol⟩ := Array.getElem?_eq_some_iff.mp h.at_id
    rw [List.find?_eq_some_iff_getElem]
    refine ⟨by simp [hf, h.name], id, by simpa using hlt, by simpa using hsymbol, fun j hj => ?_⟩
    -- a function of that name before this one would be the one that is called
    have hj' : j < arena.size := Nat.lt_trans hj hlt
    cases hg : (arena[j].isFunction && functionSymbol arena[j].name == functionSymbol f.name) with
    | false =>
      rw [Array.getElem_toList, hg]
      rfl
    | true =>
      rw [Bool.and_eq_true, beq_iff_eq] at hg
      have hle := h.first hf j _ (Array.getElem?_eq_getElem hj') hg.1
        (functionSymbol_injective hg.2)
      exact absurd hj (Nat.not_lt.mpr hle)
  rw [Arena.arity, hfind]
  rfl

/-- The place of an element of a variable, which for a local is within the frame. -/
lemma Symbol.within_of_locate {symbol : Symbol} {n : ℕ} {o : Operand}
    (h : symbol.locate n = .ok o) (hpos : symbol.kind = .localVar → symbol.position ≤ frame) :
    o.Within frame := by
  rw [locate] at h
  split at h
  · exact nomatch h
  · split at h
    · exact nomatch h
    · intro d hd
      cases hkind : symbol.kind with
      | globalVar =>
        rw [hkind] at h
        obtain rfl := Except.ok.inj h
        exact nomatch hd
      | localVar =>
        rw [hkind] at h
        obtain rfl := Except.ok.inj h
        obtain rfl := Address.frame.inj hd
        have := hpos hkind
        omega
      | param =>
        rw [hkind] at h
        obtain rfl := Except.ok.inj h
        obtain rfl := Address.frame.inj hd
        omega
      | function =>
        rw [hkind] at h
        exact nomatch h

lemma Ident.place?_eq {x : Ident} {id : SymbolId} {symbol : Symbol} (hx : x.symbol = some id)
    (hsymbol : arena[id]? = some symbol) :
    x.place? arena = (symbol.locate x.offset).toOption := by
  simp [place?, hx, hsymbol]

/-- A name that stands for a symbol lies within any frame that has room for its variables. -/
lemma Ident.within_of_symbol {x : Ident} {id : SymbolId} {symbol : Symbol}
    (hx : x.symbol = some id) (hsymbol : arena[id]? = some symbol)
    (hpos : symbol.kind = .localVar → symbol.position ≤ frame) : x.Within arena frame := by
  intro o ho
  rw [Ident.place?_eq hx hsymbol] at ho
  cases hlocate : symbol.locate x.offset with
  | error e =>
    rw [hlocate] at ho
    exact nomatch ho
  | ok o' =>
    rw [hlocate] at ho
    obtain rfl := Option.some.inj ho
    exact Symbol.within_of_locate hlocate hpos

lemma Ident.Grounded.within {x : Ident} {id : SymbolId} {symbol : Symbol}
    (h : x.Grounded arena bytes id symbol) (hframe : bytes ≤ frame) : x.Within arena frame :=
  Ident.within_of_symbol h.symbol_eq h.at_id fun hkind => Nat.le_trans (h.inFrame hkind) hframe

lemma Ident.Stored.within {x : Ident} {ty : Ty} (h : x.Stored arena bytes ty)
    (hframe : bytes ≤ frame) : x.Within arena frame := by
  obtain ⟨_, _, _, -, h⟩ := h
  exact Ident.within_of_symbol h.symbol_eq h.at_id
    fun hkind => Nat.le_trans (h.inFrame hkind) hframe

mutual

/-- An accepted expression is ready for its code to run. -/
lemma Expr.Accepted.ready (hframe : bytes ≤ frame) : (e : Expr) → e.Accepted arena bytes →
    e.Ready arena frame
  | .int _, _ | .bool _, _ => trivial
  | .name x, h => by
    obtain ⟨_, _, hx⟩ := h.grounded x (List.mem_singleton.mpr rfl)
    exact hx.within hframe
  | .assign x e, h => by
    obtain ⟨_, _, hx⟩ := h.grounded x (List.mem_cons_self ..)
    have hvalue : e.Accepted arena bytes :=
      ⟨fun y hy => h.grounded y (List.mem_cons_of_mem _ hy), h.checked.2⟩
    exact ⟨hx.within hframe, Expr.Accepted.ready hframe e hvalue⟩
  | .binary _ l r, h => by
    have hleft : l.Accepted arena bytes :=
      ⟨fun y hy => h.grounded y (List.mem_append_left _ hy), h.checked.1⟩
    have hright : r.Accepted arena bytes :=
      ⟨fun y hy => h.grounded y (List.mem_append_right _ hy), h.checked.2⟩
    exact ⟨Expr.Accepted.ready hframe l hleft, Expr.Accepted.ready hframe r hright⟩
  | .call f args, h => by
    obtain ⟨hcallable, hchecked⟩ := h.checked
    have hargs := Expr.readyAll_of_checked hframe args
      (fun y hy => h.grounded y (List.mem_append_right _ hy)) hchecked
    refine ⟨?_, hargs⟩
    unfold Ident.IsCallable at hcallable
    unfold Ident.Accepts
    split at hcallable
    · next hprint => rwa [if_pos hprint]
    · next hprint =>
      obtain ⟨id, symbol, hf⟩ := h.grounded f
        (List.mem_append_left _ (by rw [if_neg hprint]; exact List.mem_singleton.mpr rfl))
      obtain ⟨hfun, hlength⟩ := hcallable id symbol hf.symbol_eq hf.at_id
      rw [if_neg hprint, hf.arity hfun, hlength]
termination_by structural e => e

lemma Expr.readyAll_of_checked (hframe : bytes ≤ frame) : (es : List Expr) →
    (∀ x ∈ Expr.usesAll es, ∃ id symbol, x.Grounded arena bytes id symbol) →
    Expr.CheckedAll arena es → Expr.ReadyAll arena frame es
  | [], _, _ => trivial
  | e :: rest, hground, hchecked => by
    obtain ⟨hfirst, hrest⟩ := hchecked
    have haccepted : e.Accepted arena bytes :=
      ⟨fun y hy => hground y (List.mem_append_left _ hy), hfirst⟩
    have hready := Expr.readyAll_of_checked hframe rest
      (fun y hy => hground y (List.mem_append_right _ hy)) hrest
    exact ⟨Expr.Accepted.ready hframe e haccepted, hready⟩
termination_by structural es => es

end

lemma Program.Accepted.variableSize_le {p : Program} {f : FunDecl} (hp : p.Accepted arena)
    (hf : f ∈ p.functions) : f.variableSize ≤ f.frameSize := le_align16 (hp.room f hf)

lemma Program.Accepted.ready {p : Program} {f : FunDecl} {e : Expr} (hp : p.Accepted arena)
    (hf : f ∈ p.functions) (he : e ∈ f.generated p.globals) : e.Ready arena f.frameSize :=
  Expr.Accepted.ready (hp.variableSize_le hf) e (hp.exprs f hf e he)

/-! ### Expressions of accepted programs -/

mutual

/-- The expression and all that are inside of it. Each of them has code of its own. -/
def Expr.parts : Expr → List Expr
  | .int c => [.int c]
  | .bool b => [.bool b]
  | .name x => [.name x]
  | .assign x e => .assign x e :: e.parts
  | .binary op l r => .binary op l r :: (l.parts ++ r.parts)
  | .call f args => .call f args :: Expr.partsAll args
termination_by structural e => e

def Expr.partsAll : List Expr → List Expr
  | [] => []
  | e :: rest => e.parts ++ Expr.partsAll rest
termination_by structural es => es

end

mutual

lemma Expr.Ready.parts : (e : Expr) → e.Ready arena frame → ∀ e' ∈ e.parts, e'.Ready arena frame
  | .int _, h | .bool _, h | .name _, h => by simpa [Expr.parts] using h
  | .assign _ e, h => by
    simpa [Expr.parts, h] using Expr.Ready.parts e h.2
  | .binary _ l r, h => by
    simp only [Expr.parts, List.forall_mem_cons, List.forall_mem_append]
    exact ⟨h, Expr.Ready.parts l h.1, Expr.Ready.parts r h.2⟩
  | .call f args, h => by
    simp only [Expr.parts, List.forall_mem_cons]
    exact ⟨h, Expr.ReadyAll.parts args h.2⟩
termination_by structural e => e

lemma Expr.ReadyAll.parts : (es : List Expr) → Expr.ReadyAll arena frame es →
    ∀ e' ∈ Expr.partsAll es, e'.Ready arena frame
  | [], _ => nofun
  | e :: rest, h => by
    simp only [Expr.partsAll, List.forall_mem_append]
    exact ⟨Expr.Ready.parts e h.1, Expr.ReadyAll.parts rest h.2⟩
termination_by structural es => es

end

/-- **Expressions of accepted programs**: take any expression that gets code in some function,
also one inside of another, and generate its code with any registers in use. Its register was
free and is the only one that is now in use in addition. Wherever the code stands, from any
state of the machine in which the expression has a value, it runs to its end; then the register
has the value, memory is that of the evaluation, and the registers in use, the stack and both
its pointers are as before. -/
theorem Expr.evaluates_of_analyze {s : Session} {p : Program} {a : Analysis} {f : FunDecl}
    {whole e : Expr} {g g' : GenState} {code : List Emitted} {r : Scratch} {h : Host}
    {before after : List Line} {M : Machine} {v : Word} {m : Memory}
    (hanalyze : s.analyze p = .ok a) (herrors : a.errors = []) (hf : f ∈ a.program.functions)
    (hwhole : whole ∈ f.generated a.program.globals) (he : e ∈ whole.parts)
    (hlower : e.lower a.session.arena g = ⟨code, g', .ok r⟩)
    (harena : h.env.arena = a.session.arena) (hframe : h.env.frame = f.frameSize)
    (hunit : h.unit = before ++ (lines code ++ after))
    (hbefore : ∀ n, g.labels ≤ n → n < g'.labels → before.count (.label ⟨n⟩) = 0)
    (htext : M.text = lines code ++ after) (hsp : M.rsp ≤ M.rbp - h.env.frame)
    (heval : e.eval h.env (M.view h.env.frame) = some (v, m)) :
    g.bank.isLive r = false ∧ (∀ q, g'.bank.isLive q = (decide (r = q) || g.bank.isLive q)) ∧
      g'.depth = g.depth ∧ ∃ M', h.Evaluates g M after r v m M' := by
  have hyields := Gen.yields_of_eq hlower
  have htakes := e.takes hyields
  refine ⟨Bank.isLive_of_next? htakes.first, htakes.isLive, htakes.depth, ?_⟩
  have hready : e.Ready h.env.arena h.env.frame := by
    rw [harena, hframe]
    exact Expr.Ready.parts whole ((Session.accepted hanalyze herrors).ready hf hwhole) e he
  have hhosts := Host.hosts_of_fresh (e.fresh hyields) hbefore hunit
  exact e.simulates hready (harena ▸ hyields) hhosts htext hsp heval

/-- `n + sum(n - 1)`, with its names bound. -/
def sumExpr : Expr := .binary (.arith .add) (.name ⟨"n", 0, some 1⟩)
  (.call ⟨"sum", 0, some 0⟩ [.binary (.arith .sub) (.name ⟨"n", 0, some 1⟩) (.int 1)])

/-- A function that returns it. -/
def sumFunction : FunDecl where
  name := ⟨"sum", 0, some 0⟩
  params := [⟨⟨"n", 0, some 1⟩, .int, none⟩]
  returns := some .int
  body := [.ret (some sumExpr)]
  parameterSize := 8

def sumArena : Arena := #[⟨"sum", .function, .int, 0, 0, [1]⟩, ⟨"n", .param, .int, 8, 0, []⟩]

/-- The first register is in use. -/
def sumState : GenState := { bank := ({} : Bank).claim .rbx }

/-- A callee adds 1 to its argument and clears all registers. -/
def sumHost : Host where
  env := ⟨sumArena, 0, fun _ args m => some (args.headD 0 + 1, m)⟩
  unit := lines (sumExpr.lower sumArena sumState).code
  leftover M := { M with scratch := fun _ => 0 }
  format := 0

/-- In front of the code, where `n` is 3. -/
def sumStart : Machine where
  text := sumHost.unit
  scratch _ := 7
  rax := 0
  rdx := 0
  rdi := 0
  rsi := 0
  rsp := 0
  rbp := 0
  flags := none
  mem c := if c = .stack 16 then 3 else 0

theorem Expr.evaluates_sum :
    ({} : Session).analyze [.function sumFunction] =
        .ok ⟨{ arena := sumArena }, [.function sumFunction], []⟩ ∧
      sumExpr.eval sumHost.env (sumStart.view 0) = some (6, sumStart.view 0) ∧
      ∃ M', sumHost.Evaluates sumState sumStart [] .r10 6 (sumStart.view 0) M' := by
  have hanalyze : ({} : Session).analyze [.function sumFunction] =
    .ok ⟨{ arena := sumArena }, [.function sumFunction], []⟩ := rfl
  have heval : sumExpr.eval sumHost.env (sumStart.view 0) = some (6, sumStart.view 0) := rfl
  have hlower : sumExpr.lower sumArena sumState = ⟨(sumExpr.lower sumArena sumState).code,
    (sumExpr.lower sumArena sumState).state, .ok .r10⟩ := rfl
  have hwhole : sumExpr ∈ sumFunction.generated [] := List.mem_singleton.mpr rfl
  have hpart : sumExpr ∈ sumExpr.parts := List.mem_cons_self ..
  exact ⟨hanalyze, heval, (Expr.evaluates_of_analyze hanalyze rfl (List.mem_singleton.mpr rfl)
    hwhole hpart hlower rfl rfl (List.nil_append _).symm (fun _ _ _ => rfl)
    (List.append_nil _).symm (Int.le_refl 0) heval).2.2.2⟩

end TreeCompiler

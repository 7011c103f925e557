import TreeCompiler.Analysis.Typing
import TreeCompiler.Proofs.Execution
import TreeCompiler.Proofs.Walk

/-!
The expressions that get code, and what name resolution and type checking have seen of them.

Every statement, initial value and condition in the body of a function gets code, and the entry
point begins with the initial values of the globals; the fallbacks of parameters and functions
inside of functions get none. All that gets code was resolved and checked.
-/

namespace TreeCompiler

def Var.exprs (v : Var) : List Expr := v.value.toList

/-- The variable that a declaration declares. -/
def Decl.vars : Decl → List Var
  | .globalVar v => [v]
  | .localVar v => [v]
  | .function _ => []

def Decl.varsOption : Option Decl → List Var
  | none => []
  | some d => d.vars

def Decl.exprs (d : Decl) : List Expr := d.vars.flatMap Var.exprs

def Decl.exprsOption (d : Option Decl) : List Expr := (Decl.varsOption d).flatMap Var.exprs

mutual

/-- The expressions that a statement evaluates, in the order of its code. -/
def Stmt.exprs : Stmt → List Expr
  | .expr e => [e]
  | .decl d => d.exprs
  | .ret value => value.toList
  | .cond b => b.exprs
  | .whileLoop c body => c :: Stmt.exprsAll body
  | .forLoop start c step body =>
    Decl.exprsOption start ++ c :: (Stmt.exprsAll body ++ step.toList)
termination_by structural s => s

def Stmt.exprsAll : List Stmt → List Expr
  | [] => []
  | s :: rest => s.exprs ++ Stmt.exprsAll rest
termination_by structural ss => ss

def Branch.exprs : Branch → List Expr
  | ⟨c, body, tail⟩ => c :: (Stmt.exprsAll body ++ tail.exprs)
termination_by structural b => b

def Tail.exprs : Tail → List Expr
  | .done => []
  | .elseIf next => next.exprs
  | .otherwise body => Stmt.exprsAll body
termination_by structural t => t

end

mutual

/-- The variables that a statement declares. -/
def Stmt.vars : Stmt → List Var
  | .expr _ => []
  | .decl d => d.vars
  | .ret _ => []
  | .cond b => b.vars
  | .whileLoop _ body => Stmt.varsAll body
  | .forLoop start _ _ body => Decl.varsOption start ++ Stmt.varsAll body
termination_by structural s => s

def Stmt.varsAll : List Stmt → List Var
  | [] => []
  | s :: rest => s.vars ++ Stmt.varsAll rest
termination_by structural ss => ss

def Branch.vars : Branch → List Var
  | ⟨_, body, tail⟩ => Stmt.varsAll body ++ tail.vars
termination_by structural b => b

def Tail.vars : Tail → List Var
  | .done => []
  | .elseIf next => next.vars
  | .otherwise body => Stmt.varsAll body
termination_by structural t => t

end

def Param.exprs (p : Param) : List Expr := p.fallback.toList

/-- The expressions that stand in a function. -/
def FunDecl.exprs (f : FunDecl) : List Expr := f.params.flatMap Param.exprs ++ Stmt.exprsAll f.body

/-- The expressions in the code of a function, in order. -/
def FunDecl.generated (globals : List Var) (f : FunDecl) : List Expr :=
  (f.preset globals).flatMap Var.exprs ++ Stmt.exprsAll f.body

/-- The expressions in the code of a program, in order. -/
def Program.generated (p : Program) : List Expr :=
  p.functions.flatMap (·.generated p.globals)

/-! ### They are events -/

/-- The events use what the expressions use, and declare the variables. -/
structure Covers (events : List Event) (exprs : List Expr) (vars : List Var) : Prop where
  uses : ∀ e ∈ exprs, ∀ x ∈ e.uses, .use x ∈ events
  declares : ∀ v ∈ vars, .declare v.name .localVar v.ty ∈ events

namespace Covers

variable {es es' : List Event} {xs xs' : List Expr} {vs vs' : List Var}

lemma nil (es : List Event) : Covers es [] [] := ⟨nofun, nofun⟩

lemma append (h : Covers es xs vs) (h' : Covers es' xs' vs') :
    Covers (es ++ es') (xs ++ xs') (vs ++ vs') where
  uses e he x hx := by
    rcases List.mem_append.mp he with hleft | hright
    · exact List.mem_append_left es' (h.uses e hleft x hx)
    · exact List.mem_append_right es (h'.uses e hright x hx)
  declares v hv := by
    rcases List.mem_append.mp hv with hleft | hright
    · exact List.mem_append_left es' (h.declares v hleft)
    · exact List.mem_append_right es (h'.declares v hright)

lemma inScope (h : Covers es xs vs) : Covers (scopedEvents es) xs vs where
  uses e he x hx := mem_scopedEvents (h.uses e he x hx)
  declares v hv := mem_scopedEvents (h.declares v hv)

/-- The order of the expressions does not matter. -/
lemma mono (h : Covers es xs vs) (hxs : ∀ e ∈ xs', e ∈ xs) : Covers es xs' vs :=
  ⟨fun e he => h.uses e (hxs e he), h.declares⟩

lemma expr (e : Expr) : Covers e.events [e] [] where
  uses e' he x hx := by
    obtain rfl := List.mem_singleton.mp he
    exact List.mem_map.mpr ⟨x, hx, rfl⟩
  declares := nofun

lemma exprOption (e : Option Expr) : Covers (Expr.eventsOption e) e.toList [] := by
  cases e with
  | none => exact nil _
  | some e => exact expr e

lemma var (v : Var) : Covers (v.events .localVar) v.exprs [v] := by
  have hname : Covers [.declare v.name .localVar v.ty] [] [v] := by
    refine ⟨nofun, fun w hw => ?_⟩
    obtain rfl := List.mem_singleton.mp hw
    exact List.mem_singleton.mpr rfl
  simpa [Var.exprs, Var.events] using (exprOption v.value).append hname

lemma decl (d : Decl) : Covers (d.events .localVar) d.exprs d.vars := by
  cases d with
  | globalVar v | localVar v => simpa [Decl.exprs, Decl.vars, Decl.events] using var v
  | function f => exact nil _

lemma declOption (d : Option Decl) :
    Covers (Decl.eventsOption d) (Decl.exprsOption d) (Decl.varsOption d) := by
  cases d with
  | none => exact nil _
  | some d => exact decl d

end Covers

mutual

/-- What has code in a statement stands among its events. -/
lemma Stmt.covers : (s : Stmt) → Covers s.events s.exprs s.vars
  | .expr e => .expr e
  | .decl d => .decl d
  | .ret value => .exprOption value
  | .cond b => b.covers
  | .whileLoop c body => by
    have hbody := Stmt.coversAll body
    exact ((Covers.expr c).append hbody).inScope
  | .forLoop start c step body => by
    have hbody := (Covers.exprOption step).append (Stmt.coversAll body).inScope
    have hloop := (Covers.declOption start).append ((Covers.expr c).append hbody)
    refine hloop.inScope.mono fun e he => ?_
    simp only [Stmt.exprs, List.mem_append, List.mem_cons, List.not_mem_nil, or_false] at he ⊢
    exact he.imp id (Or.imp id Or.symm)
termination_by structural s => s

lemma Stmt.coversAll : (ss : List Stmt) →
    Covers (Stmt.eventsAll ss) (Stmt.exprsAll ss) (Stmt.varsAll ss)
  | [] => .nil _
  | s :: rest => by
    have hfirst := s.covers
    have hrest := Stmt.coversAll rest
    exact hfirst.append hrest
termination_by structural ss => ss

lemma Branch.covers : (b : Branch) → Covers b.events b.exprs b.vars
  | ⟨c, body, tail⟩ => by
    have hblock := ((Covers.expr c).append (Stmt.coversAll body)).inScope
    have htail := tail.covers
    simpa [Branch.events, Branch.exprs, Branch.vars] using hblock.append htail
termination_by structural b => b

lemma Tail.covers : (t : Tail) → Covers t.events t.exprs t.vars
  | .done => .nil _
  | .elseIf next => next.covers
  | .otherwise body => (Stmt.coversAll body).inScope
termination_by structural t => t

end

lemma Param.coversAll : (ps : List Param) → Covers (Param.eventsAll ps) (ps.flatMap Param.exprs) []
  | [] => .nil _
  | p :: rest => by
    have hparam := (Covers.exprOption p.fallback).append (.nil [.declare p.name .param p.ty])
    have hrest := Param.coversAll rest
    simpa [Param.eventsAll, Param.events, Param.exprs] using hparam.append hrest

lemma FunDecl.covers (f : FunDecl) : Covers f.inner f.exprs (Stmt.varsAll f.body) :=
  (Param.coversAll f.params).append (Stmt.coversAll f.body)

/-! ### They are checked -/

/-- If the name stands for a symbol, then for a variable. -/
def Ident.IsVariable (arena : Arena) (x : Ident) : Prop :=
  ∀ (id : SymbolId) (symbol : Symbol), x.symbol = some id → arena[id]? = some symbol →
    symbol.isFunction = false

/-- If the name of a callee stands for a symbol, then for a function with `n` parameters. What
prints takes one argument. -/
def Ident.IsCallable (arena : Arena) (f : Ident) (n : ℕ) : Prop :=
  if f.name == printName then n = 1
  else ∀ (id : SymbolId) (symbol : Symbol), f.symbol = some id → arena[id]? = some symbol →
    symbol.isFunction = true ∧ symbol.params.length = n

mutual

/-- Variables are used as variables, and functions are called with as many arguments as they
have parameters. -/
def Expr.Checked (arena : Arena) : Expr → Prop
  | .int _ => True
  | .bool _ => True
  | .name x => x.IsVariable arena
  | .assign x e => x.IsVariable arena ∧ e.Checked arena
  | .binary _ l r => l.Checked arena ∧ r.Checked arena
  | .call f args => f.IsCallable arena args.length ∧ Expr.CheckedAll arena args
termination_by structural e => e

def Expr.CheckedAll (arena : Arena) : List Expr → Prop
  | [] => True
  | e :: rest => e.Checked arena ∧ Expr.CheckedAll arena rest
termination_by structural es => es

end

section Check

variable {ctx : CheckContext} {es : List Diagnostic} {u : Unit} {t : Ty}

namespace Check

lemma run_unlessHalted {act : Check Unit} (h : unlessHalted ctx.opts act es = .ok (u, [])) :
    act es = .ok (u, []) := by
  rw [unlessHalted] at h
  split at h
  · next hhalts =>
    obtain ⟨-, rfl⟩ := Prod.mk.inj (Except.ok.inj h)
    simp at hhalts
  · exact h

lemma not_run_report {d : Diagnostic} : report ctx.opts d es ≠ .ok (u, []) := by
  intro h
  obtain ⟨-, hreports⟩ := Prod.mk.inj (Except.ok.inj h)
  exact ctx.opts.report_ne_nil es d hreports

lemma run_require {ok : Bool} {m : Mismatch} (h : require ctx.opts ok m es = .ok (u, [])) :
    ok = true ∧ es = [] := by
  rw [require] at h
  split at h
  · next hok => exact ⟨hok, (run_pure.mp h).2.symm⟩
  · exact absurd h not_run_report

end Check

lemma Ident.run_variableType {x : Ident} (h : x.variableType ctx es = .ok (t, [])) :
    es = [] ∧ x.IsVariable ctx.arena := by
  rw [variableType] at h
  cases hx : x.symbol with
  | none =>
    rw [hx] at h
    exact ⟨(run_pure.mp h).2.symm, fun _ _ hid => nomatch hx.symm.trans hid⟩
  | some id =>
    rw [hx] at h
    obtain ⟨symbol, hfind, h⟩ := run_lift_bind.mp h
    split at h
    · obtain ⟨_, _, hreport, hpure⟩ := run_bind.mp h
      obtain ⟨-, rfl⟩ := run_pure.mp hpure
      exact absurd hreport Check.not_run_report
    · next hvar =>
      refine ⟨(run_pure.mp h).2.symm, fun id' symbol' hid hsymbol => ?_⟩
      obtain rfl := Option.some.inj (hx.symm.trans hid)
      rw [Arena.find_eq_ok_iff, hsymbol] at hfind
      obtain rfl := Option.some.inj hfind
      simpa using hvar

lemma run_checkArgs {f : String} : (args : List (Expr × Ty)) → (ids : List SymbolId) →
    ∀ {n : ℕ} {es : List Diagnostic}, checkArgs ctx f n args ids es = .ok (u, []) → es = []
  | (e, t) :: args, id :: ids, n, es, h => by
    rw [checkArgs] at h
    obtain ⟨param, -, h⟩ := run_lift_bind.mp h
    obtain ⟨_, es', hrequire, hrest⟩ := run_bind.mp h
    obtain rfl := run_checkArgs args ids hrest
    exact (Check.run_require hrequire).2
  | [], _, _, _, h | _ :: _, [], _, _, h => (run_pure.mp h).2.symm

lemma Ident.run_callType {f : Ident} {args : List (Expr × Ty)}
    (h : f.callType ctx args es = .ok (t, [])) :
    es = [] ∧ f.IsCallable ctx.arena args.length := by
  rw [callType] at h
  unfold IsCallable
  split at h
  · next hprint =>
    obtain ⟨_, _, hrequire, hpure⟩ := run_bind.mp h
    obtain ⟨-, rfl⟩ := run_pure.mp hpure
    obtain ⟨hone, rfl⟩ := Check.run_require hrequire
    rw [if_pos hprint]
    exact ⟨rfl, by simpa using hone⟩
  · next hprint =>
    rw [if_neg hprint]
    cases hf : f.symbol with
    | none =>
      rw [hf] at h
      exact ⟨(run_pure.mp h).2.symm, nofun⟩
    | some id =>
      rw [hf] at h
      obtain ⟨symbol, hfind, h⟩ := run_lift_bind.mp h
      rw [Arena.find_eq_ok_iff] at hfind
      split at h
      · obtain ⟨_, _, hreport, hpure⟩ := run_bind.mp h
        obtain ⟨-, rfl⟩ := run_pure.mp hpure
        exact absurd hreport Check.not_run_report
      · next hfun =>
        split at h
        · obtain ⟨_, _, hreport, hpure⟩ := run_bind.mp h
          obtain ⟨-, rfl⟩ := run_pure.mp hpure
          exact absurd hreport Check.not_run_report
        · next hlength =>
          obtain ⟨_, _, hargs, hpure⟩ := run_bind.mp h
          obtain ⟨-, rfl⟩ := run_pure.mp hpure
          refine ⟨run_checkArgs args _ hargs, fun id' symbol' hid hsymbol => ?_⟩
          obtain rfl := Option.some.inj hid
          obtain rfl := Option.some.inj (hfind.symm.trans hsymbol)
          exact ⟨by simpa using hfun, Decidable.not_not.mp hlength⟩

mutual

/-- An expression whose check reports nothing, so that nothing was reported before either. -/
lemma Expr.run_infer : (e : Expr) → ∀ {es : List Diagnostic} {t : Ty},
    e.infer ctx es = .ok (t, []) → es = [] ∧ e.Checked ctx.arena
  | .int _, _, _, h | .bool _, _, _, h => ⟨(run_pure.mp h).2.symm, trivial⟩
  | .name _, _, _, h => Ident.run_variableType h
  | .binary op l r, _, _, h => by
    obtain ⟨lt, _, hl, h⟩ := run_bind.mp h
    obtain ⟨rt, _, hr, h⟩ := run_bind.mp h
    obtain ⟨_, _, hrequire, hpure⟩ := run_bind.mp h
    obtain ⟨-, rfl⟩ := run_pure.mp hpure
    obtain ⟨-, rfl⟩ := Check.run_require hrequire
    obtain ⟨rfl, hright⟩ := r.run_infer hr
    obtain ⟨rfl, hleft⟩ := l.run_infer hl
    exact ⟨rfl, hleft, hright⟩
  | .assign x e, _, _, h => by
    obtain ⟨xt, _, hx, h⟩ := run_bind.mp h
    obtain ⟨et, _, he, h⟩ := run_bind.mp h
    obtain ⟨_, _, hrequire, hpure⟩ := run_bind.mp h
    obtain ⟨-, rfl⟩ := run_pure.mp hpure
    obtain ⟨-, rfl⟩ := Check.run_require hrequire
    obtain ⟨rfl, hvalue⟩ := e.run_infer he
    obtain ⟨rfl, hname⟩ := Ident.run_variableType hx
    exact ⟨rfl, hname, hvalue⟩
  | .call f args, _, _, h => by
    obtain ⟨typed, _, hargs, hcall⟩ := run_bind.mp h
    obtain ⟨rfl, hcallable⟩ := Ident.run_callType hcall
    obtain ⟨rfl, hlength, hchecked⟩ := Expr.run_inferAll args hargs
    exact ⟨rfl, hlength ▸ hcallable, hchecked⟩
termination_by structural e => e

lemma Expr.run_inferAll : (args : List Expr) → ∀ {es : List Diagnostic} {typed : List (Expr × Ty)},
    Expr.inferAll ctx args es = .ok (typed, []) →
    es = [] ∧ typed.length = args.length ∧ Expr.CheckedAll ctx.arena args
  | [], _, _, h => by
    obtain ⟨rfl, rfl⟩ := run_pure.mp h
    exact ⟨rfl, rfl, trivial⟩
  | e :: rest, _, _, h => by
    obtain ⟨t, _, he, h⟩ := run_bind.mp h
    obtain ⟨typed, _, hrest, hpure⟩ := run_bind.mp h
    obtain ⟨rfl, rfl⟩ := run_pure.mp hpure
    obtain ⟨rfl, hlength, hchecked⟩ := Expr.run_inferAll rest hrest
    obtain ⟨rfl, hfirst⟩ := e.run_infer he
    exact ⟨rfl, by rw [List.length_cons, List.length_cons, hlength], hfirst, hchecked⟩
termination_by structural args => args

end

/-- Nothing was reported so far, and these expressions are checked. -/
def CheckedTo (ctx : CheckContext) (es : List Diagnostic) (xs : List Expr) : Prop :=
  es = [] ∧ ∀ e ∈ xs, e.Checked ctx.arena

lemma CheckedTo.nil : CheckedTo ctx [] [] := ⟨rfl, nofun⟩

lemma CheckedTo.append {xs ys : List Expr} (hx : CheckedTo ctx es xs) (hy : CheckedTo ctx [] ys) :
    CheckedTo ctx es (xs ++ ys) := by
  refine ⟨hx.1, fun e he => ?_⟩
  rcases List.mem_append.mp he with hleft | hright
  · exact hx.2 e hleft
  · exact hy.2 e hright

/-- An expression that is inferred and then has to have a certain type. -/
lemma Expr.checkedTo_infer {e : Expr} {es' : List Diagnostic} {ok : Bool} {m : Mismatch}
    (h : e.infer ctx es = .ok (t, es')) (hok : Check.require ctx.opts ok m es' = .ok (u, [])) :
    CheckedTo ctx es [e] := by
  obtain ⟨-, rfl⟩ := Check.run_require hok
  obtain ⟨rfl, hchecked⟩ := e.run_infer h
  exact ⟨rfl, by simpa using hchecked⟩

lemma Expr.checkedTo_check {e : Expr} (h : e.check ctx es = .ok (u, [])) :
    CheckedTo ctx es [e] := by
  obtain ⟨_, _, he, hpure⟩ := run_bind.mp h
  obtain ⟨-, rfl⟩ := run_pure.mp hpure
  obtain ⟨rfl, hchecked⟩ := e.run_infer he
  exact ⟨rfl, by simpa using hchecked⟩

lemma Expr.checkedTo_option {e : Option Expr} (h : Expr.checkOption ctx e es = .ok (u, [])) :
    CheckedTo ctx es e.toList := by
  cases e with
  | none =>
    obtain ⟨-, rfl⟩ := run_pure.mp h
    exact .nil
  | some e => exact Expr.checkedTo_check h

lemma Expr.checkedTo_initial {x : Ident} {ty : Ty} {e : Option Expr}
    (h : Expr.checkInitial ctx x ty e es = .ok (u, [])) : CheckedTo ctx es e.toList := by
  cases e with
  | none =>
    obtain ⟨-, rfl⟩ := run_pure.mp h
    exact .nil
  | some e =>
    obtain ⟨_, _, he, hok⟩ := run_bind.mp h
    exact Expr.checkedTo_infer he hok

lemma Expr.checkedTo_condition {c : Construct} {e : Expr}
    (h : e.checkCondition ctx c es = .ok (u, [])) : CheckedTo ctx es [e] := by
  obtain ⟨_, _, he, hok⟩ := run_bind.mp h
  exact Expr.checkedTo_infer he hok

lemma checkedTo_return {enclosing : Option Enclosing} {value : Option Expr}
    (h : checkReturn ctx enclosing value es = .ok (u, [])) : CheckedTo ctx es value.toList := by
  cases value with
  | none =>
    cases enclosing with
    | none =>
      obtain ⟨-, rfl⟩ := run_pure.mp h
      exact .nil
    | some f =>
      obtain ⟨-, rfl⟩ := Check.run_require h
      exact .nil
  | some e =>
    obtain ⟨t, es', he, h⟩ := run_bind.mp h
    cases enclosing with
    | none =>
      obtain ⟨-, rfl⟩ := run_pure.mp h
      obtain ⟨rfl, hchecked⟩ := e.run_infer he
      exact ⟨rfl, by simpa using hchecked⟩
    | some f => exact Expr.checkedTo_infer he h

lemma Param.checkedToAll : (ps : List Param) → ∀ {es : List Diagnostic},
    Param.checkAll ctx ps es = .ok (u, []) → CheckedTo ctx es (ps.flatMap Param.exprs)
  | [], _, h => by
    obtain ⟨-, rfl⟩ := run_pure.mp h
    exact .nil
  | p :: rest, _, h => by
    obtain ⟨_, _, hp, hrest⟩ := run_bind.mp h
    have hrest := Param.checkedToAll rest hrest
    obtain rfl := hrest.1
    exact (Expr.checkedTo_initial hp).append hrest

lemma run_checkReturnType {x : Ident} {ty : Option Ty}
    (h : checkReturnType ctx x ty es = .ok (t, [])) : es = [] := by
  cases ty with
  | some ty => exact (run_pure.mp h).2.symm
  | none =>
    obtain ⟨_, _, hreport, hpure⟩ := run_bind.mp h
    obtain ⟨-, rfl⟩ := run_pure.mp hpure
    exact absurd hreport Check.not_run_report

mutual

/-- What has code in a statement was checked. -/
lemma Stmt.checkedTo : (s : Stmt) → ∀ {enclosing : Option Enclosing} {es : List Diagnostic},
    s.check ctx enclosing es = .ok (u, []) → CheckedTo ctx es s.exprs
  | .expr e, _, _, h => Expr.checkedTo_check (Check.run_unlessHalted h)
  | .decl d, _, _, h => d.checkedTo (Check.run_unlessHalted h)
  | .ret value, _, _, h => checkedTo_return (Check.run_unlessHalted h)
  | .cond b, _, _, h => b.checkedTo (Check.run_unlessHalted h)
  | .whileLoop c body, _, _, h => by
    obtain ⟨_, _, hc, hbody⟩ := run_bind.mp (Check.run_unlessHalted h)
    have hbody := Stmt.checkedToAll body hbody
    obtain rfl := hbody.1
    exact (Expr.checkedTo_condition hc).append hbody
  | .forLoop start c step body, _, _, h => by
    obtain ⟨_, _, hstart, h⟩ := run_bind.mp (Check.run_unlessHalted h)
    obtain ⟨_, _, hc, h⟩ := run_bind.mp h
    obtain ⟨_, _, hstep, hbody⟩ := run_bind.mp h
    have hbody := Stmt.checkedToAll body hbody
    obtain rfl := hbody.1
    have hstep := Expr.checkedTo_option hstep
    obtain rfl := hstep.1
    have hc := Expr.checkedTo_condition hc
    obtain rfl := hc.1
    exact (Decl.checkedTo_option start hstart).append (hc.append (hbody.append hstep))
termination_by structural s => s

lemma Stmt.checkedToAll : (ss : List Stmt) →
    ∀ {enclosing : Option Enclosing} {es : List Diagnostic},
    Stmt.checkAll ctx enclosing ss es = .ok (u, []) → CheckedTo ctx es (Stmt.exprsAll ss)
  | [], _, _, h => by
    obtain ⟨-, rfl⟩ := run_pure.mp h
    exact .nil
  | s :: rest, _, _, h => by
    obtain ⟨_, _, hs, hrest⟩ := run_bind.mp h
    have hrest := Stmt.checkedToAll rest hrest
    obtain rfl := hrest.1
    exact (s.checkedTo hs).append hrest
termination_by structural ss => ss

lemma Branch.checkedTo : (b : Branch) →
    ∀ {enclosing : Option Enclosing} {construct : Construct} {es : List Diagnostic},
    b.check ctx enclosing construct es = .ok (u, []) → CheckedTo ctx es b.exprs
  | ⟨c, body, tail⟩, _, _, _, h => by
    obtain ⟨_, _, hc, h⟩ := run_bind.mp h
    obtain ⟨_, _, hbody, htail⟩ := run_bind.mp h
    have htail := tail.checkedTo htail
    obtain rfl := htail.1
    have hbody := Stmt.checkedToAll body hbody
    obtain rfl := hbody.1
    exact (Expr.checkedTo_condition hc).append (hbody.append htail)
termination_by structural b => b

lemma Tail.checkedTo : (t : Tail) → ∀ {enclosing : Option Enclosing} {es : List Diagnostic},
    t.check ctx enclosing es = .ok (u, []) → CheckedTo ctx es t.exprs
  | .done, _, _, h => by
    obtain ⟨-, rfl⟩ := run_pure.mp h
    exact .nil
  | .elseIf next, _, _, h => next.checkedTo h
  | .otherwise body, _, _, h => Stmt.checkedToAll body h
termination_by structural t => t

lemma Decl.checkedTo : (d : Decl) → ∀ {es : List Diagnostic},
    d.check ctx es = .ok (u, []) → CheckedTo ctx es d.exprs
  | .globalVar v, _, h | .localVar v, _, h => by
    simpa [Decl.exprs, Decl.vars, Var.exprs] using
      Expr.checkedTo_initial (Check.run_unlessHalted h)
  | .function f, _, h => ⟨(f.checkedTo (Check.run_unlessHalted h)).1, nofun⟩
termination_by structural d => d

lemma Decl.checkedTo_option : (d : Option Decl) → ∀ {es : List Diagnostic},
    Decl.checkOption ctx d es = .ok (u, []) → CheckedTo ctx es (Decl.exprsOption d)
  | none, _, h => by
    obtain ⟨-, rfl⟩ := run_pure.mp h
    exact .nil
  | some d, _, h => d.checkedTo h
termination_by structural d => d

lemma FunDecl.checkedTo : (f : FunDecl) → ∀ {es : List Diagnostic},
    f.check ctx es = .ok (u, []) → CheckedTo ctx es f.exprs
  | ⟨name, params, returns, body, _, _⟩, _, h => by
    obtain ⟨_, _, hreturns, h⟩ := run_bind.mp h
    obtain ⟨_, _, hparams, hbody⟩ := run_bind.mp h
    have hbody := Stmt.checkedToAll body hbody
    obtain rfl := hbody.1
    have hparams := Param.checkedToAll params hparams
    obtain rfl := hparams.1
    obtain rfl := run_checkReturnType hreturns
    exact hparams.append hbody
termination_by structural f => f

end

/-- Every declaration of a program was checked. -/
theorem Program.run_check : (p : Program) → ∀ {es : List Diagnostic},
    p.check ctx es = .ok (u, []) → es = [] ∧ ∀ d ∈ p, d.check ctx [] = .ok ((), [])
  | [], _, h => ⟨(run_pure.mp h).2.symm, nofun⟩
  | d :: rest, _, h => by
    obtain ⟨_, _, hd, hrest⟩ := run_bind.mp h
    obtain ⟨rfl, hall⟩ := Program.run_check rest hrest
    obtain rfl := (d.checkedTo hd).1
    exact ⟨rfl, fun d' hd' => (List.mem_cons.mp hd').elim (fun e => e ▸ hd) (hall d')⟩

end Check

end TreeCompiler

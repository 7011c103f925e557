import Mathlib.Data.List.Forall2
import TreeCompiler.Proofs.Accepted

/-!
The type system of resolved programs, and that checking decides it.

The rules give an expression a type only if all of its parts have one. Checking instead goes on
after a fault, with a type of its own choice, and gives a name without a symbol the type `void`. On
a program whose names are all bound the two agree: the check has nothing to report exactly if the
rules apply.
-/

namespace TreeCompiler

/-! ### The rules -/

/-- The name is bound to that symbol. -/
def Ident.StandsFor (arena : Arena) (x : Ident) (symbol : Symbol) : Prop :=
  ∃ id, x.symbol = some id ∧ arena[id]? = some symbol

/-- The parameter with that id takes a value of that type. -/
def Arena.Takes (arena : Arena) (id : SymbolId) (t : Ty) : Prop :=
  ∃ param, arena[id]? = some param ∧ param.ty.compatible t = true

/-- The type of an expression. A call passes one argument for each parameter of a function, of a
type that the parameter takes; printing takes one argument of any type. -/
inductive HasType (arena : Arena) : Expr → Ty → Prop
  | int (v : Int64) : HasType arena (.int v) .int
  | bool (b : Bool) : HasType arena (.bool b) .bool
  | name {x : Ident} {symbol : Symbol} (hx : x.StandsFor arena symbol)
      (hvar : symbol.kind ≠ .function) : HasType arena (.name x) symbol.ty.element
  | arith {op : Arith} {l r : Expr} {t u : Ty} (hl : HasType arena l t) (hr : HasType arena r u)
      (ht : t.isNumeric = true) (hu : u.isNumeric = true) :
      HasType arena (.binary (.arith op) l r) .int
  | ordering {rel : Rel} {l r : Expr} {t u : Ty} (hrel : rel ≠ .eq ∧ rel ≠ .ne)
      (hl : HasType arena l t) (hr : HasType arena r u) (ht : t.isNumeric = true)
      (hu : u.isNumeric = true) : HasType arena (.binary (.compare rel) l r) .bool
  | equality {rel : Rel} {l r : Expr} {t u : Ty} (hrel : rel = .eq ∨ rel = .ne)
      (hl : HasType arena l t) (hr : HasType arena r u) (htu : t.compatible u = true) :
      HasType arena (.binary (.compare rel) l r) .bool
  | assign {x : Ident} {symbol : Symbol} {e : Expr} {t : Ty} (hx : x.StandsFor arena symbol)
      (hvar : symbol.kind ≠ .function) (he : HasType arena e t)
      (ht : symbol.ty.element.compatible t = true) : HasType arena (.assign x e) t
  | print {f : Ident} {e : Expr} {t : Ty} (hf : f.name = printName) (he : HasType arena e t) :
      HasType arena (.call f [e]) .void
  | call {f : Ident} {symbol : Symbol} {args : List Expr} {ts : List Ty}
      (hf : f.name ≠ printName) (hsymbol : f.StandsFor arena symbol)
      (hfun : symbol.kind = .function) (hargs : List.Forall₂ (HasType arena) args ts)
      (hts : List.Forall₂ (Arena.Takes arena) symbol.params ts) :
      HasType arena (.call f args) symbol.ty

/-- The value that a variable or a parameter starts with has the type of one element. -/
def Expr.Starts (arena : Arena) (ty : Ty) (value : Option Expr) : Prop :=
  ∀ e ∈ value, ∃ t, HasType arena e t ∧ ty.element.compatible t = true

/-- A condition has the type `bool`. -/
def Expr.IsCondition (arena : Arena) (c : Expr) : Prop :=
  ∃ t, HasType arena c t ∧ t.elem = .prim .bool

mutual

/-- Statements in a function that returns values of that type. -/
inductive Stmt.Typed (arena : Arena) : Ty → Stmt → Prop
  | expr {returns : Ty} {e : Expr} {t : Ty} (he : HasType arena e t) :
      Stmt.Typed arena returns (.expr e)
  | decl {returns : Ty} {d : Decl} (hd : Decl.Typed arena d) : Stmt.Typed arena returns (.decl d)
  | ret {returns : Ty} {e : Expr} {t : Ty} (he : HasType arena e t)
      (ht : returns.compatible t = true) : Stmt.Typed arena returns (.ret (some e))
  | retNothing {returns : Ty} (ht : returns.compatible .void = true) :
      Stmt.Typed arena returns (.ret none)
  | cond {returns : Ty} {b : Branch} (hb : Branch.Typed arena returns b) :
      Stmt.Typed arena returns (.cond b)
  | whileLoop {returns : Ty} {c : Expr} {body : List Stmt} (hc : c.IsCondition arena)
      (hbody : ∀ s ∈ body, Stmt.Typed arena returns s) :
      Stmt.Typed arena returns (.whileLoop c body)
  | forLoop {returns : Ty} {start : Option Decl} {c : Expr} {step : Option Expr}
      {body : List Stmt} (hstart : ∀ d ∈ start, Decl.Typed arena d) (hc : c.IsCondition arena)
      (hstep : ∀ e ∈ step, ∃ t, HasType arena e t)
      (hbody : ∀ s ∈ body, Stmt.Typed arena returns s) :
      Stmt.Typed arena returns (.forLoop start c step body)

inductive Branch.Typed (arena : Arena) : Ty → Branch → Prop
  | mk {returns : Ty} {c : Expr} {body : List Stmt} {tail : Tail} (hc : c.IsCondition arena)
      (hbody : ∀ s ∈ body, Stmt.Typed arena returns s) (htail : Tail.Typed arena returns tail) :
      Branch.Typed arena returns ⟨c, body, tail⟩

inductive Tail.Typed (arena : Arena) : Ty → Tail → Prop
  | done {returns : Ty} : Tail.Typed arena returns .done
  | elseIf {returns : Ty} {next : Branch} (hnext : Branch.Typed arena returns next) :
      Tail.Typed arena returns (.elseIf next)
  | otherwise {returns : Ty} {body : List Stmt}
      (hbody : ∀ s ∈ body, Stmt.Typed arena returns s) :
      Tail.Typed arena returns (.otherwise body)

inductive Decl.Typed (arena : Arena) : Decl → Prop
  | globalVar {v : Var} (hv : Expr.Starts arena v.ty v.value) : Decl.Typed arena (.globalVar v)
  | localVar {v : Var} (hv : Expr.Starts arena v.ty v.value) : Decl.Typed arena (.localVar v)
  | function {f : FunDecl} (hf : FunDecl.Typed arena f) : Decl.Typed arena (.function f)

/-- A function says what it returns. -/
inductive FunDecl.Typed (arena : Arena) : FunDecl → Prop
  | mk {name : Ident} {params : List Param} {returns : Ty} {body : List Stmt}
      {variableSize parameterSize : ℕ}
      (hparams : ∀ p ∈ params, Expr.Starts arena p.ty p.fallback)
      (hbody : ∀ s ∈ body, Stmt.Typed arena returns s) :
      FunDecl.Typed arena ⟨name, params, some returns, body, variableSize, parameterSize⟩

end

def Program.Typed (arena : Arena) (p : Program) : Prop := ∀ d ∈ p, d.Typed arena

/-! ### Checks that decide -/

namespace Check

variable {α β : Type} {opts : Options}

/-- The check ends without a report exactly if there was none before it and its value is right. -/
def Decides (act : Check α) (P : α → Prop) : Prop :=
  ∀ (es : List Diagnostic) (a : α), act es = .ok (a, []) ↔ es = [] ∧ P a

variable {act : Check α} {P Q : α → Prop}

lemma Decides.congr (h : Decides act P) (hPQ : ∀ a, P a ↔ Q a) : Decides act Q := by
  intro es a
  rw [h es a, hPQ a]

lemma decides_pure (a : α) : Decides (pure a) (· = a) := by
  intro es b
  rw [run_pure]
  constructor
  · rintro ⟨rfl, rfl⟩
    exact ⟨rfl, rfl⟩
  · rintro ⟨rfl, rfl⟩
    exact ⟨rfl, rfl⟩

lemma Decides.bind {f : α → Check β} {R : α → β → Prop} (h : Decides act P)
    (hf : ∀ a, Decides (f a) (R a)) : Decides (act >>= f) fun b => ∃ a, P a ∧ R a b := by
  intro es b
  rw [run_bind]
  constructor
  · rintro ⟨a, us, hact, hrest⟩
    obtain ⟨rfl, hR⟩ := (hf a us b).mp hrest
    obtain ⟨rfl, hP⟩ := (h es a).mp hact
    exact ⟨rfl, a, hP, hR⟩
  · rintro ⟨rfl, a, hP, hR⟩
    exact ⟨a, [], (h [] a).mpr ⟨rfl, hP⟩, (hf a [] b).mpr ⟨rfl, hR⟩⟩

/-- Two checks in a row. -/
lemma Decides.andThen {x : Check Unit} {y : Check Unit} {p q : Prop} (hx : Decides x fun _ => p)
    (hy : Decides y fun _ => q) : Decides (x >>= fun _ => y) fun _ => p ∧ q := by
  refine (hx.bind fun _ => hy).congr fun _ => ?_
  constructor
  · rintro ⟨-, h⟩
    exact h
  · intro h
    exact ⟨(), h⟩

lemma decides_nothing : Decides (pure () : Check Unit) fun _ => True := by
  refine (decides_pure ()).congr fun _ => ?_
  exact iff_of_true rfl trivial

lemma Decides.unlessHalted {act : Check Unit} {P : Unit → Prop} (h : Decides act P) :
    Decides (unlessHalted opts act) P := by
  intro es u
  rw [← h es u, Check.unlessHalted]
  split
  · next hhalts =>
    -- a check that has halted has a report, and none is withdrawn
    constructor
    · intro hskip
      obtain ⟨-, rfl⟩ := Prod.mk.inj (Except.ok.inj hskip)
      simp at hhalts
    · intro hact
      obtain ⟨rfl, -⟩ := (h es u).mp hact
      simp at hhalts
  · exact Iff.rfl

lemma decides_report (d : Diagnostic) : Decides (report opts d) fun _ => False := by
  intro es u
  refine iff_of_false (fun h => ?_) (fun h => h.2)
  exact opts.report_ne_nil es d (Prod.mk.inj (Except.ok.inj h)).2

/-- A check that reports something never goes through. -/
lemma decides_reported (d : Diagnostic) (a : α) (hQ : ∀ b, ¬ Q b) :
    Decides (do report opts d; return a) Q := by
  refine ((decides_report d).bind fun _ => decides_pure a).congr fun b => ?_
  refine iff_of_false ?_ (hQ b)
  rintro ⟨-, h, -⟩
  exact h

lemma decides_require (ok : Bool) (m : Mismatch) :
    Decides (require opts ok m) fun _ => ok = true := by
  rw [require]
  split
  · next hok => exact decides_nothing.congr fun _ => ⟨fun _ => hok, fun _ => trivial⟩
  · next hok => exact (decides_report _).congr fun _ => ⟨False.elim, hok⟩

lemma decides_find_bind {arena : Arena} {id : SymbolId} {f : Symbol → Check α}
    {R : Symbol → α → Prop} (hf : ∀ symbol, Decides (f symbol) (R symbol)) :
    Decides ((liftM (Arena.find arena id) : Check Symbol) >>= f) fun a =>
      ∃ symbol, arena[id]? = some symbol ∧ R symbol a := by
  intro es a
  rw [run_lift_bind]
  constructor
  · rintro ⟨symbol, hfind, hrest⟩
    obtain ⟨rfl, hR⟩ := (hf symbol es a).mp hrest
    exact ⟨rfl, symbol, Arena.find_eq_ok_iff.mp hfind, hR⟩
  · rintro ⟨rfl, symbol, hfind, hR⟩
    exact ⟨symbol, Arena.find_eq_ok_iff.mpr hfind, (hf symbol [] a).mpr ⟨rfl, hR⟩⟩

end Check

open Check

variable {ctx : CheckContext}

/-! ### Expressions -/

lemma Symbol.isFunction_iff {symbol : Symbol} :
    symbol.isFunction = true ↔ symbol.kind = .function := by
  simp [isFunction]

lemma Ident.decides_variableType {x : Ident} (hx : x.symbol.isSome = true) :
    Decides (x.variableType ctx) fun t => ∃ symbol, x.StandsFor ctx.arena symbol ∧
      symbol.kind ≠ .function ∧ t = symbol.ty.element := by
  obtain ⟨n, hn⟩ := Option.isSome_iff_exists.mp hx
  refine Decides.congr (P := fun t => ∃ symbol, ctx.arena[n]? = some symbol ∧
    (symbol.kind ≠ .function ∧ t = symbol.ty.element)) ?_ fun t => by simp [StandsFor, hn]
  rw [variableType, hn]
  refine decides_find_bind fun symbol => ?_
  split
  · next hfun =>
    exact decides_reported _ _ fun t h => h.1 (Symbol.isFunction_iff.mp hfun)
  · next hfun =>
    rw [Symbol.isFunction_iff] at hfun
    exact (decides_pure _).congr fun t => by simp [hfun]

/-- Arguments against the parameters of a function, of which there are as many. -/
lemma decides_checkArgs {f : String} : (args : List (Expr × Ty)) → (ids : List SymbolId) →
    ∀ n, ids.length = args.length → Decides (checkArgs ctx f n args ids) fun _ =>
      List.Forall₂ (Arena.Takes ctx.arena) ids (args.map (·.2))
  | (e, t) :: args, id :: ids, n, hlength => by
    rw [checkArgs]
    have hrest := decides_checkArgs (f := f) args ids (n + 1) (Nat.succ.inj hlength)
    refine (decides_find_bind fun param => (decides_require _ _).andThen hrest).congr fun _ => ?_
    simp only [List.map_cons, List.forall₂_cons, Arena.Takes]
    constructor
    · rintro ⟨param, hparam, ht, hts⟩
      exact ⟨⟨param, hparam, ht⟩, hts⟩
    · rintro ⟨⟨param, hparam, ht⟩, hts⟩
      exact ⟨param, hparam, ht, hts⟩
  | [], [], n, _ => by
    rw [checkArgs]
    exact decides_nothing.congr fun _ => by simp
  | [], _ :: _, _, hlength | _ :: _, [], _, hlength => by simp at hlength

/-- The type of a call of that name with arguments of these types. -/
def Ident.Returns (arena : Arena) (f : Ident) (ts : List Ty) (t : Ty) : Prop :=
  if f.name = printName then ts.length = 1 ∧ t = .void
  else ∃ symbol, f.StandsFor arena symbol ∧ symbol.kind = .function ∧
    List.Forall₂ (Arena.Takes arena) symbol.params ts ∧ t = symbol.ty

lemma Ident.decides_callType {f : Ident} (hf : f.name ≠ printName → f.symbol.isSome = true)
    (args : List (Expr × Ty)) :
    Decides (f.callType ctx args) (f.Returns ctx.arena (args.map (·.2))) := by
  unfold callType Returns
  by_cases hprint : f.name = printName
  · simp only [hprint, beq_self_eq_true, if_true]
    exact ((decides_require _ _).bind fun _ => decides_pure _).congr fun t => by simp
  · obtain ⟨n, hn⟩ := Option.isSome_iff_exists.mp (hf hprint)
    simp only [hprint, hn, beq_iff_eq, if_false]
    refine Decides.congr (P := fun t => ∃ symbol, ctx.arena[n]? = some symbol ∧
      (symbol.kind = .function ∧
        List.Forall₂ (Arena.Takes ctx.arena) symbol.params (args.map (·.2)) ∧ t = symbol.ty))
      ?_ fun t => by simp [StandsFor, hn]
    refine decides_find_bind fun symbol => ?_
    split
    · next hfun =>
      refine decides_reported _ _ ?_
      rintro t ⟨hkind, -⟩
      simp [Symbol.isFunction, hkind] at hfun
    · next hfun =>
      have hkind : symbol.kind = .function := by simpa [Symbol.isFunction] using hfun
      split
      · next hlength =>
        refine decides_reported _ _ ?_
        rintro t ⟨-, hts, -⟩
        exact hlength (by simpa using hts.length_eq)
      · next hlength =>
        have hargs : Decides (checkArgs ctx f.render 1 args symbol.params) _ :=
          decides_checkArgs args symbol.params 1 (Decidable.not_not.mp hlength)
        exact (hargs.bind fun _ => decides_pure _).congr fun t => by simp [hkind]

section Rules

variable {arena : Arena}

lemma BinOp.accepts_arith (op : Arith) (t u : Ty) :
    (BinOp.arith op).accepts t u = (t.isNumeric && u.isNumeric) := rfl

lemma BinOp.accepts_compare (rel : Rel) (t u : Ty) : (BinOp.compare rel).accepts t u =
    if rel = .eq ∨ rel = .ne then t.compatible u else t.isNumeric && u.isNumeric := by
  cases rel <;> rfl

/-- The rules for operators in one, by what the operator takes and returns. -/
lemma hasType_binary {op : BinOp} {l r : Expr} {v : Ty} : HasType arena (.binary op l r) v ↔
    ∃ t, HasType arena l t ∧ ∃ u, HasType arena r u ∧ op.accepts t u = true ∧
      v = op.resultType := by
  constructor
  · intro h
    cases h with
    | arith hl hr ht hu => exact ⟨_, hl, _, hr, by simp [BinOp.accepts_arith, ht, hu], rfl⟩
    | ordering hrel hl hr ht hu =>
      exact ⟨_, hl, _, hr, by simp [BinOp.accepts_compare, hrel, ht, hu], rfl⟩
    | equality hrel hl hr htu =>
      exact ⟨_, hl, _, hr, by rw [BinOp.accepts_compare, if_pos hrel, htu], rfl⟩
  · rintro ⟨t, hl, u, hr, hop, rfl⟩
    cases op with
    | arith op =>
      rw [BinOp.accepts_arith, Bool.and_eq_true] at hop
      exact .arith hl hr hop.1 hop.2
    | compare rel =>
      rw [BinOp.accepts_compare] at hop
      split at hop
      · next hrel => exact .equality hrel hl hr hop
      · next hrel =>
        rw [Bool.and_eq_true] at hop
        exact .ordering (not_or.mp hrel) hl hr hop.1 hop.2

/-- The rules for calls in one. -/
lemma hasType_call {f : Ident} {args : List Expr} {t : Ty} : HasType arena (.call f args) t ↔
    ∃ ts, List.Forall₂ (HasType arena) args ts ∧ f.Returns arena ts t := by
  constructor
  · intro h
    cases h with
    | print hf he =>
      exact ⟨_, .cons he .nil, by rw [Ident.Returns, if_pos hf]; exact ⟨rfl, rfl⟩⟩
    | call hf hsymbol hfun hargs hts =>
      exact ⟨_, hargs, by rw [Ident.Returns, if_neg hf]; exact ⟨_, hsymbol, hfun, hts, rfl⟩⟩
  · rintro ⟨ts, hargs, hreturns⟩
    rw [Ident.Returns] at hreturns
    split at hreturns
    · next hf =>
      obtain ⟨hone, rfl⟩ := hreturns
      obtain ⟨u, rfl⟩ := List.length_eq_one_iff.mp hone
      cases hargs with
      | cons he hrest =>
        cases hrest
        exact .print hf he
    · next hf =>
      obtain ⟨symbol, hsymbol, hfun, hts, rfl⟩ := hreturns
      exact .call hf hsymbol hfun hargs hts

end Rules

mutual

/-- Inferring the type of an expression whose names are bound. -/
lemma Expr.decides_infer : (e : Expr) → (∀ x ∈ e.uses, x.symbol.isSome = true) →
    Decides (e.infer ctx) (HasType ctx.arena e)
  | .int v, _ => by
    refine (decides_pure _).congr fun t => ?_
    constructor
    · rintro rfl
      exact .int v
    · intro h
      cases h
      rfl
  | .bool b, _ => by
    refine (decides_pure _).congr fun t => ?_
    constructor
    · rintro rfl
      exact .bool b
    · intro h
      cases h
      rfl
  | .name x, h => by
    refine (Ident.decides_variableType (h x (List.mem_singleton.mpr rfl))).congr fun t => ?_
    constructor
    · rintro ⟨symbol, hx, hvar, rfl⟩
      exact .name hx hvar
    · intro ht
      cases ht with
      | name hx hvar => exact ⟨_, hx, hvar, rfl⟩
  | .binary op l r, h => by
    have hl := l.decides_infer fun x hx => h x (List.mem_append_left _ hx)
    have hr := r.decides_infer fun x hx => h x (List.mem_append_right _ hx)
    refine (hl.bind fun lt => hr.bind fun rt =>
      (decides_require _ _).bind fun _ => decides_pure _).congr fun t => ?_
    rw [hasType_binary]
    simp
  | .assign x e, h => by
    have hx : Decides (x.variableType ctx) _ :=
      Ident.decides_variableType (h x (List.mem_cons_self ..))
    have he := e.decides_infer fun y hy => h y (List.mem_cons_of_mem _ hy)
    refine (hx.bind fun xt => he.bind fun et =>
      (decides_require _ _).bind fun _ => decides_pure _).congr fun t => ?_
    constructor
    · rintro ⟨_, ⟨symbol, hsymbol, hvar, rfl⟩, _, ht, _, hcompat, rfl⟩
      exact .assign hsymbol hvar ht hcompat
    · intro ht
      cases ht with
      | assign hsymbol hvar ht hcompat =>
        exact ⟨_, ⟨_, hsymbol, hvar, rfl⟩, _, ht, (), hcompat, rfl⟩
  | .call f args, h => by
    have hargs := Expr.decides_inferAll args fun x hx =>
      h x (List.mem_append_right _ hx)
    have hf : f.name ≠ printName → f.symbol.isSome = true := fun hprint =>
      h f (List.mem_append_left _ (by simp [hprint]))
    refine (hargs.bind fun typed => Ident.decides_callType hf typed).congr fun t => ?_
    rw [hasType_call]
    constructor
    · rintro ⟨typed, ⟨-, htyped⟩, hreturns⟩
      exact ⟨_, htyped, hreturns⟩
    · rintro ⟨ts, hts, hreturns⟩
      have hsnd : (args.zip ts).map (·.2) = ts := List.map_snd_zip (Nat.le_of_eq hts.length_eq.symm)
      refine ⟨args.zip ts, ⟨List.map_fst_zip (Nat.le_of_eq hts.length_eq), ?_⟩, ?_⟩
      · rwa [hsnd]
      · rwa [hsnd]
termination_by structural e => e

lemma Expr.decides_inferAll : (args : List Expr) →
    (∀ x ∈ Expr.usesAll args, x.symbol.isSome = true) → Decides (Expr.inferAll ctx args)
      fun typed => typed.map (·.1) = args ∧
        List.Forall₂ (HasType ctx.arena) args (typed.map (·.2))
  | [], _ => (decides_pure _).congr fun typed => by simp
  | e :: rest, h => by
    have he := e.decides_infer fun x hx => h x (List.mem_append_left _ hx)
    have hrest := Expr.decides_inferAll rest fun x hx =>
      h x (List.mem_append_right _ hx)
    refine (he.bind fun t => hrest.bind fun typed => decides_pure _).congr fun typed => ?_
    constructor
    · rintro ⟨t, ht, typed, ⟨hfst, hsnd⟩, rfl⟩
      exact ⟨by rw [List.map_cons, hfst], .cons ht hsnd⟩
    · rintro ⟨hfst, hsnd⟩
      obtain ⟨⟨_, t⟩, typed, rfl, rfl, rfl⟩ := List.map_eq_cons_iff.mp hfst
      rw [List.map_cons, List.forall₂_cons] at hsnd
      exact ⟨t, hsnd.1, typed, ⟨rfl, hsnd.2⟩, rfl⟩
termination_by structural args => args

end

/-! ### Statements and declarations -/

/-- Every name that is used in these events is bound to some symbol. -/
def BoundUses (es : List Event) : Prop := ∀ x, .use x ∈ es → x.symbol.isSome = true

section BoundUses

variable {es fs : List Event}

@[simp] lemma boundUses_nil : BoundUses [] := nofun

@[simp] lemma boundUses_append : BoundUses (es ++ fs) ↔ BoundUses es ∧ BoundUses fs := by
  simp [BoundUses, or_imp, forall_and]

@[simp] lemma boundUses_scoped : BoundUses (scopedEvents es) ↔ BoundUses es := by
  simp [BoundUses, scopedEvents]

@[simp] lemma boundUses_uses {xs : List Ident} :
    BoundUses (xs.map .use) ↔ ∀ x ∈ xs, x.symbol.isSome = true := by
  simp [BoundUses]

@[simp] lemma boundUses_declare {x : Ident} {kind : SymbolKind} {ty : Ty} :
    BoundUses (.declare x kind ty :: es) ↔ BoundUses es := by
  simp [BoundUses]

@[simp] lemma boundUses_finish {f : Ident} {params : List Ident} {frame : Frame} :
    BoundUses (.finish f params frame :: es) ↔ BoundUses es := by
  simp [BoundUses]

end BoundUses

lemma Expr.decides_check {e : Expr} (h : BoundUses e.events) :
    Decides (e.check ctx) fun _ => ∃ t, HasType ctx.arena e t :=
  ((e.decides_infer (boundUses_uses.mp h)).bind fun _ => decides_pure ()).congr fun _ => by simp

lemma Expr.decides_checkOption {e : Option Expr} (h : BoundUses (Expr.eventsOption e)) :
    Decides (Expr.checkOption ctx e) fun _ => ∀ e' ∈ e, ∃ t, HasType ctx.arena e' t := by
  cases e with
  | none => exact decides_nothing.congr fun _ => by simp
  | some e => exact (Expr.decides_check h).congr fun _ => by simp

/-- An expression whose type has to meet a condition. -/
lemma Expr.decides_infer_require {e : Expr} {ok : Ty → Bool} {m : Ty → Mismatch}
    (h : BoundUses e.events) : Decides (do
      let t ← e.infer ctx
      Check.require ctx.opts (ok t) (m t)) fun _ => ∃ t, HasType ctx.arena e t ∧ ok t = true := by
  have huses := boundUses_uses.mp h
  exact (e.decides_infer huses).bind fun t => decides_require _ _

lemma Expr.decides_checkInitial {x : Ident} {ty : Ty} {value : Option Expr}
    (h : BoundUses (Expr.eventsOption value)) :
    Decides (Expr.checkInitial ctx x ty value) fun _ => Expr.Starts ctx.arena ty value := by
  cases value with
  | none => exact decides_nothing.congr fun _ => by simp [Expr.Starts]
  | some e => exact (Expr.decides_infer_require h).congr fun _ => by simp [Expr.Starts]

lemma Expr.decides_checkCondition {construct : Construct} {c : Expr} (h : BoundUses c.events) :
    Decides (c.checkCondition ctx construct) fun _ => c.IsCondition ctx.arena :=
  (Expr.decides_infer_require h).congr fun _ => by simp [Expr.IsCondition, Ty.isBool]

lemma decides_checkReturn {f : Enclosing} {value : Option Expr}
    (h : BoundUses (Expr.eventsOption value)) : Decides (checkReturn ctx (some f) value)
      fun _ => Stmt.Typed ctx.arena f.returns (.ret value) := by
  cases value with
  | none =>
    refine (decides_require _ _).congr fun _ => ⟨.retNothing, fun ht => ?_⟩
    cases ht with
    | retNothing ht => exact ht
  | some e =>
    have hcode : checkReturn ctx (some f) (some e) = (do
        let t ← e.infer ctx
        Check.require ctx.opts (f.returns.compatible t)
          (.result f.name ⟨e.render, t⟩ f.returns)) := by
      simp [checkReturn]
    rw [hcode]
    refine (Expr.decides_infer_require h).congr fun _ =>
      ⟨fun ⟨t, he, ht⟩ => .ret he ht, fun ht => ?_⟩
    cases ht with
    | ret he ht => exact ⟨_, he, ht⟩

lemma Param.decides_checkAll : (ps : List Param) → BoundUses (Param.eventsAll ps) →
    Decides (Param.checkAll ctx ps) fun _ => ∀ p ∈ ps, Expr.Starts ctx.arena p.ty p.fallback
  | [], _ => decides_nothing.congr fun _ => by simp
  | p :: rest, h => by
    simp only [Param.eventsAll, Param.events, boundUses_append] at h
    have hrest := Param.decides_checkAll rest h.2
    refine ((Expr.decides_checkInitial h.1.1).andThen hrest).congr fun _ => ?_
    rw [List.forall_mem_cons]

lemma decides_checkReturnType (x : Ident) (ty : Option Ty) :
    Decides (checkReturnType ctx x ty) fun t => ty = some t := by
  cases ty with
  | none => exact decides_reported _ _ nofun
  | some ty => exact (decides_pure ty).congr fun t => by rw [Option.some.injEq, eq_comm]

mutual

/-- Checking a statement in a function. -/
lemma Stmt.decides_check (f : Enclosing) : (s : Stmt) → BoundUses s.events →
    Decides (s.check ctx (some f)) fun _ => s.Typed ctx.arena f.returns
  | .expr e, h => by
    refine (Expr.decides_check h).unlessHalted.congr fun _ => ?_
    constructor
    · rintro ⟨t, he⟩
      exact .expr he
    · intro htyped
      cases htyped with
      | expr he => exact ⟨_, he⟩
  | .decl d, h => by
    refine (d.decides_check .localVar h).unlessHalted.congr fun _ => ⟨.decl, ?_⟩
    intro htyped
    cases htyped with
    | decl hd => exact hd
  | .ret value, h => (decides_checkReturn h).unlessHalted
  | .cond b, h => by
    refine (b.decides_check f .ifBranch h).unlessHalted.congr fun _ => ⟨.cond, ?_⟩
    intro htyped
    cases htyped with
    | cond hb => exact hb
  | .whileLoop c body, h => by
    simp only [Stmt.events, boundUses_scoped, boundUses_append] at h
    have hbody := Stmt.decides_checkAll f body h.2
    refine ((Expr.decides_checkCondition h.1).andThen hbody).unlessHalted.congr fun _ => ?_
    constructor
    · rintro ⟨hc, hbody⟩
      exact .whileLoop hc hbody
    · intro htyped
      cases htyped with
      | whileLoop hc hbody => exact ⟨hc, hbody⟩
  | .forLoop start c step body, h => by
    simp only [Stmt.events, boundUses_scoped, boundUses_append] at h
    obtain ⟨hstart, hc, hstep, hbody⟩ := h
    have hfirst := Decl.decides_checkOption start hstart
    have hcondition : (c.checkCondition ctx .forLoop).Decides fun _ => c.IsCondition ctx.arena :=
      Expr.decides_checkCondition hc
    have hlast : (Expr.checkOption ctx step).Decides _ := Expr.decides_checkOption hstep
    have hblock := Stmt.decides_checkAll f body hbody
    have hloop := hfirst.andThen (hcondition.andThen (hlast.andThen hblock))
    refine hloop.unlessHalted.congr fun _ => ?_
    constructor
    · rintro ⟨hstart, hc, hstep, hbody⟩
      exact .forLoop hstart hc hstep hbody
    · intro htyped
      cases htyped with
      | forLoop hstart hc hstep hbody => exact ⟨hstart, hc, hstep, hbody⟩
termination_by structural s => s

lemma Stmt.decides_checkAll (f : Enclosing) : (ss : List Stmt) → BoundUses (Stmt.eventsAll ss) →
    Decides (Stmt.checkAll ctx (some f) ss) fun _ => ∀ s ∈ ss, s.Typed ctx.arena f.returns
  | [], _ => decides_nothing.congr fun _ => by simp
  | s :: rest, h => by
    simp only [Stmt.eventsAll, boundUses_append] at h
    refine ((s.decides_check f h.1).andThen (Stmt.decides_checkAll f rest h.2)).congr fun _ => ?_
    rw [List.forall_mem_cons]
termination_by structural ss => ss

lemma Branch.decides_check (f : Enclosing) : (b : Branch) → (construct : Construct) →
    BoundUses b.events →
    Decides (b.check ctx (some f) construct) fun _ => b.Typed ctx.arena f.returns
  | ⟨c, body, tail⟩, construct, h => by
    simp only [Branch.events, boundUses_append, boundUses_scoped] at h
    obtain ⟨⟨hc, hbody⟩, htail⟩ := h
    have hrest := (Stmt.decides_checkAll f body hbody).andThen (tail.decides_check f htail)
    refine ((Expr.decides_checkCondition hc).andThen hrest).congr fun _ => ?_
    constructor
    · rintro ⟨hc, hbody, htail⟩
      exact .mk hc hbody htail
    · rintro ⟨hc, hbody, htail⟩
      exact ⟨hc, hbody, htail⟩
termination_by structural b => b

lemma Tail.decides_check (f : Enclosing) : (t : Tail) → BoundUses t.events →
    Decides (t.check ctx (some f)) fun _ => t.Typed ctx.arena f.returns
  | .done, _ => by
    refine decides_nothing.congr fun _ => ?_
    exact iff_of_true trivial .done
  | .elseIf next, h => by
    refine (next.decides_check f .elseIfBranch h).congr fun _ => ⟨.elseIf, ?_⟩
    intro htyped
    cases htyped with
    | elseIf hnext => exact hnext
  | .otherwise body, h => by
    have hbody := Stmt.decides_checkAll f body (boundUses_scoped.mp h)
    refine hbody.congr fun _ => ⟨.otherwise, ?_⟩
    intro htyped
    cases htyped with
    | otherwise hlast => exact hlast
termination_by structural t => t

lemma Decl.decides_check : (d : Decl) → (kind : SymbolKind) → BoundUses (d.events kind) →
    Decides (d.check ctx) fun _ => d.Typed ctx.arena
  | .globalVar _, _, h => by
    obtain ⟨hvalue, -⟩ := boundUses_append.mp h
    refine (Expr.decides_checkInitial hvalue).unlessHalted.congr fun _ => ⟨.globalVar, ?_⟩
    intro htyped
    cases htyped with
    | globalVar hv => exact hv
  | .localVar _, _, h => by
    obtain ⟨hvalue, -⟩ := boundUses_append.mp h
    refine (Expr.decides_checkInitial hvalue).unlessHalted.congr fun _ => ⟨.localVar, ?_⟩
    intro htyped
    cases htyped with
    | localVar hv => exact hv
  | .function f, _, h => by
    have hfunction := f.decides_check h
    refine hfunction.unlessHalted.congr fun _ => ⟨.function, ?_⟩
    intro htyped
    cases htyped with
    | function hf => exact hf
termination_by structural d => d

lemma Decl.decides_checkOption : (d : Option Decl) → BoundUses (Decl.eventsOption d) →
    Decides (Decl.checkOption ctx d) fun _ => ∀ d' ∈ d, d'.Typed ctx.arena
  | none, _ => decides_nothing.congr fun _ => by simp
  | some d, h => (d.decides_check .localVar h).congr fun _ => by simp
termination_by structural d => d

lemma FunDecl.decides_check : (f : FunDecl) → BoundUses f.events →
    Decides (f.check ctx) fun _ => f.Typed ctx.arena
  | ⟨name, params, returns, body, variableSize, parameterSize⟩, h => by
    simp only [FunDecl.events, boundUses_declare, boundUses_append, boundUses_scoped] at h
    obtain ⟨⟨hparams, hbody⟩, -⟩ := h
    have hfirst : (Param.checkAll ctx params).Decides _ := Param.decides_checkAll params hparams
    have hblock (r : Ty) := Stmt.decides_checkAll ⟨name.render, r⟩ body hbody
    refine ((decides_checkReturnType name returns).bind fun r =>
      hfirst.andThen (hblock r)).congr fun _ => ?_
    constructor
    · rintro ⟨r, rfl, hparams, hbody⟩
      exact .mk hparams hbody
    · rintro ⟨hparams, hbody⟩
      exact ⟨_, rfl, hparams, hbody⟩
termination_by structural f => f

end

/-- Checking a program whose names are bound decides whether it is typed. -/
lemma Program.decides_check : (p : Program) → BoundUses p.events →
    Decides (p.check ctx) fun _ => p.Typed ctx.arena
  | [], _ => decides_nothing.congr fun _ => by simp [Program.Typed]
  | d :: rest, h => by
    simp only [Program.events, Decl.eventsAll, boundUses_append] at h
    have hrest := Program.decides_check rest h.2
    refine ((d.decides_check .globalVar h.1).andThen hrest).congr fun _ => ?_
    rw [Program.Typed, Program.Typed, List.forall_mem_cons]

/-! ### After name resolution -/

section Resolution

variable {opts : Options} {s t : Resolver}

lemma Resolved.boundUses {xs xs' : List Ident} (h : Resolved s xs xs') :
    BoundUses (xs'.map .use) := by
  rw [boundUses_uses]
  intro x hx
  obtain ⟨id, -, hid, -⟩ := h.bound x hx
  rw [hid]
  rfl

lemma Expr.boundUses_resolve {e e' : Expr} (h : e.resolve opts s = .ok (e', t))
    (ht : t.errors = []) : BoundUses e'.events := (e.run_resolve h ht).2.boundUses

lemma Expr.boundUses_resolveOption {e e' : Option Expr}
    (h : Expr.resolveOption opts e s = .ok (e', t)) (ht : t.errors = []) :
    BoundUses (Expr.eventsOption e') := (Expr.run_resolveOption h ht).2.boundUses

lemma Var.boundUses_resolve {v v' : Var} (kind : SymbolKind) (h : v.resolve opts s = .ok (v', t))
    (ht : t.errors = []) : BoundUses (v'.events kind) := by
  rw [resolve] at h
  split at h
  · rw [Resolve.run_report_bind, run_pure] at h
    exact absurd (h.2 ▸ ht) (opts.report_ne_nil _ _)
  · rw [run_get_bind] at h
    obtain ⟨_, s₁, -, h⟩ := run_bind.mp h
    obtain ⟨value, s₂, hvalue, h⟩ := run_bind.mp h
    obtain ⟨_, s₃, hbind, h⟩ := run_bind.mp h
    obtain ⟨rfl, rfl⟩ := run_pure.mp h
    obtain ⟨herr, -⟩ := Resolve.run_bind_symbol hbind ht
    simpa [Var.events] using Expr.boundUses_resolveOption hvalue herr

lemma Param.boundUses_resolve {p : Param} {p' : Param × Option SymbolId}
    (h : p.resolve opts s = .ok (p', t)) (ht : t.errors = []) : BoundUses p'.1.events := by
  rw [resolve] at h
  replace h := Resolve.run_unlessHalted h ht
  split at h
  · rw [Resolve.run_report_bind, run_pure] at h
    exact absurd (h.2 ▸ ht) (opts.report_ne_nil _ _)
  · obtain ⟨_, s₁, -, h⟩ := run_bind.mp h
    obtain ⟨value, s₂, hvalue, h⟩ := run_bind.mp h
    obtain ⟨_, s₃, hbind, h⟩ := run_bind.mp h
    obtain ⟨rfl, rfl⟩ := run_pure.mp h
    obtain ⟨herr, -⟩ := Resolve.run_bind_symbol hbind ht
    simpa [Param.events] using Expr.boundUses_resolveOption hvalue herr

lemma Param.boundUses_resolveAll : (ps : List Param) →
    ∀ {s t : Resolver} {r : List Param × List SymbolId},
    Param.resolveAll opts ps s = .ok (r, t) → t.errors = [] → BoundUses (Param.eventsAll r.1)
  | [], s, t, r, h, ht => by
    obtain ⟨rfl, rfl⟩ := run_pure.mp h
    exact boundUses_nil
  | p :: rest, s, t, r, h, ht => by
    obtain ⟨p', u, hp, h⟩ := run_bind.mp h
    obtain ⟨rest', u', hrest, h⟩ := run_bind.mp h
    obtain ⟨rfl, rfl⟩ := run_pure.mp h
    obtain ⟨herr, -⟩ := Param.run_resolveAll rest hrest ht
    have hfirst := Param.boundUses_resolve hp herr
    exact boundUses_append.mpr ⟨hfirst, Param.boundUses_resolveAll rest hrest ht⟩

mutual

/-- In a statement that is resolved without a report every name is bound, whatever the state. -/
lemma Stmt.boundUses_resolve : (st : Stmt) → ∀ {s t : Resolver} {st' : Stmt},
    st.resolve opts s = .ok (st', t) → t.errors = [] → BoundUses st'.events
  | .expr e, s, t, st', h, ht => by
    obtain ⟨e', u, he, h⟩ := run_bind.mp (Resolve.run_unlessHalted h ht)
    obtain ⟨rfl, rfl⟩ := run_pure.mp h
    exact Expr.boundUses_resolve he ht
  | .decl d, s, t, st', h, ht => by
    obtain ⟨d', u, hd, h⟩ := run_bind.mp (Resolve.run_unlessHalted h ht)
    obtain ⟨rfl, rfl⟩ := run_pure.mp h
    exact d.boundUses_resolve .localVar hd ht
  | .ret value, s, t, st', h, ht => by
    obtain ⟨value', u, hvalue, h⟩ := run_bind.mp (Resolve.run_unlessHalted h ht)
    obtain ⟨rfl, rfl⟩ := run_pure.mp h
    exact Expr.boundUses_resolveOption hvalue ht
  | .cond b, s, t, st', h, ht => by
    obtain ⟨b', u, hb, h⟩ := run_bind.mp (Resolve.run_unlessHalted h ht)
    obtain ⟨rfl, rfl⟩ := run_pure.mp h
    exact b.boundUses_resolve hb ht
  | .whileLoop c body, s, t, st', h, ht => by
    obtain ⟨u, hscope, rfl⟩ := Resolve.run_inScope.mp (Resolve.run_unlessHalted h ht)
    obtain ⟨c', u₁, hc, hrest⟩ := run_bind.mp hscope
    obtain ⟨body', u₂, hbody, hend⟩ := run_bind.mp hrest
    obtain ⟨rfl, rfl⟩ := run_pure.mp hend
    obtain ⟨herr, -⟩ := Stmt.run_resolveAll body hbody ht
    have hcondition := Expr.boundUses_resolve hc herr
    have hblock := Stmt.boundUses_resolveAll body hbody ht
    exact boundUses_scoped.mpr (boundUses_append.mpr ⟨hcondition, hblock⟩)
  | .forLoop start c step body, s, t, st', h, ht => by
    obtain ⟨u, hscope, rfl⟩ := Resolve.run_inScope.mp (Resolve.run_unlessHalted h ht)
    obtain ⟨start', u₁, hstart, hrest⟩ := run_bind.mp hscope
    obtain ⟨c', u₂, hc, hrest⟩ := run_bind.mp hrest
    obtain ⟨step', u₃, hstep, hrest⟩ := run_bind.mp hrest
    obtain ⟨body', u₄, hscope', hend⟩ := run_bind.mp hrest
    obtain ⟨rfl, rfl⟩ := run_pure.mp hend
    obtain ⟨u₅, hbody, rfl⟩ := Resolve.run_inScope.mp hscope'
    obtain ⟨herr, -⟩ := Stmt.run_resolveAll body hbody ht
    obtain ⟨rfl, hstepped⟩ := Expr.run_resolveOption hstep herr
    obtain ⟨rfl, hresolved⟩ := c.run_resolve hc herr
    simp only [Stmt.events, boundUses_scoped, boundUses_append]
    exact ⟨Decl.boundUses_resolveOption start hstart herr, hresolved.boundUses,
      hstepped.boundUses, Stmt.boundUses_resolveAll body hbody ht⟩
termination_by structural st => st

lemma Stmt.boundUses_resolveAll : (sts : List Stmt) → ∀ {s t : Resolver} {sts' : List Stmt},
    Stmt.resolveAll opts sts s = .ok (sts', t) → t.errors = [] → BoundUses (Stmt.eventsAll sts')
  | [], s, t, sts', h, ht => by
    obtain ⟨rfl, rfl⟩ := run_pure.mp h
    exact boundUses_nil
  | st :: rest, s, t, sts', h, ht => by
    obtain ⟨st', u, hst, h⟩ := run_bind.mp h
    obtain ⟨rest', u', hrest, h⟩ := run_bind.mp h
    obtain ⟨rfl, rfl⟩ := run_pure.mp h
    obtain ⟨herr, -⟩ := Stmt.run_resolveAll rest hrest ht
    have hfirst := st.boundUses_resolve hst herr
    exact boundUses_append.mpr ⟨hfirst, Stmt.boundUses_resolveAll rest hrest ht⟩
termination_by structural sts => sts

lemma Branch.boundUses_resolve : (b : Branch) → ∀ {s t : Resolver} {b' : Branch},
    b.resolve opts s = .ok (b', t) → t.errors = [] → BoundUses b'.events
  | ⟨c, body, tail⟩, s, t, b', h, ht => by
    obtain ⟨pair, u, hscope, hrest⟩ := run_bind.mp h
    obtain ⟨tail', u', htail, hend⟩ := run_bind.mp hrest
    obtain ⟨rfl, rfl⟩ := run_pure.mp hend
    obtain ⟨u, hin, rfl⟩ := Resolve.run_inScope.mp hscope
    obtain ⟨c', u₁, hc, hrest⟩ := run_bind.mp hin
    obtain ⟨body', u₂, hbody, hend⟩ := run_bind.mp hrest
    obtain ⟨rfl, rfl⟩ := run_pure.mp hend
    obtain ⟨herr, -⟩ := tail.run_resolve htail ht
    obtain ⟨herr', -⟩ := Stmt.run_resolveAll body hbody herr
    simp only [Branch.events, boundUses_append, boundUses_scoped]
    exact ⟨⟨Expr.boundUses_resolve hc herr', Stmt.boundUses_resolveAll body hbody herr⟩,
      tail.boundUses_resolve htail ht⟩
termination_by structural b => b

lemma Tail.boundUses_resolve : (tail : Tail) → ∀ {s t : Resolver} {tail' : Tail},
    tail.resolve opts s = .ok (tail', t) → t.errors = [] → BoundUses tail'.events
  | .done, s, t, tail', h, ht => by
    obtain ⟨rfl, rfl⟩ := run_pure.mp h
    exact boundUses_nil
  | .elseIf next, s, t, tail', h, ht => by
    obtain ⟨next', u, hnext, h⟩ := run_bind.mp h
    obtain ⟨rfl, rfl⟩ := run_pure.mp h
    exact next.boundUses_resolve hnext ht
  | .otherwise body, s, t, tail', h, ht => by
    obtain ⟨body', u, hscope, h⟩ := run_bind.mp h
    obtain ⟨rfl, rfl⟩ := run_pure.mp h
    obtain ⟨u, hbody, rfl⟩ := Resolve.run_inScope.mp hscope
    exact boundUses_scoped.mpr (Stmt.boundUses_resolveAll body hbody ht)
termination_by structural tail => tail

lemma Decl.boundUses_resolve : (d : Decl) → (kind : SymbolKind) → ∀ {s t : Resolver} {d' : Decl},
    d.resolve opts s = .ok (d', t) → t.errors = [] → BoundUses (d'.events kind)
  | .globalVar v, kind, s, t, d', h, ht | .localVar v, kind, s, t, d', h, ht => by
    obtain ⟨v', u, hv, h⟩ := run_bind.mp (Resolve.run_unlessHalted h ht)
    obtain ⟨rfl, rfl⟩ := run_pure.mp h
    exact Var.boundUses_resolve kind hv ht
  | .function f, kind, s, t, d', h, ht => by
    obtain ⟨f', u, hf, h⟩ := run_bind.mp (Resolve.run_unlessHalted h ht)
    obtain ⟨rfl, rfl⟩ := run_pure.mp h
    exact f.boundUses_resolve hf ht
termination_by structural d => d

lemma Decl.boundUses_resolveOption : (d : Option Decl) → ∀ {s t : Resolver} {d' : Option Decl},
    Decl.resolveOption opts d s = .ok (d', t) → t.errors = [] → BoundUses (Decl.eventsOption d')
  | none, s, t, d', h, ht => by
    obtain ⟨rfl, rfl⟩ := run_pure.mp h
    exact boundUses_nil
  | some d, s, t, d', h, ht => by
    obtain ⟨d', u, hd, h⟩ := run_bind.mp h
    obtain ⟨rfl, rfl⟩ := run_pure.mp h
    exact d.boundUses_resolve .localVar hd ht
termination_by structural d => d

lemma FunDecl.boundUses_resolve : (f : FunDecl) → ∀ {s t : Resolver} {f' : FunDecl},
    f.resolve opts s = .ok (f', t) → t.errors = [] → BoundUses f'.events
  | ⟨name, params, returns, body, variableSize, parameterSize⟩, s, t, f', h, ht => by
    rw [FunDecl.resolve, run_get_bind] at h
    split at h
    · rw [Resolve.run_report_bind, run_pure] at h
      exact absurd (h.2 ▸ ht) (opts.report_ne_nil _ _)
    · obtain ⟨p, s₁, -, hrest⟩ := run_bind.mp h
      rw [run_modify_bind] at hrest
      obtain ⟨q, s₂, hscope, hrest⟩ := run_bind.mp hrest
      rw [run_get_bind, run_modify_bind, Resolve.run_setParams_bind, run_pure] at hrest
      obtain ⟨-, rfl, rfl⟩ := hrest
      obtain ⟨s₃, hin, rfl⟩ := Resolve.run_inScope.mp hscope
      obtain ⟨ps, s₄, hparams, hrest⟩ := run_bind.mp hin
      obtain ⟨body', s₅, hbody, hend⟩ := run_bind.mp hrest
      obtain ⟨rfl, rfl⟩ := run_pure.mp hend
      obtain ⟨herr, -⟩ := Stmt.run_resolveAll body hbody ht
      simp only [FunDecl.events, boundUses_declare, boundUses_append, boundUses_scoped,
        boundUses_finish]
      exact ⟨⟨Param.boundUses_resolveAll params hparams herr,
        Stmt.boundUses_resolveAll body hbody ht⟩, boundUses_nil⟩
termination_by structural f => f

end

lemma Decl.boundUses_resolveAll : (ds : List Decl) → ∀ {s t : Resolver} {ds' : List Decl},
    Decl.resolveAll opts ds s = .ok (ds', t) → t.errors = [] → BoundUses (Decl.eventsAll ds')
  | [], s, t, ds', h, ht => by
    obtain ⟨rfl, rfl⟩ := run_pure.mp h
    exact boundUses_nil
  | d :: rest, s, t, ds', h, ht => by
    obtain ⟨d', u, hd, h⟩ := run_bind.mp h
    obtain ⟨rest', u', hrest, h⟩ := run_bind.mp h
    obtain ⟨rfl, rfl⟩ := run_pure.mp h
    obtain ⟨herr, -⟩ := Decl.run_resolveAll rest hrest ht
    have hfirst := d.boundUses_resolve .globalVar hd herr
    exact boundUses_append.mpr ⟨hfirst, Decl.boundUses_resolveAll rest hrest ht⟩

end Resolution

/-- **The check decides the type system**: take a program whose names are resolved without a
report, in any session. The check of the result has nothing to report exactly if the rules give
every declaration of it its types. -/
theorem Session.check_iff_typed {s : Session} {p : Program} {a : Analysis}
    (hresolve : s.resolve p = .ok a) (herrors : a.errors = []) :
    a.session.check a.program = .ok [] ↔ a.program.Typed a.session.arena := by
  obtain ⟨t, hrun, ht, -⟩ := Session.resolve_eq_ok hresolve
  obtain ⟨u, hin, rfl⟩ := Resolve.run_inScope.mp hrun
  have hbound : BoundUses a.program.events :=
    Decl.boundUses_resolveAll p hin (ht.symm.trans herrors)
  have hdecides : Decides (a.program.check ⟨a.session.options, a.session.arena⟩) _ :=
    Program.decides_check _ hbound
  have hcheck : a.session.check a.program = .ok [] ↔
      a.program.check ⟨a.session.options, a.session.arena⟩ [] = .ok ((), []) := by
    rw [Session.check, bind_eq_ok]
    constructor
    · rintro ⟨⟨_, errors⟩, hrun, hpure⟩
      obtain rfl : errors = [] := Except.ok.inj hpure
      exact hrun
    · exact fun hrun => ⟨((), []), hrun, rfl⟩
  rw [hcheck, hdecides [] ()]
  simp

/-- A function that calls itself with less and less, down to zero. -/
def descentFunction : FunDecl where
  name := ⟨"f", 0, some 0⟩
  params := [⟨⟨"n", 0, some 1⟩, .int, none⟩]
  returns := some .int
  body := [.cond ⟨.binary (.compare .lt) (.name ⟨"n", 0, some 1⟩) (.int 1),
      [.ret (some (.name ⟨"n", 0, some 1⟩))], .done⟩,
    .ret (some (.call ⟨"f", 0, some 0⟩
      [.binary (.arith .sub) (.name ⟨"n", 0, some 1⟩) (.int 1)]))]
  parameterSize := 8

/-- The same function, but it calls itself without an argument. -/
def bareDescentFunction : FunDecl :=
  { descentFunction with body := [.ret (some (.call ⟨"f", 0, some 0⟩ []))] }

def descentSession : Session :=
  { arena := #[⟨"f", .function, .int, 0, 0, [1]⟩, ⟨"n", .param, .int, 8, 0, []⟩] }

/-- A call of the function in its own body is typed with an argument, and only so. -/
theorem Session.check_descent :
    ({} : Session).resolve [.function descentFunction] =
        .ok ⟨descentSession, [.function descentFunction], []⟩ ∧
      Program.Typed descentSession.arena [.function descentFunction] ∧
      ({} : Session).resolve [.function bareDescentFunction] =
        .ok ⟨descentSession, [.function bareDescentFunction], []⟩ ∧
      ¬ Program.Typed descentSession.arena [.function bareDescentFunction] := by
  have hresolve : ({} : Session).resolve [.function descentFunction] =
    .ok ⟨descentSession, [.function descentFunction], []⟩ := rfl
  have hresolve' : ({} : Session).resolve [.function bareDescentFunction] =
    .ok ⟨descentSession, [.function bareDescentFunction], []⟩ := rfl
  have hcheck' : descentSession.check [.function bareDescentFunction] =
    .ok [.mismatch (.arity "f" 1 0)] := rfl
  refine ⟨hresolve, (Session.check_iff_typed hresolve rfl).mp rfl, hresolve', fun htyped => ?_⟩
  have hcheck := (Session.check_iff_typed hresolve' rfl).mpr htyped
  simp [hcheck'] at hcheck

end TreeCompiler

import Mathlib.Data.List.Forall2
import Mathlib.Data.Option.Defs
import TreeCompiler.Analysis.Typing
import TreeCompiler.Proofs.Events
import TreeCompiler.Proofs.LeafMaps

/-!
Rules for two checks.

A tree and an image of it are checked in the same steps, as they are resolved in the same steps. But
a step of a check depends on the types and the symbols that earlier steps have found. So these have
to be related too, and a step is followed by another one only where the results of the first are
related. Types are related by `T`, the texts that reports quote by `S`, and only symbols that are
`Known` are looked up.
-/

namespace TreeCompiler

variable {S : String → String → Prop} {T : Ty → Ty → Prop} {Known : SymbolId → Prop}

/-! ### Related reports and symbols -/

inductive Quoted.Like (S : String → String → Prop) (T : Ty → Ty → Prop) : Quoted → Quoted → Prop
  | mk {text text' : String} {ty ty' : Ty} : S text text' → T ty ty' →
      Quoted.Like S T ⟨text, ty⟩ ⟨text', ty'⟩

/-- The same mismatch, with related quotes. -/
inductive Mismatch.Like (S : String → String → Prop) (T : Ty → Ty → Prop) :
    Mismatch → Mismatch → Prop where
  | arith (op : Arith) {l l' r r' : Quoted} : l.Like S T l' → r.Like S T r' →
      Mismatch.Like S T (.arith op l r) (.arith op l' r')
  | compare {l l' r r' : Quoted} : l.Like S T l' → r.Like S T r' →
      Mismatch.Like S T (.compare l r) (.compare l' r')
  | assign {v v' x x' : Quoted} : v.Like S T v' → x.Like S T x' →
      Mismatch.Like S T (.assign v x) (.assign v' x')
  | argument {f f' : String} (position : ℕ) {v v' : Quoted} {ty ty' : Ty} : S f f' →
      v.Like S T v' → T ty ty' →
      Mismatch.Like S T (.argument f position v ty) (.argument f' position v' ty')
  | arity {f f' : String} (expected found : ℕ) : S f f' →
      Mismatch.Like S T (.arity f expected found) (.arity f' expected found)
  | result {f f' : String} {v v' : Quoted} {ty ty' : Ty} : S f f' → v.Like S T v' → T ty ty' →
      Mismatch.Like S T (.result f v ty) (.result f' v' ty')
  | condition (c : Construct) {v v' : Quoted} : v.Like S T v' →
      Mismatch.Like S T (.condition c v) (.condition c v')

/-- The same for all that a check reports. -/
inductive Diagnostic.Like (S : String → String → Prop) (T : Ty → Ty → Prop) :
    Diagnostic → Diagnostic → Prop where
  | mismatch {m m' : Mismatch} : m.Like S T m' → Diagnostic.Like S T (.mismatch m) (.mismatch m')
  | missingReturnType {f f' : String} : S f f' →
      Diagnostic.Like S T (.missingReturnType f) (.missingReturnType f')
  | notAVariable {x x' : String} : S x x' →
      Diagnostic.Like S T (.notAVariable x) (.notAVariable x')
  | notAFunction {f f' : String} : S f f' →
      Diagnostic.Like S T (.notAFunction f) (.notAFunction f')

lemma BinOp.like_mismatch (op : BinOp) {l l' r r' : Quoted} (hl : l.Like S T l')
    (hr : r.Like S T r') : (op.mismatch l r).Like S T (op.mismatch l' r') := by
  cases op with
  | arith op => exact .arith op hl hr
  | compare op => exact .compare hl hr

lemma Quoted.Like.eq {q q' : Quoted} (h : q.Like Eq Eq q') : q = q' := by
  obtain ⟨rfl, rfl⟩ := h
  rfl

/-- A report is the same if its quotes are. -/
lemma Diagnostic.Like.eq {d d' : Diagnostic} (h : d.Like Eq Eq d') : d = d' := by
  cases h with
  | mismatch h => cases h with
    | arith _ hl hr | compare hl hr | assign hl hr => rw [hl.eq, hr.eq]
    | argument _ hf hv hty | result hf hv hty => rw [hf, hv.eq, hty]
    | arity _ _ hf => rw [hf]
    | condition _ hv => rw [hv.eq]
  | missingReturnType h | notAVariable h | notAFunction h => rw [h]

/-- Two symbols of which a check sees no difference but for related types. What a function takes is
known. -/
structure Symbol.Like (Known : SymbolId → Prop) (T : Ty → Ty → Prop) (symbol symbol' : Symbol) :
    Prop where
  isFunction : symbol'.isFunction = symbol.isFunction
  params : symbol'.params = symbol.params
  ty : T symbol.ty symbol'.ty
  known : ∀ id ∈ symbol.params, Known id

/-- The same place of a statement: in a function with a related result, or in none. -/
abbrev EnclosingLike (S : String → String → Prop) (T : Ty → Ty → Prop) :
    Option Enclosing → Option Enclosing → Prop :=
  Option.Rel fun f f' => S f.name f'.name ∧ T f.returns f'.returns

/-- Arguments that are written alike, and with related types. -/
abbrev ArgsLike (S : String → String → Prop) (T : Ty → Ty → Prop) :
    List (Expr × Ty) → List (Expr × Ty) → Prop :=
  List.Forall₂ fun arg arg' => S arg.1.render arg'.1.render ∧ T arg.2 arg'.2

/-! ### Rules -/

namespace Check

/-- Related types give the same answers to all that a check asks of types. -/
structure TypeLaws (T : Ty → Ty → Prop) : Prop where
  void : T .void .void
  int : T .int .int
  bool : T .bool .bool
  element {t t' : Ty} : T t t' → T t.element t'.element
  isNumeric {t t' : Ty} : T t t' → t'.isNumeric = t.isNumeric
  isBool {t t' : Ty} : T t t' → t'.isBool = t.isBool
  compatible {t t' u u' : Ty} : T t t' → T u u' → t'.compatible u' = t.compatible u

/-- What a check sees of the leaves of a tree and of its image. -/
structure LeafLaws (S : String → String → Prop) (T : Ty → Ty → Prop) (m : LeafMap) : Prop where
  used_symbol (x : Ident) : (m.used x).symbol = x.symbol
  used_name (x : Ident) : S x.name (m.used x).name
  used_render (x : Ident) : S x.render (m.used x).render
  /-- A call to the built-in that prints stays one, and no other call becomes one. -/
  called_print (f : Ident) : ((m.called f).name == printName) = (f.name == printName)
  called_symbol (f : Ident) : (f.name == printName) = false → (m.called f).symbol = f.symbol
  called_render (f : Ident) : S f.render (m.called f).render
  declared_render (x : Ident) : S x.render (m.declared x).render
  render (e : Expr) : S e.render (e.image m).render
  nothing : S "nothing" "nothing"
  ty (t : Ty) : T t (m.ty t)

lemma TypeLaws.eq : TypeLaws Eq where
  void := rfl
  int := rfl
  bool := rfl
  element h := by rw [h]
  isNumeric h := by rw [h]
  isBool h := by rw [h]
  compatible h h' := by rw [h, h']

/-- A tree is an image of itself. -/
lemma LeafLaws.refl (hS : ∀ x, S x x) (hT : ∀ t, T t t) : LeafLaws S T {} where
  used_symbol _ := rfl
  used_name x := hS x.name
  used_render x := hS x.render
  called_print _ := rfl
  called_symbol _ _ := rfl
  called_render f := hS f.render
  declared_render x := hS x.render
  render e := by
    rw [e.image_id]
    exact hS e.render
  nothing := hS _
  ty := hT

/-- What is asked of a relation between checks so that it holds of the checks of a tree and of its
image under `m`. Again `Holds E x y` is to say that `x` and `y` are related, and their results by
`E`. -/
structure Rules (Holds : ∀ {α : Type}, (α → α → Prop) → Check α → Check α → Prop)
    (ctx ctx' : CheckContext) (Known : SymbolId → Prop) (S : String → String → Prop)
    (T : Ty → Ty → Prop) (m : LeafMap) : Prop where
  types : TypeLaws T
  leaves : LeafLaws S T m
  pure {α : Type} {E : α → α → Prop} {a b : α} : E a b → Holds E (Pure.pure a) (Pure.pure b)
  bind {α β : Type} {E : α → α → Prop} {E' : β → β → Prop} {x y : Check α}
    {f g : α → Check β} : Holds E x y → (∀ a b, E a b → Holds E' (f a) (g b)) →
    Holds E' (x >>= f) (y >>= g)
  report {d d' : Diagnostic} : d.Like S T d' →
    Holds (fun _ _ => True) (report ctx.opts d) (report ctx'.opts d')
  unlessHalted {x y : Check Unit} : Holds (fun _ _ => True) x y →
    Holds (fun _ _ => True) (unlessHalted ctx.opts x) (unlessHalted ctx'.opts y)
  find {id : SymbolId} : Known id → Holds (Symbol.Like Known T)
    (liftM (Arena.find ctx.arena id)) (liftM (Arena.find ctx'.arena id))

end Check

/-- The names that are used stand for known symbols, as far as they stand for any. -/
def AllKnown (Known : SymbolId → Prop) (es : List Event) : Prop :=
  ∀ x, .use x ∈ es → ∀ id ∈ x.symbol, Known id

section AllKnown

variable {es fs : List Event}

@[simp] lemma allKnown_append :
    AllKnown Known (es ++ fs) ↔ AllKnown Known es ∧ AllKnown Known fs := by
  simp [AllKnown, or_imp, forall_and]

@[simp] lemma allKnown_scoped : AllKnown Known (scopedEvents es) ↔ AllKnown Known es := by
  simp [AllKnown, scopedEvents]

lemma allKnown_uses {xs : List Ident} :
    AllKnown Known (xs.map .use) ↔ ∀ x ∈ xs, ∀ id ∈ x.symbol, Known id := by
  simp [AllKnown]

@[simp] lemma allKnown_declare {x : Ident} {kind : SymbolKind} {ty : Ty} :
    AllKnown Known (.declare x kind ty :: es) ↔ AllKnown Known es := by
  simp [AllKnown]

/-- All symbols may be known. -/
lemma allKnown_true : AllKnown (fun _ => True) es := fun _ _ _ _ => trivial

end AllKnown

/-! ### Expressions -/

section Walk

variable {Holds : ∀ {α : Type}, (α → α → Prop) → Check α → Check α → Prop}
  {ctx ctx' : CheckContext} {m : LeafMap}

lemma Check.TypeLaws.accepts (h : TypeLaws T) (op : BinOp) {l l' r r' : Ty} (hl : T l l')
    (hr : T r r') : op.accepts l' r' = op.accepts l r := by
  rw [BinOp.accepts, BinOp.accepts, h.compatible hl hr, h.isNumeric hl, h.isNumeric hr]

lemma Check.TypeLaws.resultType (h : TypeLaws T) (op : BinOp) :
    T op.resultType op.resultType := by
  cases op with
  | arith => exact h.int
  | compare => exact h.bool

lemma Check.Rules.require (R : Rules Holds ctx ctx' Known S T m) {ok ok' : Bool}
    {mismatch mismatch' : Mismatch} (hok : ok' = ok) (h : mismatch.Like S T mismatch') :
    Holds (fun _ _ => True) (require ctx.opts ok mismatch) (require ctx'.opts ok' mismatch') := by
  rw [Check.require, Check.require, hok]
  split
  · exact R.pure trivial
  · exact R.report (.mismatch h)

lemma Ident.holds_variableType (R : Check.Rules Holds ctx ctx' Known S T m) {x : Ident}
    (hx : ∀ id ∈ x.symbol, Known id) :
    Holds T (x.variableType ctx) ((m.used x).variableType ctx') := by
  rw [variableType, variableType, R.leaves.used_symbol]
  cases hid : x.symbol with
  | none => exact R.pure R.types.void
  | some id =>
    refine R.bind (R.find (hx id hid)) fun symbol symbol' hsymbol => ?_
    rw [hsymbol.isFunction]
    split
    · have hreport := R.report (.notAVariable (R.leaves.used_name x))
      exact R.bind hreport fun _ _ _ => R.pure R.types.void
    · exact R.pure (R.types.element hsymbol.ty)

lemma holds_checkArgs (R : Check.Rules Holds ctx ctx' Known S T m) {f f' : String} (hf : S f f')
    {args args' : List (Expr × Ty)} (hargs : ArgsLike S T args args') (position : ℕ)
    {ids : List SymbolId} (hids : ∀ id ∈ ids, Known id) :
    Holds (fun _ _ => True) (checkArgs ctx f position args ids)
      (checkArgs ctx' f' position args' ids) := by
  induction hargs generalizing position ids with
  | nil =>
    rw [checkArgs, checkArgs]
    exact R.pure trivial
  | cons harg _ ih =>
    cases ids with
    | nil => exact R.pure trivial
    | cons id ids =>
      obtain ⟨hid, hids⟩ := List.forall_mem_cons.mp hids
      refine R.bind (R.find hid) fun param param' hparam => ?_
      have hfirst := R.require (R.types.compatible hparam.ty harg.2)
        (.argument position hf ⟨harg.1, harg.2⟩ hparam.ty)
      exact R.bind hfirst fun _ _ _ => ih (position + 1) hids

lemma Ident.holds_callType (R : Check.Rules Holds ctx ctx' Known S T m) {f : Ident}
    (hf : (f.name == printName) = false → ∀ id ∈ f.symbol, Known id)
    {args args' : List (Expr × Ty)} (hargs : ArgsLike S T args args') :
    Holds T (f.callType ctx args) ((m.called f).callType ctx' args') := by
  have hrender := R.leaves.called_render f
  rw [callType, callType, R.leaves.called_print, ← hargs.length_eq]
  cases hprint : f.name == printName with
  | true =>
    refine R.bind (R.require rfl ?_) fun _ _ _ => R.pure R.types.void
    exact .arity 1 args.length hrender
  | false =>
    rw [R.leaves.called_symbol f hprint]
    cases hid : f.symbol with
    | none => exact R.pure R.types.void
    | some id =>
      refine R.bind (R.find (hf hprint id hid)) fun symbol symbol' hsymbol => ?_
      rw [hsymbol.isFunction, hsymbol.params]
      split
      · have hreport := R.report (.notAFunction hrender)
        exact R.bind hreport fun _ _ _ => R.pure R.types.void
      split
      · have hreport := R.report (.mismatch (.arity symbol.params.length args.length hrender))
        exact R.bind hreport fun _ _ _ => R.pure hsymbol.ty
      · have hall := holds_checkArgs R hrender hargs 1 hsymbol.known
        exact R.bind hall fun _ _ _ => R.pure hsymbol.ty

mutual

lemma Expr.holds_infer (R : Check.Rules Holds ctx ctx' Known S T m) : (e : Expr) →
    (∀ x ∈ e.uses, ∀ id ∈ x.symbol, Known id) →
    Holds T (e.infer ctx) ((e.image m).infer ctx')
  | .int _, _ => R.pure R.types.int
  | .bool _, _ => R.pure R.types.bool
  | .name x, h => Ident.holds_variableType R (h x (List.mem_singleton.mpr rfl))
  | .binary op l r, h => by
    obtain ⟨hl, hr⟩ := List.forall_mem_append.mp h
    have hleft := l.holds_infer R hl
    have hright := r.holds_infer R hr
    refine R.bind hleft fun _ _ hl => R.bind hright fun _ _ hr => ?_
    have haccepts := R.require (R.types.accepts op hl hr)
      (op.like_mismatch ⟨R.leaves.render l, hl⟩ ⟨R.leaves.render r, hr⟩)
    exact R.bind haccepts fun _ _ _ => R.pure (R.types.resultType op)
  | .assign x e, h => by
    obtain ⟨hx, he⟩ := List.forall_mem_cons.mp h
    have htarget := Ident.holds_variableType R hx
    have hvalue := e.holds_infer R he
    refine R.bind htarget fun _ _ hx => R.bind hvalue fun _ _ he => ?_
    have hassign := R.require (R.types.compatible hx he)
      (.assign ⟨R.leaves.render e, he⟩ ⟨R.leaves.used_render x, hx⟩)
    exact R.bind hassign fun _ _ _ => R.pure he
  | .call f args, h => by
    obtain ⟨hf, hargs⟩ := List.forall_mem_append.mp h
    have htyped := Expr.holds_inferAll R args hargs
    refine R.bind htyped fun _ _ hargs => Ident.holds_callType R (fun hprint => hf f ?_) hargs
    rw [hprint]
    exact List.mem_singleton.mpr rfl
termination_by structural e => e

lemma Expr.holds_inferAll (R : Check.Rules Holds ctx ctx' Known S T m) : (es : List Expr) →
    (∀ x ∈ Expr.usesAll es, ∀ id ∈ x.symbol, Known id) →
    Holds (ArgsLike S T) (Expr.inferAll ctx es) (Expr.inferAll ctx' (Expr.imageAll m es))
  | [], _ => R.pure .nil
  | e :: rest, h => by
    obtain ⟨he, hrest⟩ := List.forall_mem_append.mp h
    have hfirst := e.holds_infer R he
    have hall := Expr.holds_inferAll R rest hrest
    refine R.bind hfirst fun _ _ he => R.bind hall fun _ _ hrest => ?_
    exact R.pure (.cons ⟨R.leaves.render e, he⟩ hrest)
termination_by structural es => es

end

lemma Expr.holds_check (R : Check.Rules Holds ctx ctx' Known S T m) {e : Expr}
    (h : AllKnown Known e.events) :
    Holds (fun _ _ => True) (e.check ctx) ((e.image m).check ctx') := by
  have htype := e.holds_infer R (allKnown_uses.mp h)
  exact R.bind htype fun _ _ _ => R.pure trivial

lemma Expr.holds_checkOption (R : Check.Rules Holds ctx ctx' Known S T m) {e : Option Expr}
    (h : AllKnown Known (Expr.eventsOption e)) : Holds (fun _ _ => True)
      (Expr.checkOption ctx e) (Expr.checkOption ctx' (e.map (·.image m))) := by
  cases e with
  | none => exact R.pure trivial
  | some e => exact Expr.holds_check R h

lemma Expr.holds_checkInitial (R : Check.Rules Holds ctx ctx' Known S T m) {x x' : Ident}
    (hx : S x.render x'.render) {ty ty' : Ty} (hty : T ty ty') {e : Option Expr}
    (h : AllKnown Known (Expr.eventsOption e)) : Holds (fun _ _ => True)
      (Expr.checkInitial ctx x ty e) (Expr.checkInitial ctx' x' ty' (e.map (·.image m))) := by
  cases e with
  | none => exact R.pure trivial
  | some e =>
    have hvalue := e.holds_infer R (allKnown_uses.mp h)
    refine R.bind hvalue fun _ _ he => ?_
    exact R.require (R.types.compatible (R.types.element hty) he)
      (.assign ⟨R.leaves.render e, he⟩ ⟨hx, hty⟩)

lemma Expr.holds_checkCondition (R : Check.Rules Holds ctx ctx' Known S T m)
    (construct : Construct) {e : Expr} (h : AllKnown Known e.events) : Holds (fun _ _ => True)
      (e.checkCondition ctx construct) ((e.image m).checkCondition ctx' construct) := by
  have htype := e.holds_infer R (allKnown_uses.mp h)
  refine R.bind htype fun _ _ he => ?_
  exact R.require (R.types.isBool he) (.condition construct ⟨R.leaves.render e, he⟩)

lemma holds_checkReturn (R : Check.Rules Holds ctx ctx' Known S T m)
    {enclosing enclosing' : Option Enclosing} (henclosing : EnclosingLike S T enclosing enclosing')
    (value : Option Expr) (h : AllKnown Known (Expr.eventsOption value)) :
    Holds (fun _ _ => True) (checkReturn ctx enclosing value)
      (checkReturn ctx' enclosing' (value.map (·.image m))) := by
  have hnothing : Quoted.Like S T ⟨"nothing", .void⟩ ⟨"nothing", .void⟩ :=
    ⟨R.leaves.nothing, R.types.void⟩
  have hvalue {e : Expr} (h : AllKnown Known e.events) := e.holds_infer R (allKnown_uses.mp h)
  cases henclosing with
  | none =>
    cases value with
    | none => exact R.bind (R.pure hnothing) fun _ _ _ => R.pure trivial
    | some e =>
      refine R.bind (hvalue h) fun _ _ he => ?_
      exact R.bind (E := Quoted.Like S T) (R.pure ⟨R.leaves.render e, he⟩) fun _ _ _ =>
        R.pure trivial
  | @some f f' hf =>
    have hresult (q q' : Quoted) (hq : q.Like S T q') : Holds (fun _ _ => True)
        (Check.require ctx.opts (f.returns.compatible q.ty) (.result f.name q f.returns))
        (Check.require ctx'.opts (f'.returns.compatible q'.ty)
          (.result f'.name q' f'.returns)) := by
      obtain ⟨htext, hty⟩ := hq
      exact R.require (R.types.compatible hf.2 hty) (.result hf.1 ⟨htext, hty⟩ hf.2)
    cases value with
    | none => exact R.bind (R.pure hnothing) hresult
    | some e =>
      refine R.bind (hvalue h) fun _ _ he => ?_
      exact R.bind (E := Quoted.Like S T) (R.pure ⟨R.leaves.render e, he⟩) hresult

/-! ### Statements and declarations -/

lemma Var.holds_check (R : Check.Rules Holds ctx ctx' Known S T m) (kind : SymbolKind) {v : Var}
    (h : AllKnown Known (v.events kind)) :
    Holds (fun _ _ => True) (v.check ctx) ((v.image m).check ctx') := by
  have hname := R.leaves.declared_render v.name
  exact Expr.holds_checkInitial R hname (R.leaves.ty v.ty) (allKnown_append.mp h).1

lemma Param.holds_checkAll (R : Check.Rules Holds ctx ctx' Known S T m) (ps : List Param)
    (h : AllKnown Known (Param.eventsAll ps)) : Holds (fun _ _ => True)
      (Param.checkAll ctx ps) (Param.checkAll ctx' (ps.map (·.image m))) := by
  induction ps with
  | nil => exact R.pure trivial
  | cons p rest ih =>
    simp only [Param.eventsAll, Param.events, allKnown_append] at h
    have hname := R.leaves.declared_render p.name
    have hfirst := Expr.holds_checkInitial R hname (R.leaves.ty p.ty) h.1.1
    exact R.bind hfirst fun _ _ _ => ih h.2

lemma holds_checkReturnType (R : Check.Rules Holds ctx ctx' Known S T m) {x x' : Ident}
    (hx : S x.render x'.render) {returns returns' : Option Ty} (h : Option.Rel T returns returns') :
    Holds T (checkReturnType ctx x returns) (checkReturnType ctx' x' returns') := by
  cases h with
  | none =>
    have hreport := R.report (.missingReturnType hx)
    exact R.bind hreport fun _ _ _ => R.pure R.types.void
  | some h => exact R.pure h

mutual

lemma Stmt.holds_check (R : Check.Rules Holds ctx ctx' Known S T m)
    {enclosing enclosing' : Option Enclosing}
    (henclosing : EnclosingLike S T enclosing enclosing') :
    (st : Stmt) → AllKnown Known st.events →
    Holds (fun _ _ => True) (st.check ctx enclosing) ((st.image m).check ctx' enclosing')
  | .expr e, h => R.unlessHalted (Expr.holds_check R h)
  | .decl d, h => R.unlessHalted (d.holds_check R .localVar h)
  | .ret value, h => R.unlessHalted (holds_checkReturn R henclosing value h)
  | .cond b, h => R.unlessHalted (b.holds_check R henclosing .ifBranch h)
  | .whileLoop c body, h => by
    simp only [Stmt.events, allKnown_scoped, allKnown_append] at h
    have hcondition := Expr.holds_checkCondition R .whileLoop h.1
    have hbody := Stmt.holds_checkAll R henclosing body h.2
    exact R.unlessHalted (R.bind hcondition fun _ _ _ => hbody)
  | .forLoop start c step body, h => by
    simp only [Stmt.events, allKnown_scoped, allKnown_append] at h
    obtain ⟨hstart, hc, hstep, hbody⟩ := h
    have hstart := Decl.holds_checkOption R start hstart
    have hcondition := Expr.holds_checkCondition R .forLoop hc
    have hstep := Expr.holds_checkOption R hstep
    have hbody := Stmt.holds_checkAll R henclosing body hbody
    refine R.unlessHalted (R.bind hstart fun _ _ _ => ?_)
    exact R.bind hcondition fun _ _ _ => R.bind hstep fun _ _ _ => hbody
termination_by structural st => st

lemma Stmt.holds_checkAll (R : Check.Rules Holds ctx ctx' Known S T m)
    {enclosing enclosing' : Option Enclosing}
    (henclosing : EnclosingLike S T enclosing enclosing') :
    (sts : List Stmt) → AllKnown Known (Stmt.eventsAll sts) →
    Holds (fun _ _ => True) (Stmt.checkAll ctx enclosing sts)
      (Stmt.checkAll ctx' enclosing' (Stmt.imageAll m sts))
  | [], _ => R.pure trivial
  | st :: rest, h => by
    simp only [Stmt.eventsAll, allKnown_append] at h
    have hfirst := st.holds_check R henclosing h.1
    have hrest := Stmt.holds_checkAll R henclosing rest h.2
    exact R.bind hfirst fun _ _ _ => hrest
termination_by structural sts => sts

lemma Branch.holds_check (R : Check.Rules Holds ctx ctx' Known S T m)
    {enclosing enclosing' : Option Enclosing}
    (henclosing : EnclosingLike S T enclosing enclosing') :
    (b : Branch) → (construct : Construct) → AllKnown Known b.events →
    Holds (fun _ _ => True) (b.check ctx enclosing construct)
      ((b.image m).check ctx' enclosing' construct)
  | ⟨c, body, tail⟩, construct, h => by
    simp only [Branch.events, allKnown_scoped, allKnown_append] at h
    obtain ⟨⟨hc, hbody⟩, htail⟩ := h
    have hcondition := Expr.holds_checkCondition R construct hc
    have hbody := Stmt.holds_checkAll R henclosing body hbody
    have htail := tail.holds_check R henclosing htail
    exact R.bind hcondition fun _ _ _ => R.bind hbody fun _ _ _ => htail
termination_by structural b => b

lemma Tail.holds_check (R : Check.Rules Holds ctx ctx' Known S T m)
    {enclosing enclosing' : Option Enclosing}
    (henclosing : EnclosingLike S T enclosing enclosing') :
    (tail : Tail) → AllKnown Known tail.events →
    Holds (fun _ _ => True) (tail.check ctx enclosing) ((tail.image m).check ctx' enclosing')
  | .done, _ => R.pure trivial
  | .elseIf next, h => next.holds_check R henclosing .elseIfBranch h
  | .otherwise body, h => by
    rw [Tail.events, allKnown_scoped] at h
    exact Stmt.holds_checkAll R henclosing body h
termination_by structural tail => tail

lemma Decl.holds_check (R : Check.Rules Holds ctx ctx' Known S T m) : (d : Decl) →
    (kind : SymbolKind) → AllKnown Known (d.events kind) →
    Holds (fun _ _ => True) (d.check ctx) ((d.image m).check ctx')
  | .globalVar _, kind, h | .localVar _, kind, h => by
    have hvar := Var.holds_check R kind h
    exact R.unlessHalted hvar
  | .function f, _, h => by
    have hfunction := f.holds_check R h
    exact R.unlessHalted hfunction
termination_by structural d => d

lemma Decl.holds_checkOption (R : Check.Rules Holds ctx ctx' Known S T m) : (d : Option Decl) →
    AllKnown Known (Decl.eventsOption d) → Holds (fun _ _ => True) (Decl.checkOption ctx d)
      (Decl.checkOption ctx' (Decl.imageOption m d))
  | none, _ => R.pure trivial
  | some d, h => d.holds_check R .localVar h
termination_by structural d => d

lemma FunDecl.holds_check (R : Check.Rules Holds ctx ctx' Known S T m) : (f : FunDecl) →
    AllKnown Known f.events → Holds (fun _ _ => True) (f.check ctx) ((f.image m).check ctx')
  | ⟨name, params, returns, body, _, _⟩, h => by
    simp only [FunDecl.events, allKnown_declare, allKnown_append, allKnown_scoped] at h
    obtain ⟨⟨hparams, hbody⟩, -⟩ := h
    have hname := R.leaves.declared_render name
    have hrel : Option.Rel T returns (returns.map m.ty) := by
      cases returns with
      | none => exact .none
      | some ty => exact .some (R.leaves.ty ty)
    have hreturns := holds_checkReturnType R hname hrel
    have hparams := Param.holds_checkAll R params hparams
    refine R.bind hreturns fun _ _ ht => R.bind hparams fun _ _ _ => ?_
    exact Stmt.holds_checkAll R (.some ⟨hname, ht⟩) body hbody
termination_by structural f => f

end

/-- **Related checks**: a relation that follows the rules holds of the checks of a program and of
its image. -/
lemma Program.holds_check (R : Check.Rules Holds ctx ctx' Known S T m) (p : Program)
    (h : AllKnown Known p.events) :
    Holds (fun _ _ => True) (p.check ctx) ((p.image m).check ctx') := by
  induction p with
  | nil => exact R.pure trivial
  | cons d rest ih =>
    obtain ⟨hd, hrest⟩ := allKnown_append.mp h
    exact R.bind (d.holds_check R .globalVar hd) fun _ _ _ => ih hrest

end Walk

end TreeCompiler

import Mathlib.Data.Option.Defs
import TreeCompiler.Proofs.NameIndependence

/-!
Compatible types are interchangeable.

Compatibility is an equivalence: numbers are alike whatever their width, and any other type is like
those with the same element type. Checking asks three questions about types: whether two of them are
compatible, whether one is a number, and whether one is `bool`. Compatible types give the same
answers, and if the symbols get compatible types, then so do all expressions, also those at fault.
So a program and a copy of it, in which each type may be any compatible one, are checked with the
same reports, but for the types that these quote.
-/

namespace TreeCompiler

/-! ### An equivalence -/

namespace Ty

variable {t t' u u' v : Ty}

/-- A value of the one may stand for a value of the other. -/
abbrev Alike (t u : Ty) : Prop := t.compatible u = true

lemma compatible_iff : t.compatible u = true ↔
    t.isNumeric = true ∧ u.isNumeric = true ∨ t.elem = u.elem := by
  simp [compatible]

lemma isNumeric_eq_of_compatible (h : t.compatible u = true) : u.isNumeric = t.isNumeric := by
  rcases compatible_iff.mp h with ⟨ht, hu⟩ | helem
  · rw [ht, hu]
  · rw [isNumeric, isNumeric, helem]

lemma isBool_of_isNumeric (h : t.isNumeric = true) : t.isBool = false := by
  obtain ⟨elem, shape⟩ := t
  rcases elem with p | x
  · cases p <;> first | rfl | exact nomatch h
  · exact nomatch h

lemma isBool_eq_of_compatible (h : t.compatible u = true) : u.isBool = t.isBool := by
  rcases compatible_iff.mp h with ⟨ht, hu⟩ | helem
  · rw [isBool_of_isNumeric ht, isBool_of_isNumeric hu]
  · rw [isBool, isBool, helem]

lemma compatible_trans (h : t.compatible u = true) (h' : u.compatible v = true) :
    t.compatible v = true := by
  rcases compatible_iff.mp h' with ⟨hu, hv⟩ | helem
  · exact compatible_iff.mpr (.inl ⟨isNumeric_eq_of_compatible h ▸ hu, hv⟩)
  · rw [compatible, isNumeric_eq_of_compatible h', ← helem]
    exact h

/-- **Compatibility** sorts the types into classes. -/
lemma compatible_equivalence : Equivalence fun t u : Ty => t.compatible u = true where
  refl := compatible_self
  symm {t u} h := compatible_comm t u ▸ h
  trans := compatible_trans

/-- Compatible types are compatible with the same types. -/
lemma compatible_congr (ht : t.compatible t' = true) (hu : u.compatible u' = true) :
    t'.compatible u' = t.compatible u := by
  rw [Bool.eq_iff_iff]
  constructor
  · intro h
    exact compatible_trans ht (compatible_trans h (compatible_equivalence.symm hu))
  · intro h
    exact compatible_trans (compatible_equivalence.symm ht) (compatible_trans h hu)

end Ty

/-! ### Copies with compatible types -/

/-- The same symbol with a compatible type. -/
structure Symbol.Retyped (symbol symbol' : Symbol) : Prop where
  eq : symbol' = { symbol with ty := symbol'.ty }
  compatible : symbol.ty.compatible symbol'.ty = true

/-- The same symbols, each with a compatible type. -/
def Arena.Retyped (arena arena' : Arena) : Prop :=
  ∀ id : SymbolId, Option.Rel Symbol.Retyped arena[id]? arena'[id]?

structure Var.Retyped (v v' : Var) : Prop where
  eq : v' = { v with ty := v'.ty }
  compatible : v.ty.compatible v'.ty = true

structure Param.Retyped (p p' : Param) : Prop where
  eq : p' = { p with ty := p'.ty }
  compatible : p.ty.compatible p'.ty = true

mutual

/-- The same statement, where each declared variable, parameter and result has a compatible type. -/
inductive Stmt.Retyped : Stmt → Stmt → Prop
  | expr (e : Expr) : Stmt.Retyped (.expr e) (.expr e)
  | decl {d d' : Decl} (h : Decl.Retyped d d') : Stmt.Retyped (.decl d) (.decl d')
  | ret (value : Option Expr) : Stmt.Retyped (.ret value) (.ret value)
  | cond {b b' : Branch} (h : Branch.Retyped b b') : Stmt.Retyped (.cond b) (.cond b')
  | whileLoop (c : Expr) {body body' : List Stmt} (h : Stmt.RetypedAll body body') :
      Stmt.Retyped (.whileLoop c body) (.whileLoop c body')
  | forLoop {start start' : Option Decl} (c : Expr) (step : Option Expr) {body body' : List Stmt}
      (hstart : Decl.RetypedOption start start') (h : Stmt.RetypedAll body body') :
      Stmt.Retyped (.forLoop start c step body) (.forLoop start' c step body')

inductive Stmt.RetypedAll : List Stmt → List Stmt → Prop
  | nil : Stmt.RetypedAll [] []
  | cons {st st' : Stmt} {rest rest' : List Stmt} (h : Stmt.Retyped st st')
      (hrest : Stmt.RetypedAll rest rest') : Stmt.RetypedAll (st :: rest) (st' :: rest')

inductive Branch.Retyped : Branch → Branch → Prop
  | mk (c : Expr) {body body' : List Stmt} {tail tail' : Tail} (h : Stmt.RetypedAll body body')
      (htail : Tail.Retyped tail tail') : Branch.Retyped ⟨c, body, tail⟩ ⟨c, body', tail'⟩

inductive Tail.Retyped : Tail → Tail → Prop
  | done : Tail.Retyped .done .done
  | elseIf {next next' : Branch} (h : Branch.Retyped next next') :
      Tail.Retyped (.elseIf next) (.elseIf next')
  | otherwise {body body' : List Stmt} (h : Stmt.RetypedAll body body') :
      Tail.Retyped (.otherwise body) (.otherwise body')

inductive Decl.Retyped : Decl → Decl → Prop
  | globalVar {v v' : Var} (h : v.Retyped v') : Decl.Retyped (.globalVar v) (.globalVar v')
  | localVar {v v' : Var} (h : v.Retyped v') : Decl.Retyped (.localVar v) (.localVar v')
  | function {f f' : FunDecl} (h : FunDecl.Retyped f f') :
      Decl.Retyped (.function f) (.function f')

inductive Decl.RetypedOption : Option Decl → Option Decl → Prop
  | none : Decl.RetypedOption none none
  | some {d d' : Decl} (h : Decl.Retyped d d') : Decl.RetypedOption (some d) (some d')

inductive FunDecl.Retyped : FunDecl → FunDecl → Prop
  | mk (name : Ident) {params params' : List Param} {returns returns' : Option Ty}
      {body body' : List Stmt} (variableSize parameterSize : ℕ)
      (hparams : List.Forall₂ Param.Retyped params params')
      (hreturns : Option.Rel Ty.Alike returns returns')
      (hbody : Stmt.RetypedAll body body') :
      FunDecl.Retyped ⟨name, params, returns, body, variableSize, parameterSize⟩
        ⟨name, params', returns', body', variableSize, parameterSize⟩

end

/-- The same program, in which the type at each place is a compatible one. -/
def Program.Retyped (p p' : Program) : Prop := List.Forall₂ Decl.Retyped p p'

/-- The same options, and the same symbols with compatible types. The rest of the session, which
checking does not look at, may be anything. -/
structure Session.Retyped (s s' : Session) : Prop where
  options : s'.options = s.options
  arena : Arena.Retyped s.arena s'.arena

/-! ### Two checks side by side -/

lemma Ty.typeLaws_compatible : Check.TypeLaws Ty.Alike where
  void := rfl
  int := rfl
  bool := rfl
  element h := h
  isNumeric := isNumeric_eq_of_compatible
  isBool := isBool_eq_of_compatible
  compatible := compatible_congr

/-- The same names are quoted on both sides, with compatible types. -/
abbrev Check.RulesRetyped (opts : Options) (arena arena' : Arena) : Prop :=
  Rules (fun E x y => Couples E x y) ⟨opts, arena⟩ ⟨opts, arena'⟩ (fun _ => True) Eq Ty.Alike {}

section Checks

variable {opts : Options} {arena arena' : Arena}

lemma Arena.Retyped.exists_find (harena : Arena.Retyped arena arena') {id : SymbolId}
    {symbol : Symbol} (h : arena.find id = .ok symbol) :
    ∃ symbol', arena'.find id = .ok symbol' ∧ symbol.Retyped symbol' := by
  have hid := harena id
  rw [Arena.find_eq_ok_iff.mp h] at hid
  generalize hsymbol' : arena'[id]? = found' at hid
  cases hid with
  | some hsymbol => exact ⟨_, Arena.find_eq_ok_iff.mpr hsymbol', hsymbol⟩

lemma Symbol.Retyped.like {symbol symbol' : Symbol} (h : symbol.Retyped symbol') :
    symbol.Like (fun _ => True) Ty.Alike symbol' where
  isFunction := by
    rw [h.eq]
    rfl
  params := by rw [h.eq]
  ty := h.compatible
  known _ _ := trivial

/-- With compatible types for the symbols an expression gets compatible types, whatever was reported
on the way, and so all that is asked of it gets the same answers. -/
lemma Arena.Retyped.rules (harena : Arena.Retyped arena arena') :
    Check.RulesRetyped opts arena arena' := by
  have hleaves : Check.LeafLaws Eq Ty.Alike {} := .refl (fun _ => rfl) Ty.compatible_self
  refine .couples Ty.typeLaws_compatible hleaves fun id symbol hid => ?_
  obtain ⟨symbol', hid', hsymbol⟩ := harena.exists_find hid
  exact ⟨symbol', hid', hsymbol.like⟩

/-! ### Copies of programs -/

lemma Expr.couples_check (R : Check.RulesRetyped opts arena arena') (e : Expr) :
    Check.Couples (fun _ _ => True) (e.check ⟨opts, arena⟩) (e.check ⟨opts, arena'⟩) := by
  have hcheck := Expr.holds_check R (e := e) allKnown_true
  rwa [e.image_id] at hcheck

lemma Expr.couples_checkOption (R : Check.RulesRetyped opts arena arena') (e : Option Expr) :
    Check.Couples (fun _ _ => True) (Expr.checkOption ⟨opts, arena⟩ e)
      (Expr.checkOption ⟨opts, arena'⟩ e) := by
  have hcheck := Expr.holds_checkOption R (e := e) allKnown_true
  rwa [Expr.imageOption_id] at hcheck

lemma Expr.couples_checkInitial (R : Check.RulesRetyped opts arena arena') (x : Ident)
    {ty ty' : Ty} (hty : ty.compatible ty' = true) (e : Option Expr) :
    Check.Couples (fun _ _ => True) (Expr.checkInitial ⟨opts, arena⟩ x ty e)
      (Expr.checkInitial ⟨opts, arena'⟩ x ty' e) := by
  have hcheck := Expr.holds_checkInitial R (x := x) rfl hty (e := e) allKnown_true
  rwa [Expr.imageOption_id] at hcheck

lemma Expr.couples_checkCondition (R : Check.RulesRetyped opts arena arena')
    (construct : Construct) (e : Expr) : Check.Couples (fun _ _ => True)
      (e.checkCondition ⟨opts, arena⟩ construct) (e.checkCondition ⟨opts, arena'⟩ construct) := by
  have hcheck := Expr.holds_checkCondition R construct (e := e) allKnown_true
  rwa [e.image_id] at hcheck

lemma couples_checkReturn (R : Check.RulesRetyped opts arena arena')
    {enclosing enclosing' : Option Enclosing}
    (henclosing : EnclosingLike Eq Ty.Alike enclosing enclosing') (value : Option Expr) :
    Check.Couples (fun _ _ => True) (checkReturn ⟨opts, arena⟩ enclosing value)
      (checkReturn ⟨opts, arena'⟩ enclosing' value) := by
  have hcheck := holds_checkReturn R henclosing value allKnown_true
  rwa [Expr.imageOption_id] at hcheck

lemma Var.Retyped.couples_check (R : Check.RulesRetyped opts arena arena') {v v' : Var}
    (h : v.Retyped v') :
    Check.Couples (fun _ _ => True) (v.check ⟨opts, arena⟩) (v'.check ⟨opts, arena'⟩) := by
  have hname : v'.name = v.name := by rw [h.eq]
  have hvalue : v'.value = v.value := by rw [h.eq]
  rw [Var.check, Var.check, hname, hvalue]
  exact Expr.couples_checkInitial R v.name h.compatible v.value

lemma Param.couples_checkAll (R : Check.RulesRetyped opts arena arena') {ps ps' : List Param}
    (h : List.Forall₂ Param.Retyped ps ps') : Check.Couples (fun _ _ => True)
      (Param.checkAll ⟨opts, arena⟩ ps) (Param.checkAll ⟨opts, arena'⟩ ps') := by
  induction h with
  | nil => exact .pure trivial
  | @cons p p' _ _ h _ ih =>
    have hname : p'.name = p.name := by rw [h.eq]
    have hfallback : p'.fallback = p.fallback := by rw [h.eq]
    have hfirst := Expr.couples_checkInitial R p.name h.compatible p.fallback
    rw [Param.checkAll, Param.checkAll, hname, hfallback]
    exact hfirst.bind fun _ _ _ => ih

mutual

lemma Stmt.Retyped.couples_check (R : Check.RulesRetyped opts arena arena')
    {enclosing enclosing' : Option Enclosing}
    (henclosing : EnclosingLike Eq Ty.Alike enclosing enclosing') {st st' : Stmt} :
    Stmt.Retyped st st' → Check.Couples (fun _ _ => True)
      (st.check ⟨opts, arena⟩ enclosing) (st'.check ⟨opts, arena'⟩ enclosing')
  | .expr e => .unlessHalted (e.couples_check R)
  | .decl h => .unlessHalted (h.couples_check R)
  | .ret value => .unlessHalted (couples_checkReturn R henclosing value)
  | .cond h => .unlessHalted (h.couples_check R henclosing .ifBranch)
  | .whileLoop c h => by
    have hcondition := c.couples_checkCondition R .whileLoop
    have hbody := h.couples_check R henclosing
    exact .unlessHalted (hcondition.bind fun _ _ _ => hbody)
  | .forLoop c step hstart h => by
    have hstart := hstart.couples_check R
    have hcondition := c.couples_checkCondition R .forLoop
    have hstep := Expr.couples_checkOption R step
    have hbody := h.couples_check R henclosing
    refine .unlessHalted (hstart.bind fun _ _ _ => ?_)
    exact hcondition.bind fun _ _ _ => hstep.bind fun _ _ _ => hbody
termination_by structural h => h

lemma Stmt.RetypedAll.couples_check (R : Check.RulesRetyped opts arena arena')
    {enclosing enclosing' : Option Enclosing}
    (henclosing : EnclosingLike Eq Ty.Alike enclosing enclosing') {sts sts' : List Stmt} :
    Stmt.RetypedAll sts sts' → Check.Couples (fun _ _ => True)
      (Stmt.checkAll ⟨opts, arena⟩ enclosing sts) (Stmt.checkAll ⟨opts, arena'⟩ enclosing' sts')
  | .nil => .pure trivial
  | .cons h hrest => by
    have hfirst := h.couples_check R henclosing
    have hall := hrest.couples_check R henclosing
    exact hfirst.bind fun _ _ _ => hall
termination_by structural h => h

lemma Branch.Retyped.couples_check (R : Check.RulesRetyped opts arena arena')
    {enclosing enclosing' : Option Enclosing}
    (henclosing : EnclosingLike Eq Ty.Alike enclosing enclosing') {b b' : Branch}
    (construct : Construct) : Branch.Retyped b b' → Check.Couples (fun _ _ => True)
      (b.check ⟨opts, arena⟩ enclosing construct) (b'.check ⟨opts, arena'⟩ enclosing' construct)
  | .mk c h htail => by
    have hcondition := c.couples_checkCondition R construct
    have hbody := h.couples_check R henclosing
    have hrest := htail.couples_check R henclosing
    exact hcondition.bind fun _ _ _ => hbody.bind fun _ _ _ => hrest
termination_by structural h => h

lemma Tail.Retyped.couples_check (R : Check.RulesRetyped opts arena arena')
    {enclosing enclosing' : Option Enclosing}
    (henclosing : EnclosingLike Eq Ty.Alike enclosing enclosing') {tail tail' : Tail} :
    Tail.Retyped tail tail' → Check.Couples (fun _ _ => True)
      (tail.check ⟨opts, arena⟩ enclosing) (tail'.check ⟨opts, arena'⟩ enclosing')
  | .done => .pure trivial
  | .elseIf h => h.couples_check R henclosing .elseIfBranch
  | .otherwise h => h.couples_check R henclosing
termination_by structural h => h

lemma Decl.Retyped.couples_check (R : Check.RulesRetyped opts arena arena') {d d' : Decl} :
    Decl.Retyped d d' →
      Check.Couples (fun _ _ => True) (d.check ⟨opts, arena⟩) (d'.check ⟨opts, arena'⟩)
  | .globalVar h | .localVar h => .unlessHalted (h.couples_check R)
  | .function h => .unlessHalted (h.couples_check R)
termination_by structural h => h

lemma Decl.RetypedOption.couples_check (R : Check.RulesRetyped opts arena arena')
    {d d' : Option Decl} : Decl.RetypedOption d d' → Check.Couples (fun _ _ => True)
      (Decl.checkOption ⟨opts, arena⟩ d) (Decl.checkOption ⟨opts, arena'⟩ d')
  | .none => .pure trivial
  | .some h => h.couples_check R
termination_by structural h => h

lemma FunDecl.Retyped.couples_check (R : Check.RulesRetyped opts arena arena') {f f' : FunDecl} :
    FunDecl.Retyped f f' →
      Check.Couples (fun _ _ => True) (f.check ⟨opts, arena⟩) (f'.check ⟨opts, arena'⟩)
  | .mk name _ _ hparams hreturns hbody => by
    have hresult := holds_checkReturnType R (x := name) rfl hreturns
    have hfallbacks := Param.couples_checkAll R hparams
    refine hresult.bind fun t t' ht => hfallbacks.bind fun _ _ _ => ?_
    have hinside : EnclosingLike Eq Ty.Alike (some ⟨name.render, t⟩) (some ⟨name.render, t'⟩) :=
      .some ⟨rfl, ht⟩
    exact hbody.couples_check R hinside
termination_by structural h => h

end

/-- **Programs**: a program and its copy are checked side by side. -/
lemma Program.Retyped.couples_check (R : Check.RulesRetyped opts arena arena') {p p' : Program}
    (h : p.Retyped p') :
    Check.Couples (fun _ _ => True) (p.check ⟨opts, arena⟩) (p'.check ⟨opts, arena'⟩) := by
  induction h with
  | nil => exact .pure trivial
  | cons h _ ih => exact (h.couples_check R).bind fun _ _ _ => ih

end Checks

/-- **Compatible types**: compatibility is an equivalence, and checking respects it. Let every
symbol, and every variable, parameter and result that a program declares, get some compatible type.
If the check of the program meets no missing symbol, then neither does that of the copy, and it has
as many reports, of the same kinds and in the same order. So the one is accepted exactly if the
other is. -/
theorem Session.check_retyped :
    (Equivalence fun t u : Ty => t.compatible u = true) ∧
    ∀ {s s' : Session} {p p' : Program} {errors : List Diagnostic}, s.Retyped s' → p.Retyped p' →
      s.check p = .ok errors →
      ∃ errors', s'.check p' = .ok errors' ∧ errors'.length = errors.length ∧
        SameKinds errors errors' ∧ (errors' = [] ↔ errors = []) := by
  refine ⟨Ty.compatible_equivalence, fun {s s' p p' errors} hs hp h => ?_⟩
  obtain ⟨⟨_, es⟩, hrun, hes⟩ := bind_eq_ok.mp h
  obtain rfl : es = errors := Except.ok.inj hes
  have hstart : SameKinds [] [] := rfl
  obtain ⟨_, errors', hrun', -, hkinds⟩ :=
    (hp.couples_check hs.arena.rules).step hstart hrun trivial
  refine ⟨errors', ?_, hkinds.length_eq, hkinds, hkinds.eq_nil_iff⟩
  rw [check, hs.options]
  exact bind_eq_ok.mpr ⟨_, hrun', rfl⟩

/-- A function that takes its parameter for a condition and returns a truth value, and the symbols
of both, with the types left open. -/
def confusedFunction (ty result : Ty) : FunDecl where
  name := ⟨"f", 0, some 0⟩
  params := [⟨⟨"a", 0, some 1⟩, ty, none⟩]
  returns := some result
  body := [.whileLoop (.name ⟨"a", 0, some 1⟩) [], .ret (some (.bool true))]

def confusedSession (ty result : Ty) : Session where
  options := { keepGoing := true }
  arena := #[⟨"f", .function, result, 0, 0, [1]⟩, ⟨"a", .param, ty, 3, 0, []⟩]

/-- Numbers of any width and shape will do as well. -/
theorem Session.check_retyped_confused :
    (confusedSession ⟨.prim .int8, .array [3]⟩ ⟨.prim .int16, .plain⟩).check
        [.function (confusedFunction ⟨.prim .int8, .array [3]⟩ ⟨.prim .int16, .plain⟩)] =
      .ok [.mismatch (.condition .whileLoop ⟨"a", ⟨.prim .int8, .plain⟩⟩),
        .mismatch (.result "f" ⟨"true", .bool⟩ ⟨.prim .int16, .plain⟩)] ∧
    ∃ errors', (confusedSession ⟨.prim .int32, .pointer⟩ .int).check
        [.function (confusedFunction .int ⟨.prim .int64, .array [7]⟩)] = .ok errors' ∧
      errors'.length = 2 ∧
      SameKinds [.mismatch (.condition .whileLoop ⟨"", .void⟩),
        .mismatch (.result "" ⟨"", .void⟩ .void)] errors' := by
  have hsession : (confusedSession ⟨.prim .int8, .array [3]⟩ ⟨.prim .int16, .plain⟩).Retyped
      (confusedSession ⟨.prim .int32, .pointer⟩ .int) := by
    refine ⟨rfl, fun id => ?_⟩
    match id with
    | 0 => exact .some ⟨rfl, rfl⟩
    | 1 => exact .some ⟨rfl, rfl⟩
    | _ + 2 => exact .none
  have hfunction : FunDecl.Retyped
      (confusedFunction ⟨.prim .int8, .array [3]⟩ ⟨.prim .int16, .plain⟩)
      (confusedFunction .int ⟨.prim .int64, .array [7]⟩) :=
    .mk _ _ _ (.cons ⟨rfl, rfl⟩ .nil) (.some rfl)
      (.cons (.whileLoop _ .nil) (.cons (.ret _) .nil))
  have hcheck : (confusedSession ⟨.prim .int8, .array [3]⟩ ⟨.prim .int16, .plain⟩).check
      [.function (confusedFunction ⟨.prim .int8, .array [3]⟩ ⟨.prim .int16, .plain⟩)] =
      .ok [.mismatch (.condition .whileLoop ⟨"a", ⟨.prim .int8, .plain⟩⟩),
        .mismatch (.result "f" ⟨"true", .bool⟩ ⟨.prim .int16, .plain⟩)] := rfl
  obtain ⟨errors', hcheck', hlength, hkinds, -⟩ :=
    Session.check_retyped.2 hsession (.cons (.function hfunction) .nil) hcheck
  exact ⟨hcheck, errors', hcheck', hlength, hkinds⟩

end TreeCompiler

import TreeCompiler.Analysis.Resolution
import TreeCompiler.Proofs.LeafMaps

/-!
Rules for two walks of name resolution.

Name resolution goes through a tree and through an image of it in the same steps. So a relation
between walks that holds of the steps, and that is kept when one step follows another, holds of the
walks through the whole trees. The tree is followed here once, for all such relations: for one that
is about a single walk too, which then says nothing about the other.
-/

namespace TreeCompiler

/-- What a call does with the name of its function: the built-in that prints is not looked up. -/
def Ident.resolveCalled (opts : Options) (f : Ident) : Resolve Ident :=
  if f.name == printName then pure f else f.resolve opts

lemma Expr.resolve_call (opts : Options) (f : Ident) (args : List Expr) :
    (Expr.call f args).resolve opts = Resolve.unlessHalted opts (.call f args) (do
      let f ← f.resolveCalled opts
      let args ← Expr.resolveAll opts args
      return .call f args) := by
  rw [Expr.resolve, Ident.resolveCalled]
  split <;> rfl

/-- What a function resolves in a scope of its own: its parameters, and then its body. -/
def FunDecl.resolveInside (opts : Options) (params : List Param) (body : List Stmt) :
    Resolve (List Param × List SymbolId × List Stmt) := do
  let (params, ids) ← Param.resolveAll opts params
  let body ← Stmt.resolveAll opts body
  return (params, ids, body)

namespace Resolve

/-- What is asked of a relation between walks so that it holds of the walks through an expression
and through its image under `m`. Here `Holds E x y` is to say that `x` and `y` are related, and
their results by `E`. What the walks make of the two trees is compared by its images under `κ` and
under `κ'`. -/
structure ExprRules (Holds : ∀ {α : Type}, (α → α → Prop) → Resolve α → Resolve α → Prop)
    (opts opts' : Options) (m κ κ' : LeafMap) : Prop where
  pure {α : Type} {E : α → α → Prop} {a b : α} : E a b → Holds E (Pure.pure a) (Pure.pure b)
  /-- No step depends on what an earlier one has made of its part of the tree. -/
  bind {α β : Type} {E : α → α → Prop} {E' : β → β → Prop} {x y : Resolve α}
    {f g : α → Resolve β} : Holds E x y →
    (∀ a b, Holds (fun c d => E a b → E' c d) (f a) (g b)) → Holds E' (x >>= f) (y >>= g)
  /-- Parts that are left as they are need not be related, unless they are by the maps alone. -/
  unlessHalted {α : Type} {E : α → α → Prop} {a b : α} {x y : Resolve α} : Holds E x y →
    (κ = m → κ' = {} → E a b) → Holds E (unlessHalted opts a x) (unlessHalted opts' b y)
  used (x : Ident) : Holds (fun a b => κ.used a = κ'.used b) (x.resolve opts)
    ((m.used x).resolve opts')
  called (f : Ident) : Holds (fun a b => κ.called a = κ'.called b) (f.resolveCalled opts)
    ((m.called f).resolveCalled opts')

/-- The same for whole programs. What declares a name has rules of its own, since relations differ
in what they say about the symbols. -/
structure Rules (Holds : ∀ {α : Type}, (α → α → Prop) → Resolve α → Resolve α → Prop)
    (opts opts' : Options) (m κ κ' : LeafMap) : Prop
    extends ExprRules Holds opts opts' m κ κ' where
  inScope {α : Type} {E : α → α → Prop} {x y : Resolve α} : Holds E x y →
    Holds E (inScope x) (inScope y)
  var (v : Var) : Holds (fun a b => a.image κ = b.image κ') (v.resolve opts)
    ((v.image m).resolve opts')
  function (f : FunDecl) : Holds (fun a b => Stmt.imageAll κ a = Stmt.imageAll κ' b)
      (Stmt.resolveAll opts f.body) (Stmt.resolveAll opts' (Stmt.imageAll m f.body)) →
    Holds (fun a b => a.image κ = b.image κ') (f.resolve opts) ((f.image m).resolve opts')

end Resolve

variable {Holds : ∀ {α : Type}, (α → α → Prop) → Resolve α → Resolve α → Prop}
  {opts opts' : Options} {m κ κ' : LeafMap}

/-! ### Parts that are left as they are -/

lemma Expr.image_of_halted (e : Expr) (h : κ = m) (h' : κ' = {}) :
    e.image κ = (e.image m).image κ' := by
  rw [h, h', Expr.image_id]

lemma Stmt.image_of_halted (st : Stmt) (h : κ = m) (h' : κ' = {}) :
    st.image κ = (st.image m).image κ' := by
  rw [h, h', Stmt.image_id]

lemma Decl.image_of_halted (d : Decl) (h : κ = m) (h' : κ' = {}) :
    d.image κ = (d.image m).image κ' := by
  rw [h, h', Decl.image_id]

/-! ### Expressions -/

mutual

lemma Expr.holds_resolve (R : Resolve.ExprRules Holds opts opts' m κ κ') : (e : Expr) →
    Holds (fun a b => a.image κ = b.image κ') (e.resolve opts) ((e.image m).resolve opts')
  | .int v => R.pure rfl
  | .bool b => R.pure rfl
  | .name x => by
    refine R.unlessHalted ?_ (Expr.image_of_halted (.name x))
    refine R.bind (R.used x) fun y y' => R.pure fun hy => ?_
    rw [Expr.image, Expr.image, hy]
  | .binary op l r => by
    have hleft := l.holds_resolve R
    have hright := r.holds_resolve R
    refine R.unlessHalted ?_ (Expr.image_of_halted (.binary op l r))
    refine R.bind hleft fun _ _ => R.bind hright fun _ _ => R.pure fun hr hl => ?_
    rw [Expr.image, Expr.image, hl, hr]
  | .assign x e => by
    have hvalue := e.holds_resolve R
    refine R.unlessHalted ?_ (Expr.image_of_halted (.assign x e))
    refine R.bind (R.used x) fun _ _ => R.bind hvalue fun _ _ => R.pure fun he hx => ?_
    rw [Expr.image, Expr.image, hx, he]
  | .call f args => by
    have hargs := Expr.holds_resolveAll R args
    rw [Expr.image, Expr.resolve_call, Expr.resolve_call]
    refine R.unlessHalted ?_ (Expr.image_of_halted (.call f args))
    refine R.bind (R.called f) fun _ _ => R.bind hargs fun _ _ => R.pure fun hargs hf => ?_
    rw [Expr.image, Expr.image, hf, hargs]
termination_by structural e => e

lemma Expr.holds_resolveAll (R : Resolve.ExprRules Holds opts opts' m κ κ') : (es : List Expr) →
    Holds (fun a b => Expr.imageAll κ a = Expr.imageAll κ' b) (Expr.resolveAll opts es)
      (Expr.resolveAll opts' (Expr.imageAll m es))
  | [] => R.pure rfl
  | e :: rest => by
    have hfirst := e.holds_resolve R
    have hrest := Expr.holds_resolveAll R rest
    refine R.bind hfirst fun _ _ => R.bind hrest fun _ _ => R.pure fun hrest he => ?_
    rw [Expr.imageAll, Expr.imageAll, he, hrest]
termination_by structural es => es

end

lemma Expr.holds_resolveOption (R : Resolve.ExprRules Holds opts opts' m κ κ')
    (e : Option Expr) : Holds (fun a b => a.map (·.image κ) = b.map (·.image κ'))
      (Expr.resolveOption opts e) (Expr.resolveOption opts' (e.map (·.image m))) := by
  cases e with
  | none => exact R.pure rfl
  | some e =>
    refine R.bind (e.holds_resolve R) fun _ _ => R.pure fun he => ?_
    rw [Option.map_some, Option.map_some, he]

/-! ### Statements and declarations -/

mutual

lemma Stmt.holds_resolve (R : Resolve.Rules Holds opts opts' m κ κ') : (st : Stmt) →
    Holds (fun a b => a.image κ = b.image κ') (st.resolve opts) ((st.image m).resolve opts')
  | .expr e => by
    have hexpr := e.holds_resolve R.toExprRules
    refine R.unlessHalted ?_ (Stmt.image_of_halted (.expr e))
    refine R.bind hexpr fun _ _ => R.pure fun he => ?_
    rw [Stmt.image, Stmt.image, he]
  | .decl d => by
    have hdecl := d.holds_resolve R
    refine R.unlessHalted ?_ (Stmt.image_of_halted (.decl d))
    refine R.bind hdecl fun _ _ => R.pure fun hd => ?_
    rw [Stmt.image, Stmt.image, hd]
  | .ret value => by
    have hvalue := Expr.holds_resolveOption R.toExprRules value
    refine R.unlessHalted ?_ (Stmt.image_of_halted (.ret value))
    refine R.bind hvalue fun _ _ => R.pure fun hvalue => ?_
    rw [Stmt.image, Stmt.image, hvalue]
  | .cond b => by
    have hbranch := b.holds_resolve R
    refine R.unlessHalted ?_ (Stmt.image_of_halted (.cond b))
    refine R.bind hbranch fun _ _ => R.pure fun hb => ?_
    rw [Stmt.image, Stmt.image, hb]
  | .whileLoop c body => by
    have hcondition := c.holds_resolve R.toExprRules
    have hbody := Stmt.holds_resolveAll R body
    refine R.unlessHalted (R.inScope ?_) (Stmt.image_of_halted (.whileLoop c body))
    refine R.bind hcondition fun _ _ => R.bind hbody fun _ _ => R.pure fun hbody hc => ?_
    rw [Stmt.image, Stmt.image, hc, hbody]
  | .forLoop start c step body => by
    have hstart := Decl.holds_resolveOption R start
    have hcondition := c.holds_resolve R.toExprRules
    have hstep := Expr.holds_resolveOption R.toExprRules step
    have hbody := R.inScope (Stmt.holds_resolveAll R body)
    refine R.unlessHalted (R.inScope ?_) (Stmt.image_of_halted (.forLoop start c step body))
    refine R.bind hstart fun _ _ => R.bind hcondition fun _ _ => R.bind hstep fun _ _ =>
      R.bind hbody fun _ _ => R.pure fun hbody hstep hc hstart => ?_
    rw [Stmt.image, Stmt.image, hstart, hc, hstep, hbody]
termination_by structural st => st

lemma Stmt.holds_resolveAll (R : Resolve.Rules Holds opts opts' m κ κ') : (sts : List Stmt) →
    Holds (fun a b => Stmt.imageAll κ a = Stmt.imageAll κ' b) (Stmt.resolveAll opts sts)
      (Stmt.resolveAll opts' (Stmt.imageAll m sts))
  | [] => R.pure rfl
  | st :: rest => by
    have hfirst := st.holds_resolve R
    have hrest := Stmt.holds_resolveAll R rest
    refine R.bind hfirst fun _ _ => R.bind hrest fun _ _ => R.pure fun hrest hst => ?_
    rw [Stmt.imageAll, Stmt.imageAll, hst, hrest]
termination_by structural sts => sts

lemma Branch.holds_resolve (R : Resolve.Rules Holds opts opts' m κ κ') : (b : Branch) →
    Holds (fun a b => a.image κ = b.image κ') (b.resolve opts) ((b.image m).resolve opts')
  | ⟨c, body, tail⟩ => by
    have hcondition := c.holds_resolve R.toExprRules
    have hbody := Stmt.holds_resolveAll R body
    have htail := tail.holds_resolve R
    -- the condition and the block are one step, in a scope of their own
    have hscope : Holds (fun p q : Expr × List Stmt => p.1.image κ = q.1.image κ' ∧
          Stmt.imageAll κ p.2 = Stmt.imageAll κ' q.2)
        (Resolve.inScope do
          let c ← c.resolve opts
          let body ← Stmt.resolveAll opts body
          return (c, body))
        (Resolve.inScope do
          let c ← (c.image m).resolve opts'
          let body ← Stmt.resolveAll opts' (Stmt.imageAll m body)
          return (c, body)) :=
      R.inScope (R.bind hcondition fun _ _ => R.bind hbody fun _ _ =>
        R.pure fun hbody hc => ⟨hc, hbody⟩)
    refine R.bind hscope fun _ _ => R.bind htail fun _ _ => R.pure fun htail ⟨hc, hbody⟩ => ?_
    rw [Branch.image, Branch.image, hc, hbody, htail]
termination_by structural b => b

lemma Tail.holds_resolve (R : Resolve.Rules Holds opts opts' m κ κ') : (tail : Tail) →
    Holds (fun a b => a.image κ = b.image κ') (tail.resolve opts) ((tail.image m).resolve opts')
  | .done => R.pure rfl
  | .elseIf next => by
    have hnext := next.holds_resolve R
    refine R.bind hnext fun _ _ => R.pure fun hnext => ?_
    rw [Tail.image, Tail.image, hnext]
  | .otherwise body => by
    have hbody := R.inScope (Stmt.holds_resolveAll R body)
    refine R.bind hbody fun _ _ => R.pure fun hbody => ?_
    rw [Tail.image, Tail.image, hbody]
termination_by structural tail => tail

lemma Decl.holds_resolve (R : Resolve.Rules Holds opts opts' m κ κ') (d : Decl) :
    Holds (fun a b => a.image κ = b.image κ') (d.resolve opts) ((d.image m).resolve opts') := by
  cases d with
  | globalVar v =>
    refine R.unlessHalted ?_ (Decl.image_of_halted (.globalVar v))
    refine R.bind (R.var v) fun _ _ => R.pure fun hv => ?_
    rw [Decl.image, Decl.image, hv]
  | localVar v =>
    refine R.unlessHalted ?_ (Decl.image_of_halted (.localVar v))
    refine R.bind (R.var v) fun _ _ => R.pure fun hv => ?_
    rw [Decl.image, Decl.image, hv]
  | function f =>
    have hfunction := f.holds_resolve R
    refine R.unlessHalted ?_ (Decl.image_of_halted (.function f))
    refine R.bind hfunction fun _ _ => R.pure fun hf => ?_
    rw [Decl.image, Decl.image, hf]
termination_by structural d

lemma Decl.holds_resolveOption (R : Resolve.Rules Holds opts opts' m κ κ') :
    (d : Option Decl) → Holds (fun a b => Decl.imageOption κ a = Decl.imageOption κ' b)
      (Decl.resolveOption opts d) (Decl.resolveOption opts' (Decl.imageOption m d))
  | none => R.pure rfl
  | some d => by
    have hdecl := d.holds_resolve R
    refine R.bind hdecl fun _ _ => R.pure fun hd => ?_
    rw [Decl.imageOption, Decl.imageOption, hd]
termination_by structural d => d

lemma FunDecl.holds_resolve (R : Resolve.Rules Holds opts opts' m κ κ') : (f : FunDecl) →
    Holds (fun a b => a.image κ = b.image κ') (f.resolve opts) ((f.image m).resolve opts')
  | ⟨name, params, returns, body, variableSize, parameterSize⟩ => by
    have hbody := Stmt.holds_resolveAll R body
    exact R.function ⟨name, params, returns, body, variableSize, parameterSize⟩ hbody
termination_by structural f => f

end

lemma Decl.holds_resolveAll (R : Resolve.Rules Holds opts opts' m κ κ') (ds : List Decl) :
    Holds (fun a b => a.map (·.image κ) = b.map (·.image κ')) (Decl.resolveAll opts ds)
      (Decl.resolveAll opts' (ds.map (·.image m))) := by
  induction ds with
  | nil => exact R.pure rfl
  | cons d rest ih =>
    refine R.bind (d.holds_resolve R) fun _ _ => R.bind ih fun _ _ => R.pure fun hrest hd => ?_
    rw [List.map_cons, List.map_cons, hd, hrest]

/-- **Related walks**: a relation that follows the rules holds of the walks through a program and
through its image. -/
lemma Program.holds_resolve (R : Resolve.Rules Holds opts opts' m κ κ') (p : Program) :
    Holds (fun a b => Program.image κ a = Program.image κ' b) (p.resolve opts)
      ((p.image m).resolve opts') :=
  R.inScope (Decl.holds_resolveAll R p)

end TreeCompiler

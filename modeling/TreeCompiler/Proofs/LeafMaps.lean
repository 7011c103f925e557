import Mathlib.Tactic.Lemma
import Mathlib.Data.Nat.Notation
import TreeCompiler.Tree.Program

/-!
Trees with other leaves.

A tree can be changed at its leaves only: at its names, at the types that it declares and at the
bytes that its functions take. Its shape, its literals and its operators stay. What is made of each
leaf is told by a `LeafMap`, and the `image` of a tree is the tree with those leaves.
-/

namespace TreeCompiler

/-- What becomes of the leaves of a tree. A name may become something else where it is declared,
where it is used as a variable and where it is called. -/
structure LeafMap where
  declared : Ident → Ident := id
  used : Ident → Ident := id
  called : Ident → Ident := id
  ty : Ty → Ty := id
  bytes : ℕ → ℕ := id

section Image

variable (m : LeafMap)

mutual

def Expr.image : Expr → Expr
  | .int v => .int v
  | .bool b => .bool b
  | .name x => .name (m.used x)
  | .assign x e => .assign (m.used x) e.image
  | .binary op l r => .binary op l.image r.image
  | .call f args => .call (m.called f) (Expr.imageAll args)
termination_by structural e => e

def Expr.imageAll : List Expr → List Expr
  | [] => []
  | e :: rest => e.image :: Expr.imageAll rest
termination_by structural es => es

end

def Var.image (v : Var) : Var := ⟨m.declared v.name, m.ty v.ty, v.value.map (·.image m)⟩

def Param.image (p : Param) : Param := ⟨m.declared p.name, m.ty p.ty, p.fallback.map (·.image m)⟩

mutual

def Stmt.image : Stmt → Stmt
  | .expr e => .expr (e.image m)
  | .decl d => .decl d.image
  | .ret value => .ret (value.map (·.image m))
  | .cond b => .cond b.image
  | .whileLoop c body => .whileLoop (c.image m) (Stmt.imageAll body)
  | .forLoop start c step body =>
    .forLoop (Decl.imageOption start) (c.image m) (step.map (·.image m)) (Stmt.imageAll body)
termination_by structural s => s

def Stmt.imageAll : List Stmt → List Stmt
  | [] => []
  | s :: rest => s.image :: Stmt.imageAll rest
termination_by structural ss => ss

def Branch.image : Branch → Branch
  | ⟨c, body, tail⟩ => ⟨c.image m, Stmt.imageAll body, tail.image⟩
termination_by structural b => b

def Tail.image : Tail → Tail
  | .done => .done
  | .elseIf next => .elseIf next.image
  | .otherwise body => .otherwise (Stmt.imageAll body)
termination_by structural t => t

def Decl.image : Decl → Decl
  | .globalVar v => .globalVar (v.image m)
  | .localVar v => .localVar (v.image m)
  | .function f => .function f.image
termination_by structural d => d

def Decl.imageOption : Option Decl → Option Decl
  | none => none
  | some d => some d.image
termination_by structural d => d

def FunDecl.image : FunDecl → FunDecl
  | ⟨name, params, returns, body, variableSize, parameterSize⟩ =>
    ⟨m.declared name, params.map (·.image m), returns.map m.ty, Stmt.imageAll body,
      m.bytes variableSize, m.bytes parameterSize⟩
termination_by structural f => f

end

def Program.image (p : Program) : Program := p.map (·.image m)

end Image

/-! ### The map that changes nothing -/

mutual

lemma Expr.image_id : (e : Expr) → e.image {} = e
  | .int _ | .bool _ | .name _ => rfl
  | .assign _ e => by
    rw [Expr.image, e.image_id]
    rfl
  | .binary _ l r => by rw [Expr.image, l.image_id, r.image_id]
  | .call _ args => by
    rw [Expr.image, Expr.imageAll_id args]
    rfl
termination_by structural e => e

lemma Expr.imageAll_id : (es : List Expr) → Expr.imageAll {} es = es
  | [] => rfl
  | e :: rest => by rw [Expr.imageAll, e.image_id, Expr.imageAll_id rest]
termination_by structural es => es

end

lemma Expr.imageOption_id (e : Option Expr) : e.map (·.image {}) = e := by
  simp only [Expr.image_id, Option.map_id_fun']
  rfl

lemma Var.image_id (v : Var) : v.image {} = v := by
  rw [Var.image, Expr.imageOption_id]
  rfl

lemma Param.image_id (p : Param) : p.image {} = p := by
  rw [Param.image, Expr.imageOption_id]
  rfl

mutual

lemma Stmt.image_id : (st : Stmt) → st.image {} = st
  | .expr e => by rw [Stmt.image, e.image_id]
  | .decl d => by rw [Stmt.image, d.image_id]
  | .ret value => by rw [Stmt.image, Expr.imageOption_id]
  | .cond b => by rw [Stmt.image, b.image_id]
  | .whileLoop c body => by rw [Stmt.image, c.image_id, Stmt.imageAll_id body]
  | .forLoop start c step body => by
    rw [Stmt.image, Decl.imageOption_id start, c.image_id, Expr.imageOption_id,
      Stmt.imageAll_id body]
termination_by structural st => st

lemma Stmt.imageAll_id : (sts : List Stmt) → Stmt.imageAll {} sts = sts
  | [] => rfl
  | st :: rest => by rw [Stmt.imageAll, st.image_id, Stmt.imageAll_id rest]
termination_by structural sts => sts

lemma Branch.image_id : (b : Branch) → b.image {} = b
  | ⟨c, body, tail⟩ => by rw [Branch.image, c.image_id, Stmt.imageAll_id body, tail.image_id]
termination_by structural b => b

lemma Tail.image_id : (tail : Tail) → tail.image {} = tail
  | .done => rfl
  | .elseIf next => by rw [Tail.image, next.image_id]
  | .otherwise body => by rw [Tail.image, Stmt.imageAll_id body]
termination_by structural tail => tail

lemma Decl.image_id (d : Decl) : d.image {} = d := by
  cases d with
  | globalVar v => rw [Decl.image, v.image_id]
  | localVar v => rw [Decl.image, v.image_id]
  | function f => rw [Decl.image, f.image_id]
termination_by structural d

lemma Decl.imageOption_id : (d : Option Decl) → Decl.imageOption {} d = d
  | none => rfl
  | some d => by rw [Decl.imageOption, d.image_id]
termination_by structural d => d

lemma FunDecl.image_id : (f : FunDecl) → f.image {} = f
  | ⟨name, params, returns, body, variableSize, parameterSize⟩ => by
    have hparams : params.map (·.image {}) = params := by simp [Param.image_id]
    rw [FunDecl.image, hparams, Stmt.imageAll_id body, Option.map_id]
    rfl
termination_by structural f => f

end

lemma Program.image_id (p : Program) : p.image {} = p := by
  simp [Program.image, Decl.image_id]

/-! ### The parts of an image -/

variable (m : LeafMap)

lemma Expr.length_imageAll (es : List Expr) : (Expr.imageAll m es).length = es.length := by
  induction es with
  | nil => rfl
  | cons e rest ih => exact congrArg (· + 1) ih

lemma FunDecl.name_image (f : FunDecl) : (f.image m).name = m.declared f.name := by
  cases f
  rfl

lemma FunDecl.body_image (f : FunDecl) : (f.image m).body = Stmt.imageAll m f.body := by
  cases f
  rfl

lemma FunDecl.variableSize_image (f : FunDecl) :
    (f.image m).variableSize = m.bytes f.variableSize := by
  cases f
  rfl

lemma Program.functions_image (p : Program) :
    (p.image m).functions = p.functions.map (·.image m) := by
  rw [image, functions, functions, List.filterMap_map, List.map_filterMap]
  congr 1
  funext d
  cases d <;> rfl

lemma Program.globals_image (p : Program) : (p.image m).globals = p.globals.map (·.image m) := by
  rw [image, globals, globals, List.filterMap_map, List.map_filterMap]
  congr 1
  funext d
  cases d <;> rfl

/-! ### The text of an image -/

mutual

/-- An expression is written alike if its names are. -/
lemma Expr.render_image {m : LeafMap} (hused : ∀ x, (m.used x).render = x.render)
    (hcalled : ∀ f, (m.called f).render = f.render) : (e : Expr) → (e.image m).render = e.render
  | .int _ | .bool true | .bool false => rfl
  | .name x => hused x
  | .binary op l r => by
    rw [Expr.image, Expr.render, Expr.render, l.render_image hused hcalled,
      r.render_image hused hcalled]
  | .assign x e => by
    rw [Expr.image, Expr.render, Expr.render, hused, e.render_image hused hcalled]
  | .call f args => by
    rw [Expr.image, Expr.render, Expr.render, hcalled,
      Expr.renderArgs_image hused hcalled args]
termination_by structural e => e

lemma Expr.renderArgs_image {m : LeafMap} (hused : ∀ x, (m.used x).render = x.render)
    (hcalled : ∀ f, (m.called f).render = f.render) : (es : List Expr) →
    Expr.renderArgs (Expr.imageAll m es) = Expr.renderArgs es
  | [] => rfl
  | e :: rest => by
    rw [Expr.imageAll, Expr.renderArgs, Expr.renderArgs, e.render_image hused hcalled,
      Expr.renderMore_image hused hcalled rest]
termination_by structural es => es

lemma Expr.renderMore_image {m : LeafMap} (hused : ∀ x, (m.used x).render = x.render)
    (hcalled : ∀ f, (m.called f).render = f.render) : (es : List Expr) →
    Expr.renderMore (Expr.imageAll m es) = Expr.renderMore es
  | [] => rfl
  | e :: rest => by
    rw [Expr.imageAll, Expr.renderMore, Expr.renderMore, e.render_image hused hcalled,
      Expr.renderMore_image hused hcalled rest]
termination_by structural es => es

end

end TreeCompiler

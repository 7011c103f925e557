import TreeCompiler.Proofs.LeafMaps
import TreeCompiler.Proofs.Routine

/-!
Rules for two codes.

Code generation too takes the same steps through a tree and through an image of it. Only three of
them look at a name: one that looks for the storage of a variable, a call, and the start of a
routine. So a relation between steps that holds where these three are taken, and that is kept when
steps follow each other, holds of the code of both trees.
-/

namespace TreeCompiler

namespace Gen

/-- What is asked of a relation between steps so that it holds of the code of a tree and of its
image under `m`. -/
structure Rules (Holds : ∀ {α : Type}, Gen α → Gen α → Prop) (arena arena' : Arena) (m : LeafMap) :
    Prop where
  refl {α : Type} (x : Gen α) : Holds x x
  bind {α β : Type} {x y : Gen α} {f g : α → Gen β} : Holds x y → (∀ a, Holds (f a) (g a)) →
    Holds (x >>= f) (y >>= g)
  used (x : Ident) : Holds (x.operand arena) ((m.used x).operand arena')
  declared (x : Ident) : Holds (x.operand arena) ((m.declared x).operand arena')
  /-- A call to the built-in that prints stays one, and no other call becomes one. -/
  called_print (f : Ident) : ((m.called f).name == printName) = (f.name == printName)
  called (f : Ident) :
    Holds (instr (.call f.routine)) (instr (.call (m.called f).routine))
  bytes (n : ℕ) : m.bytes n = n

end Gen

variable {Holds : ∀ {α : Type}, Gen α → Gen α → Prop} {arena arena' : Arena} {m : LeafMap}
  {α β : Type}

namespace Gen.Rules

/-- The same step first. -/
lemma after (R : Rules Holds arena arena' m) (x : Gen α) {f g : α → Gen β}
    (h : ∀ a, Holds (f a) (g a)) : Holds (x >>= f) (x >>= g) := R.bind (R.refl x) h

/-- The same steps behind it. -/
lemma before (R : Rules Holds arena arena' m) {x y : Gen α} (h : Holds x y) (f : α → Gen β) :
    Holds (x >>= f) (y >>= f) := R.bind h fun a => R.refl (f a)

end Gen.Rules

/-! ### Expressions -/

mutual

lemma Expr.holds_lower (R : Gen.Rules Holds arena arena' m) : (e : Expr) →
    Holds (e.lower arena) ((e.image m).lower arena')
  | .int _ | .bool true | .bool false => R.refl _
  | .name x => R.before (R.used x) _
  | .assign x e => by
    have hvalue := e.holds_lower R
    refine R.bind hvalue fun r => ?_
    have hstore : Holds (x.store arena r) ((m.used x).store arena' r) := R.before (R.used x) _
    exact R.before hstore _
  | .binary op l r => by
    have hleft := l.holds_lower R
    have hright := r.holds_lower R
    exact R.bind hleft fun _ => R.before hright _
  | .call f args => by
    have hpushed : (m.called f).pushed (Expr.imageAll m args) = f.pushed args := by
      rw [Ident.pushed, Ident.pushed, R.called_print, Expr.length_imageAll]
    have hpass : Holds (f.pass arena args)
        ((m.called f).pass arena' (Expr.imageAll m args)) := by
      rw [Ident.pass, Ident.pass, R.called_print]
      split
      · exact Expr.holds_lowerPrinted R args
      · exact Expr.holds_lowerArgs R args
    rw [Expr.image, Expr.lower_call, Expr.lower_call, hpushed]
    refine R.after _ fun _ => R.after _ fun _ => R.bind hpass fun _ => ?_
    exact R.before (R.called f) _
termination_by structural e => e

lemma Expr.holds_lowerArgs (R : Gen.Rules Holds arena arena' m) : (es : List Expr) →
    Holds (Expr.lowerArgs arena es) (Expr.lowerArgs arena' (Expr.imageAll m es))
  | [] => R.refl _
  | e :: rest => by
    have hrest := Expr.holds_lowerArgs R rest
    have hfirst := e.holds_lower R
    exact R.bind hrest fun _ => R.before hfirst _
termination_by structural es => es

lemma Expr.holds_lowerPrinted (R : Gen.Rules Holds arena arena' m) : (es : List Expr) →
    Holds (Expr.lowerPrinted arena es) (Expr.lowerPrinted arena' (Expr.imageAll m es))
  | [] => R.refl _
  | e :: rest => by
    have hfirst := e.holds_lower R
    have hrest := Expr.holds_lowerPrinted R rest
    exact R.bind hfirst fun _ => R.after _ fun _ => R.after _ fun _ => hrest
termination_by structural es => es

end

lemma Expr.holds_lowerDropped (R : Gen.Rules Holds arena arena' m) (e : Expr) :
    Holds (e.lowerDropped arena) ((e.image m).lowerDropped arena') := R.before (e.holds_lower R) _

lemma Expr.holds_lowerTest (R : Gen.Rules Holds arena arena' m) (e : Expr) (l : Label) :
    Holds (e.lowerTest arena l) ((e.image m).lowerTest arena' l) := R.before (e.holds_lower R) _

lemma Expr.holds_lowerStep (R : Gen.Rules Holds arena arena' m) (e : Option Expr) :
    Holds (Expr.lowerStep arena e) (Expr.lowerStep arena' (e.map (·.image m))) := by
  cases e with
  | none => exact R.refl _
  | some e => exact e.holds_lowerDropped R

lemma Expr.holds_lowerReturned (R : Gen.Rules Holds arena arena' m) (e : Option Expr) :
    Holds (Expr.lowerReturned arena e) (Expr.lowerReturned arena' (e.map (·.image m))) := by
  cases e with
  | none => exact R.refl _
  | some e => exact R.before (e.holds_lower R) _

/-! ### Statements and routines -/

lemma Var.holds_lower (R : Gen.Rules Holds arena arena' m) (v : Var) :
    Holds (v.lower arena) ((v.image m).lower arena') := by
  obtain ⟨x, ty, value⟩ := v
  cases value with
  | none => exact R.refl _
  | some e =>
    refine R.bind (e.holds_lower R) fun r => ?_
    have hstore : Holds (x.store arena r) ((m.declared x).store arena' r) :=
      R.before (R.declared x) _
    exact R.before hstore _

lemma Var.holds_lowerAll (R : Gen.Rules Holds arena arena' m) (vs : List Var) :
    Holds (Var.lowerAll arena vs) (Var.lowerAll arena' (vs.map (·.image m))) := by
  induction vs with
  | nil => exact R.refl _
  | cons v rest ih => exact R.bind (v.holds_lower R) fun _ => ih

/-- A function inside of another one has no code anyway. -/
lemma Decl.holds_lower (R : Gen.Rules Holds arena arena' m) (d : Decl) :
    Holds (d.lower arena) ((d.image m).lower arena') := by
  cases d with
  | globalVar v | localVar v => exact v.holds_lower R
  | function f => exact R.refl _

lemma Decl.holds_lowerOption (R : Gen.Rules Holds arena arena' m) (d : Option Decl) :
    Holds (Decl.lowerOption arena d) (Decl.lowerOption arena' (Decl.imageOption m d)) := by
  cases d with
  | none => exact R.refl _
  | some d => exact d.holds_lower R

/-- A loop, from its body. -/
lemma holds_lowerLabelled (R : Gen.Rules Holds arena arena' m) {body : List Stmt} {exit : Label}
    (c : Expr) (step : Option Expr) (hbody : Holds (Stmt.lowerAll arena exit body)
      (Stmt.lowerAll arena' exit (Stmt.imageAll m body))) :
    Holds (lowerLabelled arena exit c step body)
      (lowerLabelled arena' exit (c.image m) (step.map (·.image m)) (Stmt.imageAll m body)) := by
  have hstep := Expr.holds_lowerStep R step
  refine R.after _ fun top => R.after _ fun bottom => R.after _ fun _ => ?_
  refine R.bind (c.holds_lowerTest R bottom) fun _ => R.bind hbody fun _ => ?_
  exact R.before hstep _

mutual

lemma Stmt.holds_lower (R : Gen.Rules Holds arena arena' m) (exit : Label) : (st : Stmt) →
    Holds (st.lower arena exit) ((st.image m).lower arena' exit)
  | .expr e => e.holds_lowerDropped R
  | .decl d => d.holds_lower R
  | .ret value => R.before (Expr.holds_lowerReturned R value) _
  | .cond b => R.after _ fun stop => R.before (b.holds_lower R exit stop) _
  | .whileLoop c body => by
    have hbody := Stmt.holds_lowerAll R exit body
    rw [Stmt.image, Stmt.lower_while, Stmt.lower_while]
    exact holds_lowerLabelled R c none hbody
  | .forLoop start c step body => by
    have hstart := Decl.holds_lowerOption R start
    have hbody := Stmt.holds_lowerAll R exit body
    rw [Stmt.image, Stmt.lower_for, Stmt.lower_for]
    exact R.bind hstart fun _ => holds_lowerLabelled R c step hbody
termination_by structural st => st

lemma Stmt.holds_lowerAll (R : Gen.Rules Holds arena arena' m) (exit : Label) :
    (sts : List Stmt) →
    Holds (Stmt.lowerAll arena exit sts) (Stmt.lowerAll arena' exit (Stmt.imageAll m sts))
  | [] => R.refl _
  | st :: rest => by
    have hfirst := st.holds_lower R exit
    have hrest := Stmt.holds_lowerAll R exit rest
    exact R.bind hfirst fun _ => hrest
termination_by structural sts => sts

lemma Branch.holds_lower (R : Gen.Rules Holds arena arena' m) (exit stop : Label) :
    (b : Branch) → Holds (b.lower arena exit stop) ((b.image m).lower arena' exit stop)
  | ⟨c, body, .done⟩ => by
    have hbody := Stmt.holds_lowerAll R exit body
    exact R.bind (c.holds_lowerTest R stop) fun _ => R.before hbody _
  | ⟨c, body, .elseIf next⟩ => by
    have hbody := Stmt.holds_lowerAll R exit body
    have hnext := next.holds_lower R exit stop
    refine R.after _ fun skip => R.bind (c.holds_lowerTest R skip) fun _ => ?_
    exact R.bind hbody fun _ => R.after _ fun _ => R.after _ fun _ => hnext
  | ⟨c, body, .otherwise last⟩ => by
    have hbody := Stmt.holds_lowerAll R exit body
    have hlast := Stmt.holds_lowerAll R exit last
    refine R.after _ fun skip => R.bind (c.holds_lowerTest R skip) fun _ => ?_
    exact R.bind hbody fun _ => R.after _ fun _ => R.after _ fun _ => R.before hlast _
termination_by structural b => b

end

/-- A function keeps its symbol, and what it does as the entry point, with its name. -/
lemma FunDecl.holds_lower (R : Gen.Rules Holds arena arena' m) (globals : List Var) (f : FunDecl)
    (hname : (m.declared f.name).name = f.name.name) : Holds (f.lower arena globals)
      ((f.image m).lower arena' (globals.map (·.image m))) := by
  have hname' : (f.image m).name.name = f.name.name := by
    rw [name_image, hname]
  have hentry : (f.image m).isEntry = f.isEntry := by
    rw [isEntry, isEntry, hname']
  have hframe : (f.image m).frameSize = f.frameSize := by
    rw [frameSize, frameSize, variableSize_image, R.bytes]
  have hpreset : (f.image m).preset (globals.map (·.image m)) =
      (f.preset globals).map (·.image m) := by
    rw [preset, preset, hentry]
    split <;> rfl
  rw [FunDecl.lower_eq, FunDecl.lower_eq, hname', hpreset, body_image, fallsOff, fallsOff,
    epilogue, epilogue, hentry, hframe]
  refine R.after _ fun _ => R.after _ fun exit => R.after _ fun _ => ?_
  refine R.bind (Var.holds_lowerAll R _) fun _ => ?_
  exact R.before (Stmt.holds_lowerAll R exit f.body) _

lemma FunDecl.holds_lowerAll (R : Gen.Rules Holds arena arena' m) (globals : List Var)
    (fs : List FunDecl) (hnames : ∀ f ∈ fs, (m.declared f.name).name = f.name.name) :
    Holds (FunDecl.lowerAll arena globals fs)
      (FunDecl.lowerAll arena' (globals.map (·.image m)) (fs.map (·.image m))) := by
  induction fs with
  | nil => exact R.refl _
  | cons f rest ih =>
    obtain ⟨hf, hrest⟩ := List.forall_mem_cons.mp hnames
    exact R.bind (f.holds_lower R globals hf) fun _ => ih hrest

/-- **Related codes**: a relation that follows the rules holds of the code of a program and of that
of its image, if functions keep their names and the globals their storage. -/
lemma Program.holds_lower (R : Gen.Rules Holds arena arena' m) (p : Program)
    (hnames : ∀ f ∈ p.functions, (m.declared f.name).name = f.name.name)
    (hreserve : reserveLines arena' = reserveLines arena) :
    Holds (p.lower arena) ((p.image m).lower arena') := by
  have hfunctions := FunDecl.holds_lowerAll R p.globals p.functions hnames
  rw [Program.lower, Program.lower, Program.functions_image, Program.globals_image, hreserve]
  exact R.after _ fun _ => R.before hfunctions _

end TreeCompiler

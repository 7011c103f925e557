import Mathlib.Algebra.BigOperators.Group.List.Basic
import Mathlib.Algebra.Ring.Nat
import Mathlib.Data.Nat.Cast.Basic
import TreeCompiler.Proofs.LexicalScope

/-!
The bytes that declarations take.

A variable takes the bytes of its type and a parameter takes a word. The events of a program tell
how many bytes are taken at any point, in the function that is being declared and by the globals:
that is a tally of them. Resolution keeps the same counts, and never lets one exceed the limit.
-/

namespace TreeCompiler

/-! ### Sizes of types -/

/-- The number of elements: the product of the extents of an array, and 1 of any other type. -/
def Ty.extent (ty : Ty) : ℕ :=
  match ty.shape with
  | .array extents => extents.prod
  | .plain | .pointer => 1

/-- The bytes of all elements. -/
def Ty.bytes (ty : Ty) : ℕ := ty.extent * ty.elementSize

lemma foldlM_mulSize? {extents : List ℕ} {m n : ℕ} (h : extents.foldlM mulSize? m = some n) :
    n = m * extents.prod := by
  induction extents generalizing m with
  | nil =>
    obtain rfl := Option.some.inj h
    simp
  | cons k extents ih =>
    rw [List.foldlM_cons] at h
    obtain ⟨_, hk, h⟩ := Option.bind_eq_some_iff.mp h
    obtain ⟨rfl, -⟩ := mulSize?_eq_some_iff.mp hk
    rw [ih h, List.prod_cons, Nat.mul_assoc]

lemma Ty.elements?_eq {ty : Ty} {n : ℕ} (h : ty.elements? = some n) : n = ty.extent := by
  obtain ⟨elem, shape⟩ := ty
  cases shape with
  | array extents => exact (foldlM_mulSize? h).trans (Nat.one_mul _)
  | plain | pointer => exact (Option.some.inj h).symm

/-- A size that can be represented is that of all elements. -/
lemma Ty.size?_eq {ty : Ty} {size : ℕ} (h : ty.size? = some size) :
    ty.elements? = some ty.extent ∧ size = ty.bytes := by
  obtain ⟨n, hn, hsize⟩ := Option.bind_eq_some_iff.mp h
  obtain ⟨rfl, -⟩ := mulSize?_eq_some_iff.mp hsize
  obtain rfl := Ty.elements?_eq hn
  exact ⟨hn, rfl⟩

/-! ### Declared storage -/

/-- The bytes that a declared name takes. -/
def SymbolKind.bytes (ty : Ty) : SymbolKind → ℕ
  | .function => 0
  | .param => wordSize
  | .localVar | .globalVar => ty.bytes

/-- The bytes that the declared names of one kind take. -/
def storage (kind : SymbolKind) (es : List Event) : ℕ :=
  ((declarations es).map fun (_, k, ty) => if k = kind then kind.bytes ty else 0).sum

section Storage

variable {kind : SymbolKind} {es es' : List Event} {e : Event}

@[simp] lemma storage_nil : storage kind [] = 0 := rfl

lemma storage_append : storage kind (es ++ es') = storage kind es + storage kind es' := by
  simp [storage, declarations]

lemma storage_declare (x : Ident) (k : SymbolKind) (ty : Ty) (es : List Event) :
    storage kind (.declare x k ty :: es) =
      (if k = kind then kind.bytes ty else 0) + storage kind es := rfl

lemma storage_cons (he : e.declared? = none) : storage kind (e :: es) = storage kind es := by
  rw [storage, storage, declarations, List.filterMap_cons_none he, ← declarations]

lemma declarations_scoped : declarations (scopedEvents es) = declarations es := by
  simp [declarations, scopedEvents, List.filterMap_cons, Event.declared?]

lemma declarations_append : declarations (es ++ es') = declarations es ++ declarations es' :=
  List.filterMap_append

lemma declarations_uses (xs : List Ident) : declarations (xs.map .use) = [] := by
  simp [declarations, Event.declared?]

end Storage

/-! ### What a function declares -/

/-- A variable as a declaration. -/
def Var.declaration (kind : SymbolKind) (v : Var) : Ident × SymbolKind × Ty := (v.name, kind, v.ty)

/-- A parameter as a declaration. -/
def Param.declaration (p : Param) : Ident × SymbolKind × Ty := (p.name, .param, p.ty)

lemma Var.declarations_events (kind : SymbolKind) (v : Var) :
    declarations (v.events kind) = [v.declaration kind] := by
  rw [Var.events, Expr.eventsOption, declarations_append, declarations_uses]
  rfl

lemma Param.declarations_eventsAll (ps : List Param) :
    declarations (Param.eventsAll ps) = ps.map Param.declaration := by
  induction ps with
  | nil => rfl
  | cons p rest ih =>
    rw [Param.eventsAll, Param.events, Expr.eventsOption, declarations_append, declarations_append,
      declarations_uses, ih]
    rfl

lemma Decl.declarations_events {d : Decl} (h : ∀ e ∈ d.events .localVar, e.Inner) :
    declarations (d.events .localVar) = d.vars.map (Var.declaration .localVar) := by
  cases d with
  | globalVar v | localVar v => exact v.declarations_events .localVar
  | function f =>
    rw [Decl.events, FunDecl.events_eq] at h
    exact (h _ (List.mem_cons_self ..)).elim

lemma Decl.declarations_eventsOption {d : Option Decl} (h : ∀ e ∈ Decl.eventsOption d, e.Inner) :
    declarations (Decl.eventsOption d) = (Decl.varsOption d).map (Var.declaration .localVar) := by
  cases d with
  | none => rfl
  | some d => exact Decl.declarations_events h

section Statements

variable {P : Event → Prop} {es es' : List Event}

lemma forall_mem_scoped (h : ∀ e ∈ scopedEvents es, P e) : ∀ e ∈ es, P e :=
  fun e he => h e (mem_scopedEvents he)

mutual

/-- What is declared in a statement without functions, as a list of its variables. -/
lemma Stmt.declarations_events : (s : Stmt) → (∀ e ∈ s.events, e.Inner) →
    declarations s.events = s.vars.map (Var.declaration .localVar)
  | .expr _, _ | .ret _, _ => declarations_uses _
  | .decl _, h => Decl.declarations_events h
  | .cond b, h => b.declarations_events h
  | .whileLoop c body, h => by
    replace h := forall_mem_scoped h
    rw [Stmt.events, declarations_scoped, declarations_append, Expr.events, declarations_uses,
      Stmt.declarations_eventsAll body fun e he => h e (List.mem_append_right _ he)]
    rfl
  | .forLoop start c step body, h => by
    replace h := forall_mem_scoped h
    have hstart := Decl.declarations_eventsOption fun e he => h e (List.mem_append_left _ he)
    have hbody := Stmt.declarations_eventsAll body (forall_mem_scoped fun e he =>
      h e (List.mem_append_right _ (List.mem_append_right _ (List.mem_append_right _ he))))
    rw [Stmt.events, declarations_scoped, declarations_append, declarations_append,
      declarations_append, Expr.events, Expr.eventsOption, declarations_uses, declarations_uses,
      declarations_scoped, hstart, hbody, Stmt.vars, List.map_append]
    rfl
termination_by structural s => s

lemma Stmt.declarations_eventsAll : (ss : List Stmt) → (∀ e ∈ Stmt.eventsAll ss, e.Inner) →
    declarations (Stmt.eventsAll ss) = (Stmt.varsAll ss).map (Var.declaration .localVar)
  | [], _ => rfl
  | s :: rest, h => by
    rw [Stmt.eventsAll, declarations_append,
      s.declarations_events fun e he => h e (List.mem_append_left _ he),
      Stmt.declarations_eventsAll rest fun e he => h e (List.mem_append_right _ he),
      Stmt.varsAll, List.map_append]
termination_by structural ss => ss

lemma Branch.declarations_events : (b : Branch) → (∀ e ∈ b.events, e.Inner) →
    declarations b.events = b.vars.map (Var.declaration .localVar)
  | ⟨c, body, tail⟩, h => by
    have hbody := Stmt.declarations_eventsAll body fun e he =>
      forall_mem_scoped (fun e' he' => h e' (List.mem_append_left _ he')) e
        (List.mem_append_right _ he)
    have htail := tail.declarations_events fun e he => h e (List.mem_append_right _ he)
    rw [Branch.events, declarations_append, declarations_scoped, declarations_append, Expr.events,
      declarations_uses, hbody, htail, Branch.vars, List.map_append]
    rfl
termination_by structural b => b

lemma Tail.declarations_events : (t : Tail) → (∀ e ∈ t.events, e.Inner) →
    declarations t.events = t.vars.map (Var.declaration .localVar)
  | .done, _ => rfl
  | .elseIf next, h => next.declarations_events h
  | .otherwise body, h => by
    rw [Tail.events, declarations_scoped, Stmt.declarations_eventsAll body (forall_mem_scoped h)]
    rfl
termination_by structural t => t

end

end Statements

/-- A function declares its parameters, and then the variables of its body. -/
lemma FunDecl.declarations_inner {f : FunDecl} (hflat : f.Flat) : declarations f.inner =
    f.params.map Param.declaration ++ (Stmt.varsAll f.body).map (Var.declaration .localVar) := by
  rw [inner, declarations_append, Param.declarations_eventsAll,
    Stmt.declarations_eventsAll f.body fun e he => hflat e (List.mem_append_right _ he)]

/-- The bytes of all variables. -/
def Var.bytesAll (vs : List Var) : ℕ := (vs.map (·.ty.bytes)).sum

/-- What parameters and the locals behind them take. -/
lemma storage_of_declarations {es : List Event} {ps : List Param} {vs : List Var}
    (h : declarations es = ps.map Param.declaration ++ vs.map (Var.declaration .localVar)) :
    storage .localVar es = Var.bytesAll vs ∧ storage .param es = wordSize * ps.length ∧
      storage .globalVar es = 0 := by
  simp only [storage, h, List.map_append, List.map_map, List.sum_append]
  simp [Function.comp_def, Param.declaration, Var.declaration, Var.bytesAll, SymbolKind.bytes,
    Nat.mul_comm]

lemma FunDecl.storage_localVar {f : FunDecl} (hflat : f.Flat) :
    storage .localVar f.inner = Var.bytesAll (Stmt.varsAll f.body) := by
  obtain ⟨hlocals, -, -⟩ := storage_of_declarations (FunDecl.declarations_inner hflat)
  exact hlocals

lemma FunDecl.storage_param {f : FunDecl} (hflat : f.Flat) :
    storage .param f.inner = wordSize * f.params.length := by
  obtain ⟨-, hparams, -⟩ := storage_of_declarations (FunDecl.declarations_inner hflat)
  exact hparams

lemma FunDecl.storage_globalVar {f : FunDecl} (hflat : f.Flat) :
    storage .globalVar f.inner = 0 := by
  obtain ⟨-, -, hglobals⟩ := storage_of_declarations (FunDecl.declarations_inner hflat)
  exact hglobals

lemma FunDecl.storage_events (f : FunDecl) {kind : SymbolKind} (hkind : kind ≠ .function) :
    storage kind f.events = storage kind f.inner := by
  have hscoped : storage kind (scopedEvents f.inner) = storage kind f.inner := by
    rw [storage, declarations_scoped, ← storage]
  rw [events_eq, storage_declare, if_neg hkind.symm, storage_append, hscoped, storage_cons rfl,
    storage_nil, Nat.zero_add, Nat.add_zero]

lemma Program.storage_globalVar {p : Program} (hflat : ∀ f ∈ p.functions, f.Flat) :
    storage .globalVar p.events = Var.bytesAll p.globals := by
  induction p with
  | nil => rfl
  | cons d rest ih =>
    have hrest := ih fun f hf => hflat f (Program.mem_functions.mpr
      (List.mem_cons_of_mem _ (Program.mem_functions.mp hf)))
    rw [Program.events, Decl.eventsAll, storage_append]
    cases d with
    | globalVar v | localVar v =>
      have hv : storage .globalVar (v.events .globalVar) = v.ty.bytes := by
        simp [storage, Var.declarations_events, Var.declaration, SymbolKind.bytes]
      exact congrArg₂ (· + ·) hv hrest
    | function f =>
      have hf : storage .globalVar f.events = 0 := by
        rw [f.storage_events (by decide), FunDecl.storage_globalVar
          (hflat f (Program.mem_functions.mpr (List.mem_cons_self ..)))]
      exact (congrArg₂ (· + ·) hf hrest).trans (Nat.zero_add _)

/-! ### Counting along the events -/

/-- The bytes taken so far, in the function that is being declared and by the globals. -/
structure Tally where
  frame : Option Frame := none
  globals : ℕ := 0

namespace Tally

def step (y : Tally) : Event → Tally
  | .declare _ .function _ => { y with frame := some {} }
  | .declare _ .globalVar ty => { y with globals := y.globals + ty.bytes }
  | .declare _ .localVar ty =>
    { y with frame := y.frame.map fun f => { f with variableSize := f.variableSize + ty.bytes } }
  | .declare _ .param _ =>
    { y with frame := y.frame.map fun f => { f with parameterSize := f.parameterSize + wordSize } }
  | .finish _ _ _ => { y with frame := none }
  | .enter | .exit | .use _ => y

def run (y : Tally) (es : List Event) : Tally := es.foldl step y

lemma run_append (y : Tally) (es es' : List Event) : y.run (es ++ es') = (y.run es).run es' :=
  List.foldl_append

lemma step_bare (y : Tally) (e : Event) : y.step e.bare = y.step e := by
  rcases e with _ | _ | _ | ⟨_, _ | _ | _ | _, _⟩ | _ <;> rfl

lemma run_bare (y : Tally) (es : List Event) : y.run (es.map Event.bare) = y.run es := by
  induction es generalizing y with
  | nil => rfl
  | cons e es ih =>
    rw [List.map_cons, run, List.foldl_cons, step_bare]
    exact ih (y.step e)

/-- Nothing takes more than there is. -/
structure Within (y : Tally) : Prop where
  globals : y.globals ≤ storageLimit
  frame : ∀ f, y.frame = some f → f.variableSize ≤ storageLimit ∧ f.parameterSize ≤ storageLimit

/-- In a function, the bytes of its parameters and variables add up. -/
lemma frame_run {f : Frame} {es : List Event} {y : Tally} (h : ∀ e ∈ es, e.Inner)
    (hy : y.frame = some f) : (y.run es).frame =
      some ⟨f.variableSize + storage .localVar es, f.parameterSize + storage .param es⟩ := by
  induction es generalizing y f with
  | nil => exact hy
  | cons e es ih =>
    obtain ⟨he, hes⟩ := List.forall_mem_cons.mp h
    have hrun : y.run (e :: es) = (y.step e).run es := rfl
    rw [hrun]
    cases e with
    | enter | exit | use =>
      rw [storage_cons rfl, storage_cons rfl]
      exact ih hes hy
    | finish => exact he.elim
    | declare x kind ty =>
      rw [storage_declare, storage_declare]
      cases kind with
      | function => exact he.elim
      | globalVar =>
        rw [if_neg (by decide), if_neg (by decide), Nat.zero_add, Nat.zero_add]
        exact ih hes hy
      | localVar =>
        rw [if_pos rfl, if_neg (by decide), Nat.zero_add, ← Nat.add_assoc]
        exact ih (f := { f with variableSize := f.variableSize + ty.bytes }) hes
          (by simp [step, hy])
      | param =>
        rw [if_pos rfl, if_neg (by decide), Nat.zero_add, ← Nat.add_assoc]
        exact ih (f := { f with parameterSize := f.parameterSize + wordSize }) hes
          (by simp [step, hy])

lemma globals_run {es : List Event} {y : Tally} :
    (y.run es).globals = y.globals + storage .globalVar es := by
  induction es generalizing y with
  | nil => rfl
  | cons e es ih =>
    have hrun : y.run (e :: es) = (y.step e).run es := rfl
    rw [hrun, ih]
    cases e with
    | enter | exit | use | finish => rw [storage_cons rfl]; rfl
    | declare x kind ty =>
      rw [storage_declare, ← Nat.add_assoc]
      cases kind <;> rfl

/-- The events take what there is, one after the other, and a function starts only where none is
being declared. -/
def Fits (y : Tally) : List Event → Prop
  | [] => True
  | e :: es => (∀ x ty, e = .declare x .function ty → y.frame = none) ∧ (y.step e).Within ∧
      (y.step e).Fits es

lemma fits_append {es es' : List Event} {y : Tally} :
    y.Fits (es ++ es') ↔ y.Fits es ∧ (y.run es).Fits es' := by
  induction es generalizing y with
  | nil => exact ⟨fun h => ⟨trivial, h⟩, And.right⟩
  | cons e es ih =>
    have hrun : y.run (e :: es) = (y.step e).run es := rfl
    rw [List.cons_append, Fits, Fits, ih, hrun, and_assoc, and_assoc]

/-- Counts only grow in a function, so they were within the limits if they are in the end. -/
lemma within_of_run {f : Frame} {es : List Event} {y : Tally} (h : ∀ e ∈ es, e.Inner)
    (hy : y.frame = some f) (hwithin : (y.run es).Within) : y.Within := by
  have hglobals := hwithin.globals
  obtain ⟨hvariables, hparams⟩ := hwithin.frame _ (frame_run h hy)
  rw [globals_run] at hglobals
  refine ⟨Nat.le_trans (Nat.le_add_right ..) hglobals, fun g hg => ?_⟩
  obtain rfl := Option.some.inj (hy.symm.trans hg)
  exact ⟨Nat.le_trans (Nat.le_add_right ..) hvariables,
    Nat.le_trans (Nat.le_add_right ..) hparams⟩

lemma fits_inner {f : Frame} {es : List Event} {y : Tally} (h : ∀ e ∈ es, e.Inner)
    (hy : y.frame = some f) (hwithin : (y.run es).Within) : y.Fits es := by
  induction es generalizing y f with
  | nil => trivial
  | cons e es ih =>
    obtain ⟨he, hes⟩ := List.forall_mem_cons.mp h
    have hone : ∀ e' ∈ [e], e'.Inner := by simpa using he
    have hstep := frame_run hone hy
    refine ⟨?_, within_of_run hes hstep hwithin, ih hes hstep hwithin⟩
    rintro x ty rfl
    exact he.elim

end Tally

/-- What resolution counts. -/
def Resolver.tally (s : Resolver) : Tally := ⟨s.frame, s.globals⟩

section Traces

variable {opts : Options} {s t : Resolver} {e : Event} {es : List Event}

/-- **Step**: resolution counts what the events tell, up to the limit. -/
lemma Event.Step.tally (h : e.Step opts s t) :
    t.tally = s.tally.step e ∧ (s.tally.Within → t.tally.Within) := by
  cases e with
  | enter =>
    obtain rfl := h
    exact ⟨rfl, id⟩
  | exit =>
    obtain ⟨-, rfl⟩ := h
    exact ⟨rfl, id⟩
  | use x =>
    obtain ⟨-, rfl⟩ := h
    exact ⟨rfl, id⟩
  | finish f params frame =>
    obtain ⟨id, ids, -, -, -, -, rfl⟩ := h
    exact ⟨rfl, fun hs => ⟨hs.globals, nofun⟩⟩
  | declare x kind ty =>
    obtain ⟨size, position, u, hreserves, -, -, rfl⟩ := h
    cases kind with
    | function =>
      obtain ⟨-, -, -, -, rfl⟩ := hreserves
      refine ⟨rfl, fun hs => ⟨hs.globals, fun f hf => ?_⟩⟩
      obtain rfl := Option.some.inj hf
      exact ⟨Nat.zero_le _, Nat.zero_le _⟩
    | globalVar =>
      obtain ⟨-, -, -, hsize, hend, rfl⟩ := hreserves
      obtain ⟨rfl, hlimit⟩ := storageEnd?_eq_some_iff.mp hend
      obtain ⟨-, rfl⟩ := Ty.size?_eq hsize
      exact ⟨rfl, fun hs => ⟨hlimit, hs.frame⟩⟩
    | localVar =>
      obtain ⟨f, n, hf, -, -, hsize, hend, rfl⟩ := hreserves
      obtain ⟨rfl, hlimit⟩ := storageEnd?_eq_some_iff.mp hend
      obtain ⟨-, rfl⟩ := Ty.size?_eq hsize
      refine ⟨by simp [Resolver.tally, Tally.step, hf], fun hs => ⟨hs.globals, fun g hg => ?_⟩⟩
      obtain rfl := Option.some.inj hg
      exact ⟨hlimit, (hs.frame f hf).2⟩
    | param =>
      obtain ⟨f, n, stop, hf, -, -, -, hend, -, rfl⟩ := hreserves
      obtain ⟨rfl, hlimit⟩ := storageEnd?_eq_some_iff.mp hend
      refine ⟨by simp [Resolver.tally, Tally.step, hf], fun hs => ⟨hs.globals, fun g hg => ?_⟩⟩
      obtain rfl := Option.some.inj hg
      exact ⟨(hs.frame f hf).1, hlimit⟩

/-- **Run**: along every trace. -/
lemma Trace.tally (h : Trace opts s es t) :
    t.tally = s.tally.run es ∧ (s.tally.Within → t.tally.Within) := by
  induction es generalizing s with
  | nil =>
    obtain rfl := h
    exact ⟨rfl, id⟩
  | cons e es ih =>
    obtain ⟨u, he, hes⟩ := h
    obtain ⟨hstep, hwithin⟩ := he.tally
    obtain ⟨hrun, hwithin'⟩ := ih hes
    exact ⟨by rw [hrun, hstep]; rfl, fun hs => hwithin' (hwithin hs)⟩

end Traces

end TreeCompiler

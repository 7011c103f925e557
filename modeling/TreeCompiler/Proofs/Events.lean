import Mathlib.Tactic.Lemma
import Mathlib.Data.Nat.Notation
import TreeCompiler.Analysis.Resolution

/-!
A program as its scopes see it.

Read from front to back, a program opens and closes scopes, uses names and declares names. The
value of a variable comes before its declaration, and a function is declared before its
parameters and its body, which share one scope. These are the events of a program. `Step` says
what each of them asks of the state of name resolution and does to it, and a `Trace` is a
sequence of such steps; that resolving a program is a trace of its events is proved elsewhere.
-/

namespace TreeCompiler

mutual

/-- The names that an expression uses, in order. The built-in that prints is no declared name. -/
def Expr.uses : Expr → List Ident
  | .int _ => []
  | .bool _ => []
  | .name x => [x]
  | .binary _ l r => l.uses ++ r.uses
  | .assign x e => x :: e.uses
  | .call f args => (if f.name == printName then [] else [f]) ++ Expr.usesAll args
termination_by structural e => e

def Expr.usesAll : List Expr → List Ident
  | [] => []
  | e :: rest => e.uses ++ Expr.usesAll rest
termination_by structural es => es

end

def Expr.usesOption : Option Expr → List Ident
  | none => []
  | some e => e.uses

/-- Something that concerns the scopes. A function is finished behind its own scope, when its
parameters and the bytes of its frame are known. -/
inductive Event where
  | enter
  | exit
  | use (x : Ident)
  | declare (x : Ident) (kind : SymbolKind) (ty : Ty)
  | finish (f : Ident) (params : List Ident) (frame : Frame)

def scopedEvents (es : List Event) : List Event := .enter :: (es ++ [.exit])

lemma mem_scopedEvents {e : Event} {es : List Event} (h : e ∈ es) : e ∈ scopedEvents es := by
  have hinside : e ∈ es ++ [.exit] := List.mem_append_left _ h
  exact List.mem_cons_of_mem _ hinside

def Expr.events (e : Expr) : List Event := e.uses.map .use

def Expr.eventsOption (e : Option Expr) : List Event := (Expr.usesOption e).map .use

def Var.events (kind : SymbolKind) (v : Var) : List Event :=
  Expr.eventsOption v.value ++ [.declare v.name kind v.ty]

def Param.events (p : Param) : List Event :=
  Expr.eventsOption p.fallback ++ [.declare p.name .param p.ty]

def Param.eventsAll : List Param → List Event
  | [] => []
  | p :: rest => p.events ++ Param.eventsAll rest

mutual

def Stmt.events : Stmt → List Event
  | .expr e => e.events
  | .decl d => d.events .localVar
  | .ret value => Expr.eventsOption value
  | .cond b => b.events
  | .whileLoop c body => scopedEvents (c.events ++ Stmt.eventsAll body)
  | .forLoop start c step body => scopedEvents (Decl.eventsOption start ++ (c.events ++
      (Expr.eventsOption step ++ scopedEvents (Stmt.eventsAll body))))
termination_by structural s => s

def Stmt.eventsAll : List Stmt → List Event
  | [] => []
  | s :: rest => s.events ++ Stmt.eventsAll rest
termination_by structural ss => ss

def Branch.events : Branch → List Event
  | ⟨c, body, tail⟩ => scopedEvents (c.events ++ Stmt.eventsAll body) ++ tail.events
termination_by structural b => b

def Tail.events : Tail → List Event
  | .done => []
  | .elseIf next => next.events
  | .otherwise body => scopedEvents (Stmt.eventsAll body)
termination_by structural t => t

/-- The events of a declaration, where variables are of that kind. -/
def Decl.events (d : Decl) (kind : SymbolKind) : List Event :=
  match d with
  | .globalVar v | .localVar v => v.events kind
  | .function f => f.events
termination_by structural d

/-- The events of the declaration in front of a loop, if there is one. -/
def Decl.eventsOption : Option Decl → List Event
  | none => []
  | some d => d.events .localVar
termination_by structural d => d

def FunDecl.events : FunDecl → List Event
  | ⟨name, params, returns, body, variableSize, parameterSize⟩ =>
    .declare name .function (returns.getD .void) ::
      (scopedEvents (Param.eventsAll params ++ Stmt.eventsAll body) ++
        [.finish name (params.map (·.name)) ⟨variableSize, parameterSize⟩])
termination_by structural f => f

end

/-- The events in the scope of a function. -/
def FunDecl.inner (f : FunDecl) : List Event := Param.eventsAll f.params ++ Stmt.eventsAll f.body

lemma FunDecl.events_eq (f : FunDecl) :
    f.events = .declare f.name .function (f.returns.getD .void) :: (scopedEvents f.inner ++
      [.finish f.name (f.params.map (·.name)) ⟨f.variableSize, f.parameterSize⟩]) := by
  cases f
  rfl

def Decl.eventsAll : List Decl → List Event
  | [] => []
  | d :: rest => d.events .globalVar ++ Decl.eventsAll rest

/-- The events of a program, in the scope of its globals. -/
def Program.events (p : Program) : List Event := Decl.eventsAll p

/-- The event does not start or finish a function. -/
def Event.Inner : Event → Prop
  | .declare _ .function _ => False
  | .finish _ _ _ => False
  | _ => True

/-- No function is declared inside the function. -/
def FunDecl.Flat (f : FunDecl) : Prop := ∀ e ∈ f.inner, e.Inner

/-! ### Without annotations -/

/-- The name as it is written. -/
def Ident.bare (x : Ident) : Ident := { x with symbol := none }

@[simp] lemma Ident.bare_name (x : Ident) : x.bare.name = x.name := rfl

/-- The event as far as it stands in the text. -/
def Event.bare : Event → Event
  | .enter => .enter
  | .exit => .exit
  | .use x => .use x.bare
  | .declare x kind ty => .declare x.bare kind ty
  | .finish f params _ => .finish f.bare (params.map Ident.bare) {}

/-! ### Steps -/

/-- The name stands for the symbol that the scopes give it, and its offset is one of an
element. -/
def Ident.Bound (s : Resolver) (x : Ident) : Prop :=
  ∃ id symbol, x.symbol = some id ∧ s.scopes.lookup x.name = some id ∧
    s.arena[id]? = some symbol ∧
    (symbol.isFunction = false → ∀ n, symbol.ty.elements? = some n → x.offset < n)

/-- A declaration of that kind takes storage, with a size and a position, and leaves `t`. Only a
function starts a frame; globals and functions are declared in the outermost scope, outside of
any function. -/
def Resolver.Reserves (s : Resolver) (ty : Ty) (size position : ℕ) (t : Resolver) :
    SymbolKind → Prop
  | .function => s.frame = none ∧ s.scopes.level? = some 0 ∧ size = 0 ∧ position = 0 ∧
      t = { s with frame := some {} }
  | .globalVar => s.frame = none ∧ s.scopes.level? = some 0 ∧ ty.isPointer = false ∧
      ty.size? = some size ∧ storageEnd? s.globals size = some position ∧
      t = { s with globals := position }
  | .localVar => ∃ f level, s.frame = some f ∧ s.scopes.level? = some (level + 1) ∧
      ty.isPointer = false ∧ ty.size? = some size ∧
      storageEnd? f.variableSize size = some position ∧
      t = { s with frame := some { f with variableSize := position } }
  | .param => ∃ f level stop, s.frame = some f ∧ s.scopes.level? = some (level + 1) ∧
      ty.isPointer = false ∧ ty.size? = some size ∧
      storageEnd? f.parameterSize wordSize = some stop ∧ position = f.parameterSize ∧
      t = { s with frame := some { f with parameterSize := stop } }

/-- What an event asks of the state before it, and the state after it. The scope of the globals
stays open. -/
def Event.Step (opts : Options) (s : Resolver) : Event → Resolver → Prop
  | .enter, t => t = { s with scopes := s.scopes.enter }
  | .exit, t => (∃ n, s.scopes.level? = some (n + 1)) ∧ t = { s with scopes := s.scopes.exit }
  | .use x, t => x.Bound s ∧ t = s
  | .declare x kind ty, t =>
    ∃ size position u, s.Reserves ty size position u kind ∧ x.symbol = some s.arena.size ∧
      (opts.allowRedeclaration = true ∨ s.scopes.lookupCurrent x.name = none) ∧
      t = { u with
        arena := s.arena.push ⟨x.name, kind, ty, size, position, []⟩
        scopes := s.scopes.bind x.name s.arena.size }
  | .finish f params frame, t =>
    ∃ id ids, f.symbol = some id ∧ params.map (·.symbol) = ids.map some ∧
      s.frame = some frame ∧ s.scopes.level? = some 0 ∧
      t = { s with frame := none, arena := Arena.setParams s.arena id ids }

/-- The state before the first event of a program. -/
def Resolver.start : Resolver := { arena := #[], scopes := ({} : ScopeStack).enter }

/-- The events happen one after the other. -/
def Trace (opts : Options) (s : Resolver) : List Event → Resolver → Prop
  | [], t => t = s
  | e :: es, t => ∃ u, e.Step opts s u ∧ Trace opts u es t

variable {opts : Options} {s t u : Resolver} {es es' : List Event}

lemma trace_append : Trace opts s (es ++ es') t ↔ ∃ u, Trace opts s es u ∧ Trace opts u es' t := by
  induction es generalizing s with
  | nil => simp [Trace]
  | cons e es ih =>
    simp only [List.cons_append, Trace, ih]
    constructor
    · rintro ⟨a, ha, b, hb, hb'⟩
      exact ⟨b, ⟨a, ha, hb⟩, hb'⟩
    · rintro ⟨b, ⟨a, ha, hb⟩, hb'⟩
      exact ⟨a, ha, b, hb, hb'⟩

lemma trace_singleton {e : Event} : Trace opts s [e] t ↔ e.Step opts s t := by
  simp [Trace]

/-- Uses change nothing. -/
lemma trace_uses {xs : List Ident} :
    Trace opts s (xs.map .use) t ↔ (∀ x ∈ xs, x.Bound s) ∧ t = s := by
  induction xs with
  | nil => simp [Trace]
  | cons x xs ih =>
    simp only [List.map_cons, Trace, List.forall_mem_cons]
    constructor
    · rintro ⟨_, ⟨hx, rfl⟩, hxs⟩
      obtain ⟨hall, rfl⟩ := ih.mp hxs
      exact ⟨⟨hx, hall⟩, rfl⟩
    · rintro ⟨⟨hx, hall⟩, rfl⟩
      exact ⟨t, ⟨hx, rfl⟩, ih.mpr ⟨hall, rfl⟩⟩

/-- What every step preserves, every trace preserves. -/
lemma Trace.preserves {P : Resolver → Prop} (h : Trace opts s es t)
    (hstep : ∀ e ∈ es, ∀ {s t}, e.Step opts s t → P s → P t) (hs : P s) : P t := by
  induction es generalizing s with
  | nil =>
    obtain rfl := h
    exact hs
  | cons e es ih =>
    obtain ⟨u, he, hes⟩ := h
    exact ih hes (fun e' he' => hstep e' (by simp [he'])) (hstep e (by simp) he hs)

end TreeCompiler

import TreeCompiler.Proofs.Events

/-!
Name resolution that reports nothing is a trace of the events of the program it returns.

A report is never withdrawn, so a walk without one at its end had none on the way either. Each
part of a program therefore has one statement with two halves: there was no report before it,
and if it is where such a part may be, then its events happened.
-/

namespace TreeCompiler

section Runs

variable {σ α β : Type} {s t : σ}

lemma run_bind {x : StateT σ (Except Dangling) α} {f : α → StateT σ (Except Dangling) β} {b : β} :
    (x >>= f) s = .ok (b, t) ↔ ∃ a u, x s = .ok (a, u) ∧ f a u = .ok (b, t) := by
  change (x s >>= fun p => f p.1 p.2) = _ ↔ _
  cases hx : x s with
  | ok p =>
    constructor
    · exact fun h => ⟨p.1, p.2, rfl, h⟩
    · rintro ⟨a, u, hp, hf⟩
      obtain rfl := Except.ok.inj hp
      exact hf
  | error e => simp [bind, Except.bind]

lemma run_pure {a b : α} :
    (pure a : StateT σ (Except Dangling) α) s = .ok (b, t) ↔ b = a ∧ t = s := by
  change Except.ok (a, s) = _ ↔ _
  simp [eq_comm]

lemma run_get_bind {f : σ → StateT σ (Except Dangling) β} {b : β} :
    (get >>= f) s = .ok (b, t) ↔ f s s = .ok (b, t) := Iff.rfl

lemma run_modify_bind {f : σ → σ} {g : PUnit → StateT σ (Except Dangling) β} {b : β} :
    (modify f >>= g) s = .ok (b, t) ↔ g ⟨⟩ (f s) = .ok (b, t) := Iff.rfl

lemma run_set_bind {s' : σ} {g : PUnit → StateT σ (Except Dangling) β} {b : β} :
    (set s' >>= g) s = .ok (b, t) ↔ g ⟨⟩ s' = .ok (b, t) := Iff.rfl

lemma run_lift_bind {x : Except Dangling α} {f : α → StateT σ (Except Dangling) β} {b : β} :
    ((liftM x : StateT σ (Except Dangling) α) >>= f) s = .ok (b, t) ↔
      ∃ a, x = .ok a ∧ f a s = .ok (b, t) := by
  cases x with
  | ok a =>
    simp only [Except.ok.injEq, exists_eq_left']
    exact Iff.rfl
  | error e =>
    constructor
    · exact fun h => nomatch h
    · exact fun ⟨_, h, _⟩ => nomatch h

end Runs

variable {opts : Options} {s t u : Resolver}

namespace Resolve

variable {α β : Type}

/-- A walk that ends without a report was not halted. -/
lemma run_unlessHalted {a b : α} {act : Resolve α} (h : unlessHalted opts a act s = .ok (b, t))
    (ht : t.errors = []) : act s = .ok (b, t) := by
  rw [unlessHalted] at h
  split at h
  · next hhalts =>
    obtain ⟨-, rfl⟩ := Prod.mk.inj (Except.ok.inj h)
    simp [ht] at hhalts
  · exact h

lemma run_report_bind {d : Diagnostic} {f : Unit → Resolve β} {b : β} :
    (report opts d >>= f) s = .ok (b, t) ↔
      f () { s with errors := opts.report s.errors d } = .ok (b, t) := Iff.rfl

lemma run_inScope {act : Resolve α} {a : α} :
    inScope act s = .ok (a, t) ↔ ∃ u, act { s with scopes := s.scopes.enter } = .ok (a, u) ∧
      t = { u with scopes := u.scopes.exit } := by
  rw [inScope, enter, run_modify_bind, run_bind]
  constructor
  · rintro ⟨b, u, hact, hexit⟩
    rw [exit, run_modify_bind, run_pure] at hexit
    obtain ⟨rfl, rfl⟩ := hexit
    exact ⟨u, hact, rfl⟩
  · rintro ⟨u, hact, rfl⟩
    exact ⟨a, u, hact, rfl⟩

lemma run_bind_symbol {x : Ident} {symbol : Symbol} {p : Ident × Option SymbolId}
    (h : Resolve.bind opts x symbol s = .ok (p, t)) (ht : t.errors = []) :
    s.errors = [] ∧ p = ({ x with symbol := some s.arena.size }, some s.arena.size) ∧
      (opts.allowRedeclaration = true ∨ s.scopes.lookupCurrent x.name = none) ∧
      t = { s with
        arena := s.arena.push symbol
        scopes := s.scopes.bind x.name s.arena.size } := by
  rw [Resolve.bind, run_get_bind] at h
  split at h
  · rw [run_report_bind, run_pure] at h
    exact absurd (h.2 ▸ ht) (opts.report_ne_nil _ _)
  · next hfree =>
    rw [run_set_bind, run_pure] at h
    obtain ⟨rfl, rfl⟩ := h
    refine ⟨ht, rfl, ?_, rfl⟩
    cases hallow : opts.allowRedeclaration
    · simpa [hallow] using hfree
    · exact .inl rfl

lemma run_placeVariable {x : Ident} {ty : Ty} {p : ℕ × ℕ}
    (h : placeVariable opts x ty s = .ok (p, t)) (ht : t.errors = []) :
    ty.size? = some p.1 ∧ storageEnd? s.used p.1 = some p.2 ∧ t = s.setUsed p.2 := by
  rw [placeVariable, run_get_bind] at h
  cases hplace : ty.size?.bind fun size => (storageEnd? s.used size).map (size, ·) with
  | some q =>
    rw [hplace, run_modify_bind, run_pure] at h
    obtain ⟨rfl, rfl⟩ := h
    obtain ⟨_, hsize, hstop⟩ := Option.bind_eq_some_iff.mp hplace
    obtain ⟨_, hend, rfl⟩ := Option.map_eq_some_iff.mp hstop
    exact ⟨hsize, hend, rfl⟩
  | none =>
    rw [hplace, run_report_bind, run_pure] at h
    exact absurd (h.2 ▸ ht) (opts.report_ne_nil _ _)

lemma run_placeParameter {x : Ident} {ty : Ty} {p : ℕ × ℕ}
    (h : placeParameter opts x ty s = .ok (p, t)) (ht : t.errors = []) :
    ∃ stop, ty.size? = some p.1 ∧
      storageEnd? (s.frame.getD {}).parameterSize wordSize = some stop ∧
      p.2 = (s.frame.getD {}).parameterSize ∧
      t = { s with frame := some { s.frame.getD {} with parameterSize := stop } } := by
  rw [placeParameter, run_get_bind] at h
  match hsize : ty.size?, hstop : storageEnd? (s.frame.getD {}).parameterSize wordSize with
  | some size, some stop =>
    rw [hsize, hstop, run_modify_bind, run_pure] at h
    obtain ⟨rfl, rfl⟩ := h
    exact ⟨stop, rfl, rfl, rfl, rfl⟩
  | none, _ =>
    rw [hsize, run_report_bind, run_pure] at h
    exact absurd (h.2 ▸ ht) (opts.report_ne_nil _ _)
  | some _, none =>
    rw [hsize, hstop, run_report_bind, run_pure] at h
    exact absurd (h.2 ▸ ht) (opts.report_ne_nil _ _)

/-- Only a symbol that is there gets its parameters. -/
lemma run_setParams_bind {id : Option SymbolId} {params : List SymbolId} {f : Unit → Resolve β}
    {b : β} : (setParams id params >>= f) s = .ok (b, t) ↔ (∀ i ∈ id, i < s.arena.size) ∧
      f () { s with arena := id.elim s.arena (Arena.setParams s.arena · params) } =
        .ok (b, t) := by
  cases id with
  | none =>
    rw [setParams, pure_bind]
    simp
  | some i =>
    rw [setParams, bind_assoc, run_get_bind, bind_assoc, run_lift_bind]
    constructor
    · rintro ⟨symbol, hfind, hrest⟩
      obtain ⟨hlt, -⟩ := Array.getElem?_eq_some_iff.mp (Arena.find_eq_ok_iff.mp hfind)
      exact ⟨fun j hj => Option.some.inj hj ▸ hlt, hrest⟩
    · rintro ⟨hlt, hrest⟩
      have hsymbol := Array.getElem?_eq_getElem (hlt i rfl)
      exact ⟨_, Arena.find_eq_ok_iff.mpr hsymbol, hrest⟩

end Resolve

/-! ### Expressions -/

/-- Resolved names: each is bound where it stands, and apart from that nothing has changed. -/
structure Resolved (s : Resolver) (xs xs' : List Ident) : Prop where
  bound : ∀ x ∈ xs', x.Bound s
  bare : xs'.map Ident.bare = xs.map Ident.bare

lemma Resolved.nil : Resolved s [] [] := ⟨by simp, rfl⟩

lemma Resolved.append {xs xs' ys ys' : List Ident} (hx : Resolved s xs xs')
    (hy : Resolved s ys ys') : Resolved s (xs ++ ys) (xs' ++ ys') := by
  refine ⟨fun x h => ?_, by rw [List.map_append, List.map_append, hx.bare, hy.bare]⟩
  rcases List.mem_append.mp h with h | h
  · exact hx.bound x h
  · exact hy.bound x h

lemma Ident.run_resolve {x x' : Ident} (h : x.resolve opts s = .ok (x', t)) (ht : t.errors = []) :
    t = s ∧ Resolved s [x] [x'] := by
  rw [resolve, run_get_bind] at h
  cases hlookup : s.scopes.lookup x.name with
  | none =>
    rw [hlookup, Resolve.run_report_bind, run_pure] at h
    exact absurd (h.2 ▸ ht) (opts.report_ne_nil _ _)
  | some id =>
    rw [hlookup, run_get_bind, run_lift_bind] at h
    obtain ⟨symbol, hsymbol, h⟩ := h
    rw [Arena.find_eq_ok_iff] at hsymbol
    split at h
    · rw [Resolve.run_report_bind, run_pure] at h
      exact absurd (h.2 ▸ ht) (opts.report_ne_nil _ _)
    · next hbounds =>
      rw [run_pure] at h
      obtain ⟨rfl, rfl⟩ := h
      refine ⟨rfl, fun y hy => ?_, rfl⟩
      obtain rfl := List.mem_singleton.mp hy
      refine ⟨id, symbol, rfl, hlookup, hsymbol, fun hf n hn => ?_⟩
      simpa [hf, hn] using hbounds

mutual

lemma Expr.run_resolve : (e : Expr) → ∀ {s t : Resolver} {e' : Expr},
    e.resolve opts s = .ok (e', t) → t.errors = [] → t = s ∧ Resolved s e.uses e'.uses
  | .int _, s, t, e', h, _ | .bool _, s, t, e', h, _ => by
    obtain ⟨rfl, rfl⟩ := run_pure.mp h
    exact ⟨rfl, .nil⟩
  | .name x, s, t, e', h, ht => by
    obtain ⟨x', u, hx, h⟩ := run_bind.mp (Resolve.run_unlessHalted h ht)
    obtain ⟨rfl, rfl⟩ := run_pure.mp h
    exact x.run_resolve hx ht
  | .binary op l r, s, t, e', h, ht => by
    obtain ⟨l', u, hl, h⟩ := run_bind.mp (Resolve.run_unlessHalted h ht)
    obtain ⟨r', u', hr, h⟩ := run_bind.mp h
    obtain ⟨rfl, rfl⟩ := run_pure.mp h
    obtain ⟨rfl, hright⟩ := r.run_resolve hr ht
    obtain ⟨rfl, hleft⟩ := l.run_resolve hl ht
    exact ⟨rfl, hleft.append hright⟩
  | .assign x e, s, t, e', h, ht => by
    obtain ⟨x', u, hx, h⟩ := run_bind.mp (Resolve.run_unlessHalted h ht)
    obtain ⟨v', u', hv, h⟩ := run_bind.mp h
    obtain ⟨rfl, rfl⟩ := run_pure.mp h
    obtain ⟨rfl, hvalue⟩ := e.run_resolve hv ht
    obtain ⟨rfl, htarget⟩ := x.run_resolve hx ht
    exact ⟨rfl, htarget.append hvalue⟩
  | .call f args, s, t, e', h, ht => by
    rw [Expr.resolve] at h
    replace h := Resolve.run_unlessHalted h ht
    dsimp only at h
    by_cases hprint : f.name == printName
    · rw [if_pos hprint, pure_bind] at h
      obtain ⟨args', u, hargs, h⟩ := run_bind.mp h
      obtain ⟨rfl, rfl⟩ := run_pure.mp h
      simp only [Expr.uses, hprint, if_true, List.nil_append]
      exact Expr.run_resolveAll args hargs ht
    · rw [if_neg hprint] at h
      obtain ⟨f', u, hf, h⟩ := run_bind.mp h
      obtain ⟨args', u', hargs, h⟩ := run_bind.mp h
      obtain ⟨rfl, rfl⟩ := run_pure.mp h
      obtain ⟨rfl, hall⟩ := Expr.run_resolveAll args hargs ht
      obtain ⟨rfl, hcallee⟩ := f.run_resolve hf ht
      have hname : f'.name = f.name := by
        rw [← f'.bare_name, (List.cons.inj hcallee.bare).1, f.bare_name]
      simp only [Expr.uses, hprint, hname]
      exact ⟨trivial, hcallee.append hall⟩
termination_by structural e => e

lemma Expr.run_resolveAll : (es : List Expr) → ∀ {s t : Resolver} {es' : List Expr},
    Expr.resolveAll opts es s = .ok (es', t) → t.errors = [] →
    t = s ∧ Resolved s (Expr.usesAll es) (Expr.usesAll es')
  | [], s, t, es', h, _ => by
    obtain ⟨rfl, rfl⟩ := run_pure.mp h
    exact ⟨rfl, .nil⟩
  | e :: rest, s, t, es', h, ht => by
    obtain ⟨e', u, he, h⟩ := run_bind.mp h
    obtain ⟨rest', u', hrest, h⟩ := run_bind.mp h
    obtain ⟨rfl, rfl⟩ := run_pure.mp h
    obtain ⟨rfl, hall⟩ := Expr.run_resolveAll rest hrest ht
    obtain ⟨rfl, hfirst⟩ := e.run_resolve he ht
    exact ⟨rfl, hfirst.append hall⟩
termination_by structural es => es

end

lemma Expr.run_resolveOption {e e' : Option Expr} (h : Expr.resolveOption opts e s = .ok (e', t))
    (ht : t.errors = []) : t = s ∧ Resolved s (Expr.usesOption e) (Expr.usesOption e') := by
  cases e with
  | none =>
    obtain ⟨rfl, rfl⟩ := run_pure.mp h
    exact ⟨rfl, .nil⟩
  | some e =>
    obtain ⟨e', u, he, h⟩ := run_bind.mp h
    obtain ⟨rfl, rfl⟩ := run_pure.mp h
    exact e.run_resolve he ht

/-! ### Declarations -/

/-- The state is that of a walk through a function. -/
def Resolver.Inside (s : Resolver) : Prop :=
  s.frame.isSome = true ∧ ∃ n, s.scopes.level? = some (n + 1)

/-- The state is that of a walk outside of any function. -/
def Resolver.Outside (s : Resolver) : Prop := s.frame = none ∧ s.scopes.level? = some 0

def ScopeStack.levels (st : ScopeStack) : List ℕ := st.scopes.map (·.level)

@[simp] lemma ScopeStack.levels_bind (st : ScopeStack) (x : String) (id : SymbolId) :
    (st.bind x id).levels = st.levels := by
  obtain ⟨_ | ⟨sc, outer⟩⟩ := st <;> simp [bind, levels]

lemma ScopeStack.level?_eq (st : ScopeStack) : st.level? = st.levels.head? := by
  simp [level?, levels, List.head?_map]

lemma ScopeStack.level?_enter {st : ScopeStack} {n : ℕ} (h : st.level? = some n) :
    st.enter.level? = some (n + 1) := by
  rw [enter, h]
  rfl

@[simp] lemma ScopeStack.exit_levels (st : ScopeStack) : st.exit.levels = st.levels.tail := by
  simp [exit, levels]

/-- A walk whose events are those of the tree it returns. It leaves the scopes open that were
open, and stays in the function that it is in. -/
structure Walk (opts : Options) (s : Resolver) (es es' : List Event) (t : Resolver) : Prop where
  trace : Trace opts s es' t
  bare : es'.map Event.bare = es.map Event.bare
  levels : t.scopes.levels = s.scopes.levels
  frame : t.frame.isSome = s.frame.isSome

namespace Walk

variable {es es' fs fs' : List Event}

lemma nil : Walk opts s [] [] s := ⟨rfl, rfl, rfl, rfl⟩

lemma append (h : Walk opts s es es' u) (h' : Walk opts u fs fs' t) :
    Walk opts s (es ++ fs) (es' ++ fs') t where
  trace := trace_append.mpr ⟨u, h.trace, h'.trace⟩
  bare := by rw [List.map_append, List.map_append, h.bare, h'.bare]
  levels := h'.levels.trans h.levels
  frame := h'.frame.trans h.frame

lemma inScope {n : ℕ} (hs : s.scopes.level? = some n)
    (h : Walk opts { s with scopes := s.scopes.enter } es es' u) :
    Walk opts s (scopedEvents es) (scopedEvents es') { u with scopes := u.scopes.exit } where
  trace := by
    have hlevel : u.scopes.level? = some (n + 1) := by
      rw [ScopeStack.level?_eq, h.levels, ← ScopeStack.level?_eq]
      exact ScopeStack.level?_enter hs
    exact ⟨_, rfl, trace_append.mpr ⟨u, h.trace, trace_singleton.mpr ⟨⟨n, hlevel⟩, rfl⟩⟩⟩
  bare := by simp [scopedEvents, h.bare]
  levels := by
    rw [ScopeStack.exit_levels, h.levels]
    rfl
  frame := h.frame

lemma of_resolved {xs xs' : List Ident} (h : Resolved s xs xs') :
    Walk opts s (xs.map .use) (xs'.map .use) s where
  trace := trace_uses.mpr ⟨h.bound, rfl⟩
  bare := by
    have hbare := congrArg (List.map Event.use) h.bare
    simpa [Function.comp_def, Event.bare] using hbare
  levels := rfl
  frame := rfl

lemma inside (h : Walk opts s es es' t) (hs : s.Inside) : t.Inside := by
  obtain ⟨hframe, n, hlevel⟩ := hs
  refine ⟨h.frame.trans hframe, n, ?_⟩
  rw [ScopeStack.level?_eq, h.levels, ← ScopeStack.level?_eq, hlevel]

lemma outside (h : Walk opts s es es' t) (hs : s.Outside) : t.Outside := by
  obtain ⟨hframe, hlevel⟩ := hs
  refine ⟨?_, by rw [ScopeStack.level?_eq, h.levels, ← ScopeStack.level?_eq, hlevel]⟩
  have := h.frame
  rw [hframe] at this
  simpa using this

end Walk

lemma Resolver.Inside.enter (hs : s.Inside) : Inside { s with scopes := s.scopes.enter } := by
  obtain ⟨hframe, n, hlevel⟩ := hs
  exact ⟨hframe, n + 1, ScopeStack.level?_enter hlevel⟩

/-- A walk inside of a function. -/
structure InnerWalk (opts : Options) (s : Resolver) (es es' : List Event) (t : Resolver) : Prop
    extends Walk opts s es es' t where
  inner : ∀ e ∈ es', e.Inner

namespace InnerWalk

variable {es es' fs fs' : List Event}

lemma nil : InnerWalk opts s [] [] s := ⟨Walk.nil, by simp⟩

lemma append (h : InnerWalk opts s es es' u) (h' : InnerWalk opts u fs fs' t) :
    InnerWalk opts s (es ++ fs) (es' ++ fs') t := by
  refine ⟨h.toWalk.append h'.toWalk, fun e he => ?_⟩
  rcases List.mem_append.mp he with he | he
  · exact h.inner e he
  · exact h'.inner e he

lemma inScope (hs : s.Inside)
    (h : InnerWalk opts { s with scopes := s.scopes.enter } es es' u) :
    InnerWalk opts s (scopedEvents es) (scopedEvents es') { u with scopes := u.scopes.exit } := by
  obtain ⟨-, n, hlevel⟩ := hs
  refine ⟨h.toWalk.inScope hlevel, fun e he => ?_⟩
  simp only [scopedEvents, List.mem_cons, List.mem_append, List.not_mem_nil, or_false] at he
  rcases he with rfl | he | rfl
  · trivial
  · exact h.inner e he
  · trivial

lemma of_resolved {xs xs' : List Ident} (h : Resolved s xs xs') :
    InnerWalk opts s (xs.map .use) (xs'.map .use) s := by
  refine ⟨Walk.of_resolved h, fun e he => ?_⟩
  obtain ⟨x, -, rfl⟩ := List.mem_map.mp he
  trivial

end InnerWalk

/-- The kind of the variables declared in a state. -/
def Resolver.Declares (s : Resolver) : SymbolKind → Prop
  | .localVar => s.Inside
  | .globalVar => s.Outside
  | _ => False

lemma Resolver.Declares.variableKind {kind : SymbolKind} (h : s.Declares kind) :
    s.variableKind = kind := by
  cases kind with
  | localVar =>
    obtain ⟨-, n, hlevel⟩ := h
    simp [Resolver.variableKind, hlevel]
  | globalVar => simp [Resolver.variableKind, h.2]
  | param | function => exact h.elim

/-- Storage for a variable, as it is taken in a function and outside. -/
lemma Resolver.Declares.reserves {kind : SymbolKind} {ty : Ty} {size position : ℕ}
    (h : s.Declares kind) (hptr : ty.isPointer = false) (hsize : ty.size? = some size)
    (hend : storageEnd? s.used size = some position) :
    s.Reserves ty size position (s.setUsed position) kind := by
  cases kind with
  | localVar =>
    obtain ⟨hframe, n, hlevel⟩ := h
    obtain ⟨f, hf⟩ := Option.isSome_iff_exists.mp hframe
    refine ⟨f, n, hf, hlevel, hptr, hsize, ?_, ?_⟩
    · simpa [used, hf] using hend
    · simp [setUsed, hf]
  | globalVar =>
    refine ⟨h.1, h.2, hptr, hsize, ?_, ?_⟩
    · simpa [used, h.1] using hend
    · simp [setUsed, h.1]
  | param | function => exact h.elim

@[simp] lemma Resolver.setUsed_arena (s : Resolver) (n : ℕ) : (s.setUsed n).arena = s.arena := by
  unfold setUsed
  split <;> rfl

@[simp] lemma Resolver.setUsed_scopes (s : Resolver) (n : ℕ) :
    (s.setUsed n).scopes = s.scopes := by
  unfold setUsed
  split <;> rfl

@[simp] lemma Resolver.setUsed_errors (s : Resolver) (n : ℕ) :
    (s.setUsed n).errors = s.errors := by
  unfold setUsed
  split <;> rfl

lemma Resolver.setUsed_frame (s : Resolver) (n : ℕ) :
    (s.setUsed n).frame.isSome = s.frame.isSome := by
  unfold setUsed
  split
  · next h => simp [h]
  · rfl

/-- What a name is bound to depends on the scopes and the symbols only. -/
lemma Resolved.congr {xs xs' : List Ident} (h : Resolved s xs xs') (harena : t.arena = s.arena)
    (hscopes : t.scopes = s.scopes) : Resolved t xs xs' := by
  refine ⟨fun x hx => ?_, h.bare⟩
  obtain ⟨id, symbol, hid, hlookup, hsymbol, hbounds⟩ := h.bound x hx
  exact ⟨id, symbol, hid, by rw [hscopes, hlookup], by rw [harena, hsymbol], hbounds⟩

/-- A declaration behind the value that it may have. -/
lemma Walk.declare {x : Ident} {kind : SymbolKind} {ty : Ty} {size position : ℕ}
    {xs xs' : List Ident} (hvalue : Resolved s xs xs')
    (hreserves : s.Reserves ty size position u kind)
    (hredeclare : opts.allowRedeclaration = true ∨ s.scopes.lookupCurrent x.name = none)
    (hframe : u.frame.isSome = s.frame.isSome) :
    Walk opts s (xs.map .use ++ [.declare x kind ty])
      (xs'.map .use ++ [.declare { x with symbol := some s.arena.size } kind ty])
      { u with
        arena := s.arena.push ⟨x.name, kind, ty, size, position, []⟩
        scopes := s.scopes.bind x.name s.arena.size } := by
  refine (Walk.of_resolved hvalue).append ⟨?_, rfl, ?_, hframe⟩
  · exact trace_singleton.mpr ⟨size, position, u, hreserves, rfl, hredeclare, rfl⟩
  · exact ScopeStack.levels_bind _ _ _

lemma Var.run_resolve {v v' : Var} (h : v.resolve opts s = .ok (v', t)) (ht : t.errors = []) :
    s.errors = [] ∧ ∀ kind, s.Declares kind → Walk opts s (v.events kind) (v'.events kind) t := by
  rw [resolve] at h
  split at h
  · rw [Resolve.run_report_bind, run_pure] at h
    exact absurd (h.2 ▸ ht) (opts.report_ne_nil _ _)
  · next hptr =>
    rw [run_get_bind] at h
    obtain ⟨⟨size, position⟩, s₁, hplace, h⟩ := run_bind.mp h
    obtain ⟨value, s₂, hvalue, h⟩ := run_bind.mp h
    obtain ⟨⟨name, _⟩, s₃, hbind, h⟩ := run_bind.mp h
    obtain ⟨rfl, rfl⟩ := run_pure.mp h
    obtain ⟨herr, hname, hredeclare, rfl⟩ := Resolve.run_bind_symbol hbind ht
    obtain ⟨rfl, hresolved⟩ := Expr.run_resolveOption hvalue herr
    obtain ⟨hsize, hend, rfl⟩ := Resolve.run_placeVariable hplace herr
    obtain ⟨rfl, -⟩ := Prod.mk.inj hname
    simp only [Resolver.setUsed_arena, Resolver.setUsed_scopes] at *
    refine ⟨by simpa using herr, fun kind hkind => ?_⟩
    rw [hkind.variableKind]
    exact Walk.declare (hresolved.congr (by simp) (by simp))
      (hkind.reserves (by simpa using hptr) hsize hend) hredeclare (s.setUsed_frame _)

/-- A variable inside of a function. -/
lemma Var.run_resolve_inside {v v' : Var} (h : v.resolve opts s = .ok (v', t))
    (ht : t.errors = []) :
    s.errors = [] ∧
      (s.Inside → InnerWalk opts s (v.events .localVar) (v'.events .localVar) t) := by
  obtain ⟨herr, hwalk⟩ := Var.run_resolve h ht
  refine ⟨herr, fun hs => ⟨hwalk .localVar hs, fun e he => ?_⟩⟩
  rcases List.mem_append.mp he with he | he
  · obtain ⟨x, -, rfl⟩ := List.mem_map.mp he
    trivial
  · obtain rfl := List.mem_singleton.mp he
    trivial

lemma Param.run_resolve {p p' : Param} {id : Option SymbolId}
    (h : p.resolve opts s = .ok ((p', id), t)) (ht : t.errors = []) :
    s.errors = [] ∧ (s.Inside → InnerWalk opts s p.events p'.events t) ∧
      p'.name.bare = p.name.bare ∧ p'.name.symbol = id ∧ id.isSome = true := by
  rw [resolve] at h
  replace h := Resolve.run_unlessHalted h ht
  split at h
  · rw [Resolve.run_report_bind, run_pure] at h
    exact absurd (h.2 ▸ ht) (opts.report_ne_nil _ _)
  · next hptr =>
    obtain ⟨⟨size, position⟩, s₁, hplace, h⟩ := run_bind.mp h
    obtain ⟨value, s₂, hvalue, h⟩ := run_bind.mp h
    obtain ⟨⟨name, _⟩, s₃, hbind, h⟩ := run_bind.mp h
    obtain ⟨hp, rfl⟩ := run_pure.mp h
    obtain ⟨rfl, rfl⟩ := Prod.mk.inj hp
    obtain ⟨herr, hname, hredeclare, rfl⟩ := Resolve.run_bind_symbol hbind ht
    obtain ⟨rfl, hresolved⟩ := Expr.run_resolveOption hvalue herr
    obtain ⟨stop, hsize, hend, rfl, rfl⟩ := Resolve.run_placeParameter hplace herr
    obtain ⟨rfl, rfl⟩ := Prod.mk.inj hname
    refine ⟨herr, fun hs => ?_, rfl, rfl, rfl⟩
    obtain ⟨hframe, n, hlevel⟩ := hs
    obtain ⟨f, hf⟩ := Option.isSome_iff_exists.mp hframe
    simp only [hf, Option.getD_some] at hend hresolved ⊢
    have hvalue : Resolved s (Expr.usesOption p.fallback) (Expr.usesOption value) :=
      hresolved.congr rfl rfl
    have hreserves : s.Reserves p.ty size f.parameterSize
        { s with frame := some { f with parameterSize := stop } } .param :=
      ⟨f, n, stop, hf, hlevel, by simpa using hptr, hsize, hend, rfl, rfl⟩
    refine ⟨Walk.declare hvalue hreserves hredeclare (by simp [hf]), fun e he => ?_⟩
    rcases List.mem_append.mp he with he | he
    · obtain ⟨x, -, rfl⟩ := List.mem_map.mp he
      trivial
    · obtain rfl := List.mem_singleton.mp he
      trivial

lemma Param.run_resolveAll : (ps : List Param) →
    ∀ {s t : Resolver} {r : List Param × List SymbolId},
    Param.resolveAll opts ps s = .ok (r, t) → t.errors = [] → s.errors = [] ∧
      (s.Inside → InnerWalk opts s (Param.eventsAll ps) (Param.eventsAll r.1) t) ∧
      r.1.map (·.name.bare) = ps.map (·.name.bare) ∧ r.1.map (·.name.symbol) = r.2.map some
  | [], s, t, r, h, ht => by
    obtain ⟨rfl, rfl⟩ := run_pure.mp h
    exact ⟨ht, fun _ => .nil, rfl, rfl⟩
  | p :: rest, s, t, r, h, ht => by
    obtain ⟨⟨p', id⟩, u, hp, h⟩ := run_bind.mp h
    obtain ⟨⟨rest', ids⟩, u', hrest, h⟩ := run_bind.mp h
    obtain ⟨rfl, rfl⟩ := run_pure.mp h
    obtain ⟨herr, hwalks, hnames, hids⟩ := Param.run_resolveAll rest hrest ht
    obtain ⟨herr', hwalk, hname, hid, hsome⟩ := p.run_resolve hp herr
    obtain ⟨id, rfl⟩ := Option.isSome_iff_exists.mp hsome
    refine ⟨herr', fun hs => (hwalk hs).append (hwalks ((hwalk hs).inside hs)), ?_, ?_⟩
    · simp only [List.map_cons, hname, hnames]
    · simp only [List.map_cons, hid, hids, Option.toList_some, List.singleton_append]

/-- A function, from its declaration to where its parameters and its frame are known. -/
lemma Walk.function {x : Ident} {ty : Ty} {es es' : List Event} {xs xs' : List Ident}
    {ids : List SymbolId} {frame : Frame} (hs : s.Outside)
    (hredeclare : opts.allowRedeclaration = true ∨ s.scopes.lookupCurrent x.name = none)
    (hinner : Walk opts
      { s with
        arena := s.arena.push ⟨x.name, .function, ty, 0, 0, []⟩
        scopes := (s.scopes.bind x.name s.arena.size).enter
        frame := some {} } es es' u)
    (hbare : xs'.map Ident.bare = xs.map Ident.bare) (hids : xs'.map (·.symbol) = ids.map some) :
    Walk opts s (.declare x .function ty :: (scopedEvents es ++ [.finish x xs frame]))
      (.declare { x with symbol := some s.arena.size } .function ty :: (scopedEvents es' ++
        [.finish { x with symbol := some s.arena.size } xs' (u.frame.getD {})]))
      { u with
        scopes := u.scopes.exit
        frame := none
        arena := Arena.setParams u.arena s.arena.size ids } := by
  obtain ⟨hnone, hlevel⟩ := hs
  have hbound : (s.scopes.bind x.name s.arena.size).level? = some 0 := by
    rw [ScopeStack.level?_eq, ScopeStack.levels_bind, ← ScopeStack.level?_eq, hlevel]
  have hscoped := Walk.inScope (s := { s with
    arena := s.arena.push ⟨x.name, .function, ty, 0, 0, []⟩
    scopes := s.scopes.bind x.name s.arena.size
    frame := some {} }) hbound hinner
  have hlevels : u.scopes.exit.levels = s.scopes.levels := by
    rw [← s.scopes.levels_bind x.name s.arena.size]
    exact hscoped.levels
  obtain ⟨f, hf⟩ := Option.isSome_iff_exists.mp hinner.frame
  refine ⟨⟨_, ⟨0, 0, _, ⟨hnone, hlevel, rfl, rfl, rfl⟩, rfl, hredeclare, rfl⟩,
    trace_append.mpr ⟨_, hscoped.trace, trace_singleton.mpr ?_⟩⟩, ?_, hlevels, by rw [hnone]⟩
  · refine ⟨s.arena.size, ids, rfl, hids, by simp [hf], ?_, rfl⟩
    rw [ScopeStack.level?_eq, hlevels, ← ScopeStack.level?_eq, hlevel]
  · simp [Event.bare, hscoped.bare, hbare, Ident.bare]

/-! ### Statements -/

mutual

lemma Stmt.run_resolve : (st : Stmt) → ∀ {s t : Resolver} {st' : Stmt},
    st.resolve opts s = .ok (st', t) → t.errors = [] →
    s.errors = [] ∧ (s.Inside → InnerWalk opts s st.events st'.events t)
  | .expr e, s, t, st', h, ht => by
    obtain ⟨e', u, he, h⟩ := run_bind.mp (Resolve.run_unlessHalted h ht)
    obtain ⟨rfl, rfl⟩ := run_pure.mp h
    obtain ⟨rfl, hresolved⟩ := e.run_resolve he ht
    exact ⟨ht, fun _ => .of_resolved hresolved⟩
  | .decl d, s, t, st', h, ht => by
    obtain ⟨d', u, hd, h⟩ := run_bind.mp (Resolve.run_unlessHalted h ht)
    obtain ⟨rfl, rfl⟩ := run_pure.mp h
    exact d.run_resolve hd ht
  | .ret value, s, t, st', h, ht => by
    obtain ⟨value', u, hvalue, h⟩ := run_bind.mp (Resolve.run_unlessHalted h ht)
    obtain ⟨rfl, rfl⟩ := run_pure.mp h
    obtain ⟨rfl, hresolved⟩ := Expr.run_resolveOption hvalue ht
    exact ⟨ht, fun _ => .of_resolved hresolved⟩
  | .cond b, s, t, st', h, ht => by
    obtain ⟨b', u, hb, h⟩ := run_bind.mp (Resolve.run_unlessHalted h ht)
    obtain ⟨rfl, rfl⟩ := run_pure.mp h
    exact b.run_resolve hb ht
  | .whileLoop c body, s, t, st', h, ht => by
    obtain ⟨u, hscope, rfl⟩ := Resolve.run_inScope.mp (Resolve.run_unlessHalted h ht)
    obtain ⟨c', u₁, hc, hrest⟩ := run_bind.mp hscope
    obtain ⟨body', u₂, hbody, hend⟩ := run_bind.mp hrest
    obtain ⟨rfl, rfl⟩ := run_pure.mp hend
    obtain ⟨herr, hwalk⟩ := Stmt.run_resolveAll body hbody ht
    obtain ⟨rfl, hresolved⟩ := c.run_resolve hc herr
    exact ⟨herr, fun hs => ((InnerWalk.of_resolved hresolved).append (hwalk hs.enter)).inScope hs⟩
  | .forLoop start c step body, s, t, st', h, ht => by
    obtain ⟨u, hscope, rfl⟩ := Resolve.run_inScope.mp (Resolve.run_unlessHalted h ht)
    obtain ⟨start', u₁, hstart, hrest⟩ := run_bind.mp hscope
    obtain ⟨c', u₂, hc, hrest⟩ := run_bind.mp hrest
    obtain ⟨step', u₃, hstep, hrest⟩ := run_bind.mp hrest
    obtain ⟨body', u₄, hscope', hend⟩ := run_bind.mp hrest
    obtain ⟨rfl, rfl⟩ := run_pure.mp hend
    obtain ⟨u₅, hbody, rfl⟩ := Resolve.run_inScope.mp hscope'
    obtain ⟨herr, hwalk⟩ := Stmt.run_resolveAll body hbody ht
    obtain ⟨rfl, hstepped⟩ := Expr.run_resolveOption hstep herr
    obtain ⟨rfl, hresolved⟩ := c.run_resolve hc herr
    obtain ⟨herr', hstarted⟩ := Decl.run_resolveOption start hstart herr
    refine ⟨herr', fun hs => InnerWalk.inScope hs ((hstarted hs.enter).append ?_)⟩
    have hs' := (hstarted hs.enter).inside hs.enter
    have hblock := (hwalk hs'.enter).inScope hs'
    have hrest := (InnerWalk.of_resolved hstepped).append hblock
    exact (InnerWalk.of_resolved hresolved).append hrest
termination_by structural st => st

lemma Stmt.run_resolveAll : (sts : List Stmt) → ∀ {s t : Resolver} {sts' : List Stmt},
    Stmt.resolveAll opts sts s = .ok (sts', t) → t.errors = [] →
    s.errors = [] ∧ (s.Inside → InnerWalk opts s (Stmt.eventsAll sts) (Stmt.eventsAll sts') t)
  | [], s, t, sts', h, ht => by
    obtain ⟨rfl, rfl⟩ := run_pure.mp h
    exact ⟨ht, fun _ => .nil⟩
  | st :: rest, s, t, sts', h, ht => by
    obtain ⟨st', u, hst, h⟩ := run_bind.mp h
    obtain ⟨rest', u', hrest, h⟩ := run_bind.mp h
    obtain ⟨rfl, rfl⟩ := run_pure.mp h
    obtain ⟨herr, hwalks⟩ := Stmt.run_resolveAll rest hrest ht
    obtain ⟨herr', hwalk⟩ := st.run_resolve hst herr
    exact ⟨herr', fun hs => (hwalk hs).append (hwalks ((hwalk hs).inside hs))⟩
termination_by structural sts => sts

lemma Branch.run_resolve : (b : Branch) → ∀ {s t : Resolver} {b' : Branch},
    b.resolve opts s = .ok (b', t) → t.errors = [] →
    s.errors = [] ∧ (s.Inside → InnerWalk opts s b.events b'.events t)
  | ⟨c, body, tail⟩, s, t, b', h, ht => by
    obtain ⟨pair, u, hscope, hrest⟩ := run_bind.mp h
    obtain ⟨tail', u', htail, hend⟩ := run_bind.mp hrest
    obtain ⟨rfl, rfl⟩ := run_pure.mp hend
    obtain ⟨u, hin, rfl⟩ := Resolve.run_inScope.mp hscope
    obtain ⟨c', u₁, hc, hrest⟩ := run_bind.mp hin
    obtain ⟨body', u₂, hbody, hend⟩ := run_bind.mp hrest
    obtain ⟨rfl, rfl⟩ := run_pure.mp hend
    obtain ⟨herr, htailed⟩ := tail.run_resolve htail ht
    obtain ⟨herr', hwalk⟩ := Stmt.run_resolveAll body hbody herr
    obtain ⟨rfl, hresolved⟩ := c.run_resolve hc herr'
    refine ⟨herr', fun hs => ?_⟩
    have hbranch := ((InnerWalk.of_resolved hresolved).append (hwalk hs.enter)).inScope hs
    exact hbranch.append (htailed (hbranch.inside hs))
termination_by structural b => b

lemma Tail.run_resolve : (tail : Tail) → ∀ {s t : Resolver} {tail' : Tail},
    tail.resolve opts s = .ok (tail', t) → t.errors = [] →
    s.errors = [] ∧ (s.Inside → InnerWalk opts s tail.events tail'.events t)
  | .done, s, t, tail', h, ht => by
    obtain ⟨rfl, rfl⟩ := run_pure.mp h
    exact ⟨ht, fun _ => .nil⟩
  | .elseIf next, s, t, tail', h, ht => by
    obtain ⟨next', u, hnext, h⟩ := run_bind.mp h
    obtain ⟨rfl, rfl⟩ := run_pure.mp h
    exact next.run_resolve hnext ht
  | .otherwise body, s, t, tail', h, ht => by
    obtain ⟨body', u, hscope, h⟩ := run_bind.mp h
    obtain ⟨rfl, rfl⟩ := run_pure.mp h
    obtain ⟨u, hbody, rfl⟩ := Resolve.run_inScope.mp hscope
    obtain ⟨herr, hwalk⟩ := Stmt.run_resolveAll body hbody ht
    exact ⟨herr, fun hs => (hwalk hs.enter).inScope hs⟩
termination_by structural tail => tail

lemma Decl.run_resolve : (d : Decl) → ∀ {s t : Resolver} {d' : Decl},
    d.resolve opts s = .ok (d', t) → t.errors = [] →
    s.errors = [] ∧ (s.Inside → InnerWalk opts s (d.events .localVar) (d'.events .localVar) t)
  | .globalVar v, s, t, d', h, ht | .localVar v, s, t, d', h, ht => by
    obtain ⟨v', u, hv, h⟩ := run_bind.mp (Resolve.run_unlessHalted h ht)
    obtain ⟨rfl, rfl⟩ := run_pure.mp h
    exact Var.run_resolve_inside hv ht
  | .function f, s, t, d', h, ht => by
    obtain ⟨f', u, hf, h⟩ := run_bind.mp (Resolve.run_unlessHalted h ht)
    obtain ⟨rfl, rfl⟩ := run_pure.mp h
    obtain ⟨herr, hframe, -⟩ := f.run_resolve hf ht
    refine ⟨herr, fun hs => ?_⟩
    have := hs.1
    simp [hframe] at this
termination_by structural d => d

lemma Decl.run_resolveOption : (d : Option Decl) → ∀ {s t : Resolver} {d' : Option Decl},
    Decl.resolveOption opts d s = .ok (d', t) → t.errors = [] →
    s.errors = [] ∧
      (s.Inside → InnerWalk opts s (Decl.eventsOption d) (Decl.eventsOption d') t)
  | none, s, t, d', h, ht => by
    obtain ⟨rfl, rfl⟩ := run_pure.mp h
    exact ⟨ht, fun _ => .nil⟩
  | some d, s, t, d', h, ht => by
    obtain ⟨d', u, hd, h⟩ := run_bind.mp h
    obtain ⟨rfl, rfl⟩ := run_pure.mp h
    exact d.run_resolve hd ht
termination_by structural d => d

/-- A function is resolved outside of any other. -/
lemma FunDecl.run_resolve : (f : FunDecl) → ∀ {s t : Resolver} {f' : FunDecl},
    f.resolve opts s = .ok (f', t) → t.errors = [] → s.errors = [] ∧ s.frame = none ∧
      (s.scopes.level? = some 0 → Walk opts s f.events f'.events t ∧ f'.Flat)
  | ⟨name, params, returns, body, variableSize, parameterSize⟩, s, t, f', h, ht => by
    rw [FunDecl.resolve, run_get_bind] at h
    split at h
    · rw [Resolve.run_report_bind, run_pure] at h
      exact absurd (h.2 ▸ ht) (opts.report_ne_nil _ _)
    · next hframe =>
      obtain ⟨p, s₁, hbind, hrest⟩ := run_bind.mp h
      rw [run_modify_bind] at hrest
      obtain ⟨q, s₂, hscope, hrest⟩ := run_bind.mp hrest
      rw [run_get_bind, run_modify_bind, Resolve.run_setParams_bind, run_pure] at hrest
      obtain ⟨-, rfl, rfl⟩ := hrest
      obtain ⟨s₃, hin, rfl⟩ := Resolve.run_inScope.mp hscope
      obtain ⟨ps, s₄, hparams, hrest⟩ := run_bind.mp hin
      obtain ⟨body', s₅, hbody, hend⟩ := run_bind.mp hrest
      obtain ⟨rfl, rfl⟩ := run_pure.mp hend
      obtain ⟨herr, hbodyWalk⟩ := Stmt.run_resolveAll body hbody ht
      obtain ⟨herr', hparamWalk, hnames, hids⟩ := Param.run_resolveAll params hparams herr
      obtain ⟨herr, rfl, hredeclare, rfl⟩ := Resolve.run_bind_symbol hbind herr'
      have hnone : s.frame = none := by simpa using hframe
      refine ⟨herr, hnone, fun hlevel => ?_⟩
      have hinside : Resolver.Inside { s with
          arena := s.arena.push ⟨name.name, .function, returns.getD .void, 0, 0, []⟩
          scopes := (s.scopes.bind name.name s.arena.size).enter
          frame := some {} } := by
        refine ⟨rfl, 0, ScopeStack.level?_enter ?_⟩
        rw [ScopeStack.level?_eq, ScopeStack.levels_bind, ← ScopeStack.level?_eq, hlevel]
      have hparamsWalk := hparamWalk hinside
      have hinner := hparamsWalk.append (hbodyWalk (hparamsWalk.inside hinside))
      exact ⟨Walk.function ⟨hnone, hlevel⟩ hredeclare hinner.toWalk
        (by rw [List.map_map, List.map_map]; exact hnames) (by rw [List.map_map]; exact hids),
        hinner.inner⟩
termination_by structural f => f

end

/-! ### Programs -/

lemma Decl.run_resolve_outside {d d' : Decl} (h : d.resolve opts s = .ok (d', t))
    (ht : t.errors = []) : s.errors = [] ∧
      (s.Outside → Walk opts s (d.events .globalVar) (d'.events .globalVar) t ∧
        ∀ f, d' = .function f → f.Flat) := by
  cases d with
  | globalVar v | localVar v =>
    obtain ⟨v', u, hv, h⟩ := run_bind.mp (Resolve.run_unlessHalted h ht)
    obtain ⟨rfl, rfl⟩ := run_pure.mp h
    obtain ⟨herr, hwalk⟩ := Var.run_resolve hv ht
    exact ⟨herr, fun hs => ⟨hwalk .globalVar hs, nofun⟩⟩
  | function f =>
    obtain ⟨f', u, hf, h⟩ := run_bind.mp (Resolve.run_unlessHalted h ht)
    obtain ⟨rfl, rfl⟩ := run_pure.mp h
    obtain ⟨herr, -, hwalk⟩ := f.run_resolve hf ht
    refine ⟨herr, fun hs => ⟨(hwalk hs.2).1, fun g hg => ?_⟩⟩
    obtain rfl := Decl.function.inj hg
    exact (hwalk hs.2).2

lemma Decl.run_resolveAll : (ds : List Decl) → ∀ {s t : Resolver} {ds' : List Decl},
    Decl.resolveAll opts ds s = .ok (ds', t) → t.errors = [] → s.errors = [] ∧
      (s.Outside → Walk opts s (Decl.eventsAll ds) (Decl.eventsAll ds') t ∧
        ∀ f, .function f ∈ ds' → f.Flat)
  | [], s, t, ds', h, ht => by
    obtain ⟨rfl, rfl⟩ := run_pure.mp h
    exact ⟨ht, fun _ => ⟨.nil, by simp⟩⟩
  | d :: rest, s, t, ds', h, ht => by
    obtain ⟨d', u, hd, h⟩ := run_bind.mp h
    obtain ⟨rest', u', hrest, h⟩ := run_bind.mp h
    obtain ⟨rfl, rfl⟩ := run_pure.mp h
    obtain ⟨herr, hwalks⟩ := Decl.run_resolveAll rest hrest ht
    obtain ⟨herr', hwalk⟩ := Decl.run_resolve_outside hd herr
    refine ⟨herr', fun hs => ?_⟩
    obtain ⟨hfirst, hflat⟩ := hwalk hs
    obtain ⟨hothers, hflats⟩ := hwalks (hfirst.outside hs)
    refine ⟨hfirst.append hothers, fun f hf => ?_⟩
    rcases List.mem_cons.mp hf with hf | hf
    · exact hflat f hf.symm
    · exact hflats f hf

lemma Program.mem_functions {p : Program} {f : FunDecl} : f ∈ p.functions ↔ .function f ∈ p := by
  rw [functions, List.mem_filterMap]
  constructor
  · rintro ⟨d, hd, hf⟩
    cases d with
    | function g => exact Option.some.inj hf ▸ hd
    | globalVar | localVar => exact nomatch hf
  · exact fun hf => ⟨_, hf, rfl⟩

/-- **Resolution is a trace**: without a report, the events of the program happened from a fresh
start, and no function is declared inside another one. -/
theorem Program.run_resolve {p p' : Program}
    (h : p.resolve opts { arena := #[], scopes := {} } = .ok (p', t)) (ht : t.errors = []) :
    ∃ u, Walk opts .start p.events p'.events u ∧ t = { u with scopes := u.scopes.exit } ∧
      ∀ f ∈ p'.functions, f.Flat := by
  obtain ⟨u, hin, rfl⟩ := Resolve.run_inScope.mp h
  obtain ⟨-, hwalk⟩ := Decl.run_resolveAll p hin ht
  obtain ⟨hwalk, hflat⟩ := hwalk ⟨rfl, rfl⟩
  exact ⟨u, hwalk, rfl, fun f hf => hflat f (Program.mem_functions.mp hf)⟩

end TreeCompiler

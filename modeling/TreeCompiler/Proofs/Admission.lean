import TreeCompiler.Proofs.Layout

/-!
Name resolution that meets no obstacle has nothing to report.

Each event has its own conditions: a use needs a declaration in scope with the element that it asks
for, a declaration needs a free name, a type with a size and room. A state admits a sequence of
events if, however far they have happened, the next one is allowed. From such a state resolution
goes through the whole part of the program that has these events.
-/

namespace TreeCompiler

variable {opts : Options} {s t u : Resolver} {es es' fs : List Event}

/-! ### Events that are allowed -/

/-- What the state has to provide for an event. Only names that are used or declared ask for
something. -/
def Event.Allowed (opts : Options) (s : Resolver) : Event → Prop
  | .use x => ∃ id symbol, s.scopes.lookup x.name = some id ∧ s.arena[id]? = some symbol ∧
      (symbol.isFunction = false → ∀ n, symbol.ty.elements? = some n → x.offset < n)
  | .declare x kind ty =>
    (opts.allowRedeclaration = true ∨ s.scopes.lookupCurrent x.name = none) ∧
      (kind = .function → s.frame = none) ∧
      (kind ≠ .function → ty.isPointer = false ∧ ty.size? = some ty.bytes) ∧
      (s.tally.step (.declare x kind ty)).Within
  | .enter | .exit | .finish _ _ _ => True

/-- However far the events have happened, up to annotations, the next one is allowed. -/
def Admits (opts : Options) (s : Resolver) (es : List Event) : Prop :=
  ∀ (pre : List Event) (e : Event) (post pre' : List Event) (u : Resolver), es = pre ++ e :: post →
    Trace opts s pre' u → pre'.map Event.bare = pre.map Event.bare → e.Allowed opts u

namespace Admits

lemma left (h : Admits opts s (es ++ fs)) : Admits opts s es := by
  intro pre e post pre' u hes htrace hbare
  have hall : es ++ fs = pre ++ e :: (post ++ fs) := by
    rw [hes, List.append_assoc, List.cons_append]
  exact h pre e (post ++ fs) pre' u hall htrace hbare

/-- Behind events that have happened, the others are admitted. -/
lemma after (h : Admits opts s (es ++ fs)) (htrace : Trace opts s es' t)
    (hbare : es'.map Event.bare = es.map Event.bare) : Admits opts t fs := by
  intro pre e post pre' u hfs htrace' hbare'
  have hall : es ++ fs = (es ++ pre) ++ e :: post := by
    rw [hfs, List.append_assoc]
  have hreached : Trace opts s (es' ++ pre') u := trace_append.mpr ⟨t, htrace, htrace'⟩
  have hsame : (es' ++ pre').map Event.bare = (es ++ pre).map Event.bare := by
    rw [List.map_append, List.map_append, hbare, hbare']
  exact h (es ++ pre) e post (es' ++ pre') u hall hreached hsame

lemma head {e : Event} (h : Admits opts s (e :: es)) : e.Allowed opts s :=
  h [] e es [] s rfl rfl rfl

lemma tail {e e' : Event} (h : Admits opts s (e :: es)) (hstep : e'.Step opts s t)
    (hbare : e'.bare = e.bare) : Admits opts t es := by
  have hsplit : Admits opts s ([e] ++ es) := h
  exact hsplit.after (trace_singleton.mpr hstep) (congrArg (· :: []) hbare)

/-- In a scope of its own. -/
lemma inScope (h : Admits opts s (scopedEvents es)) :
    Admits opts { s with scopes := s.scopes.enter } es := by
  have henter : Event.Step opts s .enter { s with scopes := s.scopes.enter } := rfl
  exact (Admits.tail h henter rfl).left

/-- Names that are used one after the other are allowed at once, as they change nothing. -/
lemma uses {xs : List Ident} (h : Admits opts s (xs.map .use ++ es)) :
    (∀ x ∈ xs, Event.Allowed opts s (.use x)) ∧ Admits opts s es := by
  induction xs with
  | nil => exact ⟨nofun, h⟩
  | cons x xs ih =>
    have hx : Event.Allowed opts s (.use x) := h.head
    have ⟨id, symbol, hlookup, hsymbol, hbounds⟩ := hx
    have hstep : Event.Step opts s (.use { x with symbol := some id }) s :=
      ⟨⟨id, symbol, rfl, hlookup, hsymbol, hbounds⟩, rfl⟩
    obtain ⟨hxs, hrest⟩ := ih (h.tail hstep rfl)
    exact ⟨List.forall_mem_cons.mpr ⟨hx, hxs⟩, hrest⟩

lemma allUses {xs : List Ident} (h : Admits opts s (xs.map .use)) :
    ∀ x ∈ xs, Event.Allowed opts s (.use x) := by
  rw [← List.append_nil (xs.map _)] at h
  exact h.uses.1

end Admits

/-! ### Resolution that goes through -/

namespace Resolve

variable {α β : Type}

/-- The walk has a result and nothing to report. -/
def Succeeds (act : Resolve α) (s : Resolver) : Prop :=
  ∃ a t, act s = .ok (a, t) ∧ t.errors = []

lemma succeeds_pure (a : α) (hs : s.errors = []) : Succeeds (pure a) s := ⟨a, s, rfl, hs⟩

lemma Succeeds.bind {x : Resolve α} {f : α → Resolve β} (h : Succeeds x s)
    (hf : ∀ a t, x s = .ok (a, t) → t.errors = [] → Succeeds (f a) t) : Succeeds (x >>= f) s := by
  obtain ⟨a, t, hx, ht⟩ := h
  obtain ⟨b, u, hrest, hu⟩ := hf a t hx ht
  exact ⟨b, u, run_bind.mpr ⟨a, t, hx, hrest⟩, hu⟩

/-- What is left to do may depend on the result but cannot fail. -/
lemma Succeeds.map {x : Resolve α} {f : α → β} (h : Succeeds x s) :
    Succeeds (do let a ← x; return f a) s :=
  h.bind fun a _ _ ht => succeeds_pure (f a) ht

lemma Succeeds.unlessHalted {a : α} {act : Resolve α} (h : Succeeds act s) (hs : s.errors = []) :
    Succeeds (unlessHalted opts a act) s := by
  obtain ⟨b, t, hact, ht⟩ := h
  refine ⟨b, t, ?_, ht⟩
  rw [Resolve.unlessHalted, hs, Options.halts_nil]
  exact hact

lemma Succeeds.inScope {act : Resolve α} (h : Succeeds act { s with scopes := s.scopes.enter }) :
    Succeeds (inScope act) s := by
  obtain ⟨a, u, hact, hu⟩ := h
  exact ⟨a, _, run_inScope.mpr ⟨u, hact, rfl⟩, hu⟩

lemma succeeds_get_bind {f : Resolver → Resolve β} :
    Succeeds (get >>= f) s ↔ Succeeds (f s) s := Iff.rfl

lemma succeeds_modify_bind {f : Resolver → Resolver} {g : PUnit → Resolve β} :
    Succeeds (modify f >>= g) s ↔ Succeeds (g ⟨⟩) (f s) := Iff.rfl

lemma succeeds_set_bind {s' : Resolver} {g : PUnit → Resolve β} :
    Succeeds (set s' >>= g) s ↔ Succeeds (g ⟨⟩) s' := Iff.rfl

lemma succeeds_bind_symbol {x : Ident} {symbol : Symbol} (hs : s.errors = [])
    (hfree : opts.allowRedeclaration = true ∨ s.scopes.lookupCurrent x.name = none) :
    Succeeds (Resolve.bind opts x symbol) s := by
  have hnot : ¬ (!opts.allowRedeclaration && (s.scopes.lookupCurrent x.name).isSome) = true := by
    rcases hfree with h | h <;> simp [h]
  rw [Resolve.bind, succeeds_get_bind, if_neg hnot, succeeds_set_bind]
  exact succeeds_pure _ hs

lemma succeeds_placeVariable {x : Ident} {ty : Ty} (hs : s.errors = [])
    (hsize : ty.size? = some ty.bytes) (hroom : s.used + ty.bytes ≤ storageLimit) :
    Succeeds (placeVariable opts x ty) s := by
  have hend := storageEnd?_eq_some_iff.mpr ⟨rfl, hroom⟩
  simp only [placeVariable, succeeds_get_bind, hsize, Option.bind_some, hend, Option.map_some,
    succeeds_modify_bind]
  exact succeeds_pure _ (by rw [Resolver.setUsed_errors, hs])

lemma succeeds_placeParameter {x : Ident} {ty : Ty} {f : Frame} (hs : s.errors = [])
    (hf : s.frame = some f) (hsize : ty.size? = some ty.bytes)
    (hroom : f.parameterSize + wordSize ≤ storageLimit) :
    Succeeds (placeParameter opts x ty) s := by
  have hend := storageEnd?_eq_some_iff.mpr ⟨rfl, hroom⟩
  simp only [placeParameter, succeeds_get_bind, hf, Option.getD_some, hsize, hend,
    succeeds_modify_bind]
  exact succeeds_pure _ hs

end Resolve

open Resolve

lemma Ident.succeeds_resolve {x : Ident} (h : Event.Allowed opts s (.use x)) (hs : s.errors = []) :
    Succeeds (x.resolve opts) s := by
  obtain ⟨id, symbol, hlookup, hsymbol, hbounds⟩ := h
  have hinside : ¬ (!symbol.isFunction && symbol.ty.elements?.any (· ≤ x.offset)) = true := by
    intro hout
    simp only [Bool.and_eq_true, Bool.not_eq_true', Option.any_eq_true, decide_eq_true_eq] at hout
    obtain ⟨hf, n, hn, hle⟩ := hout
    exact Nat.not_lt_of_le hle (hbounds hf n hn)
  rw [resolve, succeeds_get_bind, hlookup, succeeds_get_bind]
  refine ⟨{ x with symbol := some id }, s, ?_, hs⟩
  rw [run_lift_bind]
  refine ⟨symbol, Arena.find_eq_ok_iff.mpr hsymbol, ?_⟩
  rw [if_neg hinside, run_pure]
  exact ⟨rfl, rfl⟩

mutual

/-- An expression whose names can be used. -/
lemma Expr.succeeds_resolve : (e : Expr) → (∀ x ∈ e.uses, Event.Allowed opts s (.use x)) →
    s.errors = [] → Succeeds (e.resolve opts) s
  | .int v, _, hs => succeeds_pure _ hs
  | .bool b, _, hs => succeeds_pure _ hs
  | .name x, h, hs =>
    (x.succeeds_resolve (h x (List.mem_singleton.mpr rfl)) hs).map.unlessHalted hs
  | .binary op l r, h, hs => by
    have hl := l.succeeds_resolve (fun x hx => h x (List.mem_append_left _ hx)) hs
    have hr := r.succeeds_resolve (fun x hx => h x (List.mem_append_right _ hx)) hs
    refine Succeeds.unlessHalted (hl.bind fun l' t hrun ht => ?_) hs
    obtain ⟨rfl, -⟩ := l.run_resolve hrun ht
    exact hr.map
  | .assign x e, h, hs => by
    have hx := x.succeeds_resolve (h x (List.mem_cons_self ..)) hs
    have he := e.succeeds_resolve (fun y hy => h y (List.mem_cons_of_mem _ hy)) hs
    refine Succeeds.unlessHalted (hx.bind fun x' t hrun ht => ?_) hs
    obtain ⟨rfl, -⟩ := x.run_resolve hrun ht
    exact he.map
  | .call f args, h, hs => by
    have hargs := Expr.succeeds_resolveAll args (fun x hx => h x (List.mem_append_right _ hx)) hs
    rw [Expr.resolve]
    refine Succeeds.unlessHalted ?_ hs
    by_cases hprint : f.name == printName
    · simp only [hprint, if_true, pure_bind]
      exact hargs.map
    · have hf := f.succeeds_resolve (h f (List.mem_append_left _ (by simp [hprint]))) hs
      simp only [hprint]
      refine hf.bind fun f' t hrun ht => ?_
      obtain ⟨rfl, -⟩ := f.run_resolve hrun ht
      exact hargs.map
termination_by structural e => e

lemma Expr.succeeds_resolveAll : (es : List Expr) →
    (∀ x ∈ Expr.usesAll es, Event.Allowed opts s (.use x)) →
    s.errors = [] → Succeeds (Expr.resolveAll opts es) s
  | [], _, hs => succeeds_pure _ hs
  | e :: rest, h, hs => by
    have he := e.succeeds_resolve (fun x hx => h x (List.mem_append_left _ hx)) hs
    have hrest := Expr.succeeds_resolveAll rest (fun x hx => h x (List.mem_append_right _ hx)) hs
    refine he.bind fun e' t hrun ht => ?_
    obtain ⟨rfl, -⟩ := e.run_resolve hrun ht
    exact hrest.map
termination_by structural es => es

end

lemma Expr.succeeds_resolveOption {e : Option Expr}
    (h : ∀ x ∈ Expr.usesOption e, Event.Allowed opts s (.use x)) (hs : s.errors = []) :
    Succeeds (Expr.resolveOption opts e) s := by
  cases e with
  | none => exact succeeds_pure _ hs
  | some e => exact (e.succeeds_resolve h hs).map

/-! ### Declarations -/

/-- What a name may be used for depends on the scopes and the symbols only. -/
lemma Event.Allowed.congr {x : Ident} (h : Event.Allowed opts s (.use x))
    (harena : t.arena = s.arena) (hscopes : t.scopes = s.scopes) :
    Event.Allowed opts t (.use x) := by
  obtain ⟨id, symbol, hlookup, hsymbol, hbounds⟩ := h
  exact ⟨id, symbol, by rw [hscopes, hlookup], by rw [harena, hsymbol], hbounds⟩

/-- There is room for a variable that is allowed. -/
lemma Resolver.Declares.room {x : Ident} {kind : SymbolKind} {ty : Ty} (hkind : s.Declares kind)
    (h : (s.tally.step (.declare x kind ty)).Within) : s.used + ty.bytes ≤ storageLimit := by
  cases kind with
  | localVar =>
    obtain ⟨f, hf⟩ := Option.isSome_iff_exists.mp hkind.1
    have hframe := h.frame { f with variableSize := f.variableSize + ty.bytes }
      (by simp [tally, Tally.step, hf])
    simpa [used, hf] using hframe.1
  | globalVar =>
    rw [used, hkind.1]
    exact h.globals
  | param | function => exact hkind.elim

lemma Var.succeeds_resolve {v : Var} {kind : SymbolKind} (hkind : s.Declares kind)
    (hs : s.errors = []) (h : Admits opts s (v.events kind)) : Succeeds (v.resolve opts) s := by
  obtain ⟨hvalue, hdeclare⟩ := Admits.uses h
  obtain ⟨hfree, -, htype, hwithin⟩ := hdeclare.head
  have hne : kind ≠ .function := by
    rintro rfl
    exact hkind
  obtain ⟨hptr, hsize⟩ := htype hne
  rw [resolve, if_neg (by simp [hptr]), succeeds_get_bind]
  refine (succeeds_placeVariable hs hsize (hkind.room hwithin)).bind fun p t hplace ht => ?_
  obtain ⟨-, -, rfl⟩ := run_placeVariable hplace ht
  have hallowed : ∀ x ∈ Expr.usesOption v.value, Event.Allowed opts (s.setUsed p.2) (.use x) :=
    fun x hx => (hvalue x hx).congr (by simp) (by simp)
  refine (Expr.succeeds_resolveOption hallowed ht).bind fun value u hrun hu => ?_
  obtain ⟨rfl, -⟩ := Expr.run_resolveOption hrun hu
  exact (succeeds_bind_symbol hu (by simpa using hfree)).map

lemma Param.succeeds_resolve {p : Param} (hinside : s.Inside) (hs : s.errors = [])
    (h : Admits opts s p.events) : Succeeds (p.resolve opts) s := by
  obtain ⟨hvalue, hdeclare⟩ := Admits.uses h
  obtain ⟨hfree, -, htype, hwithin⟩ := hdeclare.head
  obtain ⟨hptr, hsize⟩ := htype (by decide)
  obtain ⟨f, hf⟩ := Option.isSome_iff_exists.mp hinside.1
  have hroom := (hwithin.frame { f with parameterSize := f.parameterSize + wordSize }
    (by simp [Resolver.tally, Tally.step, hf])).2
  rw [resolve]
  refine Succeeds.unlessHalted ?_ hs
  rw [if_neg (by simp [hptr])]
  refine (succeeds_placeParameter hs hf hsize hroom).bind fun place t hplace ht => ?_
  obtain ⟨size, position⟩ := place
  obtain ⟨stop, -, -, -, rfl⟩ := run_placeParameter hplace ht
  refine Succeeds.bind (Expr.succeeds_resolveOption (fun x hx => (hvalue x hx).congr rfl rfl) ht)
    fun value u hrun hu => ?_
  obtain ⟨rfl, -⟩ := Expr.run_resolveOption hrun hu
  exact (succeeds_bind_symbol hu hfree).map

lemma Param.succeeds_resolveAll : (ps : List Param) → ∀ {s : Resolver}, s.Inside →
    s.errors = [] → Admits opts s (Param.eventsAll ps) → Succeeds (Param.resolveAll opts ps) s
  | [], s, _, hs, _ => succeeds_pure _ hs
  | p :: rest, s, hinside, hs, h => by
    rw [Param.eventsAll] at h
    refine (p.succeeds_resolve hinside hs h.left).bind fun q t hrun ht => ?_
    obtain ⟨-, hwalk, -⟩ := p.run_resolve hrun ht
    have hp := hwalk hinside
    exact (Param.succeeds_resolveAll rest (hp.inside hinside) ht (h.after hp.trace hp.bare)).map

lemma Decl.succeeds_resolve {d : Decl} (hinside : s.Inside) (hs : s.errors = [])
    (h : Admits opts s (d.events .localVar)) : Succeeds (d.resolve opts) s := by
  cases d with
  | globalVar v | localVar v =>
    have hkind : s.Declares .localVar := hinside
    exact (Var.succeeds_resolve hkind hs h).map.unlessHalted hs
  | function f =>
    -- a function is not allowed in a function
    rw [Decl.events, FunDecl.events_eq] at h
    obtain ⟨-, hframe, -⟩ := h.head
    have hsome := hinside.1
    rw [hframe rfl] at hsome
    cases hsome

lemma Decl.succeeds_resolveOption {d : Option Decl} (hinside : s.Inside) (hs : s.errors = [])
    (h : Admits opts s (Decl.eventsOption d)) : Succeeds (Decl.resolveOption opts d) s := by
  cases d with
  | none => exact succeeds_pure _ hs
  | some d => exact (Decl.succeeds_resolve hinside hs h).map

mutual

/-- A statement inside of a function. -/
lemma Stmt.succeeds_resolve : (st : Stmt) → ∀ {s : Resolver}, s.Inside → s.errors = [] →
    Admits opts s st.events → Succeeds (st.resolve opts) s
  | .expr e, s, _, hs, h => (e.succeeds_resolve (Admits.allUses h) hs).map.unlessHalted hs
  | .decl _, s, hinside, hs, h => (Decl.succeeds_resolve hinside hs h).map.unlessHalted hs
  | .ret value, s, _, hs, h =>
    (Expr.succeeds_resolveOption (Admits.allUses h) hs).map.unlessHalted hs
  | .cond b, s, hinside, hs, h => (b.succeeds_resolve hinside hs h).map.unlessHalted hs
  | .whileLoop c body, s, hinside, hs, h => by
    obtain ⟨hc, hbody⟩ := Admits.uses (Admits.inScope h)
    refine Succeeds.unlessHalted (Succeeds.inScope ?_) hs
    refine (c.succeeds_resolve hc hs).bind fun c' t hrun ht => ?_
    obtain ⟨rfl, -⟩ := c.run_resolve hrun ht
    exact (Stmt.succeeds_resolveAll body hinside.enter ht hbody).map
  | .forLoop start c step body, s, hinside, hs, h => by
    have hparts := Admits.inScope h
    refine Succeeds.unlessHalted (Succeeds.inScope ?_) hs
    have hfirst := Decl.succeeds_resolveOption hinside.enter hs hparts.left
    refine hfirst.bind fun start' t hrun ht => ?_
    obtain ⟨-, hwalk⟩ := Decl.run_resolveOption start hrun ht
    have hstart := hwalk hinside.enter
    obtain ⟨hc, hrest⟩ := Admits.uses (hparts.after hstart.trace hstart.bare)
    obtain ⟨hstep, hbody⟩ := Admits.uses hrest
    refine (c.succeeds_resolve hc ht).bind fun c' u hrun hu => ?_
    obtain ⟨rfl, -⟩ := c.run_resolve hrun hu
    refine (Expr.succeeds_resolveOption hstep hu).bind fun step' v hrun hv => ?_
    obtain ⟨rfl, -⟩ := Expr.run_resolveOption hrun hv
    have hinside' := hstart.inside hinside.enter
    have hblock := Stmt.succeeds_resolveAll body hinside'.enter hv (Admits.inScope hbody)
    exact (Succeeds.inScope hblock).map
termination_by structural st => st

lemma Stmt.succeeds_resolveAll : (sts : List Stmt) → ∀ {s : Resolver}, s.Inside → s.errors = [] →
    Admits opts s (Stmt.eventsAll sts) → Succeeds (Stmt.resolveAll opts sts) s
  | [], s, _, hs, _ => succeeds_pure _ hs
  | st :: rest, s, hinside, hs, h => by
    rw [Stmt.eventsAll] at h
    refine (st.succeeds_resolve hinside hs h.left).bind fun st' t hrun ht => ?_
    obtain ⟨-, hwalk⟩ := st.run_resolve hrun ht
    have hst := hwalk hinside
    exact (Stmt.succeeds_resolveAll rest (hst.inside hinside) ht (h.after hst.trace hst.bare)).map
termination_by structural sts => sts

lemma Branch.succeeds_resolve : (b : Branch) → ∀ {s : Resolver}, s.Inside → s.errors = [] →
    Admits opts s b.events → Succeeds (b.resolve opts) s
  | ⟨c, body, tail⟩, s, hinside, hs, h => by
    rw [Branch.events] at h
    obtain ⟨hc, hbody⟩ := Admits.uses h.left.inScope
    have hbranch : Succeeds (Resolve.inScope do
        let c ← c.resolve opts
        let body ← Stmt.resolveAll opts body
        return (c, body)) s := by
      refine Succeeds.inScope ((c.succeeds_resolve hc hs).bind fun c' t hrun ht => ?_)
      obtain ⟨rfl, -⟩ := c.run_resolve hrun ht
      exact (Stmt.succeeds_resolveAll body hinside.enter ht hbody).map
    refine hbranch.bind fun q t hrun ht => ?_
    obtain ⟨u, hin, rfl⟩ := run_inScope.mp hrun
    obtain ⟨c', u₁, hcrun, hrest⟩ := run_bind.mp hin
    obtain ⟨body', u₂, hbodyrun, hend⟩ := run_bind.mp hrest
    obtain ⟨rfl, rfl⟩ := run_pure.mp hend
    obtain ⟨herr, hwalk⟩ := Stmt.run_resolveAll body hbodyrun ht
    obtain ⟨rfl, hresolved⟩ := c.run_resolve hcrun herr
    have hscoped := ((InnerWalk.of_resolved hresolved).append (hwalk hinside.enter)).inScope hinside
    have htail := h.after hscoped.trace hscoped.bare
    exact (tail.succeeds_resolve (hscoped.inside hinside) ht htail).map
termination_by structural b => b

lemma Tail.succeeds_resolve : (tail : Tail) → ∀ {s : Resolver}, s.Inside → s.errors = [] →
    Admits opts s tail.events → Succeeds (tail.resolve opts) s
  | .done, _, _, hs, _ => succeeds_pure _ hs
  | .elseIf next, _, hinside, hs, h => (next.succeeds_resolve hinside hs h).map
  | .otherwise body, _, hinside, hs, h => by
    have hbody := Stmt.succeeds_resolveAll body hinside.enter hs (Admits.inScope h)
    exact (Succeeds.inScope hbody).map
termination_by structural tail => tail

end

/-! ### Programs -/

/-- A function outside of any other. -/
lemma FunDecl.succeeds_resolve {f : FunDecl} (houtside : s.Outside) (hs : s.errors = [])
    (h : Admits opts s f.events) : Succeeds (f.resolve opts) s := by
  obtain ⟨name, params, returns, body, variableSize, parameterSize⟩ := f
  obtain ⟨hnone, hlevel⟩ := houtside
  rw [FunDecl.events_eq] at h
  obtain ⟨hfree, -⟩ := h.head
  have hdeclare : Event.Step opts s (.declare { name with symbol := some s.arena.size } .function
      (returns.getD .void)) { s with
        arena := s.arena.push ⟨name.name, .function, returns.getD .void, 0, 0, []⟩
        scopes := s.scopes.bind name.name s.arena.size
        frame := some {} } :=
    ⟨0, 0, _, ⟨hnone, hlevel, rfl, rfl, rfl⟩, rfl, hfree, rfl⟩
  have hinner := (h.tail hdeclare rfl).left.inScope
  have hinside : Resolver.Inside { s with
      arena := s.arena.push ⟨name.name, .function, returns.getD .void, 0, 0, []⟩
      scopes := (s.scopes.bind name.name s.arena.size).enter
      frame := some {} } := by
    refine ⟨rfl, 0, ScopeStack.level?_enter ?_⟩
    rw [ScopeStack.level?_eq, ScopeStack.levels_bind, ← ScopeStack.level?_eq, hlevel]
  rw [FunDecl.resolve, succeeds_get_bind, if_neg (by simp [hnone])]
  refine (succeeds_bind_symbol hs hfree).bind fun ⟨x, id⟩ t hbind ht => ?_
  obtain ⟨-, hname, -, rfl⟩ := run_bind_symbol hbind ht
  obtain ⟨rfl, rfl⟩ := Prod.mk.inj hname
  rw [succeeds_modify_bind]
  refine Succeeds.bind (Succeeds.inScope ?_) fun q u hrun hu => ?_
  · refine (Param.succeeds_resolveAll params hinside hs hinner.left).bind fun r u hrun hu => ?_
    obtain ⟨-, hwalk, -⟩ := Param.run_resolveAll params hrun hu
    have hparams := hwalk hinside
    have hbody := hinner.after hparams.trace hparams.bare
    exact (Stmt.succeeds_resolveAll body (hparams.inside hinside) hu hbody).map
  · -- the symbol of the function is there when its parameters are known
    obtain ⟨v, hin, rfl⟩ := run_inScope.mp hrun
    obtain ⟨r, v₁, hparams, hrest⟩ := run_bind.mp hin
    obtain ⟨body', v₂, hbody, hend⟩ := run_bind.mp hrest
    obtain ⟨rfl, rfl⟩ := run_pure.mp hend
    obtain ⟨herr, hwalks⟩ := Stmt.run_resolveAll body hbody hu
    obtain ⟨-, hwalk, -⟩ := Param.run_resolveAll params hparams herr
    have hgrows := (hwalk hinside).append (hwalks ((hwalk hinside).inside hinside))
    obtain ⟨_, hsymbol⟩ := hgrows.trace.grows s.arena.size _ Array.getElem?_push_size
    rw [succeeds_get_bind, succeeds_modify_bind]
    refine ⟨_, _, run_setParams_bind.mpr ⟨fun i hi => ?_, rfl⟩, hu⟩
    exact Option.some.inj hi ▸ Arena.lt_size hsymbol

lemma Decl.succeeds_resolve_outside {d : Decl} (houtside : s.Outside) (hs : s.errors = [])
    (h : Admits opts s (d.events .globalVar)) : Succeeds (d.resolve opts) s := by
  cases d with
  | globalVar v | localVar v =>
    have hkind : s.Declares .globalVar := houtside
    exact (Var.succeeds_resolve hkind hs h).map.unlessHalted hs
  | function f => exact (FunDecl.succeeds_resolve houtside hs h).map.unlessHalted hs

lemma Decl.succeeds_resolveAll : (ds : List Decl) → ∀ {s : Resolver}, s.Outside →
    s.errors = [] → Admits opts s (Decl.eventsAll ds) → Succeeds (Decl.resolveAll opts ds) s
  | [], s, _, hs, _ => succeeds_pure _ hs
  | d :: rest, s, houtside, hs, h => by
    rw [Decl.eventsAll] at h
    refine (Decl.succeeds_resolve_outside houtside hs h.left).bind fun d' t hrun ht => ?_
    obtain ⟨-, hwalk⟩ := Decl.run_resolve_outside hrun ht
    have hd := (hwalk houtside).1
    exact (Decl.succeeds_resolveAll rest (hd.outside houtside) ht (h.after hd.trace hd.bare)).map

/-- **Progress**: a program whose events are admitted from a fresh start is resolved without a
report. -/
theorem Program.succeeds_resolve {p : Program} (h : Admits opts .start p.events) :
    Succeeds (p.resolve opts) { arena := #[], scopes := {} } := by
  have hdecls := Decl.succeeds_resolveAll p ⟨rfl, rfl⟩ rfl h
  exact Succeeds.inScope hdecls

end TreeCompiler

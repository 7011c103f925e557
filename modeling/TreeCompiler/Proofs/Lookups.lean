import TreeCompiler.Proofs.CheckRules
import TreeCompiler.Proofs.Contents
import TreeCompiler.Proofs.Placement
import TreeCompiler.Proofs.ResolveRules

/-!
Looking up symbols.

Name resolution, checking and code generation look up symbols by their ids, and an id that is not in
the arena leaves them without a result. When a program is analysed this does not happen, whatever
ids its names come with: a state of name resolution is `Closed` if all bindings in its scopes and
all parameters of its functions are symbols of the arena, and every step of the walk finds what it
looks up in a closed state and leaves a closed state behind. What is checked and lowered are the ids
that this walk has written.
-/

namespace TreeCompiler

variable {opts : Options} {s t : Resolver} {arena : Arena} {α β : Type}

/-! ### Closed states -/

/-- All that a scope binds, also what another binding of the same name hides. -/
def Scope.bindings (sc : Scope) : List Binding := sc.buckets.toList.flatten

/-- The parameters of all functions are in the arena. -/
def Arena.Closed (arena : Arena) : Prop :=
  ∀ symbol ∈ arena, ∀ id ∈ symbol.params, id < arena.size

/-- All bindings in the open scopes are symbols of the arena. -/
def Resolver.Bound (s : Resolver) : Prop :=
  ∀ sc ∈ s.scopes.scopes, ∀ b ∈ sc.bindings, b.symbol < s.arena.size

structure Resolver.Closed (s : Resolver) : Prop where
  bound : s.Bound
  params : s.arena.Closed

namespace Scope

variable {sc : Scope} {b : Binding}

lemma mem_bindings : b ∈ sc.bindings ↔ ∃ i, ∃ h : i < bucketCount, b ∈ sc.buckets[i] := by
  rw [bindings, List.mem_flatten]
  constructor
  · rintro ⟨bucket, hbucket, hb⟩
    obtain ⟨i, hi, rfl⟩ := Vector.mem_iff_getElem.mp (Vector.mem_toList_iff.mp hbucket)
    exact ⟨i, hi, hb⟩
  · rintro ⟨i, hi, hb⟩
    exact ⟨_, Vector.mem_toList_iff.mpr (Vector.getElem_mem hi), hb⟩

@[simp] lemma bindings_empty (level : ℕ) : (empty level).bindings = [] := by
  rw [List.eq_nil_iff_forall_not_mem]
  intro b hb
  obtain ⟨i, hi, hb⟩ := mem_bindings.mp hb
  simp [empty] at hb

lemma of_mem_bindings_insert {x : String} {id : SymbolId} (h : b ∈ (sc.insert x id).bindings) :
    b ∈ sc.bindings ∨ b = ⟨x, id⟩ := by
  obtain ⟨i, hi, hb⟩ := mem_bindings.mp h
  rw [insert, Vector.getElem_set] at hb
  split at hb
  · rcases List.mem_append.mp hb with hb | hb
    · exact .inl (mem_bindings.mpr ⟨_, (bucketOf x).isLt, hb⟩)
    · exact .inr (List.mem_singleton.mp hb)
  · exact .inl (mem_bindings.mpr ⟨i, hi, hb⟩)

lemma mem_bindings_of_find? {x : String} {id : SymbolId} (h : sc.find? x = some id) :
    ⟨x, id⟩ ∈ sc.bindings := by
  obtain ⟨b, hb, rfl⟩ := Option.map_eq_some_iff.mp h
  obtain rfl : b.name = x := by simpa using List.find?_some hb
  exact mem_bindings.mpr ⟨_, (bucketOf b.name).isLt, List.mem_of_find?_eq_some hb⟩

end Scope

namespace Arena

lemma closed_empty : Arena.Closed #[] := nofun

lemma Closed.push (h : arena.Closed) {symbol : Symbol} (hparams : symbol.params = []) :
    Arena.Closed (arena.push symbol) := by
  intro old hold id hid
  rw [Array.size_push]
  rcases Array.mem_push.mp hold with hold | rfl
  · exact Nat.lt_succ_of_lt (h old hold id hid)
  · rw [hparams] at hid
    exact nomatch hid

@[simp] lemma size_setParams (arena : Arena) (id : SymbolId) (ids : List SymbolId) :
    (Arena.setParams arena id ids).size = arena.size := by
  simp [Arena.setParams]

lemma Closed.setParams (h : arena.Closed) (id : SymbolId) {ids : List SymbolId}
    (hids : ∀ i ∈ ids, i < arena.size) : (Arena.setParams arena id ids).Closed := by
  intro symbol hsymbol i hi
  rw [size_setParams]
  obtain ⟨j, hj⟩ := Array.mem_iff_getElem?.mp hsymbol
  rw [Arena.setParams, Array.getElem?_modify] at hj
  split at hj
  · obtain ⟨old, -, rfl⟩ := Option.map_eq_some_iff.mp hj
    exact hids i hi
  · exact h symbol (Array.mem_iff_getElem?.mpr ⟨j, hj⟩) i hi

lemma exists_find {id : SymbolId} (h : id < arena.size) : ∃ symbol, arena.find id = .ok symbol :=
  ⟨_, Arena.find_eq_ok_iff.mpr (Array.getElem?_eq_getElem h)⟩

end Arena

namespace Resolver.Bound

lemma enter (h : s.Bound) : Resolver.Bound { s with scopes := s.scopes.enter } := by
  intro sc hsc b hb
  rcases List.mem_cons.mp hsc with rfl | hsc
  · simp at hb
  · exact h sc hsc b hb

lemma exit (h : s.Bound) : Resolver.Bound { s with scopes := s.scopes.exit } :=
  fun sc hsc => h sc (List.mem_of_mem_tail hsc)

/-- A new symbol may be bound. -/
lemma declare (h : s.Bound) (x : String) (symbol : Symbol) : Resolver.Bound { s with
    arena := s.arena.push symbol
    scopes := s.scopes.bind x s.arena.size } := by
  intro sc hsc b hb
  have hold : ∀ sc ∈ s.scopes.scopes, ∀ b ∈ sc.bindings, b.symbol < s.arena.size + 1 :=
    fun sc hsc b hb => Nat.lt_succ_of_lt (h sc hsc b hb)
  simp only [Array.size_push]
  simp only [ScopeStack.bind] at hsc
  cases hscopes : s.scopes.scopes with
  | nil =>
    simp only [hscopes] at hsc
    exact hold sc (hscopes ▸ hsc) b hb
  | cons inner outer =>
    simp only [hscopes] at hsc
    rw [hscopes] at hold
    rcases List.mem_cons.mp hsc with rfl | hsc
    · rcases Scope.of_mem_bindings_insert hb with hb | rfl
      · exact hold inner (List.mem_cons_self ..) b hb
      · exact Nat.lt_succ_self _
    · exact hold sc (List.mem_cons_of_mem _ hsc) b hb

lemma lookup (h : s.Bound) {x : String} {id : SymbolId} (hid : s.scopes.lookup x = some id) :
    id < s.arena.size := by
  obtain ⟨sc, hsc, hfind⟩ := List.exists_of_findSome?_eq_some hid
  exact h sc hsc _ (Scope.mem_bindings_of_find? hfind)

end Resolver.Bound

namespace Resolver.Closed

/-- Nothing is known before a program is resolved. -/
lemma initial : Resolver.Closed { arena := #[], scopes := {} } := ⟨nofun, Arena.closed_empty⟩

lemma enter (h : s.Closed) : Resolver.Closed { s with scopes := s.scopes.enter } :=
  ⟨h.bound.enter, h.params⟩

lemma exit (h : s.Closed) : Resolver.Closed { s with scopes := s.scopes.exit } :=
  ⟨h.bound.exit, h.params⟩

/-- A new symbol without parameters may be bound. -/
lemma declare (h : s.Closed) (x : String) {symbol : Symbol} (hparams : symbol.params = []) :
    Resolver.Closed { s with
      arena := s.arena.push symbol
      scopes := s.scopes.bind x s.arena.size } :=
  ⟨h.bound.declare x symbol, h.params.push hparams⟩

lemma lookup (h : s.Closed) {x : String} {id : SymbolId} (hid : s.scopes.lookup x = some id) :
    id < s.arena.size := h.bound.lookup hid

end Resolver.Closed

/-! ### Steps of the walk -/

namespace Resolve

/-- The walk ends in a closed state that has all symbols there were, and `Q` holds of its result and
the number of symbols. -/
def Ends (act : Resolve α) (s : Resolver) (Q : α → ℕ → Prop) : Prop :=
  ∃ a t, act s = .ok (a, t) ∧ t.Closed ∧ s.arena.size ≤ t.arena.size ∧ Q a t.arena.size

/-- From a closed state the walk ends in one. -/
def Safe (act : Resolve α) : Prop := ∀ s, s.Closed → act.Ends s fun _ _ => True

variable {act : Resolve α} {f : α → Resolve β} {Q : α → ℕ → Prop} {Q' : β → ℕ → Prop}

lemma Ends.bind (h : act.Ends s Q) (hf : ∀ a t, t.Closed → s.arena.size ≤ t.arena.size →
    Q a t.arena.size → (f a).Ends t Q') : (act >>= f).Ends s Q' := by
  obtain ⟨a, t, hact, ht, hsize, ha⟩ := h
  obtain ⟨b, u, hb, hu, hsize', hQ⟩ := hf a t ht hsize ha
  exact ⟨b, u, run_bind.mpr ⟨a, t, hact, hb⟩, hu, Nat.le_trans hsize hsize', hQ⟩

lemma Ends.mono {R : α → ℕ → Prop} (h : act.Ends s Q) (hR : ∀ a n, Q a n → R a n) :
    act.Ends s R := by
  obtain ⟨a, t, hact, ht, hsize, ha⟩ := h
  exact ⟨a, t, hact, ht, hsize, hR _ _ ha⟩

lemma ends_pure {a : α} (hs : s.Closed) (h : Q a s.arena.size) :
    (pure a : Resolve α).Ends s Q := ⟨a, s, rfl, hs, Nat.le_refl _, h⟩

lemma ends_get_bind {f : Resolver → Resolve β} (h : (f s).Ends s Q') : (get >>= f).Ends s Q' := h

/-- What is in the arena is found. -/
lemma ends_find_bind {f : Symbol → Resolve β} {id : SymbolId} (hid : id < s.arena.size)
    (h : ∀ symbol, (f symbol).Ends s Q') :
    ((liftM (Arena.find s.arena id) : Resolve Symbol) >>= f).Ends s Q' := by
  obtain ⟨symbol, hfind⟩ := Arena.exists_find hid
  obtain ⟨b, t, hb, ht⟩ := h symbol
  exact ⟨b, t, run_lift_bind.mpr ⟨symbol, hfind, hb⟩, ht⟩

lemma Ends.unlessHalted {a : α} (hs : s.Closed) (ha : Q a s.arena.size) (h : act.Ends s Q) :
    (unlessHalted opts a act).Ends s Q := by
  by_cases hhalts : opts.halts s.errors
  · refine ⟨a, s, ?_, hs, Nat.le_refl _, ha⟩
    rw [Resolve.unlessHalted, if_pos hhalts]
  · obtain ⟨b, t, hact, ht⟩ := h
    refine ⟨b, t, ?_, ht⟩
    rw [Resolve.unlessHalted, if_neg hhalts, hact]

lemma Ends.inScope (hs : s.Closed) (h : ∀ t, t.Closed → t.arena = s.arena → act.Ends t Q) :
    (inScope act).Ends s Q := by
  obtain ⟨a, t, hact, ht, hsize, ha⟩ := h _ hs.enter rfl
  exact ⟨a, _, run_inScope.mpr ⟨t, hact, rfl⟩, ht.exit, hsize, ha⟩

namespace Safe

lemma bind (h : act.Safe) (hf : ∀ a, (f a).Safe) : (act >>= f).Safe := by
  intro s hs
  refine (h s hs).bind fun a t ht _ _ => ?_
  exact hf a t ht

lemma pure (a : α) : (Pure.pure a : Resolve α).Safe := fun _ hs => ends_pure hs trivial

/-- A step that concerns neither the symbols nor the scopes. -/
lemma modify {f : Resolver → Resolver} (harena : ∀ s, (f s).arena = s.arena)
    (hscopes : ∀ s, (f s).scopes = s.scopes) : Resolve.Safe (modify f) := by
  intro s hs
  refine ⟨⟨⟩, f s, rfl, ⟨?_, ?_⟩, ?_, trivial⟩
  · rw [Resolver.Bound, harena, hscopes]
    exact hs.bound
  · rw [harena]
    exact hs.params
  · rw [harena]

lemma report (d : Diagnostic) : (report opts d).Safe := modify (fun _ => rfl) fun _ => rfl

lemma unlessHalted {a : α} (h : act.Safe) : (unlessHalted opts a act).Safe :=
  fun s hs => .unlessHalted hs trivial (h s hs)

lemma inScope (h : act.Safe) : (inScope act).Safe := fun _ hs => .inScope hs fun t ht _ => h t ht

lemma placeVariable (x : Ident) (ty : Ty) : (placeVariable opts x ty).Safe := by
  intro s hs
  refine ends_get_bind ?_
  dsimp only
  split
  · refine (modify (fun s => ?_) fun s => ?_).bind (fun _ => pure _) s hs
    · rw [Resolver.setUsed]
      split <;> rfl
    · rw [Resolver.setUsed]
      split <;> rfl
  · exact (report _).bind (fun _ => pure _) s hs

lemma placeParameter (x : Ident) (ty : Ty) : (placeParameter opts x ty).Safe := by
  intro s hs
  refine ends_get_bind ?_
  dsimp only
  split
  · refine (modify ?_ ?_).bind (fun _ => pure _) s hs <;> exact fun _ => rfl
  · exact (report _).bind (fun _ => pure _) s hs

end Safe

/-- What is bound is in the arena from then on. -/
lemma ends_bind (hs : s.Closed) (x : Ident) {symbol : Symbol} (hparams : symbol.params = []) :
    (Resolve.bind opts x symbol).Ends s fun r n => ∀ id ∈ r.2, id < n := by
  refine ends_get_bind ?_
  dsimp only
  split
  · exact (Safe.report _ s hs).bind fun _ t ht _ _ => ends_pure ht nofun
  · refine ⟨({ x with symbol := some s.arena.size }, some s.arena.size), _, rfl,
      hs.declare x.name hparams, ?_, ?_⟩
    · simp
    · rintro id ⟨⟩
      simp

lemma ends_setParams {id : Option SymbolId} {ids : List SymbolId} (hs : s.Closed)
    (hid : ∀ i ∈ id, i < s.arena.size) (hids : ∀ i ∈ ids, i < s.arena.size) :
    (setParams id ids).Ends s fun _ _ => True := by
  cases id with
  | none => exact ends_pure hs trivial
  | some i =>
    refine ends_get_bind (ends_find_bind (hid i rfl) fun _ => ?_)
    refine ⟨(), _, rfl, ⟨?_, hs.params.setParams i hids⟩, ?_, trivial⟩
    · simpa [Resolver.Bound] using hs.bound
    · simp

end Resolve

/-! ### The walk -/

lemma Ident.safe_resolve (x : Ident) : (x.resolve opts).Safe := by
  intro s hs
  refine Resolve.ends_get_bind ?_
  cases hlookup : s.scopes.lookup x.name with
  | none => exact (Resolve.Safe.report _).bind (fun _ => .pure _) s hs
  | some id =>
    refine Resolve.ends_get_bind (Resolve.ends_find_bind (hs.lookup hlookup) fun symbol => ?_)
    split
    · exact (Resolve.Safe.report _).bind (fun _ => .pure _) s hs
    · exact Resolve.ends_pure hs trivial

lemma Ident.safe_resolveCalled (f : Ident) : (f.resolveCalled opts).Safe := by
  rw [resolveCalled]
  split
  · exact .pure f
  · exact f.safe_resolve

/-- Here nothing is said of a second walk. -/
lemma Resolve.ExprRules.safe (opts : Options) :
    ExprRules (fun {α} (_ : α → α → Prop) act _ => act.Safe) opts opts {} {} {} where
  pure _ := Safe.pure _
  bind h hf := h.bind fun a => hf a a
  unlessHalted h _ := Safe.unlessHalted h
  used x := x.safe_resolve
  called f := f.safe_resolveCalled

lemma Expr.safe_resolve (e : Expr) : (e.resolve opts).Safe :=
  e.holds_resolve (.safe opts)

lemma Expr.safe_resolveOption (e : Option Expr) : (Expr.resolveOption opts e).Safe :=
  Expr.holds_resolveOption (.safe opts) e

lemma Var.safe_resolve (v : Var) : (v.resolve opts).Safe := by
  rw [Var.resolve]
  split
  · exact (Resolve.Safe.report _).bind fun _ => .pure _
  · intro s hs
    refine Resolve.ends_get_bind ((Resolve.Safe.placeVariable _ _ s hs).bind fun _ t ht _ _ => ?_)
    refine (Expr.safe_resolveOption v.value t ht).bind fun value u hu _ _ => ?_
    exact (Resolve.ends_bind hu v.name rfl).bind fun _ w hw _ _ => Resolve.ends_pure hw trivial

/-- The id of a parameter is that of its symbol. -/
lemma Param.ends_resolve (hs : s.Closed) (p : Param) :
    (p.resolve opts).Ends s fun r n => ∀ id ∈ r.2, id < n := by
  refine .unlessHalted hs nofun ?_
  split
  · exact (Resolve.Safe.report _ s hs).bind fun _ t ht _ _ => Resolve.ends_pure ht nofun
  · refine (Resolve.Safe.placeParameter _ _ s hs).bind fun _ t ht _ _ => ?_
    refine (Expr.safe_resolveOption p.fallback t ht).bind fun fallback u hu _ _ => ?_
    exact (Resolve.ends_bind hu p.name rfl).bind fun r w hw _ hid => Resolve.ends_pure hw hid

lemma Param.ends_resolveAll : (ps : List Param) → ∀ {s : Resolver}, s.Closed →
    (Param.resolveAll opts ps).Ends s fun r n => ∀ id ∈ r.2, id < n
  | [], _, hs => Resolve.ends_pure hs nofun
  | p :: rest, _, hs => by
    refine (Param.ends_resolve hs p).bind fun r t ht _ hid => ?_
    refine (Param.ends_resolveAll rest ht).bind fun rs u hu hsize hids => ?_
    refine Resolve.ends_pure hu fun i hi => ?_
    rcases List.mem_append.mp hi with hi | hi
    · exact Nat.lt_of_lt_of_le (hid i (Option.mem_toList.mp hi)) hsize
    · exact hids i hi

/-- The parameters and the body of a function. -/
lemma FunDecl.ends_inside (hs : s.Closed) (params : List Param) {body : List Stmt}
    (hbody : (Stmt.resolveAll opts body).Safe) :
    (Resolve.inScope (FunDecl.resolveInside opts params body)).Ends s
      fun r n => ∀ id ∈ r.2.1, id < n := by
  refine .inScope hs fun t ht _ => ?_
  refine (Param.ends_resolveAll params ht).bind fun ps u hu _ hids => ?_
  refine (hbody u hu).bind fun body v hv hsize _ => ?_
  exact Resolve.ends_pure hv fun i hi => Nat.lt_of_lt_of_le (hids i hi) hsize

lemma FunDecl.safe_resolve_of_body (f : FunDecl) (hbody : (Stmt.resolveAll opts f.body).Safe) :
    (f.resolve opts).Safe := by
  obtain ⟨name, params, returns, body, variableSize, parameterSize⟩ := f
  have hframe : ∀ f, (modify fun s : Resolver => { s with frame := f } : Resolve Unit).Safe :=
    fun _ => .modify (fun _ => rfl) fun _ => rfl
  rw [FunDecl.resolve]
  intro s hs
  refine Resolve.ends_get_bind ?_
  split
  · exact (Resolve.Safe.report _).bind (fun _ => .pure _) s hs
  · refine (Resolve.ends_bind hs name rfl).bind fun r t ht _ hid => ?_
    refine (hframe _ t ht).bind fun _ u hu hu' _ => ?_
    refine (FunDecl.ends_inside hu params hbody).bind fun ps v hv hv' hids => ?_
    refine Resolve.ends_get_bind ((hframe _ v hv).bind fun _ w hw hw' _ => ?_)
    -- the function's own symbol is older than those of its parameters, and all of them are there
    have hid' : ∀ i ∈ r.2, i < w.arena.size := fun i hi =>
      Nat.lt_of_lt_of_le (hid i hi) (Nat.le_trans hu' (Nat.le_trans hv' hw'))
    have hids' : ∀ i ∈ ps.2.1, i < w.arena.size := fun i hi => Nat.lt_of_lt_of_le (hids i hi) hw'
    refine (Resolve.ends_setParams hw hid' hids').bind fun _ w' hw' _ _ => ?_
    exact Resolve.ends_pure hw' trivial

lemma Resolve.Rules.safe (opts : Options) :
    Rules (fun {α} (_ : α → α → Prop) act _ => act.Safe) opts opts {} {} {} where
  toExprRules := .safe opts
  inScope h := Safe.inScope h
  var v := v.safe_resolve
  function f hbody := f.safe_resolve_of_body hbody

/-! ### Checking -/

namespace Check

variable {E : α → α → Prop} {E' : β → β → Prop}

/-- The check comes to an end, whatever was reported before, with a result that `E` relates to
something. -/
def Ends (E : α → α → Prop) (act : Check α) : Prop :=
  ∀ es, ∃ a fs, act es = .ok (a, fs) ∧ ∃ b, E a b

namespace Ends

lemma bind {act : Check α} {f : α → Check β} (h : act.Ends E)
    (hf : ∀ a b, E a b → (f a).Ends E') : (act >>= f).Ends E' := by
  intro es
  obtain ⟨a, fs, ha, b, hab⟩ := h es
  obtain ⟨c, gs, hc, hE'⟩ := hf a b hab fs
  exact ⟨c, gs, run_bind.mpr ⟨a, fs, ha, hc⟩, hE'⟩

lemma unlessHalted {act : Check Unit} (h : act.Ends fun _ _ => True) :
    (unlessHalted opts act).Ends fun _ _ => True := by
  intro es
  rw [Check.unlessHalted]
  split
  · exact ⟨(), es, rfl, (), trivial⟩
  · exact h es

lemma find {id : SymbolId} {symbol : Symbol} (hid : arena[id]? = some symbol)
    {E : Symbol → Symbol → Prop} (h : E symbol symbol) :
    (liftM (Arena.find arena id) : Check Symbol).Ends E := by
  intro es
  rw [Arena.find_eq_ok_iff.mpr hid]
  exact ⟨symbol, es, rfl, symbol, h⟩

end Ends

/-- What is in a closed arena is found, with its parameters. -/
lemma Rules.ends {ctx : CheckContext} (hclosed : ctx.arena.Closed) :
    Rules (fun E act _ => act.Ends E) ctx ctx (· < ctx.arena.size) Eq Eq {} where
  types := .eq
  leaves := .refl (fun _ => rfl) fun _ => rfl
  pure {_ _ a b} h es := ⟨a, es, rfl, b, h⟩
  bind h hf := h.bind hf
  report _ _ := ⟨(), _, rfl, (), trivial⟩
  unlessHalted h := Ends.unlessHalted h
  find {id} hid := by
    have hsymbol := Array.getElem?_eq_getElem hid
    exact .find hsymbol ⟨rfl, rfl, rfl, hclosed _ (Array.mem_of_getElem? hsymbol)⟩

end Check

/-! ### Code generation -/

/-- Code that does not stop at a missing symbol. -/
def lookupTerms : Terms where
  line _ := True
  stop e := ∃ error, e = .error error
  plain _ _ := trivial
  runtime _ _ := trivial
  error e := ⟨e, rfl⟩

/-- The names in the code of an accepted program have symbols. -/
lemma Program.Accepted.permits_lookups {p : Program} (h : p.Accepted arena) : ∀ f ∈ p.functions,
    lookupTerms.Permits arena (f.generated p.globals) (f.initialized p.globals) := by
  intro f hf
  refine ⟨fun e he => ⟨fun x hx id hid hnone => ?_, fun _ _ _ => trivial⟩,
    fun v hv => ⟨fun x hx id hid hnone => ?_, fun _ _ _ => trivial⟩⟩
  · obtain ⟨id', symbol, hground⟩ := (h.exprs f hf e he).grounded x hx
    obtain rfl := Option.some.inj (hid.symm.trans hground.symbol_eq)
    exact nomatch hnone.symm.trans hground.at_id
  · obtain rfl := List.mem_singleton.mp hx
    obtain ⟨_, id', symbol, -, hdeclared⟩ := h.vars f hf v hv
    obtain rfl := Option.some.inj (hid.symm.trans hdeclared.symbol_eq)
    exact nomatch hnone.symm.trans hdeclared.at_id

lemma Session.exists_emit {s : Session} {p : Program} (h : p.Accepted s.arena) (room : Option ℕ) :
    ∃ out, s.emit room p = .ok out := by
  have hstop := (Program.meets_lower h.permits_lookups
    { labels := s.labels, bank := s.bank }).2
  rw [emit]
  split
  · exact ⟨_, rfl⟩
  · split
    · exact ⟨_, rfl⟩
    · exact ⟨_, rfl⟩
    · next d hd =>
      obtain ⟨_, hne⟩ := hstop _ hd
      cases hne

/-! ### Sessions -/

/-- A name that is used or declared along a trace has its symbol in the end. -/
lemma Trace.exists_symbol {es : List Event} {x : Ident} (h : Trace opts .start es t)
    (hx : .use x ∈ es ∨ ∃ kind ty, .declare x kind ty ∈ es) :
    ∃ id, x.symbol = some id ∧ id < t.arena.size := by
  rcases hx with hx | ⟨kind, ty, hx⟩
  · obtain ⟨_, _, u, v, -, -, ⟨⟨id, symbol, hid, -, hsymbol, -⟩, rfl⟩, hpost⟩ := h.mem hx
    obtain ⟨_, hfinal⟩ := hpost.grows id symbol hsymbol
    exact ⟨id, hid, Arena.lt_size hfinal⟩
  · obtain ⟨_, _, u, v, -, -, ⟨_, _, _, -, hid, -, rfl⟩, hpost⟩ := h.mem hx
    obtain ⟨_, hfinal⟩ := hpost.grows u.arena.size _ Array.getElem?_push_size
    exact ⟨_, hid, Arena.lt_size hfinal⟩

namespace Session

variable {a : Analysis}

lemma exists_resolve (s : Session) (p : Program) :
    ∃ a, s.reset.resolve p = .ok a ∧ a.session.arena.Closed := by
  have hsafe : (p.resolve s.options).Safe := p.holds_resolve (.safe s.options)
  obtain ⟨p', t, hrun, ht, -⟩ := hsafe _ .initial
  exact ⟨_, bind_eq_ok.mpr ⟨(p', t), hrun, rfl⟩, ht.params⟩

lemma trace_of_resolve {s : Session} {p : Program} (h : s.reset.resolve p = .ok a)
    (ha : a.errors = []) :
    ∃ t, Trace s.options .start a.program.events t ∧ a.session.arena = t.arena := by
  obtain ⟨t, hresolve, ht, hsession⟩ := resolve_eq_ok h
  obtain ⟨u, hwalk, rfl, -⟩ := Program.run_resolve hresolve (ht.symm.trans ha)
  exact ⟨u, hwalk.trace, by rw [hsession]⟩

/-- The analysis of a program that is resolved ends with its check. -/
lemma check_of_analyze {s : Session} {p : Program} {a' : Analysis}
    (hresolve : s.reset.resolve p = .ok a) (ha : a.errors = []) (h : s.analyze p = .ok a') :
    a.session.check a.program = .ok a'.errors ∧ a'.program = a.program ∧
      a'.session = a.session := by
  obtain ⟨b, hb, h⟩ := bind_eq_ok.mp h
  obtain rfl := Except.ok.inj (hb.symm.trans hresolve)
  rw [if_pos (List.isEmpty_iff.mpr ha)] at h
  obtain ⟨errors, hcheck, h⟩ := bind_eq_ok.mp h
  obtain rfl := Except.ok.inj h
  exact ⟨hcheck, rfl, rfl⟩

/-- A program that is not resolved is not checked. -/
lemma analyze_of_reports {s : Session} {p : Program} (h : s.reset.resolve p = .ok a)
    (ha : a.errors ≠ []) : s.analyze p = .ok a := by
  refine bind_eq_ok.mpr ⟨a, h, ?_⟩
  rw [if_neg (by simpa using ha)]
  rfl

/-- A program that is not accepted has no code. -/
lemma compile_of_reports {s : Session} {p : Program} (h : s.analyze p = .ok a) (ha : a.errors ≠ [])
    (room : Option ℕ) : s.compile room p =
      .ok ⟨a.session, a.program, ByteArray.empty, some (.semantic a.errors)⟩ := by
  refine bind_eq_ok.mpr ⟨a, h, ?_⟩
  rw [if_neg (by simpa using ha)]
  rfl

/-- Analysis always comes to an end. -/
lemma exists_analyze (s : Session) (p : Program) : ∃ a, s.analyze p = .ok a := by
  obtain ⟨a, hresolve, hclosed⟩ := s.exists_resolve p
  by_cases ha : a.errors = []
  · obtain ⟨t, htrace, harena⟩ := trace_of_resolve hresolve ha
    have huses : AllKnown (· < a.session.arena.size) a.program.events := by
      intro x hx id hid
      obtain ⟨id', hid', hlt⟩ := htrace.exists_symbol (.inl hx)
      obtain rfl := Option.some.inj (hid.symm.trans hid')
      rwa [harena]
    have hends : (a.program.check ⟨a.session.options, a.session.arena⟩).Ends fun _ _ => True :=
      Program.holds_check (.ends hclosed) _ huses
    obtain ⟨_, errors, hcheck, -⟩ := hends []
    exact ⟨_, analyze_of_resolve hresolve ha (bind_eq_ok.mpr ⟨_, hcheck, rfl⟩)⟩
  · exact ⟨a, analyze_of_reports hresolve ha⟩

/-- So does compilation. -/
lemma exists_compile (s : Session) (room : Option ℕ) (p : Program) :
    ∃ c, s.compile room p = .ok c := by
  obtain ⟨a, hanalyze⟩ := s.exists_analyze p
  by_cases ha : a.errors = []
  · obtain ⟨out, hemit⟩ := exists_emit (accepted hanalyze ha) room
    exact ⟨_, compile_of_emit hanalyze ha hemit⟩
  · exact ⟨_, compile_of_reports hanalyze ha room⟩

/-- **Every look-up succeeds**: whatever ids the names of a program come with and whatever the
session was used for, analysis and compilation look up only ids that are in the arena. They start
from a closed state, and from a closed state each part of the walk leads to a closed state, so the
scopes and the parameters of functions only ever hold ids that were declared by then. If names are
resolved without a report, then what checking and code generation look up are ids in the arena. -/
theorem lookups_succeed (s : Session) (p : Program) :
    (∃ a, s.analyze p = .ok a) ∧ (∀ room, ∃ c, s.compile room p = .ok c) ∧
    (Resolver.Closed { arena := s.reset.arena, scopes := s.reset.scopes } ∧
      ∀ opts, (∀ x : Ident, (x.resolve opts).Safe) ∧ (∀ e : Expr, (e.resolve opts).Safe) ∧
        (∀ v : Var, (v.resolve opts).Safe) ∧ (∀ q : Param, (q.resolve opts).Safe) ∧
        (∀ st : Stmt, (st.resolve opts).Safe) ∧ (∀ b : Branch, (b.resolve opts).Safe) ∧
        (∀ tail : Tail, (tail.resolve opts).Safe) ∧ (∀ d : Decl, (d.resolve opts).Safe) ∧
        (∀ f : FunDecl, (f.resolve opts).Safe)) ∧
    ∃ a, s.reset.resolve p = .ok a ∧ a.session.arena.Closed ∧ (a.errors = [] →
      (∀ x, .use x ∈ a.program.events → ∃ id, x.symbol = some id ∧ id < a.session.arena.size) ∧
      ∀ f x, (f, x) ∈ a.program.accesses →
        ∃ id, x.symbol = some id ∧ id < a.session.arena.size) := by
  have hparam : ∀ opts, ∀ q : Param, (q.resolve opts).Safe :=
    fun opts q _ hs => (q.ends_resolve hs).mono fun _ _ _ => trivial
  have hrules := Resolve.Rules.safe
  refine ⟨s.exists_analyze p, fun room => s.exists_compile room p, ⟨.initial, fun opts =>
    ⟨Ident.safe_resolve, Expr.safe_resolve, Var.safe_resolve, hparam opts,
      Stmt.holds_resolve (hrules opts), Branch.holds_resolve (hrules opts),
      Tail.holds_resolve (hrules opts), Decl.holds_resolve (hrules opts),
      FunDecl.holds_resolve (hrules opts)⟩⟩, ?_⟩
  obtain ⟨a, hresolve, hclosed⟩ := s.exists_resolve p
  refine ⟨a, hresolve, hclosed, fun ha => ?_⟩
  obtain ⟨t, htrace, harena⟩ := trace_of_resolve hresolve ha
  rw [harena]
  refine ⟨fun x hx => htrace.exists_symbol (.inl hx), fun f x hx => ?_⟩
  obtain ⟨-, id, symbol, hid, hsymbol, -⟩ := htrace.access hx
  exact ⟨id, hid, Arena.lt_size hsymbol⟩

/-- Checking on its own takes the ids as they are, and here there is no such symbol. -/
example : ({} : Session).check [.globalVar ⟨⟨"x", 0, none⟩, .int, some (.name ⟨"y", 0, some 7⟩)⟩] =
    .error ⟨7⟩ := rfl

end Session

end TreeCompiler

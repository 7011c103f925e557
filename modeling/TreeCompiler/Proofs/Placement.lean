import TreeCompiler.Proofs.Accesses
import TreeCompiler.Proofs.WellFormed

/-!
Where the variables of a function lie.

A function takes its storage piece by piece: what is declared before a variable tells where it lies,
and what is declared behind it lies elsewhere. A name in the code of a function stands for a
variable that the function declares itself, or for a global.
-/

namespace TreeCompiler

variable {opts : Options} {s t : Resolver} {es pre post : List Event} {f : FunDecl}

/-! ### Positions -/

/-- Inside of a function its frame has the bytes that were declared so far. -/
lemma Trace.taken (h : Trace opts s es t) (hinner : ∀ e ∈ es, e.Inner) (hs : s.frame = some {}) :
    t.frame = some ⟨storage .localVar es, storage .param es⟩ := by
  have hrun : t.frame = (s.tally.run es).frame := congrArg Tally.frame h.tally.1
  have htally : s.tally.frame = some {} := hs
  rw [hrun, Tally.frame_run hinner htally, Nat.zero_add, Nat.zero_add]

/-- The position of a variable in front of which its kind has taken that many bytes. -/
def SymbolKind.position (ty : Ty) (taken : ℕ) : SymbolKind → ℕ
  | .function => 0
  | .param => taken
  | .localVar | .globalVar => taken + ty.bytes

/-- A variable of a function has the bytes behind those that were declared before it. -/
lemma Trace.placed {x : Ident} {kind : SymbolKind} {ty : Ty} (h : Trace opts s f.events t)
    (hs : s.Sound) (hflat : f.Flat) (hinner : f.inner = pre ++ .declare x kind ty :: post) :
    (kind = .localVar ∨ kind = .param) ∧ ∃ id params, x.symbol = some id ∧ t.arena[id]? =
      some ⟨x.name, kind, ty, ty.bytes, kind.position ty (storage kind pre), params⟩ := by
  obtain ⟨u, v, -, hframe, htrace, -, hgrows⟩ := h.function hs
  rw [hinner] at htrace
  obtain ⟨w, hpre, w', ⟨size, position, r, hreserves, hid, -, rfl⟩, hpost⟩ := trace_append.mp htrace
  have htaken := hpre.taken (fun e he => hflat e (by simp [hinner, he])) hframe
  obtain ⟨params, hparams⟩ := (hpost.grows.trans hgrows) _ _ Array.getElem?_push_size
  cases kind with
  | function =>
    have hself := hflat (.declare x .function ty) (by simp [hinner])
    exact hself.elim
  | globalVar =>
    rw [hreserves.1] at htaken
    cases htaken
  | localVar =>
    obtain ⟨g, _, hg, -, -, hsize, hend, -⟩ := hreserves
    obtain rfl := Option.some.inj (hg.symm.trans htaken)
    obtain ⟨rfl, -⟩ := storageEnd?_eq_some_iff.mp hend
    obtain ⟨-, rfl⟩ := Ty.size?_eq hsize
    exact ⟨.inl rfl, _, params, hid, hparams⟩
  | param =>
    obtain ⟨g, _, _, hg, -, -, hsize, -, rfl, -⟩ := hreserves
    obtain rfl := Option.some.inj (hg.symm.trans htaken)
    obtain ⟨-, rfl⟩ := Ty.size?_eq hsize
    exact ⟨.inr rfl, _, params, hid, hparams⟩

/-- A function ends up with the bytes of all that it declares. -/
lemma Trace.frame_eq (h : Trace opts s f.events t) (hs : s.Sound) (hflat : f.Flat) :
    f.variableSize = storage .localVar f.inner ∧ f.parameterSize = storage .param f.inner := by
  obtain ⟨u, v, -, hframe, htrace, hend, -⟩ := h.function hs
  exact Frame.mk.inj (Option.some.inj (hend.symm.trans (htrace.taken hflat hframe)))

/-- The parameters of a function are declared in order, and take a word each. -/
lemma FunDecl.exists_param {y : Ident} {ty : Ty} (hflat : f.Flat)
    (hinner : f.inner = pre ++ .declare y .param ty :: post) :
    ∃ i q, f.params[i]? = some q ∧ q.name = y ∧ q.ty = ty ∧ storage .param pre = wordSize * i := by
  have hdeclared : f.params.map Param.declaration ++
      (Stmt.varsAll f.body).map (Var.declaration .localVar) =
        declarations pre ++ (y, .param, ty) :: declarations post := by
    rw [← FunDecl.declarations_inner hflat, hinner, declarations_append]
    rfl
  have hvar : (y, .param, ty) ∉ (Stmt.varsAll f.body).map (Var.declaration .localVar) := by
    simp [Var.declaration]
  rcases List.append_eq_append_iff.mp hdeclared with ⟨mid, hmid, hrest⟩ | ⟨mid, hmid, hrest⟩
  · exact absurd (by rw [hrest]; simp) hvar
  · cases mid with
    | nil =>
      rw [List.nil_append] at hrest
      exact absurd (by rw [← hrest]; simp) hvar
    | cons d mid =>
      obtain ⟨rfl, -⟩ := List.cons.inj hrest
      obtain ⟨ps, qs, hparams, hpre, hqs⟩ := List.map_eq_append_iff.mp hmid
      obtain ⟨q, qs, rfl, hq, -⟩ := List.map_eq_cons_iff.mp hqs
      obtain ⟨hname, hkind⟩ := Prod.mk.inj hq
      refine ⟨ps.length, q, by simp [hparams], hname, (Prod.mk.inj hkind).2, ?_⟩
      rw [storage, ← hpre]
      simp [Function.comp_def, Param.declaration, SymbolKind.bytes, Nat.mul_comm]

/-! ### Names -/

/-- The symbol is that of a variable which the function declares. -/
def FunDecl.Declares (f : FunDecl) (id : SymbolId) : Prop :=
  ∃ y kind ty, .declare y kind ty ∈ f.inner ∧ y.symbol = some id

/-- New ids are those of declarations. -/
lemma Trace.exists_declare {id : SymbolId} (h : Trace opts s es t) (hid : s.arena.size ≤ id)
    (hlt : id < t.arena.size) : ∃ y kind ty, .declare y kind ty ∈ es ∧ y.symbol = some id := by
  obtain ⟨hids, hsymbols⟩ := h.symbols
  have hlength : t.arena.size = s.arena.size + (declarations es).length := by
    simpa [signatures] using congrArg List.length hsymbols
  have hmem : some id ∈ (declarations es).map (·.1.symbol) := by
    rw [hids]
    exact List.mem_map_of_mem (List.mem_range'_1.mpr ⟨hid, hlength ▸ hlt⟩)
  obtain ⟨⟨y, kind, ty⟩, hy, hsymbol⟩ := List.mem_map.mp hmem
  obtain ⟨e, he, hdeclared⟩ := List.mem_filterMap.mp hy
  cases e with
  | declare x k ty' =>
    obtain ⟨rfl, rfl, rfl⟩ : x = y ∧ k = kind ∧ ty' = ty := by
      simpa [Event.declared?] using hdeclared
    exact ⟨x, k, ty', he, hsymbol⟩
  | enter | exit | use | finish => cases hdeclared

/-- Locals and parameters are bound in inner scopes only. -/
lemma Symbol.Fits.level_pos {symbol : Symbol} {frame : Option Frame} {level : ℕ}
    (h : symbol.Fits frame level) (hkind : symbol.kind = .localVar ∨ symbol.kind = .param) :
    0 < level := by
  rcases hkind with hkind | hkind <;> simp only [Symbol.Fits, hkind] at h
  · exact h.1
  · exact h

/-- A scope behind the start of a new one is that one, or it was there before. -/
lemma Resolver.Sound.mem_enter {sc : Scope} (hs : s.Sound) (hsc : sc ∈ s.scopes.enter.scopes) :
    (∃ n, sc = Scope.empty (n + 1)) ∨ sc ∈ s.scopes.scopes := by
  obtain ⟨n, -, hlevel⟩ := hs.level?
  rw [ScopeStack.enter, hlevel] at hsc
  exact (List.mem_cons.mp hsc).imp (fun h => ⟨n, h⟩) id

/-- A scope behind a binding is the innermost one with the binding, or it lies outside of that. -/
lemma Resolver.Sound.mem_bind {sc : Scope} {x : String} {id : SymbolId} (hs : s.Sound)
    (hsc : sc ∈ (s.scopes.bind x id).scopes) : ∃ inner ∈ s.scopes.scopes,
      s.scopes.level? = some inner.level ∧ s.scopes.lookupCurrent x = inner.find? x ∧
      (sc = inner.insert x id ∨ (sc ∈ s.scopes.scopes ∧ sc.level < inner.level)) := by
  obtain ⟨inner, outer, hscopes, hlevel, houter⟩ := hs.innermost
  refine ⟨inner, by simp [hscopes], hlevel, by rw [ScopeStack.lookupCurrent, hscopes]; rfl, ?_⟩
  rw [ScopeStack.bind, hscopes] at hsc
  rcases List.mem_cons.mp hsc with rfl | hsc
  · exact .inl rfl
  · exact .inr ⟨by simp [hscopes, hsc], houter sc hsc⟩

/-- What the scopes inside of the outermost one bind are symbols from `base` on. -/
structure Resolver.InnerFrom (base : ℕ) (s : Resolver) : Prop where
  base_le : base ≤ s.arena.size
  bound : ∀ sc ∈ s.scopes.scopes, 0 < sc.level → ∀ (x : String) (id : SymbolId),
    sc.find? x = some id → base ≤ id

/-- **Step**: every event preserves that. -/
lemma Event.Step.innerFrom {e : Event} {base : ℕ} (h : e.Step opts s t) (hs : s.Sound)
    (hinner : s.InnerFrom base) : t.InnerFrom base := by
  cases e with
  | enter =>
    obtain rfl := h
    refine ⟨hinner.base_le, fun sc hsc hpos x id hx => ?_⟩
    rcases hs.mem_enter hsc with ⟨n, rfl⟩ | hsc
    · simp at hx
    · exact hinner.bound sc hsc hpos x id hx
  | exit =>
    obtain ⟨-, rfl⟩ := h
    exact ⟨hinner.base_le, fun sc hsc => hinner.bound sc (List.mem_of_mem_tail hsc)⟩
  | use x =>
    obtain ⟨-, rfl⟩ := h
    exact hinner
  | finish g params frame =>
    obtain ⟨id, ids, -, -, -, -, rfl⟩ := h
    exact ⟨by simpa [Arena.setParams] using hinner.base_le, hinner.bound⟩
  | declare y kind ty =>
    obtain ⟨size, position, u, -, -, -, rfl⟩ := h
    refine ⟨by simpa using Nat.le_succ_of_le hinner.base_le, fun sc hsc hpos x id hx => ?_⟩
    obtain ⟨inner, hmem, -, -, rfl | ⟨hsc, -⟩⟩ := hs.mem_bind hsc
    · rcases Scope.find?_insert_cases hx with hx | ⟨-, -, rfl⟩
      · exact hinner.bound inner hmem hpos x id hx
      · exact hinner.base_le
    · exact hinner.bound sc hsc hpos x id hx

/-- **Run**: so does every trace. -/
lemma Trace.innerFrom {base : ℕ} (h : Trace opts s es t) (hs : s.Sound)
    (hinner : s.InnerFrom base) : t.InnerFrom base := by
  -- soundness goes along: a step needs it
  have hboth : t.Sound ∧ t.InnerFrom base := by
    refine h.preserves (P := fun u => u.Sound ∧ u.InnerFrom base) ?_ ⟨hs, hinner⟩
    rintro u e v _ he ⟨hsound, hu⟩
    exact ⟨he.sound hsound, he.innerFrom hsound hu⟩
  exact hboth.2

/-- A name in a function that stands for a local or a parameter stands for one of the function. -/
lemma Trace.use_declares {x : Ident} (h : Trace opts s f.events t) (hs : s.Sound)
    (hx : .use x ∈ f.inner) : ∃ id symbol, x.symbol = some id ∧ t.arena[id]? = some symbol ∧
      (symbol.kind = .localVar ∨ symbol.kind = .param → f.Declares id) := by
  have hevents := f.events_eq
  have hstart : s.InnerFrom s.arena.size := by
    rw [hevents] at h
    obtain ⟨_, ⟨_, _, _, ⟨-, hlevel, -⟩, -⟩, -⟩ := h
    refine ⟨Nat.le_refl _, fun sc hsc hpos => ?_⟩
    exact absurd (hs.level_eq_zero hlevel sc hsc) (Nat.ne_of_gt hpos)
  have hmem : .use x ∈ f.events := by
    rw [hevents]
    simp [scopedEvents, hx]
  obtain ⟨pre, post, u, v, hsplit, hpre, ⟨hbound, rfl⟩, hpost⟩ := h.mem hmem
  obtain ⟨id, symbol, hid, hlookup, hsymbol, -⟩ := hbound
  obtain ⟨params, hparams⟩ := hpost.grows id symbol hsymbol
  refine ⟨id, _, hid, hparams, fun hkind => ?_⟩
  -- it is found in an inner scope, so it was declared since the function started
  obtain ⟨sc, hsc, hfind⟩ := List.exists_of_findSome?_eq_some hlookup
  obtain ⟨symbol', hsymbol', -, hfits⟩ := (hpre.sound hs).bound sc hsc x.name id hfind
  obtain rfl := Option.some.inj (hsymbol.symm.trans hsymbol')
  have hbase := (hpre.innerFrom hs hstart).bound sc hsc (hfits.level_pos hkind) x.name id hfind
  obtain ⟨y, kind, ty, hy, hyid⟩ := hpre.exists_declare hbase (Arena.lt_size hsymbol)
  obtain ⟨id', symbol', hid', hsymbol', rfl, -⟩ := hpre.symbol hy
  obtain rfl := Option.some.inj (hyid.symm.trans hid')
  obtain rfl := Option.some.inj (hsymbol.symm.trans hsymbol')
  have hall : .declare y symbol.kind ty ∈ f.events := by simp [hsplit, hy]
  rw [hevents] at hall
  refine ⟨y, symbol.kind, ty, ?_, hyid⟩
  rcases hkind with hkind | hkind <;> rw [hkind] at hall ⊢ <;> simpa [scopedEvents] using hall

/-! ### Names in code -/

mutual

lemma Expr.accesses_subset : (e : Expr) → e.accesses ⊆ e.uses
  | .int _ | .bool _ | .name _ => List.Subset.refl _
  | .assign x e => by
    intro y hy
    rcases List.mem_append.mp hy with hy | hy
    · exact List.mem_cons_of_mem _ (e.accesses_subset hy)
    · exact List.mem_cons.mpr (.inl (List.mem_singleton.mp hy))
  | .binary _ l r => by
    intro y hy
    rcases List.mem_append.mp hy with hleft | hright
    · exact List.mem_append_left _ (l.accesses_subset hleft)
    · exact List.mem_append_right _ (r.accesses_subset hright)
  | .call f args => by
    intro y hy
    rw [Expr.accesses] at hy
    refine List.mem_append_right _ ?_
    split at hy
    · exact Expr.accessesPrinted_subset args hy
    · exact Expr.accessesArgs_subset args hy
termination_by structural e => e

lemma Expr.accessesArgs_subset : (es : List Expr) → Expr.accessesArgs es ⊆ Expr.usesAll es
  | [] => List.Subset.refl _
  | e :: rest => by
    intro y hy
    -- the last argument comes first
    rcases List.mem_append.mp hy with hrest | hfirst
    · exact List.mem_append_right _ (Expr.accessesArgs_subset rest hrest)
    · exact List.mem_append_left _ (e.accesses_subset hfirst)
termination_by structural es => es

lemma Expr.accessesPrinted_subset : (es : List Expr) → Expr.accessesPrinted es ⊆ Expr.usesAll es
  | [] => List.Subset.refl _
  | e :: rest => by
    intro y hy
    rcases List.mem_append.mp hy with hfirst | hrest
    · exact List.mem_append_left _ (e.accesses_subset hfirst)
    · exact List.mem_append_right _ (Expr.accessesPrinted_subset rest hrest)
termination_by structural es => es

end

/-- The events use or declare all of these names. -/
def Mentions (es : List Event) (xs : List Ident) : Prop :=
  ∀ x ∈ xs, .use x ∈ es ∨ ∃ kind ty, .declare x kind ty ∈ es

namespace Mentions

variable {es' : List Event} {xs xs' : List Ident}

lemma nil (es : List Event) : Mentions es [] := nofun

lemma mono (h : Mentions es xs) (hes : es ⊆ es') : Mentions es' xs := by
  intro x hx
  rcases h x hx with huse | ⟨kind, ty, hdeclare⟩
  · exact .inl (hes huse)
  · exact .inr ⟨kind, ty, hes hdeclare⟩

lemma append (h : Mentions es xs) (h' : Mentions es' xs') : Mentions (es ++ es') (xs ++ xs') := by
  intro x hx
  rcases List.mem_append.mp hx with hx | hx
  · exact h.mono (List.subset_append_left _ _) x hx
  · exact h'.mono (List.subset_append_right _ _) x hx

lemma inScope (h : Mentions es xs) : Mentions (scopedEvents es) xs :=
  h.mono fun _ he => mem_scopedEvents he

lemma expr (e : Expr) : Mentions e.events e.accesses := fun _ hx =>
  .inl (List.mem_map_of_mem (e.accesses_subset hx))

lemma exprOption : (e : Option Expr) → Mentions (Expr.eventsOption e) (Expr.accessesOption e)
  | none => .nil _
  | some e => .expr e

lemma var (kind : SymbolKind) (v : Var) : Mentions (v.events kind) v.accesses := by
  rw [Var.events, Var.accesses]
  cases v.value with
  | none => exact .nil _
  | some e =>
    refine (Mentions.expr e).append fun x hx => ?_
    obtain rfl := List.mem_singleton.mp hx
    exact .inr ⟨kind, v.ty, List.mem_singleton.mpr rfl⟩

lemma decl (d : Decl) : Mentions (d.events .localVar) d.accesses := by
  cases d with
  | globalVar v => exact var .localVar v
  | localVar v => exact var .localVar v
  | function _ => exact nil _

lemma declOption (d : Option Decl) :
    Mentions (Decl.eventsOption d) (Decl.accessesOption d) := by
  cases d with
  | none => exact .nil _
  | some d => exact .decl d

end Mentions

mutual

/-- What the code of a statement accesses, the statement mentions. -/
lemma Stmt.mentions : (s : Stmt) → Mentions s.events s.accesses
  | .expr e => .expr e
  | .decl d => .decl d
  | .ret value => .exprOption value
  | .cond b => b.mentions
  | .whileLoop c body => ((Mentions.expr c).append (Stmt.mentionsAll body)).inScope
  | .forLoop start c step body => by
    have hbody := (Stmt.mentionsAll body).inScope.append (Mentions.exprOption step)
    -- the step stands in front of the body, and its code behind
    have hswap : Mentions (Expr.eventsOption step ++ scopedEvents (Stmt.eventsAll body))
        (Stmt.accessesAll body ++ Expr.accessesOption step) :=
      hbody.mono fun e he => List.mem_append.mpr (List.mem_append.mp he).symm
    exact ((Mentions.declOption start).append ((Mentions.expr c).append hswap)).inScope
termination_by structural s => s

lemma Stmt.mentionsAll : (ss : List Stmt) → Mentions (Stmt.eventsAll ss) (Stmt.accessesAll ss)
  | [] => .nil _
  | s :: rest => by
    have hfirst := s.mentions
    have hrest := Stmt.mentionsAll rest
    exact hfirst.append hrest
termination_by structural ss => ss

lemma Branch.mentions : (b : Branch) → Mentions b.events b.accesses
  | ⟨c, body, tail⟩ => by
    have hbranch := ((Mentions.expr c).append (Stmt.mentionsAll body)).inScope.append tail.mentions
    rwa [List.append_assoc] at hbranch
termination_by structural b => b

lemma Tail.mentions : (t : Tail) → Mentions t.events t.accesses
  | .done => .nil _
  | .elseIf next => next.mentions
  | .otherwise last => (Stmt.mentionsAll last).inScope
termination_by structural t => t

end

/-- The names in the code of a global stand for no local and for no parameter. -/
lemma Trace.global_kind {v : Var} {x : Ident} (h : Trace opts s (v.events .globalVar) t)
    (hs : s.Sound) (hx : x ∈ v.accesses) : ∃ id symbol, x.symbol = some id ∧
      t.arena[id]? = some symbol ∧ ¬ (symbol.kind = .localVar ∨ symbol.kind = .param) := by
  rcases Mentions.var .globalVar v x hx with huse | ⟨kind, ty, hdeclare⟩
  · obtain ⟨u, huses, hlast⟩ := trace_append.mp h
    obtain ⟨hbound, rfl⟩ := trace_uses.mp huses
    rw [trace_singleton] at hlast
    have hx : x ∈ Expr.usesOption v.value := by simpa [Var.events, Expr.eventsOption] using huse
    obtain ⟨id, symbol, hid, hlookup, hsymbol, -⟩ := hbound x hx
    obtain ⟨params, hparams⟩ := hlast.grows id symbol hsymbol
    refine ⟨id, _, hid, hparams, fun hkind => ?_⟩
    -- there is only the outermost scope to find it in
    obtain ⟨sc, hsc, hfind⟩ := List.exists_of_findSome?_eq_some hlookup
    obtain ⟨symbol', hsymbol', -, hfits⟩ := hs.bound sc hsc x.name id hfind
    obtain rfl := Option.some.inj (hsymbol.symm.trans hsymbol')
    obtain ⟨_, _, _, ⟨-, hlevel, -⟩, -⟩ := hlast
    exact Nat.ne_of_gt (hfits.level_pos hkind) (hs.level_eq_zero hlevel sc hsc)
  · obtain ⟨id, symbol, hid, hsymbol, rfl, -⟩ := h.symbol hdeclare
    obtain ⟨-, hkind, -⟩ : x = v.name ∧ symbol.kind = .globalVar ∧ ty = v.ty := by
      simpa [Var.events, Expr.eventsOption] using hdeclare
    exact ⟨id, symbol, hid, hsymbol, by simp [hkind]⟩

section Program

variable {p : Program} {id id' : SymbolId} {symbol symbol' : Symbol}

/-- What analysis accepts has happened from the start, and has no functions in functions. -/
lemma Session.trace_of_analyze {s : Session} {a : Analysis} (h : s.analyze p = .ok a)
    (ha : a.errors = []) : ∃ t, Trace s.options .start a.program.events t ∧
      a.session.arena = t.arena ∧ ∀ f ∈ a.program.functions, f.Flat := by
  obtain ⟨t, hresolve, ht, hsession, -⟩ := Session.analyze_eq_ok h ha
  obtain ⟨u, hwalk, rfl, hflat⟩ := Program.run_resolve hresolve ht
  exact ⟨u, hwalk.trace, by rw [hsession], hflat⟩

/-- A name in the code of a function stands for a variable that the function declares, or for one
that is not a local or a parameter of any function. -/
lemma Trace.access {x : Ident} (h : Trace opts .start p.events t)
    (hx : (f, x) ∈ p.accesses) : f ∈ p.functions ∧ ∃ id symbol, x.symbol = some id ∧
      t.arena[id]? = some symbol ∧
      (symbol.kind = .localVar ∨ symbol.kind = .param → f.Declares id) := by
  obtain ⟨g, hf, hpair⟩ := List.mem_flatMap.mp hx
  obtain ⟨y, hy, heq⟩ := List.mem_map.mp hpair
  obtain ⟨rfl, rfl⟩ := Prod.mk.inj heq
  refine ⟨hf, ?_⟩
  rcases List.mem_append.mp hy with hy | hy
  · obtain ⟨v, hv, hy⟩ := List.mem_flatMap.mp hy
    obtain ⟨d, hd, -, hevents⟩ := Program.mem_globals (FunDecl.mem_preset hv)
    obtain ⟨u, w, hu, htrace, hgrows⟩ := h.decl hd
    rw [hevents] at htrace
    obtain ⟨id, symbol, hid, hsymbol, hkind⟩ := htrace.global_kind hu hy
    obtain ⟨params, hparams⟩ := hgrows id symbol hsymbol
    exact ⟨id, _, hid, hparams, fun h => absurd h hkind⟩
  · obtain ⟨u, w, hu, htrace, hgrows⟩ := h.decl (Program.mem_functions.mp hf)
    have hmentions : Mentions g.inner (Stmt.accessesAll g.body) :=
      (Stmt.mentionsAll g.body).mono (List.subset_append_right _ _)
    rcases hmentions y hy with huse | ⟨kind, ty, hdeclare⟩
    · obtain ⟨id, symbol, hid, hsymbol, hkind⟩ := htrace.use_declares hu huse
      obtain ⟨params, hparams⟩ := hgrows id symbol hsymbol
      exact ⟨id, _, hid, hparams, hkind⟩
    · obtain ⟨_, _, -, -, hinner, -, hgrows'⟩ := htrace.function hu
      obtain ⟨id, symbol, hid, hsymbol, -⟩ := hinner.symbol hdeclare
      obtain ⟨params, hparams⟩ := (hgrows'.trans hgrows) id symbol hsymbol
      exact ⟨id, _, hid, hparams, fun _ => ⟨_, kind, ty, hdeclare, hid⟩⟩

/-- A variable of a function in the events of the function. -/
lemma Trace.variable (h : Trace opts .start p.events t) (hf : f ∈ p.functions) (hflat : f.Flat)
    (hid : f.Declares id) (hsymbol : t.arena[id]? = some symbol) :
    (symbol.kind = .localVar ∨ symbol.kind = .param) ∧ symbol.size = symbol.ty.bytes ∧
      ∃ y pre post, f.inner = pre ++ .declare y symbol.kind symbol.ty :: post ∧
        y.symbol = some id ∧
        symbol.position = symbol.kind.position symbol.ty (storage symbol.kind pre) := by
  obtain ⟨y, kind, ty, hy, hyid⟩ := hid
  obtain ⟨pre, post, hinner⟩ := List.append_of_mem hy
  obtain ⟨u, v, hu, htrace, hgrows⟩ := h.decl (Program.mem_functions.mp hf)
  obtain ⟨hkind, id', params, hid', hplaced⟩ := htrace.placed hu hflat hinner
  obtain rfl := Option.some.inj (hyid.symm.trans hid')
  obtain ⟨params', hplaced'⟩ := hgrows id _ hplaced
  obtain rfl := Option.some.inj (hsymbol.symm.trans hplaced')
  exact ⟨hkind, rfl, y, pre, post, hinner, hyid, rfl⟩

/-- The symbol of a parameter is that of one in the list, with the word of that place. -/
lemma Trace.parameter (h : Trace opts .start p.events t) (hf : f ∈ p.functions) (hflat : f.Flat)
    (hid : f.Declares id) (hsymbol : t.arena[id]? = some symbol) (hkind : symbol.kind = .param) :
    ∃ i q, f.params[i]? = some q ∧ q.name.symbol = some id ∧ q.ty = symbol.ty ∧
      symbol.position = wordSize * i := by
  obtain ⟨-, -, y, pre, post, hinner, hy, hpos⟩ := h.variable hf hflat hid hsymbol
  rw [hkind] at hinner hpos
  obtain ⟨i, q, hq, rfl, hty, hword⟩ := FunDecl.exists_param hflat hinner
  exact ⟨i, q, hq, hy, hty, hpos.trans hword⟩

/-! ### Apart -/

lemma append_cons_order {α : Type} {as bs cs ds : List α} {x y : α}
    (h : as ++ x :: bs = cs ++ y :: ds) (hne : x ≠ y) :
    (∃ mid, cs = as ++ x :: mid) ∨ ∃ mid, as = cs ++ y :: mid := by
  rcases List.append_eq_append_iff.mp h with ⟨mid, hcs, hmid⟩ | ⟨mid, has, hmid⟩
  · cases mid with
    | nil => exact absurd (List.cons.inj hmid).1 hne
    | cons z mid =>
      obtain ⟨rfl, -⟩ := List.cons.inj hmid
      exact .inl ⟨mid, hcs⟩
  · cases mid with
    | nil => exact absurd (List.cons.inj hmid).1.symm hne
    | cons z mid =>
      obtain ⟨rfl, -⟩ := List.cons.inj hmid
      exact .inr ⟨mid, has⟩

/-- A later variable of the same kind lies behind an earlier one. -/
lemma SymbolKind.position_add_le {kind : SymbolKind} {y : Ident} {ty ty' : Ty} {mid : List Event}
    (hkind : kind = .localVar ∨ kind = .param) :
    kind.position ty (storage kind pre) + kind.bytes ty' ≤
      kind.position ty' (storage kind (pre ++ .declare y kind ty :: mid)) := by
  rw [storage_append, storage_declare, if_pos rfl]
  rcases hkind with rfl | rfl <;> simp only [position, SymbolKind.bytes] <;> omega

/-- Two variables of one kind in a function lie one behind the other. -/
lemma Trace.apart (h : Trace opts .start p.events t) (hf : f ∈ p.functions) (hflat : f.Flat)
    (hid : f.Declares id) (hsymbol : t.arena[id]? = some symbol) (hid' : f.Declares id')
    (hsymbol' : t.arena[id']? = some symbol') (hne : id ≠ id')
    (hkind : symbol.kind = symbol'.kind) :
    symbol.position + symbol'.kind.bytes symbol'.ty ≤ symbol'.position ∨
      symbol'.position + symbol.kind.bytes symbol.ty ≤ symbol.position := by
  obtain ⟨hinside, -, y, pre, post, hinner, hy, hpos⟩ := h.variable hf hflat hid hsymbol
  obtain ⟨-, -, y', pre', post', hinner', hy', hpos'⟩ := h.variable hf hflat hid' hsymbol'
  have hdiffer : Event.declare y symbol.kind symbol.ty ≠ .declare y' symbol'.kind symbol'.ty := by
    intro heq
    obtain ⟨rfl, -, -⟩ := Event.declare.inj heq
    exact hne (Option.some.inj (hy.symm.trans hy'))
  rw [hpos, hpos', ← hkind]
  rcases append_cons_order (hinner.symm.trans hinner') hdiffer with ⟨mid, rfl⟩ | ⟨mid, rfl⟩
  · exact .inl (SymbolKind.position_add_le hinside)
  · rw [← hkind]
    exact .inr (SymbolKind.position_add_le hinside)

/-- What is declared in the outermost scope only. -/
def SymbolKind.outer : SymbolKind → Bool
  | .globalVar | .function => true
  | .localVar | .param => false

/-- Each global and each function is what its name stands for in the outermost scope. -/
def Resolver.OuterBound (s : Resolver) : Prop :=
  ∀ (id : SymbolId) (symbol : Symbol), s.arena[id]? = some symbol → symbol.kind.outer = true →
    ∀ sc ∈ s.scopes.scopes, sc.level = 0 → sc.find? symbol.name = some id

/-- A declaration of a name that is not yet bound at its level. -/
lemma Resolver.OuterBound.declare {x : String} {new : Symbol} {frame : Option Frame}
    {globals level : ℕ} (hbound : s.OuterBound) (hs : s.Sound) (hname : new.name = x)
    (hfree : s.scopes.lookupCurrent x = none) (hlevel : s.scopes.level? = some level)
    (hnew : new.kind.outer = true → level = 0) : OuterBound { s with
      arena := s.arena.push new, scopes := s.scopes.bind x s.arena.size, frame, globals } := by
  intro id symbol hsymbol hkind sc hsc hzero
  obtain ⟨inner, hmem, hinner, hcurrent, hsc⟩ := hs.mem_bind hsc
  rw [Array.getElem?_push] at hsymbol
  split at hsymbol
  · next hid =>
    obtain rfl := Option.some.inj hsymbol
    rcases hsc with rfl | ⟨-, hlt⟩
    · rw [hname, Scope.find?_insert, ← hcurrent, hfree, if_pos rfl, hid]
      rfl
    · have hinner : inner.level = level := Option.some.inj (hinner.symm.trans hlevel)
      have := hnew hkind
      omega
  · rcases hsc with rfl | ⟨hsc, -⟩
    · exact Scope.find?_insert_of_some (hbound id symbol hsymbol hkind inner hmem hzero)
    · exact hbound id symbol hsymbol hkind sc hsc hzero

/-- **Step**: without redeclarations every event preserves that. -/
lemma Event.Step.outerBound {e : Event} (h : e.Step opts s t) (hs : s.Sound)
    (hopts : opts.allowRedeclaration = false) (hbound : s.OuterBound) : t.OuterBound := by
  cases e with
  | enter =>
    obtain rfl := h
    intro id symbol hsymbol hkind sc hsc hzero
    rcases hs.mem_enter hsc with ⟨n, rfl⟩ | hsc
    · simp [Scope.empty] at hzero
    · exact hbound id symbol hsymbol hkind sc hsc hzero
  | exit =>
    obtain ⟨-, rfl⟩ := h
    exact fun id symbol hsymbol hkind sc hsc =>
      hbound id symbol hsymbol hkind sc (List.mem_of_mem_tail hsc)
  | use x =>
    obtain ⟨-, rfl⟩ := h
    exact hbound
  | finish g params frame =>
    obtain ⟨gid, ids, -, -, -, -, rfl⟩ := h
    intro id symbol hsymbol hkind
    obtain ⟨params, hparams⟩ := Arena.getElem?_setParams s.arena gid id ids
    rw [hparams] at hsymbol
    obtain ⟨old, hold, rfl⟩ := Option.map_eq_some_iff.mp hsymbol
    exact hbound id old hold hkind
  | declare y kind ty =>
    obtain ⟨size, position, u, hreserves, -, hfree, rfl⟩ := h
    have hnone : s.scopes.lookupCurrent y.name = none := hfree.resolve_left (by simp [hopts])
    cases kind with
    | function =>
      obtain ⟨-, hlevel, -, -, rfl⟩ := hreserves
      exact hbound.declare hs rfl hnone hlevel fun _ => rfl
    | globalVar =>
      obtain ⟨-, hlevel, -, -, -, rfl⟩ := hreserves
      exact hbound.declare hs rfl hnone hlevel fun _ => rfl
    | localVar =>
      obtain ⟨_, _, -, hlevel, -, -, -, rfl⟩ := hreserves
      exact hbound.declare hs rfl hnone hlevel (by simp [SymbolKind.outer])
    | param =>
      obtain ⟨_, _, _, -, hlevel, -, -, -, -, rfl⟩ := hreserves
      exact hbound.declare hs rfl hnone hlevel (by simp [SymbolKind.outer])

/-- **Run**: so, without redeclarations, no two of them have one name. -/
lemma Trace.outer_unique (h : Trace opts .start es t) (hopts : opts.allowRedeclaration = false)
    (hsymbol : t.arena[id]? = some symbol) (hsymbol' : t.arena[id']? = some symbol')
    (hkind : symbol.kind.outer = true) (hkind' : symbol'.kind.outer = true)
    (hname : symbol.name = symbol'.name) : id = id' := by
  obtain ⟨hsound, hbound⟩ := h.preserves (P := fun u => u.Sound ∧ u.OuterBound)
    (fun _ _ _ _ he hu => ⟨he.sound hu.1, he.outerBound hu.1 hopts hu.2⟩)
    ⟨Resolver.sound_start, fun id symbol hstart => by simp [Resolver.start] at hstart⟩
  obtain ⟨n, hlevels⟩ := hsound.levels
  have hzero : 0 ∈ t.scopes.levels := by simp [hlevels]
  obtain ⟨sc, hsc, hlevel⟩ := List.mem_map.mp hzero
  have hfind := hbound id symbol hsymbol hkind sc hsc hlevel
  rw [hname, hbound id' symbol' hsymbol' hkind' sc hsc hlevel] at hfind
  exact (Option.some.inj hfind).symm

lemma Trace.global_unique (h : Trace opts .start es t) (hopts : opts.allowRedeclaration = false)
    (hsymbol : t.arena[id]? = some symbol) (hsymbol' : t.arena[id']? = some symbol')
    (hkind : symbol.kind = .globalVar) (hkind' : symbol'.kind = .globalVar)
    (hname : symbol.name = symbol'.name) : id = id' := by
  refine h.outer_unique hopts hsymbol hsymbol' ?_ ?_ hname
  · rw [hkind]
    rfl
  · rw [hkind']
    rfl

end Program

end TreeCompiler

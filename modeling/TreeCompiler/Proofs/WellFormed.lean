import TreeCompiler.Proofs.Admission

/-!
Which programs have nothing to report about their names.

A program is well-formed if it keeps the rules of the language on names and storage. The rules speak
of its text only: of the events and the scopes that they stand in, of the types that are declared,
and of the bytes that all variables of a function take together. Resolution finds out step by step
and reports where it has to, with what it has bound and counted so far. It accepts exactly the
well-formed programs.
-/

namespace TreeCompiler

/-! ### The rules -/

/-- The name is declared at that position. -/
def DeclaredAt (es : List Event) (x : String) (i : ℕ) : Prop :=
  ∃ y kind ty, es[i]? = some (.declare y kind ty) ∧ y.name = x

/-- The scope that `i` stands in is also that of `j`: it is not left in between. -/
structure SameScope (es : List Event) (i j : ℕ) : Prop where
  level : nesting es i = nesting es j
  encloses : ∀ k, i ≤ k → k ≤ j → nesting es i ≤ nesting es k

structure Program.WellFormed (opts : Options) (p : Program) : Prop where
  flat : ∀ f ∈ p.functions, f.Flat
  noPointer : ∀ x kind ty, .declare x kind ty ∈ p.events → kind ≠ .function →
    ty.isPointer = false
  sized : ∀ x kind ty, .declare x kind ty ∈ p.events → kind ≠ .function → ty.size?.isSome = true
  unique : opts.allowRedeclaration = false → ∀ x i j, DeclaredAt p.events x i →
    DeclaredAt p.events x j → i < j → ¬ SameScope p.events i j
  bound : ∀ j x, p.events[j]? = some (.use x) → ∃ i y kind ty, Selected p.events x.name i j ∧
    p.events[i]? = some (.declare y kind ty) ∧ (kind ≠ .function → x.offset < ty.extent)
  locals : ∀ f ∈ p.functions, Var.bytesAll (Stmt.varsAll f.body) ≤ storageLimit
  params : ∀ f ∈ p.functions, wordSize * f.params.length ≤ storageLimit
  globals : Var.bytesAll p.globals ≤ storageLimit

/-! ### Up to annotations -/

variable {es es' : List Event} {x : String} {i j : ℕ}

lemma nesting_bare (es : List Event) (i : ℕ) : nesting (es.map Event.bare) i = nesting es i := by
  have hdelta : (fun (n : ℤ) (e : Event) => n + e.bare.delta) = fun n e => n + e.delta := by
    funext n e
    cases e <;> rfl
  rw [nesting, nesting, ← List.map_take, List.foldl_map, hdelta]

section Congruence

variable (h : es'.map Event.bare = es.map Event.bare)

include h

lemma nesting_congr (i : ℕ) : nesting es' i = nesting es i := by
  rw [← nesting_bare es', h, nesting_bare]

lemma exists_getElem?_bare {e : Event} (hi : es[i]? = some e) :
    ∃ e', es'[i]? = some e' ∧ e'.bare = e.bare := by
  have hbare : (es'.map Event.bare)[i]? = some e.bare := by rw [h, List.getElem?_map, hi]; rfl
  rw [List.getElem?_map] at hbare
  exact Option.map_eq_some_iff.mp hbare

lemma exists_declare_bare {y : Ident} {kind : SymbolKind} {ty : Ty}
    (hi : es[i]? = some (.declare y kind ty)) :
    ∃ y', es'[i]? = some (.declare y' kind ty) ∧ y'.bare = y.bare := by
  obtain ⟨e, he, hbare⟩ := exists_getElem?_bare h hi
  cases e with
  | declare y' kind' ty' =>
    obtain ⟨hy, rfl, rfl⟩ := Event.declare.inj hbare
    exact ⟨y', he, hy⟩
  | enter | exit | use | finish => exact nomatch hbare

lemma exists_use_bare {y : Ident} (hi : es[i]? = some (.use y)) :
    ∃ y', es'[i]? = some (.use y') ∧ y'.bare = y.bare := by
  obtain ⟨e, he, hbare⟩ := exists_getElem?_bare h hi
  cases e with
  | use y' => exact ⟨y', he, Event.use.inj hbare⟩
  | enter | exit | declare | finish => exact nomatch hbare

lemma DeclaredAt.congr (hx : DeclaredAt es x i) : DeclaredAt es' x i := by
  obtain ⟨y, kind, ty, hy, rfl⟩ := hx
  obtain ⟨y', hy', hbare⟩ := exists_declare_bare h hy
  exact ⟨y', kind, ty, hy', by rw [← y'.bare_name, hbare, y.bare_name]⟩

lemma SameScope.congr (hs : SameScope es i j) : SameScope es' i j := by
  refine ⟨?_, fun k hik hkj => ?_⟩
  · rw [nesting_congr h, nesting_congr h, hs.level]
  · rw [nesting_congr h, nesting_congr h]
    exact hs.encloses k hik hkj

lemma Visible.congr (hv : Visible es x i j) : Visible es' x i j := by
  refine ⟨hv.before, DeclaredAt.congr h hv.declares, fun k hik hkj => ?_⟩
  rw [nesting_congr h, nesting_congr h]
  exact hv.encloses k hik hkj

lemma Selected.congr (hs : Selected es x i j) : Selected es' x i j := by
  refine ⟨hs.toVisible.congr h, fun i' hi' => ?_, fun i' hi' => ?_⟩
  · rw [nesting_congr h, nesting_congr h]
    exact hs.innermost i' (hi'.congr h.symm)
  · rw [nesting_congr h, nesting_congr h]
    exact hs.first i' (hi'.congr h.symm)

end Congruence

lemma Selected.unique {i' : ℕ} (h : Selected es x i j) (h' : Selected es x i' j) : i = i' := by
  have hlevel : nesting es i' = nesting es i :=
    Int.le_antisymm (h.innermost i' h'.toVisible) (h'.innermost i h.toVisible)
  exact Nat.le_antisymm (h.first i' h'.toVisible hlevel) (h'.first i h.toVisible hlevel.symm)

/-- What comes later does not matter for what is selected. -/
lemma Selected.of_append (h : Selected (es ++ es') x i j) (hj : j ≤ es.length) :
    Selected es x i j := by
  have hvisible := (visible_append hj).mp h.toVisible
  have hnesting : ∀ {i'}, i' < j → nesting (es ++ es') i' = nesting es i' :=
    fun hi' => nesting_append (Nat.le_trans (Nat.le_of_lt hi') hj)
  refine ⟨hvisible, fun i' hi' => ?_, fun i' hi' hsame => ?_⟩
  · rw [← hnesting hi'.before, ← hnesting hvisible.before]
    exact h.innermost i' ((visible_append hj).mpr hi')
  · rw [← hnesting hi'.before, ← hnesting hvisible.before] at hsame
    exact h.first i' ((visible_append hj).mpr hi') hsame

/-! ### What the stack of scopes knows -/

section Stack

variable {s : Resolver}

lemma Reflects.exists_lookup (h : Reflects es s.scopes) (hx : Visible es x i es.length) :
    ∃ id, s.scopes.lookup x = some id := by
  obtain ⟨sc, hsc, -, id, hfind⟩ := h.covered x i hx
  refine Option.isSome_iff_exists.mp ?_
  rw [ScopeStack.lookup, List.findSome?_isSome_iff]
  exact ⟨sc, hsc, by rw [hfind]; rfl⟩

/-- The innermost scope has a name exactly if a declaration of it is visible at this level. -/
lemma Reflects.lookupCurrent_iff (h : Reflects es s.scopes) (hs : s.Sound) :
    (∃ id, s.scopes.lookupCurrent x = some id) ↔
      ∃ i, Visible es x i es.length ∧ nesting es i = nesting es es.length := by
  obtain ⟨inner, outer, hscopes, hlevel, houter⟩ := hs.innermost
  have hcurrent : s.scopes.lookupCurrent x = inner.find? x := by
    rw [ScopeStack.lookupCurrent, hscopes]
    rfl
  rw [h.depth _ hlevel, hcurrent]
  constructor
  · rintro ⟨id, hfind⟩
    obtain ⟨i, hfirst, -⟩ := h.found inner (hscopes ▸ List.mem_cons_self ..) x id hfind
    exact ⟨i, hfirst.toVisible, hfirst.level_eq⟩
  · rintro ⟨i, hi, hsame⟩
    obtain ⟨sc, hsc, hat, id, hfind⟩ := h.covered x i hi
    rw [hscopes] at hsc
    rcases List.mem_cons.mp hsc with rfl | hsc
    · exact ⟨id, hfind⟩
    · have := houter sc hsc
      omega

end Stack

section Traces

variable {opts : Options} {s t : Resolver} {e : Event}

/-- The states around the event at a position. -/
lemma Trace.getElem? (h : Trace opts s es t) (hj : es[j]? = some e) : ∃ pre post u v,
    es = pre ++ e :: post ∧ j = pre.length ∧ Trace opts s pre u ∧ e.Step opts u v := by
  obtain ⟨hlt, hget⟩ := List.getElem?_eq_some_iff.mp hj
  have hsplit : es = es.take j ++ e :: es.drop (j + 1) := by
    rw [← hget, List.getElem_cons_drop, List.take_append_drop]
  rw [hsplit] at h
  obtain ⟨u, hbefore, v, hstep, -⟩ := trace_append.mp h
  exact ⟨_, _, u, v, hsplit, (List.length_take_of_le (Nat.le_of_lt hlt)).symm, hbefore, hstep⟩

/-- What was declared is a symbol of that kind and type. -/
lemma Trace.symbol {y : Ident} {kind : SymbolKind} {ty : Ty} (h : Trace opts s es t)
    (hy : .declare y kind ty ∈ es) : ∃ id symbol, y.symbol = some id ∧
      t.arena[id]? = some symbol ∧ symbol.kind = kind ∧ symbol.ty = ty := by
  obtain ⟨pre, post, u, v, -, -, hstep, hpost⟩ := h.mem hy
  obtain ⟨size, position, w, -, hsymbol, -, rfl⟩ := hstep
  obtain ⟨params, hparams⟩ := hpost.grows _ _ Array.getElem?_push_size
  exact ⟨_, _, hsymbol, hparams, rfl, rfl⟩

/-! ### Accepted programs are well-formed -/

lemma Trace.type_ok {y : Ident} {kind : SymbolKind} {ty : Ty} (h : Trace opts s es t)
    (hy : .declare y kind ty ∈ es) (hkind : kind ≠ .function) :
    ty.isPointer = false ∧ ty.size?.isSome = true := by
  obtain ⟨pre, post, u, v, -, -, hstep, -⟩ := h.mem hy
  obtain ⟨size, position, w, hreserves, -⟩ := hstep
  cases kind with
  | function => exact absurd rfl hkind
  | globalVar =>
    obtain ⟨-, -, hptr, hsize, -⟩ := hreserves
    exact ⟨hptr, by rw [hsize]; rfl⟩
  | localVar =>
    obtain ⟨_, _, -, -, hptr, hsize, -⟩ := hreserves
    exact ⟨hptr, by rw [hsize]; rfl⟩
  | param =>
    obtain ⟨_, _, _, -, -, hptr, hsize, -⟩ := hreserves
    exact ⟨hptr, by rw [hsize]; rfl⟩

lemma Trace.not_sameScope (h : Trace opts .start es t) (hopts : opts.allowRedeclaration = false)
    (hi : DeclaredAt es x i) (hj : DeclaredAt es x j) (hij : i < j) : ¬ SameScope es i j := by
  intro hscope
  obtain ⟨y, kind, ty, hy, rfl⟩ := hj
  obtain ⟨pre, post, u, v, rfl, rfl, hbefore, hstep⟩ := h.getElem? hy
  have hreflects : Reflects pre u.scopes :=
    hbefore.reflects Resolver.sound_start Reflects.start
  have hvisible : Visible pre y.name i pre.length :=
    (visible_append (Nat.le_refl _)).mp ⟨hij, hi, hscope.encloses⟩
  have hsame : nesting pre i = nesting pre pre.length := by
    have hlevel := hscope.level
    rwa [nesting_append (Nat.le_of_lt hij), nesting_append (Nat.le_refl _)] at hlevel
  obtain ⟨id, hid⟩ := (hreflects.lookupCurrent_iff (hbefore.sound Resolver.sound_start)).mpr
    ⟨i, hvisible, hsame⟩
  obtain ⟨_, _, _, -, -, hfree, -⟩ := hstep
  rcases hfree with hallow | hnone
  · rw [hopts] at hallow
    cases hallow
  · rw [hid] at hnone
    cases hnone

lemma Trace.in_bounds {y : Ident} (h : Trace opts .start es t) (hj : es[j]? = some (.use y)) :
    ∃ i z kind ty, Selected es y.name i j ∧ es[i]? = some (.declare z kind ty) ∧
      (kind ≠ .function → y.offset < ty.extent) := by
  obtain ⟨i, id, hselected, hat, hid⟩ := h.selected hj
  obtain ⟨z, kind, ty, hz, hname⟩ := hselected.declares
  refine ⟨i, z, kind, ty, hselected, hz, fun hkind => ?_⟩
  obtain ⟨pre, post, u, v, rfl, rfl, hbefore, hbound, -⟩ := h.getElem? hj
  obtain ⟨id', symbol, hid', -, hsymbol, hbounds⟩ := hbound
  obtain rfl := Option.some.inj (hid.symm.trans hid')
  -- the symbol that the name is bound to is that of the declaration
  have hmem : .declare z kind ty ∈ pre := by
    rw [List.getElem?_append_left hselected.before] at hz
    exact List.mem_of_getElem? hz
  obtain ⟨id'', symbol', hid'', hsymbol', rfl, rfl⟩ := hbefore.symbol hmem
  rw [symbolAt, hz] at hat
  obtain rfl := Option.some.inj (hat.symm.trans hid'')
  obtain rfl := Option.some.inj (hsymbol.symm.trans hsymbol')
  have hfun : symbol.isFunction = false := by simpa [Symbol.isFunction] using hkind
  have hsize := (hbefore.sound Resolver.sound_start).sized id symbol hsymbol hfun
  exact hbounds hfun _ (Ty.size?_eq hsize).1

lemma Tally.within_empty : ({} : Tally).Within := ⟨Nat.zero_le _, nofun⟩

/-- Along a trace, the counts of the text stay within the limits. -/
lemma Trace.within (h : Trace opts .start es t) {pre post : List Event} (hes : es = pre ++ post) :
    (({} : Tally).run pre).Within := by
  rw [hes] at h
  obtain ⟨u, hpre, -⟩ := trace_append.mp h
  obtain ⟨hrun, hwithin⟩ := hpre.tally
  exact hrun ▸ hwithin Tally.within_empty

end Traces

section Functions

variable {p : Program} {f : FunDecl}

/-- A function in the events of its program: where its own scope starts and ends. -/
lemma Program.exists_inner (hf : f ∈ p.functions) : ∃ pre post,
    p.events = (pre ++ [.declare f.name .function (f.returns.getD .void), .enter]) ++
      (f.inner ++ post) := by
  obtain ⟨pre, post, hevents⟩ := Decl.mem_eventsAll (Program.mem_functions.mp hf)
  refine ⟨pre, .exit :: .finish f.name (f.params.map (·.name)) ⟨f.variableSize, f.parameterSize⟩ ::
    post, ?_⟩
  rw [Program.events, hevents, Decl.events, FunDecl.events_eq]
  simp [scopedEvents]

/-- Where the scope of a function ends, its frame has the bytes of its parameters and variables. -/
lemma FunDecl.frame_run (hflat : f.Flat) (pre : List Event) : (({} : Tally).run
    ((pre ++ [.declare f.name .function (f.returns.getD .void), .enter]) ++ f.inner)).frame =
      some ⟨Var.bytesAll (Stmt.varsAll f.body), wordSize * f.params.length⟩ := by
  have hstart : (({} : Tally).run
      (pre ++ [.declare f.name .function (f.returns.getD .void), .enter])).frame = some {} := by
    rw [Tally.run_append]
    rfl
  rw [Tally.run_append, Tally.frame_run hflat hstart, FunDecl.storage_localVar hflat,
    FunDecl.storage_param hflat, Nat.zero_add, Nat.zero_add]

lemma Event.inner_bare {e : Event} : e.bare.Inner ↔ e.Inner := by
  rcases e with _ | _ | _ | ⟨_, _ | _ | _ | _, _⟩ | _ <;> exact Iff.rfl

/-- A function declares no other one if that holds up to annotations. -/
lemma FunDecl.Flat.congr {g : FunDecl} (hg : g.Flat) (h : g.bare = f.bare) : f.Flat := by
  intro e he
  have hmem : e.bare ∈ g.inner.map Event.bare := by
    rw [← g.inner_bare, h, f.inner_bare]
    exact List.mem_map_of_mem he
  obtain ⟨e', he', hbare⟩ := List.mem_map.mp hmem
  rw [← Event.inner_bare, ← hbare, Event.inner_bare]
  exact hg e' he'

end Functions

/-- The rules hold of a program whose events happen, up to annotations. -/
lemma Program.wellFormed_of_walk {opts : Options} {p p' : Program} {u : Resolver}
    (hwalk : Walk opts .start p.events p'.events u) (hbare : p'.bare = p.bare)
    (hflat : ∀ f ∈ p'.functions, f.Flat) : p.WellFormed opts := by
  have hflat' : ∀ f ∈ p.functions, f.Flat := by
    intro f hf
    obtain ⟨g, hg, hgf⟩ := Program.exists_function hbare.symm hf
    exact (hflat g hg).congr hgf
  have hwithin : ∀ pre post, p.events = pre ++ post → (({} : Tally).run pre).Within := by
    intro pre post hes
    obtain ⟨pre', post', hes', hpre, -⟩ :=
      List.map_eq_append_iff.mp (hwalk.bare.trans (hes ▸ List.map_append))
    rw [← Tally.run_bare, ← hpre, Tally.run_bare]
    exact hwalk.trace.within hes'
  have hframe : ∀ f ∈ p.functions, Var.bytesAll (Stmt.varsAll f.body) ≤ storageLimit ∧
      wordSize * f.params.length ≤ storageLimit := by
    intro f hf
    obtain ⟨pre, post, hes⟩ := Program.exists_inner hf
    rw [← List.append_assoc] at hes
    exact (hwithin _ post hes).frame _ (FunDecl.frame_run (hflat' f hf) pre)
  have htype : ∀ x kind ty, .declare x kind ty ∈ p.events → kind ≠ .function →
      ty.isPointer = false ∧ ty.size?.isSome = true := by
    intro x kind ty hx hkind
    obtain ⟨i, hi⟩ := List.mem_iff_getElem?.mp hx
    obtain ⟨x', hi', -⟩ := exists_declare_bare hwalk.bare hi
    exact hwalk.trace.type_ok (List.mem_of_getElem? hi') hkind
  refine ⟨hflat', ?_, ?_, ?_, ?_, fun f hf => (hframe f hf).1, fun f hf => (hframe f hf).2, ?_⟩
  · exact fun x kind ty hx hkind => (htype x kind ty hx hkind).1
  · exact fun x kind ty hx hkind => (htype x kind ty hx hkind).2
  · intro hopts x i j hi hj hij hscope
    exact hwalk.trace.not_sameScope hopts (hi.congr hwalk.bare) (hj.congr hwalk.bare) hij
      (hscope.congr hwalk.bare)
  · intro j x hj
    obtain ⟨x', hj', hx⟩ := exists_use_bare hwalk.bare hj
    obtain ⟨i, y, kind, ty, hselected, hy, hbounds⟩ := hwalk.trace.in_bounds hj'
    obtain ⟨y', hy', -⟩ := exists_declare_bare hwalk.bare.symm hy
    obtain ⟨hname, hoffset, -⟩ := Ident.mk.inj hx
    rw [hname] at hselected
    rw [hoffset] at hbounds
    exact ⟨i, y', kind, ty, hselected.congr hwalk.bare.symm, hy', hbounds⟩
  · have hall := (hwithin p.events [] (List.append_nil _).symm).globals
    rw [Tally.globals_run, Program.storage_globalVar hflat'] at hall
    simpa using hall

/-! ### Well-formed programs are accepted -/

namespace Tally

lemma within_none {globals : ℕ} (h : globals ≤ storageLimit) : Within ⟨none, globals⟩ :=
  ⟨h, by simp⟩

lemma fits_uses {y : Tally} (hy : y.Within) (xs : List Ident) :
    y.Fits (xs.map .use) ∧ y.run (xs.map .use) = y := by
  induction xs with
  | nil => exact ⟨trivial, rfl⟩
  | cons x xs ih => exact ⟨⟨by simp, hy, ih.1⟩, ih.2⟩

lemma fits_global {globals : ℕ} {v : Var} (h : globals + v.ty.bytes ≤ storageLimit) :
    Fits ⟨none, globals⟩ (v.events .globalVar) ∧
      run ⟨none, globals⟩ (v.events .globalVar) = ⟨none, globals + v.ty.bytes⟩ := by
  have hbefore : Within ⟨none, globals⟩ := within_none (Nat.le_trans (Nat.le_add_right ..) h)
  obtain ⟨hfits, hrun⟩ := fits_uses hbefore (Expr.usesOption v.value)
  rw [Var.events, Expr.eventsOption, fits_append, run_append, hrun]
  exact ⟨⟨hfits, by simp, within_none h, trivial⟩, rfl⟩

lemma fits_function {globals : ℕ} {f : FunDecl} (hflat : f.Flat)
    (hlocals : Var.bytesAll (Stmt.varsAll f.body) ≤ storageLimit)
    (hparams : wordSize * f.params.length ≤ storageLimit) (hglobals : globals ≤ storageLimit) :
    Fits ⟨none, globals⟩ f.events ∧ run ⟨none, globals⟩ f.events = ⟨none, globals⟩ := by
  have hstart : Within ⟨some {}, globals⟩ := by
    refine ⟨hglobals, fun g hg => ?_⟩
    obtain rfl := Option.some.inj hg
    exact ⟨Nat.zero_le _, Nat.zero_le _⟩
  have hframe : (run ⟨some {}, globals⟩ f.inner).frame =
      some ⟨Var.bytesAll (Stmt.varsAll f.body), wordSize * f.params.length⟩ := by
    rw [frame_run hflat rfl, FunDecl.storage_localVar hflat, FunDecl.storage_param hflat,
      Nat.zero_add, Nat.zero_add]
  have hcount : (run ⟨some {}, globals⟩ f.inner).globals = globals := by
    rw [globals_run, FunDecl.storage_globalVar hflat, Nat.add_zero]
  have hend : (run ⟨some {}, globals⟩ f.inner).Within := by
    refine ⟨by rw [hcount]; exact hglobals, fun g hg => ?_⟩
    obtain rfl := Option.some.inj (hframe.symm.trans hg)
    exact ⟨hlocals, hparams⟩
  have hscoped : Fits ⟨some {}, globals⟩ (scopedEvents f.inner) :=
    ⟨by simp, hstart, fits_append.mpr ⟨fits_inner hflat rfl hend, by simp, hend, trivial⟩⟩
  have hrun : run ⟨some {}, globals⟩ (scopedEvents f.inner) = run ⟨some {}, globals⟩ f.inner := by
    rw [scopedEvents, ← List.cons_append, run_append]
    rfl
  rw [FunDecl.events_eq]
  constructor
  · refine ⟨fun _ _ _ => rfl, hstart, fits_append.mpr ⟨hscoped, ?_⟩⟩
    rw [step, hrun]
    exact ⟨by simp, within_none hend.globals, trivial⟩
  · have hsplit := run_append ⟨some {}, globals⟩ (scopedEvents f.inner)
      [.finish f.name (f.params.map (·.name)) ⟨f.variableSize, f.parameterSize⟩]
    rw [hrun] at hsplit
    exact hsplit.trans (congrArg (Tally.mk none) hcount)

/-- What a well-formed program declares fits. -/
lemma fits_program : (p : Program) → ∀ {globals : ℕ}, (∀ f ∈ p.functions, f.Flat ∧
      Var.bytesAll (Stmt.varsAll f.body) ≤ storageLimit ∧
      wordSize * f.params.length ≤ storageLimit) →
    globals + Var.bytesAll p.globals ≤ storageLimit → Fits ⟨none, globals⟩ p.events
  | [], _, _, _ => trivial
  | d :: rest, globals, hfunctions, hglobals => by
    have hrest : ∀ f ∈ Program.functions rest, f ∈ Program.functions (d :: rest) := fun f hf =>
      Program.mem_functions.mpr (List.mem_cons_of_mem _ (Program.mem_functions.mp hf))
    have hfunctions' := fun f hf => hfunctions f (hrest f hf)
    rw [Program.events, Decl.eventsAll, fits_append]
    cases d with
    | globalVar v | localVar v =>
      have hsum : globals + v.ty.bytes + Var.bytesAll (Program.globals rest) ≤ storageLimit := by
        rw [Nat.add_assoc]
        exact hglobals
      obtain ⟨hv, hrun⟩ := fits_global (Nat.le_trans (Nat.le_add_right ..) hsum)
      refine ⟨hv, ?_⟩
      rw [Decl.events, hrun]
      exact fits_program rest hfunctions' hsum
    | function f =>
      obtain ⟨hflat, hlocals, hparams⟩ :=
        hfunctions f (Program.mem_functions.mpr (List.mem_cons_self ..))
      obtain ⟨hf, hrun⟩ := fits_function hflat hlocals hparams
        (Nat.le_trans (Nat.le_add_right ..) hglobals)
      refine ⟨hf, ?_⟩
      rw [Decl.events, hrun]
      exact fits_program rest hfunctions' hglobals

end Tally

namespace Program.WellFormed

variable {opts : Options} {p : Program} {pre pre' post : List Event} {u : Resolver}

lemma fits (h : p.WellFormed opts) : ({} : Tally).Fits p.events := by
  refine Tally.fits_program p (fun f hf => ?_) ?_
  · exact ⟨h.flat f hf, h.locals f hf, h.params f hf⟩
  · simpa using h.globals

/-- A name is in scope with the element that is asked for. -/
lemma allowed_use {x : Ident} (h : p.WellFormed opts) (hes : p.events = pre ++ .use x :: post)
    (htrace : Trace opts .start pre' u) (hbare : pre'.map Event.bare = pre.map Event.bare) :
    Event.Allowed opts u (.use x) := by
  have hreflects : Reflects pre' u.scopes := htrace.reflects Resolver.sound_start Reflects.start
  have hlength : pre'.length = pre.length := by simpa using congrArg List.length hbare
  obtain ⟨i, y, kind, ty, hselected, hy, hbounds⟩ := h.bound pre.length x (by simp [hes])
  rw [hes] at hselected hy
  have hbefore := hselected.before
  have hselected' : Selected pre' x.name i pre'.length :=
    hlength ▸ (hselected.of_append (Nat.le_refl _)).congr hbare
  obtain ⟨id, hlookup⟩ := hreflects.exists_lookup hselected'.toVisible
  obtain ⟨i', hfound, hat⟩ := hreflects.selected (htrace.sound Resolver.sound_start) hlookup
  obtain rfl := hfound.unique hselected'
  -- the symbol found is that of the declaration that the rules select
  rw [List.getElem?_append_left hbefore] at hy
  obtain ⟨y', hy', -⟩ := exists_declare_bare hbare hy
  obtain ⟨id', symbol, hid, hsymbol, rfl, rfl⟩ := htrace.symbol (List.mem_of_getElem? hy')
  rw [symbolAt, hy'] at hat
  obtain rfl := Option.some.inj (hat.symm.trans hid)
  refine ⟨id, symbol, hlookup, hsymbol, fun hfun n hn => ?_⟩
  rw [Ty.elements?_eq hn]
  exact hbounds (by simpa [Symbol.isFunction] using hfun)

/-- A name is free where it is declared. -/
lemma free {x : Ident} {kind : SymbolKind} {ty : Ty} (h : p.WellFormed opts)
    (hes : p.events = pre ++ .declare x kind ty :: post) (htrace : Trace opts .start pre' u)
    (hbare : pre'.map Event.bare = pre.map Event.bare) :
    opts.allowRedeclaration = true ∨ u.scopes.lookupCurrent x.name = none := by
  have hreflects : Reflects pre' u.scopes := htrace.reflects Resolver.sound_start Reflects.start
  have hlength : pre'.length = pre.length := by simpa using congrArg List.length hbare
  cases hopts : opts.allowRedeclaration with
  | true => exact .inl rfl
  | false =>
    refine .inr (Option.eq_none_iff_forall_ne_some.mpr fun id hid => ?_)
    obtain ⟨i, hvisible, hsame⟩ :=
      (hreflects.lookupCurrent_iff (htrace.sound Resolver.sound_start)).mp ⟨id, hid⟩
    rw [hlength] at hvisible hsame
    have hvisible' : Visible (pre ++ .declare x kind ty :: post) x.name i pre.length :=
      (visible_append (Nat.le_refl _)).mpr (hvisible.congr hbare.symm)
    refine h.unique hopts x.name i pre.length ?_ ⟨x, kind, ty, by simp [hes], rfl⟩
      hvisible'.before ⟨?_, ?_⟩
    · rw [hes]
      exact hvisible'.declares
    · rw [hes, nesting_append (Nat.le_of_lt hvisible'.before), nesting_append (Nat.le_refl _),
        ← nesting_congr hbare, ← nesting_congr hbare, hsame]
    · rw [hes]
      exact hvisible'.encloses

/-- The events of a well-formed program are admitted from a fresh start. -/
lemma admits (h : p.WellFormed opts) : Admits opts .start p.events := by
  intro pre e post pre' u hes htrace hbare
  have htally : u.tally = ({} : Tally).run pre := by
    rw [htrace.tally.1, ← Tally.run_bare, hbare, Tally.run_bare]
    rfl
  have hfits := h.fits
  rw [hes, Tally.fits_append] at hfits
  obtain ⟨-, hnested, hwithin, -⟩ := hfits
  rw [← htally] at hnested hwithin
  cases e with
  | enter | exit | finish => trivial
  | use x => exact h.allowed_use hes htrace hbare
  | declare x kind ty =>
    have hmem : .declare x kind ty ∈ p.events := by simp [hes]
    refine ⟨h.free hes htrace hbare, ?_, fun hkind => ?_, hwithin⟩
    · rintro rfl
      exact hnested x ty rfl
    · obtain ⟨size, hsize⟩ := Option.isSome_iff_exists.mp (h.sized x kind ty hmem hkind)
      exact ⟨h.noPointer x kind ty hmem hkind, (Ty.size?_eq hsize).2 ▸ hsize⟩

end Program.WellFormed

/-- **Resolution accepts exactly the well-formed programs**: from a fresh start, whatever the
options. -/
theorem Session.resolve_iff_wellFormed (s : Session) (p : Program) :
    (∃ a, s.reset.resolve p = .ok a ∧ a.errors = []) ↔ p.WellFormed s.options := by
  constructor
  · rintro ⟨a, hresolve, herrors⟩
    obtain ⟨t, hrun, ht, -⟩ := Session.resolve_eq_ok hresolve
    obtain ⟨u, hwalk, -, hflat⟩ := Program.run_resolve hrun (ht.symm.trans herrors)
    exact Program.wellFormed_of_walk hwalk (Program.bare_resolve hrun) hflat
  · intro h
    obtain ⟨p', t, hrun, ht⟩ := Program.succeeds_resolve h.admits
    exact ⟨⟨_, p', t.errors⟩, bind_eq_ok.mpr ⟨(p', t), hrun, rfl⟩, ht⟩

end TreeCompiler

import TreeCompiler.Proofs.FrameLayout
import TreeCompiler.Proofs.MemorySafety

/-!
What a call and its callee know of each other.

The symbol of a function gets its parameters once, when the function is finished, and keeps them.
They are the symbols of the parameters that the function declares, in order, each with the word of
its place behind the frame. A name that is called stands for such a symbol, with one parameter for
each argument.
-/

namespace TreeCompiler

variable {opts : Options} {s t : Resolver} {es : List Event} {p : Program} {f : FunDecl}
  {arena : Arena}

/-! ### Finished symbols stay as they are -/

/-- All symbols of `a` are in `b`, with their parameters. -/
def Arena.Keeps (a b : Arena) : Prop :=
  ∀ (id : SymbolId) (symbol : Symbol), a[id]? = some symbol → b[id]? = some symbol

lemma Arena.Keeps.trans {a b c : Arena} (hab : Arena.Keeps a b) (hbc : Arena.Keeps b c) :
    Arena.Keeps a c := fun id symbol h => hbc id symbol (hab id symbol h)

/-- **Step**: only the end of a function changes a symbol. -/
lemma Event.Step.keeps {e : Event} (h : e.Step opts s t) (he : e.Inner) :
    Arena.Keeps s.arena t.arena := by
  cases e with
  | enter =>
    obtain rfl := h
    exact fun _ _ => id
  | exit =>
    obtain ⟨-, rfl⟩ := h
    exact fun _ _ => id
  | use x =>
    obtain ⟨-, rfl⟩ := h
    exact fun _ _ => id
  | declare x kind ty =>
    obtain ⟨_, _, _, -, -, -, rfl⟩ := h
    exact fun _ _ hid => Arena.getElem?_push_of_lt hid _
  | finish => exact he.elim

/-- **Run**: so all symbols stay until a function ends. -/
lemma Trace.keeps (h : Trace opts s es t) (hinner : ∀ e ∈ es, e.Inner) :
    Arena.Keeps s.arena t.arena := by
  refine h.preserves (P := fun u => Arena.Keeps s.arena u.arena) ?_ fun _ _ => id
  intro e he u v hstep hs
  exact hs.trans (hstep.keeps (hinner e he))

/-- The symbol of the function is a function with these parameters. -/
structure FunDecl.Signed (arena : Arena) (f : FunDecl) (id : SymbolId) (ids : List SymbolId) :
    Prop where
  symbol_eq : f.name.symbol = some id
  params : f.params.map (·.name.symbol) = ids.map some
  at_id : arena[id]? = some ⟨f.name.name, .function, f.returns.getD .void, 0, 0, ids⟩

lemma FunDecl.Signed.keeps {a b : Arena} {id : SymbolId} {ids : List SymbolId}
    (h : f.Signed a id ids) (hab : Arena.Keeps a b) : f.Signed b id ids :=
  ⟨h.symbol_eq, h.params, hab _ _ h.at_id⟩

/-- A function ends with its own symbol signed, and those before it are kept. -/
lemma Trace.signed (h : Trace opts s f.events t) (hflat : f.Flat) :
    Arena.Keeps s.arena t.arena ∧ ∃ id ids, f.Signed t.arena id ids := by
  rw [FunDecl.events_eq] at h
  obtain ⟨_, ⟨_, _, _, ⟨-, -, rfl, rfl, rfl⟩, hself, -, rfl⟩, h⟩ := h
  obtain ⟨u, hscoped, hfinish⟩ := trace_append.mp h
  have hkeeps := hscoped.keeps fun e he => by
    rcases List.mem_cons.mp he with rfl | he
    · trivial
    · rcases List.mem_append.mp he with he | he
      · exact hflat e he
      · obtain rfl := List.mem_singleton.mp he
        trivial
  obtain ⟨id, ids, hid, hids, -, -, rfl⟩ := trace_singleton.mp hfinish
  obtain rfl : s.arena.size = id := Option.some.inj (hself.symm.trans hid)
  refine ⟨fun id symbol hsymbol => ?_, _, ids, hself, by rw [← hids, List.map_map]; rfl, ?_⟩
  · rw [Arena.setParams, Array.getElem?_modify, if_neg (Nat.ne_of_gt (Arena.lt_size hsymbol))]
    exact hkeeps id symbol (Arena.getElem?_push_of_lt hsymbol _)
  · rw [Arena.setParams, Array.getElem?_modify, if_pos rfl, hkeeps _ _ Array.getElem?_push_size]
    rfl

lemma Trace.keeps_decl {d : Decl} (h : Trace opts s (d.events .globalVar) t)
    (hflat : ∀ f, d = .function f → f.Flat) : Arena.Keeps s.arena t.arena := by
  cases d with
  | function f => exact (h.signed (hflat f rfl)).1
  | globalVar v | localVar v =>
    refine h.keeps fun e he => ?_
    rcases List.mem_append.mp he with he | he
    · obtain ⟨x, -, rfl⟩ := List.mem_map.mp he
      trivial
    · obtain rfl := List.mem_singleton.mp he
      trivial

lemma Trace.keeps_decls : (ds : List Decl) → (∀ f, .function f ∈ ds → f.Flat) →
    ∀ {s t : Resolver}, Trace opts s (Decl.eventsAll ds) t → Arena.Keeps s.arena t.arena
  | [], _, _, _, h => by
    obtain rfl := h
    exact fun _ _ => id
  | d :: ds, hflat, _, _, h => by
    obtain ⟨u, hd, hds⟩ := trace_append.mp h
    have hfirst := hd.keeps_decl fun f hf => hflat f (by simp [hf])
    have hrest := Trace.keeps_decls ds (fun f hf => hflat f (List.mem_cons_of_mem _ hf)) hds
    exact hfirst.trans hrest

/-- Every function of a program is signed at its end. -/
lemma Trace.signed_of_mem : (ds : List Decl) → (∀ f, .function f ∈ ds → f.Flat) →
    .function f ∈ ds → ∀ {s t : Resolver}, Trace opts s (Decl.eventsAll ds) t →
      ∃ id ids, f.Signed t.arena id ids
  | d :: ds, hflat, hf, _, _, h => by
    obtain ⟨u, hd, hds⟩ := trace_append.mp h
    have hrest : ∀ g, .function g ∈ ds → g.Flat := fun g hg => hflat g (List.mem_cons_of_mem _ hg)
    rcases List.mem_cons.mp hf with rfl | hf
    · obtain ⟨-, id, ids, hsigned⟩ := hd.signed (hflat f (List.mem_cons_self ..))
      exact ⟨id, ids, hsigned.keeps (Trace.keeps_decls ds hrest hds)⟩
    · exact Trace.signed_of_mem ds hrest hf hds

/-! ### Callees -/

/-- A function that is declared in a program is one of its functions. -/
lemma Decl.function_of_declare {x : Ident} {ty : Ty} : (ds : List Decl) →
    (∀ f, .function f ∈ ds → f.Flat) → .declare x .function ty ∈ Decl.eventsAll ds →
      ∃ f, .function f ∈ ds ∧ f.name = x
  | d :: ds, hflat, h => by
    rcases List.mem_append.mp h with h | h
    · cases d with
      | globalVar v | localVar v => simp [Decl.events, Var.events, Expr.eventsOption] at h
      | function f =>
        have hinner : .declare x .function ty ∉ f.inner :=
          fun hx => hflat f (List.mem_cons_self ..) _ hx
        rw [Decl.events, FunDecl.events_eq] at h
        obtain ⟨rfl, -⟩ : x = f.name ∧ ty = f.returns.getD .void := by
          simpa [scopedEvents, hinner] using h
        exact ⟨f, List.mem_cons_self .., rfl⟩
    · obtain ⟨f, hf, hname⟩ := Decl.function_of_declare ds
        (fun f hf => hflat f (List.mem_cons_of_mem _ hf)) h
      exact ⟨f, List.mem_cons_of_mem _ hf, hname⟩

/-- A symbol that is a function is the one of a function of the program. -/
lemma Trace.exists_function {id : SymbolId} {symbol : Symbol} (h : Trace opts .start p.events t)
    (hflat : ∀ f ∈ p.functions, f.Flat) (hsymbol : t.arena[id]? = some symbol)
    (hkind : symbol.isFunction = true) : ∃ f ∈ p.functions, f.name.symbol = some id := by
  obtain ⟨y, kind, ty, hy, hyid⟩ := h.exists_declare (Nat.zero_le id) (Arena.lt_size hsymbol)
  obtain ⟨id', symbol', hid', hsymbol', rfl, -⟩ := h.symbol hy
  obtain rfl := Option.some.inj (hyid.symm.trans hid')
  obtain rfl := Option.some.inj (hsymbol.symm.trans hsymbol')
  have hfun : symbol.kind = .function := by simpa [Symbol.isFunction] using hkind
  rw [hfun] at hy
  obtain ⟨f, hf, rfl⟩ := Decl.function_of_declare p
    (fun f hf => hflat f (Program.mem_functions.mpr hf)) hy
  exact ⟨f, Program.mem_functions.mpr hf, hyid⟩

/-- The place of the first element of a parameter. -/
lemma Symbol.locate_param {symbol : Symbol} {i : ℕ} (hkind : symbol.kind = .param)
    (hposition : symbol.position = 8 * i) :
    symbol.locate 0 = .ok ⟨.ofSize symbol.ty.elementSize, .frame (16 + 8 * i)⟩ := by
  have hzero : mulSize? 0 symbol.ty.elementSize = some 0 :=
    mulSize?_eq_some_iff.mpr ⟨by simp, by simp⟩
  simp [locate, hzero, hkind, hposition, argumentBase, wordSize]

/-- Parameter `i` of a function: its symbol has its type, and word `i` behind the frame. -/
structure Param.PassedAt (arena : Arena) (q : Param) (i : ℕ) (id : SymbolId) (symbol : Symbol) :
    Prop where
  symbol_eq : q.name.symbol = some id
  at_id : arena[id]? = some symbol
  kind : symbol.kind = .param
  ty : symbol.ty = q.ty
  position : symbol.position = 8 * i
  place : symbol.locate 0 = .ok ⟨.ofSize q.ty.elementSize, .frame (16 + 8 * i)⟩

lemma Trace.param_placed {i : ℕ} {q : Param} (h : Trace opts .start p.events t)
    (hf : f ∈ p.functions) (hflat : f.Flat) (hq : f.params[i]? = some q) :
    ∃ id symbol, q.PassedAt t.arena i id symbol := by
  obtain ⟨ps, qs, hparams, hlength⟩ : ∃ ps qs, f.params = ps ++ q :: qs ∧ ps.length = i := by
    obtain ⟨hi, rfl⟩ := List.getElem?_eq_some_iff.mp hq
    refine ⟨f.params.take i, f.params.drop (i + 1), ?_, List.length_take_of_le (Nat.le_of_lt hi)⟩
    rw [← List.drop_eq_getElem_cons hi, List.take_append_drop]
  have hinner := FunDecl.declarations_inner hflat
  rw [hparams, List.map_append, List.map_cons, List.append_assoc, List.cons_append] at hinner
  obtain ⟨pre, post, hsplit, hpre⟩ := exists_event hinner
  obtain ⟨u, w, hu, htrace, hgrows⟩ := h.decl (Program.mem_functions.mp hf)
  obtain ⟨-, id, params, hid, hplaced⟩ := htrace.placed hu hflat hsplit
  obtain ⟨params', hsymbol⟩ := hgrows id _ hplaced
  have hbefore : declarations pre =
      ps.map Param.declaration ++ ([] : List Var).map (Var.declaration .localVar) := by
    simpa using hpre
  have hposition : storage .param pre = 8 * i := by
    rw [(storage_of_declarations hbefore).2.1, hlength, wordSize]
  exact ⟨id, _, hid, hsymbol, rfl, rfl, hposition, Symbol.locate_param rfl hposition⟩

/-- A call of `x` with `n` arguments, from both sides. The name stands for a symbol that is the one
of a function of the program; the symbol has `n` parameters, which are those of the function, and
they take `n` words. -/
structure Program.Callee (arena : Arena) (p : Program) (x : Ident) (n : ℕ) (symbol : Symbol)
    (f : FunDecl) : Prop where
  mem : f ∈ p.functions
  bound : ∃ id, x.symbol = some id ∧ arena[id]? = some symbol ∧ f.name.symbol = some id
  kind : symbol.kind = .function
  name : f.name.name = x.name
  arity : symbol.params.length = n
  declared : f.params.length = n
  bytes : f.parameterSize = 8 * n
  params (i : ℕ) (q : Param) : f.params[i]? = some q →
    ∃ id param, symbol.params[i]? = some id ∧ q.PassedAt arena i id param

/-- What is called by a grounded name with the right number of arguments. -/
lemma Trace.callee {x : Ident} {n bytes : ℕ} {id : SymbolId} {symbol : Symbol}
    (h : Trace opts .start p.events t) (hflat : ∀ f ∈ p.functions, f.Flat)
    (hx : x.Grounded t.arena bytes id symbol) (hkind : symbol.isFunction = true)
    (hn : symbol.params.length = n) : ∃ f, p.Callee t.arena x n symbol f := by
  obtain ⟨f, hf, hid⟩ := h.exists_function hflat hx.at_id hkind
  obtain ⟨id', ids, hsigned⟩ := Trace.signed_of_mem p
    (fun g hg => hflat g (Program.mem_functions.mpr hg)) (Program.mem_functions.mp hf) h
  obtain rfl := Option.some.inj (hid.symm.trans hsigned.symbol_eq)
  obtain rfl := Option.some.inj (hx.at_id.symm.trans hsigned.at_id)
  have hlength : f.params.length = ids.length := by simpa using congrArg List.length hsigned.params
  refine ⟨f, hf, ⟨id, hx.symbol_eq, hx.at_id, hid⟩, rfl, hx.name, hn, hlength.trans hn, ?_,
    fun i q hq => ?_⟩
  · rw [h.parameterSize_eq hf (hflat f hf), hlength, hn, wordSize]
  · obtain ⟨qid, param, hq'⟩ := h.param_placed hf (hflat f hf) hq
    have hindex : (ids.map some)[i]? = some (some qid) := by
      rw [← hsigned.params, List.getElem?_map, hq, Option.map_some, hq'.symbol_eq]
    exact ⟨qid, param, by simpa using hindex, hq'⟩

/-! ### All calls of a program -/

mutual

/-- What is inside of an accepted expression is accepted. -/
lemma Expr.Accepted.parts {bytes : ℕ} : (e : Expr) → e.Accepted arena bytes →
    ∀ e' ∈ e.parts, e'.Accepted arena bytes
  | .int _, h | .bool _, h | .name _, h => by simpa [Expr.parts] using h
  | .assign x e, h => by
    have he : e.Accepted arena bytes :=
      ⟨fun y hy => h.grounded y (List.mem_cons_of_mem _ hy), h.checked.2⟩
    simpa [Expr.parts, h] using he.parts e
  | .binary _ l r, h => by
    have hl : l.Accepted arena bytes :=
      ⟨fun y hy => h.grounded y (List.mem_append_left _ hy), h.checked.1⟩
    have hr : r.Accepted arena bytes :=
      ⟨fun y hy => h.grounded y (List.mem_append_right _ hy), h.checked.2⟩
    simp only [Expr.parts, List.forall_mem_cons, List.forall_mem_append]
    exact ⟨h, hl.parts l, hr.parts r⟩
  | .call f args, h => by
    simp only [Expr.parts, List.forall_mem_cons]
    have hargs := Expr.accepted_partsAll args
      (fun y hy => h.grounded y (List.mem_append_right _ hy)) h.checked.2
    exact ⟨h, hargs⟩
termination_by structural e => e

lemma Expr.accepted_partsAll {bytes : ℕ} : (es : List Expr) →
    (∀ x ∈ Expr.usesAll es, ∃ id symbol, x.Grounded arena bytes id symbol) →
    Expr.CheckedAll arena es → ∀ e' ∈ Expr.partsAll es, e'.Accepted arena bytes
  | [], _, _ => nofun
  | e :: rest, hground, hchecked => by
    have he : e.Accepted arena bytes :=
      ⟨fun y hy => hground y (List.mem_append_left _ hy), hchecked.1⟩
    simp only [Expr.partsAll, List.forall_mem_append]
    have hrest := Expr.accepted_partsAll rest
      (fun y hy => hground y (List.mem_append_right _ hy)) hchecked.2
    exact ⟨he.parts e, hrest⟩
termination_by structural es => es

end

/-- The expressions that stand in a program: the values of globals, the fallbacks of parameters,
and those in the bodies of functions. -/
def Program.exprs (p : Program) : List Expr :=
  p.globals.flatMap Var.exprs ++ p.functions.flatMap FunDecl.exprs

/-- What has code in a function stands in the program. -/
lemma Program.mem_exprs {e : Expr} (hf : f ∈ p.functions)
    (he : e ∈ f.generated p.globals) : e ∈ p.exprs := by
  rcases List.mem_append.mp he with he | he
  · obtain ⟨v, hv, he⟩ := List.mem_flatMap.mp he
    exact List.mem_append_left _ (List.mem_flatMap.mpr ⟨v, FunDecl.mem_preset hv, he⟩)
  · exact List.mem_append_right _ (List.mem_flatMap.mpr ⟨f, hf, List.mem_append_right _ he⟩)

/-- Every call in an accepted program, also one inside of another expression or in a fallback,
has its callee. -/
lemma Session.callee_of_analyze {s : Session} {a : Analysis} {e : Expr} {x : Ident}
    {args : List Expr} (h : s.analyze p = .ok a) (ha : a.errors = []) (he : e ∈ a.program.exprs)
    (hcall : .call x args ∈ e.parts) (hx : x.name ≠ printName) :
    ∃ symbol f, a.program.Callee a.session.arena x args.length symbol f := by
  obtain ⟨t, hresolve, ht, hsession, hcheck⟩ := Session.analyze_eq_ok h ha
  obtain ⟨u, hwalk, rfl, hflat⟩ := Program.run_resolve hresolve ht
  obtain ⟨-, hchecked⟩ := Program.run_check _ hcheck
  obtain ⟨bytes, haccepted⟩ : ∃ bytes, e.Accepted u.arena bytes := by
    rcases List.mem_append.mp he with he | he
    · obtain ⟨v, hv, he⟩ := List.mem_flatMap.mp he
      exact ⟨0, (hwalk.trace.accepted_global hchecked hv 0).1 e he⟩
    · obtain ⟨f, hf, he⟩ := List.mem_flatMap.mp he
      exact ⟨_, (hwalk.trace.accepted_function hchecked hf (hflat f hf)).1 e he⟩
  have hpart := haccepted.parts e _ hcall
  obtain ⟨id, symbol, hground⟩ := hpart.grounded x (by simp [Expr.uses, hx])
  have hcallable := hpart.checked.1
  rw [Ident.IsCallable, if_neg (by simpa using hx)] at hcallable
  obtain ⟨hkind, hlength⟩ := hcallable id symbol hground.symbol_eq hground.at_id
  obtain ⟨f, hf⟩ := hwalk.trace.callee hflat hground hkind hlength
  exact ⟨symbol, f, by rwa [hsession]⟩

end TreeCompiler

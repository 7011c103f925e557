import TreeCompiler.Proofs.Walk

/-!
What holds of names and symbols along every trace.

Symbols stay as they are declared, but for the parameters of a function. What a scope binds is
a symbol of that name, and of a kind that can be declared at its level; a local that can be
reached lies in the frame of the function that is being resolved. `Sound` collects what every
step preserves. From it follows what a name in the code of a function stands for.
-/

namespace TreeCompiler

variable {opts : Options} {s t u : Resolver} {es : List Event} {e : Event}

/-! ### Symbols stay -/

/-- All symbols of `a` are in `b`, up to the parameters of functions. -/
def Arena.Grows (a b : Arena) : Prop :=
  ∀ (id : SymbolId) (symbol : Symbol), a[id]? = some symbol →
    ∃ params, b[id]? = some { symbol with params }

lemma Arena.lt_size {a : Arena} {id : SymbolId} {symbol : Symbol} (h : a[id]? = some symbol) :
    id < a.size := (Array.getElem?_eq_some_iff.mp h).1

lemma Arena.getElem?_push_of_lt {a : Arena} {id : SymbolId} {old : Symbol} (h : a[id]? = some old)
    (symbol : Symbol) : (a.push symbol)[id]? = some old := by
  rw [Array.getElem?_push, if_neg (Nat.ne_of_lt (Arena.lt_size h)), h]

/-- Only the parameters of a symbol are set later. -/
lemma Arena.getElem?_setParams (a : Arena) (id id' : SymbolId) (ids : List SymbolId) :
    ∃ params : Symbol → List SymbolId, (Arena.setParams a id ids)[id']? =
      a[id']?.map fun symbol => { symbol with params := params symbol } := by
  rw [Arena.setParams, Array.getElem?_modify]
  split
  · exact ⟨fun _ => ids, rfl⟩
  · exact ⟨Symbol.params, by simp⟩

namespace Arena.Grows

lemma refl (a : Arena) : Grows a a := fun _ symbol h => ⟨symbol.params, h⟩

lemma trans {a b c : Arena} (hab : Grows a b) (hbc : Grows b c) : Grows a c := by
  intro id symbol h
  obtain ⟨_, hb⟩ := hab id symbol h
  obtain ⟨params, hc⟩ := hbc id _ hb
  exact ⟨params, hc⟩

lemma push (a : Arena) (symbol : Symbol) : Grows a (a.push symbol) :=
  fun _ old h => ⟨old.params, Arena.getElem?_push_of_lt h symbol⟩

lemma setParams (a : Arena) (id : SymbolId) (params : List SymbolId) :
    Grows a (Arena.setParams a id params) := by
  intro id' old h
  obtain ⟨params, hb⟩ := Arena.getElem?_setParams a id id' params
  exact ⟨params old, by rw [hb, h]; rfl⟩

end Arena.Grows

lemma Event.Step.grows (h : e.Step opts s t) : Arena.Grows s.arena t.arena := by
  cases e with
  | enter =>
    obtain rfl := h
    exact .refl _
  | exit =>
    obtain ⟨-, rfl⟩ := h
    exact .refl _
  | use x =>
    obtain ⟨-, rfl⟩ := h
    exact .refl _
  | declare x kind ty =>
    obtain ⟨_, _, _, -, -, -, rfl⟩ := h
    exact .push _ _
  | finish f params frame =>
    obtain ⟨id, ids, -, -, -, -, rfl⟩ := h
    exact .setParams _ _ _

lemma Trace.grows (h : Trace opts s es t) : Arena.Grows s.arena t.arena := by
  refine h.preserves (P := fun u => Arena.Grows s.arena u.arena) ?_ (.refl _)
  intro _ _ _ _ he hs
  exact hs.trans he.grows

/-- Inside of a function its frame only gets larger. -/
lemma Trace.frame {f : Frame} (h : Trace opts s es t) (hinner : ∀ e ∈ es, e.Inner)
    (hs : s.frame = some f) : ∃ f', t.frame = some f' ∧ f.variableSize ≤ f'.variableSize := by
  refine h.preserves (P := fun u => ∃ f', u.frame = some f' ∧ f.variableSize ≤ f'.variableSize)
    (fun e he s t hstep ⟨f', hf', hle⟩ => ?_) ⟨f, hs, Nat.le_refl _⟩
  cases e with
  | enter =>
    obtain rfl := hstep
    exact ⟨f', hf', hle⟩
  | exit =>
    obtain ⟨-, rfl⟩ := hstep
    exact ⟨f', hf', hle⟩
  | use x =>
    obtain ⟨-, rfl⟩ := hstep
    exact ⟨f', hf', hle⟩
  | finish => exact (hinner _ he).elim
  | declare x kind ty =>
    obtain ⟨size, position, u, hreserves, -, -, rfl⟩ := hstep
    cases kind with
    | function => exact (hinner _ he).elim
    | globalVar =>
      rw [hreserves.1] at hf'
      exact nomatch hf'
    | localVar =>
      obtain ⟨f₁, _, hf₁, -, -, -, hend, rfl⟩ := hreserves
      obtain rfl := Option.some.inj (hf'.symm.trans hf₁)
      obtain ⟨rfl, -⟩ := storageEnd?_eq_some_iff.mp hend
      exact ⟨_, rfl, by simp only; omega⟩
    | param =>
      obtain ⟨f₁, _, _, hf₁, -, -, -, -, -, rfl⟩ := hreserves
      obtain rfl := Option.some.inj (hf'.symm.trans hf₁)
      exact ⟨_, rfl, hle⟩

/-! ### Scopes bind what they can -/

/-- A symbol that a scope of that level can bind, while `frame` is being laid out. -/
def Symbol.Fits (frame : Option Frame) (level : ℕ) (symbol : Symbol) : Prop :=
  match symbol.kind with
  | .globalVar | .function => level = 0
  | .param => 0 < level
  | .localVar => 0 < level ∧ ∃ f, frame = some f ∧ symbol.position ≤ f.variableSize

/-- What holds between any two events. -/
structure Resolver.Sound (s : Resolver) : Prop where
  levels : ∃ n, s.scopes.levels = (List.range (n + 1)).reverse
  bound : ∀ sc ∈ s.scopes.scopes, ∀ (x : String) (id : SymbolId), sc.find? x = some id →
    ∃ symbol, s.arena[id]? = some symbol ∧ symbol.name = x ∧ symbol.Fits s.frame sc.level
  sized : ∀ (id : SymbolId) (symbol : Symbol), s.arena[id]? = some symbol →
    symbol.isFunction = false → symbol.ty.size? = some symbol.size
  first : ∀ (id : SymbolId) (symbol : Symbol), s.arena[id]? = some symbol →
    symbol.isFunction = true →
    ∀ sc ∈ s.scopes.scopes, sc.level = 0 → ∃ id' ≤ id, sc.find? symbol.name = some id'
  room : ∀ f, s.frame = some f → f.variableSize ≤ storageLimit

lemma Resolver.sound_start : Resolver.start.Sound where
  levels := ⟨0, rfl⟩
  bound sc hsc x id h := by
    obtain rfl := List.mem_singleton.mp hsc
    simp at h
  sized id symbol h := by simp [start] at h
  first id symbol h := by simp [start] at h
  room f h := nomatch h

lemma Symbol.Fits.mono {symbol : Symbol} {a b : Option Frame} {level : ℕ}
    (h : symbol.Fits a level)
    (hab : ∀ f, a = some f → ∃ f', b = some f' ∧ f.variableSize ≤ f'.variableSize) :
    symbol.Fits b level := by
  unfold Fits at *
  cases hkind : symbol.kind with
  | localVar =>
    rw [hkind] at h
    obtain ⟨hlevel, f, hf, hle⟩ := h
    obtain ⟨f', hf', hle'⟩ := hab f hf
    exact ⟨hlevel, f', hf', Nat.le_trans hle hle'⟩
  | param | globalVar | function =>
    rw [hkind] at h
    exact h

/-- In the outermost scope the frame does not matter. -/
lemma Symbol.Fits.zero {symbol : Symbol} {a b : Option Frame} (h : symbol.Fits a 0) :
    symbol.Fits b 0 := by
  unfold Fits at *
  cases hkind : symbol.kind with
  | localVar | param =>
    rw [hkind] at h
    simp at h
  | globalVar | function => rfl

lemma Scope.find?_insert_of_some {sc : Scope} {x y : String} {id id' : SymbolId}
    (h : sc.find? y = some id') : (sc.insert x id).find? y = some id' := by
  rw [find?_insert, h]
  rfl

/-- Behind one more binding a name stands for what it stood for, or else for the new symbol. -/
lemma Scope.find?_insert_cases {sc : Scope} {x y : String} {id id' : SymbolId}
    (h : (sc.insert x id).find? y = some id') :
    sc.find? y = some id' ∨ (sc.find? y = none ∧ x = y ∧ id = id') := by
  rw [find?_insert, Option.or_eq_some_iff] at h
  rcases h with hold | ⟨hnone, hnew⟩
  · exact .inl hold
  · split at hnew
    · next hname => exact .inr ⟨hnone, hname, Option.some.inj hnew⟩
    · cases hnew

lemma reverse_range_succ (n : ℕ) :
    (List.range (n + 1)).reverse = n :: (List.range n).reverse := by
  rw [List.range_succ, List.reverse_append]
  rfl

namespace Resolver.Sound

lemma level? (hs : s.Sound) : ∃ n, s.scopes.levels = (List.range (n + 1)).reverse ∧
    s.scopes.level? = some n := by
  obtain ⟨n, hn⟩ := hs.levels
  exact ⟨n, hn, by rw [ScopeStack.level?_eq, hn, reverse_range_succ]; rfl⟩

/-- The innermost scope has the highest level. -/
lemma innermost (hs : s.Sound) : ∃ inner outer,
    s.scopes.scopes = inner :: outer ∧ s.scopes.level? = some inner.level ∧
      ∀ sc ∈ outer, sc.level < inner.level := by
  obtain ⟨n, hn, hlevel⟩ := hs.level?
  rw [reverse_range_succ, ScopeStack.levels] at hn
  obtain ⟨inner, outer, hscopes, hinner, houter⟩ := List.map_eq_cons_iff.mp hn
  refine ⟨inner, outer, hscopes, hinner ▸ hlevel, fun sc hsc => ?_⟩
  have hmem : sc.level ∈ outer.map (·.level) := List.mem_map_of_mem hsc
  rw [houter, List.mem_reverse, List.mem_range] at hmem
  exact hinner ▸ hmem

/-- In the outermost scope, that is the only one. -/
lemma level_eq_zero (hs : s.Sound) (h : s.scopes.level? = some 0) :
    ∀ sc ∈ s.scopes.scopes, sc.level = 0 := by
  intro sc hsc
  obtain ⟨n, hn, hlevel⟩ := hs.level?
  obtain rfl := Option.some.inj (hlevel.symm.trans h)
  have hmem : sc.level ∈ s.scopes.levels := List.mem_map.mpr ⟨sc, hsc, rfl⟩
  rw [hn] at hmem
  simpa using hmem

lemma enter (hs : s.Sound) : Sound { s with scopes := s.scopes.enter } := by
  obtain ⟨n, hn, hlevel⟩ := hs.level?
  have hscopes : s.scopes.enter.scopes = Scope.empty (n + 1) :: s.scopes.scopes := by
    rw [ScopeStack.enter, hlevel]
  refine ⟨⟨n + 1, ?_⟩, ?_, hs.sized, ?_, hs.room⟩
  · rw [reverse_range_succ, ← hn]
    simp only [ScopeStack.levels, hscopes]
    rfl
  · intro sc hsc x id hx
    rw [hscopes] at hsc
    rcases List.mem_cons.mp hsc with rfl | hsc
    · simp at hx
    · exact hs.bound sc hsc x id hx
  · intro id symbol hsymbol hf sc hsc hzero
    rw [hscopes] at hsc
    rcases List.mem_cons.mp hsc with rfl | hsc
    · simp [Scope.empty] at hzero
    · exact hs.first id symbol hsymbol hf sc hsc hzero

lemma exit {n : ℕ} (hs : s.Sound) (h : s.scopes.level? = some (n + 1)) :
    Sound { s with scopes := s.scopes.exit } := by
  obtain ⟨m, hm, hlevel⟩ := hs.level?
  obtain rfl := Option.some.inj (hlevel.symm.trans h)
  refine ⟨⟨n, ?_⟩, fun sc hsc => hs.bound sc (List.mem_of_mem_tail hsc), hs.sized,
    fun id symbol hsymbol hf sc hsc => hs.first id symbol hsymbol hf sc (List.mem_of_mem_tail hsc),
    hs.room⟩
  rw [ScopeStack.exit_levels, hm, reverse_range_succ]
  rfl

/-- Behind a new symbol, its name stands for it or for an older one. -/
lemma exists_find?_insert {sc : Scope} (hs : s.Sound) (hsc : sc ∈ s.scopes.scopes) (x : String) :
    ∃ id ≤ s.arena.size, (sc.insert x s.arena.size).find? x = some id := by
  cases hfind : sc.find? x with
  | none => exact ⟨s.arena.size, Nat.le_refl _, by rw [Scope.find?_insert, hfind, if_pos rfl]; rfl⟩
  | some id =>
    obtain ⟨old, hold, -⟩ := hs.bound sc hsc x id hfind
    exact ⟨id, Nat.le_of_lt (Arena.lt_size hold), Scope.find?_insert_of_some hfind⟩

lemma declare {symbol : Symbol} {frame : Option Frame} {globals level : ℕ} (hs : s.Sound)
    (hlevel : s.scopes.level? = some level)
    (hframe : ∀ f, s.frame = some f → ∃ f', frame = some f' ∧ f.variableSize ≤ f'.variableSize)
    (hroom : ∀ f, frame = some f → f.variableSize ≤ storageLimit)
    (hfits : symbol.Fits frame level)
    (hsized : symbol.isFunction = false → symbol.ty.size? = some symbol.size) :
    Sound { s with
      arena := s.arena.push symbol
      scopes := s.scopes.bind symbol.name s.arena.size
      frame
      globals } := by
  -- the innermost scope has one binding more
  obtain ⟨inner, outer, hscopes, hinner, houter⟩ := hs.innermost
  obtain rfl : inner.level = level := Option.some.inj (hinner.symm.trans hlevel)
  have hmem : inner ∈ s.scopes.scopes := hscopes ▸ List.mem_cons_self ..
  have hmem' : ∀ sc ∈ outer, sc ∈ s.scopes.scopes :=
    fun sc hsc => hscopes ▸ List.mem_cons_of_mem _ hsc
  have hbind : (s.scopes.bind symbol.name s.arena.size).scopes =
      inner.insert symbol.name s.arena.size :: outer := by
    rw [ScopeStack.bind, hscopes]
  have hold : ∀ sc ∈ s.scopes.scopes, ∀ x id, sc.find? x = some id →
      ∃ old, (s.arena.push symbol)[id]? = some old ∧ old.name = x ∧ old.Fits frame sc.level := by
    intro sc hsc x id hx
    obtain ⟨old, hold, hname, hfits⟩ := hs.bound sc hsc x id hx
    exact ⟨old, Arena.getElem?_push_of_lt hold symbol, hname, hfits.mono hframe⟩
  refine ⟨?_, ?_, ?_, ?_, hroom⟩
  · simpa using hs.levels
  · intro sc hsc x id hx
    rw [hbind] at hsc
    rcases List.mem_cons.mp hsc with rfl | hsc
    · rcases Scope.find?_insert_cases hx with hx | ⟨-, rfl, rfl⟩
      · exact hold inner hmem x id hx
      · exact ⟨symbol, by simp, rfl, hfits⟩
    · exact hold sc (hmem' sc hsc) x id hx
  · intro id old hid hf
    rw [Array.getElem?_push] at hid
    split at hid
    · obtain rfl := Option.some.inj hid
      exact hsized hf
    · exact hs.sized id old hid hf
  · intro id f hid hf sc hsc hzero
    rw [hbind] at hsc
    rw [Array.getElem?_push] at hid
    split at hid
    · next hsize =>
      obtain rfl := Option.some.inj hid
      have hlevel₀ : inner.level = 0 := by
        have hkind : symbol.kind = .function := by simpa [Symbol.isFunction] using hf
        simpa [Symbol.Fits, hkind] using hfits
      rcases List.mem_cons.mp hsc with rfl | hsc
      · exact hsize ▸ hs.exists_find?_insert hmem symbol.name
      · have := houter sc hsc
        omega
    · have hfirst := hs.first id f hid hf
      rcases List.mem_cons.mp hsc with rfl | hsc
      · obtain ⟨id', hle, hfind⟩ := hfirst inner hmem hzero
        exact ⟨id', hle, Scope.find?_insert_of_some hfind⟩
      · exact hfirst sc (hmem' sc hsc) hzero

lemma finish {id : SymbolId} {ids : List SymbolId} (hs : s.Sound)
    (h : s.scopes.level? = some 0) :
    Sound { s with frame := none, arena := Arena.setParams s.arena id ids } := by
  refine ⟨hs.levels, ?_, ?_, ?_, nofun⟩
  · intro sc hsc x id' hx
    obtain ⟨symbol, hsymbol, hname, hfits⟩ := hs.bound sc hsc x id' hx
    obtain ⟨params, hparams⟩ := Arena.getElem?_setParams s.arena id id' ids
    rw [hsymbol] at hparams
    rw [hs.level_eq_zero h sc hsc] at hfits ⊢
    exact ⟨_, hparams, hname, hfits.zero⟩
  · intro id' symbol hsymbol hf
    obtain ⟨params, hparams⟩ := Arena.getElem?_setParams s.arena id id' ids
    rw [hparams] at hsymbol
    obtain ⟨old, hold, rfl⟩ := Option.map_eq_some_iff.mp hsymbol
    exact hs.sized id' old hold hf
  · intro id' symbol hsymbol hf
    obtain ⟨params, hparams⟩ := Arena.getElem?_setParams s.arena id id' ids
    rw [hparams] at hsymbol
    obtain ⟨old, hold, rfl⟩ := Option.map_eq_some_iff.mp hsymbol
    exact hs.first id' old hold hf

end Resolver.Sound

/-- **Step**: every event preserves soundness. -/
lemma Event.Step.sound (h : e.Step opts s t) (hs : s.Sound) : t.Sound := by
  cases e with
  | enter =>
    obtain rfl := h
    exact hs.enter
  | exit =>
    obtain ⟨⟨n, hlevel⟩, rfl⟩ := h
    exact hs.exit hlevel
  | use x =>
    obtain ⟨-, rfl⟩ := h
    exact hs
  | finish f params frame =>
    obtain ⟨id, ids, -, -, -, hlevel, rfl⟩ := h
    exact hs.finish hlevel
  | declare x kind ty =>
    obtain ⟨size, position, u, hreserves, -, -, rfl⟩ := h
    cases kind with
    | function =>
      obtain ⟨hframe, hlevel, rfl, rfl, rfl⟩ := hreserves
      have hfits : (⟨x.name, .function, ty, 0, 0, []⟩ : Symbol).Fits (some {}) 0 := rfl
      exact hs.declare hlevel (fun f hf => by rw [hframe] at hf; exact nomatch hf)
        (fun f hf => Option.some.inj hf ▸ Nat.zero_le _) hfits nofun
    | globalVar =>
      obtain ⟨hframe, hlevel, -, hsize, -, rfl⟩ := hreserves
      exact hs.declare hlevel (fun f hf => ⟨f, hf, Nat.le_refl _⟩) hs.room rfl fun _ => hsize
    | localVar =>
      obtain ⟨f, n, hf, hlevel, -, hsize, hend, rfl⟩ := hreserves
      obtain ⟨rfl, hlimit⟩ := storageEnd?_eq_some_iff.mp hend
      refine hs.declare hlevel (fun f' hf' => ?_) (fun f' hf' => Option.some.inj hf' ▸ hlimit)
        ⟨Nat.succ_pos n, _, rfl, Nat.le_refl _⟩ fun _ => hsize
      obtain rfl := Option.some.inj (hf.symm.trans hf')
      exact ⟨_, rfl, by simp only; omega⟩
    | param =>
      obtain ⟨f, n, stop, hf, hlevel, -, hsize, -, -, rfl⟩ := hreserves
      refine hs.declare hlevel (fun f' hf' => ?_) (fun f' hf' => ?_) (Nat.succ_pos n) fun _ => hsize
      · obtain rfl := Option.some.inj (hf.symm.trans hf')
        exact ⟨_, rfl, Nat.le_refl _⟩
      · obtain rfl := Option.some.inj hf'
        exact hs.room f hf

/-- **Run**: so does every trace. -/
lemma Trace.sound (h : Trace opts s es t) (hs : s.Sound) : t.Sound :=
  h.preserves (fun _ _ _ _ he hs => he.sound hs) hs

/-! ### What names stand for -/

/-- A use of a name in a function whose variables take that many bytes: it stands for a symbol
of its name. A variable has its size and the element asked for, and a local lies within the
frame; a function is the first of its name. -/
structure Ident.Grounded (arena : Arena) (bytes : ℕ) (x : Ident) (id : SymbolId)
    (symbol : Symbol) : Prop where
  symbol_eq : x.symbol = some id
  at_id : arena[id]? = some symbol
  name : symbol.name = x.name
  sized : symbol.isFunction = false → symbol.ty.size? = some symbol.size
  inBounds : symbol.isFunction = false → ∀ n, symbol.ty.elements? = some n → x.offset < n
  inFrame : symbol.kind = .localVar → symbol.position ≤ bytes
  first : symbol.isFunction = true → ∀ id' (f : Symbol), arena[id']? = some f →
    f.isFunction = true → f.name = x.name → id ≤ id'

/-- A bound name is grounded in any function that has at least the bytes taken so far. -/
lemma Resolver.Sound.grounded {x : Ident} {bytes : ℕ} (hs : s.Sound) (hx : x.Bound s)
    (hbytes : ∀ f, s.frame = some f → f.variableSize ≤ bytes) :
    ∃ id symbol, x.Grounded s.arena bytes id symbol := by
  obtain ⟨id, symbol, hid, hlookup, hsymbol, hbounds⟩ := hx
  obtain ⟨sc, hsc, hfind⟩ := List.exists_of_findSome?_eq_some hlookup
  obtain ⟨symbol', hsymbol', hname, hfits⟩ := hs.bound sc hsc x.name id hfind
  obtain rfl := Option.some.inj (hsymbol.symm.trans hsymbol')
  refine ⟨id, symbol, hid, hsymbol, hname, hs.sized id symbol hsymbol, hbounds, fun hkind => ?_,
    fun hf id' f hf' hfun hsame => ?_⟩
  · simp only [Symbol.Fits, hkind] at hfits
    obtain ⟨-, f, hf, hle⟩ := hfits
    exact Nat.le_trans hle (hbytes f hf)
  · have hzero : sc.level = 0 := by
      have hkind : symbol.kind = .function := by simpa [Symbol.isFunction] using hf
      simpa [Symbol.Fits, hkind] using hfits
    obtain ⟨id'', hle, hfind'⟩ := hs.first id' f hf' hfun sc hsc hzero
    rw [hsame, hfind] at hfind'
    exact Option.some.inj hfind' ▸ hle

/-- Later declarations change nothing about it. -/
lemma Ident.Grounded.grows {a b : Arena} {bytes : ℕ} {x : Ident} {id : SymbolId} {symbol : Symbol}
    (h : x.Grounded a bytes id symbol) (hab : Arena.Grows a b) :
    ∃ params, x.Grounded b bytes id { symbol with params } := by
  obtain ⟨params, hb⟩ := hab id symbol h.at_id
  refine ⟨params, h.symbol_eq, hb, h.name, h.sized, h.inBounds, h.inFrame,
    fun hf id' f hf' hfun hsame => ?_⟩
  rcases Nat.lt_or_ge id' a.size with hlt | hge
  · -- a function that was there before
    have hold := Array.getElem?_eq_getElem hlt
    obtain ⟨_, hb'⟩ := hab id' _ hold
    obtain rfl := Option.some.inj (hb'.symm.trans hf')
    exact h.first hf id' _ hold hfun hsame
  · exact Nat.le_trans (Nat.le_of_lt (Arena.lt_size h.at_id)) hge

/-- A declared variable has a symbol of its own with its type, kind and size; a local lies within
the frame. -/
structure Ident.Declared (arena : Arena) (bytes : ℕ) (x : Ident) (kind : SymbolKind) (ty : Ty)
    (id : SymbolId) (symbol : Symbol) : Prop where
  symbol_eq : x.symbol = some id
  at_id : arena[id]? = some symbol
  name : symbol.name = x.name
  kind_eq : symbol.kind = kind
  ty_eq : symbol.ty = ty
  sized : symbol.isFunction = false → symbol.ty.size? = some symbol.size
  inFrame : symbol.kind = .localVar → symbol.position ≤ bytes

lemma Event.Step.declared {x : Ident} {kind : SymbolKind} {ty : Ty} {bytes : ℕ}
    (h : Event.Step opts s (.declare x kind ty) t)
    (hbytes : ∀ f, t.frame = some f → f.variableSize ≤ bytes) :
    ∃ id symbol, x.Declared t.arena bytes kind ty id symbol := by
  obtain ⟨size, position, u, hreserves, hsymbol, -, rfl⟩ := h
  refine ⟨s.arena.size, _, hsymbol, Array.getElem?_push_size, rfl, rfl, rfl, fun hf => ?_,
    fun hkind => ?_⟩
  · cases kind with
    | function => exact nomatch hf
    | globalVar => exact hreserves.2.2.2.1
    | localVar =>
      obtain ⟨_, _, _, _, _, hsize, _⟩ := hreserves
      exact hsize
    | param =>
      obtain ⟨_, _, _, _, _, _, hsize, _⟩ := hreserves
      exact hsize
  · obtain rfl : kind = .localVar := hkind
    obtain ⟨f, _, _, _, _, _, _, rfl⟩ := hreserves
    exact hbytes _ rfl

lemma Ident.Declared.grows {a b : Arena} {bytes : ℕ} {x : Ident} {kind : SymbolKind} {ty : Ty}
    {id : SymbolId} {symbol : Symbol} (h : x.Declared a bytes kind ty id symbol)
    (hab : Arena.Grows a b) : ∃ params, x.Declared b bytes kind ty id { symbol with params } := by
  obtain ⟨params, hb⟩ := hab id symbol h.at_id
  exact ⟨params, h.symbol_eq, hb, h.name, h.kind_eq, h.ty_eq, h.sized, h.inFrame⟩

/-! ### Functions and globals of a program -/

lemma Trace.mem (h : Trace opts s es t) (he : e ∈ es) : ∃ pre post u v,
    es = pre ++ e :: post ∧ Trace opts s pre u ∧ e.Step opts u v ∧ Trace opts v post t := by
  obtain ⟨pre, post, rfl⟩ := List.append_of_mem he
  obtain ⟨u, hpre, v, hstep, hpost⟩ := trace_append.mp h
  exact ⟨pre, post, u, v, rfl, hpre, hstep, hpost⟩

/-- The events in the scope of a function happen while its frame is laid out, from an empty frame
to the one it ends up with. -/
lemma Trace.function {f : FunDecl} (h : Trace opts s f.events t) (hs : s.Sound) :
    ∃ u v, u.Sound ∧ u.frame = some {} ∧ Trace opts u f.inner v ∧
      v.frame = some ⟨f.variableSize, f.parameterSize⟩ ∧ Arena.Grows v.arena t.arena := by
  rw [FunDecl.events_eq] at h
  obtain ⟨s₁, hdeclare, h⟩ := h
  obtain ⟨s₄, hscoped, hfinish⟩ := trace_append.mp h
  obtain ⟨s₂, henter, hscope⟩ := hscoped
  obtain ⟨s₃, hinner, hexit⟩ := trace_append.mp hscope
  rw [trace_singleton] at hexit hfinish
  have hs₂ : s₂.Sound := henter.sound (hdeclare.sound hs)
  have hgrows := hexit.grows.trans hfinish.grows
  obtain ⟨_, _, u, ⟨-, -, -, -, rfl⟩, -, -, rfl⟩ := hdeclare
  obtain rfl := henter
  obtain ⟨-, rfl⟩ := hexit
  obtain ⟨_, _, -, -, hframe, -, -⟩ := hfinish
  exact ⟨_, s₃, hs₂, rfl, hinner, hframe, hgrows⟩

/-- An event of a function, with the states around it. -/
lemma Trace.mem_inner {f : FunDecl} (h : Trace opts s f.events t) (hs : s.Sound) (hflat : f.Flat)
    (he : e ∈ f.inner) : ∃ u v, e.Step opts u v ∧ u.Sound ∧ Arena.Grows v.arena t.arena ∧
      ∀ g, v.frame = some g → g.variableSize ≤ f.variableSize := by
  obtain ⟨s₁, s₂, hs₁, hframe₁, hinner, hframe₂, hgrows⟩ := h.function hs
  obtain ⟨pre, post, u, v, hes, hpre, hstep, hpost⟩ := hinner.mem he
  refine ⟨u, v, hstep, hpre.sound hs₁, hpost.grows.trans hgrows, fun g hg => ?_⟩
  obtain ⟨g', hg', hle⟩ := hpost.frame (fun e' he' => hflat e' (by simp [hes, he'])) hg
  obtain rfl := Option.some.inj (hframe₂.symm.trans hg')
  exact hle

/-- What a function uses is grounded in it. -/
lemma Trace.grounded {f : FunDecl} {x : Ident} (h : Trace opts s f.events t) (hs : s.Sound)
    (hflat : f.Flat) (hx : .use x ∈ f.inner) :
    ∃ id symbol, x.Grounded t.arena f.variableSize id symbol := by
  obtain ⟨u, v, ⟨hbound, rfl⟩, hu, hgrows, hbytes⟩ := h.mem_inner hs hflat hx
  obtain ⟨id, symbol, hground⟩ := hu.grounded hbound hbytes
  obtain ⟨params, hground⟩ := hground.grows hgrows
  exact ⟨id, _, hground⟩

lemma Trace.declared {f : FunDecl} {x : Ident} {kind : SymbolKind} {ty : Ty}
    (h : Trace opts s f.events t) (hs : s.Sound) (hflat : f.Flat)
    (hx : .declare x kind ty ∈ f.inner) :
    ∃ id symbol, x.Declared t.arena f.variableSize kind ty id symbol := by
  obtain ⟨u, v, hstep, -, hgrows, hbytes⟩ := h.mem_inner hs hflat hx
  obtain ⟨id, symbol, hdeclared⟩ := hstep.declared hbytes
  obtain ⟨params, hdeclared⟩ := hdeclared.grows hgrows
  exact ⟨id, _, hdeclared⟩

lemma Trace.variableSize_le {f : FunDecl} (h : Trace opts s f.events t) (hs : s.Sound) :
    f.variableSize ≤ storageLimit := by
  obtain ⟨u, v, hu, -, hinner, hframe, -⟩ := h.function hs
  exact (hinner.sound hu).room _ hframe

/-- The names in the value of a global are grounded in any function. -/
lemma Trace.global {v : Var} (h : Trace opts s (v.events .globalVar) t) (hs : s.Sound)
    (bytes : ℕ) :
    (∀ x ∈ Expr.usesOption v.value, ∃ id symbol, x.Grounded t.arena bytes id symbol) ∧
      ∃ id symbol, v.name.Declared t.arena bytes .globalVar v.ty id symbol := by
  obtain ⟨u, huses, hdeclare⟩ := trace_append.mp h
  obtain ⟨hbound, rfl⟩ := trace_uses.mp huses
  rw [trace_singleton] at hdeclare
  have hnone : u.frame = none ∧ t.frame = none := by
    obtain ⟨_, _, _, ⟨hframe, -, -, -, -, rfl⟩, -, -, rfl⟩ := hdeclare
    exact ⟨hframe, hframe⟩
  refine ⟨fun x hx => ?_, hdeclare.declared fun f hf => ?_⟩
  · have hbytes : ∀ f, u.frame = some f → f.variableSize ≤ bytes := fun f hf => by
      rw [hnone.1] at hf
      exact nomatch hf
    obtain ⟨id, symbol, hground⟩ := hs.grounded (hbound x hx) hbytes
    obtain ⟨params, hground⟩ := hground.grows hdeclare.grows
    exact ⟨id, _, hground⟩
  · rw [hnone.2] at hf
    exact nomatch hf

lemma Decl.mem_eventsAll {ds : List Decl} {d : Decl} (h : d ∈ ds) :
    ∃ pre post, Decl.eventsAll ds = pre ++ (d.events .globalVar ++ post) := by
  induction ds with
  | nil => exact nomatch h
  | cons d' ds ih =>
    rcases List.mem_cons.mp h with rfl | h
    · exact ⟨[], _, rfl⟩
    · obtain ⟨pre, post, hds⟩ := ih h
      exact ⟨d'.events .globalVar ++ pre, post, by rw [Decl.eventsAll, hds, List.append_assoc]⟩

/-- A declaration of a program, with the states around it. -/
lemma Trace.decl {p : Program} {d : Decl} (h : Trace opts .start p.events t) (hd : d ∈ p) :
    ∃ u v, u.Sound ∧ Trace opts u (d.events .globalVar) v ∧ Arena.Grows v.arena t.arena := by
  obtain ⟨pre, post, hevents⟩ := Decl.mem_eventsAll hd
  rw [Program.events, hevents] at h
  obtain ⟨u, hpre, hrest⟩ := trace_append.mp h
  obtain ⟨v, hevents, hpost⟩ := trace_append.mp hrest
  exact ⟨u, v, hpre.sound Resolver.sound_start, hevents, hpost.grows⟩

end TreeCompiler

import TreeCompiler.Proofs.Accepted
import TreeCompiler.Proofs.Annotations

/-!
Names are bound by lexical scope.

The rule speaks of positions in the events of a program. A declaration is visible from where it is
complete up to the end of the scope it stands in, and a use stands for the visible declaration of
its name in the innermost scope, the first one there. Resolution keeps a stack of scopes instead:
that stack holds, level by level, the first visible declaration of each name.
-/

namespace TreeCompiler

/-! ### The scope rule -/

/-- How an event changes the number of open scopes. -/
def Event.delta : Event → ℤ
  | .enter => 1
  | .exit => -1
  | .use _ => 0
  | .declare _ _ _ => 0
  | .finish _ _ _ => 0

/-- How many scopes are open at position `i`, in addition to that of the globals. -/
def nesting (es : List Event) (i : ℕ) : ℤ := (es.take i).foldl (fun n e => n + e.delta) 0

/-- The declaration of the name at `i` is complete at `j`, and the scope that it stands in was not
left in between. -/
structure Visible (es : List Event) (x : String) (i j : ℕ) : Prop where
  before : i < j
  declares : ∃ y kind ty, es[i]? = some (.declare y kind ty) ∧ y.name = x
  encloses : ∀ k, i ≤ k → k ≤ j → nesting es i ≤ nesting es k

/-- Of all declarations of the name that are visible at `j`, the one at `i` is in the innermost
scope, and the first one there. -/
structure Selected (es : List Event) (x : String) (i j : ℕ) : Prop extends Visible es x i j where
  innermost : ∀ i', Visible es x i' j → nesting es i' ≤ nesting es i
  first : ∀ i', Visible es x i' j → nesting es i' = nesting es i → i ≤ i'

/-- The symbol that is declared at a position. -/
def symbolAt (es : List Event) (i : ℕ) : Option SymbolId :=
  match es[i]? with
  | some (.declare x _ _) => x.symbol
  | _ => none

/-- The name that an event declares, with its kind and type. -/
def Event.declared? : Event → Option (Ident × SymbolKind × Ty)
  | .declare x kind ty => some (x, kind, ty)
  | _ => none

/-- The names that are declared, in order. -/
def declarations (es : List Event) : List (Ident × SymbolKind × Ty) :=
  es.filterMap Event.declared?

/-- What the declarations say of their symbols: name, kind and type. -/
def signatures (es : List Event) : List (String × SymbolKind × Ty) :=
  (declarations es).map fun (x, kind, ty) => (x.name, kind, ty)

/-! ### One more event -/

variable {es es' : List Event} {e : Event} {x : String} {i j : ℕ}

lemma nesting_append (hi : i ≤ es.length) : nesting (es ++ es') i = nesting es i := by
  rw [nesting, nesting, List.take_append_of_le_length hi]

lemma length_snoc : (es ++ [e]).length = es.length + 1 := List.length_append

lemma nesting_snoc : nesting (es ++ [e]) (es ++ [e]).length = nesting es es.length + e.delta := by
  rw [nesting, nesting, List.take_length, List.take_length, List.foldl_append]
  rfl

lemma symbolAt_append (hi : i < es.length) : symbolAt (es ++ es') i = symbolAt es i := by
  rw [symbolAt, symbolAt, List.getElem?_append_left hi]

/-- What comes later does not matter. -/
lemma visible_append (hj : j ≤ es.length) : Visible (es ++ es') x i j ↔ Visible es x i j := by
  have hnesting : ∀ k, k ≤ j → nesting (es ++ es') k = nesting es k :=
    fun k hk => nesting_append (Nat.le_trans hk hj)
  constructor
  · rintro ⟨hlt, hdeclares, hencloses⟩
    rw [List.getElem?_append_left (Nat.lt_of_lt_of_le hlt hj)] at hdeclares
    refine ⟨hlt, hdeclares, fun k hk hkj => ?_⟩
    rw [← hnesting i (Nat.le_of_lt hlt), ← hnesting k hkj]
    exact hencloses k hk hkj
  · rintro ⟨hlt, hdeclares, hencloses⟩
    refine ⟨hlt, ?_, fun k hk hkj => ?_⟩
    · rwa [List.getElem?_append_left (Nat.lt_of_lt_of_le hlt hj)]
    · rw [hnesting i (Nat.le_of_lt hlt), hnesting k hkj]
      exact hencloses k hk hkj

lemma Selected.append (h : Selected es x i j) (hj : j ≤ es.length) :
    Selected (es ++ es') x i j := by
  have hnesting : ∀ {i'}, Visible es x i' j → nesting (es ++ es') i' = nesting es i' :=
    fun hi' => nesting_append (Nat.le_trans (Nat.le_of_lt hi'.before) hj)
  refine ⟨(visible_append hj).mpr h.toVisible, fun i' hi' => ?_, fun i' hi' hsame => ?_⟩
  · have hold := (visible_append hj).mp hi'
    rw [hnesting hold, hnesting h.toVisible]
    exact h.innermost i' hold
  · have hold := (visible_append hj).mp hi'
    rw [hnesting hold, hnesting h.toVisible] at hsame
    exact h.first i' hold hsame

/-- Behind one more event, what was visible still is unless its scope was left, and a declaration
is visible in addition. -/
lemma visible_snoc : Visible (es ++ [e]) x i (es ++ [e]).length ↔
    (Visible es x i es.length ∧ nesting es i ≤ nesting es es.length + e.delta) ∨
      (i = es.length ∧ ∃ y kind ty, e = .declare y kind ty ∧ y.name = x) := by
  have hlast : nesting (es ++ [e]) (es ++ [e]).length = nesting es es.length + e.delta :=
    nesting_snoc
  rw [length_snoc] at hlast ⊢
  constructor
  · intro h
    rcases Nat.lt_or_eq_of_le (Nat.le_of_lt_succ h.before) with hlt | rfl
    · refine .inl ⟨(visible_append (Nat.le_refl _)).mp
        ⟨hlt, h.declares, fun k hk hk' => h.encloses k hk (Nat.le_succ_of_le hk')⟩, ?_⟩
      have hopen := h.encloses (es.length + 1) (Nat.le_of_lt h.before) (Nat.le_refl _)
      rwa [hlast, nesting_append (Nat.le_of_lt hlt)] at hopen
    · obtain ⟨y, kind, ty, hy, hname⟩ := h.declares
      rw [List.getElem?_concat_length] at hy
      exact .inr ⟨rfl, y, kind, ty, Option.some.inj hy, hname⟩
  · rintro (⟨h, hle⟩ | ⟨rfl, y, kind, ty, rfl, hname⟩)
    · have h' : Visible (es ++ [e]) x i es.length := (visible_append (Nat.le_refl _)).mpr h
      refine ⟨Nat.lt_succ_of_lt h.before, h'.declares, fun k hk hk' => ?_⟩
      rcases Nat.lt_or_eq_of_le hk' with hlt | rfl
      · exact h'.encloses k hk (Nat.le_of_lt_succ hlt)
      · rwa [hlast, nesting_append (Nat.le_of_lt h.before)]
    · refine ⟨Nat.lt_succ_self _, ⟨y, kind, ty, List.getElem?_concat_length, hname⟩,
        fun k hk hk' => ?_⟩
      rcases Nat.lt_or_eq_of_le hk' with hlt | rfl
      · exact Int.le_of_eq (congrArg _ (Nat.le_antisymm hk (Nat.le_of_lt_succ hlt)))
      · refine Int.le_of_eq ?_
        rw [hlast, nesting_append (Nat.le_refl _), Event.delta, Int.add_zero]

/-! ### The stack of scopes -/

/-- Of the declarations of the name at that level that are visible behind the events, the first. -/
structure First (es : List Event) (x : String) (level : ℕ) (i : ℕ) : Prop
    extends Visible es x i es.length where
  level_eq : nesting es i = level
  first : ∀ i', Visible es x i' es.length → nesting es i' = level → i ≤ i'

/-- It stays the first one as long as its scope is open. -/
lemma First.snoc {level : ℕ} (h : First es x level i)
    (hopen : (level : ℤ) ≤ nesting es es.length + e.delta) : First (es ++ [e]) x level i where
  toVisible := visible_snoc.mpr (.inl ⟨h.toVisible, h.level_eq ▸ hopen⟩)
  level_eq := by rw [nesting_append (Nat.le_of_lt h.before), h.level_eq]
  first i' hi' hlevel := by
    rcases visible_snoc.mp hi' with ⟨hold, -⟩ | ⟨rfl, -⟩
    · rw [nesting_append (Nat.le_of_lt hold.before)] at hlevel
      exact h.first i' hold hlevel
    · exact Nat.le_of_lt h.before

/-- What the stack binds at each level is the first visible declaration of each name there. -/
structure Reflects (es : List Event) (st : ScopeStack) : Prop where
  depth : ∀ n, st.level? = some n → nesting es es.length = n
  found : ∀ sc ∈ st.scopes, ∀ (x : String) (id : SymbolId), sc.find? x = some id →
    ∃ i, First es x sc.level i ∧ symbolAt es i = some id
  covered : ∀ (x : String) (i : ℕ), Visible es x i es.length →
    ∃ sc ∈ st.scopes, nesting es i = sc.level ∧ ∃ id, sc.find? x = some id

variable {opts : Options} {s t : Resolver}

lemma Resolver.Sound.level?_exit {n : ℕ} (hs : s.Sound) (h : s.scopes.level? = some (n + 1)) :
    s.scopes.exit.level? = some n := by
  obtain ⟨m, hm, hlevel⟩ := hs.level?
  obtain rfl := Option.some.inj (hlevel.symm.trans h)
  rw [ScopeStack.level?_eq, ScopeStack.exit_levels, hm, reverse_range_succ, List.tail_cons,
    reverse_range_succ]
  rfl

namespace Reflects

lemma start : Reflects [] Resolver.start.scopes where
  depth n hn := by
    obtain rfl := Option.some.inj hn
    rfl
  found sc hsc x id hfind := by
    obtain rfl := List.mem_singleton.mp hsc
    simp at hfind
  covered x i hi := nomatch hi.before

lemma level_le (h : Reflects es s.scopes) (hs : s.Sound) {sc : Scope}
    (hsc : sc ∈ s.scopes.scopes) : (sc.level : ℤ) ≤ nesting es es.length := by
  obtain ⟨inner, outer, hscopes, hlevel, houter⟩ := hs.innermost
  rw [h.depth _ hlevel]
  rw [hscopes] at hsc
  rcases List.mem_cons.mp hsc with rfl | hsc
  · exact Int.le_refl _
  · exact Int.ofNat_le.mpr (Nat.le_of_lt (houter sc hsc))

/-- What a scope binds stays as long as it is open. -/
lemma found_snoc {st : ScopeStack} (h : Reflects es st) {sc : Scope} (hsc : sc ∈ st.scopes)
    (hopen : (sc.level : ℤ) ≤ nesting es es.length + e.delta) {id : SymbolId}
    (hfind : sc.find? x = some id) :
    ∃ i, First (es ++ [e]) x sc.level i ∧ symbolAt (es ++ [e]) i = some id := by
  obtain ⟨i, hfirst, hsymbol⟩ := h.found sc hsc x id hfind
  exact ⟨i, hfirst.snoc hopen, by rw [symbolAt_append hfirst.before, hsymbol]⟩

/-- An event that declares nothing makes nothing visible. -/
lemma covered_snoc {st : ScopeStack} (h : Reflects es st)
    (hi : Visible (es ++ [e]) x i (es ++ [e]).length) (he : e.declared? = none) :
    ∃ sc ∈ st.scopes, (sc.level : ℤ) ≤ nesting es es.length + e.delta ∧
      nesting (es ++ [e]) i = sc.level ∧ ∃ id, sc.find? x = some id := by
  rcases visible_snoc.mp hi with ⟨hold, hopen⟩ | ⟨-, y, kind, ty, hdeclare, -⟩
  · obtain ⟨sc, hsc, hlevel, hfind⟩ := h.covered x i hold
    refine ⟨sc, hsc, hlevel ▸ hopen, ?_, hfind⟩
    rw [nesting_append (Nat.le_of_lt hold.before), hlevel]
  · rw [hdeclare] at he
    cases he

/-- An event that concerns no scope. -/
lemma stay (h : Reflects es s.scopes) (hs : s.Sound) (hdelta : e.delta = 0)
    (he : e.declared? = none) : Reflects (es ++ [e]) s.scopes where
  depth n hn := by rw [nesting_snoc, hdelta, h.depth n hn, Int.add_zero]
  found sc hsc x id hfind :=
    h.found_snoc hsc (by rw [hdelta, Int.add_zero]; exact h.level_le hs hsc) hfind
  covered x i hi := by
    obtain ⟨sc, hsc, -, hlevel, hfind⟩ := h.covered_snoc hi he
    exact ⟨sc, hsc, hlevel, hfind⟩

lemma enter (h : Reflects es s.scopes) (hs : s.Sound) :
    Reflects (es ++ [.enter]) s.scopes.enter := by
  obtain ⟨inner, outer, -, hlevel, -⟩ := hs.innermost
  have hscopes : s.scopes.enter.scopes = Scope.empty (inner.level + 1) :: s.scopes.scopes := by
    rw [ScopeStack.enter, hlevel]
  refine ⟨fun n hn => ?_, fun sc hsc x id hfind => ?_, fun x i hi => ?_⟩
  · rw [ScopeStack.level?_enter hlevel] at hn
    obtain rfl := Option.some.inj hn
    rw [nesting_snoc, h.depth _ hlevel]
    rfl
  · rw [hscopes] at hsc
    rcases List.mem_cons.mp hsc with rfl | hsc
    · simp at hfind
    · have hle := h.level_le hs hsc
      exact h.found_snoc hsc (by simp only [Event.delta]; omega) hfind
  · obtain ⟨sc, hsc, -, hlevel, hfind⟩ := h.covered_snoc hi rfl
    exact ⟨sc, hscopes ▸ List.mem_cons_of_mem _ hsc, hlevel, hfind⟩

lemma exit {n : ℕ} (h : Reflects es s.scopes) (hs : s.Sound)
    (hn : s.scopes.level? = some (n + 1)) : Reflects (es ++ [.exit]) s.scopes.exit := by
  obtain ⟨inner, outer, hscopes, hlevel, houter⟩ := hs.innermost
  have hinner : inner.level = n + 1 := Option.some.inj (hlevel.symm.trans hn)
  have hexit : s.scopes.exit.scopes = outer := by rw [ScopeStack.exit, hscopes]; rfl
  have hdepth : nesting es es.length + Event.exit.delta = n := by
    rw [h.depth _ hn, Event.delta]
    push_cast
    omega
  refine ⟨fun m hm => ?_, fun sc hsc x id hfind => ?_, fun x i hi => ?_⟩
  · rw [hs.level?_exit hn] at hm
    obtain rfl := Option.some.inj hm
    rw [nesting_snoc, hdepth]
  · rw [hexit] at hsc
    have hlt := houter sc hsc
    exact h.found_snoc (hscopes ▸ List.mem_cons_of_mem _ hsc) (by omega) hfind
  · obtain ⟨sc, hsc, hopen, hlevel, hfind⟩ := h.covered_snoc hi rfl
    rw [hscopes] at hsc
    rcases List.mem_cons.mp hsc with rfl | hsc
    · omega
    · exact ⟨sc, hexit ▸ hsc, hlevel, hfind⟩

/-- If the innermost scope does not have the name, then a declaration of it is the first there. -/
lemma first_declare {st : ScopeStack} {y : Ident} {kind : SymbolKind} {ty : Ty} {inner : Scope}
    {outer : List Scope} (h : Reflects es st) (hscopes : st.scopes = inner :: outer)
    (hdepth : nesting es es.length = inner.level) (houter : ∀ sc ∈ outer, sc.level < inner.level)
    (hnone : inner.find? y.name = none) :
    First (es ++ [.declare y kind ty]) y.name inner.level es.length := by
  refine ⟨visible_snoc.mpr (.inr ⟨rfl, y, kind, ty, rfl, rfl⟩), ?_, fun i' hi' hsame => ?_⟩
  · rw [nesting_append (Nat.le_refl _), hdepth]
  · rcases visible_snoc.mp hi' with ⟨hold, -⟩ | ⟨rfl, -⟩
    · -- an older one at this level would be bound in the innermost scope
      rw [nesting_append (Nat.le_of_lt hold.before)] at hsame
      obtain ⟨sc, hsc, hat, id, hfind⟩ := h.covered _ i' hold
      rw [hscopes] at hsc
      rcases List.mem_cons.mp hsc with rfl | hsc
      · rw [hnone] at hfind
        cases hfind
      · have := houter sc hsc
        omega
    · exact Nat.le_refl _

/-- A declaration is bound unless the innermost scope has the name already. -/
lemma declare {y : Ident} {kind : SymbolKind} {ty : Ty} {id : SymbolId} (h : Reflects es s.scopes)
    (hs : s.Sound) (hid : y.symbol = some id) :
    Reflects (es ++ [.declare y kind ty]) (s.scopes.bind y.name id) := by
  obtain ⟨inner, outer, hscopes, hlevel, houter⟩ := hs.innermost
  have hdepth := h.depth _ hlevel
  have hbind : (s.scopes.bind y.name id).scopes = inner.insert y.name id :: outer := by
    rw [ScopeStack.bind, hscopes]
  have hopen : ∀ sc ∈ s.scopes.scopes,
      (sc.level : ℤ) ≤ nesting es es.length + (Event.declare y kind ty).delta := by
    intro sc hsc
    rw [Event.delta, Int.add_zero]
    exact h.level_le hs hsc
  refine ⟨fun n hn => ?_, fun sc hsc x id' hfind => ?_, fun x i hi => ?_⟩
  · rw [ScopeStack.level?_eq, ScopeStack.levels_bind, ← ScopeStack.level?_eq] at hn
    rw [nesting_snoc, h.depth n hn, Event.delta, Int.add_zero]
  · rw [hbind] at hsc
    rcases List.mem_cons.mp hsc with rfl | hsc
    · have hmem : inner ∈ s.scopes.scopes := hscopes ▸ List.mem_cons_self ..
      rcases Scope.find?_insert_cases hfind with hfind | ⟨hnone, rfl, rfl⟩
      · exact h.found_snoc hmem (hopen inner hmem) hfind
      · have hfirst : First (es ++ [.declare y kind ty]) y.name inner.level es.length :=
          h.first_declare hscopes hdepth houter hnone
        refine ⟨es.length, hfirst, ?_⟩
        rw [symbolAt, List.getElem?_concat_length]
        exact hid
    · have hmem : sc ∈ s.scopes.scopes := hscopes ▸ List.mem_cons_of_mem _ hsc
      exact h.found_snoc hmem (hopen sc hmem) hfind
  · rw [hbind]
    rcases visible_snoc.mp hi with ⟨hold, -⟩ | ⟨rfl, y', kind', ty', hdeclare, rfl⟩
    · rw [nesting_append (Nat.le_of_lt hold.before)]
      obtain ⟨sc, hsc, hat, id', hfind⟩ := h.covered x i hold
      rw [hscopes] at hsc
      rcases List.mem_cons.mp hsc with rfl | hsc
      · exact ⟨_, List.mem_cons_self .., hat, id', Scope.find?_insert_of_some hfind⟩
      · exact ⟨sc, List.mem_cons_of_mem _ hsc, hat, id', hfind⟩
    · obtain ⟨rfl, -, -⟩ := Event.declare.inj hdeclare
      refine ⟨_, List.mem_cons_self .., ?_, ?_⟩
      · rw [nesting_append (Nat.le_refl _), hdepth, Scope.level_insert]
      · rw [Scope.find?_insert, if_pos rfl]
        cases inner.find? y.name with
        | none => exact ⟨id, rfl⟩
        | some id' => exact ⟨id', rfl⟩

end Reflects

/-- **Step**: the stack goes on to hold what is visible. -/
lemma Event.Step.reflects (he : e.Step opts s t) (hs : s.Sound) (h : Reflects es s.scopes) :
    Reflects (es ++ [e]) t.scopes := by
  cases e with
  | enter =>
    obtain rfl := he
    exact h.enter hs
  | exit =>
    obtain ⟨⟨n, hn⟩, rfl⟩ := he
    exact h.exit hs hn
  | use x =>
    obtain ⟨-, rfl⟩ := he
    exact h.stay hs rfl rfl
  | declare x kind ty =>
    obtain ⟨size, position, u, -, hid, -, rfl⟩ := he
    exact h.declare hs hid
  | finish f params frame =>
    obtain ⟨id, ids, -, -, -, -, rfl⟩ := he
    exact h.stay hs rfl rfl

/-- **Run**: along every trace. -/
lemma Trace.reflects (htrace : Trace opts s es' t) (hs : s.Sound) (h : Reflects es s.scopes) :
    Reflects (es ++ es') t.scopes := by
  induction es' generalizing es s with
  | nil =>
    obtain rfl := htrace
    rwa [List.append_nil]
  | cons e rest ih =>
    obtain ⟨u, he, hrest⟩ := htrace
    have hreflects := ih hrest (he.sound hs) (he.reflects hs h)
    rwa [List.append_assoc] at hreflects

/-- What is found first from the innermost scope outwards is what the scope rule selects. -/
lemma Reflects.selected {id : SymbolId} (h : Reflects es s.scopes) (hs : s.Sound)
    (hlookup : s.scopes.lookup x = some id) :
    ∃ i, Selected es x i es.length ∧ symbolAt es i = some id := by
  obtain ⟨inside, sc, outside, hscopes, hfind, hnone⟩ := List.findSome?_eq_some_iff.mp hlookup
  obtain ⟨i, hfirst, hsymbol⟩ := h.found sc (by simp [hscopes]) x id hfind
  refine ⟨i, ⟨hfirst.toVisible, fun i' hi' => ?_, fun i' hi' hsame =>
    hfirst.first i' hi' (hsame.trans hfirst.level_eq)⟩, hsymbol⟩
  -- a visible declaration is bound in a scope that does not come before the one that was found
  obtain ⟨sc', hsc', hlevel, id', hfind'⟩ := h.covered x i' hi'
  have hle : sc'.level ≤ sc.level := by
    have hdecreasing : (s.scopes.scopes.map (·.level)).Pairwise (· > ·) := by
      obtain ⟨n, hn⟩ := hs.levels
      rw [ScopeStack.levels] at hn
      rw [hn, List.pairwise_reverse]
      exact List.pairwise_lt_range
    rw [hscopes, List.mem_append, List.mem_cons] at hsc'
    rw [hscopes, List.map_append, List.pairwise_append, List.map_cons,
      List.pairwise_cons] at hdecreasing
    rcases hsc' with hsc' | rfl | hsc'
    · rw [hnone sc' hsc'] at hfind'
      cases hfind'
    · exact Nat.le_refl _
    · exact Nat.le_of_lt (hdecreasing.2.1.1 _ (List.mem_map_of_mem hsc'))
  rw [hlevel, hfirst.level_eq]
  exact Int.ofNat_le.mpr hle

/-- Every use in a trace is bound as the scope rule says. -/
lemma Trace.selected {y : Ident} (h : Trace opts .start es t) (hj : es[j]? = some (.use y)) :
    ∃ i id, Selected es y.name i j ∧ symbolAt es i = some id ∧ y.symbol = some id := by
  obtain ⟨hlt, hget⟩ := List.getElem?_eq_some_iff.mp hj
  have hlength : (es.take j).length = j := List.length_take_of_le (Nat.le_of_lt hlt)
  have hsplit : es = es.take j ++ .use y :: es.drop (j + 1) := by
    rw [← hget, List.getElem_cons_drop, List.take_append_drop]
  rw [hsplit] at h
  obtain ⟨u, hbefore, v, ⟨⟨id, symbol, hid, hlookup, -, -⟩, -⟩, -⟩ := trace_append.mp h
  have hreflects : Reflects (es.take j) u.scopes :=
    hbefore.reflects Resolver.sound_start Reflects.start
  obtain ⟨i, hselected, hsymbol⟩ :=
    hreflects.selected (hbefore.sound Resolver.sound_start) hlookup
  refine ⟨i, id, ?_, ?_, hid⟩
  · have hwhole : Selected (es.take j ++ .use y :: es.drop (j + 1)) y.name i (es.take j).length :=
      hselected.append (Nat.le_refl _)
    rwa [← hsplit, hlength] at hwhole
  · have hwhole : symbolAt (es.take j ++ .use y :: es.drop (j + 1)) i = symbolAt (es.take j) i :=
      symbolAt_append hselected.before
    rw [← hsplit, hsymbol] at hwhole
    exact hwhole

/-! ### Symbols -/

/-- What a symbol has from its declaration. -/
def Symbol.signature (symbol : Symbol) : String × SymbolKind × Ty :=
  (symbol.name, symbol.kind, symbol.ty)

lemma Arena.signatures_setParams (a : Arena) (id : SymbolId) (ids : List SymbolId) :
    (Arena.setParams a id ids).toList.map Symbol.signature = a.toList.map Symbol.signature := by
  apply List.ext_getElem?
  intro k
  obtain ⟨params, hparams⟩ := Arena.getElem?_setParams a id k ids
  rw [List.getElem?_map, List.getElem?_map, Array.getElem?_toList, Array.getElem?_toList, hparams,
    Option.map_map]
  rfl

/-- Each declaration adds a symbol, with the next id. -/
lemma Trace.symbols (h : Trace opts s es t) :
    (declarations es).map (·.1.symbol) =
        (List.range' s.arena.size (declarations es).length).map some ∧
      t.arena.toList.map Symbol.signature =
        s.arena.toList.map Symbol.signature ++ signatures es := by
  induction es generalizing s with
  | nil =>
    obtain rfl := h
    simp [declarations, signatures]
  | cons e rest ih =>
    obtain ⟨u, he, hrest⟩ := h
    obtain ⟨hids, hsymbols⟩ := ih hrest
    cases e with
    | enter =>
      obtain rfl := he
      exact ⟨hids, hsymbols⟩
    | exit =>
      obtain ⟨-, rfl⟩ := he
      exact ⟨hids, hsymbols⟩
    | use x =>
      obtain ⟨-, rfl⟩ := he
      exact ⟨hids, hsymbols⟩
    | finish f params frame =>
      obtain ⟨id, ids, -, -, -, -, rfl⟩ := he
      rw [Arena.signatures_setParams] at hsymbols
      rw [show (Arena.setParams s.arena id ids).size = s.arena.size from Array.size_modify] at hids
      exact ⟨hids, hsymbols⟩
    | declare x kind ty =>
      obtain ⟨size, position, u, -, hid, -, rfl⟩ := he
      have hcons : declarations (.declare x kind ty :: rest) =
        (x, kind, ty) :: declarations rest := rfl
      rw [Array.size_push] at hids
      rw [Array.toList_push, List.map_append] at hsymbols
      rw [hcons, hsymbols, List.map_cons, List.length_cons, List.range'_succ, List.map_cons, hids,
        hid, List.append_assoc]
      exact ⟨rfl, rfl⟩

/-- Annotations do not matter for what is declared. -/
lemma signatures_bare (es : List Event) : signatures (es.map Event.bare) = signatures es := by
  induction es with
  | nil => rfl
  | cons e rest ih =>
    cases e with
    | declare x kind ty => exact congrArg ((x.name, kind, ty) :: ·) ih
    | enter | exit | use | finish => exact ih

/-- **Lexical scope**: if the names of a program are resolved from a fresh start without a report,
then nothing but annotations has changed, the declarations have the ids from 0 on, in order, and the
symbol with such an id has the name, kind and type that it was declared with. Each use of a name
stands for the symbol of the declaration that the scope rule selects. -/
theorem Session.resolve_lexical {s : Session} {p : Program} {a : Analysis}
    (hresolve : s.reset.resolve p = .ok a) (herrors : a.errors = []) :
    a.program.bare = p.bare ∧
      (declarations a.program.events).map (·.1.symbol) =
        (List.range (declarations a.program.events).length).map some ∧
      a.session.arena.toList.map Symbol.signature = signatures p.events ∧
      ∀ (j : ℕ) (x : Ident), a.program.events[j]? = some (.use x) →
        ∃ i id, Selected a.program.events x.name i j ∧
          symbolAt a.program.events i = some id ∧ x.symbol = some id := by
  obtain ⟨t, hrun, ht, hsession⟩ := Session.resolve_eq_ok hresolve
  obtain ⟨u, hwalk, rfl, -⟩ := Program.run_resolve hrun (ht.symm.trans herrors)
  obtain ⟨hids, hsymbols⟩ := hwalk.trace.symbols
  refine ⟨Program.bare_resolve hrun, ?_, ?_, fun j x hx => hwalk.trace.selected hx⟩
  · rw [hids, List.range_eq_range']
    rfl
  · rw [hsession, ← signatures_bare p.events, ← hwalk.bare, signatures_bare]
    exact hsymbols

/-- A function with a loop whose variable has the name of the parameter, and its value to start
with. -/
def shadowFunction : FunDecl where
  name := ⟨"f", 0, some 0⟩
  params := [⟨⟨"n", 0, some 1⟩, .int, none⟩]
  returns := some .int
  body := [.forLoop (some (.localVar ⟨⟨"n", 0, some 2⟩, .int, some (.name ⟨"n", 0, some 1⟩)⟩))
      (.name ⟨"n", 0, some 2⟩) none [],
    .ret (some (.name ⟨"n", 0, some 1⟩))]
  variableSize := 8
  parameterSize := 8

def shadowSession : Session :=
  { arena := #[⟨"f", .function, .int, 0, 0, [1]⟩, ⟨"n", .param, .int, 8, 0, []⟩,
      ⟨"n", .localVar, .int, 8, 8, []⟩] }

/-- The value and what follows the loop stand for the parameter, the condition for the variable. -/
theorem Session.resolve_shadow :
    ({} : Session).reset.resolve [.function shadowFunction] =
        .ok ⟨shadowSession, [.function shadowFunction], []⟩ ∧
      (∃ i, Selected shadowFunction.events "n" i 4 ∧ symbolAt shadowFunction.events i = some 1) ∧
      (∃ i, Selected shadowFunction.events "n" i 6 ∧ symbolAt shadowFunction.events i = some 2) ∧
      ∃ i, Selected shadowFunction.events "n" i 10 ∧
        symbolAt shadowFunction.events i = some 1 := by
  have hresolve : ({} : Session).reset.resolve [.function shadowFunction] =
    .ok ⟨shadowSession, [.function shadowFunction], []⟩ := rfl
  have hevents : Program.events [.function shadowFunction] = shadowFunction.events := rfl
  obtain ⟨-, -, -, hselected⟩ := Session.resolve_lexical hresolve rfl
  simp only [hevents] at hselected
  refine ⟨hresolve, ?_, ?_, ?_⟩
  · obtain ⟨i, id, hi, hsymbol, hid⟩ := hselected 4 ⟨"n", 0, some 1⟩ rfl
    exact ⟨i, hi, hsymbol.trans hid.symm⟩
  · obtain ⟨i, id, hi, hsymbol, hid⟩ := hselected 6 ⟨"n", 0, some 2⟩ rfl
    exact ⟨i, hi, hsymbol.trans hid.symm⟩
  · obtain ⟨i, id, hi, hsymbol, hid⟩ := hselected 10 ⟨"n", 0, some 1⟩ rfl
    exact ⟨i, hi, hsymbol.trans hid.symm⟩

end TreeCompiler

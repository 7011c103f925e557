import Mathlib.Data.List.Forall2
import TreeCompiler.Proofs.Binding

/-!
Scopes without buckets.

A scope is a hash table, but what it stands for is simpler: the list of its bindings in the order
in which they were made, and the open scopes are a stack of such lists. `PlainScopes` is that
stack. A scope `Holds` a list if each bucket has those of its bindings that belong there, in their
order. Every action on the scopes keeps this, so names that share a bucket are never mistaken for
each other.
-/

namespace TreeCompiler

/-- What can be done to the open scopes. -/
inductive ScopeAction where
  | enter
  | exit
  | bind (name : String) (id : SymbolId)
deriving DecidableEq, Repr

def ScopeStack.act (st : ScopeStack) : ScopeAction → ScopeStack
  | .enter => st.enter
  | .exit => st.exit
  | .bind x id => st.bind x id

def ScopeStack.run (st : ScopeStack) (actions : List ScopeAction) : ScopeStack :=
  actions.foldl act st

/-- The bindings of the open scopes, innermost scope first, and oldest binding first in each. -/
abbrev PlainScopes := List (List Binding)

namespace PlainScopes

/-- Outside of all scopes there is nothing to close, and no place for a binding. -/
def act : PlainScopes → ScopeAction → PlainScopes
  | plain, .enter => [] :: plain
  | plain, .exit => plain.tail
  | [], .bind _ _ => []
  | bs :: outer, .bind x id => (bs ++ [⟨x, id⟩]) :: outer

def run (plain : PlainScopes) (actions : List ScopeAction) : PlainScopes := actions.foldl act plain

end PlainScopes

/-- The list has no binding of that name. -/
def Unbound (x : String) (bs : List Binding) : Prop := ∀ b ∈ bs, b.name ≠ x

/-- The first binding of that name in the list is one to `id`. -/
def FirstBound (x : String) (id : SymbolId) (bs : List Binding) : Prop :=
  ∃ before after, bs = before ++ ⟨x, id⟩ :: after ∧ Unbound x before

/-- The innermost scope that binds the name binds it to `id` first. -/
def PlainScopes.Sees (plain : PlainScopes) (x : String) (id : SymbolId) : Prop :=
  ∃ inner bs outer, plain = inner ++ bs :: outer ∧ FirstBound x id bs ∧ ∀ sc ∈ inner, Unbound x sc

/-! ### Bindings in a list -/

section Lists

variable {x : String} {id : SymbolId} {bs : List Binding} {plain : PlainScopes}

def firstBound? (x : String) (bs : List Binding) : Option SymbolId :=
  (bs.find? (·.name == x)).map (·.symbol)

lemma firstBound?_eq_none_iff : firstBound? x bs = none ↔ Unbound x bs := by
  simp [firstBound?, Unbound]

lemma firstBound?_eq_some_iff : firstBound? x bs = some id ↔ FirstBound x id bs := by
  rw [firstBound?, Option.map_eq_some_iff]
  constructor
  · rintro ⟨b, hb, rfl⟩
    obtain ⟨hname, before, after, rfl, hbefore⟩ := List.find?_eq_some_iff_append.mp hb
    obtain rfl : b.name = x := by simpa using hname
    exact ⟨before, after, rfl, fun b' hb' => by simpa using hbefore b' hb'⟩
  · rintro ⟨before, after, rfl, hbefore⟩
    refine ⟨⟨x, id⟩, List.find?_eq_some_iff_append.mpr ⟨by simp, before, after, rfl, ?_⟩, rfl⟩
    exact fun b hb => by simpa using hbefore b hb

lemma PlainScopes.sees_iff : plain.Sees x id ↔ plain.findSome? (firstBound? x) = some id := by
  rw [Sees, List.findSome?_eq_some_iff]
  simp only [firstBound?_eq_none_iff, firstBound?_eq_some_iff]

end Lists

/-! ### Buckets -/

namespace Scope

variable {sc : Scope} {bs : List Binding}

/-- Each bucket has the bindings that belong there, in their order. -/
def Holds (sc : Scope) (bs : List Binding) : Prop :=
  ∀ i : Fin bucketCount, sc.buckets[i] = bs.filter (bucketOf ·.name = i)

lemma holds_empty (level : ℕ) : (empty level).Holds [] := by
  intro i
  simp [empty]

lemma Holds.insert (h : sc.Holds bs) (x : String) (id : SymbolId) :
    (sc.insert x id).Holds (bs ++ [⟨x, id⟩]) := by
  intro i
  rw [List.filter_append, ← h i]
  by_cases hi : bucketOf x = i
  · subst hi
    simp [Scope.insert]
  · have hval : (bucketOf x).val ≠ i.val := fun e => hi (Fin.ext e)
    simp [Scope.insert, hi, Vector.getElem_set_ne, hval]

/-- In the bucket of a name, bindings of other names do not get in its way. -/
lemma Holds.find?_eq (h : sc.Holds bs) (x : String) : sc.find? x = firstBound? x bs := by
  rw [find?, firstBound?, h, List.find?_filter]
  congr 2
  funext b
  by_cases hb : b.name = x <;> simp [hb]

end Scope

/-! ### Stacks of scopes -/

namespace ScopeStack

variable {st : ScopeStack} {plain : PlainScopes}

/-- Each open scope holds its list, and the levels count the scopes from the outermost one. -/
structure Holds (st : ScopeStack) (plain : PlainScopes) : Prop where
  scopes : List.Forall₂ Scope.Holds st.scopes plain
  levels : st.levels = (List.range plain.length).reverse

lemma holds_nil : ({} : ScopeStack).Holds [] := ⟨.nil, rfl⟩

namespace Holds

lemma level?_eq (h : st.Holds plain) :
    st.level? = if plain.length = 0 then none else some (plain.length - 1) := by
  rw [ScopeStack.level?_eq, h.levels]
  cases plain with
  | nil => rfl
  | cons bs outer => simp [reverse_range_succ]

lemma enter (h : st.Holds plain) : st.enter.Holds ([] :: plain) := by
  refine ⟨.cons (Scope.holds_empty _) h.scopes, ?_⟩
  have hlevel := h.level?_eq
  rw [List.length_cons, reverse_range_succ, ← h.levels, ScopeStack.enter, hlevel]
  by_cases hnil : plain.length = 0
  · simp [ScopeStack.levels, Scope.empty, hnil]
  · simp [ScopeStack.levels, Scope.empty, hnil, Nat.sub_add_cancel (Nat.pos_of_ne_zero hnil)]

lemma exit (h : st.Holds plain) : st.exit.Holds plain.tail := by
  cases plain with
  | nil =>
    obtain ⟨scopes⟩ := st
    obtain rfl := List.forall₂_nil_right_iff.mp h.scopes
    exact h
  | cons bs outer =>
    obtain ⟨sc, scopes, hsc, hscopes, heq⟩ := List.forall₂_cons_right_iff.mp h.scopes
    refine ⟨?_, ?_⟩
    · rw [ScopeStack.exit, heq]
      exact hscopes
    · rw [exit_levels, h.levels, List.length_cons, reverse_range_succ]
      rfl

lemma bind (h : st.Holds plain) (x : String) (id : SymbolId) :
    (st.bind x id).Holds (plain.act (.bind x id)) := by
  cases plain with
  | nil =>
    obtain ⟨scopes⟩ := st
    obtain rfl := List.forall₂_nil_right_iff.mp h.scopes
    exact h
  | cons bs outer =>
    obtain ⟨sc, scopes, hsc, hscopes, heq⟩ := List.forall₂_cons_right_iff.mp h.scopes
    refine ⟨?_, by rw [levels_bind, h.levels]; rfl⟩
    rw [ScopeStack.bind, heq]
    exact .cons (hsc.insert x id) hscopes

/-- What one action keeps. -/
lemma act (h : st.Holds plain) (a : ScopeAction) : (st.act a).Holds (plain.act a) := by
  cases a with
  | enter => exact h.enter
  | exit => exact h.exit
  | bind x id => exact h.bind x id

/-- What a run keeps. -/
lemma run (h : st.Holds plain) (actions : List ScopeAction) :
    (st.run actions).Holds (plain.run actions) := by
  induction actions generalizing st plain with
  | nil => exact h
  | cons a rest ih => exact ih (h.act a)

lemma depth_eq (h : st.Holds plain) : st.depth = plain.length := h.scopes.length_eq

lemma lookup_eq (h : st.Holds plain) (x : String) :
    st.lookup x = plain.findSome? (firstBound? x) := by
  obtain ⟨hscopes, -⟩ := h
  rw [lookup]
  generalize st.scopes = scopes at hscopes
  induction hscopes with
  | nil => rfl
  | cons hsc _ ih => rw [List.findSome?_cons, List.findSome?_cons, hsc.find?_eq x, ih]

lemma lookupCurrent_eq (h : st.Holds plain) (x : String) :
    st.lookupCurrent x = plain.head?.bind (firstBound? x) := by
  have hscopes := h.scopes
  rw [lookupCurrent]
  generalize st.scopes = scopes at hscopes
  cases hscopes with
  | nil => rfl
  | cons hsc _ => exact hsc.find?_eq x

end Holds

/-- **Scopes are stacks of lists**: whatever scopes are opened and closed and whatever is bound in
them, in any order and outside of all scopes too, the buckets hold the bindings of the scopes that
are still open. A look-up finds the first binding of the name in the innermost of them that has one,
or the first in the innermost scope only, and finds nothing exactly if there is none. -/
theorem lookup_after_run (actions : List ScopeAction) :
    let st := ScopeStack.run {} actions
    let plain := PlainScopes.run [] actions
    List.Forall₂ Scope.Holds st.scopes plain ∧
    (∀ x, (∀ id, st.lookup x = some id ↔ plain.Sees x id) ∧
      (st.lookup x = none ↔ ∀ bs ∈ plain, Unbound x bs) ∧
      (∀ id, st.lookupCurrent x = some id ↔ ∃ bs ∈ plain.head?, FirstBound x id bs) ∧
      (st.lookupCurrent x = none ↔ ∀ bs ∈ plain.head?, Unbound x bs)) ∧
    st.depth = plain.length ∧
    st.level? = if st.depth = 0 then none else some (st.depth - 1) := by
  intro st plain
  have h : st.Holds plain := holds_nil.run actions
  refine ⟨h.scopes, fun x => ⟨fun id => ?_, ?_, fun id => ?_, ?_⟩, h.depth_eq, ?_⟩
  · rw [h.lookup_eq, PlainScopes.sees_iff]
  · rw [h.lookup_eq, List.findSome?_eq_none_iff]
    simp only [firstBound?_eq_none_iff]
  · rw [h.lookupCurrent_eq, Option.bind_eq_some_iff]
    simp only [firstBound?_eq_some_iff, Option.mem_def]
  · rw [h.lookupCurrent_eq, Option.bind_eq_none_iff]
    simp only [firstBound?_eq_none_iff, Option.mem_def]
  · rw [h.depth_eq, h.level?_eq]

/-- Two names of one bucket, each bound in two scopes of which one is closed again. -/
example : bucketOf "Aa" = bucketOf "BB" ∧
    let st := ScopeStack.run {} [.bind "Aa" 7, .enter, .bind "BB" 1, .bind "Aa" 2, .bind "BB" 3,
      .enter, .bind "Aa" 4, .exit, .enter]
    st.lookup "BB" = some 1 ∧ st.lookup "Aa" = some 2 ∧ st.lookupCurrent "Aa" = none := by
  decide +kernel

end ScopeStack

end TreeCompiler

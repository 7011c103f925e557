import TreeCompiler.Proofs.Reanalysis

/-!
Other names and other types in a tree.

A relabelling changes the names and the types in a tree, and nothing else: the tree keeps its shape,
its literals and its annotations. If the names stay apart and the types keep what analysis asks of
them, then name resolution takes the relabelled tree through states that differ from those of the
tree in the same way, and only in that way. What is reported is the same up to what the reports
quote.

The two walks may also have different options, one of which lets a scope declare a name twice. They
then stay together as long as the other one reports nothing.
-/

namespace TreeCompiler

/-! ### Trees -/

/-- A name for each name, and a type for each type. -/
structure Relabelling where
  name : String → String := id
  ty : Ty → Ty := id

def Ident.relabel (φ : Relabelling) (x : Ident) : Ident := { x with name := φ.name x.name }

def Symbol.relabel (φ : Relabelling) (symbol : Symbol) : Symbol :=
  { symbol with name := φ.name symbol.name, ty := φ.ty symbol.ty }

/-- All leaves of a tree but for the bytes. -/
def Relabelling.leaves (φ : Relabelling) : LeafMap where
  declared := Ident.relabel φ
  used := Ident.relabel φ
  called := Ident.relabel φ
  ty := φ.ty

def Program.relabel (φ : Relabelling) (p : Program) : Program := p.image φ.leaves

lemma Program.relabel_id (p : Program) : p.relabel {} = p := p.image_id

lemma Arena.map_relabel_id (arena : Arena) : arena.map (Symbol.relabel {}) = arena :=
  Array.map_id arena

/-! ### Laws -/

namespace Relabelling

/-- Checking sees no difference: the built-in keeps its name, and types keep what they are compared
by. -/
structure KeepsTyping (φ : Relabelling) : Prop where
  print (x : String) : φ.name x = printName ↔ x = printName
  void : φ.ty .void = .void
  int : φ.ty .int = .int
  bool : φ.ty .bool = .bool
  element (t : Ty) : (φ.ty t).element = φ.ty t.element
  isNumeric (t : Ty) : (φ.ty t).isNumeric = t.isNumeric
  isBool (t : Ty) : (φ.ty t).isBool = t.isBool
  compatible (t u : Ty) : (φ.ty t).compatible (φ.ty u) = t.compatible u

/-- Resolution sees no difference either: different names stay different, and types keep the storage
that they take. -/
structure KeepsStorage (φ : Relabelling) : Prop extends φ.KeepsTyping where
  injective : Function.Injective φ.name
  isPointer (t : Ty) : (φ.ty t).isPointer = t.isPointer
  elementSize (t : Ty) : (φ.ty t).elementSize = t.elementSize
  elements? (t : Ty) : (φ.ty t).elements? = t.elements?

lemma KeepsStorage.size? {φ : Relabelling} (h : φ.KeepsStorage) (t : Ty) :
    (φ.ty t).size? = t.size? := by
  rw [Ty.size?, Ty.size?, h.elements?, h.elementSize]

lemma KeepsTyping.beq_print {φ : Relabelling} (h : φ.KeepsTyping) (x : Ident) :
    ((x.relabel φ).name == printName) = (x.name == printName) := by
  rw [Bool.eq_iff_iff, beq_iff_eq, beq_iff_eq]
  exact h.print x.name

lemma keepsStorage_id : KeepsStorage {} where
  print _ := Iff.rfl
  void := rfl
  int := rfl
  bool := rfl
  element _ := rfl
  isNumeric _ := rfl
  isBool _ := rfl
  compatible _ _ := rfl
  injective := Function.injective_id
  isPointer _ := rfl
  elementSize _ := rfl
  elements? _ := rfl

end Relabelling

/-! ### Reports -/

/-- The report, without the names and types that it quotes. -/
def Mismatch.unquoted : Mismatch → Mismatch
  | arith op _ _ => .arith op ⟨"", .void⟩ ⟨"", .void⟩
  | compare _ _ => .compare ⟨"", .void⟩ ⟨"", .void⟩
  | assign _ _ => .assign ⟨"", .void⟩ ⟨"", .void⟩
  | argument _ n _ _ => .argument "" n ⟨"", .void⟩ .void
  | arity _ m n => .arity "" m n
  | result _ _ _ => .result "" ⟨"", .void⟩ .void
  | condition c _ => .condition c ⟨"", .void⟩

def Diagnostic.unquoted : Diagnostic → Diagnostic
  | undefined _ => .undefined ""
  | mismatch m => .mismatch m.unquoted
  | missingReturnType _ => .missingReturnType ""
  | redefinition _ => .redefinition ""
  | unsupportedPointer _ => .unsupportedPointer ""
  | nestedFunction _ => .nestedFunction ""
  | notAVariable _ => .notAVariable ""
  | notAFunction _ => .notAFunction ""
  | storageTooLarge _ => .storageTooLarge ""
  | indexOutOfBounds _ n _ => .indexOutOfBounds "" n .void

/-- Two lists of reports of the same kinds, in the same order. -/
def SameKinds (es es' : List Diagnostic) : Prop :=
  es'.map Diagnostic.unquoted = es.map Diagnostic.unquoted

namespace SameKinds

variable {opts opts' : Options} {es es' : List Diagnostic}

lemma length_eq (h : SameKinds es es') : es'.length = es.length := by
  simpa using congrArg List.length h

lemma eq_nil_iff (h : SameKinds es es') : es' = [] ↔ es = [] := by
  rw [← List.length_eq_zero_iff, h.length_eq, List.length_eq_zero_iff]

lemma halts_eq (h : SameKinds es es') (hgoing : opts'.keepGoing = opts.keepGoing) :
    opts'.halts es' = opts.halts es := by
  have hempty : es'.isEmpty = es.isEmpty := by
    rw [Bool.eq_iff_iff, List.isEmpty_iff, List.isEmpty_iff, h.eq_nil_iff]
  rw [Options.halts, Options.halts, hempty, hgoing]

lemma report {d d' : Diagnostic} (h : SameKinds es es') (hgoing : opts'.keepGoing = opts.keepGoing)
    (hd : d'.unquoted = d.unquoted) : SameKinds (opts.report es d) (opts'.report es' d') := by
  rw [SameKinds, Options.report, Options.report, h.halts_eq hgoing]
  split
  · exact h
  · rw [List.map_append, List.map_append, h, List.map_singleton, List.map_singleton, hd]

end SameKinds

/-! ### Two walks -/

section Couples

variable {σ α β : Type} {R : σ → σ → Prop} {Q : σ → Prop} {E : α → α → Prop} {E' : β → β → Prop}
  {x y : StateT σ (Except Dangling) α} {f g : α → StateT σ (Except Dangling) β}

/-- From states that are related by `R`, `y` goes to a related state wherever `x` goes, and their
results are related by `E`. Only runs of `x` count that end with `Q`, and these have `Q` from the
start. -/
structure Couples (R : σ → σ → Prop) (Q : σ → Prop) (E : α → α → Prop)
    (x y : StateT σ (Except Dangling) α) : Prop where
  back {s t : σ} {a : α} : x s = .ok (a, t) → (Q t → Q s) ∧ ∃ b, E a b
  step {s s' t : σ} {a : α} : R s s' → x s = .ok (a, t) → Q t →
    ∃ b t', y s' = .ok (b, t') ∧ E a b ∧ R t t'

namespace Couples

lemma bind (h : Couples R Q E x y) (hf : ∀ a b, E a b → Couples R Q E' (f a) (g b)) :
    Couples R Q E' (x >>= f) (y >>= g) where
  back hrun := by
    obtain ⟨a, u, hx, hfa⟩ := run_bind.mp hrun
    obtain ⟨hback, b, hab⟩ := h.back hx
    obtain ⟨hback', hE'⟩ := (hf a b hab).back hfa
    exact ⟨fun ht => hback (hback' ht), hE'⟩
  step hs hrun ht := by
    obtain ⟨a, u, hx, hfa⟩ := run_bind.mp hrun
    -- the first step counts, since what comes behind it does
    obtain ⟨-, b₀, hab₀⟩ := h.back hx
    have hu : Q u := ((hf a b₀ hab₀).back hfa).1 ht
    obtain ⟨b, u', hy, hab, hu'⟩ := h.step hs hx hu
    obtain ⟨d, t', hgb, hE', ht'⟩ := (hf a b hab).step hu' hfa ht
    exact ⟨d, t', run_bind.mpr ⟨b, u', hy, hgb⟩, hE', ht'⟩

/-- Where the second result is told by the first one. -/
lemma bind_map {ψ : α → α} (h : Couples R Q (fun a b => ψ a = b) x y)
    (hf : ∀ a, Couples R Q E' (f a) (g (ψ a))) : Couples R Q E' (x >>= f) (y >>= g) := by
  refine h.bind fun a b hab => ?_
  subst hab
  exact hf a

lemma mono {F : α → α → Prop} (h : Couples R Q E x y) (hF : ∀ a b, E a b → F a b) :
    Couples R Q F x y where
  back hrun := by
    obtain ⟨hback, b, hab⟩ := h.back hrun
    exact ⟨hback, b, hF _ b hab⟩
  step hs hrun ht := by
    obtain ⟨b, t', hy, hab, ht'⟩ := h.step hs hrun ht
    exact ⟨b, t', hy, hF _ b hab, ht'⟩

lemma pure {a b : α} (h : E a b) : Couples R Q E (Pure.pure a) (Pure.pure b) where
  back hrun := by
    obtain ⟨rfl, rfl⟩ := run_pure.mp hrun
    exact ⟨id, b, h⟩
  step {_ s' _ _} hs hrun _ := by
    obtain ⟨rfl, rfl⟩ := run_pure.mp hrun
    exact ⟨b, s', run_pure.mpr ⟨rfl, rfl⟩, h, hs⟩

lemma lift {e e' : Except Dangling α} (h : ∀ a, e = .ok a → ∃ b, e' = .ok b ∧ E a b) :
    Couples R Q E (liftM e) (liftM e') where
  back hrun := by
    cases e with
    | ok a =>
      obtain ⟨rfl, rfl⟩ := Prod.mk.inj (Except.ok.inj hrun)
      obtain ⟨b, -, hab⟩ := h a rfl
      exact ⟨id, b, hab⟩
    | error d => cases hrun
  step {_ s' _ _} hs hrun _ := by
    cases e with
    | ok a =>
      obtain ⟨rfl, rfl⟩ := Prod.mk.inj (Except.ok.inj hrun)
      obtain ⟨b, rfl, hab⟩ := h a rfl
      exact ⟨b, s', rfl, hab, hs⟩
    | error d => cases hrun

lemma modify {f f' : σ → σ} (hback : ∀ s, Q (f s) → Q s)
    (hstep : ∀ s s', R s s' → Q (f s) → R (f s) (f' s')) :
    Couples R Q Eq (modify f) (modify f') where
  back hrun := by
    obtain ⟨-, rfl⟩ := Prod.mk.inj (Except.ok.inj hrun)
    exact ⟨hback _, _, rfl⟩
  step {_ s' _ _} hs hrun ht := by
    obtain ⟨-, rfl⟩ := Prod.mk.inj (Except.ok.inj hrun)
    exact ⟨_, f' s', rfl, rfl, hstep _ s' hs ht⟩

/-- What is read of the state is told by a relation that each state has to itself. -/
lemma get_bind {K : σ → σ → Prop} {f g : σ → StateT σ (Except Dangling) α} (hrefl : ∀ s, K s s)
    (hK : ∀ s s', R s s' → K s s') (h : ∀ s s', K s s' → Couples R Q E (f s) (g s')) :
    Couples R Q E (get >>= f) (get >>= g) where
  back {s _ _} hrun := by
    have hsame := h s s (hrefl s)
    exact hsame.back (run_get_bind.mp hrun)
  step {s s' _ _} hs hrun ht := by
    have hrelated := h s s' (hK s s' hs)
    exact hrelated.step hs (run_get_bind.mp hrun) ht

end Couples

end Couples

/-! ### Related states -/

variable {φ : Relabelling}

/-- The scopes bind the names that belong together to the same symbols. -/
structure Scope.Follows (φ : Relabelling) (sc sc' : Scope) : Prop where
  level : sc'.level = sc.level
  find (x : String) : sc'.find? (φ.name x) = sc.find? x

def ScopeStack.Follows (φ : Relabelling) (st st' : ScopeStack) : Prop :=
  List.Forall₂ (Scope.Follows φ) st.scopes st'.scopes

namespace ScopeStack.Follows

variable {st st' : ScopeStack}

lemma level? (h : st.Follows φ st') : st'.level? = st.level? :=
  match st, st', h with
  | ⟨[]⟩, ⟨[]⟩, .nil => rfl
  | ⟨_ :: _⟩, ⟨_ :: _⟩, .cons hsc _ => congrArg some hsc.level

lemma lookup (h : st.Follows φ st') (x : String) : st'.lookup (φ.name x) = st.lookup x := by
  rw [ScopeStack.lookup, ScopeStack.lookup]
  obtain ⟨scs⟩ := st
  obtain ⟨scs'⟩ := st'
  change List.Forall₂ _ scs scs' at h
  induction h with
  | nil => rfl
  | cons hsc _ ih => rw [List.findSome?_cons, List.findSome?_cons, hsc.find, ih]

lemma lookupCurrent (h : st.Follows φ st') (x : String) :
    st'.lookupCurrent (φ.name x) = st.lookupCurrent x :=
  match st, st', h with
  | ⟨[]⟩, ⟨[]⟩, .nil => rfl
  | ⟨_ :: _⟩, ⟨_ :: _⟩, .cons hsc _ => hsc.find x

lemma enter (h : st.Follows φ st') : st.enter.Follows φ st'.enter := by
  rw [ScopeStack.enter, ScopeStack.enter, h.level?]
  exact .cons ⟨rfl, fun x => by simp⟩ h

lemma exit (h : st.Follows φ st') : st.exit.Follows φ st'.exit :=
  match st, st', h with
  | ⟨[]⟩, ⟨[]⟩, .nil => .nil
  | ⟨_ :: _⟩, ⟨_ :: _⟩, .cons _ houter => houter

/-- Different names stay different, so a new binding hides the same names on both sides. -/
lemma bind (h : st.Follows φ st') (hφ : Function.Injective φ.name) (x : String) (id : SymbolId) :
    (st.bind x id).Follows φ (st'.bind (φ.name x) id) :=
  match st, st', h with
  | ⟨[]⟩, ⟨[]⟩, .nil => .nil
  | ⟨_ :: _⟩, ⟨_ :: _⟩, .cons hsc houter =>
    .cons ⟨hsc.level, fun y => by simp only [Scope.find?_insert, hsc.find, hφ.eq_iff]⟩ houter

end ScopeStack.Follows

lemma Arena.find_map {arena : Arena} {id : SymbolId} {symbol : Symbol} (f : Symbol → Symbol)
    (h : Arena.find arena id = .ok symbol) : Arena.find (arena.map f) id = .ok (f symbol) := by
  rw [Arena.find_eq_ok_iff] at h ⊢
  rw [Array.getElem?_map, h]
  rfl

lemma Arena.setParams_map (arena : Arena) (id : SymbolId) (ids : List SymbolId) :
    Arena.setParams (arena.map (Symbol.relabel φ)) id ids =
      (Arena.setParams arena id ids).map (Symbol.relabel φ) := by
  refine Array.ext_getElem? fun i => ?_
  rw [Arena.setParams, Arena.setParams, Array.getElem?_map, Array.getElem?_modify,
    Array.getElem?_modify, Array.getElem?_map]
  split
  · rw [Option.map_map, Option.map_map]
    rfl
  · rfl

/-- The state of the relabelled walk: it has the same symbols at the same ids, under their other
names and with their other types. -/
structure Resolver.Follows (φ : Relabelling) (s s' : Resolver) : Prop where
  arena : s'.arena = s.arena.map (Symbol.relabel φ)
  scopes : s.scopes.Follows φ s'.scopes
  errors : SameKinds s.errors s'.errors
  frame : s'.frame = s.frame
  globals : s'.globals = s.globals

/-- What both walks read of their states. -/
structure Resolver.Reads (s s' : Resolver) : Prop where
  frame : s'.frame = s.frame
  used : s'.used = s.used
  kind : s'.variableKind = s.variableKind

lemma Resolver.Follows.reads {s s' : Resolver} (h : s.Follows φ s') : s.Reads s' where
  frame := h.frame
  used := by rw [used, used, h.frame, h.globals]
  kind := by rw [variableKind, variableKind, h.scopes.level?]

/-- The second options may let a scope declare a name twice where the first do not. -/
structure Options.Relaxes (opts opts' : Options) : Prop where
  keepGoing : opts'.keepGoing = opts.keepGoing
  allowRedeclaration : opts.allowRedeclaration = true → opts'.allowRedeclaration = true

/-- With different options only walks count that report nothing. -/
def Resolver.Counts (opts opts' : Options) (s : Resolver) : Prop := opts' = opts ∨ s.errors = []

/-! ### Steps of resolution -/

namespace Resolve

variable {opts opts' : Options} {α : Type} {E : α → α → Prop} {x y : Resolve α}

lemma run_bind_of_taken {s : Resolver} {x : Ident} {symbol : Symbol}
    (h : (!opts.allowRedeclaration && (s.scopes.lookupCurrent x.name).isSome) = true) :
    Resolve.bind opts x symbol s =
      .ok ((x, none), { s with errors := opts.report s.errors (.redefinition x.render) }) :=
  congrFun (if_pos h) s

lemma run_bind_of_free {s : Resolver} {x : Ident} {symbol : Symbol}
    (h : ¬(!opts.allowRedeclaration && (s.scopes.lookupCurrent x.name).isSome) = true) :
    Resolve.bind opts x symbol s =
      .ok (({ x with symbol := some s.arena.size }, some s.arena.size),
        { s with arena := s.arena.push symbol, scopes := s.scopes.bind x.name s.arena.size }) :=
  congrFun (if_neg h) s

/-- A walk, and its relabelled walk. -/
abbrev Couples (φ : Relabelling) (opts opts' : Options) (E : α → α → Prop) (x y : Resolve α) :
    Prop :=
  TreeCompiler.Couples (Resolver.Follows φ) (Resolver.Counts opts opts') E x y

namespace Couples

lemma get_bind {f g : Resolver → Resolve α}
    (h : ∀ s s', s.Reads s' → Couples φ opts opts' E (f s) (g s')) :
    Couples φ opts opts' E (get >>= f) (get >>= g) :=
  TreeCompiler.Couples.get_bind (fun _ => ⟨rfl, rfl, rfl⟩) (fun _ _ hs => hs.reads) h

/-- A change of the state in which nothing is reported. -/
lemma modify {f f' : Resolver → Resolver} (herrors : ∀ s, (f s).errors = s.errors)
    (h : ∀ s s', s.Follows φ s' → (f s).Follows φ (f' s')) :
    Couples φ opts opts' Eq (modify f) (modify f') := by
  refine TreeCompiler.Couples.modify (fun s => ?_) fun s s' hs _ => h s s' hs
  rw [Resolver.Counts, herrors]
  exact id

lemma find_bind {f g : Symbol → Resolve α} (id : SymbolId)
    (h : ∀ symbol, Couples φ opts opts' E (f symbol) (g (symbol.relabel φ))) :
    Couples φ opts opts' E (do let symbol ← Arena.find (← get).arena id; f symbol)
      (do let symbol ← Arena.find (← get).arena id; g symbol) where
  back hrun := by
    obtain ⟨symbol, -, hf⟩ := run_lift_bind.mp (run_get_bind.mp hrun)
    exact (h symbol).back hf
  step hs hrun ht := by
    obtain ⟨symbol, hsymbol, hf⟩ := run_lift_bind.mp (run_get_bind.mp hrun)
    obtain ⟨b, t', hg, hE, ht'⟩ := (h symbol).step hs hf ht
    refine ⟨b, t', run_get_bind.mpr (run_lift_bind.mpr ⟨_, ?_, hg⟩), hE, ht'⟩
    rw [hs.arena]
    exact Arena.find_map _ hsymbol

lemma inScope (h : Couples φ opts opts' E x y) :
    Couples φ opts opts' E (inScope x) (inScope y) := by
  have henter : Couples φ opts opts' Eq enter enter :=
    modify (fun _ => rfl) fun _ _ hs => { hs with scopes := hs.scopes.enter }
  have hexit : Couples φ opts opts' Eq exit exit :=
    modify (fun _ => rfl) fun _ _ hs => { hs with scopes := hs.scopes.exit }
  exact henter.bind fun _ _ _ => h.bind fun _ _ hab => hexit.bind fun _ _ _ => .pure hab

lemma setParams (fn : Option SymbolId) (ids : List SymbolId) :
    Couples φ opts opts' Eq (setParams fn ids) (setParams fn ids) := by
  cases fn with
  | none => exact .pure rfl
  | some i =>
    refine find_bind i fun _ => modify (fun _ => rfl) fun s s' hs => { hs with arena := ?_ }
    simp only [hs.arena, Arena.setParams_map]

section Options

variable (hopts : opts.Relaxes opts')

include hopts

lemma report {d d' : Diagnostic} (h : d'.unquoted = d.unquoted) :
    Couples φ opts opts' Eq (report opts d) (report opts' d') := by
  refine TreeCompiler.Couples.modify (fun s ht => ?_) fun s s' hs _ =>
    { hs with errors := hs.errors.report hopts.keepGoing h }
  exact ht.imp_right fun hnil => absurd hnil (opts.report_ne_nil _ _)

lemma report_pure {d d' : Diagnostic} {a b : α} (h : d'.unquoted = d.unquoted) (hab : E a b) :
    Couples φ opts opts' E (do Resolve.report opts d; Pure.pure a)
      (do Resolve.report opts' d'; Pure.pure b) :=
  (report hopts h).bind fun _ _ _ => .pure hab

lemma unlessHalted {a b : α} (h : Couples φ opts opts' E x y) (hab : E a b) :
    Couples φ opts opts' E (unlessHalted opts a x) (unlessHalted opts' b y) where
  back hrun := by
    rw [Resolve.unlessHalted] at hrun
    split at hrun
    · obtain ⟨rfl, rfl⟩ := Prod.mk.inj (Except.ok.inj hrun)
      exact ⟨id, b, hab⟩
    · exact h.back hrun
  step {_ s' _ _} hs hrun ht := by
    rw [Resolve.unlessHalted, hs.errors.halts_eq hopts.keepGoing]
    rw [Resolve.unlessHalted] at hrun
    split at hrun
    · next hhalts =>
      obtain ⟨rfl, rfl⟩ := Prod.mk.inj (Except.ok.inj hrun)
      rw [if_pos hhalts]
      exact ⟨b, s', rfl, hab, hs⟩
    · next hhalts =>
      rw [if_neg hhalts]
      exact h.step hs hrun ht

variable (hφ : φ.KeepsStorage)

include hφ

/-- The only step that depends on whether a scope may declare a name twice. -/
lemma bind_symbol (x : Ident) (symbol : Symbol) :
    Couples φ opts opts' (fun p q => (p.1.relabel φ, p.2) = q) (Resolve.bind opts x symbol)
      (Resolve.bind opts' (x.relabel φ) (symbol.relabel φ)) where
  back {s t p} hrun := by
    refine ⟨fun ht => ?_, _, rfl⟩
    by_cases htaken : (!opts.allowRedeclaration && (s.scopes.lookupCurrent x.name).isSome) = true
    · rw [run_bind_of_taken htaken] at hrun
      obtain ⟨-, rfl⟩ := Prod.mk.inj (Except.ok.inj hrun)
      exact ht.imp_right fun hnil => absurd hnil (opts.report_ne_nil _ _)
    · rw [run_bind_of_free htaken] at hrun
      obtain ⟨-, rfl⟩ := Prod.mk.inj (Except.ok.inj hrun)
      exact ht
  step {s s' t p} hs hrun ht := by
    have hlookup : s'.scopes.lookupCurrent (x.relabel φ).name = s.scopes.lookupCurrent x.name :=
      hs.scopes.lookupCurrent x.name
    by_cases htaken : (!opts.allowRedeclaration && (s.scopes.lookupCurrent x.name).isSome) = true
    · rw [run_bind_of_taken htaken] at hrun
      obtain ⟨rfl, rfl⟩ := Prod.mk.inj (Except.ok.inj hrun)
      -- this walk has a report, so it counts only if the options are the same
      obtain rfl : opts' = opts := ht.resolve_right (opts.report_ne_nil _ _)
      rw [← hlookup] at htaken
      exact ⟨_, _, run_bind_of_taken htaken, rfl,
        { hs with errors := hs.errors.report hopts.keepGoing rfl }⟩
    · rw [run_bind_of_free htaken] at hrun
      obtain ⟨rfl, rfl⟩ := Prod.mk.inj (Except.ok.inj hrun)
      have hfree : ¬(!opts'.allowRedeclaration &&
          (s'.scopes.lookupCurrent (x.relabel φ).name).isSome) = true := by
        have hallow := hopts.allowRedeclaration
        rw [hlookup]
        grind
      have hsize : s'.arena.size = s.arena.size := by simp [hs.arena]
      rw [run_bind_of_free hfree, hsize]
      refine ⟨_, _, rfl, rfl, { hs with arena := ?_, scopes := hs.scopes.bind hφ.injective _ _ }⟩
      simp [hs.arena]

lemma placeVariable (x : Ident) (ty : Ty) :
    Couples φ opts opts' Eq (placeVariable opts x ty)
      (placeVariable opts' (x.relabel φ) (φ.ty ty)) := by
  refine get_bind fun s s' hs => ?_
  simp only [hs.used, hφ.size?]
  split
  · refine (modify (fun s => ?_) fun s s' hs => ?_).bind fun _ _ _ => .pure rfl
    · rw [Resolver.setUsed]
      split <;> rfl
    · rw [Resolver.setUsed, Resolver.setUsed, hs.frame]
      split
      · exact { hs with frame := rfl }
      · exact { hs with frame := rfl, globals := rfl }
  · exact report_pure hopts rfl rfl

lemma placeParameter (x : Ident) (ty : Ty) :
    Couples φ opts opts' Eq (placeParameter opts x ty)
      (placeParameter opts' (x.relabel φ) (φ.ty ty)) := by
  refine get_bind fun s s' hs => ?_
  simp only [hs.frame, hφ.size?]
  split
  · refine TreeCompiler.Couples.bind (modify ?_ ?_) fun _ _ _ => .pure rfl
    · exact fun _ => rfl
    · exact fun _ _ hs => { hs with frame := rfl }
  · exact report_pure hopts rfl rfl

end Options

end Couples

end Resolve

/-! ### The walk -/

section Walk

variable {opts opts' : Options}

lemma Ident.couples_resolve (hopts : opts.Relaxes opts') (hφ : φ.KeepsStorage) (x : Ident) :
    Resolve.Couples φ opts opts' (fun y y' => y.relabel φ = y') (x.resolve opts)
      ((x.relabel φ).resolve opts') := by
  have hunbound : Resolve.Couples φ opts opts' (fun y y' => y.relabel φ = y')
      (do Resolve.report opts (.undefined x.name); return x)
      (do Resolve.report opts' (.undefined (x.relabel φ).name); return x.relabel φ) :=
    .report_pure hopts rfl rfl
  have hbound (id : SymbolId) : Resolve.Couples φ opts opts' (fun y y' => y.relabel φ = y')
      (do
        let symbol ← Arena.find (← get).arena id
        if !symbol.isFunction && symbol.ty.elements?.any (· ≤ x.offset) then
          Resolve.report opts (.indexOutOfBounds x.name x.offset symbol.ty)
        return { x with symbol := some id })
      (do
        let symbol ← Arena.find (← get).arena id
        if !symbol.isFunction && symbol.ty.elements?.any (· ≤ x.offset) then
          Resolve.report opts' (.indexOutOfBounds (x.relabel φ).name x.offset symbol.ty)
        return { x.relabel φ with symbol := some id }) := by
    refine .find_bind id fun symbol => ?_
    have hty : (symbol.relabel φ).ty.elements? = symbol.ty.elements? := hφ.elements? symbol.ty
    have hfun : (symbol.relabel φ).isFunction = symbol.isFunction := rfl
    rw [hty, hfun]
    split
    · exact .report_pure hopts rfl rfl
    · exact .pure rfl
  constructor
  case back =>
    intro s t y hrun
    rw [Ident.resolve, run_get_bind] at hrun
    cases hfound : s.scopes.lookup x.name with
    | none =>
      rw [hfound] at hrun
      exact hunbound.back hrun
    | some id =>
      rw [hfound] at hrun
      exact (hbound id).back hrun
  case step =>
    intro s s' t y hs hrun ht
    have hlookup : s'.scopes.lookup (x.relabel φ).name = s.scopes.lookup x.name :=
      hs.scopes.lookup x.name
    simp only [Ident.resolve, run_get_bind, hlookup] at hrun ⊢
    cases hfound : s.scopes.lookup x.name with
    | none =>
      rw [hfound] at hrun
      exact hunbound.step hs hrun ht
    | some id =>
      rw [hfound] at hrun
      exact (hbound id).step hs hrun ht

lemma Ident.couples_resolveCalled (hopts : opts.Relaxes opts') (hφ : φ.KeepsStorage) (f : Ident) :
    Resolve.Couples φ opts opts' (fun g g' => g.relabel φ = g') (f.resolveCalled opts)
      ((f.relabel φ).resolveCalled opts') := by
  rw [resolveCalled, resolveCalled, hφ.beq_print]
  split
  · exact .pure rfl
  · exact f.couples_resolve hopts hφ

lemma Resolve.ExprRules.couples (hopts : opts.Relaxes opts') (hφ : φ.KeepsStorage) :
    ExprRules (fun E x y => Couples φ opts opts' E x y) opts opts' φ.leaves φ.leaves {} where
  pure h := TreeCompiler.Couples.pure h
  bind h hf := by
    refine h.bind fun a b hab => ?_
    exact (hf a b).mono fun _ _ hcd => hcd hab
  unlessHalted h hE := Couples.unlessHalted hopts h (hE rfl rfl)
  used x := x.couples_resolve hopts hφ
  called f := f.couples_resolveCalled hopts hφ

lemma Expr.couples_resolveOption (hopts : opts.Relaxes opts') (hφ : φ.KeepsStorage)
    (e : Option Expr) : Resolve.Couples φ opts opts' (fun a b => a.map (·.image φ.leaves) = b)
      (Expr.resolveOption opts e) (Expr.resolveOption opts' (e.map (·.image φ.leaves))) := by
  have hwalk := Expr.holds_resolveOption (.couples hopts hφ) e
  simpa only [Expr.imageOption_id] using hwalk

lemma Var.couples_resolve (hopts : opts.Relaxes opts') (hφ : φ.KeepsStorage) (v : Var) :
    Resolve.Couples φ opts opts' (fun a b => a.image φ.leaves = b) (v.resolve opts)
      ((v.image φ.leaves).resolve opts') := by
  have hpointer : (v.image φ.leaves).ty.isPointer = v.ty.isPointer := hφ.isPointer v.ty
  have hplace := Resolve.Couples.placeVariable hopts hφ v.name v.ty
  have hvalue := Expr.couples_resolveOption hopts hφ v.value
  rw [Var.resolve, Var.resolve, hpointer]
  split
  · exact .report_pure hopts rfl rfl
  · refine .get_bind fun s s' hs => ?_
    simp only [hs.kind]
    refine hplace.bind_map fun _ => hvalue.bind_map fun _ => ?_
    exact (Resolve.Couples.bind_symbol hopts hφ v.name _).bind_map fun _ => .pure rfl

lemma Param.couples_resolve (hopts : opts.Relaxes opts') (hφ : φ.KeepsStorage) (p : Param) :
    Resolve.Couples φ opts opts' (fun q r => (q.1.image φ.leaves, q.2) = r) (p.resolve opts)
      ((p.image φ.leaves).resolve opts') := by
  have hpointer : (p.image φ.leaves).ty.isPointer = p.ty.isPointer := hφ.isPointer p.ty
  have hplace := Resolve.Couples.placeParameter hopts hφ p.name p.ty
  have hfallback := Expr.couples_resolveOption hopts hφ p.fallback
  refine .unlessHalted hopts ?_ rfl
  rw [hpointer]
  split
  · exact .report_pure hopts rfl rfl
  · refine hplace.bind_map fun _ => hfallback.bind_map fun _ => ?_
    exact (Resolve.Couples.bind_symbol hopts hφ p.name _).bind_map fun _ => .pure rfl

lemma Param.couples_resolveAll (hopts : opts.Relaxes opts') (hφ : φ.KeepsStorage)
    (ps : List Param) :
    Resolve.Couples φ opts opts' (fun q r => (q.1.map (·.image φ.leaves), q.2) = r)
      (Param.resolveAll opts ps) (Param.resolveAll opts' (ps.map (·.image φ.leaves))) := by
  induction ps with
  | nil => exact .pure rfl
  | cons p rest ih =>
    exact (p.couples_resolve hopts hφ).bind_map fun _ => ih.bind_map fun _ => .pure rfl

/-- A function, from its body. -/
lemma FunDecl.couples_resolve (hopts : opts.Relaxes opts') (hφ : φ.KeepsStorage) (f : FunDecl)
    (hbody : Resolve.Couples φ opts opts' (fun a b => Stmt.imageAll φ.leaves a = b)
      (Stmt.resolveAll opts f.body) (Stmt.resolveAll opts' (Stmt.imageAll φ.leaves f.body))) :
    Resolve.Couples φ opts opts' (fun a b => a.image φ.leaves = b) (f.resolve opts)
      ((f.image φ.leaves).resolve opts') := by
  obtain ⟨name, params, returns, body, variableSize, parameterSize⟩ := f
  have hreturns : (returns.map φ.ty).getD .void = φ.ty (returns.getD .void) := by
    cases returns with
    | none => exact hφ.void.symm
    | some ty => rfl
  have hframe (f : Option Frame) : Resolve.Couples φ opts opts' Eq
      (modify fun s => { s with frame := f }) (modify fun s => { s with frame := f }) :=
    .modify (fun _ => rfl) fun _ _ hs => { hs with frame := rfl }
  have hinside : Resolve.Couples φ opts opts' (fun q r =>
        (q.1.map (·.image φ.leaves), q.2.1, Stmt.imageAll φ.leaves q.2.2) = r)
      (FunDecl.resolveInside opts params body)
      (FunDecl.resolveInside opts' (params.map (·.image φ.leaves))
        (Stmt.imageAll φ.leaves body)) := by
    refine (Param.couples_resolveAll hopts hφ params).bind_map fun _ => ?_
    exact hbody.bind_map fun _ => .pure rfl
  have hty : φ.leaves.ty = φ.ty := rfl
  rw [FunDecl.image, FunDecl.resolve, FunDecl.resolve, hty, hreturns]
  refine .get_bind fun s s' hs => ?_
  rw [hs.frame]
  split
  · exact .report_pure hopts rfl rfl
  · refine (Resolve.Couples.bind_symbol hopts hφ name _).bind_map fun bound => ?_
    refine (hframe _).bind_map fun _ => (Resolve.Couples.inScope hinside).bind_map fun inner => ?_
    refine Resolve.Couples.get_bind fun s s' hs => ?_
    simp only [hs.frame]
    refine (hframe none).bind_map fun _ => ?_
    exact (Resolve.Couples.setParams bound.2 inner.2.1).bind_map fun _ => .pure rfl

lemma Resolve.Rules.couples (hopts : opts.Relaxes opts') (hφ : φ.KeepsStorage) :
    Rules (fun E x y => Couples φ opts opts' E x y) opts opts' φ.leaves φ.leaves {} where
  toExprRules := .couples hopts hφ
  inScope h := Couples.inScope h
  var v := by
    simpa only [Var.image_id] using v.couples_resolve hopts hφ
  function f hbody := by
    simp only [Stmt.imageAll_id] at hbody
    simpa only [FunDecl.image_id] using f.couples_resolve hopts hφ hbody

/-- **Relabelled resolution**: a program and the relabelled program are resolved side by side. -/
lemma Program.couples_resolve (hopts : opts.Relaxes opts') (hφ : φ.KeepsStorage) (p : Program) :
    Resolve.Couples φ opts opts' (fun a b => a.relabel φ = b) (p.resolve opts)
      ((p.relabel φ).resolve opts') := by
  have hwalk := p.holds_resolve (.couples hopts hφ)
  simp only [Program.image_id] at hwalk
  exact hwalk

end Walk

/-! ### Sessions -/

/-- The relabelled analysis: the reports are of the same kinds, the tree is the relabelled tree, and
the symbols are the relabelled symbols. -/
structure Analysis.Follows (φ : Relabelling) (a a' : Analysis) : Prop where
  errors : SameKinds a.errors a'.errors
  program : a'.program = a.program.relabel φ
  arena : a'.session.arena = a.session.arena.map (Symbol.relabel φ)
  labels : a'.session.labels = a.session.labels
  bank : a'.session.bank = a.session.bank

lemma Session.follows_resolve {s : Session} {p : Program} {a : Analysis} (s' : Session)
    (hopts : s.options.Relaxes s'.options) (hφ : φ.KeepsStorage) (h : s.reset.resolve p = .ok a)
    (hcounts : s'.options = s.options ∨ a.errors = []) :
    ∃ a', s'.reset.resolve (p.relabel φ) = .ok a' ∧ a.Follows φ a' := by
  obtain ⟨t, hrun, herrors, hsession⟩ := Session.resolve_eq_ok h
  rw [herrors] at hcounts
  have hstart : Resolver.Follows φ { arena := #[], scopes := {} } { arena := #[], scopes := {} } :=
    ⟨by simp, .nil, rfl, rfl, rfl⟩
  obtain ⟨_, t', hrun', rfl, ht⟩ := (p.couples_resolve hopts hφ).step hstart hrun hcounts
  refine ⟨_, bind_eq_ok.mpr ⟨(_, t'), hrun', rfl⟩, ?_, rfl, ?_, ?_, ?_⟩
  · rw [herrors]
    exact ht.errors
  all_goals rw [hsession]
  · exact ht.arena
  · rfl
  · rfl

end TreeCompiler

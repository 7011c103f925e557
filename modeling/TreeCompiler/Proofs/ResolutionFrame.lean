import TreeCompiler.Proofs.Lookups

/-!
What name resolution leaves as it is.

Resolution writes to the arena in two ways: it declares a symbol behind all others, and it gives a
function its parameters. All writes of a walk are written down here in the order in which they
happen. Parameters go only to functions that the same walk has declared, so the symbols that were
there before stay as they are, and all new ones are in the end as they were declared, up to the
parameters of functions. What a walk opens it closes, also after a report: the scopes around the
innermost one stay as they are, and so do all scopes when the walk has its own.
-/

namespace TreeCompiler

variable {opts : Options} {s t u : Resolver} {α β : Type}

/-! ### Writes to the arena -/

inductive ArenaWrite where
  | declare (symbol : Symbol)
  | params (id : SymbolId) (ids : List SymbolId)

namespace Arena

variable {a : Arena} {old : ℕ} {w : ArenaWrite} {log log' : List ArenaWrite} {id : SymbolId}
  {symbol : Symbol}

def write (a : Arena) : ArenaWrite → Arena
  | .declare symbol => a.push symbol
  | .params id ids => Arena.setParams a id ids

def replay (a : Arena) (log : List ArenaWrite) : Arena := log.foldl write a

lemma replay_append : a.replay (log ++ log') = (a.replay log).replay log' := List.foldl_append

/-- A symbol is declared without parameters, and they are given to a function from `old` on. -/
def Allows (old : ℕ) (a : Arena) : ArenaWrite → Prop
  | .declare symbol => symbol.params = []
  | .params id _ => old ≤ id ∧ ∃ symbol, a[id]? = some symbol ∧ symbol.isFunction = true

/-- All writes are allowed where they happen. -/
def Orderly (old : ℕ) (a : Arena) : List ArenaWrite → Prop
  | [] => True
  | w :: log => a.Allows old w ∧ Orderly old (a.write w) log

/-- The symbols that are declared, in the order of their ids. -/
def declared (log : List ArenaWrite) : List Symbol :=
  log.filterMap fun
    | .declare symbol => some symbol
    | .params _ _ => none

lemma orderly_append : Orderly old a (log ++ log') ↔
    Orderly old a log ∧ Orderly old (a.replay log) log' := by
  induction log generalizing a with
  | nil => simp [Orderly, replay]
  | cons w rest ih =>
    rw [List.cons_append, Orderly, Orderly, ih, and_assoc]
    rfl

lemma Allows.mono {old' : ℕ} (hle : old' ≤ old) (h : a.Allows old w) : a.Allows old' w := by
  cases w with
  | declare symbol => exact h
  | params id ids => exact ⟨Nat.le_trans hle h.1, h.2⟩

lemma Orderly.mono {old' : ℕ} (hle : old' ≤ old) (h : Orderly old a log) : Orderly old' a log := by
  induction log generalizing a with
  | nil => trivial
  | cons w rest ih => exact ⟨h.1.mono hle, ih h.2⟩

lemma size_replay (a : Arena) (log : List ArenaWrite) :
    (a.replay log).size = a.size + (declared log).length := by
  induction log generalizing a with
  | nil => rfl
  | cons w rest ih =>
    have hrest : (a.replay (w :: rest)).size = (a.write w).size + (declared rest).length := ih _
    rw [hrest]
    cases w with
    | declare symbol =>
      simp only [write, Array.size_push, declared, List.filterMap_cons, List.length_cons]
      omega
    | params id ids => simp [write, declared]

/-- What is older than all that may get parameters is not written to. -/
lemma Allows.getElem?_write (h : a.Allows old w) (hold : old ≤ a.size) (hid : id < old) :
    (a.write w)[id]? = a[id]? := by
  cases w with
  | declare symbol =>
    have hne : id ≠ a.size := Nat.ne_of_lt (Nat.lt_of_lt_of_le hid hold)
    rw [write, Array.getElem?_push, if_neg hne]
  | params id' ids =>
    have hne : id' ≠ id := Nat.ne_of_gt (Nat.lt_of_lt_of_le hid h.1)
    rw [write, Arena.setParams, Array.getElem?_modify, if_neg hne]

lemma Orderly.getElem?_replay (h : Orderly old a log) (hold : old ≤ a.size) (hid : id < old) :
    (a.replay log)[id]? = a[id]? := by
  induction log generalizing a with
  | nil => rfl
  | cons w rest ih =>
    have hsize : a.size ≤ (a.write w).size := by
      have := size_replay a [w]
      rw [show a.replay [w] = a.write w from rfl] at this
      omega
    calc (a.replay (w :: rest))[id]? = (a.write w)[id]? := ih h.2 (Nat.le_trans hold hsize)
      _ = a[id]? := h.1.getElem?_write hold hid

/-- An arena is in front of what it becomes if nothing in it is written to. -/
lemma Orderly.toList_front (h : Orderly a.size a log) : a.toList <+: (a.replay log).toList := by
  rw [List.prefix_iff_getElem?]
  intro i hi
  have hlt : i < a.size := by simpa using hi
  have hsame := h.getElem?_replay (Nat.le_refl _) hlt
  rw [Array.getElem?_eq_getElem hlt] at hsame
  simpa using hsame

/-- A symbol stays as it is, up to the parameters of a function. -/
lemma Allows.keeps (h : a.Allows old w) (hsymbol : a[id]? = some symbol) :
    ∃ params, (a.write w)[id]? = some { symbol with params } ∧
      (symbol.isFunction = false → params = symbol.params) := by
  cases w with
  | declare new => exact ⟨symbol.params, Arena.getElem?_push_of_lt hsymbol new, fun _ => rfl⟩
  | params id' ids =>
    obtain ⟨-, function, hfunction, hkind⟩ := h
    rw [write, Arena.setParams, Array.getElem?_modify]
    split
    · next heq =>
      subst heq
      obtain rfl := Option.some.inj (hfunction.symm.trans hsymbol)
      exact ⟨ids, by rw [hsymbol]; rfl, fun hvariable => by simp [hvariable] at hkind⟩
    · exact ⟨symbol.params, hsymbol, fun _ => rfl⟩

lemma Orderly.keeps (h : Orderly old a log) (hsymbol : a[id]? = some symbol) :
    ∃ params, (a.replay log)[id]? = some { symbol with params } ∧
      (symbol.isFunction = false → params = symbol.params) := by
  induction log generalizing a symbol with
  | nil => exact ⟨symbol.params, hsymbol, fun _ => rfl⟩
  | cons w rest ih =>
    obtain ⟨params, hwritten, hfirst⟩ := h.1.keeps hsymbol
    obtain ⟨params', hend, hrest⟩ := ih h.2 hwritten
    exact ⟨params', hend, fun hvariable => (hrest hvariable).trans (hfirst hvariable)⟩

/-- New symbols follow the old ones, and are in the end what they were declared as. -/
lemma Orderly.declared (h : Orderly old a log) {i : ℕ} (hi : (declared log)[i]? = some symbol) :
    ∃ params, (a.replay log)[a.size + i]? = some { symbol with params } ∧
      (symbol.isFunction = false → params = []) := by
  induction log generalizing a i with
  | nil => simp [Arena.declared] at hi
  | cons w rest ih =>
    cases w with
    | declare new =>
      cases i with
      | zero =>
        obtain rfl : new = symbol := Option.some.inj hi
        have hnew : (a.push new)[a.size]? = some new := by simp
        obtain ⟨params, hend, hvariable⟩ := h.2.keeps hnew
        exact ⟨params, hend, fun hkind => (hvariable hkind).trans h.1⟩
      | succ i =>
        obtain ⟨params, hend, hvariable⟩ := ih h.2 hi
        have hindex : a.size + (i + 1) = (a.write (.declare new)).size + i := by
          rw [write, Array.size_push]
          omega
        exact ⟨params, hindex ▸ hend, hvariable⟩
    | params id ids =>
      have hsize : (a.write (.params id ids)).size = a.size := size_setParams a id ids
      exact hsize ▸ ih h.2 hi

end Arena

/-! ### The writes of a walk -/

/-- A binding goes to the innermost scope. -/
lemma ScopeStack.exit_bind (st : ScopeStack) (x : String) (id : SymbolId) :
    (st.bind x id).exit = st.exit := by
  obtain ⟨_ | ⟨sc, outer⟩⟩ := st <;> rfl

namespace Resolve

/-- The walk ends with that result, and these are its writes. Only declarations and the giving of
parameters write anything. -/
inductive Logs (opts : Options) : {α : Type} → Resolve α → Resolver → List ArenaWrite → α →
    Resolver → Prop where
  | quiet {α : Type} {act : Resolve α} {s t : Resolver} {a : α} : act s = .ok (a, t) →
      t.arena = s.arena → Logs opts act s [] a t
  | seq {α β : Type} {act : Resolve α} {f : α → Resolve β} {s t u : Resolver} {a : α} {b : β}
      {log log' : List ArenaWrite} : Logs opts act s log a t → Logs opts (f a) t log' b u →
      Logs opts (act >>= f) s (log ++ log') b u
  | declare {x : Ident} {symbol : Symbol} {s t : Resolver} {r : Ident × Option SymbolId} :
      Resolve.bind opts x symbol s = .ok (r, t) → t.arena = s.arena.push symbol →
      Logs opts (Resolve.bind opts x symbol) s [.declare symbol] r t
  | params {id : SymbolId} {ids : List SymbolId} {s t : Resolver} :
      setParams (some id) ids s = .ok ((), t) →
      Logs opts (setParams (some id) ids) s [.params id ids] () t

variable {act : Resolve α} {f : α → Resolve β} {log log' : List ArenaWrite} {a : α}

lemma run_setParams {id : Option SymbolId} {ids : List SymbolId} :
    setParams id ids s = .ok ((), t) ↔ (∀ i ∈ id, i < s.arena.size) ∧
      t = { s with arena := id.elim s.arena (Arena.setParams s.arena · ids) } := by
  rw [← bind_pure (setParams id ids), run_setParams_bind, run_pure]
  simp

lemma Logs.run (h : Logs opts act s log a t) : act s = .ok (a, t) := by
  induction h with
  | quiet hact | declare hact | params hact => exact hact
  | seq _ _ ih ih' => exact run_bind.mpr ⟨_, _, ih, ih'⟩

/-- The writes account for all that happens to the arena. -/
lemma Logs.replay (h : Logs opts act s log a t) : t.arena = s.arena.replay log := by
  induction h with
  | quiet _ harena => exact harena
  | seq _ _ ih ih' => rw [ih', ih, Arena.replay_append]
  | declare _ harena => exact harena
  | params hact =>
    obtain ⟨-, rfl⟩ := run_setParams.mp hact
    rfl

lemma Logs.size_le (h : Logs opts act s log a t) : s.arena.size ≤ t.arena.size := by
  rw [h.replay, Arena.size_replay]
  omega

/-- The writes are in order, and the scopes around the innermost one are as they were. -/
structure Frames (s : Resolver) (log : List ArenaWrite) (t : Resolver) : Prop where
  orderly : Arena.Orderly s.arena.size s.arena log
  bound : t.Bound
  outer : t.scopes.exit = s.scopes.exit

/-- More writes may go to all that was declared since the start. -/
lemma Frames.append (h : Frames s log t) (harena : t.arena = s.arena.replay log)
    (hlog : Arena.Orderly s.arena.size t.arena log') (hu : u.Bound)
    (houter : u.scopes.exit = t.scopes.exit) : Frames s (log ++ log') u where
  orderly := by
    rw [harena] at hlog
    exact Arena.orderly_append.mpr ⟨h.orderly, hlog⟩
  bound := hu
  outer := houter.trans h.outer

/-- The walk comes to an end from every state whose bindings are in the arena, and is framed. -/
def Framed (opts : Options) (act : Resolve α) : Prop :=
  ∀ s : Resolver, s.Bound → ∃ log a t, Logs opts act s log a t ∧ Frames s log t

namespace Framed

lemma bind (h : Framed opts act) (hf : ∀ a, Framed opts (f a)) : Framed opts (act >>= f) := by
  intro s hs
  obtain ⟨log, a, t, hlog, hframe⟩ := h s hs
  obtain ⟨log', b, u, hlog', hframe'⟩ := hf a t hframe.bound
  exact ⟨log ++ log', b, u, hlog.seq hlog', hframe.append hlog.replay
    (hframe'.orderly.mono hlog.size_le) hframe'.bound hframe'.outer⟩

/-- A step that concerns neither the symbols nor the scopes. -/
lemma quiet (h : ∀ s : Resolver, s.Bound →
    ∃ a t, act s = .ok (a, t) ∧ t.arena = s.arena ∧ t.scopes = s.scopes) : Framed opts act := by
  intro s hs
  obtain ⟨a, t, hact, harena, hscopes⟩ := h s hs
  have hbound : t.Bound := by
    rw [Resolver.Bound, harena, hscopes]
    exact hs
  exact ⟨[], a, t, .quiet hact harena, trivial, hbound, by rw [hscopes]⟩

lemma pure (a : α) : Framed opts (Pure.pure a : Resolve α) := quiet fun s _ => ⟨a, s, rfl, rfl, rfl⟩

lemma get_bind {f : Resolver → Resolve β} (h : ∀ s, Framed opts (f s)) :
    Framed opts (get >>= f) := by
  have hget : Framed opts (get : Resolve Resolver) := quiet fun s _ => ⟨s, s, rfl, rfl, rfl⟩
  exact hget.bind h

lemma modify {f : Resolver → Resolver} (harena : ∀ s, (f s).arena = s.arena)
    (hscopes : ∀ s, (f s).scopes = s.scopes) : Framed opts (modify f : Resolve PUnit) :=
  quiet fun s _ => ⟨⟨⟩, f s, rfl, harena s, hscopes s⟩

lemma report (d : Diagnostic) : Framed opts (report opts d) := modify (fun _ => rfl) fun _ => rfl

lemma unlessHalted (h : Framed opts act) : Framed opts (unlessHalted opts a act) := by
  have hget : Resolve.unlessHalted opts a act =
      (get >>= fun s => if opts.halts s.errors then Pure.pure a else act) := by
    funext s
    rw [Resolve.unlessHalted]
    change _ = (if opts.halts s.errors then Pure.pure a else act : Resolve α) s
    split <;> rfl
  rw [hget]
  refine get_bind fun s => ?_
  split
  · exact pure a
  · exact h

/-- A walk in a scope of its own leaves all scopes as they were. -/
lemma exists_scoped (h : Framed opts act) (hs : s.Bound) :
    ∃ log a t, Logs opts (inScope act) s log a t ∧ Frames s log t ∧ t.scopes = s.scopes := by
  obtain ⟨log, a, t, hlog, hframe⟩ := h _ hs.enter
  have hall : Logs opts (inScope act) s ([] ++ (log ++ ([] ++ []))) a
      { t with scopes := t.scopes.exit } :=
    .seq (.quiet rfl rfl) (hlog.seq (.seq (.quiet rfl rfl) (.quiet rfl rfl)))
  have hscopes : t.scopes.exit = s.scopes := hframe.outer
  exact ⟨log, a, _, by simpa using hall,
    ⟨hframe.orderly, hframe.bound.exit, by rw [hscopes]⟩, hscopes⟩

lemma inScope (h : Framed opts act) : Framed opts (inScope act) := by
  intro s hs
  obtain ⟨log, a, t, hlog, hframe, -⟩ := h.exists_scoped hs
  exact ⟨log, a, t, hlog, hframe⟩

lemma placeVariable (x : Ident) (ty : Ty) : Framed opts (placeVariable opts x ty) := by
  refine get_bind fun s => ?_
  dsimp only
  split
  · refine (modify (fun s => ?_) fun s => ?_).bind fun _ => pure _ <;>
    · rw [Resolver.setUsed]
      split <;> rfl
  · exact (report _).bind fun _ => pure _

lemma placeParameter (x : Ident) (ty : Ty) : Framed opts (placeParameter opts x ty) := by
  refine get_bind fun s => ?_
  dsimp only
  split
  · refine (modify ?_ ?_).bind fun _ => pure _ <;> exact fun _ => rfl
  · exact (report _).bind fun _ => pure _

end Framed

/-- What is declared is the last symbol of the arena, unless its name is taken. -/
lemma exists_declare (opts : Options) (hs : s.Bound) (x : Ident) {symbol : Symbol}
    (hparams : symbol.params = []) :
    ∃ log r t, Logs opts (Resolve.bind opts x symbol) s log r t ∧ Frames s log t ∧
      ∀ id ∈ r.2, id = s.arena.size ∧ t.arena = s.arena.push symbol := by
  by_cases htaken : !opts.allowRedeclaration && (s.scopes.lookupCurrent x.name).isSome
  · have hrun : Resolve.bind opts x symbol s = .ok ((x, none),
        { s with errors := opts.report s.errors (.redefinition x.render) }) := by
      rw [Resolve.bind, run_get_bind, if_pos htaken]
      rfl
    exact ⟨[], _, _, .quiet hrun rfl, ⟨trivial, hs, rfl⟩, by simp⟩
  · have hrun : Resolve.bind opts x symbol s = .ok
        (({ x with symbol := some s.arena.size }, some s.arena.size), { s with
          arena := s.arena.push symbol
          scopes := s.scopes.bind x.name s.arena.size }) := by
      rw [Resolve.bind, run_get_bind, if_neg htaken]
      rfl
    refine ⟨[.declare symbol], _, _, .declare hrun rfl,
      ⟨⟨hparams, trivial⟩, hs.declare x.name symbol, ScopeStack.exit_bind _ _ _⟩, ?_⟩
    rintro id ⟨⟩
    exact ⟨rfl, rfl⟩

/-- Parameters are given to a function that is there, or to none. -/
lemma exists_setParams (opts : Options) {id : Option SymbolId} {old : ℕ} (hs : s.Bound)
    (ids : List SymbolId)
    (hid : ∀ i ∈ id, old ≤ i ∧ ∃ symbol, s.arena[i]? = some symbol ∧ symbol.isFunction = true) :
    ∃ log t, Logs opts (setParams id ids) s log () t ∧ Arena.Orderly old s.arena log ∧ t.Bound ∧
      t.scopes = s.scopes := by
  cases id with
  | none => exact ⟨[], s, .quiet rfl rfl, trivial, hs, rfl⟩
  | some i =>
    obtain ⟨hold, symbol, hsymbol, hfunction⟩ := hid i rfl
    have hrun : setParams (some i) ids s = .ok ((),
        { s with arena := Arena.setParams s.arena i ids }) := by
      refine run_setParams.mpr ⟨?_, rfl⟩
      rintro _ ⟨⟩
      exact Arena.lt_size hsymbol
    refine ⟨_, _, .params hrun, ⟨⟨hold, symbol, hsymbol, hfunction⟩, trivial⟩, ?_, rfl⟩
    intro sc hsc b hb
    rw [Arena.size_setParams]
    exact hs sc hsc b hb

lemma Framed.declare (x : Ident) {symbol : Symbol} (hparams : symbol.params = []) :
    Framed opts (Resolve.bind opts x symbol) := by
  intro s hs
  obtain ⟨log, r, t, hlog, hframe, -⟩ := exists_declare opts hs x hparams
  exact ⟨log, r, t, hlog, hframe⟩

end Resolve

/-! ### The walk -/

lemma Ident.framed (x : Ident) : Resolve.Framed opts (x.resolve opts) := by
  refine .quiet fun s hs => ?_
  rw [Ident.resolve]
  cases hlookup : s.scopes.lookup x.name with
  | none =>
    refine ⟨x, { s with errors := opts.report s.errors (.undefined x.name) }, ?_, rfl, rfl⟩
    rw [run_get_bind, hlookup, Resolve.run_report_bind, run_pure]
    exact ⟨rfl, rfl⟩
  | some id =>
    obtain ⟨symbol, hsymbol⟩ := Arena.exists_find (hs.lookup hlookup)
    by_cases hoffset : !symbol.isFunction && symbol.ty.elements?.any (· ≤ x.offset)
    · refine ⟨{ x with symbol := some id },
        { s with errors := opts.report s.errors (.indexOutOfBounds x.name x.offset symbol.ty) },
        ?_, rfl, rfl⟩
      rw [run_get_bind, hlookup, run_get_bind, run_lift_bind]
      refine ⟨symbol, hsymbol, ?_⟩
      rw [if_pos hoffset, Resolve.run_report_bind, run_pure]
      exact ⟨rfl, rfl⟩
    · refine ⟨{ x with symbol := some id }, s, ?_, rfl, rfl⟩
      rw [run_get_bind, hlookup, run_get_bind, run_lift_bind]
      refine ⟨symbol, hsymbol, ?_⟩
      rw [if_neg hoffset]
      rfl

lemma Ident.framed_called (f : Ident) : Resolve.Framed opts (f.resolveCalled opts) := by
  rw [resolveCalled]
  split
  · exact .pure f
  · exact f.framed

/-- Again there is only one walk. -/
lemma Resolve.ExprRules.framed (opts : Options) :
    ExprRules (fun {α} (_ : α → α → Prop) act _ => Framed opts act) opts opts {} {} {} where
  pure _ := Framed.pure _
  bind h hf := h.bind fun a => hf a a
  unlessHalted h _ := Framed.unlessHalted h
  used x := x.framed
  called f := f.framed_called

lemma Expr.framed_option (e : Option Expr) : Resolve.Framed opts (Expr.resolveOption opts e) :=
  Expr.holds_resolveOption (.framed opts) e

lemma Var.framed (v : Var) : Resolve.Framed opts (v.resolve opts) := by
  rw [Var.resolve]
  split
  · exact (Resolve.Framed.report _).bind fun _ => .pure _
  · refine .get_bind fun s => (Resolve.Framed.placeVariable _ _).bind fun _ => ?_
    refine (Expr.framed_option v.value).bind fun _ => ?_
    exact (Resolve.Framed.declare v.name rfl).bind fun _ => .pure _

lemma Param.framed (p : Param) : Resolve.Framed opts (p.resolve opts) := by
  refine .unlessHalted ?_
  split
  · exact (Resolve.Framed.report _).bind fun _ => .pure _
  · refine (Resolve.Framed.placeParameter _ _).bind fun _ => ?_
    refine (Expr.framed_option p.fallback).bind fun _ => ?_
    exact (Resolve.Framed.declare p.name rfl).bind fun _ => .pure _

lemma Param.framed_all (ps : List Param) : Resolve.Framed opts (Param.resolveAll opts ps) := by
  induction ps with
  | nil => exact .pure _
  | cons p rest ih => exact p.framed.bind fun _ => ih.bind fun _ => .pure _

/-- A function is declared, and gets its parameters when all that is inside of it is resolved. -/
lemma FunDecl.framed_of_inside (f : FunDecl)
    (hbody : Resolve.Framed opts (Stmt.resolveAll opts f.body)) :
    Resolve.Framed opts (f.resolve opts) := by
  obtain ⟨name, params, returns, body, variableSize, parameterSize⟩ := f
  rw [FunDecl.resolve]
  intro s hs
  by_cases hnested : s.frame.isSome = true
  · have hreport : Resolve.Framed opts (do
        Resolve.report opts (.nestedFunction name.name)
        return ⟨name, params, returns, body, variableSize, parameterSize⟩ : Resolve FunDecl) :=
      (Resolve.Framed.report _).bind fun _ => .pure _
    obtain ⟨log, a, t, hlog, hframe⟩ := hreport s hs
    refine ⟨_, a, t, .seq (.quiet rfl rfl) ?_, hframe⟩
    rw [if_pos hnested]
    exact hlog
  have hinside : Resolve.Framed opts (FunDecl.resolveInside opts params body) :=
    (Param.framed_all params).bind fun _ => hbody.bind fun _ => .pure _
  obtain ⟨log₁, ⟨name', id⟩, s₁, hdeclare, hframe₁, hid⟩ := Resolve.exists_declare opts hs name
    (rfl : (⟨name.name, .function, returns.getD .void, 0, 0, []⟩ : Symbol).params = [])
  obtain ⟨log₂, ⟨params', ids, body'⟩, s₂, hinner, hframe₂, -⟩ :=
    hinside.exists_scoped (s := { s₁ with frame := some {} }) hframe₁.bound
  -- the symbol of the function is as it was declared until its parameters are known
  have hfunction : ∀ i ∈ id, s.arena.size ≤ i ∧ ∃ symbol, s₂.arena[i]? = some symbol ∧
      symbol.isFunction = true := by
    intro i hi
    obtain ⟨rfl, harena⟩ := hid i hi
    have hsize : s.arena.size < s₁.arena.size := by simp [harena]
    have hsame : s₂.arena[s.arena.size]? = s₁.arena[s.arena.size]? := by
      rw [hinner.replay]
      exact hframe₂.orderly.getElem?_replay (Nat.le_refl _) hsize
    exact ⟨Nat.le_refl _, _, by rw [hsame, harena, Array.getElem?_push_size], rfl⟩
  obtain ⟨log₃, s₃, hset, horderly₃, hbound₃, hscopes₃⟩ :=
    Resolve.exists_setParams opts (s := { s₂ with frame := none }) hframe₂.bound ids hfunction
  have hframe : Resolve.Frames s ((log₁ ++ log₂) ++ log₃) s₃ := by
    have hinner' : Resolve.Frames s (log₁ ++ log₂) s₂ := hframe₁.append hdeclare.replay
      (hframe₂.orderly.mono hdeclare.size_le) hframe₂.bound hframe₂.outer
    refine hinner'.append ?_ horderly₃ hbound₃ (by rw [hscopes₃])
    rw [Arena.replay_append, ← hdeclare.replay]
    exact hinner.replay
  refine ⟨[] ++ (log₁ ++ ([] ++ (log₂ ++ ([] ++ ([] ++ (log₃ ++ [])))))), ⟨name', params', returns,
    body', (s₂.frame.getD {}).variableSize, (s₂.frame.getD {}).parameterSize⟩, s₃,
    .seq (.quiet rfl rfl) ?_, by simpa using hframe⟩
  rw [if_neg hnested]
  exact hdeclare.seq (.seq (.quiet rfl rfl) (hinner.seq (.seq (.quiet rfl rfl)
    (.seq (.quiet rfl rfl) (hset.seq (.quiet rfl rfl))))))

lemma Resolve.Rules.framed (opts : Options) :
    Rules (fun {α} (_ : α → α → Prop) act _ => Framed opts act) opts opts {} {} {} where
  toExprRules := .framed opts
  inScope h := Framed.inScope h
  var v := v.framed
  function f hbody := f.framed_of_inside hbody

/-- **What resolution leaves as it is**: if all bindings of a session are symbols of its arena,
then resolving a program comes to an end, with or without reports, and only the arena of the
session is another one. The old arena is in front of the new one. The writes to the arena declare
the symbols that follow, and afterwards only functions among these get their parameters. -/
theorem Session.resolve_frame {s : Session} (p : Program)
    (hbound : ∀ sc ∈ s.scopes.scopes, ∀ b ∈ sc.bindings, b.symbol < s.arena.size) :
    ∃ (log : List ArenaWrite) (p' : Program) (r : Resolver),
      Resolve.Logs s.options (p.resolve s.options) { arena := s.arena, scopes := s.scopes }
        log p' r ∧
      s.resolve p = .ok ⟨{ s with arena := r.arena }, p', r.errors⟩ ∧
      s.arena.toList <+: r.arena.toList ∧
      r.arena = s.arena.replay log ∧ Arena.Orderly s.arena.size s.arena log ∧
      r.arena.size = s.arena.size + (Arena.declared log).length ∧
      ∀ i symbol, (Arena.declared log)[i]? = some symbol →
        ∃ params, r.arena[s.arena.size + i]? = some { symbol with params } ∧
          (symbol.isFunction = false → params = []) := by
  have hwalk : Resolve.Framed s.options (Decl.resolveAll s.options p) :=
    Decl.holds_resolveAll (.framed s.options) p
  obtain ⟨log, p', r, hlog, hframe, hscopes⟩ :=
    hwalk.exists_scoped (s := { arena := s.arena, scopes := s.scopes }) hbound
  have horderly : Arena.Orderly s.arena.size s.arena log := hframe.orderly
  have hreplay : r.arena = s.arena.replay log := hlog.replay
  have hrun : p.resolve s.options { arena := s.arena, scopes := s.scopes } = .ok (p', r) := hlog.run
  have hresolve : s.resolve p = .ok ⟨{ s with arena := r.arena }, p', r.errors⟩ := by
    have hsame : r.scopes = s.scopes := hscopes
    rw [Session.resolve, StateT.run, hrun]
    change Except.ok _ = Except.ok _
    rw [hsame]
  refine ⟨log, p', r, hlog, hresolve, ?_, hreplay, horderly, ?_, fun i symbol hi => ?_⟩
  · rw [hreplay]
    exact horderly.toList_front
  · rw [hreplay]
    exact Arena.size_replay s.arena log
  · rw [hreplay]
    exact horderly.declared hi

/-- A session with two open scopes, a function whose parameter is missing, and a register in use. -/
def busySession : Session where
  options := { keepGoing := true }
  arena := #[⟨"f", .function, .void, 0, 0, [9]⟩, ⟨"x", .globalVar, .int, 8, 8, []⟩]
  scopes := (({} : ScopeStack).enter.bind "f" 0).enter.bind "x" 1
  labels := 4
  bank := ({} : Bank).claim .rbx

/-- A function with one parameter twice, a function inside of it and a name that is not declared. -/
def faultyProgram : Program := [
  .function {
    name := ⟨"f", 0, none⟩
    params := [⟨⟨"a", 0, none⟩, .int, none⟩, ⟨⟨"a", 0, none⟩, .int, none⟩]
    returns := none
    body := [
      .whileLoop (.name ⟨"x", 0, none⟩) [.decl (.localVar ⟨⟨"b", 0, none⟩, .int, none⟩)],
      .decl (.function { name := ⟨"g", 0, none⟩, params := [], returns := none, body := [] }),
      .expr (.name ⟨"y", 0, none⟩)] }]

theorem Session.resolve_faulty : ∃ (log : List ArenaWrite) (p' : Program) (r : Resolver),
    busySession.resolve faultyProgram =
      .ok ⟨{ busySession with arena := r.arena }, p', r.errors⟩ ∧
    r.errors.length = 3 ∧ busySession.arena.toList <+: r.arena.toList ∧
    Arena.Orderly 2 busySession.arena log ∧ r.arena.size = 2 + (Arena.declared log).length := by
  have hbound : ∀ sc ∈ busySession.scopes.scopes, ∀ b ∈ sc.bindings,
      b.symbol < busySession.arena.size := by
    decide +kernel
  have herrors : (busySession.resolve faultyProgram).toOption.map (·.errors.length) = some 3 := by
    decide +kernel
  obtain ⟨log, p', r, -, hresolve, hfront, -, horderly, hsize, -⟩ :=
    Session.resolve_frame faultyProgram hbound
  rw [hresolve] at herrors
  exact ⟨log, p', r, hresolve, Option.some.inj herrors, hfront, horderly, hsize⟩

end TreeCompiler

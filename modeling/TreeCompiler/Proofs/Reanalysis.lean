import TreeCompiler.Proofs.Annotations
import TreeCompiler.Proofs.Lookups
import TreeCompiler.Proofs.LowerRules

/-!
Annotations and sessions from before.

Name resolution does not read the annotations of a tree: on a tree and on the same tree without
annotations it goes through the same states, and if it has nothing to report, then it writes the
same annotations. Only a call to the built-in that prints is not annotated, so its name keeps the
symbol it came with. Checking and code generation do not look at that symbol, and analysis starts
from a session that has only its options, so neither the annotations nor the session have any
influence on the result.
-/

namespace TreeCompiler

/-! ### Up to the names of calls that print -/

/-- The name of a called function, without a symbol if it is the built-in. -/
def Ident.unprinted (f : Ident) : Ident := if f.name == printName then f.bare else f

/-- Only the names of calls that print lose their symbols. -/
def LeafMap.unprinted : LeafMap where
  called := Ident.unprinted

/-- The program, with no symbols at the names of calls that print. -/
def Program.unprinted (p : Program) : Program := p.image .unprinted

/-! ### The same walk -/

section Agrees

variable {σ α β : Type} {Q : σ → Prop} {x y : StateT σ (Except Dangling) α} {U E : α → α → Prop}
  {U' E' : β → β → Prop} {s : σ}

lemma run_bind_of_ok {f : α → StateT σ (Except Dangling) β} {t : σ} {a : α}
    (h : x s = .ok (a, t)) : (x >>= f) s = f a t := by
  change (x s >>= fun p => f p.1 p.2) = _
  rw [h]
  rfl

lemma run_bind_of_error {f : α → StateT σ (Except Dangling) β} {d : Dangling}
    (h : x s = .error d) : (x >>= f) s = .error d := by
  change (x s >>= fun p => f p.1 p.2) = _
  rw [h]
  rfl

/-- From state `s` both fail alike, or both end in the same state, with results that are related by
`U`. If `Q` holds of the state in the end, then it did so before, and the results are related by `E`
too. -/
def AgreesAt (Q : σ → Prop) (x y : StateT σ (Except Dangling) α) (U E : α → α → Prop) (s : σ) :
    Prop :=
  (∃ d, x s = .error d ∧ y s = .error d) ∨ ∃ a b t, x s = .ok (a, t) ∧ y s = .ok (b, t) ∧ U a b ∧
    (Q t → Q s ∧ E a b)

def Agrees (Q : σ → Prop) (x y : StateT σ (Except Dangling) α) (U E : α → α → Prop) : Prop :=
  ∀ s, AgreesAt Q x y U E s

lemma AgreesAt.bind {f g : α → StateT σ (Except Dangling) β} (h : AgreesAt Q x y U E s)
    (hf : ∀ a b, U a b → Agrees Q (f a) (g b) U' fun c d => E a b → E' c d) :
    AgreesAt Q (x >>= f) (y >>= g) U' E' s := by
  rcases h with ⟨d, hx, hy⟩ | ⟨a, b, t, hx, hy, hU, ht⟩
  · exact .inl ⟨d, run_bind_of_error hx, run_bind_of_error hy⟩
  · rcases hf a b hU t with ⟨d, hc, hd⟩ | ⟨c, d, u, hc, hd, hU', hu⟩
    · exact .inl ⟨d, (run_bind_of_ok hx).trans hc, (run_bind_of_ok hy).trans hd⟩
    · refine .inr ⟨c, d, u, (run_bind_of_ok hx).trans hc, (run_bind_of_ok hy).trans hd, hU', ?_⟩
      intro hQ
      obtain ⟨hQt, hE'⟩ := hu hQ
      obtain ⟨hQs, hE⟩ := ht hQt
      exact ⟨hQs, hE' hE⟩

lemma AgreesAt.get_bind {f g : σ → StateT σ (Except Dangling) β}
    (h : AgreesAt Q (f s) (g s) U' E' s) : AgreesAt Q (get >>= f) (get >>= g) U' E' s := h

namespace Agrees

lemma bind {f g : α → StateT σ (Except Dangling) β} (h : Agrees Q x y U E)
    (hf : ∀ a b, U a b → Agrees Q (f a) (g b) U' fun c d => E a b → E' c d) :
    Agrees Q (x >>= f) (y >>= g) U' E' := fun s => (h s).bind hf

lemma mono {F : α → α → Prop} (h : Agrees Q x y U E) (hF : ∀ a b, E a b → F a b) :
    Agrees Q x y U F := by
  intro s
  rcases h s with herror | ⟨a, b, t, hx, hy, hU, ht⟩
  · exact .inl herror
  · exact .inr ⟨a, b, t, hx, hy, hU, fun hQ => (ht hQ).imp_right (hF a b)⟩

lemma pure {a b : α} (hU : U a b) (hE : E a b) : Agrees Q (Pure.pure a) (Pure.pure b) U E := by
  intro s
  exact .inr ⟨a, b, s, rfl, rfl, hU, fun hs => ⟨hs, hE⟩⟩

/-- The same step on both sides. -/
lemma refl (hU : ∀ a, U a a) (hE : ∀ a, E a a) (h : ∀ s a t, x s = .ok (a, t) → Q t → Q s) :
    Agrees Q x x U E := by
  intro s
  cases hx : x s with
  | error d => exact .inl ⟨d, hx, hx⟩
  | ok r => exact .inr ⟨r.1, r.1, r.2, hx, hx, hU _, fun ht => ⟨h s r.1 r.2 hx ht, hE _⟩⟩

lemma modify {f : σ → σ} (h : ∀ s, Q (f s) → Q s) : Agrees Q (modify f) (modify f) Eq Eq := by
  refine refl (fun _ => rfl) (fun _ => rfl) fun s a t ht hQ => ?_
  obtain ⟨-, rfl⟩ := Prod.mk.inj (Except.ok.inj ht)
  exact h s hQ

lemma lift (hU : ∀ a, U a a) (hE : ∀ a, E a a) (e : Except Dangling α) :
    Agrees Q (liftM e) (liftM e) U E := by
  refine refl hU hE fun s a t h hQ => ?_
  cases e with
  | ok b => exact (Prod.mk.inj (Except.ok.inj h)).2 ▸ hQ
  | error d => exact nomatch h

end Agrees

end Agrees

variable {opts : Options} {α : Type}

namespace Resolve

variable {x y : Resolve α} {U E : α → α → Prop}

/-- Two walks that agree, as far as there is nothing to report. -/
abbrev Agrees (x y : Resolve α) (U E : α → α → Prop) : Prop :=
  TreeCompiler.Agrees (fun s : Resolver => s.errors = []) x y U E

/-- Nothing is said about the results of walks that report something. -/
abbrev Same (E : α → α → Prop) (x y : Resolve α) : Prop := Agrees x y (fun _ _ => True) E

namespace Agrees

lemma modify {f : Resolver → Resolver} (h : ∀ s, (f s).errors = s.errors) :
    Agrees (modify f) (modify f) Eq Eq :=
  TreeCompiler.Agrees.modify fun s herrors => (h s).symm.trans herrors

/-- Behind a report nothing is asked of the results any more. -/
lemma report (d : Diagnostic) :
    Agrees (report opts d) (report opts d) (fun _ _ => True) fun _ _ => False := by
  intro s
  refine .inr ⟨(), (), _, rfl, rfl, trivial, fun h => ?_⟩
  exact absurd h (opts.report_ne_nil _ _)

lemma report_pure {d : Diagnostic} {a b : α} (hU : U a b) :
    Agrees (do Resolve.report opts d; Pure.pure a) (do Resolve.report opts d; Pure.pure b) U E :=
  (report d).bind fun _ _ _ => .pure hU False.elim

lemma unlessHalted {a b : α} (h : Agrees x y U E) (hU : U a b) :
    Agrees (unlessHalted opts a x) (unlessHalted opts b y) U E := by
  intro s
  by_cases hhalts : opts.halts s.errors
  · refine .inr ⟨a, b, s, ?_, ?_, hU, fun hs => ?_⟩
    · rw [Resolve.unlessHalted, if_pos hhalts]
    · rw [Resolve.unlessHalted, if_pos hhalts]
    · simp [hs] at hhalts
  · rw [AgreesAt, Resolve.unlessHalted, Resolve.unlessHalted, if_neg hhalts, if_neg hhalts]
    exact h s

lemma inScope (h : Agrees x y U E) : Agrees (inScope x) (inScope y) U E := by
  have henter : Agrees enter enter Eq Eq := modify fun _ => rfl
  have hexit : Agrees exit exit Eq Eq := modify fun _ => rfl
  refine henter.bind fun _ _ _ => h.bind fun _ _ hU => ?_
  exact hexit.bind fun _ _ _ => .pure hU fun _ hE _ => hE

/-- A name is bound to the same symbol whatever symbol it had. -/
lemma bind_symbol (x : Ident) (symbol : Symbol) :
    Agrees (Resolve.bind opts x symbol) (Resolve.bind opts x.bare symbol)
      (fun p q => p.2 = q.2) Eq := by
  intro s
  refine .get_bind ?_
  by_cases hfree : !opts.allowRedeclaration && (s.scopes.lookupCurrent x.name).isSome
  · rw [if_pos hfree, if_pos (show !opts.allowRedeclaration &&
      (s.scopes.lookupCurrent x.bare.name).isSome from hfree)]
    refine report_pure ?_ s
    rfl
  · rw [if_neg hfree, if_neg (show ¬(!opts.allowRedeclaration &&
      (s.scopes.lookupCurrent x.bare.name).isSome) from hfree)]
    exact .inr ⟨_, _, _, rfl, rfl, rfl, fun hs => ⟨hs, rfl⟩⟩

lemma placeVariable (x : Ident) (ty : Ty) :
    Agrees (placeVariable opts x ty) (placeVariable opts x.bare ty) Eq Eq := by
  intro s
  refine .get_bind ?_
  dsimp only
  split
  · refine (modify fun s => ?_).bind (fun _ _ _ => .pure rfl fun _ => rfl) s
    rw [Resolver.setUsed]
    split <;> rfl
  · exact report_pure rfl s

lemma placeParameter (x : Ident) (ty : Ty) :
    Agrees (placeParameter opts x ty) (placeParameter opts x.bare ty) Eq Eq := by
  intro s
  refine .get_bind ?_
  dsimp only
  split
  · refine (modify ?_).bind (fun _ _ _ => .pure rfl fun _ => rfl) s
    exact fun _ => rfl
  · exact report_pure rfl s

lemma setParams (id : Option SymbolId) (ids : List SymbolId) :
    Agrees (setParams id ids) (setParams id ids) Eq Eq := by
  refine .refl (fun _ => rfl) (fun _ => rfl) fun s a t h herrors => ?_
  cases id with
  | none => exact (run_pure.mp h).2 ▸ herrors
  | some i =>
    rw [Resolve.setParams, run_get_bind, run_lift_bind] at h
    obtain ⟨_, -, h⟩ := h
    obtain ⟨-, rfl⟩ := Prod.mk.inj (Except.ok.inj h)
    exact herrors

end Agrees

end Resolve

lemma Ident.same_resolve (x : Ident) : Resolve.Same Eq (x.resolve opts) (x.bare.resolve opts) := by
  intro s
  refine .get_bind ?_
  simp only [Ident.bare_name]
  split
  · exact Resolve.Agrees.report_pure trivial s
  · have hfind (id : SymbolId) : Resolve.Agrees (liftM (Arena.find s.arena id))
        (liftM (Arena.find s.arena id)) Eq Eq := .lift (fun _ => rfl) (fun _ => rfl) _
    refine .get_bind ((hfind _).bind (fun symbol _ hsymbol => ?_) s)
    subst hsymbol
    have hoffset : x.bare.offset = x.offset := rfl
    rw [hoffset]
    split
    · exact Resolve.Agrees.report_pure trivial
    · exact .pure trivial fun _ => rfl

/-- The built-in keeps the symbol it came with. -/
lemma Ident.same_resolveCalled (f : Ident) : Resolve.Same (fun g g' => g.unprinted = g'.unprinted)
    (f.resolveCalled opts) (f.bare.resolveCalled opts) := by
  rw [resolveCalled, resolveCalled, Ident.bare_name]
  split
  · next hprint =>
    refine .pure trivial ?_
    simp [Ident.unprinted, hprint, Ident.bare]
  · exact f.same_resolve.mono fun _ _ h => congrArg Ident.unprinted h

lemma Resolve.ExprRules.same (opts : Options) :
    ExprRules (fun E x y => Same E x y) opts opts .bare .unprinted .unprinted where
  pure h := TreeCompiler.Agrees.pure trivial h
  bind h hf := h.bind fun a b _ => hf a b
  unlessHalted h _ := Agrees.unlessHalted h trivial
  used x := x.same_resolve
  called f := f.same_resolveCalled

lemma Var.same_resolve (v : Var) : Resolve.Same (fun a b => a.image .unprinted = b.image .unprinted)
    (v.resolve opts) ((v.image .bare).resolve opts) := by
  have hty : (v.image .bare).ty = v.ty := rfl
  rw [Var.resolve, Var.resolve, hty]
  split
  · exact Resolve.Agrees.report_pure trivial
  · intro s
    have hvalue := Expr.holds_resolveOption (.same opts) v.value
    refine .get_bind ((Resolve.Agrees.placeVariable v.name v.ty).bind (fun place _ h => ?_) s)
    subst h
    refine hvalue.bind fun _ _ _ => (Resolve.Agrees.bind_symbol v.name _).bind fun _ _ _ => ?_
    refine .pure trivial fun hname hvalue _ => ?_
    rw [Var.image, Var.image, hname, hvalue]

lemma Param.same_resolve (p : Param) : Resolve.Agrees (p.resolve opts)
    ((p.image .bare).resolve opts) (fun q r => q.2 = r.2)
    fun q r => q.1.image .unprinted = r.1.image .unprinted := by
  refine .unlessHalted ?_ rfl
  have hty : (p.image .bare).ty = p.ty := rfl
  rw [hty]
  split
  · refine Resolve.Agrees.report_pure ?_
    rfl
  · have hfallback := Expr.holds_resolveOption (.same opts) p.fallback
    refine (Resolve.Agrees.placeParameter p.name p.ty).bind fun place _ h => ?_
    subst h
    refine hfallback.bind fun _ _ _ => (Resolve.Agrees.bind_symbol p.name _).bind fun _ _ hid => ?_
    refine .pure hid fun hname hvalue _ => ?_
    rw [Param.image, Param.image, hname, hvalue]

lemma Param.same_resolveAll (ps : List Param) : Resolve.Agrees (Param.resolveAll opts ps)
    (Param.resolveAll opts (ps.map (·.image .bare))) (fun q r => q.2 = r.2)
    fun q r => q.1.map (·.image .unprinted) = r.1.map (·.image .unprinted) := by
  induction ps with
  | nil => exact .pure rfl rfl
  | cons p rest ih =>
    refine p.same_resolve.bind fun _ _ hid => ih.bind fun _ _ hids => ?_
    refine .pure (by rw [hid, hids]) fun hrest hp => ?_
    rw [List.map_cons, List.map_cons, hp, hrest]

/-- A function, from its body. -/
lemma FunDecl.same_resolve (f : FunDecl) (hbody : Resolve.Same
      (fun a b => Stmt.imageAll .unprinted a = Stmt.imageAll .unprinted b)
      (Stmt.resolveAll opts f.body) (Stmt.resolveAll opts (Stmt.imageAll .bare f.body))) :
    Resolve.Same (fun a b => a.image .unprinted = b.image .unprinted) (f.resolve opts)
      ((f.image .bare).resolve opts) := by
  obtain ⟨name, params, returns, body, variableSize, parameterSize⟩ := f
  have hinside : Resolve.Agrees (FunDecl.resolveInside opts params body)
      (FunDecl.resolveInside opts (params.map (·.image .bare)) (Stmt.imageAll .bare body))
      (fun q r => q.2.1 = r.2.1) fun q r =>
        q.1.map (·.image .unprinted) = r.1.map (·.image .unprinted) ∧
        Stmt.imageAll .unprinted q.2.2 = Stmt.imageAll .unprinted r.2.2 := by
    refine (Param.same_resolveAll params).bind fun _ _ hids => hbody.bind fun _ _ _ => ?_
    exact .pure hids fun hbody hparams => ⟨hparams, hbody⟩
  have hframe (f : Option Frame) : Resolve.Agrees (modify fun s : Resolver => { s with frame := f })
      (modify fun s : Resolver => { s with frame := f }) Eq Eq := .modify fun _ => rfl
  have hreturns : returns.map LeafMap.bare.ty = returns := by
    cases returns <;> rfl
  rw [FunDecl.image, hreturns, FunDecl.resolve, FunDecl.resolve]
  intro s
  refine .get_bind ?_
  split
  · exact Resolve.Agrees.report_pure trivial s
  · refine (Resolve.Agrees.bind_symbol name _).bind (fun bound bound' hid => ?_) s
    refine (hframe _).bind fun _ _ _ => hinside.inScope.bind fun inner inner' hids t => ?_
    refine .get_bind ((hframe none).bind (fun _ _ _ => ?_) t)
    rw [hid, hids]
    refine (Resolve.Agrees.setParams _ _).bind fun _ _ _ => ?_
    refine .pure trivial fun _ _ hinner _ hname => ?_
    obtain ⟨hparams, hbody⟩ := hinner
    rw [FunDecl.image, FunDecl.image, hname, hparams, hbody]

lemma Resolve.Rules.same (opts : Options) :
    Rules (fun E x y => Same E x y) opts opts .bare .unprinted .unprinted where
  toExprRules := .same opts
  inScope h := Agrees.inScope h
  var v := v.same_resolve
  function f hbody := f.same_resolve hbody

lemma Program.same_resolve (p : Program) : Resolve.Same
    (fun a b => a.unprinted = b.unprinted) (p.resolve opts) (p.bare.resolve opts) :=
  p.holds_resolve (.same opts)

/-! ### The same check and the same code -/

@[simp] lemma Ident.unprinted_name (f : Ident) : f.unprinted.name = f.name := by
  rw [Ident.unprinted]
  split <;> rfl

lemma Ident.unprinted_render (f : Ident) : f.unprinted.render = f.render := by
  rw [Ident.unprinted]
  split <;> rfl

lemma Ident.unprinted_routine (f : Ident) : f.unprinted.routine = f.routine := by
  rw [routine, routine, unprinted_name]

/-- A check does not look at the symbol of the built-in. -/
lemma Check.LeafLaws.unprinted : LeafLaws Eq Eq .unprinted where
  used_symbol _ := rfl
  used_name _ := rfl
  used_render _ := rfl
  called_print f := by
    change (f.unprinted.name == printName) = _
    rw [f.unprinted_name]
  called_symbol f hprint := by
    change f.unprinted.symbol = _
    rw [Ident.unprinted, hprint]
    rfl
  called_render f := f.unprinted_render.symm
  declared_render _ := rfl
  render e := (e.render_image (fun _ => rfl) Ident.unprinted_render).symm
  nothing := rfl
  ty _ := rfl

namespace Check

/-- Two checks that report the same, or fail alike. -/
abbrev Same (E : α → α → Prop) (x y : Check α) : Prop :=
  TreeCompiler.Agrees (fun _ => True) x y E fun _ _ => True

lemma Same.unlessHalted {x y : Check Unit} (h : Same (fun _ _ => True) x y) :
    Same (fun _ _ => True) (unlessHalted opts x) (unlessHalted opts y) := by
  intro es
  by_cases hhalts : opts.halts es
  · refine .inr ⟨(), (), es, ?_, ?_, trivial, fun _ => ⟨trivial, trivial⟩⟩
    · rw [Check.unlessHalted, if_pos hhalts]
    · rw [Check.unlessHalted, if_pos hhalts]
  · rw [AgreesAt, Check.unlessHalted, Check.unlessHalted, if_neg hhalts, if_neg hhalts]
    exact h es

lemma Rules.same (ctx : CheckContext) :
    Rules (fun E x y => Same E x y) ctx ctx (fun _ => True) Eq Eq .unprinted where
  types := .eq
  leaves := .unprinted
  pure h := TreeCompiler.Agrees.pure h trivial
  bind h hf := h.bind fun a b hab => (hf a b hab).mono fun _ _ _ _ => trivial
  report h := by
    rw [h.eq]
    exact .refl (fun _ => trivial) (fun _ => trivial) fun _ _ _ _ _ => trivial
  unlessHalted h := Same.unlessHalted h
  find _ := .lift (fun _ => ⟨rfl, rfl, rfl, fun _ _ => trivial⟩) (fun _ => trivial) _

end Check

lemma Program.check_unprinted (p : Program) (ctx : CheckContext) :
    p.unprinted.check ctx = p.check ctx := by
  have hsame := p.holds_check (.same ctx) allKnown_true
  funext es
  rcases hsame es with ⟨d, hp, hp'⟩ | ⟨_, _, fs, hp, hp', -⟩
  · exact hp'.trans hp.symm
  · exact hp'.trans hp.symm

/-- Nor does code generation. -/
lemma Gen.Rules.unprinted (arena : Arena) :
    Rules (fun x y => y = x) arena arena .unprinted where
  refl _ := rfl
  bind h hf := by
    rw [h]
    exact congrArg _ (funext hf)
  used _ := rfl
  declared _ := rfl
  called_print f := by
    change (f.unprinted.name == printName) = _
    rw [f.unprinted_name]
  called f := by
    change instr (.call f.unprinted.routine) = _
    rw [f.unprinted_routine]
  bytes _ := rfl

lemma Program.lower_unprinted (p : Program) (arena : Arena) :
    p.unprinted.lower arena = p.lower arena :=
  p.holds_lower (.unprinted arena) (fun _ _ => rfl) rfl

/-! ### Sessions -/

namespace Session

variable {s s' : Session} {p q : Program}

/-- Two programs that differ only in their annotations are resolved alike. -/
lemma resolve_of_bare (hoptions : s.options = s'.options) (hbare : p.bare = q.bare) :
    ∃ a b, s.reset.resolve p = .ok a ∧ s'.reset.resolve q = .ok b ∧ a.session = b.session ∧
      a.errors = b.errors ∧ (a.errors = [] → a.program.unprinted = b.program.unprinted) := by
  have hreset : s.reset = s'.reset := by rw [reset, reset, hoptions]
  obtain ⟨a, ha, -⟩ := s.exists_resolve p
  obtain ⟨b, hb, -⟩ := s'.exists_resolve q
  rw [← hreset] at hb
  refine ⟨a, b, ha, hreset ▸ hb, ?_⟩
  obtain ⟨t, hp, hta, hsa⟩ := resolve_eq_ok ha
  obtain ⟨u, hq, hub, hsb⟩ := resolve_eq_ok hb
  rcases p.same_resolve _ with ⟨d, hfail, -⟩ | ⟨a', m, t', hp', hm, -, hsame⟩
  · exact nomatch hp.symm.trans hfail
  rcases q.same_resolve _ with ⟨d, hfail, -⟩ | ⟨b', m', u', hq', hm', -, hsame'⟩
  · exact nomatch hq.symm.trans hfail
  obtain ⟨rfl, rfl⟩ := Prod.mk.inj (Except.ok.inj (hp.symm.trans hp'))
  obtain ⟨rfl, rfl⟩ := Prod.mk.inj (Except.ok.inj (hq.symm.trans hq'))
  rw [← hbare] at hm'
  obtain ⟨rfl, rfl⟩ := Prod.mk.inj (Except.ok.inj (hm.symm.trans hm'))
  refine ⟨hsa.trans hsb.symm, hta.trans hub.symm, fun herrors => ?_⟩
  have ht : t.errors = [] := hta.symm.trans herrors
  exact (hsame ht).2.trans (hsame' ht).2.symm

lemma check_of_unprinted (hpq : p.unprinted = q.unprinted) : s.check p = s.check q := by
  rw [check, check, ← p.check_unprinted, hpq, q.check_unprinted]

lemma emit_of_unprinted (hpq : p.unprinted = q.unprinted) (room : Option ℕ) :
    s.emit room p = s.emit room q := by
  rw [emit, emit, ← p.lower_unprinted, hpq, q.lower_unprinted]

lemma analyze_of_bare (hoptions : s.options = s'.options) (hbare : p.bare = q.bare) :
    ∃ a b, s.analyze p = .ok a ∧ s'.analyze q = .ok b ∧ a.session = b.session ∧
      a.errors = b.errors ∧ (a.errors = [] → a.program.unprinted = b.program.unprinted) := by
  obtain ⟨a, b, ha, hb, hsession, herrors, hprogram⟩ := resolve_of_bare hoptions hbare
  by_cases hclean : a.errors = []
  · obtain ⟨a', ha'⟩ := s.exists_analyze p
    obtain ⟨hcheck, hprogram', hsession'⟩ := check_of_analyze ha hclean ha'
    rw [hsession, check_of_unprinted (hprogram hclean)] at hcheck
    refine ⟨a', _, ha', analyze_of_resolve hb (herrors ▸ hclean) hcheck,
      hsession'.trans hsession, rfl, fun _ => ?_⟩
    rw [hprogram']
    exact hprogram hclean
  · exact ⟨a, b, analyze_of_reports ha hclean, analyze_of_reports hb (herrors ▸ hclean), hsession,
      herrors, hprogram⟩

lemma analyze_keeps {a : Analysis} (h : s.analyze p = .ok a) :
    a.session.options = s.options ∧ a.program.bare = p.bare := by
  obtain ⟨b, hb, -⟩ := s.exists_resolve p
  obtain ⟨t, hrun, -, hsession⟩ := resolve_eq_ok hb
  have hb' : b.session.options = s.options ∧ b.program.bare = p.bare :=
    ⟨by rw [hsession]; rfl, Program.bare_resolve hrun⟩
  by_cases hclean : b.errors = []
  · obtain ⟨-, hprogram, hsession⟩ := check_of_analyze hb hclean h
    rwa [hprogram, hsession]
  · obtain rfl := Except.ok.inj (h.symm.trans (analyze_of_reports hb hclean))
    exact hb'

end Session

/-- Two compilations with the same session, output and error in the end. If analysis has nothing to
report, then their trees are the same too, up to the symbols at the names of calls that print. -/
structure Compilation.Alike (c d : Compilation) : Prop where
  session : c.session = d.session
  output : c.output = d.output
  error : c.error = d.error
  program : (∀ errors, c.error ≠ some (.semantic errors)) →
    c.program.unprinted = d.program.unprinted

namespace Session

variable {s s' : Session} {p q : Program}

lemma emit_options {room : Option ℕ} {out : Emission} (h : s.emit room p = .ok out) :
    out.session.options = s.options := by
  rw [emit] at h
  split at h
  · obtain rfl := Except.ok.inj h
    rfl
  · split at h
    · obtain rfl := Except.ok.inj h
      rfl
    · obtain rfl := Except.ok.inj h
      rfl
    · cases h

/-- What is left of a compilation has the options of the session and the text of the program. -/
lemma exists_alike (hoptions : s.options = s'.options) (hbare : p.bare = q.bare)
    (room : Option ℕ) : ∃ c d, s.compile room p = .ok c ∧ s'.compile room q = .ok d ∧ c.Alike d ∧
      c.session.options = s.options ∧ c.program.bare = p.bare := by
  obtain ⟨a, b, ha, hb, hsession, herrors, hprogram⟩ := analyze_of_bare hoptions hbare
  obtain ⟨hoptions', hbare'⟩ := analyze_keeps ha
  by_cases hclean : a.errors = []
  · obtain ⟨out, hout⟩ := exists_emit (accepted ha hclean) room
    have hout' : b.session.emit room b.program = .ok out := by
      rw [← hsession, ← emit_of_unprinted (hprogram hclean), hout]
    refine ⟨_, _, compile_of_emit ha hclean hout, compile_of_emit hb (herrors ▸ hclean) hout',
      ⟨rfl, rfl, rfl, fun _ => hprogram hclean⟩, ?_, hbare'⟩
    rw [emit_options hout, hoptions']
  · refine ⟨_, _, compile_of_reports ha hclean room, compile_of_reports hb (herrors ▸ hclean) room,
      ⟨hsession, rfl, by rw [herrors], fun h => absurd rfl (h a.errors)⟩, hoptions', hbare'⟩

/-- **Nothing from before matters**: two programs that differ only in annotations are compiled
alike, in any two sessions with the same options. So the tree that a compilation returns is compiled
alike in the session that it leaves. -/
theorem compile_of_bare (hoptions : s.options = s'.options) (hbare : p.bare = q.bare)
    (room : Option ℕ) : ∃ c d, s.compile room p = .ok c ∧ s'.compile room q = .ok d ∧ c.Alike d ∧
      ∃ e, c.session.compile room c.program = .ok e ∧ e.Alike c := by
  obtain ⟨c, d, hc, hd, halike, hoptions', hbare'⟩ := exists_alike hoptions hbare room
  obtain ⟨e, c', he, hc', halike', -, -⟩ := exists_alike hoptions' hbare' room
  obtain rfl := Except.ok.inj (hc.symm.trans hc')
  exact ⟨c, d, hc, hd, halike, e, he, halike'⟩

/-- A program that prints a number, with the same symbol at every name and that many bytes. -/
def markedProgram (id : Option SymbolId) (bytes : ℕ) : Program :=
  [.function ⟨⟨"main", 0, id⟩, [], some .int,
    [.decl (.localVar ⟨⟨"n", 0, id⟩, .int, some (.int 1)⟩),
      .expr (.call ⟨"print", 0, id⟩ [.name ⟨"n", 0, id⟩])], bytes, bytes⟩]

/-- A session that was used before. -/
def usedSession : Session where
  arena := #[⟨"n", .globalVar, .bool, 1, 1, []⟩]
  scopes := (({} : ScopeStack).enter).bind "n" 0
  labels := 5

theorem compile_marked :
    ∃ c d, ({} : Session).compile none (markedProgram none 0) = .ok c ∧
      usedSession.compile none (markedProgram (some 99) 7) = .ok d ∧ c.Alike d ∧
      ∃ e, c.session.compile none c.program = .ok e ∧ e.Alike c := by
  have hoptions : ({} : Session).options = usedSession.options := rfl
  have hbare : (markedProgram none 0).bare = (markedProgram (some 99) 7).bare := rfl
  exact compile_of_bare hoptions hbare none

end Session

end TreeCompiler

import TreeCompiler.Proofs.Lookups

/-!
Analysis that halts and analysis that keeps going.

The two run side by side until something is reported. From there on the one that halts adds nothing
to its report, and the one that keeps going only adds behind it. `Pairs` says this of a step in both
modes; it carries over from steps to sequences of steps, and so to whole walks. What they report is
then a list and its first element.
-/

namespace TreeCompiler

section Pairs

variable {σ α β : Type} {errors : σ → List Diagnostic} {s : σ} {E : α → α → Prop}
  {E' : β → β → Prop}

/-- From state `s`, where `x` keeps going and `y` halts: `x` takes no report back, and `y` adds none
to one that is there. Without a report before, `y` ends with the first report of `x`; and if there
is none at all, both end in the same state, with results that are related by `E`. In any case each
result is related to something. -/
structure PairsAt (errors : σ → List Diagnostic) (E : α → α → Prop)
    (x y : StateT σ (Except Dangling) α) (s : σ) : Prop where
  grows : ∀ {a t}, x s = .ok (a, t) → errors s <+: errors t ∧ ∃ b, E a b
  halted : ∀ {b u}, y s = .ok (b, u) → (errors s ≠ [] → errors u = errors s) ∧ ∃ a, E a b
  first : ∀ {a t b u}, x s = .ok (a, t) → y s = .ok (b, u) → errors s = [] →
    errors u = (errors t).take 1 ∧ (errors t = [] → E a b ∧ u = t)

def Pairs (errors : σ → List Diagnostic) (E : α → α → Prop) (x y : StateT σ (Except Dangling) α) :
    Prop := ∀ s, PairsAt errors E x y s

variable {x y : StateT σ (Except Dangling) α} {f g : α → StateT σ (Except Dangling) β}

lemma take_one_of_prefix {es fs : List Diagnostic} (h : es <+: fs) (hne : es ≠ []) :
    fs.take 1 = es.take 1 := by
  obtain ⟨rest, rfl⟩ := h
  cases es with
  | nil => exact absurd rfl hne
  | cons d es => rfl

lemma PairsAt.bind (h : PairsAt errors E x y s)
    (hf : ∀ a b, E a b → Pairs errors E' (f a) (g b)) :
    PairsAt errors E' (x >>= f) (y >>= g) s where
  grows hx := by
    obtain ⟨a, t, ha, hc⟩ := run_bind.mp hx
    obtain ⟨hst, b, hab⟩ := h.grows ha
    obtain ⟨htu, hE'⟩ := (hf a b hab t).grows hc
    exact ⟨hst.trans htu, hE'⟩
  halted hy := by
    obtain ⟨b, u, hb, hd⟩ := run_bind.mp hy
    obtain ⟨hsu, a, hab⟩ := h.halted hb
    obtain ⟨huv, hE'⟩ := (hf a b hab u).halted hd
    refine ⟨fun hs => ?_, hE'⟩
    have hu : errors u = errors s := hsu hs
    rw [huv (hu ▸ hs), hu]
  first hx hy hs := by
    obtain ⟨a, t, ha, hc⟩ := run_bind.mp hx
    obtain ⟨b, u, hb, hd⟩ := run_bind.mp hy
    obtain ⟨hfirst, hsame⟩ := h.first ha hb hs
    by_cases ht : errors t = []
    · obtain ⟨hab, rfl⟩ := hsame ht
      exact (hf a b hab u).first hc hd ht
    · -- the first report is out, so the second step cannot change it in either mode
      have hu : errors u ≠ [] := by simpa [hfirst] using ht
      obtain ⟨-, b', hab'⟩ := h.grows ha
      obtain ⟨-, a', hab⟩ := h.halted hb
      have hgrows := ((hf a b' hab' t).grows hc).1
      have hhalted := ((hf a' b hab u).halted hd).1 hu
      refine ⟨?_, fun hnil => ?_⟩
      · rw [hhalted, hfirst, take_one_of_prefix hgrows ht]
      · rw [hnil] at hgrows
        exact absurd (List.prefix_nil.mp hgrows) ht

/-- Adding a report in both modes. -/
lemma PairsAt.report {opts opts' : Options} {d : Diagnostic} {t u : σ} {a : α}
    (hgoing : opts.keepGoing = true) (hhalting : opts'.keepGoing = false) (hE : E a a)
    (hx : x s = .ok (a, t)) (hy : y s = .ok (a, u)) (ht : errors t = opts.report (errors s) d)
    (hu : errors u = opts'.report (errors s) d) : PairsAt errors E x y s where
  grows h := by
    obtain ⟨rfl, rfl⟩ := Prod.mk.inj (Except.ok.inj (h.symm.trans hx))
    rw [ht, Options.report, Options.halts_of_keepGoing hgoing]
    exact ⟨List.prefix_append _ _, _, hE⟩
  halted h := by
    obtain ⟨rfl, rfl⟩ := Prod.mk.inj (Except.ok.inj (h.symm.trans hy))
    refine ⟨fun hs => ?_, _, hE⟩
    rw [hu, Options.report_of_halts]
    simp [Options.halts, hhalting, hs]
  first h h' hs := by
    obtain ⟨rfl, rfl⟩ := Prod.mk.inj (Except.ok.inj (h.symm.trans hx))
    obtain ⟨rfl, rfl⟩ := Prod.mk.inj (Except.ok.inj (h'.symm.trans hy))
    rw [ht, hu, hs, Options.report_nil, Options.report_nil]
    exact ⟨rfl, by simp⟩

/-- Only the mode that halts stops here once there is a report. -/
lemma PairsAt.skip {y' : StateT σ (Except Dangling) α} {a b : α} (h : PairsAt errors E x y s)
    (hE : E a b) (hskip : errors s ≠ [] → y' s = .ok (b, s)) (hgo : errors s = [] → y' s = y s) :
    PairsAt errors E x y' s where
  grows := h.grows
  halted hy := by
    by_cases hs : errors s = []
    · exact ⟨fun hne => absurd hs hne, (h.halted (hgo hs ▸ hy)).2⟩
    · obtain ⟨rfl, rfl⟩ := Prod.mk.inj (Except.ok.inj (hy.symm.trans (hskip hs)))
      exact ⟨fun _ => rfl, a, hE⟩
  first hx hy hs := h.first hx (hgo hs ▸ hy) hs

lemma PairsAt.get_bind {f g : σ → StateT σ (Except Dangling) β}
    (h : PairsAt errors E' (f s) (g s) s) : PairsAt errors E' (get >>= f) (get >>= g) s :=
  ⟨h.grows, h.halted, h.first⟩

/-- A step that reports nothing in either mode. -/
lemma PairsAt.refl (hE : ∀ a, E a a) (h : ∀ a t, x s = .ok (a, t) → errors t = errors s) :
    PairsAt errors E x x s where
  grows {a t} hx := by
    rw [h a t hx]
    exact ⟨List.prefix_rfl, a, hE a⟩
  halted {b u} hx := ⟨fun _ => h b u hx, b, hE b⟩
  first hx hy hs := by
    obtain ⟨rfl, rfl⟩ := Prod.mk.inj (Except.ok.inj (hx.symm.trans hy))
    rw [h _ _ hx, hs]
    exact ⟨rfl, fun _ => ⟨hE _, rfl⟩⟩

namespace Pairs

lemma bind (h : Pairs errors E x y) (hf : ∀ a b, E a b → Pairs errors E' (f a) (g b)) :
    Pairs errors E' (x >>= f) (y >>= g) := fun s => (h s).bind hf

lemma bind_same (h : Pairs errors Eq x y) (hf : ∀ a, Pairs errors E' (f a) (g a)) :
    Pairs errors E' (x >>= f) (y >>= g) := by
  refine h.bind fun a b hab => ?_
  subst hab
  exact hf a

lemma mono {F : α → α → Prop} (h : Pairs errors E x y) (hF : ∀ a b, E a b → F a b) :
    Pairs errors F x y := by
  intro s
  refine ⟨fun hx => ?_, fun hy => ?_, fun hx hy hs => ?_⟩
  · obtain ⟨hgrows, b, hab⟩ := (h s).grows hx
    exact ⟨hgrows, b, hF _ b hab⟩
  · obtain ⟨hhalted, a, hab⟩ := (h s).halted hy
    exact ⟨hhalted, a, hF a _ hab⟩
  · obtain ⟨hfirst, hsame⟩ := (h s).first hx hy hs
    exact ⟨hfirst, fun ht => (hsame ht).imp_left (hF _ _)⟩

lemma pure {a b : α} (h : E a b) : Pairs errors E (Pure.pure a) (Pure.pure b) := by
  intro s
  refine ⟨fun hx => ?_, fun hy => ?_, fun hx hy hs => ?_⟩
  · obtain ⟨rfl, rfl⟩ := run_pure.mp hx
    exact ⟨List.prefix_rfl, b, h⟩
  · obtain ⟨rfl, rfl⟩ := run_pure.mp hy
    exact ⟨fun _ => rfl, a, h⟩
  · obtain ⟨rfl, rfl⟩ := run_pure.mp hx
    obtain ⟨rfl, rfl⟩ := run_pure.mp hy
    rw [hs]
    exact ⟨rfl, fun _ => ⟨h, rfl⟩⟩

lemma lift (hE : ∀ a, E a a) (e : Except Dangling α) :
    Pairs errors E (liftM e) (liftM e) := by
  intro s
  refine .refl hE fun a t h => ?_
  cases e with
  | ok b => exact congrArg errors (Prod.mk.inj (Except.ok.inj h)).2.symm
  | error d => exact nomatch h

lemma modify {f : σ → σ} (h : ∀ s, errors (f s) = errors s) :
    Pairs errors Eq (modify f) (modify f) := by
  intro s
  refine .refl (fun _ => rfl) fun a t ht => ?_
  obtain ⟨-, rfl⟩ := Prod.mk.inj (Except.ok.inj ht)
  exact h s

end Pairs

end Pairs

/-! ### Name resolution -/

variable {r : Bool} {α β : Type}

namespace Resolve

/-- A walk in both modes. -/
abbrev Pairs (E : α → α → Prop) (x y : Resolve α) : Prop := TreeCompiler.Pairs Resolver.errors E x y

namespace Pairs

variable {x y : Resolve α} {E : α → α → Prop}

lemma report (d : Diagnostic) : Pairs Eq (report ⟨true, r⟩ d) (report ⟨false, r⟩ d) :=
  fun _ => .report rfl rfl rfl rfl rfl rfl rfl

/-- What was reported ends a step. -/
lemma report_pure (d : Diagnostic) (a : α) :
    Pairs Eq (do Resolve.report ⟨true, r⟩ d; Pure.pure a)
      (do Resolve.report ⟨false, r⟩ d; Pure.pure a) :=
  (report d).bind_same fun _ => .pure rfl

lemma unlessHalted {a b : α} (h : Pairs E x y) (hE : E a b) :
    Pairs E (unlessHalted ⟨true, r⟩ a x) (unlessHalted ⟨false, r⟩ b y) := by
  intro s
  have hx : Resolve.unlessHalted ⟨true, r⟩ a x = x := by
    funext s
    simp [Resolve.unlessHalted, Options.halts]
  rw [hx]
  refine (h s).skip hE (fun hs => ?_) fun hs => ?_
  · simp [Resolve.unlessHalted, Options.halts, hs]
  · simp [Resolve.unlessHalted, hs]

lemma inScope (h : Pairs E x y) : Pairs E (inScope x) (inScope y) := by
  have henter : Pairs Eq enter enter := .modify fun _ => rfl
  have hexit : Pairs Eq exit exit := .modify fun _ => rfl
  exact henter.bind_same fun _ => h.bind fun _ _ hab => hexit.bind_same fun _ => .pure hab

lemma bind_symbol (x : Ident) (symbol : Symbol) :
    Pairs Eq (Resolve.bind ⟨true, r⟩ x symbol) (Resolve.bind ⟨false, r⟩ x symbol) := by
  intro s
  refine .get_bind ?_
  dsimp only
  split
  · exact report_pure _ _ s
  · refine .refl (fun _ => rfl) fun a t h => ?_
    rw [run_set_bind, run_pure] at h
    rw [h.2]

lemma placeVariable (x : Ident) (ty : Ty) :
    Pairs Eq (placeVariable ⟨true, r⟩ x ty) (placeVariable ⟨false, r⟩ x ty) := by
  intro s
  refine .get_bind ?_
  dsimp only
  split
  · refine TreeCompiler.Pairs.bind_same (.modify fun s => ?_) (fun _ => .pure rfl) s
    rw [Resolver.setUsed]
    split <;> rfl
  · exact report_pure _ _ s

lemma placeParameter (x : Ident) (ty : Ty) :
    Pairs Eq (placeParameter ⟨true, r⟩ x ty) (placeParameter ⟨false, r⟩ x ty) := by
  intro s
  refine .get_bind ?_
  dsimp only
  split
  · refine TreeCompiler.Pairs.bind_same (.modify ?_) (fun _ => .pure rfl) s
    exact fun _ => rfl
  · exact report_pure _ _ s

lemma setParams (id : Option SymbolId) (ids : List SymbolId) :
    Pairs Eq (setParams id ids) (setParams id ids) := by
  cases id with
  | none => exact .pure rfl
  | some id =>
    intro s
    have hfind : Pairs Eq (liftM (Arena.find s.arena id)) (liftM (Arena.find s.arena id)) :=
      .lift (fun _ => rfl) _
    refine .get_bind (hfind.bind_same (fun _ => .modify ?_) s)
    exact fun _ => rfl

end Pairs

end Resolve

lemma Ident.pairs_resolve (x : Ident) :
    Resolve.Pairs Eq (x.resolve ⟨true, r⟩) (x.resolve ⟨false, r⟩) := by
  intro s
  refine .get_bind ?_
  split
  · exact Resolve.Pairs.report_pure _ _ s
  · refine .get_bind ((Pairs.lift (fun _ => rfl) _).bind_same (fun symbol => ?_) s)
    split
    · exact Resolve.Pairs.report_pure _ _
    · exact .pure rfl

lemma Ident.pairs_resolveCalled (f : Ident) :
    Resolve.Pairs Eq (f.resolveCalled ⟨true, r⟩) (f.resolveCalled ⟨false, r⟩) := by
  rw [resolveCalled, resolveCalled]
  split
  · exact .pure rfl
  · exact f.pairs_resolve

lemma Resolve.ExprRules.pairs (r : Bool) :
    ExprRules (fun E x y => Pairs E x y) ⟨true, r⟩ ⟨false, r⟩ {} {} {} where
  pure h := TreeCompiler.Pairs.pure h
  bind h hf := by
    refine h.bind fun a b hab => ?_
    exact (hf a b).mono fun _ _ hcd => hcd hab
  unlessHalted h hE := Pairs.unlessHalted h (hE rfl rfl)
  used x := x.pairs_resolve
  called f := f.pairs_resolveCalled

lemma Expr.pairs_resolveOption (e : Option Expr) :
    Resolve.Pairs Eq (Expr.resolveOption ⟨true, r⟩ e) (Expr.resolveOption ⟨false, r⟩ e) := by
  have hwalk := Expr.holds_resolveOption (.pairs r) e
  simpa only [Expr.imageOption_id] using hwalk

lemma Var.pairs_resolve (v : Var) :
    Resolve.Pairs Eq (v.resolve ⟨true, r⟩) (v.resolve ⟨false, r⟩) := by
  rw [Var.resolve, Var.resolve]
  split
  · exact .report_pure _ _
  · intro s
    have hplace := Resolve.Pairs.placeVariable (r := r) v.name v.ty
    have hvalue := Expr.pairs_resolveOption (r := r) v.value
    refine .get_bind (hplace.bind_same (fun _ => hvalue.bind_same fun _ => ?_) s)
    exact (Resolve.Pairs.bind_symbol _ _).bind_same fun _ => .pure rfl

lemma Param.pairs_resolve (p : Param) :
    Resolve.Pairs Eq (p.resolve ⟨true, r⟩) (p.resolve ⟨false, r⟩) := by
  refine .unlessHalted ?_ rfl
  split
  · exact .report_pure _ _
  · have hplace := Resolve.Pairs.placeParameter (r := r) p.name p.ty
    have hfallback := Expr.pairs_resolveOption (r := r) p.fallback
    refine hplace.bind_same fun _ => hfallback.bind_same fun _ => ?_
    exact (Resolve.Pairs.bind_symbol _ _).bind_same fun _ => .pure rfl

lemma Param.pairs_resolveAll (ps : List Param) :
    Resolve.Pairs Eq (Param.resolveAll ⟨true, r⟩ ps) (Param.resolveAll ⟨false, r⟩ ps) := by
  induction ps with
  | nil => exact .pure rfl
  | cons p rest ih => exact p.pairs_resolve.bind_same fun _ => ih.bind_same fun _ => .pure rfl

lemma FunDecl.pairs_resolve_of_body (f : FunDecl)
    (hbody : Resolve.Pairs Eq (Stmt.resolveAll ⟨true, r⟩ f.body)
      (Stmt.resolveAll ⟨false, r⟩ f.body)) :
    Resolve.Pairs Eq (f.resolve ⟨true, r⟩) (f.resolve ⟨false, r⟩) := by
  obtain ⟨name, params, returns, body, variableSize, parameterSize⟩ := f
  have hframe (f : Option Frame) : Resolve.Pairs Eq
      (modify fun s : Resolver => { s with frame := f })
      (modify fun s : Resolver => { s with frame := f }) := .modify fun _ => rfl
  have hinside : Resolve.Pairs Eq (FunDecl.resolveInside ⟨true, r⟩ params body)
      (FunDecl.resolveInside ⟨false, r⟩ params body) :=
    (Param.pairs_resolveAll params).bind_same fun _ => hbody.bind_same fun _ => .pure rfl
  rw [FunDecl.resolve, FunDecl.resolve]
  intro s
  refine .get_bind ?_
  split
  · exact Resolve.Pairs.report_pure _ _ s
  · refine (Resolve.Pairs.bind_symbol _ _).bind_same (fun bound => ?_) s
    refine (hframe _).bind_same fun _ => ?_
    refine (Resolve.Pairs.inScope hinside).bind_same fun inner s => ?_
    refine .get_bind ((hframe none).bind_same (fun _ => ?_) s)
    exact (Resolve.Pairs.setParams bound.2 inner.2.1).bind_same fun _ => .pure rfl

lemma Resolve.Rules.pairs (r : Bool) :
    Rules (fun E x y => Pairs E x y) ⟨true, r⟩ ⟨false, r⟩ {} {} {} where
  toExprRules := .pairs r
  inScope h := Pairs.inScope h
  var v := by
    rw [v.image_id]
    exact v.pairs_resolve.mono fun _ _ h => congrArg _ h
  function f hbody := by
    simp only [Stmt.imageAll_id] at hbody
    rw [f.image_id]
    exact (f.pairs_resolve_of_body hbody).mono fun _ _ h => congrArg _ h

lemma Program.pairs_resolve (p : Program) :
    Resolve.Pairs Eq (p.resolve ⟨true, r⟩) (p.resolve ⟨false, r⟩) := by
  have hwalk := p.holds_resolve (.pairs r)
  simpa only [Program.image_id] using hwalk

/-! ### Checking -/

namespace Check

/-- A check in both modes. -/
abbrev Pairs (E : α → α → Prop) (x y : Check α) : Prop := TreeCompiler.Pairs id E x y

lemma Pairs.unlessHalted {x y : Check Unit} (h : Pairs (fun _ _ => True) x y) :
    Pairs (fun _ _ => True) (unlessHalted ⟨true, r⟩ x) (unlessHalted ⟨false, r⟩ y) := by
  intro es
  have hx : Check.unlessHalted ⟨true, r⟩ x = x := by
    funext es
    simp [Check.unlessHalted, Options.halts]
  rw [hx]
  refine (h es).skip (a := ()) (b := ()) trivial (fun hes => ?_) fun hes => ?_
  · rw [Check.unlessHalted, Options.halts]
    simpa using fun hnil => absurd hnil hes
  · obtain rfl : es = [] := hes
    rfl

lemma Rules.pairs (r : Bool) (arena : Arena) : Rules (fun E x y => Pairs E x y)
    ⟨⟨true, r⟩, arena⟩ ⟨⟨false, r⟩, arena⟩ (fun _ => True) Eq Eq {} where
  types := .eq
  leaves := .refl (fun _ => rfl) fun _ => rfl
  pure h := TreeCompiler.Pairs.pure h
  bind h hf := h.bind hf
  report h := by
    rw [h.eq]
    exact fun _ => .report rfl rfl trivial rfl rfl rfl rfl
  unlessHalted h := Pairs.unlessHalted h
  find _ := .lift (fun _ => ⟨rfl, rfl, rfl, fun _ _ => trivial⟩) _

end Check

lemma Program.pairs_check (p : Program) (arena : Arena) : Check.Pairs (fun _ _ => True)
    (p.check ⟨⟨true, r⟩, arena⟩) (p.check ⟨⟨false, r⟩, arena⟩) := by
  have hwalk := p.holds_check (.pairs r arena) allKnown_true
  rwa [p.image_id] at hwalk

/-! ### Sessions -/

/-- What an analysis that halts has in common with one that keeps going: its reports are the first
of the other's, and if there is none, then the trees and the symbols are the same. -/
structure Analysis.HaltsOf (b a : Analysis) : Prop where
  accepted : b.errors = [] ↔ a.errors = []
  first : ∀ d ds, a.errors = d :: ds → b.errors = [d]
  same : a.errors = [] → b.program = a.program ∧ b.session.arena = a.session.arena

lemma Analysis.haltsOf_of_take {a b : Analysis} (h : b.errors = a.errors.take 1)
    (hsame : a.errors = [] → b.program = a.program ∧ b.session.arena = a.session.arena) :
    b.HaltsOf a where
  accepted := by simp [h]
  first d ds hd := by simp [h, hd]
  same := hsame

namespace Session

variable {s s' : Session} {p : Program} {a b : Analysis}

lemma first_resolve (ha : resolve { s with options := ⟨true, r⟩ } p = .ok a)
    (hb : resolve { s with options := ⟨false, r⟩ } p = .ok b) : b.HaltsOf a := by
  obtain ⟨t, hrun, hta, hsa⟩ := resolve_eq_ok ha
  obtain ⟨u, hrun', hub, hsb⟩ := resolve_eq_ok hb
  obtain ⟨hfirst, hsame⟩ := (p.pairs_resolve _).first hrun hrun' rfl
  refine Analysis.haltsOf_of_take (by rw [hta, hub, hfirst]) fun herrors => ?_
  obtain ⟨hprogram, rfl⟩ := hsame (hta.symm.trans herrors)
  rw [hsa, hsb]
  exact ⟨hprogram.symm, rfl⟩

lemma first_check {es fs : List Diagnostic} (hes : s.check p = .ok es) (hfs : s'.check p = .ok fs)
    (hs : s.options = ⟨true, r⟩) (hs' : s'.options = ⟨false, r⟩) (harena : s'.arena = s.arena) :
    fs = es.take 1 := by
  obtain ⟨⟨_, es⟩, hrun, hes⟩ := bind_eq_ok.mp hes
  obtain ⟨⟨_, fs⟩, hrun', hfs⟩ := bind_eq_ok.mp hfs
  obtain rfl := Except.ok.inj hes
  obtain rfl := Except.ok.inj hfs
  rw [hs] at hrun
  rw [hs', harena] at hrun'
  exact ((p.pairs_check s.arena _).first hrun hrun' rfl).1

lemma first_analyze (s : Session) (p : Program) (r : Bool) :
    ∃ a b, analyze { s with options := ⟨true, r⟩ } p = .ok a ∧
      analyze { s with options := ⟨false, r⟩ } p = .ok b ∧ b.HaltsOf a := by
  obtain ⟨a, ha, -⟩ := exists_resolve { s with options := ⟨true, r⟩ } p
  obtain ⟨b, hb, -⟩ := exists_resolve { s with options := ⟨false, r⟩ } p
  have hresolved : b.HaltsOf a := first_resolve (s := {}) ha hb
  by_cases herrors : a.errors = []
  · obtain ⟨a', ha'⟩ := exists_analyze { s with options := ⟨true, r⟩ } p
    obtain ⟨b', hb'⟩ := exists_analyze { s with options := ⟨false, r⟩ } p
    obtain ⟨hcheck, hprogram, hsession⟩ := check_of_analyze ha herrors ha'
    obtain ⟨hcheck', hprogram', hsession'⟩ :=
      check_of_analyze hb (hresolved.accepted.mpr herrors) hb'
    obtain ⟨hsame, harena⟩ := hresolved.same herrors
    obtain ⟨_, -, -, hsa⟩ := resolve_eq_ok ha
    obtain ⟨_, -, -, hsb⟩ := resolve_eq_ok hb
    rw [hsame] at hcheck'
    have htake := first_check hcheck hcheck' (by rw [hsa]; rfl) (by rw [hsb]; rfl) harena
    refine ⟨a', b', ha', hb', Analysis.haltsOf_of_take htake fun _ => ?_⟩
    rw [hprogram, hprogram', hsession, hsession']
    exact ⟨hsame, harena⟩
  · have herrors' : b.errors ≠ [] := fun h => herrors (hresolved.accepted.mp h)
    exact ⟨a, b, analyze_of_reports ha herrors, analyze_of_reports hb herrors', hresolved⟩

/-- **The first report**: an analysis that halts accepts the programs that one accepts that keeps
going, with the same trees and symbols; and where that one has reports, it has the first of them and
no other. The same is true of name resolution and of checking, each on its own, as long as both
modes come to an end. -/
theorem analyze_first_report (s : Session) (p : Program) (redeclare : Bool) :
    (∃ a b, analyze { s with options := ⟨true, redeclare⟩ } p = .ok a ∧
      analyze { s with options := ⟨false, redeclare⟩ } p = .ok b ∧ b.HaltsOf a) ∧
    (∀ a b, resolve { s with options := ⟨true, redeclare⟩ } p = .ok a →
      resolve { s with options := ⟨false, redeclare⟩ } p = .ok b → b.HaltsOf a) ∧
    ∀ es fs, check { s with options := ⟨true, redeclare⟩ } p = .ok es →
      check { s with options := ⟨false, redeclare⟩ } p = .ok fs →
      (fs = [] ↔ es = []) ∧ ∀ d ds, es = d :: ds → fs = [d] := by
  refine ⟨first_analyze s p redeclare, fun a b => first_resolve, fun es fs hes hfs => ?_⟩
  have htake := first_check hes hfs rfl rfl rfl
  refine ⟨by simp [htake], fun d ds hd => ?_⟩
  rw [htake, hd]
  rfl

/-- Two names that nothing declares. -/
example : ∀ keepGoing, (analyze { options := ⟨keepGoing, false⟩ }
    [.globalVar ⟨⟨"a", 0, none⟩, .int, some (.binary (.arith .add) (.name ⟨"x", 0, none⟩)
      (.name ⟨"y", 0, none⟩))⟩]).map (·.errors) =
    .ok (if keepGoing then [.undefined "x", .undefined "y"] else [.undefined "x"])
  | true | false => rfl

end Session

end TreeCompiler

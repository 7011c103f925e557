import TreeCompiler.Proofs.Generated
import TreeCompiler.Proofs.LeafMaps
import TreeCompiler.Proofs.Registers

/-!
A program without its annotations.

Name resolution writes into a tree: the symbols of its names, and the bytes that the variables and
parameters of a function take. All else stays, whatever it reports. So what depends on the text of
a program only, as the registers that its code takes, can be read off before resolution.
-/

namespace TreeCompiler

/-- No symbols and no bytes. -/
def LeafMap.bare : LeafMap where
  declared := Ident.bare
  used := Ident.bare
  called := Ident.bare
  bytes _ := 0

/-- The expression as it is written. -/
def Expr.bare (e : Expr) : Expr := e.image .bare

/-- The function as it is written. -/
def FunDecl.bare (f : FunDecl) : FunDecl := f.image .bare

/-- The program as it is written. -/
def Program.bare (p : Program) : Program := p.image .bare

/-! ### Resolution only annotates -/

variable {opts : Options} {s t : Resolver}

/-- A walk that has halted leaves a part as it is. -/
lemma Resolve.of_unlessHalted {α : Type} {P : α → Prop} {a b : α} {act : Resolve α}
    (h : unlessHalted opts a act s = .ok (b, t)) (ha : P a) (hact : act s = .ok (b, t) → P b) :
    P b := by
  rw [unlessHalted] at h
  split at h
  · obtain ⟨rfl, -⟩ := Prod.mk.inj (Except.ok.inj h)
    exact ha
  · exact hact h

lemma Resolve.bare_bind {x : Ident} {symbol : Symbol} {p : Ident × Option SymbolId}
    (h : Resolve.bind opts x symbol s = .ok (p, t)) : p.1.bare = x.bare := by
  rw [Resolve.bind, run_get_bind] at h
  split at h
  · rw [run_report_bind, run_pure] at h
    rw [h.1]
  · rw [run_set_bind, run_pure] at h
    rw [h.1]
    rfl

lemma Ident.bare_resolve {x x' : Ident} (h : x.resolve opts s = .ok (x', t)) :
    x'.bare = x.bare := by
  rw [resolve, run_get_bind] at h
  cases hlookup : s.scopes.lookup x.name with
  | none =>
    rw [hlookup, Resolve.run_report_bind, run_pure] at h
    rw [h.1]
  | some id =>
    rw [hlookup, run_get_bind, run_lift_bind] at h
    obtain ⟨symbol, -, h⟩ := h
    split at h
    · rw [Resolve.run_report_bind, run_pure] at h
      rw [h.1]
      rfl
    · rw [run_pure] at h
      rw [h.1]
      rfl

mutual

lemma Expr.bare_resolve : (e : Expr) → ∀ {s t : Resolver} {e' : Expr},
    e.resolve opts s = .ok (e', t) → e'.image .bare = e.image .bare
  | .int _, s, t, e', h | .bool _, s, t, e', h => by rw [(run_pure.mp h).1]
  | .name x, s, t, e', h => by
    refine Resolve.of_unlessHalted (P := fun e : Expr => e.image .bare = _) h rfl fun h => ?_
    obtain ⟨x', u, hx, h⟩ := run_bind.mp h
    have hname : LeafMap.bare.used x' = LeafMap.bare.used x := x.bare_resolve hx
    rw [(run_pure.mp h).1, Expr.image, Expr.image, hname]
  | .binary op l r, s, t, e', h => by
    refine Resolve.of_unlessHalted (P := fun e : Expr => e.image .bare = _) h rfl fun h => ?_
    obtain ⟨l', u, hl, h⟩ := run_bind.mp h
    obtain ⟨r', u', hr, h⟩ := run_bind.mp h
    rw [(run_pure.mp h).1, Expr.image, Expr.image, l.bare_resolve hl, r.bare_resolve hr]
  | .assign x e, s, t, e', h => by
    refine Resolve.of_unlessHalted (P := fun e : Expr => e.image .bare = _) h rfl fun h => ?_
    obtain ⟨x', u, hx, h⟩ := run_bind.mp h
    obtain ⟨v', u', hv, h⟩ := run_bind.mp h
    have hname : LeafMap.bare.used x' = LeafMap.bare.used x := x.bare_resolve hx
    rw [(run_pure.mp h).1, Expr.image, Expr.image, hname, e.bare_resolve hv]
  | .call f args, s, t, e', h => by
    refine Resolve.of_unlessHalted (P := fun e : Expr => e.image .bare = _) h rfl fun h => ?_
    dsimp only at h
    split at h
    · rw [pure_bind] at h
      obtain ⟨args', u, hargs, h⟩ := run_bind.mp h
      rw [(run_pure.mp h).1, Expr.image, Expr.image, Expr.bare_resolveAll args hargs]
    · obtain ⟨f', u, hf, h⟩ := run_bind.mp h
      obtain ⟨args', u', hargs, h⟩ := run_bind.mp h
      have hname : LeafMap.bare.called f' = LeafMap.bare.called f := f.bare_resolve hf
      rw [(run_pure.mp h).1, Expr.image, Expr.image, hname, Expr.bare_resolveAll args hargs]
termination_by structural e => e

lemma Expr.bare_resolveAll : (es : List Expr) → ∀ {s t : Resolver} {es' : List Expr},
    Expr.resolveAll opts es s = .ok (es', t) → Expr.imageAll .bare es' = Expr.imageAll .bare es
  | [], s, t, es', h => by rw [(run_pure.mp h).1]
  | e :: rest, s, t, es', h => by
    obtain ⟨e', u, he, h⟩ := run_bind.mp h
    obtain ⟨rest', u', hrest, h⟩ := run_bind.mp h
    rw [(run_pure.mp h).1, Expr.imageAll, Expr.imageAll, e.bare_resolve he,
      Expr.bare_resolveAll rest hrest]
termination_by structural es => es

end

lemma Expr.bare_resolveOption {e e' : Option Expr}
    (h : Expr.resolveOption opts e s = .ok (e', t)) :
    e'.map (·.image .bare) = e.map (·.image .bare) := by
  cases e with
  | none => rw [(run_pure.mp h).1]
  | some e =>
    obtain ⟨e', u, he, h⟩ := run_bind.mp h
    rw [(run_pure.mp h).1, Option.map_some, Option.map_some, e.bare_resolve he]

lemma Var.bare_resolve {v v' : Var} (h : v.resolve opts s = .ok (v', t)) :
    v'.image .bare = v.image .bare := by
  rw [resolve] at h
  split at h
  · rw [Resolve.run_report_bind, run_pure] at h
    rw [h.1]
  · rw [run_get_bind] at h
    obtain ⟨_, _, -, h⟩ := run_bind.mp h
    obtain ⟨value, _, hvalue, h⟩ := run_bind.mp h
    obtain ⟨name, _, hname, h⟩ := run_bind.mp h
    have hdeclared : LeafMap.bare.declared name.1 = LeafMap.bare.declared v.name :=
      Resolve.bare_bind hname
    rw [(run_pure.mp h).1, Var.image, Var.image, hdeclared, Expr.bare_resolveOption hvalue]

lemma Param.bare_resolve {p : Param} {p' : Param × Option SymbolId}
    (h : p.resolve opts s = .ok (p', t)) : p'.1.image .bare = p.image .bare := by
  refine Resolve.of_unlessHalted (P := fun q : Param × Option SymbolId => q.1.image .bare = _) h rfl
    fun h => ?_
  split at h
  · rw [Resolve.run_report_bind, run_pure] at h
    rw [h.1]
  · obtain ⟨_, _, -, h⟩ := run_bind.mp h
    obtain ⟨value, _, hvalue, h⟩ := run_bind.mp h
    obtain ⟨name, _, hname, h⟩ := run_bind.mp h
    have hdeclared : LeafMap.bare.declared name.1 = LeafMap.bare.declared p.name :=
      Resolve.bare_bind hname
    rw [(run_pure.mp h).1, Param.image, Param.image, hdeclared, Expr.bare_resolveOption hvalue]

lemma Param.bare_resolveAll : (ps : List Param) →
    ∀ {s t : Resolver} {r : List Param × List SymbolId}, Param.resolveAll opts ps s = .ok (r, t) →
    r.1.map (·.image .bare) = ps.map (·.image .bare)
  | [], s, t, r, h => by rw [(run_pure.mp h).1]
  | p :: rest, s, t, r, h => by
    obtain ⟨p', u, hp, h⟩ := run_bind.mp h
    obtain ⟨rest', u', hrest, h⟩ := run_bind.mp h
    rw [(run_pure.mp h).1, List.map_cons, List.map_cons, Param.bare_resolve hp,
      Param.bare_resolveAll rest hrest]

mutual

lemma Stmt.bare_resolve : (st : Stmt) → ∀ {s t : Resolver} {st' : Stmt},
    st.resolve opts s = .ok (st', t) → st'.image .bare = st.image .bare
  | .expr e, s, t, st', h => by
    refine Resolve.of_unlessHalted (P := fun st : Stmt => st.image .bare = _) h rfl fun h => ?_
    obtain ⟨e', u, he, h⟩ := run_bind.mp h
    rw [(run_pure.mp h).1, Stmt.image, Stmt.image, e.bare_resolve he]
  | .decl d, s, t, st', h => by
    refine Resolve.of_unlessHalted (P := fun st : Stmt => st.image .bare = _) h rfl fun h => ?_
    obtain ⟨d', u, hd, h⟩ := run_bind.mp h
    rw [(run_pure.mp h).1, Stmt.image, Stmt.image, d.bare_resolve hd]
  | .ret value, s, t, st', h => by
    refine Resolve.of_unlessHalted (P := fun st : Stmt => st.image .bare = _) h rfl fun h => ?_
    obtain ⟨value', u, hvalue, h⟩ := run_bind.mp h
    rw [(run_pure.mp h).1, Stmt.image, Stmt.image, Expr.bare_resolveOption hvalue]
  | .cond b, s, t, st', h => by
    refine Resolve.of_unlessHalted (P := fun st : Stmt => st.image .bare = _) h rfl fun h => ?_
    obtain ⟨b', u, hb, h⟩ := run_bind.mp h
    rw [(run_pure.mp h).1, Stmt.image, Stmt.image, b.bare_resolve hb]
  | .whileLoop c body, s, t, st', h => by
    refine Resolve.of_unlessHalted (P := fun st : Stmt => st.image .bare = _) h rfl fun h => ?_
    obtain ⟨u, hscope, -⟩ := Resolve.run_inScope.mp h
    obtain ⟨c', u₁, hc, hrest⟩ := run_bind.mp hscope
    obtain ⟨body', u₂, hbody, hend⟩ := run_bind.mp hrest
    rw [(run_pure.mp hend).1, Stmt.image, Stmt.image, c.bare_resolve hc,
      Stmt.bare_resolveAll body hbody]
  | .forLoop start c step body, s, t, st', h => by
    refine Resolve.of_unlessHalted (P := fun st : Stmt => st.image .bare = _) h rfl fun h => ?_
    obtain ⟨u, hscope, -⟩ := Resolve.run_inScope.mp h
    obtain ⟨start', u₁, hstart, hrest⟩ := run_bind.mp hscope
    obtain ⟨c', u₂, hc, hrest⟩ := run_bind.mp hrest
    obtain ⟨step', u₃, hstep, hrest⟩ := run_bind.mp hrest
    obtain ⟨body', u₄, hscope', hend⟩ := run_bind.mp hrest
    obtain ⟨u₅, hbody, -⟩ := Resolve.run_inScope.mp hscope'
    rw [(run_pure.mp hend).1, Stmt.image, Stmt.image, Decl.bare_resolveOption start hstart,
      c.bare_resolve hc, Expr.bare_resolveOption hstep, Stmt.bare_resolveAll body hbody]
termination_by structural st => st

lemma Stmt.bare_resolveAll : (sts : List Stmt) → ∀ {s t : Resolver} {sts' : List Stmt},
    Stmt.resolveAll opts sts s = .ok (sts', t) → Stmt.imageAll .bare sts' = Stmt.imageAll .bare sts
  | [], s, t, sts', h => by rw [(run_pure.mp h).1]
  | st :: rest, s, t, sts', h => by
    obtain ⟨st', u, hst, h⟩ := run_bind.mp h
    obtain ⟨rest', u', hrest, h⟩ := run_bind.mp h
    rw [(run_pure.mp h).1, Stmt.imageAll, Stmt.imageAll, st.bare_resolve hst,
      Stmt.bare_resolveAll rest hrest]
termination_by structural sts => sts

lemma Branch.bare_resolve : (b : Branch) → ∀ {s t : Resolver} {b' : Branch},
    b.resolve opts s = .ok (b', t) → b'.image .bare = b.image .bare
  | ⟨c, body, tail⟩, s, t, b', h => by
    obtain ⟨pair, u, hscope, hrest⟩ := run_bind.mp h
    obtain ⟨tail', u', htail, hend⟩ := run_bind.mp hrest
    obtain ⟨u, hin, -⟩ := Resolve.run_inScope.mp hscope
    obtain ⟨c', u₁, hc, hrest⟩ := run_bind.mp hin
    obtain ⟨body', u₂, hbody, hpair⟩ := run_bind.mp hrest
    rw [(run_pure.mp hend).1, (run_pure.mp hpair).1, Branch.image, Branch.image,
      c.bare_resolve hc, Stmt.bare_resolveAll body hbody, tail.bare_resolve htail]
termination_by structural b => b

lemma Tail.bare_resolve : (tail : Tail) → ∀ {s t : Resolver} {tail' : Tail},
    tail.resolve opts s = .ok (tail', t) → tail'.image .bare = tail.image .bare
  | .done, s, t, tail', h => by rw [(run_pure.mp h).1]
  | .elseIf next, s, t, tail', h => by
    obtain ⟨next', u, hnext, h⟩ := run_bind.mp h
    rw [(run_pure.mp h).1, Tail.image, Tail.image, next.bare_resolve hnext]
  | .otherwise body, s, t, tail', h => by
    obtain ⟨body', u, hscope, h⟩ := run_bind.mp h
    obtain ⟨u, hbody, -⟩ := Resolve.run_inScope.mp hscope
    rw [(run_pure.mp h).1, Tail.image, Tail.image, Stmt.bare_resolveAll body hbody]
termination_by structural tail => tail

lemma Decl.bare_resolve : (d : Decl) → ∀ {s t : Resolver} {d' : Decl},
    d.resolve opts s = .ok (d', t) → d'.image .bare = d.image .bare
  | .globalVar v, s, t, d', h | .localVar v, s, t, d', h => by
    refine Resolve.of_unlessHalted (P := fun d : Decl => d.image .bare = _) h rfl fun h => ?_
    obtain ⟨v', u, hv, h⟩ := run_bind.mp h
    rw [(run_pure.mp h).1, Decl.image, Decl.image, Var.bare_resolve hv]
  | .function f, s, t, d', h => by
    refine Resolve.of_unlessHalted (P := fun d : Decl => d.image .bare = _) h rfl fun h => ?_
    obtain ⟨f', u, hf, h⟩ := run_bind.mp h
    rw [(run_pure.mp h).1, Decl.image, Decl.image, f.bare_resolve hf]
termination_by structural d => d

lemma Decl.bare_resolveOption : (d : Option Decl) → ∀ {s t : Resolver} {d' : Option Decl},
    Decl.resolveOption opts d s = .ok (d', t) → Decl.imageOption .bare d' = Decl.imageOption .bare d
  | none, s, t, d', h => by rw [(run_pure.mp h).1]
  | some d, s, t, d', h => by
    obtain ⟨d', u, hd, h⟩ := run_bind.mp h
    rw [(run_pure.mp h).1, Decl.imageOption, Decl.imageOption, d.bare_resolve hd]
termination_by structural d => d

lemma FunDecl.bare_resolve : (f : FunDecl) → ∀ {s t : Resolver} {f' : FunDecl},
    f.resolve opts s = .ok (f', t) → f'.image .bare = f.image .bare
  | ⟨name, params, returns, body, variableSize, parameterSize⟩, s, t, f', h => by
    rw [FunDecl.resolve, run_get_bind] at h
    split at h
    · rw [Resolve.run_report_bind, run_pure] at h
      rw [h.1]
    · obtain ⟨p, s₁, hname, hrest⟩ := run_bind.mp h
      rw [run_modify_bind] at hrest
      obtain ⟨q, s₂, hscope, hrest⟩ := run_bind.mp hrest
      rw [run_get_bind, run_modify_bind, Resolve.run_setParams_bind, run_pure] at hrest
      obtain ⟨s₃, hin, -⟩ := Resolve.run_inScope.mp hscope
      obtain ⟨ps, s₄, hparams, hin⟩ := run_bind.mp hin
      obtain ⟨body', s₅, hbody, hend⟩ := run_bind.mp hin
      have hdeclared : LeafMap.bare.declared p.1 = LeafMap.bare.declared name :=
        Resolve.bare_bind hname
      rw [hrest.2.1, (run_pure.mp hend).1, FunDecl.image, FunDecl.image, hdeclared,
        Param.bare_resolveAll params hparams, Stmt.bare_resolveAll body hbody]
      rfl
termination_by structural f => f

end

lemma Decl.bare_resolveAll : (ds : List Decl) → ∀ {s t : Resolver} {ds' : List Decl},
    Decl.resolveAll opts ds s = .ok (ds', t) → ds'.map (·.image .bare) = ds.map (·.image .bare)
  | [], s, t, ds', h => by rw [(run_pure.mp h).1]
  | d :: rest, s, t, ds', h => by
    obtain ⟨d', u, hd, h⟩ := run_bind.mp h
    obtain ⟨rest', u', hrest, h⟩ := run_bind.mp h
    rw [(run_pure.mp h).1, List.map_cons, List.map_cons, d.bare_resolve hd,
      Decl.bare_resolveAll rest hrest]

/-- **Resolution only annotates**: without its annotations, a program is the same after it. -/
theorem Program.bare_resolve {p p' : Program} (h : p.resolve opts s = .ok (p', t)) :
    p'.bare = p.bare := by
  obtain ⟨u, hin, -⟩ := Resolve.run_inScope.mp h
  exact Decl.bare_resolveAll p hin

/-! ### What can be read off the text -/

section Generated

variable (m : LeafMap)

mutual

/-- The peak of an expression does not depend on its leaves. -/
lemma Expr.peak_image : (e : Expr) → (e.image m).peak = e.peak
  | .int _ | .bool _ | .name _ => rfl
  | .assign _ e => by
    funext k
    rw [Expr.image, Expr.peak, Expr.peak, e.peak_image]
  | .binary _ l r => by
    funext k
    rw [Expr.image, Expr.peak, Expr.peak, l.peak_image, r.peak_image]
  | .call _ args => by
    funext k
    rw [Expr.image, Expr.peak, Expr.peak, Expr.peakArgs_image args]
termination_by structural e => e

lemma Expr.peakArgs_image : (es : List Expr) →
    Expr.peakArgs (Expr.imageAll m es) = Expr.peakArgs es
  | [] => rfl
  | e :: rest => by
    rw [Expr.imageAll, Expr.peakArgs, Expr.peakArgs, e.peak_image, Expr.peakArgs_image rest]
termination_by structural es => es

end

lemma Var.exprs_image (v : Var) : (v.image m).exprs = v.exprs.map (·.image m) := Option.toList_map

lemma Var.flatMap_exprs_image (vs : List Var) :
    (vs.map (·.image m)).flatMap Var.exprs = (vs.flatMap Var.exprs).map (·.image m) := by
  simp [List.flatMap_map, List.map_flatMap, Var.exprs_image]

lemma Decl.exprs_image (d : Decl) : (d.image m).exprs = d.exprs.map (·.image m) := by
  cases d with
  | globalVar v | localVar v => exact Var.flatMap_exprs_image m [v]
  | function f => rfl

lemma Decl.exprsOption_image (d : Option Decl) :
    Decl.exprsOption (Decl.imageOption m d) = (Decl.exprsOption d).map (·.image m) := by
  cases d with
  | none => rfl
  | some d => exact d.exprs_image m

mutual

/-- The same expressions get code. -/
lemma Stmt.exprs_image : (s : Stmt) → (s.image m).exprs = s.exprs.map (·.image m)
  | .expr _ => rfl
  | .decl d => d.exprs_image m
  | .ret _ => Option.toList_map
  | .cond b => b.exprs_image
  | .whileLoop c body => by
    rw [Stmt.image, Stmt.exprs, Stmt.exprs, Stmt.exprsAll_image body, List.map_cons]
  | .forLoop start c step body => by
    rw [Stmt.image, Stmt.exprs, Stmt.exprs, Decl.exprsOption_image, Stmt.exprsAll_image body,
      Option.toList_map, List.map_append, List.map_cons, List.map_append]
termination_by structural s => s

lemma Stmt.exprsAll_image : (ss : List Stmt) →
    Stmt.exprsAll (Stmt.imageAll m ss) = (Stmt.exprsAll ss).map (·.image m)
  | [] => rfl
  | s :: rest => by
    rw [Stmt.imageAll, Stmt.exprsAll, Stmt.exprsAll, s.exprs_image, Stmt.exprsAll_image rest,
      List.map_append]
termination_by structural ss => ss

lemma Branch.exprs_image : (b : Branch) → (b.image m).exprs = b.exprs.map (·.image m)
  | ⟨c, body, tail⟩ => by
    rw [Branch.image, Branch.exprs, Branch.exprs, Stmt.exprsAll_image body, tail.exprs_image,
      List.map_cons, List.map_append]
termination_by structural b => b

lemma Tail.exprs_image : (t : Tail) → (t.image m).exprs = t.exprs.map (·.image m)
  | .done => rfl
  | .elseIf next => next.exprs_image
  | .otherwise body => Stmt.exprsAll_image body
termination_by structural t => t

end

variable {m}

/-- A function that keeps its name presets the same globals. -/
lemma FunDecl.preset_image {f : FunDecl} (hname : (m.declared f.name).name = f.name.name)
    (globals : List Var) :
    (f.image m).preset (globals.map (·.image m)) = (f.preset globals).map (·.image m) := by
  have hentry : (f.image m).isEntry = f.isEntry := by rw [isEntry, isEntry, name_image, hname]
  rw [preset, preset, hentry]
  split <;> rfl

lemma FunDecl.generated_image (hname : ∀ x, (m.declared x).name = x.name) (f : FunDecl)
    (globals : List Var) :
    (f.image m).generated (globals.map (·.image m)) = (f.generated globals).map (·.image m) := by
  rw [generated, generated, preset_image (hname f.name), Var.flatMap_exprs_image, body_image,
    Stmt.exprsAll_image, List.map_append]

lemma Program.generated_image (hname : ∀ x, (m.declared x).name = x.name) (p : Program) :
    (p.image m).generated = p.generated.map (·.image m) := by
  rw [generated, generated, functions_image, globals_image, List.flatMap_map, List.map_flatMap]
  simp only [FunDecl.generated_image hname]

end Generated

/-- Programs that differ in annotations have the same peaks. -/
lemma Program.map_peak_congr {p q : Program} (h : p.bare = q.bare) :
    p.generated.map (·.peak 0) = q.generated.map (·.peak 0) := by
  have hpeak : ∀ r : Program, r.bare.generated.map (·.peak 0) = r.generated.map (·.peak 0) := by
    intro r
    rw [bare, generated_image fun _ => rfl, List.map_map]
    simp only [Function.comp_def, Expr.peak_image]
  rw [← hpeak p, h, hpeak q]

/-! ### Events -/

mutual

lemma Expr.uses_bare : (e : Expr) → (e.image .bare).uses = e.uses.map Ident.bare
  | .int _ | .bool _ | .name _ => rfl
  | .assign _ e => by
    rw [Expr.image, Expr.uses, Expr.uses, e.uses_bare, List.map_cons]
    rfl
  | .binary _ l r => by
    rw [Expr.image, Expr.uses, Expr.uses, l.uses_bare, r.uses_bare, List.map_append]
  | .call f args => by
    have hname : (LeafMap.bare.called f).name = f.name := rfl
    rw [Expr.image, Expr.uses, Expr.uses, Expr.usesAll_bareAll args, List.map_append, hname]
    split <;> rfl
termination_by structural e => e

lemma Expr.usesAll_bareAll : (es : List Expr) →
    Expr.usesAll (Expr.imageAll .bare es) = (Expr.usesAll es).map Ident.bare
  | [] => rfl
  | e :: rest => by
    rw [Expr.imageAll, Expr.usesAll, Expr.usesAll, e.uses_bare, Expr.usesAll_bareAll rest,
      List.map_append]
termination_by structural es => es

end

lemma map_bare_uses (xs : List Ident) :
    (xs.map Ident.bare).map .use = (xs.map .use).map Event.bare := by
  rw [List.map_map, List.map_map]
  rfl

lemma map_bare_scoped (es : List Event) :
    scopedEvents (es.map Event.bare) = (scopedEvents es).map Event.bare := by
  simp [scopedEvents, Event.bare]

lemma Expr.events_bare (e : Expr) : (e.image .bare).events = e.events.map Event.bare := by
  rw [events, uses_bare, map_bare_uses]
  rfl

lemma Expr.eventsOption_bare (e : Option Expr) :
    Expr.eventsOption (e.map (·.image .bare)) = (Expr.eventsOption e).map Event.bare := by
  cases e with
  | none => rfl
  | some e => exact e.events_bare

lemma Var.events_bare (v : Var) (kind : SymbolKind) :
    (v.image .bare).events kind = (v.events kind).map Event.bare := by
  rw [events, events, List.map_append, ← Expr.eventsOption_bare]
  rfl

lemma Param.eventsAll_bare (ps : List Param) :
    Param.eventsAll (ps.map (·.image .bare)) = (Param.eventsAll ps).map Event.bare := by
  induction ps with
  | nil => rfl
  | cons p rest ih =>
    rw [List.map_cons, eventsAll, eventsAll, ih, List.map_append, events, events, List.map_append,
      ← Expr.eventsOption_bare]
    rfl

mutual

/-- The same events, without annotations. -/
lemma Stmt.events_bare : (s : Stmt) → (s.image .bare).events = s.events.map Event.bare
  | .expr e => e.events_bare
  | .decl d => d.events_bare .localVar
  | .ret value => Expr.eventsOption_bare value
  | .cond b => b.events_bare
  | .whileLoop c body => by
    rw [Stmt.image, Stmt.events, Stmt.events, Stmt.eventsAll_bare body, c.events_bare,
      ← List.map_append, map_bare_scoped]
  | .forLoop start c step body => by
    rw [Stmt.image, Stmt.events, Stmt.events, Stmt.eventsAll_bare body, c.events_bare,
      Decl.eventsOption_bare start, Expr.eventsOption_bare step, map_bare_scoped,
      ← List.map_append, ← List.map_append, ← List.map_append, map_bare_scoped]
termination_by structural s => s

lemma Stmt.eventsAll_bare : (ss : List Stmt) →
    Stmt.eventsAll (Stmt.imageAll .bare ss) = (Stmt.eventsAll ss).map Event.bare
  | [] => rfl
  | s :: rest => by
    rw [Stmt.imageAll, Stmt.eventsAll, Stmt.eventsAll, s.events_bare, Stmt.eventsAll_bare rest,
      List.map_append]
termination_by structural ss => ss

lemma Branch.events_bare : (b : Branch) → (b.image .bare).events = b.events.map Event.bare
  | ⟨c, body, tail⟩ => by
    rw [Branch.image, Branch.events, Branch.events, Stmt.eventsAll_bare body, c.events_bare,
      tail.events_bare, ← List.map_append, map_bare_scoped, ← List.map_append]
termination_by structural b => b

lemma Tail.events_bare : (t : Tail) → (t.image .bare).events = t.events.map Event.bare
  | .done => rfl
  | .elseIf next => next.events_bare
  | .otherwise body => by
    rw [Tail.image, Tail.events, Tail.events, Stmt.eventsAll_bare body, map_bare_scoped]
termination_by structural t => t

lemma Decl.events_bare : (d : Decl) → (kind : SymbolKind) →
    (d.image .bare).events kind = (d.events kind).map Event.bare
  | .globalVar v, kind | .localVar v, kind => v.events_bare kind
  | .function f, _ => f.events_bare
termination_by structural d => d

lemma Decl.eventsOption_bare : (d : Option Decl) →
    Decl.eventsOption (Decl.imageOption .bare d) = (Decl.eventsOption d).map Event.bare
  | none => rfl
  | some d => d.events_bare .localVar
termination_by structural d => d

lemma FunDecl.events_bare : (f : FunDecl) → (f.image .bare).events = f.events.map Event.bare
  | ⟨name, params, returns, body, _, _⟩ => by
    rw [FunDecl.image, FunDecl.events, FunDecl.events, Param.eventsAll_bare,
      Stmt.eventsAll_bare body, ← List.map_append, map_bare_scoped, List.map_cons, List.map_append,
      List.map_map]
    simp [Event.bare, Function.comp_def, Param.image, LeafMap.bare]
termination_by structural f => f

end

lemma FunDecl.inner_bare (f : FunDecl) : f.bare.inner = f.inner.map Event.bare := by
  obtain ⟨name, params, returns, body, _, _⟩ := f
  rw [bare, image, inner, inner, Param.eventsAll_bare, Stmt.eventsAll_bare, List.map_append]

/-- A function of a program is, up to annotations, one of any program with the same text. -/
lemma Program.exists_function {p q : Program} {f : FunDecl} (h : p.bare = q.bare)
    (hf : f ∈ p.functions) : ∃ g ∈ q.functions, g.bare = f.bare := by
  have hmem : f.bare ∈ q.functions.map FunDecl.bare := by
    have hfunctions : ∀ r : Program, r.bare.functions = r.functions.map FunDecl.bare :=
      Program.functions_image .bare
    rw [← hfunctions, ← h, hfunctions]
    exact List.mem_map_of_mem hf
  exact List.mem_map.mp hmem

end TreeCompiler

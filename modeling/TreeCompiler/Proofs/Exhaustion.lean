import TreeCompiler.Proofs.Annotations
import TreeCompiler.Proofs.Routine

/-!
When the registers run out.

If all names have their places, then generating code can go wrong in one way only: there is no free
register. Whether that happens is known from the peak of each expression. A statement begins and
ends with no register in use, so of a whole program the largest peak counts.
-/

namespace TreeCompiler

/-! ### Steps that end well or run out of registers -/

namespace Gen

variable {α β : Type} {x : Gen α} {f : α → Gen β} {g g' : GenState} {text : List Line}
  {P Q : Prop}

/-- The step stops for want of a register. -/
def Exhausts (x : Gen α) (g : GenState) : Prop :=
  ∃ code g', x g = ⟨code, g', .error (.error .outOfRegisters)⟩

/-- The step ends well if `P` holds, and runs out of registers if not. -/
structure Settles (x : Gen α) (g : GenState) (P : Prop) : Prop where
  ends : P → ∃ text g' a, x.Yields g text g' a
  exhausts : ¬P → x.Exhausts g

lemma Exhausts.bind (h : x.Exhausts g) : (x >>= f).Exhausts g := by
  obtain ⟨code, g', h⟩ := h
  exact ⟨code, g', bind_of_error h⟩

lemma Exhausts.after {a : α} (hx : x.Yields g text g' a) (hf : (f a).Exhausts g') :
    (x >>= f).Exhausts g := by
  obtain ⟨code, hx, -⟩ := hx
  obtain ⟨code', g'', hf⟩ := hf
  exact ⟨code ++ code', g'', by rw [bind_of_ok hx, hf]⟩

namespace Settles

lemma of_yields {a : α} (h : x.Yields g text g' a) : x.Settles g True where
  ends _ := ⟨text, g', a, h⟩
  exhausts hfalse := absurd trivial hfalse

lemma congr (h : x.Settles g P) (hPQ : P ↔ Q) : x.Settles g Q where
  ends hq := h.ends (hPQ.mpr hq)
  exhausts hq := h.exhausts fun hp => hq (hPQ.mp hp)

lemma bind (hx : x.Settles g P)
    (hf : ∀ {text g' a}, x.Yields g text g' a → (f a).Settles g' Q) :
    (x >>= f).Settles g (P ∧ Q) where
  ends h := by
    obtain ⟨t, g₁, a, hyx⟩ := hx.ends h.1
    obtain ⟨u, g₂, b, hyf⟩ := (hf hyx).ends h.2
    exact ⟨t ++ u, g₂, b, yields_bind.mpr ⟨t, g₁, a, u, hyx, hyf, rfl⟩⟩
  exhausts h := by
    by_cases hP : P
    · obtain ⟨t, g₁, a, hyx⟩ := hx.ends hP
      exact .after hyx ((hf hyx).exhausts fun hQ => h ⟨hP, hQ⟩)
    · exact (hx.exhausts hP).bind

/-- A step that ends well, and what follows it. -/
lemma after {a : α} (hx : x.Yields g text g' a) (hf : (f a).Settles g' Q) :
    (x >>= f).Settles g Q where
  ends h := by
    obtain ⟨u, g₂, b, hyf⟩ := hf.ends h
    exact ⟨text ++ u, g₂, b, yields_bind.mpr ⟨text, g', a, u, hx, hyf, rfl⟩⟩
  exhausts h := .after hx (hf.exhausts h)

/-- A step, and what ends well behind it. -/
lemma before (hx : x.Settles g P)
    (hf : ∀ {text g' a}, x.Yields g text g' a → ∃ u g₁ b, (f a).Yields g' u g₁ b) :
    (x >>= f).Settles g P where
  ends h := by
    obtain ⟨t, g₁, a, hyx⟩ := hx.ends h
    obtain ⟨u, g₂, b, hyf⟩ := hf hyx
    exact ⟨t ++ u, g₂, b, yields_bind.mpr ⟨t, g₁, a, u, hyx, hyf, rfl⟩⟩
  exhausts h := (hx.exhausts h).bind

end Settles

end Gen

namespace Bank

variable {b : Bank}

lemma count_lt_of_next? {r : Scratch} (h : b.next? = some r) : b.count < 7 := by
  refine Nat.lt_of_le_of_ne b.count_le fun hfull => ?_
  rw [next?_eq_none_iff.mpr hfull] at h
  exact nomatch h

lemma exists_alloc? (h : b.count < 7) : ∃ r, b.alloc? = some (r, b.claim r) := by
  cases hnext : b.next? with
  | none => exact absurd (next?_eq_none_iff.mp hnext) (Nat.ne_of_lt h)
  | some r => exact ⟨r, alloc?_eq_some_iff.mpr ⟨hnext, rfl⟩⟩

lemma alloc?_eq_none (h : ¬ b.count < 7) : b.alloc? = none := by
  have hfull : b.count = 7 := Nat.le_antisymm b.count_le (Nat.not_lt.mp h)
  rw [alloc?, ← next?, next?_eq_none_iff.mpr hfull]
  rfl

end Bank

namespace Gen

variable {α : Type} {g : GenState}

/-- A register is taken if one is free, and the rest ends well. -/
lemma settles_alloc_bind {f : Scratch → Gen α}
    (hf : ∀ r g, ∃ text g' a, (f r).Yields g text g' a) :
    (alloc >>= f).Settles g (g.bank.count < 7) where
  ends h := by
    obtain ⟨r, halloc⟩ := Bank.exists_alloc? h
    obtain ⟨text, g', a, hy⟩ := hf r { g with bank := g.bank.claim r }
    exact ⟨text, g', a, yields_alloc_bind.mpr ⟨r, _, halloc, hy⟩⟩
  exhausts h := by
    have hstop : alloc g = ⟨[], g, .error (.error .outOfRegisters)⟩ := by
      simp [alloc, Bank.alloc?_eq_none h]
    exact Exhausts.bind ⟨_, _, hstop⟩

/-- A register is taken if one is free, and gets its value. -/
lemma settles_alloc_instr (i : Scratch → Instr) :
    (do let r ← alloc; instr (i r); return r).Settles g (g.bank.count < 7) := by
  refine settles_alloc_bind fun r g => ?_
  have hpure : (pure r : Gen Scratch).Yields g [] g r := yields_pure.mpr ⟨rfl, rfl, rfl⟩
  exact ⟨[.instr (i r)], g, r, yields_instr_bind.mpr ⟨[], hpure, rfl⟩⟩

lemma yields_save : save.Yields g (g.bank.live.map fun r => .instr (.push (.scratch r)))
    { g with bank := saved g.bank g.bank.live, depth := g.depth + g.bank.live.length }
    g.bank.live := by
  rw [save, yields_liveRegisters_bind, yields_bind]
  exact ⟨_, _, (), [], yields_saveAll.mpr ⟨rfl, rfl⟩, yields_pure.mpr ⟨rfl, rfl, rfl⟩, by simp⟩

/-- A call needs what its arguments need of the whole bank, and a register for its result. -/
lemma settles_callWith {pending : ℕ} {args : Gen Unit} {routine : String} {P : Prop}
    (hargs : ∀ g, g.bank.count = 0 → args.Settles g P)
    (hclear : ∀ {g text g' u}, g.bank.count = 0 → args.Yields g text g' u → g'.bank.count = 0) :
    (callWith pending args routine).Settles g (P ∧ g.bank.count < 7) := by
  refine .after yields_save ?_
  refine .after (yields_pad.mpr ⟨rfl, rfl, rfl⟩) ?_
  refine (hargs _ (count_saved_live _)).bind fun {_ g₁ _} hy => ?_
  have hrestored : (restored g₁.bank g.bank.live).count = g.bank.count :=
    Bank.count_congr (isLive_restored_live (hclear (count_saved_live _) hy))
  refine .after (a := ()) (yields_instr.mpr ⟨rfl, rfl⟩) ?_
  refine .after (a := ()) (yields_dropWords.mpr ⟨rfl, rfl⟩) ?_
  refine .after (a := ()) (yields_restore.mpr ⟨rfl, rfl⟩) ?_
  rw [← hrestored]
  exact settles_alloc_instr _

end Gen

/-! ### Expressions -/

variable {arena : Arena}

mutual

/-- Every variable in the expression has a place. -/
def Expr.Placed (arena : Arena) : Expr → Prop
  | .int _ => True
  | .bool _ => True
  | .name x => ∃ o, x.place? arena = some o
  | .assign x e => (∃ o, x.place? arena = some o) ∧ e.Placed arena
  | .binary _ l r => l.Placed arena ∧ r.Placed arena
  | .call _ args => Expr.PlacedAll arena args
termination_by structural e => e

def Expr.PlacedAll (arena : Arena) : List Expr → Prop
  | [] => True
  | e :: rest => e.Placed arena ∧ Expr.PlacedAll arena rest
termination_by structural es => es

end

/-- Combining two values always ends well. -/
lemma Gen.yields_combine {g g₁ g₂ : GenState} {l r : Scratch} {p p' : ℕ} (op : BinOp)
    (hl : Takes g g₁ l p) (hr : Takes g₁ g₂ r p') :
    ∃ text g' q, (combine op l r).Yields g₂ text g' q := by
  cases op with
  | arith op => exact ⟨_, _, _, yields_arith.mpr ⟨rfl, rfl, rfl⟩⟩
  | compare rel =>
    have hcount : ((g₂.bank.free r).free l).count < 7 := by
      have hback := (hl.combine hr).free.count
      simp only at hback
      rw [hback]
      exact Bank.count_lt_of_next? hl.first
    obtain ⟨q, halloc⟩ := Bank.exists_alloc? hcount
    exact ⟨_, _, q, yields_compare.mpr ⟨_, halloc, rfl, rfl⟩⟩

mutual

/-- **When an expression has code**: its peak fits the bank, and if not, then its code ends where
there is no free register. -/
theorem Expr.settles : (e : Expr) → e.Placed arena → ∀ g : GenState,
    (e.lower arena).Settles g (e.peak g.bank.count ≤ 7)
  | .int _, _, _ | .bool true, _, _ | .bool false, _, _ => Gen.settles_alloc_instr _
  | .name x, ⟨o, ho⟩, g =>
    .after (Ident.yields_operand.mpr ⟨rfl, rfl, ho⟩) (Gen.settles_alloc_instr _)
  | .assign x e, ⟨⟨o, ho⟩, he⟩, g => by
    refine (e.settles he g).before fun {_ g₁ r} _ => ⟨[.instr (.store o r)], g₁, r, ?_⟩
    have hstore : (x.store arena r).Yields g₁ [.instr (.store o r)] g₁ () :=
      Ident.yields_store.mpr ⟨o, ho, rfl, rfl⟩
    exact Gen.yields_bind.mpr ⟨_, g₁, (), [], hstore, Gen.yields_pure.mpr ⟨rfl, rfl, rfl⟩, rfl⟩
  | .binary op left right, ⟨hleft, hright⟩, g => by
    refine ((left.settles hleft g).bind (Q := right.peak (g.bank.count + 1) ≤ 7)
      fun {_ g₁ l} hl => ?_).congr Nat.max_le.symm
    have htaken := left.takes hl
    have hsettles := right.settles hright g₁
    rw [htaken.count] at hsettles
    exact hsettles.before fun hr => Gen.yields_combine op htaken (right.takes hr)
  | .call f args, hargs, g => by
    rw [Expr.lower_call]
    have hpass : (∀ g : GenState, g.bank.count = 0 →
        (f.pass arena args).Settles g (Expr.peakArgs args ≤ 7)) ∧
        ∀ {g g' : GenState} {text : List Line} {u : Unit}, g.bank.count = 0 →
          (f.pass arena args).Yields g text g' u → g'.bank.count = 0 := by
      refine Ident.pass_cases (P := fun pass _ =>
        (∀ g : GenState, g.bank.count = 0 → pass.Settles g (Expr.peakArgs args ≤ 7)) ∧
        ∀ {g g' : GenState} {text : List Line} {u : Unit}, g.bank.count = 0 →
          pass.Yields g text g' u → g'.bank.count = 0) f ?_ ?_
      · exact ⟨Expr.settles_printed args hargs,
          fun hclear hy => (Expr.givesBack_printed args hclear hy).count.trans hclear⟩
      · exact ⟨Expr.settles_args args hargs,
          fun hclear hy => (Expr.givesBack_args args hclear hy).count.trans hclear⟩
    refine (Gen.settles_callWith hpass.1 hpass.2).congr ?_
    rw [Expr.peak, Nat.max_le, and_comm]
    rfl
termination_by structural e => e

theorem Expr.settles_args : (es : List Expr) → Expr.PlacedAll arena es → ∀ g : GenState,
    g.bank.count = 0 → (Expr.lowerArgs arena es).Settles g (Expr.peakArgs es ≤ 7)
  | [], _, _, _ =>
    (Gen.Settles.of_yields (Gen.yields_pure.mpr ⟨rfl, rfl, rfl⟩)).congr (by simp [Expr.peakArgs])
  | e :: rest, ⟨he, hrest⟩, g, hclear => by
    refine ((Expr.settles_args rest hrest g hclear).bind (Q := e.peak 0 ≤ 7)
      fun {_ g₁ _} hy => ?_).congr (by rw [Expr.peakArgs, Nat.max_le, and_comm])
    have hsettles := e.settles he g₁
    rw [(Expr.givesBack_args rest hclear hy).count, hclear] at hsettles
    refine hsettles.before fun _ => ?_
    exact ⟨_, _, (), Gen.yields_push_bind.mpr ⟨_, Gen.yields_free.mpr ⟨rfl, rfl⟩, rfl⟩⟩
termination_by structural es => es

theorem Expr.settles_printed : (es : List Expr) → Expr.PlacedAll arena es → ∀ g : GenState,
    g.bank.count = 0 → (Expr.lowerPrinted arena es).Settles g (Expr.peakArgs es ≤ 7)
  | [], _, _, _ =>
    (Gen.Settles.of_yields (Gen.yields_pure.mpr ⟨rfl, rfl, rfl⟩)).congr (by simp [Expr.peakArgs])
  | e :: rest, ⟨he, hrest⟩, g, hclear => by
    have hsettles := e.settles he g
    rw [hclear] at hsettles
    refine (hsettles.bind (Q := Expr.peakArgs rest ≤ 7) fun {_ g₁ r} hy => ?_).congr
      (by rw [Expr.peakArgs, Nat.max_le])
    have hback := (e.takes hy).free
    have hprinted := Expr.settles_printed rest hrest _ (hback.count.trans hclear)
    refine .after (a := ()) (Gen.yields_instr.mpr ⟨rfl, rfl⟩) ?_
    exact .after (a := ()) (Gen.yields_free.mpr ⟨rfl, rfl⟩) hprinted
termination_by structural es => es

end

/-! ### Statements -/

lemma Expr.peakArgs_append (es es' : List Expr) :
    Expr.peakArgs (es ++ es') = max (Expr.peakArgs es) (Expr.peakArgs es') := by
  induction es with
  | nil => simp [Expr.peakArgs]
  | cons e es ih => rw [List.cons_append, Expr.peakArgs, Expr.peakArgs, ih, Nat.max_assoc]

/-- Begun with no register in use, the step needs `n` of them at once, and leaves none in use. -/
structure Gen.Needs {α : Type} (x : Gen α) (n : ℕ) : Prop where
  settles : ∀ {g : GenState}, g.bank.count = 0 → x.Settles g (n ≤ 7)
  clear : ∀ {g g' : GenState} {text : List Line} {a : α}, g.bank.count = 0 →
    x.Yields g text g' a → g'.bank.count = 0
  highWater : ∀ {g g' : GenState} {text : List Line} {a : α}, g.bank.count = 0 →
    x.Yields g text g' a → g'.bank.highWater = max g.bank.highWater n

namespace Gen.Needs

variable {α β : Type} {x : Gen α} {f : α → Gen β} {m n : ℕ}

lemma bind (hx : x.Needs m) (hf : ∀ a, (f a).Needs n) : (x >>= f).Needs (max m n) where
  settles hg := ((hx.settles hg).bind fun hy => (hf _).settles (hx.clear hg hy)).congr
    Nat.max_le.symm
  clear hg hy := by
    obtain ⟨_, _, a, _, hyx, hyf, rfl⟩ := yields_bind.mp hy
    exact (hf a).clear (hx.clear hg hyx) hyf
  highWater hg hy := by
    obtain ⟨_, _, a, _, hyx, hyf, rfl⟩ := yields_bind.mp hy
    rw [(hf a).highWater (hx.clear hg hyx) hyf, hx.highWater hg hyx, Nat.max_assoc]

/-- A step that has nothing to do with registers. -/
lemma none (h : ∀ g, ∃ code g' a, x g = ⟨code, g', .ok a⟩ ∧ g'.bank = g.bank) : x.Needs 0 where
  settles {g} _ := by
    obtain ⟨code, g', a, hx, -⟩ := h g
    exact (Settles.of_yields (yields_of_eq hx)).congr (by simp)
  clear {g g' text b} hg hy := by
    obtain ⟨code, g', a, hx, hbank⟩ := h g
    obtain ⟨-, rfl, -⟩ := (yields_iff hx).mp hy
    rw [hbank, hg]
  highWater {g g' text b} _ hy := by
    obtain ⟨code, g', a, hx, hbank⟩ := h g
    obtain ⟨-, rfl, -⟩ := (yields_iff hx).mp hy
    rw [hbank, Nat.max_zero]

lemma after (hx : x.Needs 0) (hf : ∀ a, (f a).Needs n) : (x >>= f).Needs n :=
  Nat.zero_max n ▸ hx.bind hf

lemma before (hx : x.Needs n) (hf : ∀ a, (f a).Needs 0) : (x >>= f).Needs n :=
  Nat.max_zero n ▸ hx.bind hf

end Gen.Needs

namespace Gen

lemma needs_pure {α : Type} (a : α) : (pure a : Gen α).Needs 0 := .none fun _ => ⟨_, _, _, rfl, rfl⟩

lemma needs_emit (l : Line) : (emit l).Needs 0 := .none fun _ => ⟨_, _, _, rfl, rfl⟩

lemma needs_instr (i : Instr) : (instr i).Needs 0 := needs_emit _

lemma needs_emitAll (ls : List Line) : (emitAll ls).Needs 0 := by
  induction ls with
  | nil => exact needs_pure ()
  | cons l rest ih => exact (needs_emit l).after fun _ => ih

lemma needs_freshLabel : freshLabel.Needs 0 := .none fun _ => ⟨_, _, _, rfl, rfl⟩

lemma needs_setDepth (n : ℕ) : (setDepth n).Needs 0 := .none fun _ => ⟨_, _, _, rfl, rfl⟩

end Gen

/-- An expression whose value is given up in the end. -/
lemma Expr.needs {e : Expr} {f : Scratch → Gen Unit} (he : e.Placed arena)
    (hf : ∀ r g, ∃ text, (f r).Yields g text { g with bank := g.bank.free r } ()) :
    (e.lower arena >>= f).Needs (Expr.peakArgs [e]) := by
  have hpeak : Expr.peakArgs [e] = e.peak 0 := Nat.max_zero _
  -- the register of the value is the only one that is still in use behind the expression
  have hback : ∀ {g g' : GenState} {text : List Line} {u : Unit}, g.bank.count = 0 →
      (e.lower arena >>= f).Yields g text g' u → GivesBack g g' (Expr.peakArgs [e]) 0 := by
    intro g g' text u hg hy
    obtain ⟨_, g₁, r, _, hye, hyf, rfl⟩ := Gen.yields_bind.mp hy
    obtain ⟨_, code, hfree, -⟩ := hf r g₁
    obtain ⟨-, rfl, -⟩ := (Gen.yields_iff hfree).mp hyf
    have htaken := (e.takes hye).free
    rwa [hg, ← hpeak] at htaken
  refine ⟨fun {g} hg => ?_, fun hg hy => (hback hg hy).count.trans hg,
    fun hg hy => (hback hg hy).highWater⟩
  have hsettles := e.settles he g
  rw [hg, ← hpeak] at hsettles
  exact hsettles.before fun _ => by
    obtain ⟨text, hy⟩ := hf _ _
    exact ⟨text, _, (), hy⟩

/-- The variables of expressions and the variables that get initial values have places. -/
structure Placed (arena : Arena) (es : List Expr) (vs : List Var) : Prop where
  exprs : ∀ e ∈ es, e.Placed arena
  vars : ∀ v ∈ vs, ∃ o, v.name.place? arena = some o

lemma Placed.mono {es es' : List Expr} {vs vs' : List Var} (h : Placed arena es vs)
    (hes : ∀ e ∈ es', e ∈ es) (hvs : ∀ v ∈ vs', v ∈ vs) : Placed arena es' vs' where
  exprs e he := h.exprs e (hes e he)
  vars v hv := h.vars v (hvs v hv)

lemma Expr.needs_dropped {e : Expr} (he : e.Placed arena) :
    (e.lowerDropped arena).Needs (Expr.peakArgs [e]) := by
  refine Expr.needs he fun r g => ?_
  exact ⟨[], Gen.yields_free.mpr ⟨rfl, rfl⟩⟩

lemma Expr.needs_step (step : Option Expr) (hplaced : ∀ e ∈ step.toList, e.Placed arena) :
    (Expr.lowerStep arena step).Needs (Expr.peakArgs step.toList) := by
  cases step with
  | none => exact Gen.needs_pure ()
  | some e => exact Expr.needs_dropped (hplaced e (List.mem_singleton.mpr rfl))

lemma Expr.needs_test {c : Expr} (hc : c.Placed arena) (l : Label) :
    (c.lowerTest arena l).Needs (Expr.peakArgs [c]) := by
  refine Expr.needs hc fun r g => ?_
  have hfree : (Gen.free r).Yields g [] { g with bank := g.bank.free r } () :=
    Gen.yields_free.mpr ⟨rfl, rfl⟩
  refine ⟨_, Gen.yields_instr_bind.mpr ⟨[.instr (.jumpIf .ne l)], ?_, rfl⟩⟩
  exact Gen.yields_instr_bind.mpr ⟨[], hfree, rfl⟩

lemma Expr.needs_returned (value : Option Expr) (hplaced : ∀ e ∈ value.toList, e.Placed arena) :
    (Expr.lowerReturned arena value).Needs (Expr.peakArgs value.toList) := by
  cases value with
  | none => exact Gen.needs_instr _
  | some e =>
    have he : e.Placed arena := hplaced e (List.mem_singleton.mpr rfl)
    refine Expr.needs he fun r g => ?_
    have hfree : (Gen.free r).Yields g [] { g with bank := g.bank.free r } () :=
      Gen.yields_free.mpr ⟨rfl, rfl⟩
    exact ⟨_, Gen.yields_instr_bind.mpr ⟨[], hfree, rfl⟩⟩

lemma Var.needs {v : Var} (h : Placed arena v.exprs [v]) :
    (v.lower arena).Needs (Expr.peakArgs v.exprs) := by
  have hexprs := h.exprs
  rw [Var.exprs] at hexprs ⊢
  rw [Var.lower]
  cases hv : v.value with
  | none => exact Gen.needs_pure ()
  | some e =>
    rw [hv] at hexprs
    obtain ⟨o, ho⟩ := h.vars v (List.mem_singleton.mpr rfl)
    refine Expr.needs (hexprs e (List.mem_singleton.mpr rfl)) fun r g => ⟨[.instr (.store o r)], ?_⟩
    have hstore : (v.name.store arena r).Yields g [.instr (.store o r)] g () :=
      Ident.yields_store.mpr ⟨o, ho, rfl, rfl⟩
    exact Gen.yields_bind.mpr ⟨_, g, (), [], hstore, Gen.yields_free.mpr ⟨rfl, rfl⟩, rfl⟩

lemma Var.needs_all : (vs : List Var) → Placed arena (vs.flatMap Var.exprs) vs →
    (Var.lowerAll arena vs).Needs (Expr.peakArgs (vs.flatMap Var.exprs))
  | [], _ => Gen.needs_pure ()
  | v :: rest, h => by
    rw [List.flatMap_cons] at h ⊢
    rw [Expr.peakArgs_append]
    have hfirst : Placed arena v.exprs [v] := h.mono (by simp +contextual) (by simp)
    have hrest : Placed arena (rest.flatMap Var.exprs) rest :=
      h.mono (by simp +contextual) (by simp +contextual)
    exact (Var.needs hfirst).bind fun _ => Var.needs_all rest hrest

lemma Decl.needs {d : Decl} (h : Placed arena d.exprs d.vars) :
    (d.lower arena).Needs (Expr.peakArgs d.exprs) := by
  cases d with
  | globalVar v | localVar v =>
    have hexprs : v.exprs = [v].flatMap Var.exprs := by simp
    rw [Decl.exprs, Decl.vars, ← hexprs] at h ⊢
    exact Var.needs h
  | function f => exact Gen.needs_pure ()

lemma Decl.needs_option (d : Option Decl)
    (h : Placed arena (Decl.exprsOption d) (Decl.varsOption d)) :
    (Decl.lowerOption arena d).Needs (Expr.peakArgs (Decl.exprsOption d)) := by
  cases d with
  | none => exact Gen.needs_pure ()
  | some d => exact Decl.needs h

/-- A loop, from what its body needs. -/
lemma needs_labelled {c : Expr} {body : List Stmt} {n : ℕ} (exit : Label) (step : Option Expr)
    (hc : c.Placed arena) (hstep : ∀ e ∈ step.toList, e.Placed arena)
    (hbody : (Stmt.lowerAll arena exit body).Needs n) :
    (lowerLabelled arena exit c step body).Needs
      (max (Expr.peakArgs [c]) (max n (Expr.peakArgs step.toList))) := by
  refine Gen.needs_freshLabel.after fun top => ?_
  refine Gen.needs_freshLabel.after fun bottom => ?_
  refine (Gen.needs_emit _).after fun _ => ?_
  refine (Expr.needs_test hc bottom).bind fun _ => ?_
  refine hbody.bind fun _ => ?_
  refine (Expr.needs_step step hstep).before fun _ => ?_
  exact (Gen.needs_instr _).after fun _ => Gen.needs_emit _

lemma Branch.lower_next {exit stop : Label} {c : Expr} {body : List Stmt} {tail : Tail}
    (htail : tail ≠ .done) : Branch.lower arena exit stop ⟨c, body, tail⟩ = (do
      let skip ← Gen.freshLabel
      c.lowerTest arena skip
      Stmt.lowerAll arena exit body
      Gen.instr (.jump stop)
      Gen.emit (.label skip)
      tail.lower arena exit stop) := by
  cases tail with
  | done => exact absurd rfl htail
  | elseIf next | otherwise last => rfl

mutual

/-- What a statement needs is the largest peak of its expressions. -/
lemma Stmt.needs (exit : Label) : (s : Stmt) → Placed arena s.exprs s.vars →
    (s.lower arena exit).Needs (Expr.peakArgs s.exprs)
  | .expr e, h => Expr.needs_dropped (h.exprs e (List.mem_singleton.mpr rfl))
  | .decl d, h => Decl.needs h
  | .ret value, h => (Expr.needs_returned value h.exprs).before fun _ => Gen.needs_instr _
  | .cond b, h => by
    refine Gen.needs_freshLabel.after fun stop => ?_
    have hbranch := Branch.needs exit stop b h
    exact hbranch.before fun _ => Gen.needs_emit _
  | .whileLoop c body, h => by
    rw [Stmt.lower_while]
    have hbody : Placed arena (Stmt.exprsAll body) (Stmt.varsAll body) :=
      h.mono (by simp +contextual [Stmt.exprs]) (by simp +contextual [Stmt.vars])
    have hloop := needs_labelled exit none (h.exprs c (List.mem_cons_self ..)) (by simp)
      (Stmt.needs_all exit body hbody)
    simpa [Stmt.exprs, Expr.peakArgs] using hloop
  | .forLoop start c step body, h => by
    rw [Stmt.lower_for]
    have hstart : Placed arena (Decl.exprsOption start) (Decl.varsOption start) :=
      h.mono (by simp +contextual [Stmt.exprs]) (by simp +contextual [Stmt.vars])
    have hbody : Placed arena (Stmt.exprsAll body) (Stmt.varsAll body) :=
      h.mono (by simp +contextual [Stmt.exprs]) (by simp +contextual [Stmt.vars])
    have hstep : ∀ e ∈ step.toList, e.Placed arena :=
      fun e he => h.exprs e (by simp [Stmt.exprs, Option.mem_toList.mp he])
    have hloop := (Decl.needs_option start hstart).bind fun _ => needs_labelled exit step
      (h.exprs c (by simp [Stmt.exprs])) hstep (Stmt.needs_all exit body hbody)
    simpa [Stmt.exprs, Expr.peakArgs, Expr.peakArgs_append] using hloop
termination_by structural s => s

lemma Stmt.needs_all (exit : Label) : (ss : List Stmt) →
    Placed arena (Stmt.exprsAll ss) (Stmt.varsAll ss) →
    (Stmt.lowerAll arena exit ss).Needs (Expr.peakArgs (Stmt.exprsAll ss))
  | [], _ => Gen.needs_pure ()
  | s :: rest, h => by
    rw [Stmt.exprsAll, Expr.peakArgs_append]
    rw [Stmt.exprsAll, Stmt.varsAll] at h
    have hfirst : Placed arena s.exprs s.vars :=
      h.mono (by simp +contextual) (by simp +contextual)
    have hrest : Placed arena (Stmt.exprsAll rest) (Stmt.varsAll rest) :=
      h.mono (by simp +contextual) (by simp +contextual)
    exact (s.needs exit hfirst).bind fun _ => Stmt.needs_all exit rest hrest
termination_by structural ss => ss

lemma Branch.needs (exit stop : Label) : (b : Branch) → Placed arena b.exprs b.vars →
    (b.lower arena exit stop).Needs (Expr.peakArgs b.exprs)
  | ⟨c, body, tail⟩, h => by
    have hc : c.Placed arena := h.exprs c (List.mem_cons_self ..)
    have hbody := Stmt.needs_all exit body
      (h.mono (by simp +contextual [Branch.exprs]) (by simp +contextual [Branch.vars]))
    have htail := tail.needs exit stop
      (h.mono (by simp +contextual [Branch.exprs]) (by simp +contextual [Branch.vars]))
    by_cases hdone : tail = .done
    · subst hdone
      have hlast := (Expr.needs_test hc stop).bind fun _ => hbody.before fun _ =>
        Gen.needs_instr (.jump stop)
      rw [Branch.lower]
      simpa [Branch.exprs, Tail.exprs, Expr.peakArgs] using hlast
    · have hnext := Gen.needs_freshLabel.after fun skip => (Expr.needs_test hc skip).bind fun _ =>
        hbody.bind fun _ => (Gen.needs_instr (.jump stop)).after fun _ =>
          (Gen.needs_emit (.label skip)).after fun _ => htail
      rw [Branch.lower_next hdone]
      simpa [Branch.exprs, Expr.peakArgs, Expr.peakArgs_append] using hnext
termination_by structural b => b

lemma Tail.needs (exit stop : Label) : (t : Tail) → Placed arena t.exprs t.vars →
    (t.lower arena exit stop).Needs (Expr.peakArgs t.exprs)
  | .done, _ => Gen.needs_pure ()
  | .elseIf next, h => next.needs exit stop h
  | .otherwise last, h => by
    have hlast := Stmt.needs_all exit last h
    exact hlast.before fun _ => Gen.needs_instr _
termination_by structural t => t

end

/-! ### Programs -/

lemma FunDecl.needs {f : FunDecl} {globals : List Var}
    (h : Placed arena (f.generated globals) (f.initialized globals)) :
    (f.lower arena globals).Needs (Expr.peakArgs (f.generated globals)) := by
  have hpreset := Var.needs_all (f.preset globals) (h.mono
    (fun e he => List.mem_append_left _ he) fun v hv => List.mem_append_left _ hv)
  have hbody (exit : Label) := Stmt.needs_all exit f.body (h.mono
    (fun e he => List.mem_append_right _ he) fun v hv => List.mem_append_right _ hv)
  rw [FunDecl.lower_eq, FunDecl.generated, Expr.peakArgs_append]
  refine (Gen.needs_emitAll _).after fun _ => ?_
  refine Gen.needs_freshLabel.after fun exit => ?_
  refine (Gen.needs_setDepth 0).after fun _ => ?_
  refine hpreset.bind fun _ => ?_
  exact (hbody exit).before fun _ => Gen.needs_emitAll _

lemma FunDecl.needs_all {globals : List Var} : (fs : List FunDecl) →
    (∀ f ∈ fs, Placed arena (f.generated globals) (f.initialized globals)) →
    (FunDecl.lowerAll arena globals fs).Needs
      (Expr.peakArgs (fs.flatMap (·.generated globals)))
  | [], _ => Gen.needs_pure ()
  | f :: rest, h => by
    rw [List.flatMap_cons, Expr.peakArgs_append]
    obtain ⟨hfirst, hrest⟩ := List.forall_mem_cons.mp h
    exact (FunDecl.needs hfirst).bind fun _ => FunDecl.needs_all rest hrest

/-- What a program needs is the largest peak of the expressions in its code. -/
lemma Program.needs {p : Program} (h : ∀ f ∈ p.functions,
    Placed arena (f.generated p.globals) (f.initialized p.globals)) :
    (p.lower arena).Needs (Expr.peakArgs p.generated) := by
  have hfunctions := FunDecl.needs_all p.functions h
  refine (Gen.needs_emitAll _).after fun _ => ?_
  refine hfunctions.before fun _ => ?_
  exact (Gen.needs_emitAll _).after fun _ => Gen.needs_emitAll _

/-! ### Accepted programs -/

/-- A variable with its size has a place for each of its elements, and for its first byte. -/
lemma Symbol.exists_locate {symbol : Symbol} {k : ℕ} (hf : symbol.isFunction = false)
    (hsize : symbol.ty.size? = some symbol.size)
    (hk : k = 0 ∨ ∀ n, symbol.ty.elements? = some n → k < n) : ∃ o, symbol.locate k = .ok o := by
  obtain ⟨n, hn, hmul⟩ := Option.bind_eq_some_iff.mp hsize
  obtain ⟨hbytes, hmax⟩ := mulSize?_eq_some_iff.mp hmul
  have hle : k ≤ n := by
    rcases hk with rfl | hk
    · exact Nat.zero_le n
    · exact Nat.le_of_lt (hk n hn)
  have hbias : mulSize? k symbol.ty.elementSize = some (k * symbol.ty.elementSize) :=
    mulSize?_eq_some_iff.mpr ⟨rfl, Nat.le_trans (Nat.mul_le_mul_right _ hle) hmax⟩
  have hinside : ¬ (k * symbol.ty.elementSize ≠ 0 ∧ symbol.size ≤ k * symbol.ty.elementSize) := by
    rintro ⟨hne, hover⟩
    rcases hk with rfl | hk
    · exact hne (Nat.zero_mul _)
    · have hpos : 0 < symbol.ty.elementSize :=
        Nat.pos_of_ne_zero fun hzero => hne (by rw [hzero, Nat.mul_zero])
      exact Nat.not_lt.mpr hover (hbytes ▸ Nat.mul_lt_mul_of_pos_right (hk n hn) hpos)
  rw [locate, hbias]
  simp only [if_neg hinside]
  cases hkind : symbol.kind with
  | globalVar | localVar | param => exact ⟨_, rfl⟩
  | function => simp [isFunction, hkind] at hf

lemma Ident.Grounded.placed {x : Ident} {bytes : ℕ} {id : SymbolId} {symbol : Symbol}
    (h : x.Grounded arena bytes id symbol) (hx : x.IsVariable arena) :
    ∃ o, x.place? arena = some o := by
  have hf := hx id symbol h.symbol_eq h.at_id
  obtain ⟨o, ho⟩ := Symbol.exists_locate hf (h.sized hf) (.inr (h.inBounds hf))
  exact ⟨o, by rw [Ident.place?_eq h.symbol_eq h.at_id, ho]; rfl⟩

lemma Ident.Stored.placed {x : Ident} {bytes : ℕ} {ty : Ty} (h : x.Stored arena bytes ty)
    (hx : x.offset = 0) : ∃ o, x.place? arena = some o := by
  obtain ⟨kind, id, symbol, hkind, h⟩ := h
  have hf : symbol.isFunction = false := by simpa [Symbol.isFunction, h.kind_eq] using hkind
  obtain ⟨o, ho⟩ := Symbol.exists_locate hf (h.sized hf) (.inl hx)
  exact ⟨o, by rw [Ident.place?_eq h.symbol_eq h.at_id, ho]; rfl⟩

mutual

lemma Expr.Accepted.placed {bytes : ℕ} : (e : Expr) → e.Accepted arena bytes → e.Placed arena
  | .int _, _ | .bool _, _ => trivial
  | .name x, h => by
    obtain ⟨_, _, hx⟩ := h.grounded x (List.mem_singleton.mpr rfl)
    exact hx.placed h.checked
  | .assign x e, h => by
    obtain ⟨_, _, hx⟩ := h.grounded x (List.mem_cons_self ..)
    have hvalue : e.Accepted arena bytes :=
      ⟨fun y hy => h.grounded y (List.mem_cons_of_mem _ hy), h.checked.2⟩
    exact ⟨hx.placed h.checked.1, Expr.Accepted.placed e hvalue⟩
  | .binary _ l r, h => by
    have hleft : l.Accepted arena bytes :=
      ⟨fun y hy => h.grounded y (List.mem_append_left _ hy), h.checked.1⟩
    have hright : r.Accepted arena bytes :=
      ⟨fun y hy => h.grounded y (List.mem_append_right _ hy), h.checked.2⟩
    exact ⟨Expr.Accepted.placed l hleft, Expr.Accepted.placed r hright⟩
  | .call f args, h => by
    obtain ⟨-, hargs⟩ := h.checked
    exact Expr.placedAll_of_checked args
      (fun y hy => h.grounded y (List.mem_append_right _ hy)) hargs
termination_by structural e => e

lemma Expr.placedAll_of_checked {bytes : ℕ} : (es : List Expr) →
    (∀ x ∈ Expr.usesAll es, ∃ id symbol, x.Grounded arena bytes id symbol) →
    Expr.CheckedAll arena es → Expr.PlacedAll arena es
  | [], _, _ => trivial
  | e :: rest, hground, hchecked => by
    obtain ⟨hfirst, hrest⟩ := hchecked
    have haccepted : e.Accepted arena bytes :=
      ⟨fun y hy => hground y (List.mem_append_left _ hy), hfirst⟩
    have hplaced := Expr.placedAll_of_checked rest
      (fun y hy => hground y (List.mem_append_right _ hy)) hrest
    exact ⟨Expr.Accepted.placed e haccepted, hplaced⟩
termination_by structural es => es

end

/-- All names that a program declares are whole: they do not select an element. -/
def Program.DeclaresWhole (p : Program) : Prop :=
  ∀ x kind ty, .declare x kind ty ∈ p.events → x.offset = 0

lemma Program.mem_events {p : Program} {d : Decl} {e : Event} (hd : d ∈ p)
    (he : e ∈ d.events .globalVar) : e ∈ p.events := by
  obtain ⟨pre, post, hevents⟩ := Decl.mem_eventsAll hd
  rw [Program.events, hevents]
  simp [he]

/-- What gets an initial value in the code of a function is declared in the program. -/
lemma Program.exists_declare {p : Program} {f : FunDecl} {v : Var} (hf : f ∈ p.functions)
    (hv : v ∈ f.initialized p.globals) : ∃ kind, .declare v.name kind v.ty ∈ p.events := by
  rcases List.mem_append.mp hv with hv | hv
  · obtain ⟨d, hd, -, hevents⟩ := Program.mem_globals (FunDecl.mem_preset hv)
    refine ⟨.globalVar, Program.mem_events hd ?_⟩
    rw [hevents]
    exact List.mem_append_right _ (List.mem_singleton.mpr rfl)
  · have hinner : .declare v.name .localVar v.ty ∈ f.inner := f.covers.declares v hv
    refine ⟨.localVar, Program.mem_events (Program.mem_functions.mp hf) ?_⟩
    rw [Decl.events, FunDecl.events_eq]
    simp [scopedEvents, hinner]

/-- Annotations do not matter for what is declared. -/
lemma Program.DeclaresWhole.congr {p q : Program} (h : p.DeclaresWhole)
    (hbare : q.events.map Event.bare = p.events.map Event.bare) : q.DeclaresWhole := by
  intro x kind ty hx
  have hmem : Event.declare x.bare kind ty ∈ p.events.map Event.bare :=
    hbare ▸ List.mem_map_of_mem (f := Event.bare) hx
  obtain ⟨e, he, hdeclare⟩ := List.mem_map.mp hmem
  cases e with
  | declare y kind' ty' =>
    obtain ⟨hname, rfl, rfl⟩ := Event.declare.inj hdeclare
    have hoffset : y.bare.offset = x.bare.offset := congrArg Ident.offset hname
    exact hoffset.symm.trans (h y _ _ he)
  | enter | exit | use | finish => exact nomatch hdeclare

lemma Program.Accepted.placed {p : Program} (h : p.Accepted arena) (hwhole : p.DeclaresWhole) :
    ∀ f ∈ p.functions, Placed arena (f.generated p.globals) (f.initialized p.globals) := by
  refine fun f hf => ⟨fun e he => Expr.Accepted.placed e (h.exprs f hf e he), fun v hv => ?_⟩
  obtain ⟨kind, hdeclare⟩ := Program.exists_declare hf hv
  exact (h.vars f hf v hv).placed (hwhole v.name kind v.ty hdeclare)

lemma Expr.peakArgs_eq_foldr (es : List Expr) :
    Expr.peakArgs es = (es.map (·.peak 0)).foldr max 0 := by
  induction es with
  | nil => rfl
  | cons e es ih => rw [Expr.peakArgs, ih, List.map_cons, List.foldr_cons]

/-- The largest peak of the expressions in the code of a program, 0 if it has none. -/
def Program.peak (p : Program) : ℕ := (p.generated.map (·.peak 0)).foldr max 0

lemma Program.peak_le_iff {p : Program} {n : ℕ} : p.peak ≤ n ↔ ∀ e ∈ p.generated, e.peak 0 ≤ n := by
  rw [peak]
  induction p.generated with
  | nil => simp
  | cons e es ih => rw [List.map_cons, List.foldr_cons, Nat.max_le, ih, List.forall_mem_cons]

/-- Compiling a program that analysis accepts is emitting it. -/
lemma Session.compile_of_emit {s : Session} {p : Program} {a : Analysis} {room : Option ℕ}
    {out : Emission} (hanalyze : s.analyze p = .ok a) (herrors : a.errors = [])
    (hemit : a.session.emit room a.program = .ok out) :
    s.compile room p = .ok ⟨out.session, a.program, out.output, out.error.map .codegen⟩ := by
  refine bind_eq_ok.mpr ⟨a, hanalyze, ?_⟩
  rw [if_pos (List.isEmpty_iff.mpr herrors)]
  exact bind_eq_ok.mpr ⟨out, hemit, rfl⟩

/-- **Exhaustion**: take a program that analysis accepts, whose declared names are whole. To an
output without limit it is compiled if no expression in its code has a peak above 7, the number of
registers; then no register is in use in the end, and the most that were at once are its peak.
Otherwise the registers run out, and there is no other way in which it can fail. -/
theorem Session.compile_of_accepted {s : Session} {p : Program} {a : Analysis}
    (hwhole : p.DeclaresWhole) (hanalyze : s.analyze p = .ok a) (herrors : a.errors = []) :
    ∃ c, s.compile none p = .ok c ∧
      (c.error = none ↔ ∀ e ∈ p.generated, e.peak 0 ≤ 7) ∧
      (c.error ≠ none → c.error = some (.codegen (.lowering .outOfRegisters))) ∧
      (c.error = none → c.session.bank.isClear = true ∧ c.session.bank.highWater = p.peak) := by
  obtain ⟨t, hresolve, ht, hsession, -⟩ := Session.analyze_eq_ok hanalyze herrors
  obtain ⟨u, hwalk, -, -⟩ := Program.run_resolve hresolve ht
  have hneeds := Program.needs
    ((Session.accepted hanalyze herrors).placed (hwhole.congr hwalk.bare))
  have hpeak : Expr.peakArgs a.program.generated = p.peak := by
    rw [Expr.peakArgs_eq_foldr, Program.map_peak_congr (Program.bare_resolve hresolve),
      Program.peak]
  rw [hpeak] at hneeds
  have hbank : a.session.bank = {} := by rw [hsession]; rfl
  let g : GenState := { labels := a.session.labels, bank := a.session.bank }
  have hstart : g.bank.count = 0 := congrArg Bank.count hbank
  rw [← Program.peak_le_iff]
  by_cases hfits : p.peak ≤ 7
  · obtain ⟨text, g', _, hy⟩ := (hneeds.settles hstart).ends hfits
    have hclear := hneeds.clear hstart hy
    have hwater : g'.bank.highWater = p.peak := by
      rw [hneeds.highWater hstart hy, show g.bank.highWater = 0 from congrArg _ hbank, Nat.zero_max]
    refine ⟨_, Session.compile_of_emit hanalyze herrors (Session.emit_of_yields hy),
      iff_of_true rfl hfits, fun h => absurd rfl h, fun _ => ⟨?_, hwater⟩⟩
    exact List.isEmpty_iff_length_eq_zero.mpr hclear
  · obtain ⟨code, g', hstop⟩ := (hneeds.settles hstart).exhausts hfits
    exact ⟨_, Session.compile_of_emit hanalyze herrors (Session.emit_of_stop hstop),
      iff_of_false nofun hfits, fun _ => rfl, nofun⟩

/-- A sum that nests to the right `k` times. -/
def spine : ℕ → Expr
  | 0 => .name ⟨"n", 0, some 1⟩
  | k + 1 => .binary (.arith .add) (.int 1) (spine k)

/-- A function that returns it. -/
def spineFunction (k : ℕ) : FunDecl where
  name := ⟨"f", 0, some 0⟩
  params := [⟨⟨"n", 0, some 1⟩, .int, none⟩]
  returns := some .int
  body := [.ret (some (spine k))]
  parameterSize := 8

def spineSession : Session :=
  { arena := #[⟨"f", .function, .int, 0, 0, [1]⟩, ⟨"n", .param, .int, 8, 0, []⟩] }

theorem Session.compile_spine :
    (∃ c, ({} : Session).compile none [.function (spineFunction 6)] = .ok c ∧ c.error = none ∧
      c.session.bank.isClear = true ∧ c.session.bank.highWater = 7) ∧
    ∃ c, ({} : Session).compile none [.function (spineFunction 7)] = .ok c ∧
      c.error = some (.codegen (.lowering .outOfRegisters)) := by
  have hwhole : ∀ k, Program.DeclaresWhole [.function (spineFunction k)] := by
    intro k x kind ty hx
    simp [Program.events, Decl.eventsAll, Decl.events, spineFunction, FunDecl.events, scopedEvents,
      Param.eventsAll, Param.events, Stmt.eventsAll, Stmt.events, Expr.eventsOption] at hx
    rcases hx with ⟨rfl, -⟩ | ⟨rfl, -⟩ <;> rfl
  have hgenerated : ∀ k, Program.generated [.function (spineFunction k)] = [spine k] := fun _ => rfl
  have hsix : ({} : Session).analyze [.function (spineFunction 6)] =
    .ok ⟨spineSession, [.function (spineFunction 6)], []⟩ := rfl
  have hseven : ({} : Session).analyze [.function (spineFunction 7)] =
    .ok ⟨spineSession, [.function (spineFunction 7)], []⟩ := rfl
  obtain ⟨c, hc, hiff, -, hbank⟩ := Session.compile_of_accepted (hwhole 6) hsix rfl
  obtain ⟨c', hc', hiff', hfail, -⟩ := Session.compile_of_accepted (hwhole 7) hseven rfl
  have hnone : c.error = none := hiff.mpr (by rw [hgenerated]; decide)
  refine ⟨⟨c, hc, hnone, hbank hnone⟩, c', hc', hfail fun h => ?_⟩
  exact absurd (hiff'.mp h (spine 7) (by simp [hgenerated])) (by decide)

end TreeCompiler

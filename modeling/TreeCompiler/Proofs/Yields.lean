import TreeCompiler.Proofs.Evaluation

/-!
Generation steps that end well.

`Yields x g text g' a` says that the step `x`, begun in `g`, ends with the value `a` in `g'` and
has written `text`. Each small step has one equivalence, stated in front of the steps that
follow it; `simp` takes a sequence apart with them, and nobody has to open a step again.
-/

namespace TreeCompiler

/-- What is written, without the state at each line. -/
def lines (code : List Emitted) : List Line := code.map (·.line)

@[simp] lemma lines_nil : lines [] = [] := rfl

@[simp] lemma lines_append (a b : List Emitted) : lines (a ++ b) = lines a ++ lines b :=
  List.map_append

namespace Gen

variable {α β : Type} {g g' g₁ : GenState} {text : List Line}

/-- The step ends well, with this text, state and value. -/
def Yields (x : Gen α) (g : GenState) (text : List Line) (g' : GenState) (a : α) : Prop :=
  ∃ code, x g = ⟨code, g', .ok a⟩ ∧ lines code = text

lemma yields_of_eq {x : Gen α} {code : List Emitted} {a : α} (h : x g = ⟨code, g', .ok a⟩) :
    x.Yields g (lines code) g' a := ⟨code, h, rfl⟩

lemma yields_of_result {x : Gen α} {a : α} (h : (x g).result = .ok a) :
    x.Yields g (lines (x g).code) (x g).state a := ⟨_, by rw [← h], rfl⟩

lemma yields_bind {x : Gen α} {f : α → Gen β} {b : β} :
    (x >>= f).Yields g text g' b ↔
      ∃ t g₁ a u, x.Yields g t g₁ a ∧ (f a).Yields g₁ u g' b ∧ text = t ++ u := by
  constructor
  · rintro ⟨code, h, rfl⟩
    obtain ⟨c₁, g₁, a, c₂, hx, hf, rfl⟩ := bind_eq_ok_iff.mp h
    exact ⟨_, g₁, a, _, yields_of_eq hx, yields_of_eq hf, lines_append c₁ c₂⟩
  · rintro ⟨t, g₁, a, u, ⟨c₁, hx, rfl⟩, ⟨c₂, hf, rfl⟩, rfl⟩
    exact ⟨c₁ ++ c₂, bind_eq_ok_iff.mpr ⟨c₁, g₁, a, c₂, hx, hf, rfl⟩, lines_append c₁ c₂⟩

/-- A step whose outcome is known. -/
lemma yields_iff {x : Gen α} {code : List Emitted} {a b : α} (h : x g = ⟨code, g₁, .ok a⟩) :
    x.Yields g text g' b ↔ text = lines code ∧ g' = g₁ ∧ b = a := by
  constructor
  · rintro ⟨c, hc, rfl⟩
    rw [h, Outcome.mk.injEq] at hc
    obtain ⟨rfl, rfl, hc⟩ := hc
    exact ⟨rfl, rfl, (Except.ok.inj hc).symm⟩
  · rintro ⟨rfl, rfl, rfl⟩
    exact ⟨code, h, rfl⟩

/-- A step that stops yields nothing. -/
lemma not_yields {x : Gen α} {code : List Emitted} {e : Stop} {a : α}
    (h : x g = ⟨code, g₁, .error e⟩) : ¬ x.Yields g text g' a := by
  rintro ⟨c, hc, -⟩
  rw [h, Outcome.mk.injEq] at hc
  exact nomatch hc.2.2

/-- A known step and what follows it. -/
lemma yields_bind_of {x : Gen α} {f : α → Gen β} {code : List Emitted} {a : α} {b : β}
    (h : x g = ⟨code, g₁, .ok a⟩) :
    (x >>= f).Yields g text g' b ↔ ∃ u, (f a).Yields g₁ u g' b ∧ text = lines code ++ u := by
  rw [yields_bind]
  constructor
  · rintro ⟨t, g₂, a', u, hx, hf, rfl⟩
    obtain ⟨rfl, rfl, rfl⟩ := (yields_iff h).mp hx
    exact ⟨u, hf, rfl⟩
  · rintro ⟨u, hf, rfl⟩
    exact ⟨_, g₁, a, u, yields_of_eq h, hf, rfl⟩

lemma not_yields_bind {x : Gen α} {f : α → Gen β} {code : List Emitted} {e : Stop} {b : β}
    (h : x g = ⟨code, g₁, .error e⟩) : ¬ (x >>= f).Yields g text g' b :=
  not_yields (bind_of_error h)

/-- A known step that writes nothing. -/
lemma yields_bind_silent {x : Gen α} {f : α → Gen β} {a : α} {b : β} (h : x g = ⟨[], g₁, .ok a⟩) :
    (x >>= f).Yields g text g' b ↔ (f a).Yields g₁ text g' b := by
  rw [yields_bind_of h]
  simp

@[simp] lemma yields_pure {a b : α} :
    (pure a : Gen α).Yields g text g' b ↔ text = [] ∧ g' = g ∧ b = a :=
  yields_iff (pure_apply a g)

@[simp] lemma yields_emit {l : Line} {u : Unit} :
    (emit l).Yields g text g' u ↔ text = [l] ∧ g' = g := by
  rw [yields_iff rfl]; simp [lines]

@[simp] lemma yields_emit_bind {l : Line} {f : Unit → Gen β} {b : β} :
    (emit l >>= f).Yields g text g' b ↔ ∃ u, (f ()).Yields g u g' b ∧ text = l :: u :=
  yields_bind_of (rfl : emit l g = ⟨[⟨l, g.labels, g.bank⟩], g, .ok ()⟩)

@[simp] lemma yields_instr {i : Instr} {u : Unit} :
    (instr i).Yields g text g' u ↔ text = [.instr i] ∧ g' = g := yields_emit

@[simp] lemma yields_instr_bind {i : Instr} {f : Unit → Gen β} {b : β} :
    (instr i >>= f).Yields g text g' b ↔ ∃ u, (f ()).Yields g u g' b ∧ text = .instr i :: u :=
  yields_emit_bind

@[simp] lemma yields_freshLabel_bind {f : Label → Gen β} {b : β} :
    (freshLabel >>= f).Yields g text g' b ↔
      (f ⟨g.labels⟩).Yields { g with labels := g.labels + 1 } text g' b := yields_bind_silent rfl

@[simp] lemma yields_free {r : Scratch} {u : Unit} :
    (free r).Yields g text g' u ↔ text = [] ∧ g' = { g with bank := g.bank.free r } := by
  rw [yields_iff rfl]; simp

@[simp] lemma yields_free_bind {r : Scratch} {f : Unit → Gen β} {b : β} :
    (free r >>= f).Yields g text g' b ↔
      (f ()).Yields { g with bank := g.bank.free r } text g' b := yields_bind_silent rfl

@[simp] lemma yields_claim {r : Scratch} {u : Unit} :
    (claim r).Yields g text g' u ↔ text = [] ∧ g' = { g with bank := g.bank.claim r } := by
  rw [yields_iff rfl]; simp

@[simp] lemma yields_alloc_bind {f : Scratch → Gen β} {b : β} :
    (alloc >>= f).Yields g text g' b ↔
      ∃ r bank, g.bank.alloc? = some (r, bank) ∧ (f r).Yields { g with bank } text g' b := by
  cases h : g.bank.alloc? with
  | none =>
    have hstop : alloc g = ⟨[], g, .error (.error .outOfRegisters)⟩ := by simp [alloc, h]
    simp [not_yields_bind hstop]
  | some p =>
    obtain ⟨r, bank⟩ := p
    have hok : alloc g = ⟨[], { g with bank }, .ok r⟩ := by simp [alloc, h]
    rw [yields_bind_silent hok]
    constructor
    · exact fun hf => ⟨r, bank, rfl, hf⟩
    · rintro ⟨_, _, e, hf⟩
      obtain ⟨rfl, rfl⟩ := Prod.mk.inj (Option.some.inj e)
      exact hf

@[simp] lemma yields_liveRegisters_bind {f : List Scratch → Gen β} {b : β} :
    (liveRegisters >>= f).Yields g text g' b ↔ (f g.bank.live).Yields g text g' b :=
  yields_bind_silent rfl

@[simp] lemma yields_depth_bind {f : ℕ → Gen β} {b : β} :
    (depth >>= f).Yields g text g' b ↔ (f g.depth).Yields g text g' b := yields_bind_silent rfl

@[simp] lemma yields_setDepth {n : ℕ} {u : Unit} :
    (setDepth n).Yields g text g' u ↔ text = [] ∧ g' = { g with depth := n } := by
  rw [yields_iff rfl]; simp

@[simp] lemma yields_setDepth_bind {n : ℕ} {f : Unit → Gen β} {b : β} :
    (setDepth n >>= f).Yields g text g' b ↔ (f ()).Yields { g with depth := n } text g' b :=
  yields_bind_silent rfl

@[simp] lemma yields_symbol_bind {arena : Arena} {id : SymbolId} {f : Symbol → Gen β} {b : β} :
    (symbol arena id >>= f).Yields g text g' b ↔
      ∃ s, arena[id]? = some s ∧ (f s).Yields g text g' b := by
  cases h : arena[id]? with
  | none =>
    have hstop : symbol arena id g = ⟨[], g, .error (.dangling ⟨id⟩)⟩ := by
      simp [symbol, Arena.find, h]
    simp [not_yields_bind hstop]
  | some s =>
    have hok : symbol arena id g = ⟨[], g, .ok s⟩ := by simp [symbol, Arena.find, h]
    rw [yields_bind_silent hok]
    simp

@[simp] lemma yields_ofExcept {x : Except LoweringError α} {a : α} :
    (ofExcept x).Yields g text g' a ↔ text = [] ∧ g' = g ∧ x = .ok a := by
  cases x with
  | ok b => simp [ofExcept, eq_comm]
  | error e =>
    have hstop : (ofExcept (.error e) : Gen α) g = ⟨[], g, .error (.error e)⟩ := rfl
    simp [not_yields hstop]

@[simp] lemma yields_push_bind {r : Scratch} {f : Unit → Gen β} {b : β} :
    (push r >>= f).Yields g text g' b ↔
      ∃ u, (f ()).Yields { g with depth := g.depth + 1 } u g' b ∧
        text = .instr (.push (.scratch r)) :: u := by
  rw [push, bind_assoc, yields_instr_bind]
  simp only [yields_depth_bind, yields_setDepth_bind, bind_assoc]

@[simp] lemma yields_pop_bind {r : Scratch} {f : Unit → Gen β} {b : β} :
    (pop r >>= f).Yields g text g' b ↔
      ∃ u, (f ()).Yields { g with depth := g.depth - 1 } u g' b ∧
        text = .instr (.pop (.scratch r)) :: u := by
  rw [pop, bind_assoc, yields_instr_bind]
  simp only [yields_depth_bind, yields_setDepth_bind, bind_assoc]

@[simp] lemma yields_emitAll {ls : List Line} {u : Unit} :
    (emitAll ls).Yields g text g' u ↔ text = ls ∧ g' = g := by
  induction ls generalizing text with
  | nil => simp [emitAll]
  | cons l rest ih =>
    rw [emitAll, yields_emit_bind]
    constructor
    · rintro ⟨_, hrest, rfl⟩
      obtain ⟨rfl, rfl⟩ := ih.mp hrest
      exact ⟨rfl, rfl⟩
    · rintro ⟨rfl, rfl⟩
      exact ⟨rest, ih.mpr ⟨rfl, rfl⟩, rfl⟩

/-- The words by which `pending` more are made even. -/
def padding (depth pending : ℕ) : ℕ := if (depth + pending) % 2 = 0 then 0 else 1

lemma yields_pad {pending n : ℕ} :
    (pad pending).Yields g text g' n ↔
      n = padding g.depth pending ∧ text = List.replicate n (.instr .pushZero) ∧
        g' = { g with depth := g.depth + n } := by
  rw [pad, yields_depth_bind, padding]
  split
  · rw [yields_pure]
    constructor
    · rintro ⟨rfl, rfl, rfl⟩
      exact ⟨rfl, rfl, rfl⟩
    · rintro ⟨rfl, rfl, rfl⟩
      exact ⟨rfl, rfl, rfl⟩
  · rw [yields_instr_bind]
    constructor
    · rintro ⟨u, hu, rfl⟩
      rw [yields_setDepth_bind, yields_pure] at hu
      obtain ⟨rfl, rfl, rfl⟩ := hu
      exact ⟨rfl, rfl, rfl⟩
    · rintro ⟨rfl, rfl, rfl⟩
      refine ⟨[], ?_, rfl⟩
      rw [yields_setDepth_bind, yields_pure]
      exact ⟨rfl, rfl, rfl⟩

lemma yields_dropWords {n : ℕ} {u : Unit} :
    (dropWords n).Yields g text g' u ↔
      text = (if n = 0 then [] else [.instr (.raiseStack (n * wordSize))]) ∧
        g' = { g with depth := g.depth - n } := by
  by_cases h : n = 0
  · subst h
    simp [dropWords]
  · rw [dropWords, if_neg h, if_neg h, yields_instr_bind]
    simp only [yields_depth_bind, yields_setDepth]
    constructor
    · rintro ⟨_, ⟨rfl, rfl⟩, rfl⟩
      exact ⟨rfl, rfl⟩
    · rintro ⟨rfl, rfl⟩
      exact ⟨[], ⟨rfl, rfl⟩, rfl⟩

end Gen

variable {g g' : GenState} {text : List Line} {arena : Arena}

/-- The operand of a name is the place that it has without any code. -/
lemma Ident.yields_operand {x : Ident} {o : Operand} :
    (x.operand arena).Yields g text g' o ↔ text = [] ∧ g' = g ∧ x.place? arena = some o := by
  unfold operand place?
  cases hx : x.symbol with
  | none => simp [Gen.not_yields (x := Gen.stop (.unresolved x.render)) rfl]
  | some id =>
    cases hs : arena[id]? with
    | none => simp [hs]
    | some s => cases hl : s.locate x.offset <;> simp [hs, hl, Except.toOption]

lemma Ident.yields_load {x : Ident} {r : Scratch} :
    (x.load arena).Yields g text g' r ↔
      ∃ o bank, x.place? arena = some o ∧ g.bank.alloc? = some (r, bank) ∧
        g' = { g with bank } ∧ text = [.instr (.load r o)] := by
  rw [load, Gen.yields_bind]
  simp only [yields_operand, Gen.yields_alloc_bind, Gen.yields_instr_bind, Gen.yields_pure]
  constructor
  · rintro ⟨_, _, o, _, ⟨rfl, rfl, ho⟩, ⟨_, bank, hb, _, ⟨rfl, rfl, rfl⟩, rfl⟩, rfl⟩
    exact ⟨o, bank, ho, hb, rfl, rfl⟩
  · rintro ⟨o, bank, ho, hb, rfl, rfl⟩
    exact ⟨[], g, o, _, ⟨rfl, rfl, ho⟩, ⟨r, bank, hb, [], ⟨rfl, rfl, rfl⟩, rfl⟩, rfl⟩

lemma Ident.yields_store {x : Ident} {r : Scratch} {u : Unit} :
    (x.store arena r).Yields g text g' u ↔
      ∃ o, x.place? arena = some o ∧ g' = g ∧ text = [.instr (.store o r)] := by
  rw [store, Gen.yields_bind]
  simp only [yields_operand, Gen.yields_instr]
  constructor
  · rintro ⟨_, _, o, _, ⟨rfl, rfl, ho⟩, ⟨rfl, rfl⟩, rfl⟩
    exact ⟨o, ho, rfl, rfl⟩
  · rintro ⟨o, ho, rfl, rfl⟩
    exact ⟨[], g', o, _, ⟨rfl, rfl, ho⟩, ⟨rfl, rfl⟩, rfl⟩

namespace Gen

lemma yields_constant {v : Int64} {r : Scratch} :
    (constant v).Yields g text g' r ↔
      ∃ bank, g.bank.alloc? = some (r, bank) ∧ g' = { g with bank } ∧
        text = [.instr (.const r v)] := by
  rw [constant, yields_alloc_bind]
  simp only [yields_instr_bind, yields_pure]
  constructor
  · rintro ⟨_, bank, hb, _, ⟨rfl, rfl, rfl⟩, rfl⟩
    exact ⟨bank, hb, rfl, rfl⟩
  · rintro ⟨bank, hb, rfl, rfl⟩
    exact ⟨r, bank, hb, [], ⟨rfl, rfl, rfl⟩, rfl⟩

lemma yields_takeResult {r : Scratch} :
    takeResult.Yields g text g' r ↔
      ∃ bank, g.bank.alloc? = some (r, bank) ∧ g' = { g with bank } ∧
        text = [.instr (.move (.scratch r) .rax)] := by
  rw [takeResult, yields_alloc_bind]
  simp only [yields_instr_bind, yields_pure]
  constructor
  · rintro ⟨_, bank, hb, _, ⟨rfl, rfl, rfl⟩, rfl⟩
    exact ⟨bank, hb, rfl, rfl⟩
  · rintro ⟨bank, hb, rfl, rfl⟩
    exact ⟨r, bank, hb, [], ⟨rfl, rfl, rfl⟩, rfl⟩

/-- The instructions of an arithmetic operation. -/
def arithText (l r : Scratch) : Arith → List Line
  | .add => [.instr (.add l r)]
  | .sub => [.instr (.sub l r)]
  | .mul => [.instr (.mul l r)]
  | .div => [.instr (.move .rax (.scratch l)), .instr .signExtend, .instr (.div r),
      .instr (.move (.scratch l) .rax)]

lemma yields_arith {op : Arith} {l r q : Scratch} :
    (arith op l r).Yields g text g' q ↔
      q = l ∧ g' = { g with bank := g.bank.free r } ∧ text = arithText l r op := by
  cases op <;>
    simp only [arith, arithText, yields_instr_bind, yields_free_bind, yields_pure] <;>
    grind

/-- The lines that leave 1 in `q` if the relation holds, and 0 if not. -/
def compareText (rel : Rel) (l r q : Scratch) (skip : Label) : List Line :=
  [.instr (.compare l r), .instr (.const q 0), .instr (.jumpIf rel.negated skip),
    .instr (.const q 1), .label skip]

lemma yields_compare {rel : Rel} {l r q : Scratch} :
    (compare rel l r).Yields g text g' q ↔
      ∃ bank, ((g.bank.free r).free l).alloc? = some (q, bank) ∧
        g' = { g with labels := g.labels + 1, bank } ∧
        text = compareText rel l r q ⟨g.labels⟩ := by
  simp only [compare, compareText, yields_instr_bind, yields_free_bind, yields_alloc_bind,
    yields_freshLabel_bind, yields_emit_bind, yields_pure]
  constructor
  · rintro ⟨_, ⟨_, bank, hb, _, ⟨_, ⟨_, ⟨_, ⟨rfl, rfl, rfl⟩, rfl⟩, rfl⟩, rfl⟩, rfl⟩, rfl⟩
    exact ⟨bank, hb, rfl, rfl⟩
  · rintro ⟨bank, hb, rfl, rfl⟩
    exact ⟨_, ⟨q, bank, hb, _, ⟨_, ⟨_, ⟨[], ⟨rfl, rfl, rfl⟩, rfl⟩, rfl⟩, rfl⟩, rfl⟩, rfl⟩

/-- The bank once these registers are saved. -/
def saved (b : Bank) (rs : List Scratch) : Bank := rs.foldl Bank.free b

lemma yields_saveAll {rs : List Scratch} {u : Unit} :
    (saveAll rs).Yields g text g' u ↔
      text = rs.map (fun r => .instr (.push (.scratch r))) ∧
        g' = { g with bank := saved g.bank rs, depth := g.depth + rs.length } := by
  induction rs generalizing g text with
  | nil => simp [saveAll, saved]
  | cons r rest ih =>
    rw [saveAll, yields_push_bind]
    simp only [yields_free_bind, ih, saved, List.foldl_cons, List.map_cons, List.length_cons,
      Nat.add_assoc, Nat.add_comm rest.length 1]
    constructor
    · rintro ⟨_, ⟨rfl, rfl⟩, rfl⟩
      exact ⟨rfl, rfl⟩
    · rintro ⟨rfl, rfl⟩
      exact ⟨_, ⟨rfl, rfl⟩, rfl⟩

/-- The bank once these registers are back, the last one first. -/
def restored (b : Bank) (rs : List Scratch) : Bank := rs.foldr (fun r b => b.claim r) b

lemma yields_restore {rs : List Scratch} {u : Unit} :
    (restore rs).Yields g text g' u ↔
      text = rs.reverse.map (fun r => .instr (.pop (.scratch r))) ∧
        g' = { g with bank := restored g.bank rs, depth := g.depth - rs.length } := by
  induction rs generalizing g' text with
  | nil => simp [restore, restored]
  | cons r rest ih =>
    rw [restore, yields_bind]
    simp only [yields_pop_bind, yields_claim, ih, restored, List.foldr_cons, List.reverse_cons,
      List.map_append, List.map_cons, List.map_nil, List.length_cons]
    constructor
    · rintro ⟨_, _, _, _, ⟨rfl, rfl⟩, ⟨_, ⟨rfl, rfl⟩, rfl⟩, rfl⟩
      exact ⟨rfl, by simp [Nat.sub_sub]⟩
    · rintro ⟨rfl, rfl⟩
      exact ⟨_, _, (), _, ⟨rfl, rfl⟩, ⟨[], ⟨rfl, by simp [Nat.sub_sub]⟩, rfl⟩, rfl⟩

/-- A call: the registers in use are saved, `args` puts the arguments in place with `pending` of
them on the stack, and once the routine is back everything is undone and its result taken. -/
def callWith (pending : ℕ) (args : Gen Unit) (routine : String) : Gen Scratch := do
  let saved ← save
  let padding ← pad pending
  args
  instr (.call routine)
  dropWords (pending + padding)
  restore saved
  takeResult

lemma yields_callWith {pending : ℕ} {args : Gen Unit} {routine : String} {r : Scratch} :
    (callWith pending args routine).Yields g text g' r ↔
      ∃ n t g₁ bank,
        n = padding (g.depth + g.bank.live.length) pending ∧
        args.Yields { g with
          bank := saved g.bank g.bank.live
          depth := g.depth + g.bank.live.length + n } t g₁ () ∧
        (restored g₁.bank g.bank.live).alloc? = some (r, bank) ∧
        g' = { g₁ with bank, depth := g₁.depth - (pending + n) - g.bank.live.length } ∧
        text = g.bank.live.map (fun r => .instr (.push (.scratch r))) ++
          (List.replicate n (.instr .pushZero) ++ (t ++ (.instr (.call routine) ::
          ((if pending + n = 0 then [] else [.instr (.raiseStack ((pending + n) * wordSize))]) ++
          (g.bank.live.reverse.map (fun r => .instr (.pop (.scratch r))) ++
          [.instr (.move (.scratch r) .rax)]))))) := by
  rw [callWith, save]
  simp only [bind_assoc, yields_liveRegisters_bind, pure_bind]
  rw [yields_bind]
  simp only [yields_saveAll]
  constructor
  · rintro ⟨_, _, _, _, ⟨rfl, rfl⟩, hsaved, rfl⟩
    obtain ⟨_, _, n, _, hpad, hpadded, rfl⟩ := yields_bind.mp hsaved
    obtain ⟨hn, rfl, rfl⟩ := yields_pad.mp hpad
    obtain ⟨t, g₁, _, _, hargs, hcall, rfl⟩ := yields_bind.mp hpadded
    obtain ⟨_, hback, rfl⟩ := yields_instr_bind.mp hcall
    obtain ⟨_, _, _, _, hdrop, hdropped, rfl⟩ := yields_bind.mp hback
    obtain ⟨rfl, rfl⟩ := yields_dropWords.mp hdrop
    obtain ⟨_, _, _, _, hrestore, hresult, rfl⟩ := yields_bind.mp hdropped
    obtain ⟨rfl, rfl⟩ := yields_restore.mp hrestore
    obtain ⟨bank, hbank, rfl, rfl⟩ := yields_takeResult.mp hresult
    exact ⟨n, t, g₁, bank, hn, hargs, hbank, rfl, rfl⟩
  · rintro ⟨n, t, g₁, bank, hn, hargs, hbank, rfl, rfl⟩
    refine ⟨_, _, (), _, ⟨rfl, rfl⟩, yields_bind.mpr ?_, rfl⟩
    refine ⟨_, _, n, _, yields_pad.mpr ⟨hn, rfl, rfl⟩, yields_bind.mpr ?_, rfl⟩
    refine ⟨t, g₁, (), _, hargs, yields_instr_bind.mpr ⟨_, yields_bind.mpr ?_, rfl⟩, rfl⟩
    refine ⟨_, _, (), _, yields_dropWords.mpr ⟨rfl, rfl⟩, yields_bind.mpr ?_, rfl⟩
    exact ⟨_, _, (), _, yields_restore.mpr ⟨rfl, rfl⟩,
      yields_takeResult.mpr ⟨bank, hbank, rfl, rfl⟩, rfl⟩

end Gen

/-- The words that a call passes on the stack: one for each argument, but printing takes its
argument in a register. -/
def Ident.pushed (f : Ident) (args : List Expr) : ℕ :=
  if f.name == printName then 0 else args.length

/-- Puts the arguments of a call in place. -/
def Ident.pass (arena : Arena) (f : Ident) (args : List Expr) : Gen Unit :=
  if f.name == printName then Expr.lowerPrinted arena args else Expr.lowerArgs arena args

/-- What holds of both ways to pass arguments holds of every call. -/
lemma Ident.pass_cases {P : Gen Unit → ℕ → Prop} (f : Ident) {args : List Expr}
    (hprint : P (Expr.lowerPrinted arena args) 0)
    (hargs : P (Expr.lowerArgs arena args) args.length) :
    P (f.pass arena args) (f.pushed args) := by
  rw [pass, pushed]
  split
  · exact hprint
  · exact hargs

lemma Expr.lower_call (f : Ident) (args : List Expr) :
    (Expr.call f args).lower arena =
      Gen.callWith (f.pushed args) (f.pass arena args) f.routine := by
  rw [lower, Gen.callWith, Ident.pushed, Ident.pass, Ident.routine]
  split <;> simp

end TreeCompiler

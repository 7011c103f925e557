import TreeCompiler.Proofs.Exhaustion

/-!
The variables that code reads and writes.

Only loads and stores have an operand in memory, and each of them is there for a name: one that is
used, or one that is declared with a value. These are the accesses of a program, in the order of its
code. The operands in a unit are the places of its accesses, one by one; code that stops early has
those of the first accesses only.
-/

namespace TreeCompiler

/-- The place of the variable that a line reads or writes. -/
def Line.operand? : Line → Option Operand
  | .instr (.load _ o) => some o
  | .instr (.store o _) => some o
  | _ => none

def operands (ls : List Line) : List Operand := ls.filterMap Line.operand?

@[simp] lemma operands_append (ls ls' : List Line) :
    operands (ls ++ ls') = operands ls ++ operands ls' := List.filterMap_append

/-! ### Accesses -/

mutual

/-- The names that the code of an expression reads and writes, in order. -/
def Expr.accesses : Expr → List Ident
  | .int _ => []
  | .bool _ => []
  | .name x => [x]
  | .assign x e => e.accesses ++ [x]
  | .binary _ l r => l.accesses ++ r.accesses
  | .call f args =>
    if f.name == printName then Expr.accessesPrinted args else Expr.accessesArgs args
termination_by structural e => e

/-- The last argument of a call is evaluated first. -/
def Expr.accessesArgs : List Expr → List Ident
  | [] => []
  | e :: rest => Expr.accessesArgs rest ++ e.accesses
termination_by structural es => es

def Expr.accessesPrinted : List Expr → List Ident
  | [] => []
  | e :: rest => e.accesses ++ Expr.accessesPrinted rest
termination_by structural es => es

end

def Expr.accessesOption : Option Expr → List Ident
  | none => []
  | some e => e.accesses

/-- A variable is written if it is declared with a value. -/
def Var.accesses (v : Var) : List Ident :=
  match v.value with
  | none => []
  | some e => e.accesses ++ [v.name]

def Decl.accesses : Decl → List Ident
  | .globalVar v | .localVar v => v.accesses
  | .function _ => []

def Decl.accessesOption : Option Decl → List Ident
  | none => []
  | some d => d.accesses

mutual

def Stmt.accesses : Stmt → List Ident
  | .expr e => e.accesses
  | .decl d => d.accesses
  | .ret value => Expr.accessesOption value
  | .cond b => b.accesses
  | .whileLoop c body => c.accesses ++ Stmt.accessesAll body
  | .forLoop start c step body => Decl.accessesOption start ++
      (c.accesses ++ (Stmt.accessesAll body ++ Expr.accessesOption step))
termination_by structural s => s

def Stmt.accessesAll : List Stmt → List Ident
  | [] => []
  | s :: rest => s.accesses ++ Stmt.accessesAll rest
termination_by structural ss => ss

def Branch.accesses : Branch → List Ident
  | ⟨c, body, tail⟩ => c.accesses ++ (Stmt.accessesAll body ++ tail.accesses)
termination_by structural b => b

def Tail.accesses : Tail → List Ident
  | .done => []
  | .elseIf next => next.accesses
  | .otherwise last => Stmt.accessesAll last
termination_by structural t => t

end

def FunDecl.accesses (globals : List Var) (f : FunDecl) : List Ident :=
  (f.preset globals).flatMap Var.accesses ++ Stmt.accessesAll f.body

/-- The accesses of a program, each with the function in whose code it is. -/
def Program.accesses (p : Program) : List (FunDecl × Ident) :=
  p.functions.flatMap fun f => (f.accesses p.globals).map (f, ·)

/-! ### Accesses of a step -/

variable {arena : Arena} {α β : Type}

/-- The step accesses these names, one after the other; if it stops, then only the first of them. -/
def Gen.Accesses (arena : Arena) (x : Gen α) (names : List Ident) : Prop :=
  ∀ g, ∃ rest, names.map (Ident.place? arena) = (operands (lines (x g).code)).map some ++ rest ∧
    ∀ a, (x g).result = .ok a → rest = []

namespace Gen

variable {x : Gen α} {f : α → Gen β} {xs ys : List Ident}

namespace Accesses

lemma silent (h : ∀ g, operands (lines (x g).code) = []) : x.Accesses arena [] := by
  intro g
  refine ⟨[], ?_, fun _ _ => rfl⟩
  simp [h g]

/-- Two steps in a row, where the second is known for what the first can return. -/
lemma bind_of_yields (hx : x.Accesses arena xs)
    (hf : ∀ {g text g' a}, x.Yields g text g' a → (f a).Accesses arena ys) :
    (x >>= f).Accesses arena (xs ++ ys) := by
  intro g
  obtain ⟨rest, hplaces, hend⟩ := hx g
  match hxg : x g with
  | ⟨code, g', .ok a⟩ =>
    rw [hxg] at hplaces hend
    obtain rfl := hend a rfl
    obtain ⟨rest, hnext, hend⟩ := hf (yields_of_eq hxg) g'
    rw [bind_of_ok hxg]
    exact ⟨rest, by simp [hplaces, hnext], hend⟩
  | ⟨code, g', .error e⟩ =>
    rw [hxg] at hplaces
    rw [bind_of_error hxg]
    exact ⟨rest ++ ys.map (Ident.place? arena), by simp [hplaces], nofun⟩

lemma bind (hx : x.Accesses arena xs) (hf : ∀ a, (f a).Accesses arena ys) :
    (x >>= f).Accesses arena (xs ++ ys) := hx.bind_of_yields fun _ => hf _

lemma after (hx : x.Accesses arena []) (hf : ∀ a, (f a).Accesses arena ys) :
    (x >>= f).Accesses arena ys := hx.bind hf

lemma before (hx : x.Accesses arena xs) (hf : ∀ a, (f a).Accesses arena []) :
    (x >>= f).Accesses arena xs := List.append_nil xs ▸ hx.bind hf

end Accesses

lemma accesses_pure (a : α) : (pure a : Gen α).Accesses arena [] := .silent fun _ => rfl

lemma accesses_emit {l : Line} (hl : l.operand? = none) : (emit l).Accesses arena [] :=
  .silent fun _ => by simp [emit, lines, operands, hl]

lemma accesses_emitAll : (ls : List Line) → operands ls = [] → (emitAll ls).Accesses arena []
  | [], _ => accesses_pure ()
  | l :: rest, h => by
    have hall : ∀ l' ∈ l :: rest, l'.operand? = none := List.filterMap_eq_nil_iff.mp h
    obtain ⟨hl, hrest⟩ := List.forall_mem_cons.mp hall
    have hemitted := accesses_emitAll rest (List.filterMap_eq_nil_iff.mpr hrest)
    exact (accesses_emit hl).after fun _ => hemitted

lemma accesses_freshLabel : freshLabel.Accesses arena [] := .silent fun _ => rfl

lemma accesses_free (r : Scratch) : (free r).Accesses arena [] := .silent fun _ => rfl

lemma accesses_setDepth (n : ℕ) : (setDepth n).Accesses arena [] := .silent fun _ => rfl

lemma accesses_depth : depth.Accesses arena [] := .silent fun _ => rfl

lemma accesses_alloc : alloc.Accesses arena [] := by
  refine .silent fun g => ?_
  rw [alloc]
  split <;> rfl

lemma accesses_push (r : Scratch) : (push r).Accesses arena [] := by
  refine (accesses_emit rfl).after fun _ => ?_
  refine accesses_depth.after fun depth => ?_
  exact accesses_setDepth _

lemma accesses_pad (pending : ℕ) : (pad pending).Accesses arena [] := by
  refine accesses_depth.after fun d => ?_
  split
  · exact accesses_pure 0
  · exact (accesses_emit rfl).after fun _ => (accesses_setDepth _).after fun _ => accesses_pure 1

lemma accesses_dropWords (n : ℕ) : (dropWords n).Accesses arena [] := by
  rw [dropWords]
  split
  · exact accesses_pure ()
  · exact (accesses_emit rfl).after fun _ => accesses_depth.after fun _ => accesses_setDepth _

lemma accesses_saveAll (rs : List Scratch) : (saveAll rs).Accesses arena [] := by
  induction rs with
  | nil => exact accesses_pure ()
  | cons r rest ih =>
    refine (accesses_push r).after fun _ => ?_
    exact (accesses_free r).after fun _ => ih

lemma accesses_save : save.Accesses arena [] := by
  have hlive : liveRegisters.Accesses arena [] := .silent fun _ => rfl
  exact hlive.after fun rs => (accesses_saveAll rs).after fun _ => accesses_pure rs

lemma accesses_restore : (rs : List Scratch) → (restore rs).Accesses arena []
  | [] => accesses_pure ()
  | r :: rest => by
    have hclaim : (claim r).Accesses arena [] := .silent fun _ => rfl
    have hpop : (pop r).Accesses arena [] :=
      (accesses_emit rfl).after fun _ => accesses_depth.after fun _ => accesses_setDepth _
    exact (accesses_restore rest).after fun _ => hpop.after fun _ => hclaim

/-- A register gets a value that does not come from a variable. -/
lemma accesses_alloc_instr {i : Scratch → Instr} (hi : ∀ r, (Line.instr (i r)).operand? = none) :
    (do let r ← alloc; instr (i r); return r).Accesses arena [] := by
  refine accesses_alloc.after fun r => ?_
  exact (accesses_emit (hi r)).after fun _ => accesses_pure r

lemma accesses_combine (op : BinOp) (l r : Scratch) : (combine op l r).Accesses arena [] := by
  have hback : (do free r; return l : Gen Scratch).Accesses arena [] :=
    (accesses_free r).after fun _ => accesses_pure l
  cases op with
  | arith op =>
    cases op with
    | add | sub | mul => exact (accesses_emit rfl).after fun _ => hback
    | div =>
      refine (accesses_emit rfl).after fun _ => (accesses_emit rfl).after fun _ => ?_
      exact (accesses_emit rfl).after fun _ => (accesses_emit rfl).after fun _ => hback
  | compare rel =>
    refine (accesses_emit rfl).after fun _ => ?_
    refine (accesses_free r).after fun _ => (accesses_free l).after fun _ => ?_
    refine accesses_alloc.after fun q => accesses_freshLabel.after fun skip => ?_
    refine (accesses_emit rfl).after fun _ => (accesses_emit rfl).after fun _ => ?_
    exact (accesses_emit rfl).after fun _ => (accesses_emit rfl).after fun _ => accesses_pure q

/-- What a call does around its arguments accesses nothing. -/
lemma accesses_callWith {pending : ℕ} {args : Gen Unit} {routine : String}
    (hargs : args.Accesses arena xs) : (callWith pending args routine).Accesses arena xs := by
  refine accesses_save.after fun rs => (accesses_pad pending).after fun n => ?_
  refine hargs.before fun _ => (accesses_emit rfl).after fun _ => ?_
  refine (accesses_dropWords _).after fun _ => (accesses_restore rs).after fun _ => ?_
  exact accesses_alloc_instr fun _ => rfl

end Gen

namespace Ident

variable {x : Ident} {o : Operand}

lemma accesses_operand (x : Ident) : (x.operand arena).Accesses arena [] := by
  rw [operand]
  split
  · exact .silent fun _ => rfl
  · refine .after (.silent fun g => ?_) fun symbol => .silent fun g => ?_
    · rw [Gen.symbol]
      split <;> rfl
    · cases symbol.locate x.offset <;> rfl

/-- What comes behind the operand of a name knows that it is the place of the name. -/
lemma accesses_operand_bind {f : Operand → Gen β}
    (hf : ∀ o, x.place? arena = some o → (f o).Accesses arena [x]) :
    (x.operand arena >>= f).Accesses arena [x] := by
  refine x.accesses_operand.bind_of_yields fun hy => ?_
  obtain ⟨-, -, hplace⟩ := Ident.yields_operand.mp hy
  exact hf _ hplace

/-- A load or a store at the place of a name accesses it. -/
lemma accesses_instr {i : Instr} (ho : x.place? arena = some o)
    (hi : (Line.instr i).operand? = some o) : (Gen.instr i).Accesses arena [x] := by
  intro g
  refine ⟨[], ?_, fun _ _ => rfl⟩
  simp [Gen.instr, Gen.emit, lines, operands, hi, ho]

lemma accesses_load (x : Ident) : (x.load arena).Accesses arena [x] := by
  refine accesses_operand_bind fun o ho => ?_
  refine Gen.accesses_alloc.after fun r => ?_
  exact (accesses_instr ho rfl).before fun _ => Gen.accesses_pure r

lemma accesses_store (x : Ident) (r : Scratch) : (x.store arena r).Accesses arena [x] :=
  accesses_operand_bind fun _ ho => accesses_instr ho rfl

end Ident

/-! ### Expressions -/

mutual

/-- The code of an expression accesses its names. -/
lemma Expr.accesses_lower : (e : Expr) → (e.lower arena).Accesses arena e.accesses
  | .int _ | .bool true | .bool false => Gen.accesses_alloc_instr fun _ => rfl
  | .name x => x.accesses_load
  | .assign x e => by
    refine e.accesses_lower.bind fun r => ?_
    exact (x.accesses_store r).before fun _ => Gen.accesses_pure r
  | .binary op l r => by
    refine l.accesses_lower.bind fun a => ?_
    exact r.accesses_lower.before fun b => Gen.accesses_combine op a b
  | .call f args => by
    rw [Expr.lower_call, Expr.accesses, Ident.pass]
    refine Gen.accesses_callWith ?_
    split
    · exact Expr.accesses_printed args
    · exact Expr.accesses_args args
termination_by structural e => e

lemma Expr.accesses_args : (es : List Expr) →
    (Expr.lowerArgs arena es).Accesses arena (Expr.accessesArgs es)
  | [] => Gen.accesses_pure ()
  | e :: rest => by
    -- the last argument is lowered first
    refine (Expr.accesses_args rest).bind fun _ => ?_
    refine e.accesses_lower.before fun r => ?_
    exact (Gen.accesses_push r).after fun _ => Gen.accesses_free r
termination_by structural es => es

lemma Expr.accesses_printed : (es : List Expr) →
    (Expr.lowerPrinted arena es).Accesses arena (Expr.accessesPrinted es)
  | [] => Gen.accesses_pure ()
  | e :: rest => by
    refine e.accesses_lower.bind fun r => ?_
    refine (Gen.accesses_emit rfl).after fun _ => ?_
    exact (Gen.accesses_free r).after fun _ => Expr.accesses_printed rest
termination_by structural es => es

end

lemma Expr.accesses_dropped (e : Expr) : (e.lowerDropped arena).Accesses arena e.accesses :=
  e.accesses_lower.before fun r => Gen.accesses_free r

lemma Expr.accesses_step (e : Option Expr) :
    (Expr.lowerStep arena e).Accesses arena (Expr.accessesOption e) := by
  cases e with
  | none => exact Gen.accesses_pure ()
  | some e => exact e.accesses_dropped

lemma Expr.accesses_test (c : Expr) (l : Label) :
    (c.lowerTest arena l).Accesses arena c.accesses := by
  refine c.accesses_lower.before fun r => ?_
  refine (Gen.accesses_emit rfl).after fun _ => ?_
  exact (Gen.accesses_emit rfl).after fun _ => Gen.accesses_free r

lemma Expr.accesses_returned (e : Option Expr) :
    (Expr.lowerReturned arena e).Accesses arena (Expr.accessesOption e) := by
  cases e with
  | none => exact Gen.accesses_emit rfl
  | some e =>
    refine e.accesses_lower.before fun r => ?_
    exact (Gen.accesses_emit rfl).after fun _ => Gen.accesses_free r

/-! ### Statements -/

lemma Var.accesses_lower (v : Var) : (v.lower arena).Accesses arena v.accesses := by
  rw [Var.lower, Var.accesses]
  cases v.value with
  | none => exact Gen.accesses_pure ()
  | some e => exact e.accesses_lower.bind fun r => (v.name.accesses_store r).before fun _ =>
      Gen.accesses_free r

lemma Var.accesses_lowerAll (vs : List Var) :
    (Var.lowerAll arena vs).Accesses arena (vs.flatMap Var.accesses) := by
  induction vs with
  | nil => exact Gen.accesses_pure ()
  | cons v rest ih => exact v.accesses_lower.bind fun _ => ih

lemma Decl.accesses_lower (d : Decl) : (d.lower arena).Accesses arena d.accesses := by
  cases d with
  | globalVar v => exact v.accesses_lower
  | localVar v => exact v.accesses_lower
  | function _ => exact Gen.accesses_pure ()

lemma Decl.accesses_lowerOption (d : Option Decl) :
    (Decl.lowerOption arena d).Accesses arena (Decl.accessesOption d) := by
  cases d with
  | none => exact Gen.accesses_pure ()
  | some d => exact d.accesses_lower

/-- A loop, from what its body accesses. -/
lemma accesses_labelled {exit : Label} {body : List Stmt} {xs : List Ident} (c : Expr)
    (step : Option Expr) (hbody : (Stmt.lowerAll arena exit body).Accesses arena xs) :
    (lowerLabelled arena exit c step body).Accesses arena
      (c.accesses ++ (xs ++ Expr.accessesOption step)) := by
  refine Gen.accesses_freshLabel.after fun top => ?_
  refine Gen.accesses_freshLabel.after fun bottom => ?_
  refine (Gen.accesses_emit rfl).after fun _ => ?_
  refine (c.accesses_test bottom).bind fun _ => ?_
  refine hbody.bind fun _ => ?_
  refine (Expr.accesses_step step).before fun _ => ?_
  exact (Gen.accesses_emit rfl).after fun _ => Gen.accesses_emit rfl

mutual

/-- The code of a statement accesses its names. -/
lemma Stmt.accesses_lower (exit : Label) : (s : Stmt) →
    (s.lower arena exit).Accesses arena s.accesses
  | .expr e => e.accesses_dropped
  | .decl d => d.accesses_lower
  | .ret value => (Expr.accesses_returned value).before fun _ => Gen.accesses_emit rfl
  | .cond b => by
    refine Gen.accesses_freshLabel.after fun stop => ?_
    exact (b.accesses_lower exit stop).before fun _ => Gen.accesses_emit rfl
  | .whileLoop c body => by
    rw [Stmt.lower_while]
    have hloop := accesses_labelled c none (Stmt.accesses_lowerAll exit body)
    rwa [Expr.accessesOption, List.append_nil] at hloop
  | .forLoop start c step body => by
    rw [Stmt.lower_for]
    have hbody := Stmt.accesses_lowerAll exit body
    exact (Decl.accesses_lowerOption start).bind fun _ => accesses_labelled c step hbody
termination_by structural s => s

lemma Stmt.accesses_lowerAll (exit : Label) : (ss : List Stmt) →
    (Stmt.lowerAll arena exit ss).Accesses arena (Stmt.accessesAll ss)
  | [] => Gen.accesses_pure ()
  | s :: rest => by
    have hrest := Stmt.accesses_lowerAll exit rest
    exact (s.accesses_lower exit).bind fun _ => hrest
termination_by structural ss => ss

lemma Branch.accesses_lower (exit stop : Label) : (b : Branch) →
    (b.lower arena exit stop).Accesses arena b.accesses
  | ⟨c, body, tail⟩ => by
    have hbody := Stmt.accesses_lowerAll exit body
    have htail := tail.accesses_lower exit stop
    by_cases hdone : tail = .done
    · subst hdone
      rw [Branch.lower]
      exact (c.accesses_test stop).bind fun _ => hbody.bind fun _ => Gen.accesses_emit rfl
    · rw [Branch.lower_next hdone]
      refine Gen.accesses_freshLabel.after fun skip => ?_
      refine (c.accesses_test skip).bind fun _ => hbody.bind fun _ => ?_
      exact (Gen.accesses_emit rfl).after fun _ => (Gen.accesses_emit rfl).after fun _ => htail
termination_by structural b => b

lemma Tail.accesses_lower (exit stop : Label) : (t : Tail) →
    (t.lower arena exit stop).Accesses arena t.accesses
  | .done => Gen.accesses_pure ()
  | .elseIf next => next.accesses_lower exit stop
  | .otherwise last => by
    have hlast := Stmt.accesses_lowerAll exit last
    exact hlast.before fun _ => Gen.accesses_emit rfl
termination_by structural t => t

end

/-! ### Programs -/

lemma FunDecl.accesses_lower (globals : List Var) (f : FunDecl) :
    (f.lower arena globals).Accesses arena (f.accesses globals) := by
  have hopen : operands (.blank :: .routine (functionSymbol f.name.name) ::
      openFrame f.frameSize) = [] := by
    rw [openFrame]
    split <;> rfl
  have hclose (exit : Label) : operands (f.fallsOff ++ .label exit :: f.epilogue) = [] := by
    rw [fallsOff, epilogue, closeFrame, leaveProcess]
    split <;> split <;> rfl
  rw [FunDecl.lower_eq]
  refine (Gen.accesses_emitAll _ hopen).after fun _ => ?_
  refine Gen.accesses_freshLabel.after fun exit => ?_
  refine (Gen.accesses_setDepth 0).after fun _ => ?_
  refine (Var.accesses_lowerAll _).bind fun _ => ?_
  exact (Stmt.accesses_lowerAll exit f.body).before fun _ => Gen.accesses_emitAll _ (hclose exit)

lemma FunDecl.accesses_lowerAll (globals : List Var) (fs : List FunDecl) :
    (FunDecl.lowerAll arena globals fs).Accesses arena (fs.flatMap (·.accesses globals)) := by
  induction fs with
  | nil => exact Gen.accesses_pure ()
  | cons f rest ih => exact (f.accesses_lower globals).bind fun _ => ih

lemma operands_reserveLines (arena : Arena) : operands (reserveLines arena) = [] := by
  rw [reserveLines]
  split
  · rfl
  · rw [operands_append, operands, operands, List.filterMap_map]
    exact List.filterMap_eq_nil_iff.mpr fun _ _ => rfl

/-- The code of a program accesses its names. -/
lemma Program.accesses_lower (p : Program) :
    (p.lower arena).Accesses arena (p.accesses.map Prod.snd) := by
  have hnames : p.accesses.map Prod.snd = p.functions.flatMap (·.accesses p.globals) := by
    simp [Program.accesses, List.map_flatMap, Function.comp_def]
  rw [hnames]
  refine (Gen.accesses_emitAll _ rfl).after fun _ => ?_
  refine (FunDecl.accesses_lowerAll p.globals p.functions).before fun _ => ?_
  refine (Gen.accesses_emitAll _ (operands_reserveLines arena)).after fun _ => ?_
  exact Gen.accesses_emitAll _ rfl

/-- **Operands are accesses**: the operands in the code of a program are the places of its accesses,
in order. -/
theorem Program.access_of_operand {p : Program} {g : GenState} {k : ℕ} {o : Operand}
    (hk : (operands (lines (p.lower arena g).code))[k]? = some o) :
    ∃ f x, p.accesses[k]? = some (f, x) ∧ x.place? arena = some o := by
  obtain ⟨rest, hplaces, -⟩ := p.accesses_lower g
  have hplace : ((p.accesses.map Prod.snd).map (Ident.place? arena))[k]? = some (some o) := by
    have hlt := (List.getElem?_eq_some_iff.mp hk).1
    rw [hplaces, List.getElem?_append_left (by simpa using hlt), List.getElem?_map, hk]
    rfl
  rw [List.map_map, List.getElem?_map] at hplace
  obtain ⟨⟨f, x⟩, hx, ho⟩ := Option.map_eq_some_iff.mp hplace
  exact ⟨f, x, hx, ho⟩

end TreeCompiler

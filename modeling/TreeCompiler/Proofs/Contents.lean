import TreeCompiler.Proofs.Accesses

/-!
What code can consist of.

A call to a routine is in the code because of a call in the tree, and code that stops at a missing
symbol does so because of a name in the tree. All other lines, and all other reasons to stop, are
the same for every tree. So terms that hold of these are met by the code of a program as soon as its
calls and its names meet them.
-/

namespace TreeCompiler

/-- The symbol that a line calls. -/
def Line.callee? : Line → Option String
  | .instr (.call s) | .instr (.callExternal s) => some s
  | _ => none

def callees (ls : List Line) : List String := ls.filterMap Line.callee?

/-- Conditions on lines and on reasons to stop. Only a call and a missing symbol may fail them. -/
structure Terms where
  line : Line → Prop
  stop : Stop → Prop
  plain : ∀ l, l.callee? = none → line l
  runtime : ∀ l ∈ preludeLines ++ leaveProcess, line l
  error : ∀ e, stop (.error e)

lemma Terms.line_of_callees (T : Terms) {ls : List Line} (h : callees ls = []) :
    ∀ l ∈ ls, T.line l := fun l hl => T.plain l (List.filterMap_eq_nil_iff.mp h l hl)

/-- The names and calls of a tree are within the terms. -/
structure Terms.Admits (T : Terms) (arena : Arena) (names : List Ident) (parts : List Expr) :
    Prop where
  names : ∀ x ∈ names, ∀ id, x.symbol = some id → arena[id]? = none → T.stop (.dangling ⟨id⟩)
  calls : ∀ f args, .call f args ∈ parts → T.line (.instr (.call f.routine))

/-- The expressions are, and the variables that get a value. -/
structure Terms.Permits (T : Terms) (arena : Arena) (es : List Expr) (vs : List Var) : Prop where
  exprs : ∀ e ∈ es, T.Admits arena e.uses e.parts
  vars : ∀ v ∈ vs, T.Admits arena [v.name] []

/-- All lines of a step are within the terms, and so is what it stops for. -/
def Gen.Meets {α : Type} (x : Gen α) (T : Terms) : Prop :=
  ∀ g, (∀ l ∈ lines (x g).code, T.line l) ∧ ∀ e, (x g).result = .error e → T.stop e

variable {T : Terms} {arena : Arena} {α β : Type}

lemma Terms.Admits.mono {names names' : List Ident} {parts parts' : List Expr}
    (h : T.Admits arena names parts) (hnames : names' ⊆ names) (hparts : parts' ⊆ parts) :
    T.Admits arena names' parts' where
  names x hx := h.names x (hnames hx)
  calls f args hf := h.calls f args (hparts hf)

lemma Terms.Permits.mono {es es' : List Expr} {vs vs' : List Var} (h : T.Permits arena es vs)
    (hes : es' ⊆ es) (hvs : vs' ⊆ vs) : T.Permits arena es' vs' where
  exprs e he := h.exprs e (hes he)
  vars v hv := h.vars v (hvs hv)

namespace Gen

variable {x : Gen α} {f : α → Gen β}

/-! ### Steps -/

lemma meets_bind (hx : x.Meets T) (hf : ∀ a, (f a).Meets T) : (x >>= f).Meets T := by
  intro g
  obtain ⟨hlines, hstop⟩ := hx g
  match hxg : x g with
  | ⟨code, g', .ok a⟩ =>
    rw [hxg] at hlines
    obtain ⟨hnext, hend⟩ := hf a g'
    rw [bind_of_ok hxg]
    refine ⟨fun l hl => ?_, hend⟩
    rw [lines_append] at hl
    exact (List.mem_append.mp hl).elim (hlines l) (hnext l)
  | ⟨code, g', .error e⟩ =>
    rw [hxg] at hlines hstop
    rw [bind_of_error hxg]
    exact ⟨hlines, fun e' he' => hstop e' (congrArg _ (Except.error.inj he'))⟩

/-- A step that writes nothing and does not stop. -/
lemma meets_silent (h : ∀ g, ∃ g' a, x g = ⟨[], g', .ok a⟩) : x.Meets T := by
  intro g
  obtain ⟨g', a, hxg⟩ := h g
  rw [hxg]
  exact ⟨nofun, nofun⟩

lemma meets_pure (a : α) : (pure a : Gen α).Meets T := meets_silent fun _ => ⟨_, _, rfl⟩

lemma meets_emit {l : Line} (hl : T.line l) : (emit l).Meets T := by
  intro g
  refine ⟨fun l' hl' => ?_, nofun⟩
  obtain rfl := List.mem_singleton.mp hl'
  exact hl

lemma meets_plain {l : Line} (hl : l.callee? = none) : (emit l).Meets T := meets_emit (T.plain l hl)

lemma meets_emitAll : (ls : List Line) → (∀ l ∈ ls, T.line l) → (emitAll ls).Meets T
  | [], _ => meets_pure ()
  | l :: rest, h => by
    obtain ⟨hl, hrest⟩ := List.forall_mem_cons.mp h
    exact meets_bind (meets_emit hl) fun _ => meets_emitAll rest hrest

lemma meets_freshLabel : freshLabel.Meets T := meets_silent fun _ => ⟨_, _, rfl⟩

lemma meets_free (r : Scratch) : (free r).Meets T := meets_silent fun _ => ⟨_, _, rfl⟩

lemma meets_setDepth (n : ℕ) : (setDepth n).Meets T := meets_silent fun _ => ⟨_, _, rfl⟩

lemma meets_depth : depth.Meets T := meets_silent fun _ => ⟨_, _, rfl⟩

lemma meets_stop (e : LoweringError) : (stop e : Gen α).Meets T := by
  intro g
  refine ⟨nofun, fun e' he' => ?_⟩
  obtain rfl := Except.error.inj he'
  exact T.error e

lemma meets_alloc : alloc.Meets T := by
  intro g
  rw [alloc]
  cases g.bank.alloc? with
  | none => exact ⟨by simp [lines], fun _ h => Except.error.inj h ▸ T.error _⟩
  | some next => exact ⟨by simp [lines], by simp⟩

lemma meets_push (r : Scratch) : (push r).Meets T := by
  refine meets_bind (meets_plain rfl) fun _ => ?_
  exact meets_bind meets_depth fun _ => meets_setDepth _

lemma meets_pad (pending : ℕ) : (pad pending).Meets T := by
  refine meets_bind meets_depth fun d => ?_
  split
  · exact meets_pure 0
  · exact meets_bind (meets_plain rfl) fun _ => meets_bind (meets_setDepth _) fun _ => meets_pure 1

lemma meets_dropWords (n : ℕ) : (dropWords n).Meets T := by
  rw [dropWords]
  split
  · exact meets_pure ()
  · exact meets_bind (meets_plain rfl) fun _ => meets_bind meets_depth fun _ => meets_setDepth _

lemma meets_saveAll (rs : List Scratch) : (saveAll rs).Meets T := by
  induction rs with
  | nil => exact meets_pure ()
  | cons r rest ih =>
    refine meets_bind (meets_push r) fun _ => ?_
    exact meets_bind (meets_free r) fun _ => ih

lemma meets_save : save.Meets T := by
  have hlive : liveRegisters.Meets T := meets_silent fun _ => ⟨_, _, rfl⟩
  exact meets_bind hlive fun rs => meets_bind (meets_saveAll rs) fun _ => meets_pure rs

lemma meets_restore : (rs : List Scratch) → (restore rs).Meets T
  | [] => meets_pure ()
  | r :: rest => by
    have hclaim : (claim r).Meets T := meets_silent fun _ => ⟨_, _, rfl⟩
    have hpop : (pop r).Meets T :=
      meets_bind (meets_plain rfl) fun _ => meets_bind meets_depth fun _ => meets_setDepth _
    exact meets_bind (meets_restore rest) fun _ => meets_bind hpop fun _ => hclaim

lemma meets_alloc_instr {i : Scratch → Instr} (hi : ∀ r, (Line.instr (i r)).callee? = none) :
    (do let r ← alloc; instr (i r); return r).Meets T := by
  refine meets_bind meets_alloc fun r => ?_
  exact meets_bind (meets_plain (hi r)) fun _ => meets_pure r

lemma meets_combine (op : BinOp) (l r : Scratch) : (combine op l r).Meets T := by
  have hback : (do free r; return l : Gen Scratch).Meets T :=
    meets_bind (meets_free r) fun _ => meets_pure l
  cases op with
  | arith op =>
    cases op with
    | add | sub | mul => exact meets_bind (meets_plain rfl) fun _ => hback
    | div =>
      refine meets_bind (meets_plain rfl) fun _ => meets_bind (meets_plain rfl) fun _ => ?_
      exact meets_bind (meets_plain rfl) fun _ => meets_bind (meets_plain rfl) fun _ => hback
  | compare rel =>
    refine meets_bind (meets_plain rfl) fun _ => ?_
    refine meets_bind (meets_free r) fun _ => meets_bind (meets_free l) fun _ => ?_
    refine meets_bind meets_alloc fun q => meets_bind meets_freshLabel fun skip => ?_
    refine meets_bind (meets_plain rfl) fun _ => meets_bind (meets_plain rfl) fun _ => ?_
    refine meets_bind (meets_plain rfl) fun _ => meets_bind (meets_plain rfl) fun _ => ?_
    exact meets_pure q

/-- The only line of a call that counts is the call itself. -/
lemma meets_callWith {pending : ℕ} {args : Gen Unit} {routine : String} (hargs : args.Meets T)
    (hcall : T.line (.instr (.call routine))) : (callWith pending args routine).Meets T := by
  refine meets_bind meets_save fun rs => meets_bind (meets_pad pending) fun n => ?_
  refine meets_bind hargs fun _ => meets_bind (meets_emit hcall) fun _ => ?_
  refine meets_bind (meets_dropWords _) fun _ => meets_bind (meets_restore rs) fun _ => ?_
  exact meets_alloc_instr fun _ => rfl

end Gen

/-! ### Names -/

namespace Ident

variable {x : Ident}

lemma meets_operand (h : T.Admits arena [x] []) : (x.operand arena).Meets T := by
  rw [operand]
  cases hx : x.symbol with
  | none => exact Gen.meets_stop _
  | some id =>
    refine Gen.meets_bind (fun g => ?_) fun symbol => ?_
    · rw [Gen.symbol, Arena.find]
      cases hid : arena[id]? with
      | none =>
        refine ⟨by simp [lines], fun e he => ?_⟩
        obtain rfl := Except.error.inj he
        exact h.names x (List.mem_singleton.mpr rfl) id hx hid
      | some symbol => exact ⟨by simp [lines], by simp⟩
    · cases symbol.locate x.offset with
      | ok o => exact Gen.meets_pure o
      | error e => exact Gen.meets_stop e

lemma meets_load (h : T.Admits arena [x] []) : (x.load arena).Meets T :=
  Gen.meets_bind (meets_operand h) fun _ => Gen.meets_alloc_instr fun _ => rfl

lemma meets_store (h : T.Admits arena [x] []) (r : Scratch) : (x.store arena r).Meets T :=
  Gen.meets_bind (meets_operand h) fun _ => Gen.meets_plain rfl

end Ident

/-! ### Expressions -/

mutual

lemma Expr.meets_lower : (e : Expr) → T.Admits arena e.uses e.parts → (e.lower arena).Meets T
  | .int _, _ | .bool true, _ | .bool false, _ => Gen.meets_alloc_instr fun _ => rfl
  | .name x, h => Ident.meets_load (h.mono (by simp [Expr.uses]) (by simp))
  | .assign x e, h => by
    have hx : T.Admits arena [x] [] := h.mono (by simp [Expr.uses]) (by simp)
    have he : T.Admits arena e.uses e.parts :=
      h.mono (by simp [Expr.uses]) (by simp [Expr.parts])
    refine Gen.meets_bind (e.meets_lower he) fun r => ?_
    exact Gen.meets_bind (Ident.meets_store hx r) fun _ => Gen.meets_pure r
  | .binary op l r, h => by
    have hl : T.Admits arena l.uses l.parts :=
      h.mono (by simp [Expr.uses]) (by simp [Expr.parts])
    have hr : T.Admits arena r.uses r.parts :=
      h.mono (by simp [Expr.uses]) (by simp [Expr.parts])
    refine Gen.meets_bind (l.meets_lower hl) fun a => ?_
    exact Gen.meets_bind (r.meets_lower hr) fun b => Gen.meets_combine op a b
  | .call f args, h => by
    have hargs : T.Admits arena (Expr.usesAll args) (Expr.partsAll args) :=
      h.mono (by simp [Expr.uses]) (by simp [Expr.parts])
    rw [Expr.lower_call]
    refine Gen.meets_callWith ?_ (h.calls f args (List.mem_cons_self ..))
    have hprinted := Expr.meets_printed args hargs
    have hpushed := Expr.meets_args args hargs
    exact Ident.pass_cases (P := fun x _ => x.Meets T) f hprinted hpushed
termination_by structural e => e

lemma Expr.meets_args : (es : List Expr) → T.Admits arena (Expr.usesAll es) (Expr.partsAll es) →
    (Expr.lowerArgs arena es).Meets T
  | [], _ => Gen.meets_pure ()
  | e :: rest, h => by
    have he := h.mono (List.subset_append_left _ _) (List.subset_append_left _ _)
    have hrest := h.mono (List.subset_append_right _ _) (List.subset_append_right _ _)
    refine Gen.meets_bind (Expr.meets_args rest hrest) fun _ => ?_
    refine Gen.meets_bind (e.meets_lower he) fun r => ?_
    exact Gen.meets_bind (Gen.meets_push r) fun _ => Gen.meets_free r
termination_by structural es => es

lemma Expr.meets_printed : (es : List Expr) →
    T.Admits arena (Expr.usesAll es) (Expr.partsAll es) → (Expr.lowerPrinted arena es).Meets T
  | [], _ => Gen.meets_pure ()
  | e :: rest, h => by
    have he := h.mono (List.subset_append_left _ _) (List.subset_append_left _ _)
    have hrest := h.mono (List.subset_append_right _ _) (List.subset_append_right _ _)
    refine Gen.meets_bind (e.meets_lower he) fun r => ?_
    refine Gen.meets_bind (Gen.meets_plain rfl) fun _ => ?_
    exact Gen.meets_bind (Gen.meets_free r) fun _ => Expr.meets_printed rest hrest
termination_by structural es => es

end

section

variable {e : Expr}

lemma Expr.meets_dropped (h : T.Admits arena e.uses e.parts) : (e.lowerDropped arena).Meets T :=
  Gen.meets_bind (e.meets_lower h) fun r => Gen.meets_free r

lemma Expr.meets_step (e : Option Expr) (h : ∀ e' ∈ e.toList, T.Admits arena e'.uses e'.parts) :
    (Expr.lowerStep arena e).Meets T := by
  cases e with
  | none => exact Gen.meets_pure ()
  | some e => exact Expr.meets_dropped (h e (List.mem_singleton.mpr rfl))

lemma Expr.meets_test (h : T.Admits arena e.uses e.parts) (l : Label) :
    (e.lowerTest arena l).Meets T := by
  refine Gen.meets_bind (e.meets_lower h) fun r => ?_
  refine Gen.meets_bind (Gen.meets_plain rfl) fun _ => ?_
  exact Gen.meets_bind (Gen.meets_plain rfl) fun _ => Gen.meets_free r

lemma Expr.meets_returned (e : Option Expr)
    (h : ∀ e' ∈ e.toList, T.Admits arena e'.uses e'.parts) :
    (Expr.lowerReturned arena e).Meets T := by
  cases e with
  | none => exact Gen.meets_plain rfl
  | some e =>
    have hvalue := e.meets_lower (h e (List.mem_singleton.mpr rfl))
    refine Gen.meets_bind hvalue fun r => ?_
    exact Gen.meets_bind (Gen.meets_plain rfl) fun _ => Gen.meets_free r

end

/-! ### Statements -/

lemma Var.meets_lower {v : Var} (h : T.Permits arena v.exprs [v]) : (v.lower arena).Meets T := by
  have hname := h.vars v (List.mem_singleton.mpr rfl)
  have hexprs := h.exprs
  rw [Var.exprs] at hexprs
  rw [Var.lower]
  cases hv : v.value with
  | none => exact Gen.meets_pure ()
  | some e =>
    have he := hexprs e (by simp [hv])
    refine Gen.meets_bind (e.meets_lower he) fun r => ?_
    exact Gen.meets_bind (Ident.meets_store hname r) fun _ => Gen.meets_free r

lemma Var.meets_lowerAll : (vs : List Var) → T.Permits arena (vs.flatMap Var.exprs) vs →
    (Var.lowerAll arena vs).Meets T
  | [], _ => Gen.meets_pure ()
  | v :: rest, h => by
    have hv : T.Permits arena v.exprs [v] := h.mono (by simp) (by simp)
    have hrest : T.Permits arena (rest.flatMap Var.exprs) rest := h.mono (by simp) (by simp)
    exact Gen.meets_bind (Var.meets_lower hv) fun _ => Var.meets_lowerAll rest hrest

lemma Decl.meets_lower {d : Decl} (h : T.Permits arena d.exprs d.vars) :
    (d.lower arena).Meets T := by
  cases d with
  | globalVar v | localVar v =>
    exact Var.meets_lower (h.mono (by simp [Decl.exprs, Decl.vars]) (by simp [Decl.vars]))
  | function f => exact Gen.meets_pure ()

lemma Decl.meets_option (d : Option Decl)
    (h : T.Permits arena (Decl.exprsOption d) (Decl.varsOption d)) :
    (Decl.lowerOption arena d).Meets T := by
  cases d with
  | none => exact Gen.meets_pure ()
  | some d => exact Decl.meets_lower h

/-- A loop, from its body. -/
lemma meets_labelled {c : Expr} {body : List Stmt} {exit : Label} (step : Option Expr)
    (hc : T.Admits arena c.uses c.parts)
    (hstep : ∀ e ∈ step.toList, T.Admits arena e.uses e.parts)
    (hbody : (Stmt.lowerAll arena exit body).Meets T) :
    (lowerLabelled arena exit c step body).Meets T := by
  refine Gen.meets_bind Gen.meets_freshLabel fun top => ?_
  refine Gen.meets_bind Gen.meets_freshLabel fun bottom => ?_
  refine Gen.meets_bind (Gen.meets_plain rfl) fun _ => ?_
  refine Gen.meets_bind (Expr.meets_test hc bottom) fun _ => ?_
  refine Gen.meets_bind hbody fun _ => ?_
  refine Gen.meets_bind (Expr.meets_step step hstep) fun _ => ?_
  exact Gen.meets_bind (Gen.meets_plain rfl) fun _ => Gen.meets_plain rfl

mutual

lemma Stmt.meets_lower (exit : Label) : (s : Stmt) → T.Permits arena s.exprs s.vars →
    (s.lower arena exit).Meets T
  | .expr e, h => Expr.meets_dropped (h.exprs e (List.mem_singleton.mpr rfl))
  | .decl _, h => Decl.meets_lower h
  | .ret value, h => by
    have hvalue := Expr.meets_returned value h.exprs
    exact Gen.meets_bind hvalue fun _ => Gen.meets_plain rfl
  | .cond b, h => by
    refine Gen.meets_bind Gen.meets_freshLabel fun stop => ?_
    have hbranch := b.meets_lower exit stop h
    exact Gen.meets_bind hbranch fun _ => Gen.meets_plain rfl
  | .whileLoop c body, h => by
    rw [Stmt.lower_while]
    have hbody : T.Permits arena (Stmt.exprsAll body) (Stmt.varsAll body) :=
      h.mono (by simp [Stmt.exprs]) (by simp [Stmt.vars])
    have hc := h.exprs c (List.mem_cons_self ..)
    exact meets_labelled none hc nofun (Stmt.meets_lowerAll exit body hbody)
  | .forLoop start c step body, h => by
    rw [Stmt.lower_for]
    have hstart : T.Permits arena (Decl.exprsOption start) (Decl.varsOption start) :=
      h.mono (by simp [Stmt.exprs]) (by simp [Stmt.vars])
    have hbody : T.Permits arena (Stmt.exprsAll body) (Stmt.varsAll body) :=
      h.mono (fun e he => by simp [Stmt.exprs, he]) (by simp [Stmt.vars])
    have hc := h.exprs c (by simp [Stmt.exprs])
    have hstep : ∀ e ∈ step.toList, T.Admits arena e.uses e.parts :=
      fun e he => h.exprs e (by rw [Stmt.exprs]; simp [he])
    have hloop := meets_labelled step hc hstep (Stmt.meets_lowerAll exit body hbody)
    exact Gen.meets_bind (Decl.meets_option start hstart) fun _ => hloop
termination_by structural s => s

lemma Stmt.meets_lowerAll (exit : Label) : (ss : List Stmt) →
    T.Permits arena (Stmt.exprsAll ss) (Stmt.varsAll ss) → (Stmt.lowerAll arena exit ss).Meets T
  | [], _ => Gen.meets_pure ()
  | s :: rest, h => by
    have hs := h.mono (List.subset_append_left _ _) (List.subset_append_left _ _)
    have hrest := h.mono (List.subset_append_right _ _) (List.subset_append_right _ _)
    exact Gen.meets_bind (s.meets_lower exit hs) fun _ => Stmt.meets_lowerAll exit rest hrest
termination_by structural ss => ss

lemma Branch.meets_lower (exit stop : Label) : (b : Branch) → T.Permits arena b.exprs b.vars →
    (b.lower arena exit stop).Meets T
  | ⟨c, body, tail⟩, h => by
    have hc := h.exprs c (List.mem_cons_self ..)
    have hbody := Stmt.meets_lowerAll exit body (h.mono
      (by simp [Branch.exprs]) (by simp [Branch.vars]))
    have htail := tail.meets_lower exit stop (h.mono
      (by simp [Branch.exprs]) (by simp [Branch.vars]))
    by_cases hdone : tail = .done
    · subst hdone
      rw [Branch.lower]
      refine Gen.meets_bind (Expr.meets_test hc stop) fun _ => ?_
      exact Gen.meets_bind hbody fun _ => Gen.meets_plain rfl
    · rw [Branch.lower_next hdone]
      refine Gen.meets_bind Gen.meets_freshLabel fun skip => ?_
      refine Gen.meets_bind (Expr.meets_test hc skip) fun _ => ?_
      refine Gen.meets_bind hbody fun _ => ?_
      refine Gen.meets_bind (Gen.meets_plain rfl) fun _ => ?_
      exact Gen.meets_bind (Gen.meets_plain rfl) fun _ => htail
termination_by structural b => b

lemma Tail.meets_lower (exit stop : Label) : (t : Tail) → T.Permits arena t.exprs t.vars →
    (t.lower arena exit stop).Meets T
  | .done, _ => Gen.meets_pure ()
  | .elseIf next, h => next.meets_lower exit stop h
  | .otherwise last, h => by
    have hlast := Stmt.meets_lowerAll exit last h
    exact Gen.meets_bind hlast fun _ => Gen.meets_plain rfl
termination_by structural t => t

end

/-! ### Programs -/

lemma FunDecl.meets_lower {globals : List Var} {f : FunDecl}
    (h : T.Permits arena (f.generated globals) (f.initialized globals)) :
    (f.lower arena globals).Meets T := by
  have hopen : callees (.blank :: .routine (functionSymbol f.name.name) ::
      openFrame f.frameSize) = [] := by
    rw [openFrame]
    split <;> rfl
  have hclose : ∀ exit, ∀ l ∈ f.fallsOff ++ .label exit :: f.epilogue, T.line l := by
    intro exit
    have hout : callees (f.fallsOff ++ .label exit :: closeFrame f.frameSize) = [] := by
      rw [fallsOff, closeFrame]
      split <;> split <;> rfl
    have hleave : ∀ l ∈ if f.isEntry then leaveProcess else [.instr .ret], T.line l := by
      split
      · exact fun l hl => T.runtime l (List.mem_append_right _ hl)
      · exact T.line_of_callees rfl
    rw [epilogue, ← List.cons_append, ← List.append_assoc]
    exact List.forall_mem_append.mpr ⟨T.line_of_callees hout, hleave⟩
  have hpreset := h.mono (List.subset_append_left _ _) (List.subset_append_left _ _)
  have hbody := h.mono (List.subset_append_right _ _) (List.subset_append_right _ _)
  rw [FunDecl.lower_eq]
  refine Gen.meets_bind (Gen.meets_emitAll _ (T.line_of_callees hopen)) fun _ => ?_
  refine Gen.meets_bind Gen.meets_freshLabel fun exit => ?_
  refine Gen.meets_bind (Gen.meets_setDepth 0) fun _ => ?_
  refine Gen.meets_bind (Var.meets_lowerAll _ hpreset) fun _ => ?_
  refine Gen.meets_bind (Stmt.meets_lowerAll exit f.body hbody) fun _ => ?_
  exact Gen.meets_emitAll _ (hclose exit)

lemma FunDecl.meets_lowerAll {globals : List Var} : (fs : List FunDecl) →
    (∀ f ∈ fs, T.Permits arena (f.generated globals) (f.initialized globals)) →
    (FunDecl.lowerAll arena globals fs).Meets T
  | [], _ => Gen.meets_pure ()
  | f :: rest, h => by
    obtain ⟨hf, hrest⟩ := List.forall_mem_cons.mp h
    exact Gen.meets_bind (FunDecl.meets_lower hf) fun _ => FunDecl.meets_lowerAll rest hrest

lemma callees_reserveLines (arena : Arena) : callees (reserveLines arena) = [] := by
  rw [reserveLines]
  split
  · rfl
  · rw [callees, List.filterMap_append, List.filterMap_map]
    exact List.filterMap_eq_nil_iff.mpr fun _ _ => rfl

/-- **Contents**: the code of a program is within the terms if its calls and its names are. -/
theorem Program.meets_lower {p : Program} (h : ∀ f ∈ p.functions,
    T.Permits arena (f.generated p.globals) (f.initialized p.globals)) :
    (p.lower arena).Meets T := by
  have hruntime := Gen.meets_emitAll _ fun l hl => T.runtime l (List.mem_append_left _ hl)
  have hreserve := Gen.meets_emitAll _ (T.line_of_callees (callees_reserveLines arena))
  refine Gen.meets_bind hruntime fun _ => ?_
  refine Gen.meets_bind (FunDecl.meets_lowerAll _ h) fun _ => ?_
  refine Gen.meets_bind hreserve fun _ => ?_
  exact Gen.meets_emitAll _ (T.line_of_callees rfl)

end TreeCompiler

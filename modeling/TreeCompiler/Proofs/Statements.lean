import TreeCompiler.Lowering.Stmt
import TreeCompiler.Proofs.Labels

/-!
The code of statements, construct by construct, and the labels in it.

What each construct writes is said once here, in terms of the code of its parts. A loop is
the same code for `while` and `for`, once its top label is passed; a chain of branches goes on
behind the label of its next branch.
-/

namespace TreeCompiler

variable {arena : Arena} {exit stop : Label} {g g' : GenState} {text : List Line} {u : Unit}

/-! ### What is written -/

lemma Expr.yields_test {c : Expr} {l : Label} (h : (c.lowerTest arena l).Yields g text g' u) :
    ∃ t g₁ r, (c.lower arena).Yields g t g₁ r ∧ g' = { g₁ with bank := g₁.bank.free r } ∧
      text = t ++ [.instr (.compareOne r), .instr (.jumpIf .ne l)] := by
  obtain ⟨t, g₁, r, _, hc, htest, rfl⟩ := Gen.yields_bind.mp h
  obtain ⟨_, hjump, rfl⟩ := Gen.yields_instr_bind.mp htest
  obtain ⟨_, hfree, rfl⟩ := Gen.yields_instr_bind.mp hjump
  obtain ⟨rfl, rfl⟩ := Gen.yields_free.mp hfree
  exact ⟨t, g₁, r, hc, rfl, rfl⟩

lemma Expr.yields_dropped {e : Expr} (h : (e.lowerDropped arena).Yields g text g' u) :
    ∃ g₁ r, (e.lower arena).Yields g text g₁ r ∧ g' = { g₁ with bank := g₁.bank.free r } := by
  obtain ⟨t, g₁, r, _, he, hfree, rfl⟩ := Gen.yields_bind.mp h
  obtain ⟨rfl, rfl⟩ := Gen.yields_free.mp hfree
  exact ⟨g₁, r, by simpa using he, rfl⟩

lemma Expr.yields_returned {e : Expr}
    (h : (Expr.lowerReturned arena (some e)).Yields g text g' u) :
    ∃ t g₁ r, (e.lower arena).Yields g t g₁ r ∧ g' = { g₁ with bank := g₁.bank.free r } ∧
      text = t ++ [.instr (.move .rax (.scratch r))] := by
  obtain ⟨t, g₁, r, _, he, hmove, rfl⟩ := Gen.yields_bind.mp h
  obtain ⟨_, hfree, rfl⟩ := Gen.yields_instr_bind.mp hmove
  obtain ⟨rfl, rfl⟩ := Gen.yields_free.mp hfree
  exact ⟨t, g₁, r, he, rfl, rfl⟩

lemma Var.yields_none {v : Var} (hv : v.value = none) (h : (v.lower arena).Yields g text g' u) :
    text = [] ∧ g' = g := by
  rw [lower, hv] at h
  obtain ⟨rfl, rfl, -⟩ := Gen.yields_pure.mp h
  exact ⟨rfl, rfl⟩

lemma Var.yields_some {v : Var} {e : Expr} (hv : v.value = some e)
    (h : (v.lower arena).Yields g text g' u) :
    ∃ t g₁ r o, (e.lower arena).Yields g t g₁ r ∧ v.name.place? arena = some o ∧
      g' = { g₁ with bank := g₁.bank.free r } ∧ text = t ++ [.instr (.store o r)] := by
  rw [lower, hv] at h
  obtain ⟨t, g₁, r, _, he, hstored, rfl⟩ := Gen.yields_bind.mp h
  obtain ⟨_, _, _, _, hstore, hfree, rfl⟩ := Gen.yields_bind.mp hstored
  obtain ⟨o, ho, rfl, rfl⟩ := Ident.yields_store.mp hstore
  obtain ⟨rfl, rfl⟩ := Gen.yields_free.mp hfree
  exact ⟨t, _, r, o, he, ho, rfl, rfl⟩

lemma Stmt.yields_ret {value : Option Expr}
    (h : ((Stmt.ret value).lower arena exit).Yields g text g' u) :
    ∃ t, (Expr.lowerReturned arena value).Yields g t g' () ∧ text = t ++ [.instr (.jump exit)] := by
  obtain ⟨t, g₁, _, _, hvalue, hjump, rfl⟩ := Gen.yields_bind.mp h
  obtain ⟨rfl, rfl⟩ := Gen.yields_instr.mp hjump
  exact ⟨t, hvalue, rfl⟩

lemma Stmt.yields_cond {b : Branch} (h : ((Stmt.cond b).lower arena exit).Yields g text g' u) :
    ∃ t, (b.lower arena exit ⟨g.labels⟩).Yields { g with labels := g.labels + 1 } t g' () ∧
      text = t ++ [.label ⟨g.labels⟩] := by
  rw [Stmt.lower, Gen.yields_freshLabel_bind] at h
  obtain ⟨t, g₁, _, _, hb, hlabel, rfl⟩ := Gen.yields_bind.mp h
  obtain ⟨rfl, rfl⟩ := Gen.yields_emit.mp hlabel
  exact ⟨t, hb, rfl⟩

/-- A loop behind its top label. -/
def lowerLoop (arena : Arena) (exit top bottom : Label) (c : Expr) (step : Option Expr)
    (body : List Stmt) : Gen Unit := do
  c.lowerTest arena bottom
  Stmt.lowerAll arena exit body
  Expr.lowerStep arena step
  Gen.instr (.jump top)
  Gen.emit (.label bottom)

lemma yields_loop {c : Expr} {step : Option Expr} {body : List Stmt} {top bottom : Label}
    (h : (lowerLoop arena exit top bottom c step body).Yields g text g' u) :
    ∃ t₁ g₁ t₂ g₂ t₃, (c.lowerTest arena bottom).Yields g t₁ g₁ () ∧
      (Stmt.lowerAll arena exit body).Yields g₁ t₂ g₂ () ∧
      (Expr.lowerStep arena step).Yields g₂ t₃ g' () ∧
      text = t₁ ++ (t₂ ++ (t₃ ++ [.instr (.jump top), .label bottom])) := by
  obtain ⟨t₁, g₁, _, _, htest, htested, rfl⟩ := Gen.yields_bind.mp h
  obtain ⟨t₂, g₂, _, _, hbody, hrest, rfl⟩ := Gen.yields_bind.mp htested
  obtain ⟨t₃, g₃, _, _, hstep, hjump, rfl⟩ := Gen.yields_bind.mp hrest
  obtain ⟨_, hlabel, rfl⟩ := Gen.yields_instr_bind.mp hjump
  obtain ⟨rfl, rfl⟩ := Gen.yields_emit.mp hlabel
  exact ⟨t₁, g₁, t₂, g₂, t₃, htest, hbody, hstep, rfl⟩

/-- A loop with its labels, the first of them on top. -/
def lowerLabelled (arena : Arena) (exit : Label) (c : Expr) (step : Option Expr)
    (body : List Stmt) : Gen Unit := do
  let top ← Gen.freshLabel
  let bottom ← Gen.freshLabel
  Gen.emit (.label top)
  lowerLoop arena exit top bottom c step body

lemma Stmt.lower_while (c : Expr) (body : List Stmt) :
    (Stmt.whileLoop c body).lower arena exit = lowerLabelled arena exit c none body := by
  simp [Stmt.lower, lowerLabelled, lowerLoop, Expr.lowerStep]

lemma Stmt.lower_for (start : Option Decl) (c : Expr) (step : Option Expr) (body : List Stmt) :
    (Stmt.forLoop start c step body).lower arena exit = (do
      Decl.lowerOption arena start
      lowerLabelled arena exit c step body) := rfl

lemma yields_labelled {c : Expr} {step : Option Expr} {body : List Stmt}
    (h : (lowerLabelled arena exit c step body).Yields g text g' u) :
    ∃ t, (lowerLoop arena exit ⟨g.labels⟩ ⟨g.labels + 1⟩ c step body).Yields
        { g with labels := g.labels + 2 } t g' () ∧
      text = .label ⟨g.labels⟩ :: t := by
  rw [lowerLabelled, Gen.yields_freshLabel_bind, Gen.yields_freshLabel_bind,
    Gen.yields_emit_bind] at h
  exact h

/-- What follows the first branch of a chain. -/
def Tail.lower (arena : Arena) (exit stop : Label) : Tail → Gen Unit
  | .done => pure ()
  | .elseIf next => next.lower arena exit stop
  | .otherwise last => do
    Stmt.lowerAll arena exit last
    Gen.instr (.jump stop)

/-- The last branch of a chain without a final block. -/
lemma Branch.yields_done {c : Expr} {body : List Stmt}
    (h : (Branch.lower arena exit stop ⟨c, body, .done⟩).Yields g text g' u) :
    ∃ t₁ g₁ t₂, (c.lowerTest arena stop).Yields g t₁ g₁ () ∧
      (Stmt.lowerAll arena exit body).Yields g₁ t₂ g' () ∧
      text = t₁ ++ (t₂ ++ [.instr (.jump stop)]) := by
  rw [Branch.lower] at h
  obtain ⟨t₁, g₁, _, _, htest, hrest, rfl⟩ := Gen.yields_bind.mp h
  obtain ⟨t₂, g₂, _, _, hbody, hjump, rfl⟩ := Gen.yields_bind.mp hrest
  obtain ⟨rfl, rfl⟩ := Gen.yields_instr.mp hjump
  exact ⟨t₁, g₁, t₂, htest, hbody, rfl⟩

/-- A branch that something follows. -/
lemma Branch.yields_next {c : Expr} {body : List Stmt} {tail : Tail}
    (h : (Branch.lower arena exit stop ⟨c, body, tail⟩).Yields g text g' u) (htail : tail ≠ .done) :
    ∃ t₁ g₁ t₂ g₂ t₃,
      (c.lowerTest arena ⟨g.labels⟩).Yields { g with labels := g.labels + 1 } t₁ g₁ () ∧
      (Stmt.lowerAll arena exit body).Yields g₁ t₂ g₂ () ∧
      (tail.lower arena exit stop).Yields g₂ t₃ g' () ∧
      text = t₁ ++ (t₂ ++ .instr (.jump stop) :: .label ⟨g.labels⟩ :: t₃) := by
  cases tail with
  | done => exact absurd rfl htail
  | elseIf next | otherwise last =>
    rw [Branch.lower, Gen.yields_freshLabel_bind] at h
    obtain ⟨t₁, g₁, _, _, htest, htested, rfl⟩ := Gen.yields_bind.mp h
    obtain ⟨t₂, g₂, _, _, hbody, hjump, rfl⟩ := Gen.yields_bind.mp htested
    obtain ⟨_, hlabel, rfl⟩ := Gen.yields_instr_bind.mp hjump
    obtain ⟨t₃, hrest, rfl⟩ := Gen.yields_emit_bind.mp hlabel
    exact ⟨t₁, g₁, t₂, g₂, t₃, htest, hbody, hrest, rfl⟩

/-! ### Labels -/

lemma Expr.fresh_test {c : Expr} {l : Label} (h : (c.lowerTest arena l).Yields g text g' u) :
    Fresh g text g' := by
  obtain ⟨t, g₁, r, hc, rfl, rfl⟩ := Expr.yields_test h
  exact ((c.fresh hc).append_silent (by simp)).congr rfl rfl

lemma Expr.fresh_dropped {e : Expr} (h : (e.lowerDropped arena).Yields g text g' u) :
    Fresh g text g' := by
  obtain ⟨g₁, r, he, rfl⟩ := Expr.yields_dropped h
  exact (e.fresh he).congr rfl rfl

lemma Expr.fresh_step {e : Option Expr} (h : (Expr.lowerStep arena e).Yields g text g' u) :
    Fresh g text g' := by
  cases e with
  | none =>
    obtain ⟨rfl, rfl, -⟩ := Gen.yields_pure.mp h
    exact .silent rfl (by simp)
  | some e => exact Expr.fresh_dropped h

lemma Expr.fresh_returned {e : Option Expr} (h : (Expr.lowerReturned arena e).Yields g text g' u) :
    Fresh g text g' := by
  cases e with
  | none =>
    obtain ⟨rfl, rfl⟩ := Gen.yields_instr.mp h
    exact .silent rfl (by simp)
  | some e =>
    obtain ⟨t, g₁, r, he, rfl, rfl⟩ := Expr.yields_returned h
    exact ((e.fresh he).append_silent (by simp)).congr rfl rfl

lemma Var.fresh {v : Var} (h : (v.lower arena).Yields g text g' u) : Fresh g text g' := by
  cases hv : v.value with
  | none =>
    obtain ⟨rfl, rfl⟩ := Var.yields_none hv h
    exact .silent rfl (by simp)
  | some e =>
    obtain ⟨t, g₁, r, o, he, -, rfl, rfl⟩ := Var.yields_some hv h
    exact ((e.fresh he).append_silent (by simp)).congr rfl rfl

lemma Decl.fresh {d : Decl} (h : (d.lower arena).Yields g text g' u) : Fresh g text g' := by
  cases d with
  | globalVar v | localVar v => exact Var.fresh h
  | function f =>
    obtain ⟨rfl, rfl, -⟩ := Gen.yields_pure.mp h
    exact .silent rfl (by simp)

lemma Decl.fresh_option {d : Option Decl} (h : (Decl.lowerOption arena d).Yields g text g' u) :
    Fresh g text g' := by
  cases d with
  | none =>
    obtain ⟨rfl, rfl, -⟩ := Gen.yields_pure.mp h
    exact .silent rfl (by simp)
  | some d => exact Decl.fresh h

/-- A loop places its two labels around code with labels of its own. -/
lemma fresh_labelled {c : Expr} {step : Option Expr} {body : List Stmt}
    (hbody : ∀ {g g' : GenState} {text : List Line},
      (Stmt.lowerAll arena exit body).Yields g text g' () → Fresh g text g')
    (h : (lowerLabelled arena exit c step body).Yields g text g' u) : Fresh g text g' := by
  obtain ⟨_, hloop, rfl⟩ := yields_labelled h
  obtain ⟨t₁, g₁, t₂, g₂, t₃, htest, hlist, hstep, rfl⟩ := yields_loop hloop
  have hinner := (Expr.fresh_test htest).append ((hbody hlist).append (Expr.fresh_step hstep))
  have hjump := hinner.append_silent (u := [.instr (.jump ⟨g.labels⟩)]) (by simp)
  have hbottom : Fresh { g with labels := g.labels + 1 } _ g' :=
    Fresh.place (u := []) (by simpa using hjump) rfl
  simpa using Fresh.place (t := []) (k := { g with labels := g.labels + 1 }) hbottom rfl

/-- A branch places one label in front of what follows it. -/
lemma fresh_skip {g₁ g₂ : GenState} {t₁ t₂ t₃ : List Line}
    (htest : Fresh { g with labels := g.labels + 1 } t₁ g₁) (hbody : Fresh g₁ t₂ g₂)
    (hnext : Fresh g₂ t₃ g') :
    Fresh g (t₁ ++ (t₂ ++ .instr (.jump stop) :: .label ⟨g.labels⟩ :: t₃)) g' := by
  have hjump := hbody.append_silent (u := [.instr (.jump stop)]) (by simp)
  have hall := (htest.append hjump).append hnext
  simpa using hall.place rfl

mutual

/-- A statement places labels of its own. -/
theorem Stmt.fresh : (s : Stmt) → ∀ {g g' : GenState} {text : List Line} {u : Unit},
    (s.lower arena exit).Yields g text g' u → Fresh g text g'
  | .expr _, _, _, _, _, h => Expr.fresh_dropped h
  | .decl _, _, _, _, _, h => Decl.fresh h
  | .ret _, _, _, _, _, h => by
    obtain ⟨t, hvalue, rfl⟩ := Stmt.yields_ret h
    exact (Expr.fresh_returned hvalue).append_silent (by simp)
  | .cond b, g, _, _, _, h => by
    obtain ⟨t, hb, rfl⟩ := Stmt.yields_cond h
    exact Fresh.place (u := []) (by simpa using b.fresh hb) rfl
  | .whileLoop c body, _, _, _, _, h => by
    rw [Stmt.lower_while] at h
    exact fresh_labelled (Stmt.freshAll body) h
  | .forLoop start c step body, _, _, _, _, h => by
    rw [Stmt.lower_for] at h
    obtain ⟨_, _, _, _, hstart, hloop, rfl⟩ := Gen.yields_bind.mp h
    exact (Decl.fresh_option hstart).append (fresh_labelled (Stmt.freshAll body) hloop)
termination_by structural s => s

theorem Stmt.freshAll : (ss : List Stmt) → ∀ {g g' : GenState} {text : List Line} {u : Unit},
    (Stmt.lowerAll arena exit ss).Yields g text g' u → Fresh g text g'
  | [], _, _, _, _, h => by
    obtain ⟨rfl, rfl, -⟩ := Gen.yields_pure.mp h
    exact .silent rfl (by simp)
  | s :: rest, _, _, _, _, h => by
    obtain ⟨_, _, _, _, hs, hrest, rfl⟩ := Gen.yields_bind.mp h
    exact (s.fresh hs).append (Stmt.freshAll rest hrest)
termination_by structural ss => ss

theorem Branch.fresh : (b : Branch) → ∀ {stop : Label} {g g' : GenState} {text : List Line}
    {u : Unit}, (b.lower arena exit stop).Yields g text g' u → Fresh g text g'
  | ⟨c, body, .done⟩, _, _, _, _, _, h => by
    obtain ⟨t₁, g₁, t₂, htest, hbody, rfl⟩ := Branch.yields_done h
    exact (Expr.fresh_test htest).append ((Stmt.freshAll body hbody).append_silent (by simp))
  | ⟨c, body, .elseIf next⟩, _, _, _, _, _, h => by
    obtain ⟨t₁, g₁, t₂, g₂, t₃, htest, hbody, hnext, rfl⟩ := Branch.yields_next h nofun
    exact fresh_skip (Expr.fresh_test htest) (Stmt.freshAll body hbody) (next.fresh hnext)
  | ⟨c, body, .otherwise last⟩, _, _, _, _, _, h => by
    obtain ⟨t₁, g₁, t₂, g₂, t₃, htest, hbody, hrest, rfl⟩ := Branch.yields_next h nofun
    obtain ⟨_, _, _, _, hlast, hjump, rfl⟩ := Gen.yields_bind.mp hrest
    obtain ⟨rfl, rfl⟩ := Gen.yields_instr.mp hjump
    exact fresh_skip (Expr.fresh_test htest) (Stmt.freshAll body hbody)
      ((Stmt.freshAll last hlast).append_silent (by simp))
termination_by structural b => b

end

end TreeCompiler

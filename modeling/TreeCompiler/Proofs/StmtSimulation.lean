import TreeCompiler.Proofs.ExprSimulation
import TreeCompiler.Proofs.Generated
import TreeCompiler.Proofs.Statements

/-!
The code of a statement does what the statement does.

`Carries` relates two places in the text: from the first, with one memory, control comes to
the second with another memory, or it leaves for the exit of the function with the returned
word. It composes like the code does. The main induction is on the run of the statement, since
a loop may pass through its text any number of times.
-/

namespace TreeCompiler

namespace Host

variable {h : Host} {after rest text : List Line} {M M' N : Machine} {m m₁ m' : Memory}
  {o : Ending} {v : Word} {g g' : GenState}

/-- The code ran through, and both pointers are as before. -/
structure Completes (h : Host) (M : Machine) (rest : List Line) (m : Memory) (M' : Machine) :
    Prop extends h.Passes M.rsp M rest m M' where
  rsp : M'.rsp = M.rsp

lemma Completes.trans (h₁ : h.Completes M text m N) (h₂ : h.Completes N rest m' M') :
    h.Completes M rest m' M' := by
  have hpasses := h₂.toPasses
  rw [h₁.rsp] at hpasses
  exact ⟨h₁.toPasses.trans hpasses, h₂.rsp.trans h₁.rsp⟩

lemma completes_refl (ht : M.text = text) (hm : M.view h.env.frame = m) :
    h.Completes M text m M := ⟨⟨.refl, ht, rfl, fun _ _ _ => rfl, hm⟩, rfl⟩

/-- Code that writes no memory and keeps both pointers may follow. -/
lemma Completes.next (hN : h.Completes M text m N) (hreach : h.Reaches N M')
    (htext : M'.text = rest) (hrsp : M'.rsp = N.rsp) (hrbp : M'.rbp = N.rbp)
    (hmem : M'.mem = N.mem) : h.Completes M rest m M' := by
  have hpass : h.Passes N.rsp N rest _ M' := passes_of_mem_eq hreach htext hrbp hmem
  rw [hN.view] at hpass
  exact hN.trans ⟨hpass, hrsp⟩

/-- Control is behind the code, or with a result at the exit. -/
def Ends (h : Host) (after : List Line) (M : Machine) (rest : List Line) (o : Ending)
    (m : Memory) (M' : Machine) : Prop :=
  match o with
  | .normal => h.Completes M rest m M'
  | .returned v => h.Completes M after m M' ∧ M'.rax = v

/-- From `text`, with the memory `m`, control comes to `rest` with the memory `m'`, or returns. -/
def Carries (h : Host) (after : List Line) (m : Memory) (o : Ending) (m' : Memory)
    (text rest : List Line) : Prop :=
  ∀ M : Machine, M.text = text → M.rsp ≤ M.rbp - h.env.frame → M.view h.env.frame = m →
    ∃ M', h.Ends after M rest o m' M'

lemma carries_refl : h.Carries after m .normal m rest rest := fun M ht _ hm =>
  ⟨M, completes_refl ht hm⟩

lemma Carries.trans {mid : List Line} (h₁ : h.Carries after m .normal m₁ text mid)
    (h₂ : h.Carries after m₁ o m' mid rest) : h.Carries after m o m' text rest := by
  intro M ht hsp hm
  obtain ⟨N, hN⟩ := h₁ M ht hsp hm
  obtain ⟨M', hM'⟩ := h₂ N hN.text (by rw [hN.rsp, hN.rbp]; exact hsp) hN.view
  refine ⟨M', ?_⟩
  cases o with
  | normal => exact hN.trans hM'
  | returned v => exact ⟨hN.trans hM'.1, hM'.2⟩

/-- Where control would have gone does not matter to a `return`. -/
lemma Carries.leave {other : List Line} (hc : h.Carries after m (.returned v) m' text rest) :
    h.Carries after m (.returned v) m' text other := hc

/-! ### Parts without statements -/

/-- The value of an expression is in its register behind its code. -/
lemma completes_expr {e : Expr} {r : Scratch} (he : e.Ready h.env.arena h.env.frame)
    (hy : (e.lower h.env.arena).Yields g text g' r) (hosts : h.Hosts text rest)
    (heval : e.eval h.env m = some (v, m')) (ht : M.text = text ++ rest)
    (hsp : M.rsp ≤ M.rbp - h.env.frame) (hm : M.view h.env.frame = m) :
    ∃ M', h.Completes M rest m' M' ∧ M'.scratch r = v := by
  obtain ⟨M', hM'⟩ := e.simulates he hy hosts ht hsp (by rw [hm]; exact heval)
  exact ⟨M', ⟨hM'.toPasses, hM'.rsp⟩, hM'.value⟩

lemma carries_jump {l : Label} (hl : textBehind l h.unit = some rest) :
    h.Carries after m .normal m (.instr (.jump l) :: text) rest := by
  intro M ht _ hm
  have hstep : h.exec { M with text } (.jump l) = some { M with text := rest } := by
    simp [exec, jump, hl]
  exact ⟨_, (completes_refl ht hm).next (reaches_instr ht hstep) rfl rfl rfl rfl⟩

lemma carries_label {l : Label} : h.Carries after m .normal m (.label l :: rest) rest := by
  intro M ht _ hm
  exact ⟨_, (completes_refl ht hm).next (Reaches.label .refl ht) rfl rfl rfl rfl⟩

/-- A test goes on behind its code if the condition is 1, and else to the label. -/
lemma carries_test {c : Expr} {l : Label} {other : List Line}
    (hc : c.Ready h.env.arena h.env.frame) (hy : (c.lowerTest h.env.arena l).Yields g text g' ())
    (hosts : h.Hosts text rest) (hl : textBehind l h.unit = some other)
    (heval : c.eval h.env m = some (v, m')) :
    h.Carries after m .normal m' (text ++ rest) (if v = 1 then rest else other) := by
  intro M ht hsp hm
  obtain ⟨t, g₁, r, hyc, rfl, rfl⟩ := Expr.yields_test hy
  rw [List.append_assoc] at ht
  obtain ⟨N, hN, hvalue⟩ := completes_expr hc hyc hosts.left heval ht hsp hm
  have hcompare : h.Reaches N { N with
      text := .instr (.jumpIf .ne l) :: rest
      flags := some (.compare v 1) } := by
    rw [← hvalue]
    exact reaches_instr hN.text rfl
  have hflag : Cond.ne.holds (.compare v 1) = !(v == 1) := Rel.holds_negated .eq v 1
  have hjump : h.Reaches N { N with
      text := if v = 1 then rest else other
      flags := some (.compare v 1) } := by
    refine hcompare.instr (i := .jumpIf .ne l) rfl ?_
    change (if Cond.ne.holds (.compare v 1) then h.jump l _ else some _) = some _
    by_cases hv : v = 1
    · rw [hflag, if_neg (by simp [hv]), if_pos hv]
    · rw [hflag, if_pos (by simpa using hv), if_neg hv]
      simp [jump, hl]
  exact ⟨_, hN.next hjump rfl rfl rfl rfl⟩

lemma carries_dropped {e : Expr} (he : e.Ready h.env.arena h.env.frame)
    (hy : (e.lowerDropped h.env.arena).Yields g text g' ()) (hosts : h.Hosts text rest)
    (heval : e.eval h.env m = some (v, m')) :
    h.Carries after m .normal m' (text ++ rest) rest := by
  intro M ht hsp hm
  obtain ⟨g₁, r, hye, rfl⟩ := Expr.yields_dropped hy
  obtain ⟨M', hM', -⟩ := completes_expr he hye hosts heval ht hsp hm
  exact ⟨M', hM'⟩

lemma carries_step {e : Option Expr} (he : ∀ e' ∈ e.toList, e'.Ready h.env.arena h.env.frame)
    (hy : (Expr.lowerStep h.env.arena e).Yields g text g' ()) (hosts : h.Hosts text rest)
    (heval : Expr.evalOption h.env e m = some m') :
    h.Carries after m .normal m' (text ++ rest) rest := by
  cases e with
  | none =>
    obtain ⟨rfl, -, -⟩ := Gen.yields_pure.mp hy
    obtain rfl := Option.some.inj heval
    exact carries_refl
  | some e =>
    obtain ⟨⟨v, m'⟩, hvalue, rfl⟩ := Option.map_eq_some_iff.mp heval
    exact carries_dropped (he e (by simp)) hy hosts hvalue

lemma carries_var {w : Var} (he : ∀ e ∈ w.exprs, e.Ready h.env.arena h.env.frame)
    (hw : w.name.Within h.env.arena h.env.frame)
    (hy : (w.lower h.env.arena).Yields g text g' ()) (hosts : h.Hosts text rest)
    (hinit : w.init h.env m = some m') : h.Carries after m .normal m' (text ++ rest) rest := by
  cases hvalue : w.value with
  | none =>
    obtain ⟨rfl, -⟩ := Var.yields_none hvalue hy
    rw [Var.init, hvalue] at hinit
    obtain rfl := Option.some.inj hinit
    exact carries_refl
  | some e =>
    intro M ht hsp hm
    obtain ⟨t, g₁, r, p, hye, hp, rfl, rfl⟩ := Var.yields_some hvalue hy
    rw [Var.init, hvalue] at hinit
    simp only [hp, Option.bind_eq_bind, Option.bind_eq_some_iff, Option.bind_some, Option.pure_def,
      Option.some.injEq, Prod.exists] at hinit
    obtain ⟨v, m₁, heval, rfl⟩ := hinit
    rw [List.append_assoc] at ht
    obtain ⟨N, hN, rfl⟩ := completes_expr (he e (by simp [Var.exprs, hvalue])) hye hosts.left
      heval ht hsp hm
    have hstore : h.Passes N.rsp N rest _ _ := passes_store hN.text (hw p hp)
    rw [hN.view] at hstore
    exact ⟨_, hN.trans ⟨hstore, rfl⟩⟩

lemma carries_decl {d : Decl} (he : ∀ e ∈ d.exprs, e.Ready h.env.arena h.env.frame)
    (hw : ∀ w ∈ d.vars, w.name.Within h.env.arena h.env.frame)
    (hy : (d.lower h.env.arena).Yields g text g' ()) (hosts : h.Hosts text rest)
    (hinit : d.init h.env m = some m') : h.Carries after m .normal m' (text ++ rest) rest := by
  cases d with
  | globalVar w | localVar w =>
    exact carries_var (fun e hmem => he e (by simpa [Decl.exprs, Decl.vars] using hmem))
      (hw w (List.mem_singleton.mpr rfl)) hy hosts hinit
  | function f =>
    obtain ⟨rfl, -, -⟩ := Gen.yields_pure.mp hy
    obtain rfl := Option.some.inj hinit
    exact carries_refl

lemma carries_start {d : Option Decl}
    (he : ∀ e ∈ Decl.exprsOption d, e.Ready h.env.arena h.env.frame)
    (hw : ∀ w ∈ Decl.varsOption d, w.name.Within h.env.arena h.env.frame)
    (hy : (Decl.lowerOption h.env.arena d).Yields g text g' ()) (hosts : h.Hosts text rest)
    (hinit : Decl.initOption h.env d m = some m') :
    h.Carries after m .normal m' (text ++ rest) rest := by
  cases d with
  | none =>
    obtain ⟨rfl, -, -⟩ := Gen.yields_pure.mp hy
    obtain rfl := Option.some.inj hinit
    exact carries_refl
  | some d => exact carries_decl he hw hy hosts hinit

/-- A result that is in `rax` in front of the jump to the exit. -/
lemma carries_exit {exit : Label} (hexit : textBehind exit h.unit = some after)
    (hN : h.Completes M (.instr (.jump exit) :: text) m N) (hrax : N.rax = v) :
    ∃ M', h.Ends after M rest (.returned v) m M' := by
  have hstep : h.exec { N with text } (.jump exit) = some { N with text := after } := by
    simp [exec, jump, hexit]
  exact ⟨_, hN.next (reaches_instr hN.text hstep) rfl rfl rfl rfl, hrax⟩

lemma carries_return {exit : Label} {e : Expr} (hexit : textBehind exit h.unit = some after)
    (he : e.Ready h.env.arena h.env.frame)
    (hy : ((Stmt.ret (some e)).lower h.env.arena exit).Yields g text g' ())
    (hosts : h.Hosts text rest) (heval : e.eval h.env m = some (v, m')) :
    h.Carries after m (.returned v) m' (text ++ rest) rest := by
  intro M ht hsp hm
  obtain ⟨_, hyvalue, rfl⟩ := Stmt.yields_ret hy
  obtain ⟨t, g₁, r, hye, rfl, rfl⟩ := Expr.yields_returned hyvalue
  simp only [List.append_assoc] at ht
  obtain ⟨N, hN, hvalue⟩ := completes_expr he hye (by simpa using hosts.left.left) heval ht hsp hm
  have hmove : h.Completes M (.instr (.jump exit) :: rest) m' { N with
      text := .instr (.jump exit) :: rest
      rax := N.scratch r } := hN.next (reaches_instr hN.text rfl) rfl rfl rfl rfl
  exact carries_exit hexit hmove hvalue

lemma carries_returnZero {exit : Label} (hexit : textBehind exit h.unit = some after)
    (hy : ((Stmt.ret none).lower h.env.arena exit).Yields g text g' ()) :
    h.Carries after m (.returned 0) m (text ++ rest) rest := by
  intro M ht hsp hm
  obtain ⟨_, hyvalue, rfl⟩ := Stmt.yields_ret hy
  obtain ⟨rfl, rfl⟩ := Gen.yields_instr.mp hyvalue
  have hclear : h.Completes M (.instr (.jump exit) :: rest) m { M with
      text := .instr (.jump exit) :: rest
      rax := 0
      flags := none } := (completes_refl ht hm).next (reaches_instr ht rfl) rfl rfl rfl rfl
  exact carries_exit hexit hclear rfl

end Host

/-! ### All phrases -/

namespace Phrase

def exprs : Phrase → List Expr
  | stmt s => s.exprs
  | block ss => Stmt.exprsAll ss
  | chain b => b.exprs
  | loop c step body => c :: (Stmt.exprsAll body ++ step.toList)

def vars : Phrase → List Var
  | stmt s => s.vars
  | block ss => Stmt.varsAll ss
  | chain b => b.vars
  | loop _ _ body => Stmt.varsAll body

/-- Expressions are ready for their code to run, and variables lie in the frame. -/
structure Ready (arena : Arena) (frame : ℕ) (p : Phrase) : Prop where
  exprs : ∀ e ∈ p.exprs, e.Ready arena frame
  vars : ∀ v ∈ p.vars, v.name.Within arena frame

lemma Ready.mono {arena : Arena} {frame : ℕ} {p q : Phrase} (hp : p.Ready arena frame)
    (he : ∀ e ∈ q.exprs, e ∈ p.exprs) (hv : ∀ v ∈ q.vars, v ∈ p.vars) : q.Ready arena frame where
  exprs e h := hp.exprs e (he e h)
  vars v h := hp.vars v (hv v h)

end Phrase

/-- The code of the phrase carries control as the phrase runs, wherever it stands. The code of a
chain stands in front of its end label, and that of a loop behind its top label. -/
def Host.Follows (h : Host) (exit : Label) (after : List Line) (m : Memory) (o : Ending)
    (m' : Memory) : Phrase → Prop
  | .stmt s => ∀ {g g' : GenState} {text rest : List Line},
      (s.lower h.env.arena exit).Yields g text g' () → h.Hosts text rest →
      h.Carries after m o m' (text ++ rest) rest
  | .block ss => ∀ {g g' : GenState} {text rest : List Line},
      (Stmt.lowerAll h.env.arena exit ss).Yields g text g' () → h.Hosts text rest →
      h.Carries after m o m' (text ++ rest) rest
  | .chain b => ∀ {stop : Label} {g g' : GenState} {text rest : List Line},
      (b.lower h.env.arena exit stop).Yields g text g' () → h.Hosts text (.label stop :: rest) →
      textBehind stop h.unit = some rest → h.Carries after m o m' (text ++ .label stop :: rest) rest
  | .loop c step body => ∀ {top bottom : Label} {g g' : GenState} {text rest : List Line},
      (lowerLoop h.env.arena exit top bottom c step body).Yields g text g' () →
      h.Hosts text rest → textBehind top h.unit = some (text ++ rest) →
      h.Carries after m o m' (text ++ rest) rest

namespace Host

variable {h : Host} {exit : Label} {after : List Line} {m m₁ m₂ m₃ m' : Memory} {o : Ending}
  {v : Word}

lemma follows_cond {b : Branch} (hb : h.Follows exit after m o m' (.chain b)) :
    h.Follows exit after m o m' (.stmt (.cond b)) := by
  intro g g' text rest hy hosts
  obtain ⟨t, hyb, rfl⟩ := Stmt.yields_cond hy
  have hstop : textBehind ⟨g.labels⟩ h.unit = some rest := hosts.behind (b := [])
  simpa using hb hyb (by simpa using hosts.left) hstop

lemma follows_labelled {c : Expr} {step : Option Expr} {body : List Stmt} {g g' : GenState}
    {text rest : List Line} (hloop : h.Follows exit after m o m' (.loop c step body))
    (hy : (lowerLabelled h.env.arena exit c step body).Yields g text g' ())
    (hosts : h.Hosts text rest) : h.Carries after m o m' (text ++ rest) rest := by
  obtain ⟨t, hyloop, rfl⟩ := yields_labelled hy
  have htop : textBehind ⟨g.labels⟩ h.unit = some (t ++ rest) := hosts.behind (a := [])
  exact carries_label.trans (hloop hyloop (hosts.right (a := [_])) htop)

/-- The code of a loop, taken apart behind its test. -/
lemma carries_loopTest (after : List Line) {c : Expr} {step : Option Expr} {body : List Stmt}
    {top bottom : Label} {g g' : GenState} {text rest : List Line}
    (hc : c.Ready h.env.arena h.env.frame) (heval : c.eval h.env m = some (v, m₁))
    (hy : (lowerLoop h.env.arena exit top bottom c step body).Yields g text g' ())
    (hosts : h.Hosts text rest) :
    ∃ g₁ t₂ g₂ t₃, (Stmt.lowerAll h.env.arena exit body).Yields g₁ t₂ g₂ () ∧
      h.Hosts t₂ (t₃ ++ .instr (.jump top) :: .label bottom :: rest) ∧
      (Expr.lowerStep h.env.arena step).Yields g₂ t₃ g' () ∧
      h.Hosts t₃ (.instr (.jump top) :: .label bottom :: rest) ∧
      h.Carries after m .normal m₁ (text ++ rest)
        (if v = 1 then t₂ ++ (t₃ ++ .instr (.jump top) :: .label bottom :: rest) else rest) := by
  obtain ⟨t₁, g₁, t₂, g₂, t₃, htest, hbody, hstep, rfl⟩ := yields_loop hy
  have hbottom : textBehind bottom h.unit = some rest :=
    hosts.right.right.right.behind (a := [_]) (b := [])
  have hcarries : h.Carries after m .normal m₁ _ _ :=
    carries_test hc htest hosts.left hbottom heval
  refine ⟨g₁, t₂, g₂, t₃, hbody, by simpa using hosts.right.left, hstep,
    by simpa using hosts.right.right.left, by simpa using hcarries⟩

/-- The code of a branch, taken apart behind its test. -/
lemma carries_branchTest (after : List Line) {c : Expr} {body : List Stmt} {tail : Tail}
    {stop : Label} {g g' : GenState} {text rest : List Line} (hc : c.Ready h.env.arena h.env.frame)
    (heval : c.eval h.env m = some (v, m₁))
    (hy : (Branch.lower h.env.arena exit stop ⟨c, body, tail⟩).Yields g text g' ())
    (hosts : h.Hosts text (.label stop :: rest)) (hstop : textBehind stop h.unit = some rest) :
    ∃ g₁ t₂ g₂ mid other, (Stmt.lowerAll h.env.arena exit body).Yields g₁ t₂ g₂ () ∧
      h.Hosts t₂ (.instr (.jump stop) :: mid) ∧
      h.Carries after m .normal m₁ (text ++ .label stop :: rest)
        (if v = 1 then t₂ ++ .instr (.jump stop) :: mid else other) ∧
      (tail = .done ∧ other = rest ∨ ∃ t₃, (tail.lower h.env.arena exit stop).Yields g₂ t₃ g' () ∧
        h.Hosts t₃ (.label stop :: rest) ∧ other = t₃ ++ .label stop :: rest) := by
  by_cases htail : tail = .done
  · subst htail
    obtain ⟨t₁, g₁, t₂, htest, hbody, rfl⟩ := Branch.yields_done hy
    have hcarries : h.Carries after m .normal m₁ _ _ :=
      carries_test hc htest hosts.left hstop heval
    exact ⟨g₁, t₂, g', .label stop :: rest, rest, hbody, by simpa using hosts.right.left,
      by simpa using hcarries, .inl ⟨rfl, rfl⟩⟩
  · obtain ⟨t₁, g₁, t₂, g₂, t₃, htest, hbody, hnext, rfl⟩ := Branch.yields_next hy htail
    have hskip : textBehind ⟨g.labels⟩ h.unit = some (t₃ ++ .label stop :: rest) :=
      hosts.right.right.behind (a := [_])
    have hcarries : h.Carries after m .normal m₁ _ _ :=
      carries_test hc htest hosts.left hskip heval
    exact ⟨g₁, t₂, g₂, _, _, hbody, by simpa using hosts.right.left, by simpa using hcarries,
      .inr ⟨t₃, hnext, hosts.right.right.right (a := [_, _]), rfl⟩⟩

section Chain

variable {c : Expr} {body : List Stmt}

lemma follows_taken {tail : Tail}
    (hready : Phrase.Ready h.env.arena h.env.frame (.chain ⟨c, body, tail⟩))
    (hc : c.eval h.env m = some (1, m₁)) (hbody : h.Follows exit after m₁ o m' (.block body)) :
    h.Follows exit after m o m' (.chain ⟨c, body, tail⟩) := by
  intro stop g g' text rest hy hosts hstop
  obtain ⟨g₁, t₂, g₂, mid, other, hybody, hosts₂, htest, -⟩ :=
    carries_branchTest after (hready.exprs c (List.mem_cons_self ..)) hc hy hosts hstop
  rw [if_pos rfl] at htest
  have hrest := htest.trans (hbody hybody hosts₂)
  -- a body that comes to its end jumps over the rest of the chain
  cases o with
  | normal => exact hrest.trans (carries_jump hstop)
  | returned v => exact hrest.leave

lemma follows_done (hready : Phrase.Ready h.env.arena h.env.frame (.chain ⟨c, body, .done⟩))
    (hc : c.eval h.env m = some (v, m')) (hv : v ≠ 1) :
    h.Follows exit after m .normal m' (.chain ⟨c, body, .done⟩) := by
  intro stop g g' text rest hy hosts hstop
  obtain ⟨g₁, t₂, g₂, mid, other, -, -, htest, ⟨-, rfl⟩ | ⟨t₃, hynext, -, rfl⟩⟩ :=
    carries_branchTest after (hready.exprs c (List.mem_cons_self ..)) hc hy hosts hstop
  · rwa [if_neg hv] at htest
  · obtain ⟨rfl, -, -⟩ := Gen.yields_pure.mp hynext
    rw [if_neg hv] at htest
    exact htest.trans carries_label

/-- A branch whose condition does not hold, in front of the rest of its chain. -/
lemma carries_next {tail : Tail} {stop : Label} {g g' : GenState} {text rest : List Line}
    (hready : Phrase.Ready h.env.arena h.env.frame (.chain ⟨c, body, tail⟩))
    (hc : c.eval h.env m = some (v, m₁)) (hv : v ≠ 1)
    (hy : (Branch.lower h.env.arena exit stop ⟨c, body, tail⟩).Yields g text g' ())
    (hosts : h.Hosts text (.label stop :: rest)) (hstop : textBehind stop h.unit = some rest)
    (htail : tail ≠ .done) :
    ∃ g₂ t₃, (tail.lower h.env.arena exit stop).Yields g₂ t₃ g' () ∧
      h.Hosts t₃ (.label stop :: rest) ∧
      h.Carries after m .normal m₁ (text ++ .label stop :: rest) (t₃ ++ .label stop :: rest) := by
  obtain ⟨g₁, t₂, g₂, mid, other, -, -, htest, ⟨hdone, -⟩ | ⟨t₃, hynext, hosts₃, rfl⟩⟩ :=
    carries_branchTest after (hready.exprs c (List.mem_cons_self ..)) hc hy hosts hstop
  · exact absurd hdone htail
  · rw [if_neg hv] at htest
    exact ⟨g₂, t₃, hynext, hosts₃, htest⟩

lemma follows_elseIf {next : Branch}
    (hready : Phrase.Ready h.env.arena h.env.frame (.chain ⟨c, body, .elseIf next⟩))
    (hc : c.eval h.env m = some (v, m₁)) (hv : v ≠ 1)
    (hnext : h.Follows exit after m₁ o m' (.chain next)) :
    h.Follows exit after m o m' (.chain ⟨c, body, .elseIf next⟩) := by
  intro stop g g' text rest hy hosts hstop
  obtain ⟨g₂, t₃, hynext, hosts₃, htest⟩ := carries_next hready hc hv hy hosts hstop (by simp)
  exact htest.trans (hnext hynext hosts₃ hstop)

lemma follows_otherwise {last : List Stmt}
    (hready : Phrase.Ready h.env.arena h.env.frame (.chain ⟨c, body, .otherwise last⟩))
    (hc : c.eval h.env m = some (v, m₁)) (hv : v ≠ 1)
    (hlast : h.Follows exit after m₁ o m' (.block last)) :
    h.Follows exit after m o m' (.chain ⟨c, body, .otherwise last⟩) := by
  intro stop g g' text rest hy hosts hstop
  obtain ⟨g₂, t₃, hynext, hosts₃, htest⟩ := carries_next hready hc hv hy hosts hstop (by simp)
  obtain ⟨t, _, _, _, hylast, hyjump, rfl⟩ := Gen.yields_bind.mp hynext
  obtain ⟨rfl, rfl⟩ := Gen.yields_instr.mp hyjump
  rw [List.append_assoc] at htest
  have hrest := htest.trans (hlast hylast hosts₃.left)
  cases o with
  | normal => exact hrest.trans (carries_jump hstop)
  | returned v => exact hrest.leave

end Chain

section Loop

variable {c : Expr} {step : Option Expr} {body : List Stmt}

lemma follows_stop (hready : Phrase.Ready h.env.arena h.env.frame (.loop c step body))
    (hc : c.eval h.env m = some (v, m')) (hv : v ≠ 1) :
    h.Follows exit after m .normal m' (.loop c step body) := by
  intro top bottom g g' text rest hy hosts _
  obtain ⟨g₁, t₂, g₂, t₃, -, -, -, -, htest⟩ :=
    carries_loopTest after (hready.exprs c (List.mem_cons_self ..)) hc hy hosts
  rwa [if_neg hv] at htest

/-- Once through the loop, and then again from its top. -/
lemma follows_again (hready : Phrase.Ready h.env.arena h.env.frame (.loop c step body))
    (hc : c.eval h.env m = some (1, m₁)) (hbody : h.Follows exit after m₁ .normal m₂ (.block body))
    (hstep : Expr.evalOption h.env step m₂ = some m₃)
    (hloop : h.Follows exit after m₃ o m' (.loop c step body)) :
    h.Follows exit after m o m' (.loop c step body) := by
  intro top bottom g g' text rest hy hosts htop
  obtain ⟨g₁, t₂, g₂, t₃, hybody, hosts₂, hystep, hosts₃, htest⟩ :=
    carries_loopTest after (hready.exprs c (List.mem_cons_self ..)) hc hy hosts
  rw [if_pos rfl] at htest
  have hstepped : h.Carries after m₂ .normal m₃ _ _ := carries_step
    (fun e he => hready.exprs e (List.mem_cons_of_mem _ (List.mem_append_right _ he))) hystep
    hosts₃ hstep
  have hback := hstepped.trans (carries_jump htop)
  have hround := htest.trans ((hbody hybody hosts₂).trans hback)
  exact hround.trans (hloop hy hosts htop)

lemma follows_leaveLoop (hready : Phrase.Ready h.env.arena h.env.frame (.loop c step body))
    (hc : c.eval h.env m = some (1, m₁))
    (hbody : h.Follows exit after m₁ (.returned v) m' (.block body)) :
    h.Follows exit after m (.returned v) m' (.loop c step body) := by
  intro top bottom g g' text rest hy hosts _
  obtain ⟨g₁, t₂, g₂, t₃, hybody, hosts₂, -, -, htest⟩ :=
    carries_loopTest after (hready.exprs c (List.mem_cons_self ..)) hc hy hosts
  rw [if_pos rfl] at htest
  exact (htest.trans (hbody hybody hosts₂)).leave

end Loop

end Host

/-- **Statements**: the code of whatever runs carries control the same way. -/
theorem Runs.follows {h : Host} {exit : Label} {after : List Line} {p : Phrase} {m m' : Memory}
    {o : Ending} (hrun : Runs h.env p m o m') (hexit : textBehind exit h.unit = some after)
    (hready : p.Ready h.env.arena h.env.frame) : h.Follows exit after m o m' p := by
  induction hrun with
  | expr he =>
    exact fun hy hosts =>
      Host.carries_dropped (hready.exprs _ (List.mem_singleton.mpr rfl)) hy hosts he
  | decl hd => exact fun hy hosts => Host.carries_decl hready.exprs hready.vars hy hosts hd
  | ret he =>
    exact fun hy hosts =>
      Host.carries_return hexit (hready.exprs _ (List.mem_singleton.mpr rfl)) hy hosts he
  | retZero => exact fun hy _ => Host.carries_returnZero hexit hy
  | cond hb ih => exact Host.follows_cond (ih ⟨hready.exprs, hready.vars⟩)
  | whileLoop hloop ih =>
    intro g g' text rest hy hosts
    rw [Stmt.lower_while] at hy
    refine Host.follows_labelled (ih (hready.mono ?_ fun v hv => hv)) hy hosts
    simp [Phrase.exprs, Stmt.exprs]
  | forLoop hstart hloop ih =>
    intro g g' text rest hy hosts
    rw [Stmt.lower_for] at hy
    obtain ⟨t₀, g₀, _, t, hystart, hyloop, rfl⟩ := Gen.yields_bind.mp hy
    rw [List.append_assoc]
    refine (Host.carries_start (fun e he => hready.exprs e (List.mem_append_left _ he))
      (fun v hv => hready.vars v (List.mem_append_left _ hv)) hystart hosts.left hstart).trans ?_
    refine Host.follows_labelled (ih ?_) hyloop hosts.right
    exact hready.mono (fun e he => List.mem_append_right _ he)
      fun v hv => List.mem_append_right _ hv
  | nil =>
    intro g g' text rest hy _
    obtain ⟨rfl, -, -⟩ := Gen.yields_pure.mp hy
    exact Host.carries_refl
  | cons hs hrest ihs ihrest =>
    intro g g' text rest hy hosts
    obtain ⟨t, g₁, _, u, hys, hyrest, rfl⟩ := Gen.yields_bind.mp hy
    have hfirst := ihs (hready.mono (fun e he => List.mem_append_left _ he)
      (fun v hv => List.mem_append_left _ hv)) hys hosts.left
    rw [List.append_assoc]
    have hsecond := ihrest (hready.mono (fun e he => List.mem_append_right _ he)
      (fun v hv => List.mem_append_right _ hv)) hyrest hosts.right
    exact hfirst.trans hsecond
  | leave hs ih =>
    intro g g' text rest hy hosts
    obtain ⟨t, g₁, _, u, hys, hyrest, rfl⟩ := Gen.yields_bind.mp hy
    have hfirst := ih (hready.mono (fun e he => List.mem_append_left _ he)
      (fun v hv => List.mem_append_left _ hv)) hys hosts.left
    rw [List.append_assoc]
    exact hfirst.leave
  | taken hc hbody ih =>
    refine Host.follows_taken hready hc (ih ?_)
    exact hready.mono (fun e he => List.mem_cons_of_mem _ (List.mem_append_left _ he))
      fun v hv => List.mem_append_left _ hv
  | done hc hv => exact Host.follows_done hready hc hv
  | elseIf hc hv hnext ih =>
    refine Host.follows_elseIf hready hc hv (ih ?_)
    exact hready.mono (fun e he => List.mem_cons_of_mem _ (List.mem_append_right _ he))
      fun v hv => List.mem_append_right _ hv
  | otherwise hc hv hlast ih =>
    refine Host.follows_otherwise hready hc hv (ih ?_)
    exact hready.mono (fun e he => List.mem_cons_of_mem _ (List.mem_append_right _ he))
      fun v hv => List.mem_append_right _ hv
  | stop hc hv => exact Host.follows_stop hready hc hv
  | again hc hbody hstep hloop ihbody ihloop =>
    refine Host.follows_again hready hc (ihbody ?_) hstep (ihloop hready)
    exact hready.mono (fun e he => List.mem_cons_of_mem _ (List.mem_append_left _ he))
      fun v hv => hv
  | leaveLoop hc hbody ih =>
    refine Host.follows_leaveLoop hready hc (ih ?_)
    exact hready.mono (fun e he => List.mem_cons_of_mem _ (List.mem_append_left _ he))
      fun v hv => hv

end TreeCompiler

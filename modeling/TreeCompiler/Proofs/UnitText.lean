import TreeCompiler.Proofs.Balance
import TreeCompiler.Proofs.Routine

/-!
The text of a unit, routine by routine.

Behind the routine that prints, each function of a program has one routine, in the order of the
functions. A routine is generated with labels of its own, the first of which is its exit; between
its prologue and the exit its body keeps the stack in balance.
-/

namespace TreeCompiler

/-- A prologue and an epilogue have no jumps. -/
lemma target?_openFrame (n : ℕ) : ∀ line ∈ openFrame n, line.target? = none := by
  rw [openFrame]
  split <;> simp

lemma FunDecl.target?_epilogue (f : FunDecl) : ∀ line ∈ f.epilogue, line.target? = none := by
  rw [epilogue, closeFrame, leaveProcess]
  split <;> split <;> simp

/-- The routine of a function: the state in which it is generated, and the lines between its
prologue and its exit. -/
structure Routine where
  fn : FunDecl
  state : GenState
  body : List Line

namespace Routine

def exit (r : Routine) : Label := ⟨r.state.labels⟩

/-- The state in which the body is generated: the exit is issued, and nothing is pushed. -/
def start (r : Routine) : GenState := { r.state with labels := r.state.labels + 1, depth := 0 }

/-- The lines of a routine behind its symbol. -/
def inner (r : Routine) : List Line :=
  openFrame r.fn.frameSize ++ (r.body ++ .label r.exit :: r.fn.epilogue)

def text (r : Routine) : List Line :=
  .blank :: .routine (functionSymbol r.fn.name.name) :: r.inner

/-- The routine is what its function is lowered to. The entry point gives the globals their values
first, and clears the result at the end. -/
structure Generated (arena : Arena) (globals : List Var) (r : Routine) (g' : GenState) : Prop where
  yields : (r.fn.lower arena globals).Yields r.state r.text g' ()
  body : ∃ t₁ g₁ t₂, (Var.lowerAll arena (r.fn.preset globals)).Yields r.start t₁ g₁ () ∧
    (Stmt.lowerAll arena r.exit r.fn.body).Yields g₁ t₂ g' () ∧
    r.body = t₁ ++ (t₂ ++ r.fn.fallsOff)

variable {arena : Arena} {globals : List Var} {r : Routine} {g' : GenState}

/-- The body and the exit behind it, with no jump to anywhere else. -/
lemma Generated.level (h : r.Generated arena globals g') :
    Level [] { r.state with depth := 0 } (r.body ++ [.label r.exit]) g' := by
  obtain ⟨t₁, g₁, t₂, hpreset, hbody, hsplit⟩ := h.body
  have hfall : Level [r.exit] g' r.fn.fallsOff g' := by
    refine .still fun line hline => ?_
    rw [FunDecl.fallsOff] at hline
    split at hline
    · obtain rfl := List.mem_singleton.mp hline
      simp
    · cases hline
  have hall := (Var.level_all _ hpreset).append ((Stmt.levelAll r.fn.body hbody).append hfall)
  rw [← hsplit, ← List.append_nil r.body] at hall
  exact Level.place (g := { r.state with depth := 0 }) hall rfl rfl (by simpa using hall.height_eq)

/-- Behind the prologue the frame pointer of the caller is saved, and nothing else is written. -/
lemma reaches_body {h : Host} {M : Machine} {after : List Line}
    (hM : .blank :: M.text = r.text ++ after) :
    ∃ N, h.Reaches M N ∧ N.text = r.body ++ .label r.exit :: (r.fn.epilogue ++ after) ∧
      N.rbp = M.rsp - 8 ∧ N.mem = (M.push (M.get .rbp)).mem := by
  have htext : M.text = .routine (functionSymbol r.fn.name.name) :: (openFrame r.fn.frameSize ++
      (r.body ++ .label r.exit :: (r.fn.epilogue ++ after))) := by
    simpa [text, inner] using (List.cons.inj hM).2
  obtain ⟨N, hreach, hNtext, -, hrbp, hmem⟩ := Host.reaches_openFrame (h := h)
    (M := { M with text := openFrame r.fn.frameSize ++ _ }) rfl
  exact ⟨N, (Host.reaches_routine htext).trans hreach, hNtext, hrbp, hmem⟩

/-- A jump in a routine is one of its body. -/
lemma mem_body_of_target? {line : Line} {l : Label} (hline : line ∈ r.inner)
    (hl : line.target? = some l) : line ∈ r.body := by
  rcases List.mem_append.mp hline with hopen | hrest
  · rw [target?_openFrame _ _ hopen] at hl
    cases hl
  · rcases List.mem_append.mp hrest with hbody | hrest
    · exact hbody
    · rcases List.mem_cons.mp hrest with rfl | hclose
      · cases hl
      · rw [FunDecl.target?_epilogue _ _ hclose] at hl
        cases hl

end Routine

section Functions

variable {arena : Arena} {globals : List Var}

lemma FunDecl.exists_routine {f : FunDecl} {g g' : GenState} {text : List Line} {u : Unit}
    (h : (f.lower arena globals).Yields g text g' u) :
    ∃ r : Routine, r.fn = f ∧ r.state = g ∧ text = r.text ∧ r.Generated arena globals g' := by
  obtain ⟨t₁, g₁, t₂, hpreset, hbody, htext⟩ := FunDecl.yields_lower h
  let r : Routine := ⟨f, g, t₁ ++ (t₂ ++ f.fallsOff)⟩
  have hr : text = r.text := by simpa [r, Routine.text, Routine.inner, Routine.exit] using htext
  exact ⟨r, rfl, rfl, hr, hr ▸ h, t₁, g₁, t₂, hpreset, hbody, rfl⟩

/-- Functions are lowered to one routine behind the other, each with labels that were not issued
before. -/
lemma FunDecl.exists_routines : (fs : List FunDecl) →
    ∀ {g g' : GenState} {text : List Line} {u : Unit},
    (FunDecl.lowerAll arena globals fs).Yields g text g' u →
    ∃ rs : List Routine, rs.map (·.fn) = fs ∧ text = rs.flatMap Routine.text ∧
      ∀ r ∈ rs, ∃ before after g₁, text = before ++ (r.text ++ after) ∧ Fresh g before r.state ∧
        r.Generated arena globals g₁
  | [], _, _, _, _, h => by
    obtain ⟨rfl, rfl, -⟩ := Gen.yields_pure.mp h
    exact ⟨[], rfl, rfl, nofun⟩
  | f :: fs, g, g', _, _, h => by
    obtain ⟨_, g₁, _, t, hfirst, hrest, rfl⟩ := Gen.yields_bind.mp h
    obtain ⟨r, rfl, rfl, rfl, hr⟩ := FunDecl.exists_routine hfirst
    obtain ⟨rs, rfl, htext, hstands⟩ := FunDecl.exists_routines fs hrest
    refine ⟨r :: rs, rfl, by rw [htext]; rfl, List.forall_mem_cons.mpr ⟨?_, fun r' hr' => ?_⟩⟩
    · exact ⟨[], t, g₁, rfl, .silent rfl (by simp), hr⟩
    · obtain ⟨before, after, g₂, hsplit, hbefore, hr'⟩ := hstands r' hr'
      exact ⟨r.text ++ before, after, g₂, by simp [hsplit], (FunDecl.fresh hfirst).append hbefore,
        hr'⟩

/-- The routines of a unit, each behind text that has none of its labels. -/
lemma Program.exists_routines {p : Program} {g g' : GenState} {text : List Line} {u : Unit}
    (h : (p.lower arena).Yields g text g' u) :
    ∃ rs : List Routine, rs.map (·.fn) = p.functions ∧
      text = preludeLines ++ (rs.flatMap Routine.text ++ (reserveLines arena ++ dataLines)) ∧
      ∀ r ∈ rs, ∃ before after g₁, text = before ++ (r.text ++ after) ∧
        r.Generated arena p.globals g₁ ∧
        ∀ n, r.state.labels ≤ n → before.count (.label ⟨n⟩) = 0 := by
  obtain ⟨t, hfunctions, rfl⟩ := Program.yields_lower h
  obtain ⟨rs, hfns, rfl, hstands⟩ := FunDecl.exists_routines _ hfunctions
  refine ⟨rs, hfns, rfl, fun r hr => ?_⟩
  obtain ⟨before, after, g₁, hsplit, hfresh, hgenerated⟩ := hstands r hr
  refine ⟨preludeLines ++ before, after ++ (reserveLines arena ++ dataLines), g₁, by simp [hsplit],
    hgenerated, fun n hn => ?_⟩
  have hprelude : preludeLines.count (.label ⟨n⟩) = 0 :=
    List.count_eq_zero.mpr (by simp [preludeLines])
  have hbefore : before.count (.label ⟨n⟩) = 0 :=
    Nat.eq_zero_of_not_pos fun hpos => Nat.not_lt.mpr hn (hfresh.issued hpos).2
  rw [List.count_append, hprelude, hbefore]

end Functions

end TreeCompiler

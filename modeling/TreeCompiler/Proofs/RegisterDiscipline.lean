import TreeCompiler.Proofs.Places

/-!
Who has which register.

An expression takes the first free register for its value and gives back all others, whatever was
in use before. What is built from expressions gives back that one too, so a statement leaves the
bank and the stack as it finds them. Generation that starts with no register in use therefore comes
to each statement of a program with none in use, also where it stops later on.
-/

namespace TreeCompiler

variable {arena : Arena} {exit stop : Label} {g g₁ g₂ g' : GenState} {text : List Line}

lemma Bank.live_congr {b c : Bank} (h : b.isLive = c.isLive) : b.live = c.live := by
  rw [live, live, h]

lemma Bank.isClear_iff {b : Bank} : b.isClear = true ↔ b.live = [] := by
  rw [isClear, List.isEmpty_iff]

/-- The same registers are in use, and as many words are on the stack. -/
structure SameUse (g g' : GenState) : Prop where
  live : g'.bank.live = g.bank.live
  depth : g'.depth = g.depth

lemma SameUse.refl (g : GenState) : SameUse g g := ⟨rfl, rfl⟩

lemma SameUse.trans (h : SameUse g g₁) (h' : SameUse g₁ g') : SameUse g g' :=
  ⟨h'.live.trans h.live, h'.depth.trans h.depth⟩

/-- Labels that are drawn at the start make no difference. -/
lemma SameUse.of_labels {n : ℕ} (h : SameUse { g with labels := n } g') : SameUse g g' :=
  ⟨h.live, h.depth⟩

lemma GivesBack.sameUse {n : ℕ} (h : GivesBack g g' n 0) : SameUse g g' :=
  ⟨Bank.live_congr h.live, h.depth⟩

/-! ### Neutral steps -/

namespace Gen

variable {α β : Type} {x : Gen α} {f : α → Gen β}

/-- The step leaves registers and stack as they are when it ends well. -/
def Neutral (x : Gen α) : Prop :=
  ∀ (g : GenState) (text : List Line) (g' : GenState) (a : α), x.Yields g text g' a → SameUse g g'

lemma Neutral.sameUse {text : List Line} {a : α} (h : x.Neutral) (hx : x.Yields g text g' a) :
    SameUse g g' := h g text g' a hx

lemma Neutral.bind (hx : x.Neutral) (hf : ∀ a, (f a).Neutral) : (x >>= f).Neutral := by
  intro g text g' b h
  obtain ⟨t, g₁, a, u, hxg, hfg, rfl⟩ := yields_bind.mp h
  exact (hx.sameUse hxg).trans ((hf a).sameUse hfg)

/-- A step that has nothing to do with registers or the stack. -/
lemma neutral_of_eq (h : ∀ g, ∃ code g' a, x g = ⟨code, g', .ok a⟩ ∧ g'.bank = g.bank ∧
    g'.depth = g.depth) : x.Neutral := by
  intro g text g' b hy
  obtain ⟨code, g₁, a, hx, hbank, hdepth⟩ := h g
  obtain ⟨-, rfl, -⟩ := (yields_iff hx).mp hy
  exact ⟨by rw [hbank], hdepth⟩

lemma neutral_pure (a : α) : (pure a : Gen α).Neutral :=
  neutral_of_eq fun g => ⟨_, g, a, rfl, rfl, rfl⟩

lemma neutral_emit (l : Line) : (emit l).Neutral := neutral_of_eq fun g => ⟨_, g, (), rfl, rfl, rfl⟩

lemma neutral_instr (i : Instr) : (instr i).Neutral := neutral_emit _

lemma neutral_freshLabel : freshLabel.Neutral := neutral_of_eq fun _ => ⟨_, _, _, rfl, rfl, rfl⟩

end Gen

/-! ### Statements -/

lemma Expr.neutral_test (c : Expr) (l : Label) : (c.lowerTest arena l).Neutral := by
  intro g text g' u h
  obtain ⟨t, g₁, r, hc, rfl, -⟩ := Expr.yields_test h
  exact (c.takes hc).free.sameUse

lemma Expr.neutral_dropped (e : Expr) : (e.lowerDropped arena).Neutral := by
  intro g text g' u h
  obtain ⟨g₁, r, he, rfl⟩ := Expr.yields_dropped h
  exact (e.takes he).free.sameUse

lemma Expr.neutral_step (e : Option Expr) : (Expr.lowerStep arena e).Neutral := by
  cases e with
  | none => exact Gen.neutral_pure ()
  | some e => exact e.neutral_dropped

lemma Expr.neutral_returned : (e : Option Expr) → (Expr.lowerReturned arena e).Neutral
  | none => Gen.neutral_instr _
  | some e => by
    intro g text g' u h
    obtain ⟨t, g₁, r, he, rfl, -⟩ := Expr.yields_returned h
    exact (e.takes he).free.sameUse

lemma Var.neutral (v : Var) : (v.lower arena).Neutral := by
  intro g text g' u h
  cases hv : v.value with
  | none =>
    obtain ⟨-, rfl⟩ := Var.yields_none hv h
    exact .refl _
  | some e =>
    obtain ⟨t, g₁, r, o, he, -, rfl, -⟩ := Var.yields_some hv h
    exact (e.takes he).free.sameUse

lemma Var.neutral_all (vs : List Var) : (Var.lowerAll arena vs).Neutral := by
  induction vs with
  | nil => exact Gen.neutral_pure ()
  | cons v rest ih => exact v.neutral.bind fun _ => ih

lemma Decl.neutral (d : Decl) : (d.lower arena).Neutral := by
  cases d with
  | globalVar v => exact v.neutral
  | localVar v => exact v.neutral
  | function _ => exact Gen.neutral_pure ()

lemma Decl.neutral_option (d : Option Decl) : (Decl.lowerOption arena d).Neutral := by
  cases d with
  | none => exact Gen.neutral_pure ()
  | some d => exact d.neutral

/-- A loop is neutral if its body is. -/
lemma neutral_labelled {body : List Stmt} (hbody : (Stmt.lowerAll arena exit body).Neutral)
    (c : Expr) (step : Option Expr) : (lowerLabelled arena exit c step body).Neutral := by
  refine Gen.neutral_freshLabel.bind fun top => ?_
  refine Gen.neutral_freshLabel.bind fun bottom => ?_
  refine (Gen.neutral_emit _).bind fun _ => ?_
  refine (c.neutral_test bottom).bind fun _ => ?_
  refine hbody.bind fun _ => ?_
  refine (Expr.neutral_step step).bind fun _ => ?_
  exact (Gen.neutral_instr _).bind fun _ => Gen.neutral_emit _

mutual

lemma Stmt.neutral (exit : Label) : (s : Stmt) → (s.lower arena exit).Neutral
  | .expr e => e.neutral_dropped
  | .decl d => d.neutral
  | .ret value => (Expr.neutral_returned value).bind fun _ => Gen.neutral_instr _
  | .cond b => by
    refine Gen.neutral_freshLabel.bind fun stop => ?_
    exact (b.neutral exit stop).bind fun _ => Gen.neutral_emit _
  | .whileLoop c body => by
    rw [Stmt.lower_while]
    exact neutral_labelled (Stmt.neutral_all exit body) c none
  | .forLoop start c step body => by
    rw [Stmt.lower_for]
    have hbody := Stmt.neutral_all exit body
    exact (Decl.neutral_option start).bind fun _ => neutral_labelled hbody c step
termination_by structural s => s

lemma Stmt.neutral_all (exit : Label) : (ss : List Stmt) → (Stmt.lowerAll arena exit ss).Neutral
  | [] => Gen.neutral_pure ()
  | s :: rest => by
    have hrest := Stmt.neutral_all exit rest
    exact (s.neutral exit).bind fun _ => hrest
termination_by structural ss => ss

lemma Branch.neutral (exit stop : Label) : (b : Branch) → (b.lower arena exit stop).Neutral
  | ⟨c, body, .done⟩ => by
    have hbody := Stmt.neutral_all exit body
    refine (c.neutral_test stop).bind fun _ => ?_
    exact hbody.bind fun _ => Gen.neutral_instr _
  | ⟨c, body, .elseIf next⟩ => by
    have hbody := Stmt.neutral_all exit body
    have hnext := next.neutral exit stop
    refine Gen.neutral_freshLabel.bind fun skip => ?_
    refine (c.neutral_test skip).bind fun _ => hbody.bind fun _ => ?_
    exact (Gen.neutral_instr _).bind fun _ => (Gen.neutral_emit _).bind fun _ => hnext
  | ⟨c, body, .otherwise last⟩ => by
    have hbody := Stmt.neutral_all exit body
    have hlast := Stmt.neutral_all exit last
    refine Gen.neutral_freshLabel.bind fun skip => ?_
    refine (c.neutral_test skip).bind fun _ => hbody.bind fun _ => ?_
    refine (Gen.neutral_instr _).bind fun _ => (Gen.neutral_emit _).bind fun _ => ?_
    exact hlast.bind fun _ => Gen.neutral_instr _
termination_by structural b => b

end

/-! ### Functions -/

variable {globals : List Var} {u : Unit}

/-- A function leaves the registers as it finds them. Its depth is its own. -/
lemma FunDecl.live_eq {f : FunDecl} (h : (f.lower arena globals).Yields g text g' u) :
    g'.bank.live = g.bank.live := by
  obtain ⟨t₁, g₁, t₂, hpreset, hbody, -⟩ := FunDecl.yields_lower h
  have huse := ((Var.neutral_all _).sameUse hpreset).trans ((Stmt.neutral_all _ _).sameUse hbody)
  exact huse.live

lemma FunDecl.live_all : (fs : List FunDecl) → ∀ {g g' : GenState} {text : List Line} {u : Unit},
    (FunDecl.lowerAll arena globals fs).Yields g text g' u → g'.bank.live = g.bank.live
  | [], _, _, _, _, h => by
    obtain ⟨-, rfl, -⟩ := Gen.yields_pure.mp h
    rfl
  | f :: rest, _, _, _, _, h => by
    obtain ⟨_, _, _, _, hf, hrest, rfl⟩ := Gen.yields_bind.mp h
    exact (FunDecl.live_all rest hrest).trans (FunDecl.live_eq hf)

/-! ### On the way through a program -/

/-- Generation of the chain comes to a block of it, in that state. -/
inductive Branch.Opens (arena : Arena) (exit stop : Label) :
    Branch → GenState → List Stmt → GenState → Prop where
  | last {c body g t g'} : (c.lowerTest arena stop).Yields g t g' () →
      Opens arena exit stop ⟨c, body, .done⟩ g body g'
  | first {c body tail g t g'} : tail ≠ .done →
      (c.lowerTest arena ⟨g.labels⟩).Yields { g with labels := g.labels + 1 } t g' () →
      Opens arena exit stop ⟨c, body, tail⟩ g body g'
  | next {c body next g t₁ g₁ t₂ g₂ block g'} :
      (c.lowerTest arena ⟨g.labels⟩).Yields { g with labels := g.labels + 1 } t₁ g₁ () →
      (Stmt.lowerAll arena exit body).Yields g₁ t₂ g₂ () →
      Opens arena exit stop next g₂ block g' →
      Opens arena exit stop ⟨c, body, .elseIf next⟩ g block g'
  | otherwise {c body block g t₁ g₁ t₂ g'} :
      (c.lowerTest arena ⟨g.labels⟩).Yields { g with labels := g.labels + 1 } t₁ g₁ () →
      (Stmt.lowerAll arena exit body).Yields g₁ t₂ g' () →
      Opens arena exit stop ⟨c, body, .otherwise block⟩ g block g'

/-- Generation of the statement comes to a block inside of it, in that state. -/
inductive Stmt.Opens (arena : Arena) (exit : Label) :
    Stmt → GenState → List Stmt → GenState → Prop where
  | cond {b g block g'} :
      b.Opens arena exit ⟨g.labels⟩ { g with labels := g.labels + 1 } block g' →
      Opens arena exit (.cond b) g block g'
  | whileLoop {c body g t g'} :
      (c.lowerTest arena ⟨g.labels + 1⟩).Yields { g with labels := g.labels + 2 } t g' () →
      Opens arena exit (.whileLoop c body) g body g'
  | forLoop {start c step body g t₁ g₁ t₂ g'} :
      (Decl.lowerOption arena start).Yields g t₁ g₁ () →
      (c.lowerTest arena ⟨g₁.labels + 1⟩).Yields { g₁ with labels := g₁.labels + 2 } t₂ g' () →
      Opens arena exit (.forLoop start c step body) g body g'

/-- Generation of the block comes to a statement of it, at any depth, in that state. All code in
front of the statement is there, what follows need not have any. -/
inductive Stmt.Visits (arena : Arena) (exit : Label) :
    List Stmt → GenState → Stmt → GenState → Prop where
  | here {s rest g} : Visits arena exit (s :: rest) g s g
  | inside {s rest g block g₁ s' g'} : s.Opens arena exit g block g₁ →
      Visits arena exit block g₁ s' g' → Visits arena exit (s :: rest) g s' g'
  | later {s rest g t g₁ s' g'} : (s.lower arena exit).Yields g t g₁ () →
      Visits arena exit rest g₁ s' g' → Visits arena exit (s :: rest) g s' g'

/-- Generation of the program comes to a statement in a function that has that exit. -/
def Program.Visits (arena : Arena) (p : Program) (g : GenState) (exit : Label) (s : Stmt)
    (g' : GenState) : Prop :=
  ∃ before f after t₁ g₁ t₂ g₂, p.functions = before ++ f :: after ∧
    (FunDecl.lowerAll arena p.globals before).Yields g t₁ g₁ () ∧ exit = ⟨g₁.labels⟩ ∧
    (Var.lowerAll arena (f.preset p.globals)).Yields
      { g₁ with labels := g₁.labels + 1, depth := 0 } t₂ g₂ () ∧
    Stmt.Visits arena exit f.body g₂ s g'

variable {b : Branch} {s s' : Stmt} {ss block : List Stmt}

lemma Branch.Opens.sameUse (h : b.Opens arena exit stop g block g') : SameUse g g' := by
  induction h with
  | last htest => exact (Expr.neutral_test _ _).sameUse htest
  | first _ htest => exact ((Expr.neutral_test _ _).sameUse htest).of_labels
  | next htest hbody _ ih =>
    have htested := ((Expr.neutral_test _ _).sameUse htest).of_labels
    exact htested.trans (((Stmt.neutral_all _ _).sameUse hbody).trans ih)
  | otherwise htest hbody =>
    have htested := ((Expr.neutral_test _ _).sameUse htest).of_labels
    exact htested.trans ((Stmt.neutral_all _ _).sameUse hbody)

lemma Stmt.Opens.sameUse (h : s.Opens arena exit g block g') : SameUse g g' := by
  cases h with
  | cond hb => exact hb.sameUse.of_labels
  | whileLoop htest => exact ((Expr.neutral_test _ _).sameUse htest).of_labels
  | forLoop hstart htest =>
    have htested := ((Expr.neutral_test _ _).sameUse htest).of_labels
    exact ((Decl.neutral_option _).sameUse hstart).trans htested

lemma Stmt.Visits.sameUse (h : Stmt.Visits arena exit ss g s g') : SameUse g g' := by
  induction h with
  | here => exact .refl _
  | inside hopen _ ih => exact hopen.sameUse.trans ih
  | later hs _ ih => exact ((Stmt.neutral _ _).sameUse hs).trans ih

/-- Each statement of a program is met with the registers that were in use at the start, and with an
empty stack above the frame. -/
lemma Program.Visits.use {p : Program} (h : p.Visits arena g exit s g') :
    g'.bank.live = g.bank.live ∧ g'.depth = 0 := by
  obtain ⟨before, f, after, t₁, g₁, t₂, g₂, -, hbefore, -, hpreset, hbody⟩ := h
  have huse := ((Var.neutral_all _).sameUse hpreset).trans hbody.sameUse
  have hfront : g₁.bank.live = g.bank.live := FunDecl.live_all before hbefore
  exact ⟨huse.live.trans hfront, huse.depth⟩

/-- Generation of the block has come to the statement and has its code. -/
def Stmt.Finishes (arena : Arena) (exit : Label) (ss : List Stmt) (g : GenState) (s : Stmt) :
    Prop :=
  ∃ g₁ t g₂, Stmt.Visits arena exit ss g s g₁ ∧ (s.lower arena exit).Yields g₁ t g₂ ()

lemma Stmt.Finishes.inside (hopen : s.Opens arena exit g block g₁)
    (h : Stmt.Finishes arena exit block g₁ s') : Stmt.Finishes arena exit (s :: ss) g s' := by
  obtain ⟨g₂, t, g₃, hvisit, hs⟩ := h
  exact ⟨g₂, t, g₃, .inside hopen hvisit, hs⟩

lemma Stmt.Finishes.later (hs : (s.lower arena exit).Yields g text g₁ ())
    (h : Stmt.Finishes arena exit ss g₁ s') : Stmt.Finishes arena exit (s :: ss) g s' := by
  obtain ⟨g₂, t, g₃, hvisit, hs'⟩ := h
  exact ⟨g₂, t, g₃, .later hs hvisit, hs'⟩

mutual

/-- Generation that succeeds finishes all statements inside of the statement. -/
lemma Stmt.exists_opens : (s : Stmt) → ∀ {g g' : GenState} {text : List Line} {u : Unit},
    (s.lower arena exit).Yields g text g' u → Piece.stmt s' ∈ s.pieces →
    s' = s ∨ ∃ block g₁, s.Opens arena exit g block g₁ ∧ Stmt.Finishes arena exit block g₁ s'
  | .expr e, _, _, _, _, _, hs => .inl (by simpa [Stmt.pieces] using hs)
  | .decl d, _, _, _, _, _, hs => .inl (by simpa [Stmt.pieces] using hs)
  | .ret value, _, _, _, _, _, hs => .inl (by simpa [Stmt.pieces] using hs)
  | .cond b, _, _, _, _, h, hs => by
    obtain ⟨t, hb, -⟩ := Stmt.yields_cond h
    rcases List.mem_cons.mp hs with hs | hs
    · exact .inl (Piece.stmt.inj hs)
    · obtain ⟨block, g₁, hopen, hfinish⟩ := b.exists_opens hb hs
      exact .inr ⟨block, g₁, .cond hopen, hfinish⟩
  | .whileLoop c body, _, _, _, _, h, hs => by
    rw [Stmt.lower_while] at h
    obtain ⟨t, hloop, -⟩ := yields_labelled h
    obtain ⟨t₁, g₁, t₂, g₂, t₃, htest, hbody, -, -⟩ := yields_loop hloop
    have hs : s' = .whileLoop c body ∨ Piece.stmt s' ∈ Stmt.piecesAll body := by
      simpa [Stmt.pieces] using hs
    exact hs.imp_right fun hs => ⟨body, g₁, .whileLoop htest, Stmt.finishes body hbody hs⟩
  | .forLoop start c step body, _, _, _, _, h, hs => by
    rw [Stmt.lower_for] at h
    obtain ⟨t₀, g₀, _, _, hstart, hlabelled, -⟩ := Gen.yields_bind.mp h
    obtain ⟨t, hloop, -⟩ := yields_labelled hlabelled
    obtain ⟨t₁, g₁, t₂, g₂, t₃, htest, hbody, -, -⟩ := yields_loop hloop
    have hs : s' = .forLoop start c step body ∨ Piece.stmt s' ∈ Stmt.piecesAll body := by
      simpa [Stmt.pieces] using hs
    exact hs.imp_right fun hs => ⟨body, g₁, .forLoop hstart htest, Stmt.finishes body hbody hs⟩
termination_by structural s => s

lemma Stmt.finishes : (ss : List Stmt) → ∀ {g g' : GenState} {text : List Line} {u : Unit},
    (Stmt.lowerAll arena exit ss).Yields g text g' u → Piece.stmt s' ∈ Stmt.piecesAll ss →
    Stmt.Finishes arena exit ss g s'
  | [], _, _, _, _, _, hs => by simp [Stmt.piecesAll] at hs
  | s :: rest, g, _, _, _, h, hs => by
    obtain ⟨t, g₁, _, _, hfirst, hrest, -⟩ := Gen.yields_bind.mp h
    rcases List.mem_append.mp hs with hs | hs
    · obtain rfl | ⟨block, g₂, hopen, hfinish⟩ := s.exists_opens hfirst hs
      · exact ⟨g, t, g₁, .here, hfirst⟩
      · exact hfinish.inside hopen
    · exact (Stmt.finishes rest hrest hs).later hfirst
termination_by structural ss => ss

lemma Branch.exists_opens : (b : Branch) → ∀ {stop : Label} {g g' : GenState} {text : List Line}
    {u : Unit}, (b.lower arena exit stop).Yields g text g' u → Piece.stmt s' ∈ b.pieces →
    ∃ block g₁, b.Opens arena exit stop g block g₁ ∧ Stmt.Finishes arena exit block g₁ s'
  | ⟨c, body, .done⟩, _, _, _, _, _, h, hs => by
    obtain ⟨t₁, g₁, t₂, htest, hbody, -⟩ := Branch.yields_done h
    have hs : Piece.stmt s' ∈ Stmt.piecesAll body := by simpa [Branch.pieces] using hs
    exact ⟨body, g₁, .last htest, Stmt.finishes body hbody hs⟩
  | ⟨c, body, .elseIf next⟩, _, _, _, _, _, h, hs => by
    obtain ⟨t₁, g₁, t₂, g₂, t₃, htest, hbody, hnext, -⟩ := Branch.yields_next h nofun
    have hs : Piece.stmt s' ∈ Stmt.piecesAll body ∨ Piece.stmt s' ∈ next.pieces := by
      simpa [Branch.pieces] using hs
    rcases hs with hs | hs
    · exact ⟨body, g₁, .first nofun htest, Stmt.finishes body hbody hs⟩
    · obtain ⟨block, g₃, hopen, hfinish⟩ := next.exists_opens hnext hs
      exact ⟨block, g₃, .next htest hbody hopen, hfinish⟩
  | ⟨c, body, .otherwise last⟩, _, _, _, _, _, h, hs => by
    obtain ⟨t₁, g₁, t₂, g₂, t₃, htest, hbody, hrest, -⟩ := Branch.yields_next h nofun
    obtain ⟨_, _, _, _, hlast, -, -⟩ := Gen.yields_bind.mp hrest
    have hs : Piece.stmt s' ∈ Stmt.piecesAll body ∨ Piece.stmt s' ∈ Stmt.piecesAll last := by
      simpa [Branch.pieces] using hs
    rcases hs with hs | hs
    · exact ⟨body, g₁, .first nofun htest, Stmt.finishes body hbody hs⟩
    · exact ⟨last, g₂, .otherwise htest hbody, Stmt.finishes last hlast hs⟩
termination_by structural b => b

end

/-- The routine of a function is generated where those in front of it end. -/
lemma FunDecl.yields_split {f : FunDecl} {after : List FunDecl} : (before : List FunDecl) →
    ∀ {g g' : GenState} {text : List Line} {u : Unit},
    (FunDecl.lowerAll arena globals (before ++ f :: after)).Yields g text g' u →
    ∃ t₁ g₁ t₂ g₂, (FunDecl.lowerAll arena globals before).Yields g t₁ g₁ () ∧
      (f.lower arena globals).Yields g₁ t₂ g₂ ()
  | [], g, _, _, _, h => by
    obtain ⟨t, g₁, _, _, hf, -, -⟩ := Gen.yields_bind.mp h
    exact ⟨[], g, t, g₁, Gen.yields_pure.mpr ⟨rfl, rfl, rfl⟩, hf⟩
  | f' :: before, _, _, _, _, h => by
    obtain ⟨t, _, _, _, hfirst, hrest, -⟩ := Gen.yields_bind.mp h
    obtain ⟨t₁, g₁, t₂, g₂, hbefore, hf⟩ := FunDecl.yields_split before hrest
    exact ⟨t ++ t₁, g₁, t₂, g₂, Gen.yields_bind.mpr ⟨_, _, _, _, hfirst, hbefore, rfl⟩, hf⟩

/-- Generation that succeeds finishes every statement of the program. -/
lemma Program.finishes {p : Program} {f : FunDecl} (h : (p.lower arena).Yields g text g' u)
    (hf : f ∈ p.functions) (hs : Piece.stmt s ∈ Stmt.piecesAll f.body) :
    ∃ exit g₁ t g₂, p.Visits arena g exit s g₁ ∧ (s.lower arena exit).Yields g₁ t g₂ () := by
  obtain ⟨t, hall, -⟩ := Program.yields_lower h
  obtain ⟨before, after, hsplit⟩ := List.append_of_mem hf
  rw [hsplit] at hall
  obtain ⟨t₁, g₁, t₂, g₂, hbefore, hlower⟩ := FunDecl.yields_split before hall
  obtain ⟨t₃, g₃, t₄, hpreset, hbody, -⟩ := FunDecl.yields_lower hlower
  obtain ⟨g₄, t₅, g₅, hvisit, hyields⟩ := Stmt.finishes f.body hbody hs
  exact ⟨_, g₄, t₅, g₅, ⟨before, f, after, t₁, g₁, t₃, g₃, hsplit, hbefore, rfl, hpreset, hvisit⟩,
    hyields⟩

/-! ### The discipline -/

/-- What an expression does to the registers in use. -/
lemma Takes.use {r : Scratch} {n : ℕ} (h : Takes g g' r n) :
    Scratch.all.find? (· ∉ g.bank.live) = some r ∧
      (∀ q, q ∈ g'.bank.live ↔ q ∈ g.bank.live ∨ q = r) ∧ g'.depth = g.depth := by
  refine ⟨?_, fun q => ?_, h.depth⟩
  · have hfree : (fun q => decide (q ∉ g.bank.live)) = (!g.bank.isLive ·) := by
      funext q
      simp [Bank.mem_live]
    rw [hfree]
    exact h.first
  · rw [Bank.mem_live, Bank.mem_live, h.isLive, Bool.or_eq_true, decide_eq_true_iff, or_comm,
      eq_comm (a := r)]

/-- **Register discipline**: an expression takes the first register that is free and nothing else,
and statements, declarations and blocks take none. So every statement of a program starts and ends
with no register in use if none was at first; this holds of all statements if there is code for the
whole program, and else of those up to where generation stops. -/
theorem register_discipline (arena : Arena) :
    (∀ (e : Expr) (g : GenState) (r : Scratch), (e.lower arena g).result = .ok r →
      Scratch.all.find? (· ∉ g.bank.live) = some r ∧
      (∀ q, q ∈ (e.lower arena g).state.bank.live ↔ q ∈ g.bank.live ∨ q = r) ∧
      (e.lower arena g).state.depth = g.depth) ∧
    (∀ d : Decl, (d.lower arena).Neutral) ∧
    (∀ exit : Label, (∀ s : Stmt, (s.lower arena exit).Neutral) ∧
      (∀ ss, (Stmt.lowerAll arena exit ss).Neutral) ∧
      ∀ (b : Branch) (stop : Label), (b.lower arena exit stop).Neutral) ∧
    ∀ (p : Program) (g : GenState), g.bank.isClear = true →
      (∀ exit s g₁, p.Visits arena g exit s g₁ → g₁.bank.isClear = true ∧ g₁.depth = 0 ∧
        ∀ t g₂, (s.lower arena exit).Yields g₁ t g₂ () → g₂.bank.isClear = true ∧ g₂.depth = 0) ∧
      ∀ text g', (p.lower arena).Yields g text g' () → g'.bank.isClear = true ∧
        ∀ f ∈ p.functions, ∀ s, Piece.stmt s ∈ Stmt.piecesAll f.body →
          ∃ exit g₁ t g₂, p.Visits arena g exit s g₁ ∧
            (s.lower arena exit).Yields g₁ t g₂ () := by
  refine ⟨fun e g r h => (e.takes (Gen.yields_of_result h)).use, Decl.neutral,
    fun exit => ⟨Stmt.neutral exit, Stmt.neutral_all exit, fun b stop => b.neutral exit stop⟩,
    fun p g hclear => ?_⟩
  rw [Bank.isClear_iff] at hclear
  refine ⟨fun exit s g₁ hvisit => ?_, fun text g' h => ?_⟩
  · obtain ⟨hlive, hdepth⟩ := hvisit.use
    have hmet : g₁.bank.live = [] := hlive.trans hclear
    refine ⟨Bank.isClear_iff.mpr hmet, hdepth, fun t g₂ hs => ?_⟩
    have huse := (s.neutral exit).sameUse hs
    exact ⟨Bank.isClear_iff.mpr (huse.live.trans hmet), huse.depth.trans hdepth⟩
  · obtain ⟨t, hall, -⟩ := Program.yields_lower h
    exact ⟨Bank.isClear_iff.mpr ((FunDecl.live_all _ hall).trans hclear),
      fun f hf s hs => Program.finishes h hf hs⟩

/-- A call between operators, with a comparison among its arguments. -/
def mixedCall : Expr :=
  .binary (.arith .sub) (.call ⟨"f", 0, none⟩ [.binary (.compare .lt) (.int 1) (.int 2), .int 3])
    (.binary (.compare .ne) (.int 4) (.call ⟨printName, 0, none⟩ [.int 5]))

/-- A loop after a branch, with a name in it that was never resolved. -/
def brokenLoop : FunDecl where
  name := ⟨"f", 0, none⟩
  params := []
  returns := none
  body := [.cond ⟨mixedCall, [.ret none], .otherwise [.expr mixedCall]⟩,
    .whileLoop mixedCall [.expr mixedCall, .expr (.name ⟨"x", 0, none⟩)]]

/-- The first and the third register are in use. -/
def twoInUse : GenState := { bank := ({} : Bank).claim .rbx |>.claim .r11, depth := 3 }

theorem register_discipline_broken :
    ((mixedCall.lower #[] twoInUse).result = .ok .r10 ∧
      ∀ q, q ∈ (mixedCall.lower #[] twoInUse).state.bank.live ↔ q ∈ [.rbx, .r11] ∨ q = .r10) ∧
    (Program.lower #[] [.function brokenLoop] {}).result ≠ .ok () ∧
    ∃ exit g, Program.Visits #[] [.function brokenLoop] {} exit (.expr (.name ⟨"x", 0, none⟩)) g ∧
      g.bank.isClear = true ∧ g.depth = 0 := by
  obtain ⟨hexpr, -, -, hprogram⟩ := register_discipline #[]
  have htaken : (mixedCall.lower #[] twoInUse).result = .ok .r10 := by decide +kernel
  have hlive : twoInUse.bank.live = [.rbx, .r11] := by decide +kernel
  obtain ⟨-, huse, -⟩ := hexpr _ _ _ htaken
  rw [hlive] at huse
  have hstops : (Program.lower #[] [.function brokenLoop] {}).result ≠ .ok () := by decide +kernel
  obtain ⟨g, hvisit⟩ : ∃ g, Program.Visits #[] [.function brokenLoop] {} ⟨0⟩
      (.expr (.name ⟨"x", 0, none⟩)) g := by
    refine ⟨_, [], brokenLoop, [], _, {}, _, _, rfl, Gen.yields_pure.mpr ⟨rfl, rfl, rfl⟩, rfl,
      Gen.yields_pure.mpr ⟨rfl, rfl, rfl⟩, .later (Gen.yields_of_result ?_) (.inside
        (.whileLoop (Gen.yields_of_result ?_)) (.later (Gen.yields_of_result ?_) .here))⟩
    all_goals decide +kernel
  obtain ⟨hclear, hdepth, -⟩ := (hprogram _ _ rfl).1 _ _ _ hvisit
  exact ⟨⟨htaken, huse⟩, hstops, ⟨0⟩, g, hvisit, hclear, hdepth⟩

end TreeCompiler

import TreeCompiler.Proofs.Generated
import TreeCompiler.Proofs.UnitText

/-!
Statements and expressions at their places in the text.

The code of a function is put together from the code of its statements, and that from the code of
statements and expressions inside of them. Generation is followed once more here, to tell where the
code of each of them starts, down to the expressions inside of others. The code of a statement, and
of an expression that is inside of no other, starts and ends with an empty stack above the frame.
-/

namespace TreeCompiler

/-! ### Places -/

/-- A part of a program at its place in a text: what stands in front of its code, and the state in
which that is generated. -/
structure Place (α : Type) where
  before : List Line
  part : α
  state : GenState

namespace Place

variable {α β : Type} {t u : List Line} {ps : List (Place α)} {pl : Place α}

/-- The same places behind a further text. -/
def shift (t : List Line) (ps : List (Place α)) : List (Place α) :=
  ps.map fun pl => { pl with before := t ++ pl.before }

lemma mem_shift : pl ∈ shift t ps ↔ ∃ pl' ∈ ps, pl = { pl' with before := t ++ pl'.before } := by
  simp [shift, eq_comm]

@[simp] lemma map_part_shift : (shift t ps).map (·.part) = ps.map (·.part) := by
  simp [shift]

/-- The places in what is generated behind a step. -/
def behind (x : Gen β) (next : GenState → List (Place α)) (g : GenState) : List (Place α) :=
  shift (lines (x g).code) (next (x g).state)

lemma behind_eq {x : Gen β} {next : GenState → List (Place α)} {g g' : GenState} {b : β}
    (h : x.Yields g t g' b) : behind x next g = shift t (next g') := by
  obtain ⟨code, hcode, rfl⟩ := h
  rw [behind, hcode]

@[simp] lemma map_part_behind {x : Gen β} {next : GenState → List (Place α)} {g : GenState} :
    (behind x next g).map (·.part) = (next (x g).state).map (·.part) := map_part_shift

end Place

/-- What has code of its own. -/
inductive Piece where
  | stmt (s : Stmt)
  | expr (e : Expr)

/-- The piece has that code. An expression leaves its value in some register. -/
def Piece.Yields (arena : Arena) (exit : Label) (g : GenState) (t : List Line) (g' : GenState) :
    Piece → Prop
  | .stmt s => (s.lower arena exit).Yields g t g' ()
  | .expr e => ∃ r, (e.lower arena).Yields g t g' r

def Piece.exprs : Piece → List Expr
  | .stmt _ => []
  | .expr e => [e]

@[simp] lemma flatMap_exprs_map (es : List Expr) :
    (es.map Piece.expr).flatMap Piece.exprs = es := by
  simp [List.flatMap_map, Piece.exprs]

mutual

/-- A statement with all statements in it and the expressions that they evaluate, in the order of
the code. -/
def Stmt.pieces : Stmt → List Piece
  | .expr e => [.stmt (.expr e), .expr e]
  | .decl d => .stmt (.decl d) :: d.exprs.map .expr
  | .ret value => .stmt (.ret value) :: value.toList.map .expr
  | .cond b => .stmt (.cond b) :: b.pieces
  | .whileLoop c body => .stmt (.whileLoop c body) :: .expr c :: Stmt.piecesAll body
  | .forLoop start c step body => .stmt (.forLoop start c step body) ::
      ((Decl.exprsOption start).map .expr ++
        .expr c :: (Stmt.piecesAll body ++ step.toList.map .expr))
termination_by structural s => s

def Stmt.piecesAll : List Stmt → List Piece
  | [] => []
  | s :: rest => s.pieces ++ Stmt.piecesAll rest
termination_by structural ss => ss

def Branch.pieces : Branch → List Piece
  | ⟨c, body, .done⟩ => .expr c :: Stmt.piecesAll body
  | ⟨c, body, .elseIf next⟩ => .expr c :: (Stmt.piecesAll body ++ next.pieces)
  | ⟨c, body, .otherwise last⟩ => .expr c :: (Stmt.piecesAll body ++ Stmt.piecesAll last)
termination_by structural b => b

end

mutual

lemma Stmt.exprs_pieces : (s : Stmt) → s.pieces.flatMap Piece.exprs = s.exprs
  | .expr _ => rfl
  | .decl d => by simp [Stmt.pieces, Stmt.exprs, Piece.exprs]
  | .ret value => by simp [Stmt.pieces, Stmt.exprs, Piece.exprs]
  | .cond b => by simp [Stmt.pieces, Stmt.exprs, Piece.exprs, b.exprs_pieces]
  | .whileLoop c body | .forLoop _ c _ body => by
    simp [Stmt.pieces, Stmt.exprs, Piece.exprs, Stmt.exprs_piecesAll body]
termination_by structural s => s

lemma Stmt.exprs_piecesAll : (ss : List Stmt) →
    (Stmt.piecesAll ss).flatMap Piece.exprs = Stmt.exprsAll ss
  | [] => rfl
  | s :: rest => by
    simp [Stmt.piecesAll, Stmt.exprsAll, s.exprs_pieces, Stmt.exprs_piecesAll rest]
termination_by structural ss => ss

lemma Branch.exprs_pieces : (b : Branch) → b.pieces.flatMap Piece.exprs = b.exprs
  | ⟨c, body, .done⟩ => by
    simp [Branch.pieces, Branch.exprs, Tail.exprs, Piece.exprs, Stmt.exprs_piecesAll body]
  | ⟨c, body, .elseIf next⟩ => by
    simp [Branch.pieces, Branch.exprs, Tail.exprs, Piece.exprs, Stmt.exprs_piecesAll body,
      next.exprs_pieces]
  | ⟨c, body, .otherwise last⟩ => by
    simp [Branch.pieces, Branch.exprs, Tail.exprs, Piece.exprs, Stmt.exprs_piecesAll body,
      Stmt.exprs_piecesAll last]
termination_by structural b => b

end

section Places

open Place

/-- Expressions with which code starts. -/
def exprsAt (es : List Expr) (g : GenState) : List (Place Piece) := es.map fun e => ⟨[], .expr e, g⟩

@[simp] lemma map_part_exprsAt (es : List Expr) (g : GenState) :
    (exprsAt es g).map (·.part) = es.map .expr := by
  simp [exprsAt]

variable (arena : Arena) (exit : Label)

/-- A condition with a block that it guards, and what comes next. -/
def testedAt (c : Expr) (body : List Stmt) (skip : Label)
    (inner next : GenState → List (Place Piece)) (g : GenState) : List (Place Piece) :=
  ⟨[], .expr c, g⟩ :: behind (c.lowerTest arena skip) (fun g₁ =>
    inner g₁ ++ behind (Stmt.lowerAll arena exit body) next g₁) g

mutual

/-- Where the pieces of a statement stand. -/
def Stmt.places : Stmt → GenState → List (Place Piece)
  | .expr e, g => [⟨[], .stmt (.expr e), g⟩, ⟨[], .expr e, g⟩]
  | .decl d, g => ⟨[], .stmt (.decl d), g⟩ :: exprsAt d.exprs g
  | .ret value, g => ⟨[], .stmt (.ret value), g⟩ :: exprsAt value.toList g
  | .cond b, g => ⟨[], .stmt (.cond b), g⟩ ::
    b.places ⟨g.labels⟩ { g with labels := g.labels + 1 }
  | .whileLoop c body, g => ⟨[], .stmt (.whileLoop c body), g⟩ ::
    shift [.label ⟨g.labels⟩] (testedAt arena exit c body ⟨g.labels + 1⟩ (Stmt.placesAll body)
      (exprsAt []) { g with labels := g.labels + 2 })
  | .forLoop start c step body, g => ⟨[], .stmt (.forLoop start c step body), g⟩ ::
    (exprsAt (Decl.exprsOption start) g ++ behind (Decl.lowerOption arena start) (fun g =>
      shift [.label ⟨g.labels⟩] (testedAt arena exit c body ⟨g.labels + 1⟩ (Stmt.placesAll body)
        (exprsAt step.toList) { g with labels := g.labels + 2 })) g)
termination_by structural s => s

def Stmt.placesAll : List Stmt → GenState → List (Place Piece)
  | [], _ => []
  | s :: rest, g => s.places g ++ behind (s.lower arena exit) (Stmt.placesAll rest) g
termination_by structural ss => ss

def Branch.places : Branch → (stop : Label) → GenState → List (Place Piece)
  | ⟨c, body, .done⟩, stop, g =>
    testedAt arena exit c body stop (Stmt.placesAll body) (exprsAt []) g
  | ⟨c, body, .elseIf next⟩, stop, g =>
    testedAt arena exit c body ⟨g.labels⟩ (Stmt.placesAll body)
      (fun g₂ => shift [.instr (.jump stop), .label ⟨g.labels⟩] (next.places stop g₂))
      { g with labels := g.labels + 1 }
  | ⟨c, body, .otherwise last⟩, stop, g =>
    testedAt arena exit c body ⟨g.labels⟩ (Stmt.placesAll body)
      (fun g₂ => shift [.instr (.jump stop), .label ⟨g.labels⟩] (Stmt.placesAll last g₂))
      { g with labels := g.labels + 1 }
termination_by structural b => b

end

/-- Where the values of variables stand. -/
def Var.placesAll : List Var → GenState → List (Place Piece)
  | [], _ => []
  | v :: rest, g => exprsAt v.exprs g ++ behind (v.lower arena) (Var.placesAll rest) g

mutual

/-- Every piece has its place. -/
lemma Stmt.map_part_places : (s : Stmt) → (g : GenState) →
    (s.places arena exit g).map (·.part) = s.pieces
  | .expr _, _ => rfl
  | .decl d, _ => by simp [Stmt.places, Stmt.pieces]
  | .ret value, _ => by simp [Stmt.places, Stmt.pieces]
  | .cond b, g => by simp [Stmt.places, Stmt.pieces, b.map_part_places]
  | .whileLoop _ body, g | .forLoop _ _ _ body, g => by
    simp [Stmt.places, Stmt.pieces, testedAt, Stmt.map_part_placesAll body]
termination_by structural s => s

lemma Stmt.map_part_placesAll : (ss : List Stmt) → (g : GenState) →
    (Stmt.placesAll arena exit ss g).map (·.part) = Stmt.piecesAll ss
  | [], _ => rfl
  | s :: rest, g => by
    simp [Stmt.placesAll, Stmt.piecesAll, s.map_part_places, Stmt.map_part_placesAll rest]
termination_by structural ss => ss

lemma Branch.map_part_places : (b : Branch) → (stop : Label) → (g : GenState) →
    (b.places arena exit stop g).map (·.part) = b.pieces
  | ⟨_, body, .done⟩, _, _ => by
    simp [Branch.places, Branch.pieces, testedAt, Stmt.map_part_placesAll body]
  | ⟨_, body, .elseIf next⟩, _, _ => by
    simp [Branch.places, Branch.pieces, testedAt, Stmt.map_part_placesAll body,
      next.map_part_places]
  | ⟨_, body, .otherwise last⟩, _, _ => by
    simp [Branch.places, Branch.pieces, testedAt, Stmt.map_part_placesAll body,
      Stmt.map_part_placesAll last]
termination_by structural b => b

end

lemma Var.map_part_placesAll : (vs : List Var) → (g : GenState) →
    (Var.placesAll arena vs g).map (·.part) = (vs.flatMap Var.exprs).map .expr
  | [], _ => rfl
  | v :: rest, g => by simp [Var.placesAll, Var.map_part_placesAll rest]

end Places

/-! ### The stack at a place -/

/-- The code of a piece stands at its place, and the stack is empty in front of the code and behind
it. -/
def Place.Rests (arena : Arena) (exit : Label) (text : List Line) (pl : Place Piece) : Prop :=
  ∃ t g' post, pl.part.Yields arena exit pl.state t g' ∧
    text = pl.before ++ (t ++ post) ∧ height pl.before = 0 ∧ height (pl.before ++ t) = 0

section Rests

open Place

variable {arena : Arena} {exit stop : Label} {g g' : GenState} {t u text : List Line}
  {ps : List (Place Piece)}

lemma Place.Rests.append {pl : Place Piece} (h : pl.Rests arena exit text) (u : List Line) :
    pl.Rests arena exit (text ++ u) := by
  obtain ⟨t, g', post, hlower, rfl, hbefore, hbehind⟩ := h
  exact ⟨t, g', post ++ u, hlower, by simp, hbefore, hbehind⟩

lemma rests_shift (ht : height t = 0) (h : ∀ pl ∈ ps, pl.Rests arena exit text) :
    ∀ pl ∈ shift t ps, pl.Rests arena exit (t ++ text) := by
  intro pl hpl
  obtain ⟨pl', hpl', rfl⟩ := mem_shift.mp hpl
  obtain ⟨t', g', post, hlower, rfl, hbefore, hbehind⟩ := h pl' hpl'
  exact ⟨t', g', post, hlower, by simp, by simp [ht, hbefore], by simpa [ht] using hbehind⟩

/-- Two groups of places, the second behind the text of the first. -/
lemma rests_append {qs : List (Place Piece)} (ht : height t = 0)
    (hps : ∀ pl ∈ ps, pl.Rests arena exit t) (hqs : ∀ pl ∈ qs, pl.Rests arena exit u) :
    ∀ pl ∈ ps ++ shift t qs, pl.Rests arena exit (t ++ u) := by
  intro pl hpl
  rcases List.mem_append.mp hpl with hleft | hright
  · exact (hps pl hleft).append u
  · exact rests_shift ht hqs pl hright

lemma Stmt.rests_here {s : Stmt} (h : (s.lower arena exit).Yields g text g' ()) :
    Place.Rests arena exit text ⟨[], .stmt s, g⟩ :=
  ⟨text, g', [], h, by simp, rfl, (Stmt.level s h).height_eq⟩

lemma Expr.rests_here {e : Expr} {r : Scratch} (h : (e.lower arena).Yields g text g' r)
    (u : List Line) : Place.Rests arena exit (text ++ u) ⟨[], .expr e, g⟩ := by
  have hlevel : Level [] g text _ := Expr.level h
  exact ⟨text, g', u, ⟨r, h⟩, rfl, rfl, hlevel.height_eq⟩

lemma Expr.rests_returned {e : Option Expr}
    (h : (Expr.lowerReturned arena e).Yields g text g' ()) :
    ∀ pl ∈ exprsAt e.toList g, pl.Rests arena exit text := by
  cases e with
  | none => nofun
  | some e =>
    obtain ⟨t, g₁, r, he, -, rfl⟩ := Expr.yields_returned h
    exact List.forall_mem_singleton.mpr (Expr.rests_here he _)

lemma Expr.rests_step {e : Option Expr} (h : (Expr.lowerStep arena e).Yields g text g' ()) :
    ∀ pl ∈ exprsAt e.toList g, pl.Rests arena exit text := by
  cases e with
  | none => nofun
  | some e =>
    obtain ⟨g₁, r, he, -⟩ := Expr.yields_dropped h
    exact List.forall_mem_singleton.mpr (by simpa using Expr.rests_here he [])

lemma Var.rests {v : Var} (h : (v.lower arena).Yields g text g' ()) :
    ∀ pl ∈ exprsAt v.exprs g, pl.Rests arena exit text := by
  rw [Var.exprs]
  cases hv : v.value with
  | none => nofun
  | some e =>
    obtain ⟨t, g₁, r, o, he, -, -, rfl⟩ := Var.yields_some hv h
    exact List.forall_mem_singleton.mpr (Expr.rests_here he _)

lemma Decl.rests {d : Decl} (h : (d.lower arena).Yields g text g' ()) :
    ∀ pl ∈ exprsAt d.exprs g, pl.Rests arena exit text := by
  cases d with
  | function f => nofun
  | globalVar v | localVar v =>
    rw [Decl.exprs, Decl.vars, List.flatMap_singleton]
    exact Var.rests h

lemma Decl.rests_option {d : Option Decl} (h : (Decl.lowerOption arena d).Yields g text g' ()) :
    ∀ pl ∈ exprsAt (Decl.exprsOption d) g, pl.Rests arena exit text := by
  cases d with
  | none => nofun
  | some d => exact Decl.rests h

lemma Var.restsAll : (vs : List Var) → ∀ {g g' : GenState} {text : List Line},
    (Var.lowerAll arena vs).Yields g text g' () →
      ∀ pl ∈ Var.placesAll arena vs g, pl.Rests arena exit text
  | [], _, _, _, _ => nofun
  | v :: rest, _, _, _, h => by
    obtain ⟨t, g₁, _, _, hv, hrest, rfl⟩ := Gen.yields_bind.mp h
    have hlevel : Level [] _ t g₁ := Var.level hv
    rw [Var.placesAll, behind_eq hv]
    exact rests_append hlevel.height_eq (Var.rests hv) (Var.restsAll rest hrest)

/-- A condition, its block, and what comes next. -/
lemma rests_tested {c : Expr} {body : List Stmt} {skip : Label} {g₁ g₂ : GenState}
    {t₁ t₂ t₃ : List Line} {next : GenState → List (Place Piece)}
    (htest : (c.lowerTest arena skip).Yields g t₁ g₁ ())
    (hlist : (Stmt.lowerAll arena exit body).Yields g₁ t₂ g₂ ())
    (hbody : ∀ pl ∈ Stmt.placesAll arena exit body g₁, pl.Rests arena exit t₂)
    (hnext : ∀ pl ∈ next g₂, pl.Rests arena exit t₃) :
    ∀ pl ∈ testedAt arena exit c body skip (Stmt.placesAll arena exit body) next g,
      pl.Rests arena exit (t₁ ++ (t₂ ++ t₃)) := by
  have hlevel : Level [skip] g t₁ g₁ := Expr.level_test htest (by simp)
  refine List.forall_mem_cons.mpr ⟨?_, ?_⟩
  · obtain ⟨t, g', r, hc, -, rfl⟩ := Expr.yields_test htest
    rw [List.append_assoc]
    exact Expr.rests_here hc _
  · rw [behind_eq htest, behind_eq hlist]
    have hlevelBody := Stmt.levelAll body hlist
    exact rests_shift hlevel.height_eq (rests_append hlevelBody.height_eq hbody hnext)

/-- A loop from its top label on. -/
lemma rests_labelled {c : Expr} {step : Option Expr} {body : List Stmt}
    (hbody : ∀ {g g' : GenState} {text : List Line},
      (Stmt.lowerAll arena exit body).Yields g text g' () →
        ∀ pl ∈ Stmt.placesAll arena exit body g, pl.Rests arena exit text)
    (h : (lowerLabelled arena exit c step body).Yields g text g' ()) :
    ∀ pl ∈ shift [.label ⟨g.labels⟩] (testedAt arena exit c body ⟨g.labels + 1⟩
      (Stmt.placesAll arena exit body) (exprsAt step.toList) { g with labels := g.labels + 2 }),
      pl.Rests arena exit text := by
  obtain ⟨_, hloop, rfl⟩ := yields_labelled h
  obtain ⟨t₁, g₁, t₂, g₂, t₃, htest, hlist, hstep, rfl⟩ := yields_loop hloop
  refine rests_shift (t := [.label _]) (by simp) (rests_tested htest hlist (hbody hlist) ?_)
  exact fun pl hpl => (Expr.rests_step hstep pl hpl).append _

mutual

/-- Every piece rests at its place. -/
theorem Stmt.rests : (s : Stmt) → ∀ {g g' : GenState} {text : List Line},
    (s.lower arena exit).Yields g text g' () →
      ∀ pl ∈ s.places arena exit g, pl.Rests arena exit text
  | .expr e, _, _, _, h => by
    refine List.forall_mem_cons.mpr ⟨Stmt.rests_here h, ?_⟩
    obtain ⟨g₁, r, he, -⟩ := Expr.yields_dropped h
    exact List.forall_mem_singleton.mpr (by simpa using Expr.rests_here he [])
  | .decl d, _, _, _, h => List.forall_mem_cons.mpr ⟨Stmt.rests_here h, Decl.rests h⟩
  | .ret value, _, _, _, h => by
    refine List.forall_mem_cons.mpr ⟨Stmt.rests_here h, ?_⟩
    obtain ⟨t, hvalue, rfl⟩ := Stmt.yields_ret h
    exact fun pl hpl => (Expr.rests_returned hvalue pl hpl).append _
  | .cond b, _, _, _, h => by
    refine List.forall_mem_cons.mpr ⟨Stmt.rests_here h, ?_⟩
    obtain ⟨t, hb, rfl⟩ := Stmt.yields_cond h
    exact fun pl hpl => (Branch.rests b hb pl hpl).append _
  | .whileLoop c body, _, _, _, h => by
    refine List.forall_mem_cons.mpr ⟨Stmt.rests_here h, ?_⟩
    rw [Stmt.lower_while] at h
    exact rests_labelled (Stmt.restsAll body) h
  | .forLoop start c step body, _, _, _, h => by
    refine List.forall_mem_cons.mpr ⟨Stmt.rests_here h, ?_⟩
    rw [Stmt.lower_for] at h
    obtain ⟨t, g₁, _, _, hstart, hloop, rfl⟩ := Gen.yields_bind.mp h
    have hlevel : Level [] _ t g₁ := Decl.level_option hstart
    rw [behind_eq hstart]
    have hrests := rests_labelled (Stmt.restsAll body) hloop
    exact rests_append hlevel.height_eq (Decl.rests_option hstart) hrests
termination_by structural s => s

theorem Stmt.restsAll : (ss : List Stmt) → ∀ {g g' : GenState} {text : List Line},
    (Stmt.lowerAll arena exit ss).Yields g text g' () →
      ∀ pl ∈ Stmt.placesAll arena exit ss g, pl.Rests arena exit text
  | [], _, _, _, _ => nofun
  | s :: rest, _, _, _, h => by
    obtain ⟨t, g₁, _, _, hfirst, hrest, rfl⟩ := Gen.yields_bind.mp h
    rw [Stmt.placesAll, behind_eq hfirst]
    have hlevel := Stmt.level s hfirst
    exact rests_append hlevel.height_eq (Stmt.rests s hfirst) (Stmt.restsAll rest hrest)
termination_by structural ss => ss

theorem Branch.rests : (b : Branch) → ∀ {stop : Label} {g g' : GenState} {text : List Line},
    (b.lower arena exit stop).Yields g text g' () →
      ∀ pl ∈ b.places arena exit stop g, pl.Rests arena exit text
  | ⟨c, body, .done⟩, stop, _, _, _, h => by
    obtain ⟨t₁, g₁, t₂, htest, hlist, rfl⟩ := Branch.yields_done h
    exact rests_tested htest hlist (Stmt.restsAll body hlist) nofun
  | ⟨c, body, .elseIf next⟩, stop, g, _, _, h => by
    obtain ⟨t₁, g₁, t₂, g₂, t₃, htest, hlist, hnext, rfl⟩ := Branch.yields_next h (by simp)
    exact rests_tested htest hlist (Stmt.restsAll body hlist)
      (rests_shift (t := [.instr (.jump stop), .label _]) (by simp) (Branch.rests next hnext))
  | ⟨c, body, .otherwise last⟩, stop, _, _, _, h => by
    obtain ⟨t₁, g₁, t₂, g₂, t₃, htest, hlist, htail, rfl⟩ := Branch.yields_next h (by simp)
    obtain ⟨t, g₃, _, _, hlast, -, rfl⟩ := Gen.yields_bind.mp htail
    refine rests_tested htest hlist (Stmt.restsAll body hlist)
      (rests_shift (t := [.instr (.jump stop), .label _]) (by simp) fun pl hpl => ?_)
    exact (Stmt.restsAll last hlast pl hpl).append _
termination_by structural b => b

end

end Rests

/-! ### Expressions inside of expressions -/

/-- The line that takes words off the stack, if there are any. -/
def dropLines (n : ℕ) : List Line := if n = 0 then [] else [.instr (.raiseStack (n * wordSize))]

namespace GenState

variable (g : GenState) (pending : ℕ)

/-- The words that make the stack even for a call with that many arguments. -/
def padding : ℕ := Gen.padding (g.depth + g.bank.live.length) pending

/-- The lines in front of the arguments of a call. -/
def callHead : List Line :=
  g.bank.live.map (fun r => .instr (.push (.scratch r))) ++
    List.replicate (g.padding pending) (.instr .pushZero)

/-- The state in which the arguments are generated. -/
def inCall : GenState :=
  { g with
    bank := Gen.saved g.bank g.bank.live
    depth := g.depth + g.bank.live.length + g.padding pending }

end GenState

section Expressions

open Place

lemma Expr.yields_call {arena : Arena} {f : Ident} {args : List Expr} {g g' : GenState}
    {text : List Line} {r : Scratch} (h : ((Expr.call f args).lower arena).Yields g text g' r) :
    ∃ t g₁ post, (f.pass arena args).Yields (g.inCall (f.pushed args)) t g₁ () ∧
      text = g.callHead (f.pushed args) ++ (t ++ (.instr (.call f.routine) ::
        (dropLines (f.pushed args + g.padding (f.pushed args)) ++ post))) := by
  rw [Expr.lower_call] at h
  obtain ⟨n, t, g₁, bank, rfl, hargs, -, -, rfl⟩ := Gen.yields_callWith.mp h
  exact ⟨t, g₁, _, hargs, (List.append_assoc ..).symm⟩

lemma Expr.lowerPrinted_cons (arena : Arena) (e : Expr) (rest : List Expr) :
    Expr.lowerPrinted arena (e :: rest) = (do
      Expr.lowerPrinted arena [e]
      Expr.lowerPrinted arena rest) := by
  simp [Expr.lowerPrinted]

variable (arena : Arena)

mutual

/-- Where an expression and all that are inside of it stand. -/
def Expr.places : Expr → GenState → List (Place Expr)
  | .int c, g => [⟨[], .int c, g⟩]
  | .bool b, g => [⟨[], .bool b, g⟩]
  | .name x, g => [⟨[], .name x, g⟩]
  | .assign x e, g => ⟨[], .assign x e, g⟩ :: e.places g
  | .binary op l r, g =>
    ⟨[], .binary op l r, g⟩ :: (l.places g ++ behind (l.lower arena) r.places g)
  | .call f args, g => ⟨[], .call f args, g⟩ :: shift (g.callHead (f.pushed args))
      (if f.name == printName then Expr.placesPrinted args (g.inCall (f.pushed args))
      else Expr.placesArgs args (g.inCall (f.pushed args)))
termination_by structural e => e

/-- The code of an argument stands behind that of the next one. -/
def Expr.placesArgs : List Expr → GenState → List (Place Expr)
  | [], _ => []
  | e :: rest, g => behind (Expr.lowerArgs arena rest) e.places g ++ Expr.placesArgs rest g
termination_by structural es => es

def Expr.placesPrinted : List Expr → GenState → List (Place Expr)
  | [], _ => []
  | e :: rest, g => e.places g ++ behind (Expr.lowerPrinted arena [e]) (Expr.placesPrinted rest) g
termination_by structural es => es

end

mutual

lemma Expr.map_part_places : (e : Expr) → (g : GenState) →
    (e.places arena g).map (·.part) = e.parts
  | .int _, _ | .bool _, _ | .name _, _ => rfl
  | .assign _ e, g => by simp [Expr.places, Expr.parts, e.map_part_places]
  | .binary _ l r, g => by simp [Expr.places, Expr.parts, l.map_part_places, r.map_part_places]
  | .call f args, g => by
    rw [Expr.places, Expr.parts, List.map_cons, map_part_shift]
    split
    · rw [Expr.map_part_placesPrinted args]
    · rw [Expr.map_part_placesArgs args]
termination_by structural e => e

lemma Expr.map_part_placesArgs : (es : List Expr) → (g : GenState) →
    (Expr.placesArgs arena es g).map (·.part) = Expr.partsAll es
  | [], _ => rfl
  | e :: rest, g => by
    simp [Expr.placesArgs, Expr.partsAll, e.map_part_places, Expr.map_part_placesArgs rest]
termination_by structural es => es

lemma Expr.map_part_placesPrinted : (es : List Expr) → (g : GenState) →
    (Expr.placesPrinted arena es g).map (·.part) = Expr.partsAll es
  | [], _ => rfl
  | e :: rest, g => by
    simp [Expr.placesPrinted, Expr.partsAll, e.map_part_places, Expr.map_part_placesPrinted rest]
termination_by structural es => es

end

/-- The code of an expression stands at its place. -/
def Place.Sits (text : List Line) (pl : Place Expr) : Prop :=
  ∃ t g' r post, (pl.part.lower arena).Yields pl.state t g' r ∧ text = pl.before ++ (t ++ post)

variable {arena} {t u text : List Line} {ps qs : List (Place Expr)}

lemma Place.Sits.append {pl : Place Expr} (h : pl.Sits arena text) (u : List Line) :
    pl.Sits arena (text ++ u) := by
  obtain ⟨t, g', r, post, hlower, rfl⟩ := h
  exact ⟨t, g', r, post ++ u, hlower, by simp⟩

lemma sits_shift (h : ∀ pl ∈ ps, pl.Sits arena text) :
    ∀ pl ∈ shift t ps, pl.Sits arena (t ++ text) := by
  intro pl hpl
  obtain ⟨pl', hpl', rfl⟩ := mem_shift.mp hpl
  obtain ⟨t', g', r, post, hlower, rfl⟩ := h pl' hpl'
  exact ⟨t', g', r, post, hlower, by simp⟩

lemma Expr.sits_here {e : Expr} {g g' : GenState} {r : Scratch}
    (h : (e.lower arena).Yields g text g' r) : Place.Sits arena text ⟨[], e, g⟩ :=
  ⟨text, g', r, [], h, by simp⟩

mutual

/-- Every expression sits at its place. -/
theorem Expr.sits : (e : Expr) → ∀ {g g' : GenState} {text : List Line} {r : Scratch},
    (e.lower arena).Yields g text g' r → ∀ pl ∈ e.places arena g, pl.Sits arena text
  | .int _, _, _, _, _, h | .bool _, _, _, _, _, h | .name _, _, _, _, _, h =>
    List.forall_mem_singleton.mpr (Expr.sits_here h)
  | .assign _ e, _, _, _, _, h => by
    refine List.forall_mem_cons.mpr ⟨Expr.sits_here h, ?_⟩
    obtain ⟨t, g₁, r, u, he, -, rfl⟩ := Gen.yields_bind.mp h
    exact fun pl hpl => (e.sits he pl hpl).append u
  | .binary _ l r, _, _, _, _, h => by
    refine List.forall_mem_cons.mpr ⟨Expr.sits_here h, ?_⟩
    obtain ⟨t, g₁, _, _, hl, hrest, rfl⟩ := Gen.yields_bind.mp h
    obtain ⟨u, g₂, _, v, hr, -, rfl⟩ := Gen.yields_bind.mp hrest
    rw [behind_eq hl]
    refine List.forall_mem_append.mpr ⟨fun pl hpl => (l.sits hl pl hpl).append _, ?_⟩
    exact sits_shift fun pl hpl => (r.sits hr pl hpl).append v
  | .call f args, g, _, _, _, h => by
    refine List.forall_mem_cons.mpr ⟨Expr.sits_here h, ?_⟩
    obtain ⟨t, g₁, post, hpass, rfl⟩ := Expr.yields_call h
    refine sits_shift fun pl hpl => Place.Sits.append ?_ _
    rw [Ident.pass] at hpass
    split at hpass
    · next hprint =>
      rw [if_pos hprint] at hpl
      exact Expr.sits_printed args hpass pl hpl
    · next hprint =>
      rw [if_neg hprint] at hpl
      exact Expr.sits_args args hpass pl hpl
termination_by structural e => e

theorem Expr.sits_args : (es : List Expr) → ∀ {g g' : GenState} {text : List Line},
    (Expr.lowerArgs arena es).Yields g text g' () →
      ∀ pl ∈ Expr.placesArgs arena es g, pl.Sits arena text
  | [], _, _, _, _ => nofun
  | e :: rest, _, _, _, h => by
    obtain ⟨t, g₁, _, _, hrest, he, rfl⟩ := Gen.yields_bind.mp h
    obtain ⟨u, g₂, r, v, hr, -, rfl⟩ := Gen.yields_bind.mp he
    rw [Expr.placesArgs, behind_eq hrest]
    refine List.forall_mem_append.mpr ⟨?_, fun pl hpl => ?_⟩
    · exact sits_shift fun pl hpl => (e.sits hr pl hpl).append v
    · exact (Expr.sits_args rest hrest pl hpl).append _
termination_by structural es => es

theorem Expr.sits_printed : (es : List Expr) → ∀ {g g' : GenState} {text : List Line},
    (Expr.lowerPrinted arena es).Yields g text g' () →
      ∀ pl ∈ Expr.placesPrinted arena es g, pl.Sits arena text
  | [], _, _, _, _ => nofun
  | e :: rest, _, _, _, h => by
    rw [Expr.lowerPrinted_cons] at h
    obtain ⟨t, g₁, _, _, hfirst, hrest, rfl⟩ := Gen.yields_bind.mp h
    rw [Expr.placesPrinted, behind_eq hfirst]
    refine List.forall_mem_append.mpr ⟨fun pl hpl => ?_, sits_shift (Expr.sits_printed rest hrest)⟩
    obtain ⟨u, g₂, r, v, he, -, rfl⟩ := Gen.yields_bind.mp hfirst
    exact ((e.sits he pl hpl).append v).append _
termination_by structural es => es

end

end Expressions

/-! ### Places in a routine -/

namespace Routine

variable {arena : Arena} {globals : List Var} {r : Routine} {g' : GenState}

/-- Where the pieces of a function stand in the body of its routine. -/
def places (arena : Arena) (globals : List Var) (r : Routine) : List (Place Piece) :=
  Var.placesAll arena (r.fn.preset globals) r.start ++
    Place.behind (Var.lowerAll arena (r.fn.preset globals))
      (Stmt.placesAll arena r.exit r.fn.body) r.start

/-- The values of the globals come first in the entry point. -/
lemma map_part_places : (r.places arena globals).map (·.part) =
    ((r.fn.preset globals).flatMap Var.exprs).map .expr ++ Stmt.piecesAll r.fn.body := by
  rw [places, List.map_append, Var.map_part_placesAll, Place.map_part_behind,
    Stmt.map_part_placesAll]

lemma Generated.rests (h : r.Generated arena globals g') :
    ∀ pl ∈ r.places arena globals, pl.Rests arena r.exit r.body := by
  obtain ⟨t₁, g₁, t₂, hpreset, hbody, hsplit⟩ := h.body
  have hlevel : Level [] r.start t₁ g₁ := Var.level_all _ hpreset
  rw [places, Place.behind_eq hpreset, hsplit]
  refine rests_append hlevel.height_eq (Var.restsAll _ hpreset) fun pl hpl => ?_
  exact (Stmt.restsAll r.fn.body hbody pl hpl).append _

/-- Where the expressions of a function stand, with all that are inside of others. -/
def exprPlaces (arena : Arena) (globals : List Var) (r : Routine) : List (Place Expr) :=
  (r.places arena globals).flatMap fun pl =>
    pl.part.exprs.flatMap fun e => Place.shift pl.before (e.places arena pl.state)

lemma map_part_exprPlaces : (r.exprPlaces arena globals).map (·.part) =
    (r.fn.generated globals).flatMap Expr.parts := by
  have hexprs : r.fn.generated globals =
      ((r.places arena globals).map (·.part)).flatMap Piece.exprs := by
    rw [map_part_places, List.flatMap_append, flatMap_exprs_map, Stmt.exprs_piecesAll,
      FunDecl.generated]
  simp only [hexprs, exprPlaces, List.map_flatMap, List.flatMap_map, List.flatMap_assoc,
    Place.map_part_shift, Expr.map_part_places]

lemma Generated.sits (h : r.Generated arena globals g') :
    ∀ pl ∈ r.exprPlaces arena globals, pl.Sits arena r.body := by
  intro pl hpl
  obtain ⟨outer, houter, hpl⟩ := List.mem_flatMap.mp hpl
  obtain ⟨t, g₁, post, hyields, hbody, -⟩ := h.rests outer houter
  obtain ⟨e, he, hpl⟩ := List.mem_flatMap.mp hpl
  cases hpart : outer.part with
  | stmt s =>
    rw [hpart] at he
    cases he
  | expr e' =>
    rw [hpart] at he hyields
    obtain rfl := List.mem_singleton.mp he
    obtain ⟨r', hlower⟩ := hyields
    rw [hbody]
    exact sits_shift (fun pl' hpl' => (e.sits hlower pl' hpl').append post) pl hpl

end Routine

end TreeCompiler

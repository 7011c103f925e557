import Mathlib.Data.List.Perm.Basic
import TreeCompiler.Proofs.Statements

/-!
The code of a chain of branches.

A chain is a row of arms: blocks that have a condition in front of them, and at the end perhaps one
that has none. All arms leave for the end of the chain. An arm whose condition fails goes to the
label in front of the next one, or to the end if there is none. Apart from the labels that
conditions and blocks draw for themselves, a chain draws one for each arm: the end, and the front
of every arm but the first.
-/

namespace TreeCompiler

/-! ### Chains in the tree -/

/-- The conditions of a chain, each with the block that it guards. -/
def Branch.arms : Branch → List (Expr × List Stmt)
  | ⟨c, body, .done⟩ => [(c, body)]
  | ⟨c, body, .elseIf next⟩ => (c, body) :: next.arms
  | ⟨c, body, .otherwise _⟩ => [(c, body)]
termination_by structural b => b

/-- The block that is for the case that all conditions fail. -/
def Branch.last? : Branch → Option (List Stmt)
  | ⟨_, _, .done⟩ => none
  | ⟨_, _, .elseIf next⟩ => next.last?
  | ⟨_, _, .otherwise last⟩ => some last
termination_by structural b => b

/-- All blocks of a chain, with their conditions as far as they have any. -/
def Branch.parts (b : Branch) : List (Option Expr × List Stmt) :=
  b.arms.map (fun arm => (some arm.1, arm.2)) ++ b.last?.toList.map (none, ·)

/-- Where the condition fails that nothing follows. -/
def Branch.leftOver (b : Branch) (stop : Label) : List (Option Label) :=
  if b.last?.isSome then [] else [some stop]

/-! ### Arms in the text -/

/-- The labels drawn from one state to another. -/
def drawn (g g' : GenState) : List Label :=
  (List.range' g.labels (g'.labels - g.labels)).map Label.mk

/-- A condition with its code, and the label to which it jumps when it fails. -/
structure Guard where
  condition : Expr
  state : GenState
  code : List Line
  value : Scratch
  skip : Label

namespace Guard

def text (c : Guard) : List Line :=
  c.code ++ [.instr (.compareOne c.value), .instr (.jumpIf .ne c.skip)]

/-- The code is that of the condition, and generation goes on in that state. -/
def Generated (arena : Arena) (c : Guard) (next : GenState) : Prop :=
  ∃ g, (c.condition.lower arena).Yields c.state c.code g c.value ∧
    next = { g with bank := g.bank.free c.value }

end Guard

/-- A block of a chain with its code, and what stands in front of it. -/
structure Arm where
  entry : Option Label
  guard : Option Guard
  block : List Stmt
  state : GenState
  code : List Line
  finish : GenState

namespace Arm

def source (a : Arm) : Option Expr × List Stmt := (a.guard.map (·.condition), a.block)

/-- The lines of an arm: its label, its test, its block and the way out. -/
def text (stop : Label) (a : Arm) : List Line :=
  a.entry.toList.map .label ++ (a.guard.toList.flatMap Guard.text ++
    (a.code ++ [.instr (.jump stop)]))

/-- The code is that of the condition and of the block. -/
def Generated (arena : Arena) (exit : Label) (a : Arm) : Prop :=
  (∀ c ∈ a.guard, c.Generated arena a.state) ∧
    (Stmt.lowerAll arena exit a.block).Yields a.state a.code a.finish ()

/-- The labels drawn inside of the condition and the block. -/
def inner (a : Arm) : List Label :=
  a.guard.toList.flatMap (fun c => drawn c.state a.state) ++ drawn a.state a.finish

end Arm

/-- The arms make up the text of a chain, or of the rest of one behind the label `entry`. -/
structure LaidOut (arena : Arena) (exit stop : Label) (parts : List (Option Expr × List Stmt))
    (leftOver : List (Option Label)) (entry : Option Label) (g : GenState) (text : List Line)
    (g' : GenState) (arms : List Arm) : Prop where
  source : arms.map Arm.source = parts
  generated : ∀ a ∈ arms, a.Generated arena exit
  text : entry.toList.map .label ++ text = arms.flatMap (Arm.text stop)
  skips : entry :: (arms.filterMap (·.guard)).map (some ·.skip) = arms.map (·.entry) ++ leftOver
  labels : (entry.toList ++ drawn g g').Perm
    (arms.filterMap (·.entry) ++ arms.flatMap Arm.inner)

section Drawn

variable {g g₁ g' : GenState}

lemma drawn_append (h : g.labels ≤ g₁.labels) (h' : g₁.labels ≤ g'.labels) :
    drawn g g' = drawn g g₁ ++ drawn g₁ g' := by
  have hsum : g'.labels - g.labels = (g₁.labels - g.labels) + (g'.labels - g₁.labels) := by omega
  have hnext : g.labels + 1 * (g₁.labels - g.labels) = g₁.labels := by omega
  rw [drawn, hsum, ← List.range'_append, List.map_append, hnext]
  rfl

/-- A label that is drawn first. -/
lemma drawn_next (h : g.labels + 1 ≤ g'.labels) :
    drawn g g' = ⟨g.labels⟩ :: drawn { g with labels := g.labels + 1 } g' := by
  have hsum : g'.labels - g.labels = (g'.labels - (g.labels + 1)) + 1 := by omega
  rw [drawn, hsum, List.range'_succ]
  rfl

end Drawn

variable {arena : Arena} {exit stop : Label} {g g₁ g₂ g' : GenState} {t₁ t₂ t₃ text : List Line}
  {u : Unit} {c : Expr} {body : List Stmt} {entry : Option Label}
  {parts : List (Option Expr × List Stmt)} {leftOver : List (Option Label)} {arms : List Arm}

namespace LaidOut

/-- A last arm with a condition. -/
lemma guarded (htest : (c.lowerTest arena stop).Yields g t₁ g₁ ())
    (hbody : (Stmt.lowerAll arena exit body).Yields g₁ t₂ g' ()) :
    ∃ arms, LaidOut arena exit stop [(some c, body)] [some stop] entry g
      (t₁ ++ (t₂ ++ [.instr (.jump stop)])) g' arms := by
  have htested := Expr.fresh_test htest
  have hran := Stmt.freshAll body hbody
  obtain ⟨t, g₀, r, hc, hg₁, rfl⟩ := Expr.yields_test htest
  refine ⟨[⟨entry, some ⟨c, g, t, r, stop⟩, body, g₁, t₂, g'⟩], rfl, ?_, ?_, rfl, ?_⟩
  · simpa [Arm.Generated] using ⟨⟨g₀, hc, hg₁⟩, hbody⟩
  · simp [Arm.text, Guard.text]
  · rw [drawn_append htested.le hran.le]
    cases entry <;> simp [Arm.inner]

/-- A last arm without one. -/
lemma unguarded {l : Label} (hbody : (Stmt.lowerAll arena exit body).Yields g t₁ g' ()) :
    ∃ arms, LaidOut arena exit stop [(none, body)] [] (some l) g (t₁ ++ [.instr (.jump stop)]) g'
      arms := by
  refine ⟨[⟨some l, none, body, g, t₁, g'⟩], rfl, ?_, ?_, rfl, ?_⟩
  · simpa [Arm.Generated] using hbody
  · simp [Arm.text]
  · simp [Arm.inner]

/-- An arm in front of others, which start at the label to which it jumps. -/
lemma cons
    (htest : (c.lowerTest arena ⟨g.labels⟩).Yields { g with labels := g.labels + 1 } t₁ g₁ ())
    (hbody : (Stmt.lowerAll arena exit body).Yields g₁ t₂ g₂ ()) (hle : g₂.labels ≤ g'.labels)
    (h : LaidOut arena exit stop parts leftOver (some ⟨g.labels⟩) g₂ t₃ g' arms) :
    ∃ arms, LaidOut arena exit stop ((some c, body) :: parts) leftOver entry g
      (t₁ ++ (t₂ ++ .instr (.jump stop) :: .label ⟨g.labels⟩ :: t₃)) g' arms := by
  have htested : g.labels + 1 ≤ g₁.labels := (Expr.fresh_test htest).le
  have hran := (Stmt.freshAll body hbody).le
  obtain ⟨t, g₀, r, hc, hg₁, rfl⟩ := Expr.yields_test htest
  refine ⟨⟨entry, some ⟨c, { g with labels := g.labels + 1 }, t, r, ⟨g.labels⟩⟩, body, g₁, t₂,
    g₂⟩ :: arms, ?_, ?_, ?_, ?_, ?_⟩
  case refine_1 => rw [List.map_cons, h.source]; rfl
  case refine_2 =>
    intro a ha
    rcases List.mem_cons.mp ha with rfl | ha
    · simpa [Arm.Generated] using ⟨⟨g₀, hc, hg₁⟩, hbody⟩
    · exact h.generated a ha
  case refine_3 =>
    rw [List.flatMap_cons, ← h.text]
    simp [Arm.text, Guard.text]
  case refine_4 =>
    rw [List.map_cons, List.cons_append, ← h.skips]
    rfl
  case refine_5 =>
    -- the label between the arms counts for the second one, and is drawn by the first
    refine List.perm_iff_count.mpr fun l => ?_
    have hrest := h.labels.count_eq l
    rw [drawn_next (by omega), drawn_append htested (by omega), drawn_append hran hle]
    cases entry <;>
      simp only [Arm.inner, List.filterMap_cons, List.flatMap_cons, List.flatMap_nil,
        Option.toList_none, Option.toList_some, List.count_append, List.count_cons,
        List.count_nil] at hrest ⊢ <;> omega

end LaidOut

/-- The code of a chain is that of its arms in a row. -/
lemma Branch.exists_laidOut (b : Branch) (entry : Option Label) {g g' : GenState} {text : List Line}
    {u : Unit} (h : (b.lower arena exit stop).Yields g text g' u) :
    ∃ arms, LaidOut arena exit stop b.parts (b.leftOver stop) entry g text g' arms := by
  obtain ⟨c, body, tail⟩ := b
  cases tail with
  | done =>
    obtain ⟨t₁, g₁, t₂, htest, hbody, rfl⟩ := Branch.yields_done h
    exact LaidOut.guarded htest hbody
  | elseIf next =>
    obtain ⟨t₁, g₁, t₂, g₂, t₃, htest, hbody, hnext, rfl⟩ := Branch.yields_next h (by simp)
    obtain ⟨arms, harms⟩ := next.exists_laidOut (some ⟨g.labels⟩) hnext
    exact harms.cons htest hbody (next.fresh hnext).le
  | otherwise last =>
    obtain ⟨t₁, g₁, t₂, g₂, t₃, htest, hbody, hrest, rfl⟩ := Branch.yields_next h (by simp)
    obtain ⟨t₄, g₃, _, _, hlast, hjump, rfl⟩ := Gen.yields_bind.mp hrest
    obtain ⟨rfl, rfl⟩ := Gen.yields_instr.mp hjump
    obtain ⟨arms, harms⟩ := LaidOut.unguarded hlast
    exact harms.cons htest hbody (Stmt.freshAll last hlast).le
termination_by structural b

/-- A chain has as many labels of its own as it has arms. -/
lemma LaidOut.length_own {b : Branch}
    (h : LaidOut arena exit stop b.parts (b.leftOver stop) none g text g' arms) :
    (stop :: arms.filterMap (·.entry)).length = b.arms.length + b.last?.toList.length := by
  have hguards : arms.countP (·.guard.isSome) = b.arms.length := by
    have hcount := congrArg (List.countP (·.1.isSome)) h.source
    rw [List.countP_map, Branch.parts, List.countP_append, List.countP_map,
      List.countP_map] at hcount
    simpa [Function.comp_def, Arm.source] using hcount
  -- every guard has a place to jump to: the front of an arm, or the end
  have hskips : arms.countP (·.guard.isSome) =
      arms.countP (·.entry.isSome) + (b.leftOver stop).countP Option.isSome := by
    have hcount := congrArg (List.countP Option.isSome) h.skips
    rw [List.countP_append, List.countP_map] at hcount
    simpa [Function.comp_def, List.length_filterMap_eq_countP] using hcount
  have hends : (b.leftOver stop).countP Option.isSome + b.last?.toList.length = 1 := by
    rw [Branch.leftOver]
    cases b.last? <;> rfl
  rw [List.length_cons, List.length_filterMap_eq_countP]
  omega

lemma Arm.label_mem_text {a : Arm} {l : Label} (h : a.entry = some l) : .label l ∈ a.text stop := by
  simp [text, h]

/-- **The shape of a chain**: its text is that of its arms, each of which ends with a jump to the
label `stop`, and then this label. The guards jump to the labels in front of the second arm, the
third and so on, and the guard that no arm follows jumps to `stop`. Besides what its conditions and
blocks draw, the chain draws these labels only, one for each condition and one more for a last
block without a condition, and each of them is placed once. -/
theorem Stmt.chain_shape {b : Branch} (h : ((Stmt.cond b).lower arena exit).Yields g text g' u) :
    ∃ (stop : Label) (arms : List Arm),
      arms.map Arm.source =
        b.arms.map (fun arm => (some arm.1, arm.2)) ++ b.last?.toList.map (none, ·) ∧
      (∀ a ∈ arms, a.Generated arena exit) ∧
      text = arms.flatMap (Arm.text stop) ++ [.label stop] ∧
      none :: (arms.filterMap (·.guard)).map (some ·.skip) =
        arms.map (·.entry) ++ (if b.last?.isSome then [] else [some stop]) ∧
      (drawn g g').Perm (stop :: arms.filterMap (·.entry) ++ arms.flatMap Arm.inner) ∧
      (stop :: arms.filterMap (·.entry)).length = b.arms.length + b.last?.toList.length ∧
      ∀ l ∈ stop :: arms.filterMap (·.entry), text.count (.label l) = 1 := by
  have hfresh := (Stmt.cond b).fresh h
  obtain ⟨t, hb, rfl⟩ := Stmt.yields_cond h
  obtain ⟨arms, harms⟩ := b.exists_laidOut none hb
  have hlabels : (drawn g g').Perm (⟨g.labels⟩ :: arms.filterMap (·.entry) ++
      arms.flatMap Arm.inner) := by
    rw [drawn_next (b.fresh hb).le]
    exact harms.labels.cons _
  have htext : t = arms.flatMap (Arm.text ⟨g.labels⟩) := harms.text
  refine ⟨⟨g.labels⟩, arms, harms.source, harms.generated, by rw [htext], harms.skips, hlabels,
    harms.length_own, fun l hl => ?_⟩
  have hmem : Line.label l ∈ t ++ [.label ⟨g.labels⟩] := by
    rcases List.mem_cons.mp hl with rfl | hl
    · exact List.mem_append_right _ (List.mem_singleton_self _)
    · obtain ⟨a, ha, hentry⟩ := List.mem_filterMap.mp hl
      rw [htext]
      exact List.mem_append_left _ (List.mem_flatMap.mpr ⟨a, ha, Arm.label_mem_text hentry⟩)
  exact Nat.le_antisymm (hfresh.once l.id) (List.count_pos_iff.mpr hmem)

/-- Three conditions and a last block, with comparisons, a loop and a shorter chain inside. -/
def nestedChain : Branch :=
  ⟨.binary (.compare .lt) (.int 1) (.int 2), [.whileLoop (.bool true) [.ret none]], .elseIf
    ⟨.bool false, [.cond ⟨.binary (.compare .eq) (.int 3) (.int 4), [], .done⟩], .elseIf
      ⟨.int 5, [], .otherwise [.expr (.binary (.compare .gt) (.int 6) (.int 7))]⟩⟩⟩

theorem Stmt.chain_shape_nested : ∃ (text : List Line) (stop : Label) (arms : List Arm),
    text = lines ((Stmt.cond nestedChain).lower #[] ⟨3⟩ { labels := 9 }).code ∧
    text = arms.flatMap (Arm.text stop) ++ [.label stop] ∧ text.count (.label stop) = 1 ∧
    (arms.filterMap (·.guard)).length = 3 ∧ arms.length = 4 ∧
    (stop :: arms.filterMap (·.entry)).length = 4 ∧
    none :: (arms.filterMap (·.guard)).map (some ·.skip) = arms.map (·.entry) := by
  have hresult : ((Stmt.cond nestedChain).lower #[] ⟨3⟩ { labels := 9 }).result = .ok () := by
    decide +kernel
  obtain ⟨stop, arms, hsource, -, htext, hskips, -, hown, honce⟩ :=
    Stmt.chain_shape (Gen.yields_of_result hresult)
  have harms : arms.length = 4 := by
    have hlength := congrArg List.length hsource
    simpa [nestedChain, Branch.arms, Branch.last?] using hlength
  have hentries : none :: (arms.filterMap (·.guard)).map (some ·.skip) = arms.map (·.entry) := by
    simpa [nestedChain, Branch.last?] using hskips
  have hguards := congrArg List.length hentries
  rw [List.length_cons, List.length_map, List.length_map, harms] at hguards
  exact ⟨_, stop, arms, rfl, htext, honce stop (List.mem_cons_self ..), Nat.succ.inj hguards, harms,
    hown, hentries⟩

end TreeCompiler

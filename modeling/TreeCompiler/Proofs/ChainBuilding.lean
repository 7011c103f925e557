import TreeCompiler.Proofs.BranchChains

/-!
Chains of branches as they are built.

A chain starts with one branch, and each step works at its far end: it puts a branch or a last block
there, in place of the last block that an earlier step may have put. So the branches stay, in the
order of their steps, while a last block stays only if no step comes after it.
-/

namespace TreeCompiler

/-! ### What follows the first branch -/

/-- The conditions in a tail, each with the block that it guards. -/
def Tail.arms : Tail → List (Expr × List Stmt)
  | done => []
  | elseIf next => next.arms
  | otherwise _ => []

/-- The block without a condition at the end of a tail. -/
def Tail.last? : Tail → Option (List Stmt)
  | done => none
  | elseIf next => next.last?
  | otherwise last => some last

namespace Branch

/-- What a step does to the end of a chain. -/
inductive Step where
  | elseIf (condition : Expr) (body : List Stmt)
  | otherwise (body : List Stmt)

/-- The condition that a step adds, with its block. -/
def Step.arm? : Step → Option (Expr × List Stmt)
  | elseIf condition body => some (condition, body)
  | otherwise _ => none

def extend (b : Branch) : Step → Branch
  | .elseIf condition body => b.elseIf condition body
  | .otherwise body => b.otherwise body

def build (b : Branch) (steps : List Step) : Branch := steps.foldl extend b

/-! ### Chains as rows of arms -/

lemma arms_eq (b : Branch) : b.arms = (b.condition, b.body) :: b.tail.arms := by
  obtain ⟨c, body, tail⟩ := b
  cases tail <;> rw [arms] <;> rfl

lemma last?_eq (b : Branch) : b.last? = b.tail.last? := by
  obtain ⟨c, body, tail⟩ := b
  cases tail <;> rw [last?] <;> rfl

lemma arms_ne_nil (b : Branch) : b.arms ≠ [] := by
  rw [arms_eq]
  exact List.cons_ne_nil _ _

/-- A chain is known by its arms and its last block. -/
lemma eq_of_arms_of_last {b b' : Branch} (harms : b.arms = b'.arms)
    (hlast : b.last? = b'.last?) : b = b' := by
  obtain ⟨c, body, tail⟩ := b
  obtain ⟨c', body', tail'⟩ := b'
  rw [arms_eq, arms_eq, List.cons.injEq, Prod.mk.injEq] at harms
  obtain ⟨⟨rfl, rfl⟩, harms⟩ := harms
  rw [last?_eq, last?_eq] at hlast
  congr 1
  -- tails of different kinds differ in the arms if one of them has a branch, else in the last block
  cases tail with
  | done =>
    cases tail' with
    | done => rfl
    | elseIf next' => exact absurd harms.symm next'.arms_ne_nil
    | otherwise last' => cases hlast
  | elseIf next =>
    cases tail' with
    | done => exact absurd harms next.arms_ne_nil
    | elseIf next' => rw [eq_of_arms_of_last (b := next) harms hlast]
    | otherwise last' => exact absurd harms next.arms_ne_nil
  | otherwise last =>
    cases tail' with
    | done => cases hlast
    | elseIf next' => exact absurd harms.symm next'.arms_ne_nil
    | otherwise last' => rw [Option.some.inj hlast]
termination_by structural b

/-! ### Steps -/

lemma arms_withTail (b : Branch) (t : Tail) : (b.withTail t).arms = b.arms ++ t.arms := by
  fun_induction withTail t b with
  | case1 c body next ih => rw [arms, arms, ih, List.cons_append]
  | case2 c body => rw [arms_eq, arms, List.singleton_append]
  | case3 c body last => rw [arms_eq, arms, List.singleton_append]

lemma last?_withTail (b : Branch) (t : Tail) : (b.withTail t).last? = t.last? := by
  fun_induction withTail t b with
  | case1 c body next ih => rw [last?, ih]
  | case2 c body => rw [last?_eq]
  | case3 c body last => rw [last?_eq]

lemma arms_extend (b : Branch) (s : Step) : (b.extend s).arms = b.arms ++ s.arm?.toList := by
  cases s with
  | elseIf c body =>
    rw [extend, elseIf, arms_withTail, Tail.arms, arms]
    rfl
  | otherwise body =>
    rw [extend, otherwise, arms_withTail]
    rfl

lemma last?_extend_eq_some_iff (b : Branch) (s : Step) (last : List Stmt) :
    (b.extend s).last? = some last ↔ s = .otherwise last := by
  cases s with
  | elseIf c body =>
    rw [extend, elseIf, last?_withTail, Tail.last?, last?]
    simp
  | otherwise body =>
    rw [extend, otherwise, last?_withTail, Tail.last?]
    simp

/-! ### Runs of steps -/

@[simp] lemma build_nil (b : Branch) : b.build [] = b := rfl

@[simp] lemma build_cons (b : Branch) (s : Step) (rest : List Step) :
    b.build (s :: rest) = (b.extend s).build rest := rfl

lemma build_concat (b : Branch) (before : List Step) (s : Step) :
    b.build (before ++ [s]) = (b.build before).extend s := by
  rw [build, List.foldl_append]
  rfl

lemma arms_build (b : Branch) (steps : List Step) :
    (b.build steps).arms = b.arms ++ steps.filterMap Step.arm? := by
  induction steps generalizing b with
  | nil => simp
  | cons s rest ih =>
    rw [build_cons, ih, arms_extend, List.append_assoc]
    cases h : s.arm? <;> simp [h]

lemma last?_build_eq_some_iff {b : Branch} (hb : b.last? = none) (steps : List Step)
    (last : List Stmt) :
    (b.build steps).last? = some last ↔ steps.getLast? = some (.otherwise last) := by
  -- no induction: the last step decides, whatever the steps before it have built
  obtain rfl | ⟨before, s, rfl⟩ := List.eq_nil_or_concat steps
  · simp [hb]
  · rw [List.concat_eq_append, build_concat, last?_extend_eq_some_iff, List.getLast?_concat,
      Option.some.injEq]

/-- **Building keeps all branches**: whatever steps are taken and in whatever order, they build the
one chain whose conditions and blocks are the first ones and then those of all steps that add a
branch, in the order of the steps, and which ends with a block without a condition exactly if the
last step puts one there, and then with that block. -/
theorem build_eq_iff (condition : Expr) (body : List Stmt) (steps : List Step) (b : Branch) :
    build ⟨condition, body, .done⟩ steps = b ↔
      b.arms = (condition, body) :: steps.filterMap Step.arm? ∧
      ∀ last, b.last? = some last ↔ steps.getLast? = some (.otherwise last) := by
  have harms : (build ⟨condition, body, .done⟩ steps).arms =
      (condition, body) :: steps.filterMap Step.arm? := by
    rw [arms_build, arms, List.singleton_append]
  have hlast := last?_build_eq_some_iff (b := ⟨condition, body, .done⟩) (by rw [last?]) steps
  constructor
  · rintro rfl
    exact ⟨harms, hlast⟩
  · rintro ⟨harms', hlast'⟩
    refine eq_of_arms_of_last (harms.trans harms'.symm) (Option.ext fun last => ?_)
    exact (hlast last).trans (hlast' last).symm

/-- Blocks that later steps replace, one by a branch, one by another block that is replaced too. -/
example : build ⟨.bool true, [], .done⟩ [.otherwise [.ret none], .elseIf (.int 1) [.ret none],
      .otherwise [], .otherwise [.expr (.int 2)], .elseIf (.int 3) []] =
    ⟨.bool true, [], .elseIf ⟨.int 1, [.ret none], .elseIf ⟨.int 3, [], .done⟩⟩⟩ := rfl

end Branch

end TreeCompiler

import Mathlib.Data.List.Forall2
import TreeCompiler.Proofs.Places

/-!
Which push each word on the stack is from.

Code is read line by line without running it, and a word on the stack is known by the text up to
the line that pushed it. Balanced code leaves all words as it finds them. So at the line of a call
the words on top are those that were pushed for its arguments, whatever calls their code has made
in between.
-/

namespace TreeCompiler

/-! ### Words and their pushes -/

/-- The words on the stack behind a line, the one that was pushed last first. -/
def Line.restack (before : List Line) (stack : List (List Line)) (line : Line) : List (List Line) :=
  match line with
  | .instr (.push _) | .instr .pushZero => (before ++ [line]) :: stack
  | .instr (.pop _) => stack.tail
  | .instr (.raiseStack n) => stack.drop (n / wordSize)
  | _ => stack

/-- The words on the stack behind a text that starts behind `before`, with these words. -/
def stackFrom (before : List Line) (stack : List (List Line)) : List Line → List (List Line)
  | [] => stack
  | line :: rest => stackFrom (before ++ [line]) (line.restack before stack) rest

/-- The words that a text leaves on the stack. -/
def stackBehind (text : List Line) : List (List Line) := stackFrom [] [] text

section Stack

variable (before : List Line) (stack : List (List Line)) {t u : List Line}
  {above : List (List Line)}

lemma stackFrom_append :
    stackFrom before stack (t ++ u) = stackFrom (before ++ t) (stackFrom before stack t) u := by
  induction t generalizing before stack with
  | nil => simp [stackFrom]
  | cons line t ih => simp [stackFrom, ih]

lemma stackBehind_append : stackBehind (t ++ u) = stackFrom t (stackBehind t) u := by
  rw [stackBehind, stackFrom_append, List.nil_append, stackBehind]

/-- A line that takes off no more words than there are on top leaves those below alone. -/
lemma Line.restack_append {line : Line} (h : 0 ≤ above.length + line.words) :
    line.restack before (above ++ stack) = line.restack before above ++ stack ∧
      (line.restack before above).length = above.length + line.words := by
  cases line with
  | instr i =>
    cases i with
    | push | pushZero => exact ⟨rfl, by simp [restack]⟩
    | pop r =>
      cases above with
      | nil => simp at h
      | cons w above => exact ⟨rfl, by simp [restack]⟩
    | raiseStack n =>
      have hn : n / wordSize ≤ above.length := by
        simp only [Line.words_instr, Instr.words] at h
        omega
      refine ⟨List.drop_append_of_le_length hn, ?_⟩
      simp only [restack, List.length_drop, Line.words_instr, Instr.words]
      omega
    | move | const | load | store | loadFormat | add | sub | mul | signExtend | div | compare
      | compareOne | clearResult | jump | jumpIf | call | lowerStack | alignStack | callExternal
      | ret => exact ⟨rfl, by simp [restack]⟩
  | label | blank | segment | relativeAddresses | external | exported | routine | reserve
    | format => exact ⟨rfl, by simp [restack, Line.words]⟩

/-- So does a text that never does. -/
lemma stackFrom_above (h : ∀ pre, pre <+: t → 0 ≤ above.length + height pre) :
    stackFrom before (above ++ stack) t = stackFrom before above t ++ stack ∧
      (stackFrom before above t).length = above.length + height t := by
  induction t generalizing before above with
  | nil => simp [stackFrom]
  | cons line t ih =>
    have hfirst : 0 ≤ above.length + line.words := by
      simpa using h [line] (List.prefix_append [line] t)
    obtain ⟨hstack, hlength⟩ := Line.restack_append before stack hfirst
    have habove : ∀ pre, pre <+: t → 0 ≤ (line.restack before above).length + height pre := by
      intro pre hpre
      have hpre' := h (line :: pre) ((List.prefix_cons_inj line).mpr hpre)
      rw [height_cons] at hpre'
      omega
    obtain ⟨hrest, hlength'⟩ := ih (before ++ [line]) habove
    rw [stackFrom, hstack, stackFrom, height_cons]
    exact ⟨hrest, by omega⟩

/-- Balanced code leaves the words alone that it finds. -/
lemma Balanced.stackFrom_eq {outer : List Label} {g g' : GenState}
    (h : Balanced g.depth outer g t g') (hdepth : g'.depth = g.depth) :
    stackFrom before stack t = stack := by
  have habove : ∀ pre, pre <+: t → 0 ≤ ([] : List (List Line)).length + height pre := by
    intro pre hpre
    have := h.above hpre
    simp only [List.length_nil]
    omega
  obtain ⟨hstack, hlength⟩ := stackFrom_above before stack habove
  have hends := h.ends
  have hnil : stackFrom before [] t = [] := by
    rw [← List.length_eq_zero_iff]
    simp only [List.length_nil] at hlength
    omega
  rwa [hnil] at hstack

/-- Lines that push a word each. -/
lemma stackFrom_pushes (h : ∀ line ∈ t, ∀ before stack,
      Line.restack before stack line = (before ++ [line]) :: stack) :
    ∃ words, stackFrom before stack t = words ++ stack ∧
      words.map List.getLast? = t.reverse.map some := by
  induction t generalizing before stack with
  | nil => exact ⟨[], rfl, rfl⟩
  | cons line t ih =>
    obtain ⟨hline, ht⟩ := List.forall_mem_cons.mp h
    obtain ⟨words, hstack, hwords⟩ := ih (before ++ [line]) ((before ++ [line]) :: stack) ht
    refine ⟨words ++ [before ++ [line]], ?_, ?_⟩
    · rw [stackFrom, hline, hstack, List.append_assoc]
      rfl
    · rw [List.map_append, hwords, List.reverse_cons, List.map_append]
      simp

end Stack

/-! ### Arguments -/

/-- The word is pushed from the register in which the code of the expression, right in front of the
push, leaves its value. -/
def Expr.Pushes (arena : Arena) (e : Expr) (word : List Line) : Prop :=
  ∃ before g t g' r, (e.lower arena).Yields g t g' r ∧
    word = before ++ (t ++ [.instr (.push (.scratch r))])

variable {arena : Arena}

lemma Expr.stackFrom_eq {e : Expr} {g g' : GenState} {t : List Line} {r : Scratch}
    (h : (e.lower arena).Yields g t g' r) (before : List Line) (stack : List (List Line)) :
    stackFrom before stack t = stack :=
  (e.balanced h).stackFrom_eq before stack (e.takes h).depth

/-- Arguments are pushed one by one, and the first one ends up on top. -/
lemma Expr.stackFrom_args (before : List Line) (stack : List (List Line)) (es : List Expr) :
    ∀ {g g' : GenState} {t : List Line}, (Expr.lowerArgs arena es).Yields g t g' () →
      ∃ words, stackFrom before stack t = words ++ stack ∧
        List.Forall₂ (Expr.Pushes arena) es words := by
  induction es with
  | nil =>
    intro _ _ _ h
    obtain ⟨rfl, -, -⟩ := Gen.yields_pure.mp h
    exact ⟨[], rfl, .nil⟩
  | cons e rest ih =>
    intro _ _ _ h
    obtain ⟨t, g₁, _, _, hrest, he, rfl⟩ := Gen.yields_bind.mp h
    obtain ⟨u, g₂, r, _, hr, hpush, rfl⟩ := Gen.yields_bind.mp he
    obtain ⟨_, hfree, rfl⟩ := Gen.yields_push_bind.mp hpush
    obtain ⟨rfl, rfl⟩ := Gen.yields_free.mp hfree
    obtain ⟨words, hstack, hwords⟩ := ih hrest
    refine ⟨(before ++ t ++ u ++ [.instr (.push (.scratch r))]) :: words, ?_, .cons ?_ hwords⟩
    · rw [stackFrom_append, stackFrom_append, hstack, Expr.stackFrom_eq hr]
      rfl
    · exact ⟨before ++ t, g₁, u, g₂, r, hr, by simp⟩

/-! ### Calls -/

lemma stackFrom_dropLines {before : List Line} {above stack : List (List Line)} {n : ℕ}
    (h : above.length = n) : stackFrom before (above ++ stack) (dropLines n) = stack := by
  rw [dropLines]
  split
  · next hn =>
    obtain rfl : above = [] := List.length_eq_zero_iff.mp (h.trans hn)
    rfl
  · simp [stackFrom, Line.restack, wordSize, ← h]

/-- A call in a text: the code up to the line of the call, the words that then are on the stack
above those that were there before, and the text behind the words that are dropped. -/
structure CallSite where
  lead : List Line
  passed : List (List Line)
  padding : List (List Line)
  saved : List (List Line)
  rest : List Line

namespace CallSite

/-- The line of the call, and what takes its words off the stack. -/
def callLines (c : CallSite) (routine : String) : List Line :=
  .instr (.call routine) :: dropLines (c.passed.length + c.padding.length)

/-- The site is that of a call with these arguments, whose code starts behind `before` in the state
`g`. The words of the arguments are on top, the first one first; below them are the padding and the
registers that were in use, the other way round than they were pushed. Behind the call exactly the
arguments and the padding are gone. -/
structure Stands (arena : Arena) (text before : List Line) (g : GenState) (routine : String)
    (args : List Expr) (c : CallSite) : Prop where
  text_eq : text = before ++ (c.lead ++ (c.callLines routine ++ c.rest))
  atCall : stackBehind (before ++ c.lead) =
    c.passed ++ (c.padding ++ (c.saved ++ stackBehind before))
  arguments : List.Forall₂ (Expr.Pushes arena) args c.passed
  zeros : c.padding.map List.getLast? =
    List.replicate (g.padding args.length) (some (.instr .pushZero))
  registers : c.saved.map List.getLast? =
    g.bank.live.reverse.map fun r => some (.instr (.push (.scratch r)))
  afterCall :
    stackBehind (before ++ (c.lead ++ c.callLines routine)) = c.saved ++ stackBehind before

variable {text before t rest : List Line} {g g' : GenState} {routine : String} {args : List Expr}

/-- The arguments of a call are on top of what is pushed in front of them. -/
lemma exists_stands (hargs : (Expr.lowerArgs arena args).Yields (g.inCall args.length) t g' ())
    (htext : text = before ++ (g.callHead args.length ++ (t ++ (.instr (.call routine) ::
      (dropLines (args.length + g.padding args.length) ++ rest))))) :
    ∃ c : CallSite, c.lead = g.callHead args.length ++ t ∧ c.rest = rest ∧
      c.Stands arena text before g routine args := by
  obtain ⟨saved, hsaved, hregisters⟩ := stackFrom_pushes before (stackBehind before)
    (t := g.bank.live.map fun r => .instr (.push (.scratch r))) (by simp [Line.restack])
  obtain ⟨padding, hpadded, hzeros⟩ := stackFrom_pushes
    (before ++ g.bank.live.map fun r => .instr (.push (.scratch r))) (saved ++ stackBehind before)
    (t := List.replicate (g.padding args.length) (.instr .pushZero)) (by simp [Line.restack])
  obtain ⟨passed, hpassed, harguments⟩ := Expr.stackFrom_args (before ++ g.callHead args.length)
    (padding ++ (saved ++ stackBehind before)) args hargs
  have hatCall : stackBehind (before ++ (g.callHead args.length ++ t)) =
      passed ++ (padding ++ (saved ++ stackBehind before)) := by
    rw [stackBehind_append, stackFrom_append, GenState.callHead, stackFrom_append, hsaved, hpadded]
    exact hpassed
  have hpadding : padding.length = g.padding args.length := by
    simpa using congrArg List.length hzeros
  have hdropped (u : List Line) : stackFrom u (passed ++ (padding ++ (saved ++ stackBehind before)))
      (dropLines (passed.length + padding.length)) = saved ++ stackBehind before := by
    rw [← List.append_assoc]
    exact stackFrom_dropLines List.length_append
  refine ⟨⟨_, passed, padding, saved, rest⟩, rfl, rfl, ?_, hatCall, harguments, ?_, ?_, ?_⟩
  · simp [htext, callLines, hpadding, harguments.length_eq]
  · simpa using hzeros
  · simpa [Function.comp_def] using hregisters
  · rw [← List.append_assoc, stackBehind_append, hatCall]
    exact hdropped _

end CallSite

end TreeCompiler

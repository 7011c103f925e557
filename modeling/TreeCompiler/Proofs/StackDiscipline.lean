import TreeCompiler.Proofs.Places

/-!
The stack discipline of routines.

Above its frame a routine has nothing on the stack wherever a statement starts or ends, and an even
number of words wherever it calls. That is read off the text, place by place. In a run the stack
pointer agrees with the count at each place, since a jump goes from one place to another of the same
count; so calls find an aligned stack, and the epilogue finds what the prologue pushed.
-/

namespace TreeCompiler

/-! ### Routines -/

/-- A line that stands at one place only stands at one count. -/
lemma Stands.unique {line : Line} {text : List Line} {m n : ℤ} (hm : Stands line m text)
    (hn : Stands line n text) (honce : text.count line ≤ 1) : m = n := by
  obtain ⟨pre, post, rfl, rfl⟩ := hm
  obtain ⟨pre', post', hsplit, rfl⟩ := hn
  have hfirst : line ∉ pre := by
    rw [List.count_append, List.count_cons_self] at honce
    exact List.count_eq_zero.mp (by omega)
  have hfirst' : line ∉ pre' := by
    rw [hsplit, List.count_append, List.count_cons_self] at honce
    exact List.count_eq_zero.mp (by omega)
  rcases append_eq_split hsplit with ⟨mid, rfl⟩ | ⟨mid, rfl, hmid⟩
  · simp at hfirst
  · cases mid with
    | nil => simp
    | cons x mid =>
      obtain ⟨rfl, -⟩ := List.cons.inj hmid
      simp at hfirst'

namespace Routine

variable {arena : Arena} {globals : List Var} {r : Routine} {g' : GenState}

namespace Generated

/-- Nothing below the frame is touched. -/
lemma height_nonneg (h : r.Generated arena globals g') {pre : List Line} (hpre : pre <+: r.body) :
    0 ≤ height pre := by
  simpa using h.level.above (hpre.trans (List.prefix_append _ _))

lemma height_body (h : r.Generated arena globals g') : height r.body = 0 := by
  simpa using h.level.height_eq

lemma even_of_call (h : r.Generated arena globals g') {x : String} {n : ℤ}
    (hcall : Stands (.instr (.call x)) n r.body) : Even n := by
  simpa using h.level.calls (stands_append.mpr (.inl hcall))

/-- A jump is taken at the count of its label. -/
lemma stands_target (h : r.Generated arena globals g') {line : Line} {l : Label} {n : ℤ}
    (hl : line.target? = some l) (hline : Stands line n r.body) :
    Stands (.label l) n (r.body ++ [.label r.exit]) := by
  rcases h.level.jumps hl (stands_append.mpr (.inl hline)) with hinner | ⟨houter, -⟩
  · exact hinner
  · exact absurd houter List.not_mem_nil

lemma count_label (h : r.Generated arena globals g') (l : Label) :
    (r.body ++ [Line.label r.exit]).count (.label l) ≤ 1 := by
  have honce := (FunDecl.fresh h.yields).once l.id
  have hsub : (r.body ++ [Line.label r.exit]).Sublist r.text := by
    refine .cons _ (.cons _ (.trans ?_ (List.sublist_append_right _ _)))
    exact (List.Sublist.refl _).append (List.singleton_sublist.mpr (List.mem_cons_self ..))
  exact (hsub.count_le _).trans honce

end Generated

end Routine

/-! ### The stack pointer -/

/-- The bytes by which an instruction lowers the stack pointer. -/
@[simp] def Instr.sinks : Instr → ℤ
  | .push _ | .pushZero => 8
  | .pop _ => -8
  | .lowerStack n => n
  | .raiseStack n => -n
  | _ => 0

/-- The stack pointer moves by the bytes that are counted, and by no other way. -/
@[simp] def Instr.tracked : Instr → Bool
  | .pop r | .move r _ => r != .rsp
  | .alignStack => false
  | _ => true

def Line.sinks : Line → ℤ
  | .instr i => i.sinks
  | _ => 0

def Line.tracked : Line → Bool
  | .instr i => i.tracked
  | _ => true

@[simp] lemma Line.sinks_instr (i : Instr) : (Line.instr i).sinks = i.sinks := rfl

@[simp] lemma Line.tracked_instr (i : Instr) : (Line.instr i).tracked = i.tracked := rfl

/-- The bytes by which a text lowers the stack pointer. -/
def sunk (text : List Line) : ℤ := (text.map Line.sinks).sum

@[simp] lemma sunk_nil : sunk [] = 0 := rfl

@[simp] lemma sunk_cons (line : Line) (text : List Line) :
    sunk (line :: text) = line.sinks + sunk text := List.sum_cons

@[simp] lemma sunk_append (t u : List Line) : sunk (t ++ u) = sunk t + sunk u := by simp [sunk]

lemma Line.tracked_of_plain {line : Line} (h : line.plain = true) : line.tracked = true := by
  cases line with
  | instr i => cases i <;> first | rfl | exact h
  | label | blank | segment | relativeAddresses | external | exported | routine | reserve
  | format => rfl

lemma Line.sinks_of_plain {line : Line} (h : line.plain = true) : line.sinks = 8 * line.words := by
  cases line with
  | instr i =>
    cases i with
    | raiseStack n =>
      have hn : n % wordSize = 0 := beq_iff_eq.mp h
      simp only [Line.sinks_instr, Instr.sinks, Line.words_instr, Instr.words, wordSize] at *
      omega
    | lowerStack => cases h
    | _ => rfl
  | label | blank | segment | relativeAddresses | external | exported | routine | reserve
  | format => rfl

lemma sunk_of_plain {text : List Line} (h : ∀ line ∈ text, line.plain = true) :
    sunk text = 8 * height text := by
  induction text with
  | nil => rfl
  | cons line text ih =>
    obtain ⟨hline, htext⟩ := List.forall_mem_cons.mp h
    rw [sunk_cons, height_cons, Line.sinks_of_plain hline, ih htext, Int.mul_add]

lemma Line.tracked_of_target? {line : Line} {l : Label} (h : line.target? = some l) :
    line.tracked = true ∧ line.sinks = 0 := by
  cases line with
  | instr i => cases i <;> first | exact ⟨rfl, rfl⟩ | cases h
  | label | blank | segment | relativeAddresses | external | exported | routine | reserve
  | format => cases h

lemma FunDecl.epilogue_ne_nil (f : FunDecl) : f.epilogue ≠ [] := by
  simp [FunDecl.epilogue, closeFrame]

section Step

variable {h : Host} {M N : Machine}

@[simp] lemma Machine.text_set (r : Reg) (v : Word) : (M.set r v).text = M.text := by
  cases r <;> rfl

lemma Machine.rsp_set {r : Reg} (v : Word) (hr : r ≠ .rsp) : (M.set r v).rsp = M.rsp := by
  cases r <;> first | rfl | contradiction

/-- Control goes to the next line or, by a jump, behind a label. -/
lemma Host.exec_cases {i : Instr} (hexec : h.exec M i = some N) :
    (N.text = M.text ∨ ∃ l, i.target? = some l ∧ textBehind l h.unit = some N.text) ∧
      (i.tracked = true → N.rsp = M.rsp - i.sinks) := by
  cases i with
  | pop r =>
    obtain rfl := Option.some.inj hexec
    refine ⟨.inl (Machine.text_set ..), fun htracked => ?_⟩
    rw [Machine.rsp_set _ (by simpa using htracked)]
    simp
  | move t s =>
    by_cases hframe : t = .rbp ∧ s = .rsp
    · obtain ⟨rfl, rfl⟩ := hframe
      obtain rfl := Option.some.inj hexec
      exact ⟨.inl rfl, fun _ => by simp⟩
    · have hmove : h.exec M (.move t s) = some (M.set t (M.get s)) := by
        rw [Host.exec]
        exact fun ht hs => hframe ⟨ht, hs⟩
      obtain rfl := Option.some.inj (hmove.symm.trans hexec)
      refine ⟨.inl (Machine.text_set ..), fun htracked => ?_⟩
      rw [Machine.rsp_set _ (by simpa using htracked)]
      simp
  | div s =>
    rw [Host.exec, Machine.divide] at hexec
    split at hexec
    · cases hexec
    · obtain rfl := Option.some.inj hexec
      exact ⟨.inl rfl, fun _ => by simp⟩
  | jump l =>
    obtain ⟨text, htext, rfl⟩ := Option.map_eq_some_iff.mp hexec
    exact ⟨.inr ⟨l, rfl, htext⟩, fun _ => by simp⟩
  | jumpIf c l =>
    obtain ⟨f, -, hjump⟩ := Option.bind_eq_some_iff.mp hexec
    split at hjump
    · obtain ⟨text, htext, rfl⟩ := Option.map_eq_some_iff.mp hjump
      exact ⟨.inr ⟨l, rfl, htext⟩, fun _ => by simp⟩
    · obtain rfl := Option.some.inj hjump
      exact ⟨.inl rfl, fun _ => by simp⟩
  | call f =>
    obtain ⟨_, -, rfl⟩ := Option.map_eq_some_iff.mp hexec
    exact ⟨.inl rfl, fun _ => by simp [Host.returned]⟩
  | callExternal | ret => cases hexec
  | alignStack =>
    obtain rfl := Option.some.inj hexec
    exact ⟨.inl rfl, fun htracked => by cases htracked⟩
  | raiseStack n =>
    obtain rfl := Option.some.inj hexec
    exact ⟨.inl rfl, fun _ => by simp⟩
  | _ =>
    obtain rfl := Option.some.inj hexec
    exact ⟨.inl rfl, fun _ => by simp [Machine.push, Machine.result, Machine.setScratch]⟩

lemma Host.step_cases (hstep : h.step M = some N) :
    ∃ line rest, M.text = line :: rest ∧
      (N.text = rest ∨ ∃ l, line.target? = some l ∧ textBehind l h.unit = some N.text) ∧
      (line.tracked = true → N.rsp = M.rsp - line.sinks) := by
  rw [Host.step] at hstep
  split at hstep
  · next i rest htext => exact ⟨.instr i, rest, htext, Host.exec_cases hstep⟩
  · next rest htext =>
    obtain rfl := Option.some.inj hstep
    exact ⟨_, rest, htext, .inl rfl, fun _ => by simp [Line.sinks]⟩
  · next x rest htext =>
    obtain rfl := Option.some.inj hstep
    exact ⟨_, rest, htext, .inl rfl, fun _ => by simp [Line.sinks]⟩
  · next l rest htext =>
    obtain rfl := Option.some.inj hstep
    exact ⟨_, rest, htext, .inl rfl, fun _ => by simp [Line.sinks]⟩
  · cases hstep

end Step

namespace Routine

variable {arena : Arena} {globals : List Var} {r : Routine} {g' : GenState} {after : List Line}
  {h : Host} {M N N' : Machine}

/-- The lines in front of the body. -/
def head (r : Routine) : List Line :=
  .blank :: .routine (functionSymbol r.fn.name.name) :: openFrame r.fn.frameSize

lemma text_eq (r : Routine) : r.text = r.head ++ (r.body ++ .label r.exit :: r.fn.epilogue) := rfl

lemma target?_head : ∀ line ∈ r.head, line.target? = none := by
  refine List.forall_mem_cons.mpr ⟨rfl, ?_⟩
  exact List.forall_mem_cons.mpr ⟨rfl, target?_openFrame _⟩

lemma tracked_head : ∀ line ∈ r.head, line.tracked = true := by
  rw [head, openFrame]
  split <;> simp [Line.tracked]

/-- The frame pointer of the caller, and the frame. -/
lemma sunk_head : sunk r.head = 8 + r.fn.frameSize := by
  rw [head, openFrame]
  split <;> simp_all [Line.sinks]

lemma tracked_closeFrame (n : ℕ) : ∀ line ∈ closeFrame n, line.tracked = true := by
  rw [closeFrame]
  split <;> simp

lemma sunk_closeFrame (n : ℕ) : sunk (closeFrame n) = -n - 8 := by
  rw [closeFrame]
  split <;> simp_all [Int.sub_eq_add_neg]

section Prefix

variable (hr : r.Generated arena globals g') {pre post : List Line}
  (hbody : r.body ++ [.label r.exit] = pre ++ post)

include hr hbody

lemma Generated.tracked : ∀ line ∈ r.head ++ pre, line.tracked = true := by
  intro line hline
  rcases List.mem_append.mp hline with hhead | hpre
  · exact tracked_head line hhead
  · have hmem : line ∈ r.body ++ [.label r.exit] := hbody ▸ List.mem_append_left _ hpre
    exact Line.tracked_of_plain (hr.level.plain hmem)

lemma Generated.sunk_eq : sunk (r.head ++ pre) = 8 + r.fn.frameSize + 8 * height pre := by
  rw [sunk_append, sunk_head, sunk_of_plain fun _ hline =>
    hr.level.plain (hbody ▸ List.mem_append_left _ hline)]

end Prefix

/-- A state on the way through a routine that was entered in `M`, with `after` behind its text. As
long as the stack is not aligned to leave the process, the stack pointer is known. -/
def Within (r : Routine) (after : List Line) (M N : Machine) : Prop :=
  ∃ pre post, r.text = pre ++ post ∧ post ≠ [] ∧ N.text = post ++ after ∧
    ((∀ line ∈ pre, line.tracked = true) → N.rsp = M.rsp - sunk pre)

/-- A routine ends with a line that hands over control. -/
lemma exists_last (r : Routine) : ∃ t i, r.text = t ++ [.instr i] ∧
    ∀ (h : Host) (M : Machine), h.exec M i = none := by
  have hepilogue : ∃ t i, r.fn.epilogue = t ++ [.instr i] ∧
      ∀ (h : Host) (M : Machine), h.exec M i = none := by
    rw [FunDecl.epilogue, leaveProcess]
    split
    · exact ⟨closeFrame r.fn.frameSize ++ [.instr (.move .rdi .rax), .instr .alignStack],
        .callExternal "exit", by simp, fun _ _ => rfl⟩
    · exact ⟨closeFrame r.fn.frameSize, .ret, rfl, fun _ _ => rfl⟩
  obtain ⟨t, i, ht, hnone⟩ := hepilogue
  exact ⟨r.head ++ (r.body ++ .label r.exit :: t), i, by simp [text_eq, ht], hnone⟩

/-- A jump of a routine, and its label at the same height. -/
lemma Generated.exists_target (hr : r.Generated arena globals g') {pre post : List Line}
    {line : Line} {l : Label} (hline : r.text = pre ++ line :: post) (hl : line.target? = some l) :
    ∃ pre' post', r.text = pre' ++ .label l :: (post' ++ r.fn.epilogue) ∧ sunk pre' = sunk pre ∧
      ∀ line ∈ pre, line.tracked = true := by
  rcases append_eq_split (r.text_eq.symm.trans hline) with ⟨mid, hmid⟩ | ⟨pre₁, rfl, hrest⟩
  · have hnone := r.target?_head line (hmid ▸ List.mem_append_right _ (List.mem_cons_self ..))
    exact nomatch hnone.symm.trans hl
  · rcases append_eq_split hrest with ⟨mid, hmid⟩ | ⟨mid, -, hmid⟩
    · obtain ⟨pre₂, post₂, hlabel, hheight⟩ := hr.stands_target hl ⟨pre₁, mid, hmid, rfl⟩
      have hbody : r.body ++ [.label r.exit] = pre₁ ++ (line :: mid ++ [.label r.exit]) := by
        simp [hmid]
      refine ⟨r.head ++ pre₂, post₂, ?_, ?_, hr.tracked hbody⟩
      · calc r.text = r.head ++ ((r.body ++ [.label r.exit]) ++ r.fn.epilogue) := by
              simp [text_eq]
          _ = r.head ++ pre₂ ++ .label l :: (post₂ ++ r.fn.epilogue) := by simp [hlabel]
      · rw [hr.sunk_eq hlabel, hr.sunk_eq hbody, hheight]
    · have hnone : ∀ line ∈ .label r.exit :: r.fn.epilogue, line.target? = none :=
        List.forall_mem_cons.mpr ⟨rfl, r.fn.target?_epilogue⟩
      exact nomatch (hnone line (by simp [hmid])).symm.trans hl

lemma Within.step (hr : r.Generated arena globals g') (hhosts : h.Hosts r.text after)
    (hN : r.Within after M N) (hstep : h.step N = some N') : r.Within after M N' := by
  obtain ⟨pre, post, htext, hne, hNtext, hrsp⟩ := hN
  obtain ⟨line, rest, hline, hnext, hsinks⟩ := Host.step_cases hstep
  cases post with
  | nil => exact absurd rfl hne
  | cons x post =>
    obtain ⟨rfl, rfl⟩ := List.cons.inj (hNtext.symm.trans hline)
    rcases hnext with hnext | ⟨l, hl, hbehind⟩
    · refine ⟨pre ++ [x], post, by simpa using htext, ?_, hnext, fun htracked => ?_⟩
      · rintro rfl
        obtain ⟨t, i, hlast, hnone⟩ := r.exists_last
        obtain ⟨-, hx⟩ := List.append_inj' (htext.symm.trans hlast) rfl
        obtain ⟨rfl, -⟩ := List.cons.inj hx
        rw [Host.step, hNtext] at hstep
        cases (hnone h _).symm.trans hstep
      · obtain ⟨hpre, hx⟩ := List.forall_mem_append.mp htracked
        rw [hsinks (hx x (List.mem_singleton_self x)), hrsp hpre, sunk_append, sunk_cons, sunk_nil]
        omega
    · obtain ⟨pre', post', hlabel, hsunk, hpre⟩ := hr.exists_target htext hl
      obtain ⟨htracked, hzero⟩ := Line.tracked_of_target? hl
      refine ⟨pre' ++ [.label l], post' ++ r.fn.epilogue, by simpa using hlabel, ?_, ?_,
        fun _ => ?_⟩
      · exact List.append_ne_nil_of_right_ne_nil _ r.fn.epilogue_ne_nil
      · exact Option.some.inj (hbehind.symm.trans (hhosts l pre' _ hlabel))
      · rw [hsinks htracked, hzero, hrsp hpre, ← hsunk, sunk_append]
        simp [Line.sinks]

lemma within_of_reaches (hr : r.Generated arena globals g') (hhosts : h.Hosts r.text after)
    (hM : .blank :: M.text = r.text ++ after) (hreach : h.Reaches M N) : r.Within after M N := by
  induction hreach with
  | refl =>
    refine ⟨[.blank], r.text.tail, rfl, by simp [text], ?_, fun _ => by simp [Line.sinks]⟩
    exact (List.cons.inj hM).2
  | tail _ hstep ih => exact ih.step hr hhosts hstep

/-- The place of a state tells its stack pointer. -/
lemma Within.rsp_eq (hN : r.Within after M N) (pre post : List Line) (htext : r.text = pre ++ post)
    (hNtext : N.text = post ++ after) (htracked : ∀ line ∈ pre, line.tracked = true) :
    N.rsp = M.rsp - sunk pre := by
  obtain ⟨pre', post', htext', -, hNtext', hrsp⟩ := hN
  obtain rfl : post' = post := List.append_cancel_right (hNtext'.symm.trans hNtext)
  obtain rfl : pre' = pre := List.append_cancel_right (htext'.symm.trans htext)
  exact hrsp htracked

/-! ### The discipline -/

/-- What the text of a routine says about the stack, counted from the end of the prologue. -/
structure Steady (arena : Arena) (globals : List Var) (r : Routine) : Prop where
  nonneg (pre : List Line) : pre <+: r.body → 0 ≤ height pre
  -- A label stands at one count, that of all jumps to it.
  jumps (line : Line) (l : Label) (n : ℤ) : line.target? = some l → Stands line n r.body →
    ∀ m, Stands (.label l) m (r.body ++ [.label r.exit]) ↔ m = n
  leaves (line : Line) (n : ℤ) : line.target? = some r.exit → Stands line n r.body → n = 0
  exit : height r.body = 0
  calls (x : String) (n : ℤ) : Stands (.instr (.call x)) n r.body → Even n
  places : (r.places arena globals).map (·.part) =
    ((r.fn.preset globals).flatMap Var.exprs).map .expr ++ Stmt.piecesAll r.fn.body
  rests : ∀ pl ∈ r.places arena globals, pl.Rests arena r.exit r.body
  frame : r.fn.frameSize % 16 = 0

lemma Generated.steady (hr : r.Generated arena globals g') : r.Steady arena globals where
  nonneg _ := hr.height_nonneg
  jumps line l n hl hline m := by
    have hlabel := hr.stands_target hl hline
    exact ⟨fun hm => hm.unique hlabel (hr.count_label l), fun hm => hm ▸ hlabel⟩
  leaves line n hl hline := by
    have hexit : Stands (.label r.exit) 0 (r.body ++ [.label r.exit]) :=
      ⟨r.body, [], rfl, hr.height_body⟩
    exact (hr.stands_target hl hline).unique hexit (hr.count_label r.exit)
  exit := hr.height_body
  calls _ _ := hr.even_of_call
  places := map_part_places
  rests := hr.rests
  frame := align16_mod _

/-- What all runs of a routine do with the stack pointer once it is entered in `M`. -/
structure Upright (r : Routine) (h : Host) (after : List Line) (M : Machine) : Prop where
  -- The frame pointer of the caller is saved, and the frame lies below it.
  saves : ∃ N, h.Reaches M N ∧ N.text = r.body ++ .label r.exit :: (r.fn.epilogue ++ after) ∧
    N.rbp = M.rsp - 8 ∧ wordAt N.mem (M.rsp - 8) = M.get .rbp
  counts (N : Machine) (pre post : List Line) : h.Reaches M N → r.body = pre ++ post →
    N.text = post ++ .label r.exit :: (r.fn.epilogue ++ after) →
    N.rsp = M.rsp - 8 - r.fn.frameSize - 8 * height pre
  -- The call that enters a routine leaves its return address on an aligned stack.
  aligned (N : Machine) (pre post : List Line) (x : String) : 16 ∣ M.rsp + 8 → h.Reaches M N →
    r.body = pre ++ .instr (.call x) :: post →
    N.text = .instr (.call x) :: (post ++ .label r.exit :: (r.fn.epilogue ++ after)) → 16 ∣ N.rsp
  pops (N : Machine) : h.Reaches M N →
    N.text =
      .instr (.pop .rbp) :: ((if r.fn.isEntry then leaveProcess else [.instr .ret]) ++ after) →
    N.rsp = M.rsp - 8
  returns (N : Machine) : h.Reaches M N →
    N.text = (if r.fn.isEntry then leaveProcess else [.instr .ret]) ++ after → N.rsp = M.rsp

namespace Within

variable (hr : r.Generated arena globals g') (hN : r.Within after M N)

include hr hN

lemma rsp_body {pre post : List Line} (hbody : r.body = pre ++ post)
    (htext : N.text = post ++ .label r.exit :: (r.fn.epilogue ++ after)) :
    N.rsp = M.rsp - 8 - r.fn.frameSize - 8 * height pre := by
  have hsplit : r.body ++ [.label r.exit] = pre ++ (post ++ [.label r.exit]) := by simp [hbody]
  rw [hN.rsp_eq (r.head ++ pre) (post ++ .label r.exit :: r.fn.epilogue) (by simp [text_eq, hbody])
    (by simp [htext]) (hr.tracked hsplit), hr.sunk_eq hsplit]
  omega

/-- Behind the exit the frame is all that is left. -/
lemma rsp_epilogue {pre post : List Line} (hsplit : r.fn.epilogue = pre ++ post)
    (htext : N.text = post ++ after) (htracked : ∀ line ∈ pre, line.tracked = true) :
    N.rsp = M.rsp - 8 - r.fn.frameSize - sunk pre := by
  have hall := List.append_nil (r.body ++ [.label r.exit])
  have hsunk := hr.sunk_eq hall.symm
  rw [hr.level.height_eq] at hsunk
  have htextEq : r.text = r.head ++ (r.body ++ [.label r.exit]) ++ pre ++ post := by
    simp [text_eq, hsplit]
  have hall := List.forall_mem_append.mpr ⟨hr.tracked hall.symm, htracked⟩
  rw [hN.rsp_eq _ post htextEq htext hall, sunk_append, hsunk]
  omega

end Within

lemma Generated.upright (hr : r.Generated arena globals g') (hhosts : h.Hosts r.text after)
    (hM : .blank :: M.text = r.text ++ after) : r.Upright h after M := by
  have hwithin {N : Machine} (hreach : h.Reaches M N) : r.Within after M N :=
    within_of_reaches hr hhosts hM hreach
  constructor
  case saves =>
    obtain ⟨N, hreach, hNtext, hrbp, hmem⟩ := reaches_body (h := h) hM
    refine ⟨N, hreach, hNtext, hrbp, ?_⟩
    rw [hmem]
    exact Machine.wordAt_push _ _
  case counts => exact fun N pre post hreach => (hwithin hreach).rsp_body hr
  case aligned =>
    intro N pre post x hentry hreach hbody htext
    have heven := hr.even_of_call ⟨pre, post, hbody, rfl⟩
    have hframe := align16_mod r.fn.variableSize
    rw [(hwithin hreach).rsp_body hr hbody htext, FunDecl.frameSize]
    rw [Int.even_iff] at heven
    omega
  case pops =>
    intro N hreach htext
    have hsplit : r.fn.epilogue = (if r.fn.frameSize = 0 then [] else
        [.instr (.raiseStack r.fn.frameSize)]) ++ .instr (.pop .rbp) ::
        (if r.fn.isEntry then leaveProcess else [.instr .ret]) := by
      simp [FunDecl.epilogue, closeFrame]
    rw [(hwithin hreach).rsp_epilogue hr hsplit htext (by split <;> simp)]
    split
    · next hzero => simp [hzero]
    · simp
  case returns =>
    intro N hreach htext
    rw [(hwithin hreach).rsp_epilogue hr rfl htext (tracked_closeFrame _), sunk_closeFrame]
    omega

end Routine

/-- **The stack of a routine**: whenever a program is emitted without error, from any session, the
stack of each function's routine is balanced, as its text says and as its runs have it. -/
theorem Session.stack_balanced {s : Session} {p : Program} {room : Option ℕ} {out : Emission}
    (hemit : s.emit room p = .ok out) (hout : out.error = none) :
    out.output = textBytes (s.unit p) ∧
    ∃ rs : List Routine, rs.map (·.fn) = p.functions ∧
      s.unit p = preludeLines ++ (rs.flatMap Routine.text ++ (reserveLines s.arena ++ dataLines)) ∧
      ∀ r ∈ rs, (∃ g', (r.fn.lower s.arena p.globals).Yields r.state r.text g' ()) ∧
        r.Steady s.arena p.globals ∧ ∃ before after, s.unit p = before ++ (r.text ++ after) ∧
          ∀ (h : Host) (M : Machine), h.unit = s.unit p → .blank :: M.text = r.text ++ after →
            r.Upright h after M := by
  obtain ⟨g', hyields, rfl⟩ := emit_eq_ok hemit hout
  obtain ⟨rs, hfns, hunit, hrs⟩ := Program.exists_routines hyields
  refine ⟨by dsimp only, rs, hfns, hunit, fun r hr => ?_⟩
  obtain ⟨before, after, g₁, hsplit, hgenerated, hlabels⟩ := hrs r hr
  refine ⟨⟨g₁, hgenerated.yields⟩, hgenerated.steady, before, after, hsplit, fun h M hhost hM => ?_⟩
  exact hgenerated.upright (Host.hosts_of_fresh (FunDecl.fresh hgenerated.yields)
    (fun n hn _ => hlabels n hn) (hhost.trans hsplit)) hM

def nestedCall : Expr :=
  .binary (.arith .add) (.int 1) (.call ⟨"f", 0, none⟩ [.call ⟨printName, 0, none⟩ [.int 2],
    .binary (.arith .mul) (.int 3) (.call ⟨"f", 0, none⟩ [.int 4])])

/-- A function with calls as arguments and operands of calls, in a loop and in a `return`. -/
def nestedFunction : FunDecl where
  name := ⟨"g", 0, none⟩
  params := []
  returns := none
  body := [.whileLoop nestedCall [.ret (some nestedCall)], .expr nestedCall]
  variableSize := 20

theorem Session.stack_nested : ∃ out, Session.emit {} none [.function nestedFunction] = .ok out ∧
    out.error = none ∧
    (Session.unit {} [.function nestedFunction]).count (.instr (.call "function_f")) = 6 ∧
    ∃ r : Routine, r.fn = nestedFunction ∧ r.Steady #[] [] ∧ ∃ before after,
      Session.unit {} [.function nestedFunction] = before ++ (r.text ++ after) ∧
      ∀ (h : Host) (M : Machine), h.unit = before ++ (r.text ++ after) →
        .blank :: M.text = r.text ++ after → r.Upright h after M := by
  have hresult : (Program.lower #[] [.function nestedFunction] {}).result = .ok () := by
    decide +kernel
  have hcalls : (Session.unit {} [.function nestedFunction]).count
      (.instr (.call "function_f")) = 6 := by
    decide +kernel
  have hemit : Session.emit {} none [.function nestedFunction] = .ok _ :=
    emit_of_yields (Gen.yields_of_result hresult)
  obtain ⟨-, rs, hfns, -, hrs⟩ := Session.stack_balanced hemit rfl
  obtain ⟨r, rfl, hfn⟩ := List.map_eq_singleton_iff.mp hfns
  obtain ⟨-, hsteady, before, after, hunit, hupright⟩ := hrs r (List.mem_singleton_self r)
  exact ⟨_, hemit, rfl, hcalls, r, hfn, hsteady, before, after, hunit,
    fun h M hhost hM => hupright h M (hhost.trans hunit.symm) hM⟩

end TreeCompiler

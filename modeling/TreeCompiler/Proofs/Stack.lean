import TreeCompiler.Proofs.Machine

/-!
The machine, instruction by instruction: what the stack holds after a push, how the memory of
the running function is seen in that of the machine, and what a comparison and a division
leave.

`Passes` is what all code has in common. It runs from the start of its text to the text
behind it, keeps the frame pointer and what was pushed before, and turns the memory of the
function into a given one.
-/

namespace TreeCompiler

section Words

variable {mem mem' : Cell ℤ → Byte} {a b : ℤ} {n : ℕ}

lemma stackBytes_injective (a : ℤ) : (fun i : ℕ => Cell.stack (a + i)).Injective := by
  intro i j hij
  have : a + i = a + j := Cell.stack.inj hij
  omega

lemma wordAt_congr (h : ∀ i : ℕ, i < 8 → mem' (.stack (a + i)) = mem (.stack (a + i))) :
    wordAt mem' a = wordAt mem a := loadBytes_congr h

lemma wordsAt_congr (h : ∀ i, a ≤ i → i < a + 8 * n → mem' (.stack i) = mem (.stack i)) :
    wordsAt mem' a n = wordsAt mem a n := by
  induction n generalizing a with
  | zero => rfl
  | succ n ih =>
    rw [wordsAt, wordsAt, wordAt_congr fun i hi => h _ (by omega) (by push_cast; omega),
      ih fun i hlow hhigh => h i (by omega) (by push_cast; omega)]

lemma wordsAt_snoc (mem : Cell ℤ → Byte) (a : ℤ) (n : ℕ) :
    wordsAt mem a (n + 1) = wordsAt mem a n ++ [wordAt mem (a + 8 * n)] := by
  induction n generalizing a with
  | zero => simp [wordsAt]
  | succ n ih =>
    rw [wordsAt, ih, wordsAt, List.cons_append,
      show a + 8 + 8 * (n : ℤ) = a + 8 * (n + 1 : ℕ) by push_cast; omega]

end Words

section Operations

/-- The flags of a comparison, in terms of the numbers compared. -/
lemma Flags.compare_eq (a b : Word) :
    Flags.compare a b = ⟨decide (a.toInt = b.toInt), (a - b).msb,
      (a - b).msb != decide (a.toInt < b.toInt)⟩ := by
  have ha := a.toInt_lt
  have ha' := a.le_toInt
  have hb := b.toInt_lt
  have hb' := b.le_toInt
  have hsub : (a - b).toInt = (a.toInt - b.toInt).bmod (2 ^ 64) := BitVec.toInt_sub
  rw [compare, BitVec.msb_eq_toInt, BitVec.ssubOverflow, hsub, Flags.mk.injEq]
  refine ⟨?_, rfl, ?_⟩
  · rw [Bool.eq_iff_iff, beq_iff_eq, decide_eq_true_iff, BitVec.toInt_inj]
    exact BitVec.sub_eq_iff_eq_add.trans (by simp)
  · simp only [Int.bmod_def]
    rw [Bool.eq_iff_iff]
    simp
    omega

/-- A jump on the negated relation is taken exactly if the relation does not hold. -/
lemma Rel.holds_negated (rel : Rel) (a b : Word) :
    rel.negated.holds (.compare a b) = !rel.holds a b := by
  have heq : (a == b) = decide (a.toInt = b.toInt) := by
    rw [Bool.eq_iff_iff, beq_iff_eq, decide_eq_true_iff, BitVec.toInt_inj]
  rw [Flags.compare_eq]
  cases rel <;>
    simp only [negated, Cond.holds, holds, bne, heq, BitVec.slt, BitVec.sle] <;>
    grind

/-- The double word that a sign extension leaves is the number itself. -/
lemma toInt_signExtended (a : Word) :
    ((if a.msb then (-1 : Word) else 0) ++ a).toInt = a.toInt := by
  have hextend : (if a.msb then (-1 : Word) else 0) ++ a = a.signExtend (64 + 64) := by
    apply BitVec.eq_of_getLsbD_eq
    intro i hi
    rw [BitVec.getLsbD_append, BitVec.getLsbD_signExtend]
    by_cases hlow : i < 64
    · simp [hlow, hi]
    · have hhigh : i - 64 < 64 := by omega
      cases h : a.msb with
      | false => simp [hlow]
      | true =>
        have hones : (-1 : Word).getLsbD (i - 64) = true := by
          rw [show (-1 : Word) = BitVec.allOnes 64 by decide, BitVec.getLsbD_allOnes,
            decide_eq_true hhigh]
        simp only [hlow, hi, hones, if_true, decide_true, Bool.true_and, if_false]
  rw [hextend, BitVec.toInt_signExtend_of_le (by omega)]

lemma Machine.divide_signExtended {M : Machine} {b v : Word}
    (hrdx : M.rdx = if M.rax.msb then -1 else 0) (hv : Arith.eval .div M.rax b = some v) :
    ∃ rdx, M.divide b = some { M with rax := v, rdx, flags := none } := by
  rw [Arith.eval] at hv
  split at hv
  · exact absurd hv (by simp)
  · next hdef =>
    obtain rfl := Option.some.inj hv
    have hquot : (M.rax.sdiv b).toInt = M.rax.toInt.tdiv b.toInt := by
      apply BitVec.toInt_sdiv_of_ne_or_ne
      by_cases h : M.rax = BitVec.intMin 64
      · exact .inr fun e => hdef (.inr ⟨h, e⟩)
      · exact .inl h
    rw [divide, hrdx, toInt_signExtended, ← hquot, BitVec.ofInt_toInt, if_neg]
    · exact ⟨_, rfl⟩
    · rintro (h | h)
      · exact hdef (.inl h)
      · exact h rfl

end Operations

section View

variable {frame : ℕ} {o : Operand}

lemma Cell.based_injective (base : ℤ) : (Cell.based base).Injective := by
  rintro (i | ⟨x, i⟩) (j | ⟨y, j⟩) hij
  · have : base + i = base + j := Cell.stack.inj hij
    rw [show i = j by omega]
  · exact nomatch hij
  · exact nomatch hij
  · obtain ⟨rfl, rfl⟩ := Cell.data.inj hij
    rfl

/-- The operand belongs to a function with that frame: it does not start below it. -/
def Operand.Within (o : Operand) (frame : ℕ) : Prop := ∀ d, o.address = .frame d → 0 ≤ frame + d

lemma Operand.Within.cellAt (ho : o.Within frame) (rbp : ℤ) :
    o.address.cellAt rbp = Cell.based (rbp - frame) ∘ o.address.cell frame := by
  funext i
  cases ha : o.address with
  | symbol x n => rfl
  | frame d =>
    have hd := ho d ha
    simp only [Address.cellAt, Function.comp, Address.cell, Cell.based, Cell.stack.injEq]
    omega

namespace Machine

variable (M : Machine)

lemma load_view (ho : o.Within frame) :
    loadBytes M.mem (o.address.cellAt M.rbp) o.width.bytes = (M.view frame).load frame o := by
  rw [ho.cellAt M.rbp]
  exact loadBytes_congr fun _ _ => rfl

lemma store_view (ho : o.Within frame) (v : Word) :
    storeBytes M.mem (o.address.cellAt M.rbp) v o.width.bytes ∘ Cell.based (M.rbp - frame) =
      (M.view frame).store frame o v := by
  rw [ho.cellAt M.rbp]
  exact storeBytes_comp (Cell.based_injective _) _ _ _ _

/-- Below the frame a write to an operand changes nothing. -/
lemma store_below (ho : o.Within frame) (v : Word) {a : ℤ} (ha : a < M.rbp - frame) :
    storeBytes M.mem (o.address.cellAt M.rbp) v o.width.bytes (.stack a) = M.mem (.stack a) := by
  apply storeBytes_of_ne
  rintro i - h
  cases haddr : o.address with
  | symbol x n => exact nomatch haddr ▸ h
  | frame d =>
    have hd := ho d haddr
    rw [haddr] at h
    have : M.rbp + d + i = a := Cell.stack.inj h
    omega

lemma push_of_le (v : Word) {a : ℤ} (ha : M.rsp ≤ a) :
    (M.push v).mem (.stack a) = M.mem (.stack a) := by
  apply storeBytes_of_ne
  intro i hi h
  have : M.rsp - 8 + i = a := Cell.stack.inj h
  omega

lemma wordAt_push (v : Word) : wordAt (M.push v).mem (M.rsp - 8) = v :=
  loadBytes_storeBytes (stackBytes_injective _) v

/-- A push puts a word below those that are there. -/
lemma wordsAt_push (v : Word) (n : ℕ) :
    wordsAt (M.push v).mem (M.rsp - 8) (n + 1) = v :: wordsAt M.mem M.rsp n := by
  rw [wordsAt, wordAt_push, Int.sub_add_cancel]
  congr 1
  exact wordsAt_congr fun i hi _ => M.push_of_le v hi

/-- A push below the frame is not in the memory of the function. -/
lemma view_push (hsp : M.rsp ≤ M.rbp - frame) (v : Word) :
    (M.push v).view frame = M.view frame := by
  funext c
  cases c with
  | stack k =>
    have hk : M.rsp ≤ M.rbp - frame + k := by omega
    exact M.push_of_le v hk
  | data x n => exact storeBytes_of_ne fun _ _ => nofun

end Machine

end View

namespace Host

variable {h : Host} {M N M' : Machine} {rest : List Line} {i : Instr} {m m' : Memory} {low : ℤ}

/-- The code in front of `rest` runs through: the function's memory is then `m`, and the frame
pointer and what lies on the stack between `low` and the frame are as they were. -/
structure Passes (h : Host) (low : ℤ) (M : Machine) (rest : List Line) (m : Memory)
    (M' : Machine) : Prop where
  reach : h.Reaches M M'
  text : M'.text = rest
  rbp : M'.rbp = M.rbp
  stack : ∀ a, low ≤ a → a < M.rbp - h.env.frame → M'.mem (.stack a) = M.mem (.stack a)
  view : M'.view h.env.frame = m

namespace Passes

lemma trans {text : List Line} (h₁ : h.Passes low M text m N) (h₂ : h.Passes low N rest m' M') :
    h.Passes low M rest m' M' where
  reach := h₁.reach.trans h₂.reach
  text := h₂.text
  rbp := h₂.rbp.trans h₁.rbp
  stack a hlow hhigh := by
    rw [h₂.stack a hlow (by rw [h₁.rbp]; exact hhigh), h₁.stack a hlow hhigh]
  view := h₂.view

lemma mono {low' : ℤ} (hp : h.Passes low M rest m M') (hlow : low ≤ low') :
    h.Passes low' M rest m M' :=
  { hp with stack := fun a ha => hp.stack a (by omega) }

/-- Words that lie high enough are kept. -/
lemma wordsAt {a : ℤ} {n : ℕ} (hp : h.Passes low M rest m M') (hlow : low ≤ a)
    (hhigh : a + 8 * n ≤ M.rbp - h.env.frame) : wordsAt M'.mem a n = wordsAt M.mem a n :=
  wordsAt_congr fun i hi hi' => hp.stack i (by omega) (by omega)

end Passes

/-- Code that writes no memory. -/
lemma passes_of_mem_eq (hreach : h.Reaches M M') (htext : M'.text = rest) (hrbp : M'.rbp = M.rbp)
    (hmem : M'.mem = M.mem) : h.Passes low M rest (M.view h.env.frame) M' :=
  ⟨hreach, htext, hrbp, fun _ _ _ => by rw [hmem], by rw [Machine.view, hmem, hrbp]; rfl⟩

lemma reaches_instr (ht : M.text = .instr i :: rest)
    (hN : h.exec { M with text := rest } i = some N) : h.Reaches M N := by
  apply Relation.ReflTransGen.single
  rw [step, ht]
  exact hN

lemma Reaches.trans (h₁ : h.Reaches M N) (h₂ : h.Reaches N M') : h.Reaches M M' :=
  Relation.ReflTransGen.trans h₁ h₂

lemma Reaches.instr (hreach : h.Reaches M N) (ht : N.text = .instr i :: rest)
    (hN : h.exec { N with text := rest } i = some M') : h.Reaches M M' :=
  hreach.trans (reaches_instr ht hN)

/-- One instruction that writes no memory. -/
lemma passes_instr (ht : M.text = .instr i :: rest)
    (hN : h.exec { M with text := rest } i = some N) (htext : N.text = rest)
    (hrbp : N.rbp = M.rbp) (hmem : N.mem = M.mem) : h.Passes low M rest (M.view h.env.frame) N :=
  passes_of_mem_eq (reaches_instr ht hN) htext hrbp hmem

lemma Reaches.label {l : Label} (hreach : h.Reaches M N) (ht : N.text = .label l :: rest) :
    h.Reaches M { N with text := rest } := by
  refine hreach.trans (Relation.ReflTransGen.single ?_)
  rw [step, ht]

lemma passes_push {v : Word} (ht : M.text = .instr i :: rest)
    (hN : h.exec { M with text := rest } i = some ({ M with text := rest }.push v))
    (hsp : M.rsp ≤ M.rbp - h.env.frame) :
    h.Passes M.rsp M rest (M.view h.env.frame) ({ M with text := rest }.push v) where
  reach := reaches_instr ht hN
  text := rfl
  rbp := rfl
  stack _ hlow _ := Machine.push_of_le { M with text := rest } v hlow
  view := Machine.view_push { M with text := rest } hsp v

lemma passes_store {o : Operand} {r : Scratch} (ht : M.text = .instr (.store o r) :: rest)
    (ho : o.Within h.env.frame) :
    h.Passes low M rest ((M.view h.env.frame).store h.env.frame o (M.scratch r))
      { M with
        text := rest
        mem := storeBytes M.mem (o.address.cellAt M.rbp) (M.scratch r) o.width.bytes } where
  reach := reaches_instr ht rfl
  text := rfl
  rbp := rfl
  stack _ _ hhigh := M.store_below ho _ hhigh
  view := M.store_view ho _

/-- A callee that took `args` bytes off the stack is back. -/
lemma passes_returned {args : ℕ} {v : Word} (hreach : h.Reaches M (h.returned N args v m))
    (htext : N.text = rest) (hrbp : N.rbp = M.rbp) (hmem : N.mem = M.mem) :
    h.Passes (N.rsp + args) M rest m (h.returned N args v m) where
  reach := hreach
  text := htext
  rbp := hrbp
  stack a hlow hhigh := by
    rw [returned]
    simp only
    rw [if_neg (by omega), if_pos hlow, hmem]
  view := by
    funext c
    cases c with
    | data x n => rfl
    | stack k =>
      simp only [Machine.view, returned, Function.comp, Cell.based]
      have hk : (N.rbp - h.env.frame + k - (N.rbp - h.env.frame)).toNat = k := by omega
      rw [if_pos (by omega), hk]

/-- Pushing registers leaves their values on the stack, the last one lowest. -/
lemma passes_save {rs : List Scratch}
    (ht : M.text = rs.map (fun r => .instr (.push (.scratch r))) ++ rest)
    (hsp : M.rsp ≤ M.rbp - h.env.frame) :
    ∃ M', h.Passes M.rsp M rest (M.view h.env.frame) M' ∧ M'.rsp = M.rsp - 8 * rs.length ∧
      wordsAt M'.mem M'.rsp rs.length = rs.reverse.map M.scratch := by
  induction rs generalizing M with
  | nil => exact ⟨M, passes_of_mem_eq .refl ht rfl rfl, by simp, rfl⟩
  | cons r rs ih =>
    obtain ⟨text, htext⟩ :
        ∃ text, text = rs.map (fun r => .instr (.push (.scratch r))) ++ rest := ⟨_, rfl⟩
    rw [List.map_cons, List.cons_append, ← htext] at ht
    obtain ⟨N, hN⟩ : ∃ N, N = { M with text }.push (M.scratch r) := ⟨_, rfl⟩
    have hpush : h.Passes M.rsp M text _ N := hN ▸ passes_push ht rfl hsp
    have hNsp : N.rsp = M.rsp - 8 := by rw [hN]; rfl
    have hNword : wordAt N.mem N.rsp = M.scratch r := by
      rw [hN]
      exact Machine.wordAt_push _ _
    obtain ⟨M', hrest, hM'sp, hwords⟩ := ih (hpush.text.trans htext) (by rw [hpush.rbp]; omega)
    rw [hpush.view] at hrest
    refine ⟨M', hpush.trans (hrest.mono (by omega)), ?_, ?_⟩
    · rw [hM'sp, hNsp, List.length_cons]
      push_cast
      omega
    · have hkept : wordAt M'.mem N.rsp = M.scratch r := by
        rw [← hNword]
        exact wordAt_congr fun i hi => hrest.stack _ (by omega) (by rw [hpush.rbp]; omega)
      rw [List.length_cons, wordsAt_snoc, hwords, hM'sp, Int.sub_add_cancel, hkept,
        List.reverse_cons, List.map_append, hN]
      rfl

lemma passes_pad {n : ℕ} (ht : M.text = List.replicate n (.instr .pushZero) ++ rest)
    (hsp : M.rsp ≤ M.rbp - h.env.frame) :
    ∃ M', h.Passes M.rsp M rest (M.view h.env.frame) M' ∧ M'.rsp = M.rsp - 8 * n := by
  induction n generalizing M with
  | zero => exact ⟨M, passes_of_mem_eq .refl ht rfl rfl, by simp⟩
  | succ n ih =>
    have hpush := passes_push (v := 0) ht rfl hsp
    obtain ⟨M', hrest, hM'sp⟩ := ih hpush.text (by simp only [Machine.push]; omega)
    rw [hpush.view] at hrest
    refine ⟨M', hpush.trans (hrest.mono (by simp only [Machine.push]; omega)), ?_⟩
    rw [hM'sp]
    simp only [Machine.push]
    push_cast
    omega

/-- Popping registers off the words on the stack. -/
lemma reaches_restore {rs : List Scratch} {f : Scratch → Word}
    (ht : M.text = rs.map (fun r => .instr (.pop (.scratch r))) ++ rest)
    (hwords : wordsAt M.mem M.rsp rs.length = rs.map f) :
    ∃ M', h.Reaches M M' ∧ M'.text = rest ∧ M'.rbp = M.rbp ∧ M'.mem = M.mem ∧
      M'.rax = M.rax ∧ M'.rsp = M.rsp + 8 * rs.length ∧
      M'.scratch = fun q => if q ∈ rs then f q else M.scratch q := by
  induction rs generalizing M with
  | nil => exact ⟨M, .refl, ht, rfl, rfl, rfl, by simp, by simp⟩
  | cons r rs ih =>
    rw [List.length_cons, wordsAt, List.map_cons, List.cons.injEq] at hwords
    obtain ⟨hword, hwords⟩ := hwords
    have hpop := reaches_instr ht (h := h) rfl
    obtain ⟨M', hrest, htext, hrbp, hmem, hrax, hM'sp, hscratch⟩ :=
      ih (M := { M with text := _, rsp := M.rsp + 8 }.set (.scratch r) (wordAt M.mem M.rsp)) rfl
        hwords
    refine ⟨M', hpop.trans hrest, htext, hrbp, hmem, hrax, ?_, ?_⟩
    · rw [hM'sp, List.length_cons]
      simp only [Machine.set, Machine.setScratch]
      push_cast
      omega
    · funext q
      rw [hscratch]
      by_cases hq : q = r
      · subst hq
        simp [Machine.set, Machine.setScratch, hword]
      · simp [Machine.set, Machine.setScratch, hq]

lemma reaches_drop {n : ℕ}
    (ht : M.text = (if n = 0 then [] else [.instr (.raiseStack (n * wordSize))]) ++ rest) :
    ∃ M', h.Reaches M M' ∧ M'.text = rest ∧ M'.rbp = M.rbp ∧ M'.mem = M.mem ∧
      M'.rax = M.rax ∧ M'.rsp = M.rsp + 8 * n := by
  by_cases hn : n = 0
  · subst hn
    exact ⟨M, .refl, ht, rfl, rfl, rfl, by simp⟩
  · rw [if_neg hn] at ht
    refine ⟨_, reaches_instr ht rfl, rfl, rfl, rfl, rfl, ?_⟩
    simp only [wordSize]
    push_cast
    omega

end Host

end TreeCompiler

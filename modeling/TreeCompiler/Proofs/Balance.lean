import Mathlib.Algebra.Group.Even
import Mathlib.Algebra.Group.Int.Even
import Mathlib.Algebra.BigOperators.Group.List.Basic
import Mathlib.Algebra.Ring.Int.Defs
import TreeCompiler.Lowering.Unit
import TreeCompiler.Proofs.Registers
import TreeCompiler.Proofs.Statements

/-!
The words on the stack, counted along the text.

Code is read line by line, without running it: a push counts one word more, a pop one less. What
makes the count a fact about runs is that all ways to a label agree on it. `Balanced` says so of the
code of one step, together with the rest that the stack has to obey: nothing below the `base` is
touched, and calls stand at even counts. A jump to a label outside of the code is taken at the base.
-/

namespace TreeCompiler

/-! ### Counting -/

/-- The words that an instruction puts on the stack, less those that it takes off. -/
@[simp] def Instr.words : Instr → ℤ
  | .push _ | .pushZero => 1
  | .pop _ => -1
  | .raiseStack n => -(n / wordSize : ℕ)
  | _ => 0

def Line.words : Line → ℤ
  | .instr i => i.words
  | _ => 0

@[simp] lemma Line.words_instr (i : Instr) : (Line.instr i).words = i.words := rfl

@[simp] lemma Line.words_label (l : Label) : (Line.label l).words = 0 := rfl

/-- The words that a text leaves on the stack. -/
def height (text : List Line) : ℤ := (text.map Line.words).sum

@[simp] lemma height_nil : height [] = 0 := rfl

@[simp] lemma height_cons (line : Line) (text : List Line) :
    height (line :: text) = line.words + height text := List.sum_cons

@[simp] lemma height_append (t u : List Line) : height (t ++ u) = height t + height u := by
  simp [height]

/-- The line stands in the text, at a place where `n` words were put on the stack. -/
def Stands (line : Line) (n : ℤ) (text : List Line) : Prop :=
  ∃ pre post, text = pre ++ line :: post ∧ height pre = n

section Stands

variable {line : Line} {n : ℤ} {t u text : List Line}

lemma Stands.mem (h : Stands line n text) : line ∈ text := by
  obtain ⟨pre, post, rfl, -⟩ := h
  simp

lemma exists_stands (h : line ∈ text) : ∃ n, Stands line n text := by
  obtain ⟨pre, post, rfl⟩ := List.append_of_mem h
  exact ⟨_, pre, post, rfl, rfl⟩

/-- A place in two texts is in one of them. -/
lemma append_eq_split {pre post : List Line} (h : t ++ u = pre ++ line :: post) :
    (∃ mid, t = pre ++ line :: mid) ∨ ∃ mid, pre = t ++ mid ∧ u = mid ++ line :: post := by
  rcases List.append_eq_append_iff.mp h with ⟨mid, rfl, rfl⟩ | ⟨mid, rfl, hmid⟩
  · exact .inr ⟨mid, rfl, rfl⟩
  · cases mid with
    | nil => exact .inr ⟨[], by simp, hmid.symm⟩
    | cons x mid =>
      obtain ⟨rfl, -⟩ := List.cons.inj hmid
      exact .inl ⟨mid, rfl⟩

lemma stands_append : Stands line n (t ++ u) ↔ Stands line n t ∨ Stands line (n - height t) u := by
  constructor
  · rintro ⟨pre, post, hsplit, rfl⟩
    rcases append_eq_split hsplit with ⟨mid, rfl⟩ | ⟨mid, rfl, rfl⟩
    · exact .inl ⟨pre, mid, rfl, rfl⟩
    · exact .inr ⟨mid, post, rfl, by simp⟩
  · rintro (⟨pre, post, rfl, rfl⟩ | ⟨pre, post, rfl, hn⟩)
    · exact ⟨pre, post ++ u, by simp, rfl⟩
    · exact ⟨t ++ pre, post, by simp, by rw [height_append, hn]; omega⟩

@[simp] lemma not_stands_nil : ¬ Stands line n [] := fun h => nomatch h.mem

@[simp] lemma stands_singleton {x : Line} : Stands line n [x] ↔ line = x ∧ n = 0 := by
  constructor
  · rintro ⟨pre, post, hsplit, rfl⟩
    rcases List.singleton_eq_append_iff.mp hsplit with ⟨rfl, hline⟩ | ⟨-, hline⟩
    · exact ⟨(List.cons.inj hline).1, rfl⟩
    · cases hline
  · rintro ⟨rfl, rfl⟩
    exact ⟨[], [], rfl, rfl⟩

/-- A label counts nothing. -/
lemma stands_insert {l : Label} : Stands line n (t ++ .label l :: u) ↔
    Stands line n (t ++ u) ∨ line = .label l ∧ n = height t := by
  rw [← List.singleton_append, stands_append, stands_append, stands_append, stands_singleton,
    show height [.label l] = 0 from rfl, Int.sub_zero, Int.sub_eq_zero]
  tauto

end Stands

/-! ### Lines of a body -/

/-- The label that an instruction jumps to. -/
@[simp] def Instr.target? : Instr → Option Label
  | .jump l | .jumpIf _ l => some l
  | _ => none

def Line.target? : Line → Option Label
  | .instr i => i.target?
  | _ => none

@[simp] lemma Line.target?_instr (i : Instr) : (Line.instr i).target? = i.target? := rfl

/-- The instruction moves the stack pointer by the words that are counted for it, and by no other
way. -/
@[simp] def Instr.plain : Instr → Bool
  | .pop r | .move r _ => r != .rsp
  | .raiseStack n => n % wordSize == 0
  | .lowerStack _ | .alignStack | .ret | .callExternal _ => false
  | _ => true

/-- The lines between the prologue and the epilogue of a routine. -/
def Line.plain : Line → Bool
  | .label _ => true
  | .instr i => i.plain
  | _ => false

/-- A plain instruction from which control goes to the next one. -/
@[simp] def Instr.quiet : Instr → Bool
  | .call _ | .jump _ | .jumpIf _ _ => false
  | i => i.plain

def Line.quiet : Line → Bool
  | .instr i => i.quiet
  | _ => false

@[simp] lemma Line.quiet_instr (i : Instr) : (Line.instr i).quiet = i.quiet := rfl

lemma Line.plain_of_quiet {line : Line} (h : line.quiet = true) : line.plain = true := by
  cases line with
  | instr i => cases i <;> first | rfl | exact h
  | label | blank | segment | relativeAddresses | external | exported | routine | reserve
  | format => cases h

lemma Line.target?_of_quiet {line : Line} (h : line.quiet = true) : line.target? = none := by
  cases line with
  | instr i => cases i <;> first | rfl | cases h
  | label | blank | segment | relativeAddresses | external | exported | routine | reserve
  | format => rfl

/-! ### Balance -/

/-- The code from one state to the other counts words as the states do, and is in balance. -/
structure Balanced (base : ℕ) (outer : List Label) (g : GenState) (text : List Line)
    (g' : GenState) : Prop where
  ends : g.depth + height text = g'.depth
  above {pre : List Line} : pre <+: text → base ≤ g.depth + height pre
  calls {x : String} {n : ℤ} : Stands (.instr (.call x)) n text → Even (g.depth + n)
  jumps {line : Line} {l : Label} {n : ℤ} : line.target? = some l → Stands line n text →
    Stands (.label l) n text ∨ l ∈ outer ∧ g.depth + n = base
  plain {line : Line} : line ∈ text → line.plain = true
  placed {n : ℕ} : g.labels ≤ n → n < g'.labels → .label ⟨n⟩ ∈ text

namespace Balanced

variable {base : ℕ} {outer : List Label} {g g₁ g' k k' : GenState} {t u text : List Line}
  {line : Line}

/-- The base is below where the code starts and ends. -/
lemma base_le (h : Balanced base outer g text g') : base ≤ g.depth ∧ base ≤ g'.depth := by
  have hstart := h.above (List.nil_prefix (l := text))
  have hend := h.above (List.prefix_refl text)
  rw [h.ends] at hend
  exact ⟨by simpa using hstart, Int.ofNat_le.mp hend⟩

/-- Only the labels and the depth of the states matter. -/
lemma congr (h : Balanced base outer g text g') (hlabels : k.labels = g.labels)
    (hdepth : k.depth = g.depth) (hlabels' : k'.labels = g'.labels)
    (hdepth' : k'.depth = g'.depth) : Balanced base outer k text k' where
  ends := by rw [hdepth, hdepth', h.ends]
  above hpre := by rw [hdepth]; exact h.above hpre
  calls hcall := by rw [hdepth]; exact h.calls hcall
  jumps hl hline := by rw [hdepth]; exact h.jumps hl hline
  plain := h.plain
  placed hlow hhigh := h.placed (hlabels ▸ hlow) (hlabels' ▸ hhigh)

lemma weaken {outer' : List Label} (h : Balanced base outer g text g') (houter : outer ⊆ outer') :
    Balanced base outer' g text g' := by
  refine { h with jumps := fun hl hline => ?_ }
  rcases h.jumps hl hline with hinner | ⟨hmem, hn⟩
  · exact .inl hinner
  · exact .inr ⟨houter hmem, hn⟩

/-- Code that jumps nowhere else does not depend on the base. -/
lemma lower_base {base' : ℕ} (h : Balanced base [] g text g') (hbase : base' ≤ base) :
    Balanced base' outer g text g' where
  ends := h.ends
  above hpre := by
    have hle : (base' : ℤ) ≤ base := Int.ofNat_le.mpr hbase
    exact Int.le_trans hle (h.above hpre)
  calls := h.calls
  jumps hl hline := by
    -- nothing is outside that it could jump to
    rcases h.jumps hl hline with hinner | ⟨hmem, -⟩
    · exact .inl hinner
    · exact absurd hmem List.not_mem_nil
  plain := h.plain
  placed := h.placed

lemma append (ht : Balanced base outer g t g₁) (hu : Balanced base outer g₁ u g') :
    Balanced base outer g (t ++ u) g' where
  ends := by rw [height_append, ← hu.ends, ← ht.ends, Int.add_assoc]
  above {pre} hpre := by
    rcases List.prefix_or_prefix_of_prefix hpre (List.prefix_append t u) with hfirst | ⟨mid, rfl⟩
    · exact ht.above hfirst
    · have hmid := hu.above ((List.prefix_append_right_inj t).mp hpre)
      rwa [← ht.ends, Int.add_assoc, ← height_append] at hmid
  calls {x n} hcall := by
    rcases stands_append.mp hcall with hcall | hcall
    · exact ht.calls hcall
    · have heven := hu.calls hcall
      rwa [← ht.ends, show g.depth + height t + (n - height t) = g.depth + n by omega] at heven
  jumps {line l n} hl hline := by
    rw [stands_append]
    rcases stands_append.mp hline with hline | hline
    · exact (ht.jumps hl hline).imp .inl id
    · refine (hu.jumps hl hline).imp .inr fun ⟨hmem, hn⟩ => ⟨hmem, ?_⟩
      rw [← ht.ends] at hn
      omega
  plain hline := (List.mem_append.mp hline).elim ht.plain hu.plain
  placed {n} hlow hhigh := by
    rcases Nat.lt_or_ge n g₁.labels with hn | hn
    · exact List.mem_append_left _ (ht.placed hlow hn)
    · exact List.mem_append_right _ (hu.placed hn hhigh)

/-- One line. -/
lemma single (hplain : line.plain = true) (hlabels : g'.labels = g.labels)
    (hdepth : g.depth + line.words = g'.depth) (hbase : base ≤ g.depth) (hbase' : base ≤ g'.depth)
    (hcall : ∀ x, line = .instr (.call x) → Even (g.depth : ℤ))
    (hjump : ∀ l, line.target? = some l → l ∈ outer ∧ g.depth = base) :
    Balanced base outer g [line] g' where
  ends := by simpa using hdepth
  above {pre} hpre := by
    rcases List.prefix_cons_iff.mp hpre with rfl | ⟨rest, rfl, hrest⟩
    · simpa using hbase
    · rw [List.prefix_nil.mp hrest]
      simpa [hdepth] using hbase'
  calls {x n} hstands := by
    obtain ⟨rfl, rfl⟩ := stands_singleton.mp hstands
    simpa using hcall x rfl
  jumps {line' l n} hl hstands := by
    obtain ⟨rfl, rfl⟩ := stands_singleton.mp hstands
    obtain ⟨hmem, hbase⟩ := hjump l hl
    exact .inr ⟨hmem, by simp [hbase]⟩
  plain hmem := by
    obtain rfl := List.mem_singleton.mp hmem
    exact hplain
  placed hlow hhigh := by omega

lemma quiet (hquiet : line.quiet = true) (hlabels : g'.labels = g.labels)
    (hdepth : g.depth + line.words = g'.depth) (hbase : base ≤ g.depth)
    (hbase' : base ≤ g'.depth) : Balanced base outer g [line] g' := by
  refine single (Line.plain_of_quiet hquiet) hlabels hdepth hbase hbase' ?_ ?_
  · rintro x rfl
    exact nomatch hquiet
  · simp [Line.target?_of_quiet hquiet]

lemma nil (hlabels : g'.labels = g.labels) (hdepth : g'.depth = g.depth) (hbase : base ≤ g.depth) :
    Balanced base outer g [] g' where
  ends := by simp [hdepth]
  above hpre := by simpa [List.prefix_nil.mp hpre] using hbase
  calls h := absurd h not_stands_nil
  jumps _ h := absurd h not_stands_nil
  plain h := nomatch h
  placed hlow hhigh := by omega

/-- Lines that leave the stack alone. -/
lemma still (h : ∀ line ∈ text, line.quiet = true ∧ line.words = 0) (hbase : base ≤ g.depth) :
    Balanced base outer g text g := by
  induction text with
  | nil => exact .nil rfl rfl hbase
  | cons line text ih =>
    obtain ⟨⟨hquiet, hwords⟩, htext⟩ := List.forall_mem_cons.mp h
    exact (Balanced.quiet hquiet rfl (by simp [hwords]) hbase hbase).append (ih htext)

/-- A jump out of the code. -/
lemma jump {l : Label} (htarget : line.target? = some l) (hplain : line.plain = true)
    (hwords : line.words = 0) (hl : l ∈ outer) (hbase : g.depth = base) :
    Balanced base outer g [line] g := by
  have hdepth : g.depth + line.words = g.depth := by simp [hwords]
  have hle : base ≤ g.depth := Nat.le_of_eq hbase.symm
  refine single hplain rfl hdepth hle hle ?_ ?_
  · rintro x rfl
    cases htarget
  · intro l' hl'
    obtain rfl : l = l' := Option.some.inj (htarget.symm.trans hl')
    exact ⟨hl, hbase⟩

/-- A label that is issued before the code and placed in it at the base. -/
lemma place (h : Balanced base (⟨g.labels⟩ :: outer) k (t ++ u) g')
    (hlabels : k.labels = g.labels + 1) (hdepth : k.depth = g.depth)
    (hbase : g.depth + height t = base) :
    Balanced base outer g (t ++ .label ⟨g.labels⟩ :: u) g' where
  ends := by
    rw [← h.ends, hdepth, height_append, height_append, height_cons]
    simp
  above {pre} hpre := by
    rw [← hdepth]
    rcases List.prefix_or_prefix_of_prefix hpre (List.prefix_append t _) with hfirst | ⟨mid, rfl⟩
    · exact h.above (hfirst.trans (List.prefix_append t u))
    · rcases List.prefix_cons_iff.mp ((List.prefix_append_right_inj t).mp hpre) with
        rfl | ⟨rest, rfl, hrest⟩
      · exact h.above (by simp)
      · have hshort := h.above ((List.prefix_append_right_inj t).mpr hrest)
        rw [height_append] at hshort
        simpa using hshort
  calls {x n} hcall := by
    rw [← hdepth]
    exact h.calls ((stands_insert.mp hcall).resolve_right (by simp))
  jumps {line l n} hl hline := by
    rw [stands_insert] at hline ⊢
    have hinner := hline.resolve_right (by rintro ⟨rfl, -⟩; cases hl)
    rcases h.jumps hl hinner with hstands | ⟨hmem, hn⟩
    · exact .inl (.inl hstands)
    · rcases List.mem_cons.mp hmem with rfl | hmem
      · exact .inl (.inr ⟨rfl, by omega⟩)
      · exact .inr ⟨hmem, by rw [← hdepth]; exact hn⟩
  plain {line} hline := by
    rcases List.mem_append.mp hline with hline | hline
    · exact h.plain (List.mem_append_left _ hline)
    · rcases List.mem_cons.mp hline with rfl | hline
      · rfl
      · exact h.plain (List.mem_append_right _ hline)
  placed {n} hlow hhigh := by
    rcases Nat.eq_or_lt_of_le hlow with rfl | hlow
    · simp
    · have hmem := h.placed (by omega) hhigh
      exact List.mem_append.mpr ((List.mem_append.mp hmem).imp id (List.mem_cons_of_mem _))

/-- Lines that each put a word on the stack. -/
lemma climb (h : ∀ line ∈ text, line.quiet = true ∧ line.words = 1) (hbase : base ≤ g.depth) :
    Balanced base outer g text { g with depth := g.depth + text.length } := by
  induction text generalizing g with
  | nil => exact .nil rfl rfl hbase
  | cons line text ih =>
    obtain ⟨⟨hquiet, hwords⟩, htext⟩ := List.forall_mem_cons.mp h
    have hfirst : Balanced base outer g [line] { g with depth := g.depth + 1 } :=
      Balanced.quiet hquiet rfl (by simp [hwords]) hbase (by push_cast; omega)
    refine (hfirst.append (ih htext hfirst.base_le.2)).congr rfl rfl rfl ?_
    simp only [List.length_cons]
    omega

/-- Lines that each take a word off the stack. -/
lemma descend (h : ∀ line ∈ text, line.quiet = true ∧ line.words = -1)
    (hbase : base + text.length ≤ g.depth) :
    Balanced base outer g text { g with depth := g.depth - text.length } := by
  induction text generalizing g with
  | nil => exact .nil rfl rfl (by simpa using hbase)
  | cons line text ih =>
    obtain ⟨⟨hquiet, hwords⟩, htext⟩ := List.forall_mem_cons.mp h
    rw [List.length_cons] at hbase
    have hfirst : Balanced base outer g [line] { g with depth := g.depth - 1 } :=
      Balanced.quiet hquiet rfl (by simp only [hwords]; omega) (by omega) (by dsimp only; omega)
    refine (hfirst.append (ih htext (by dsimp only; omega))).congr rfl rfl rfl ?_
    simp only [List.length_cons]
    omega

/-- A comparison jumps to a label of its own. -/
lemma compare {rel : Rel} {l r q : Scratch} (hbase : g.depth = base)
    (hlabels : k.labels = g.labels + 1) (hdepth : k.depth = g.depth) :
    Balanced base outer g (Gen.compareText rel l r q ⟨g.labels⟩) k := by
  have hle : base ≤ k.depth := Nat.le_of_eq (hdepth.trans hbase).symm
  have htest : Balanced base (⟨g.labels⟩ :: outer) k
      [.instr (.compare l r), .instr (.const q 0)] k :=
    still (by simp) hle
  have hjump : Balanced base (⟨g.labels⟩ :: outer) k [.instr (.jumpIf rel.negated ⟨g.labels⟩)] k :=
    jump rfl rfl rfl (List.mem_cons_self ..) (hdepth.trans hbase)
  have hone : Balanced base (⟨g.labels⟩ :: outer) k [.instr (.const q 1)] k :=
    quiet rfl rfl (by simp) hle hle
  exact place (u := []) (by simpa using htest.append (hjump.append hone)) hlabels hdepth
    (by simp [hbase])

/-- Words are dropped all at once. -/
lemma drop {n : ℕ} (hbase : base + n ≤ g.depth) :
    Balanced base outer g (if n = 0 then [] else [.instr (.raiseStack (n * wordSize))])
      { g with depth := g.depth - n } := by
  split
  · next hn =>
    subst hn
    exact .nil rfl rfl (by omega)
  · refine Balanced.quiet ?_ rfl ?_ (by omega) (by dsimp only; omega)
    · simp
    · simp only [Line.words_instr, Instr.words, wordSize]
      omega

/-- A call: registers and padding below the arguments make the count even, and all of it is taken
off again. -/
lemma call {rs : List Scratch} {pending n : ℕ} {x : String} {r : Scratch}
    (hn : n = Gen.padding (g.depth + rs.length) pending)
    (hargs : Balanced k.depth [] k t g₁) (hlabels : k.labels = g.labels)
    (hdepth : k.depth = g.depth + rs.length + n) (hdepth' : g₁.depth = k.depth + pending)
    (hlabels' : g'.labels = g₁.labels)
    (hend : g'.depth = g₁.depth - (pending + n) - rs.length) :
    Balanced g.depth [] g (rs.map (fun r => .instr (.push (.scratch r))) ++
      (List.replicate n (.instr .pushZero) ++ (t ++ (.instr (.call x) ::
      ((if pending + n = 0 then [] else [.instr (.raiseStack ((pending + n) * wordSize))]) ++
      (rs.reverse.map (fun r => .instr (.pop (.scratch r))) ++
      [.instr (.move (.scratch r) .rax)])))))) g' := by
  have hsaved : Balanced g.depth [] g (rs.map fun r => .instr (.push (.scratch r)))
      { g with depth := g.depth + rs.length } :=
    (climb (by simp) (Nat.le_refl _)).congr
      rfl rfl rfl (by simp)
  have hpadded : Balanced g.depth [] _ (List.replicate n (.instr .pushZero)) k :=
    (climb (by simp) hsaved.base_le.2).congr
      rfl rfl hlabels (by simp [hdepth])
  have hpassed : Balanced g.depth [] k t g₁ := hargs.lower_base hpadded.base_le.2
  have heven : Even (g₁.depth : ℤ) := by
    rw [hdepth', hdepth, hn, Gen.padding, Int.even_iff]
    split <;> push_cast <;> omega
  have hcalled : Balanced g.depth [] g₁ [.instr (.call x)] g₁ :=
    single rfl rfl (by simp) hpassed.base_le.2 hpassed.base_le.2 (fun _ _ => heven)
      (by simp)
  have hdropped : Balanced g.depth [] g₁
      (if pending + n = 0 then [] else [.instr (.raiseStack ((pending + n) * wordSize))])
      { g₁ with depth := g₁.depth - (pending + n) } := drop (by omega)
  have hrestored : Balanced g.depth [] { g₁ with depth := g₁.depth - (pending + n) }
      (rs.reverse.map fun r => .instr (.pop (.scratch r))) g' :=
    (descend (by simp)
      (by rw [List.length_map, List.length_reverse]; dsimp only; omega)).congr
      rfl rfl hlabels' (by simp [hend])
  have htaken : Balanced g.depth [] g' [.instr (.move (.scratch r) .rax)] g' :=
    quiet rfl rfl (by simp) hrestored.base_le.2 hrestored.base_le.2
  have hbehind := hdropped.append (hrestored.append htaken)
  exact hsaved.append (hpadded.append (hpassed.append (hcalled.append hbehind)))

end Balanced

variable {arena : Arena}

mutual

/-- The code of an expression is balanced on top of what it finds on the stack. -/
theorem Expr.balanced : (e : Expr) → ∀ {g g' : GenState} {text : List Line} {r : Scratch},
    (e.lower arena).Yields g text g' r → Balanced g.depth [] g text g'
  | .int _, _, _, _, _, h | .bool true, _, _, _, _, h | .bool false, _, _, _, _, h => by
    obtain ⟨bank, -, rfl, rfl⟩ := Gen.yields_constant.mp h
    exact .quiet rfl rfl rfl (Nat.le_refl _) (Nat.le_refl _)
  | .name x, _, _, _, _, h => by
    obtain ⟨_, bank, -, -, rfl, rfl⟩ := Ident.yields_load.mp h
    exact .quiet rfl rfl rfl (Nat.le_refl _) (Nat.le_refl _)
  | .assign x e, _, _, _, _, h => by
    obtain ⟨_, g₁, r, _, he, hstore, rfl⟩ := Gen.yields_bind.mp h
    obtain ⟨_, _, _, _, hx, hr, rfl⟩ := Gen.yields_bind.mp hstore
    obtain ⟨o, -, rfl, rfl⟩ := Ident.yields_store.mp hx
    obtain ⟨rfl, rfl, rfl⟩ := Gen.yields_pure.mp hr
    refine (e.balanced he).append (.still ?_ (e.balanced he).base_le.2)
    simp
  | .binary op left right, g, _, _, _, h => by
    obtain ⟨_, g₁, l, _, hl, hrest, rfl⟩ := Gen.yields_bind.mp h
    obtain ⟨_, g₂, r, _, hr, hop, rfl⟩ := Gen.yields_bind.mp hrest
    have hleft := (left.takes hl).depth
    have hright := (right.takes hr).depth
    have hlast : Balanced g.depth [] g₁ _ g₂ :=
      (right.balanced hr).lower_base (Nat.le_of_eq hleft.symm)
    refine (left.balanced hl).append (hlast.append ?_)
    cases op with
    | arith op =>
      obtain ⟨rfl, rfl, rfl⟩ := Gen.yields_arith.mp hop
      refine (Balanced.still ?_ (Nat.le_of_eq (hright.trans hleft).symm)).congr rfl rfl rfl rfl
      cases op <;> simp [Gen.arithText]
    | compare rel =>
      obtain ⟨bank, -, rfl, rfl⟩ := Gen.yields_compare.mp hop
      exact .compare (hright.trans hleft) rfl rfl
  | .call f args, g, _, _, _, h => by
    rw [Expr.lower_call] at h
    obtain ⟨n, t, g₁, bank, hn, hargs, -, rfl, rfl⟩ := Gen.yields_callWith.mp h
    have hpass : Balanced _ [] _ t g₁ ∧ g₁.depth = _ + f.pushed args := Ident.pass_cases
      (P := fun args' pending => args'.Yields _ t g₁ () →
        Balanced _ [] _ t g₁ ∧ g₁.depth = _ + pending) f
      (fun hy => ⟨Expr.balanced_printed args hy,
        (Expr.givesBack_printed args (Gen.count_saved_live _) hy).depth⟩)
      (fun hy => ⟨Expr.balanced_args args hy,
        (Expr.givesBack_args args (Gen.count_saved_live _) hy).depth⟩) hargs
    exact Balanced.call hn hpass.1 rfl rfl hpass.2 rfl rfl
termination_by structural e => e

theorem Expr.balanced_args : (es : List Expr) → ∀ {g g' : GenState} {text : List Line} {u : Unit},
    (Expr.lowerArgs arena es).Yields g text g' u → Balanced g.depth [] g text g'
  | [], g, _, _, _, h => by
    obtain ⟨rfl, rfl, -⟩ := Gen.yields_pure.mp h
    exact .nil rfl rfl (Nat.le_refl _)
  | e :: rest, g, _, _, _, h => by
    obtain ⟨_, g₁, _, _, hrest, he, rfl⟩ := Gen.yields_bind.mp h
    obtain ⟨_, g₂, r, _, hr, hpush, rfl⟩ := Gen.yields_bind.mp he
    obtain ⟨_, hfree, rfl⟩ := Gen.yields_push_bind.mp hpush
    obtain ⟨rfl, rfl⟩ := Gen.yields_free.mp hfree
    have hbelow := Expr.balanced_args rest hrest
    have habove : Balanced g.depth [] _ _ g₂ := (e.balanced hr).lower_base hbelow.base_le.2
    refine hbelow.append (habove.append ?_)
    refine (Balanced.climb ?_ habove.base_le.2).congr rfl rfl rfl rfl
    simp
termination_by structural es => es

theorem Expr.balanced_printed : (es : List Expr) →
    ∀ {g g' : GenState} {text : List Line} {u : Unit},
    (Expr.lowerPrinted arena es).Yields g text g' u → Balanced g.depth [] g text g'
  | [], g, _, _, _, h => by
    obtain ⟨rfl, rfl, -⟩ := Gen.yields_pure.mp h
    exact .nil rfl rfl (Nat.le_refl _)
  | e :: rest, g, _, _, _, h => by
    obtain ⟨_, g₁, r, _, he, hmove, rfl⟩ := Gen.yields_bind.mp h
    obtain ⟨_, hfree, rfl⟩ := Gen.yields_instr_bind.mp hmove
    have hrest := Expr.balanced_printed rest (Gen.yields_free_bind.mp hfree)
    have hfirst := e.balanced he
    have hmoved : Balanced g.depth [] g₁ [.instr (.move .rdi (.scratch r))]
        { g₁ with bank := g₁.bank.free r } :=
      .quiet rfl rfl rfl hfirst.base_le.2 hfirst.base_le.2
    exact hfirst.append (hmoved.append (hrest.lower_base hfirst.base_le.2))
termination_by structural es => es

end

/-! ### Statements -/

/-- Balanced code that ends where it starts. -/
structure Level (outer : List Label) (g : GenState) (text : List Line) (g' : GenState) : Prop
    extends Balanced g.depth outer g text g' where
  depth : g'.depth = g.depth

namespace Level

variable {outer : List Label} {g g₁ g' k : GenState} {t u text : List Line}

lemma height_eq (h : Level outer g text g') : height text = 0 := by
  have hends := h.ends
  rw [h.depth] at hends
  omega

lemma append (ht : Level outer g t g₁) (hu : Level outer g₁ u g') : Level outer g (t ++ u) g' := by
  have hbalanced := hu.toBalanced
  rw [ht.depth] at hbalanced
  exact ⟨ht.toBalanced.append hbalanced, hu.depth.trans ht.depth⟩

lemma weaken {outer' : List Label} (h : Level outer g text g') (houter : outer ⊆ outer') :
    Level outer' g text g' := ⟨h.toBalanced.weaken houter, h.depth⟩

lemma nil (outer : List Label) (g : GenState) : Level outer g [] g :=
  ⟨.nil rfl rfl (Nat.le_refl _), rfl⟩

lemma still (h : ∀ line ∈ text, line.quiet = true ∧ line.words = 0) : Level outer g text g :=
  ⟨.still h (Nat.le_refl _), rfl⟩

lemma jump {l : Label} (hl : l ∈ outer) : Level outer g [.instr (.jump l)] g :=
  ⟨.jump rfl rfl rfl hl rfl, rfl⟩

lemma place (h : Level (⟨g.labels⟩ :: outer) k (t ++ u) g') (hlabels : k.labels = g.labels + 1)
    (hdepth : k.depth = g.depth) (ht : height t = 0) :
    Level outer g (t ++ .label ⟨g.labels⟩ :: u) g' := by
  have hbalanced := h.toBalanced
  rw [hdepth] at hbalanced
  exact ⟨hbalanced.place hlabels hdepth (by simp [ht]), h.depth.trans hdepth⟩

end Level

section Statements

variable {outer : List Label} {exit stop : Label} {g g' : GenState} {text : List Line} {u : Unit}

/-- An expression of which the value is given up at last. -/
lemma Expr.level {e : Expr} {r : Scratch} (h : (e.lower arena).Yields g text g' r) :
    Level outer g text { g' with bank := g'.bank.free r } := by
  have hbalanced : Balanced g.depth outer g text g' :=
    (e.balanced h).lower_base (Nat.le_refl _)
  exact ⟨hbalanced.congr rfl rfl rfl rfl, (e.takes h).depth⟩

lemma Expr.level_test {c : Expr} {l : Label} (h : (c.lowerTest arena l).Yields g text g' u)
    (hl : l ∈ outer) : Level outer g text g' := by
  obtain ⟨t, g₁, r, hc, rfl, rfl⟩ := Expr.yields_test h
  have hone : Level outer { g₁ with bank := g₁.bank.free r } [.instr (.compareOne r)] _ :=
    .still (by simp)
  have hjump : Level outer { g₁ with bank := g₁.bank.free r } [.instr (.jumpIf .ne l)] _ :=
    ⟨.jump rfl rfl rfl hl rfl, rfl⟩
  exact (Expr.level hc).append (hone.append hjump)

lemma Expr.level_dropped {e : Expr} (h : (e.lowerDropped arena).Yields g text g' u) :
    Level outer g text g' := by
  obtain ⟨g₁, r, he, rfl⟩ := Expr.yields_dropped h
  exact Expr.level he

lemma Expr.level_step {e : Option Expr} (h : (Expr.lowerStep arena e).Yields g text g' u) :
    Level outer g text g' := by
  cases e with
  | none =>
    obtain ⟨rfl, rfl, -⟩ := Gen.yields_pure.mp h
    exact .nil outer _
  | some e => exact Expr.level_dropped h

lemma Expr.level_returned {e : Option Expr} (h : (Expr.lowerReturned arena e).Yields g text g' u) :
    Level outer g text g' := by
  cases e with
  | none =>
    obtain ⟨rfl, rfl⟩ := Gen.yields_instr.mp h
    exact .still (by simp)
  | some e =>
    obtain ⟨t, g₁, r, he, rfl, rfl⟩ := Expr.yields_returned h
    exact (Expr.level he).append
      (.still (by simp))

lemma Var.level {v : Var} (h : (v.lower arena).Yields g text g' u) : Level outer g text g' := by
  cases hv : v.value with
  | none =>
    obtain ⟨rfl, rfl⟩ := Var.yields_none hv h
    exact .nil outer _
  | some e =>
    obtain ⟨t, g₁, r, o, he, -, rfl, rfl⟩ := Var.yields_some hv h
    exact (Expr.level he).append
      (.still (by simp))

lemma Var.level_all : (vs : List Var) → ∀ {g g' : GenState} {text : List Line} {u : Unit},
    (Var.lowerAll arena vs).Yields g text g' u → Level outer g text g'
  | [], _, _, _, _, h => by
    obtain ⟨rfl, rfl, -⟩ := Gen.yields_pure.mp h
    exact .nil outer _
  | v :: rest, _, _, _, _, h => by
    obtain ⟨_, _, _, _, hv, hrest, rfl⟩ := Gen.yields_bind.mp h
    exact (Var.level hv).append (Var.level_all rest hrest)

lemma Decl.level {d : Decl} (h : (d.lower arena).Yields g text g' u) : Level outer g text g' := by
  cases d with
  | globalVar v | localVar v => exact Var.level h
  | function f =>
    obtain ⟨rfl, rfl, -⟩ := Gen.yields_pure.mp h
    exact .nil outer _

lemma Decl.level_option {d : Option Decl} (h : (Decl.lowerOption arena d).Yields g text g' u) :
    Level outer g text g' := by
  cases d with
  | none =>
    obtain ⟨rfl, rfl, -⟩ := Gen.yields_pure.mp h
    exact .nil outer _
  | some d => exact Decl.level h

/-- A loop jumps to its two labels, and out of its body to the exit. -/
lemma level_labelled {c : Expr} {step : Option Expr} {body : List Stmt}
    (hbody : ∀ {g g' : GenState} {text : List Line},
      (Stmt.lowerAll arena exit body).Yields g text g' () → Level [exit] g text g')
    (h : (lowerLabelled arena exit c step body).Yields g text g' u) : Level [exit] g text g' := by
  obtain ⟨_, hloop, rfl⟩ := yields_labelled h
  obtain ⟨t₁, g₁, t₂, g₂, t₃, htest, hlist, hstep, rfl⟩ := yields_loop hloop
  have hinner : Level [⟨g.labels + 1⟩, ⟨g.labels⟩, exit] { g with labels := g.labels + 2 }
      (t₁ ++ (t₂ ++ (t₃ ++ [.instr (.jump ⟨g.labels⟩)]))) g' :=
    (Expr.level_test htest (by simp)).append (((hbody hlist).weaken (by simp)).append
      ((Expr.level_step hstep).append (.jump (by simp))))
  have hbottom : Level [⟨g.labels⟩, exit] { g with labels := g.labels + 1 } _ g' :=
    Level.place (k := { g with labels := g.labels + 2 }) (u := []) (by simpa using hinner) rfl rfl
      hinner.height_eq
  simpa using Level.place (k := { g with labels := g.labels + 1 }) (t := []) hbottom rfl rfl
    height_nil

/-- A branch jumps to the label behind it, and at its end to that of the chain. -/
lemma level_skip {g₁ g₂ : GenState} {t₁ t₂ t₃ : List Line}
    (htest : Level [⟨g.labels⟩] { g with labels := g.labels + 1 } t₁ g₁)
    (hbody : Level [exit] g₁ t₂ g₂) (hnext : Level [stop, exit] g₂ t₃ g') :
    Level [stop, exit] g (t₁ ++ (t₂ ++ .instr (.jump stop) :: .label ⟨g.labels⟩ :: t₃)) g' := by
  have hbefore : Level [⟨g.labels⟩, stop, exit] { g with labels := g.labels + 1 }
      (t₁ ++ (t₂ ++ [.instr (.jump stop)])) g₂ :=
    (htest.weaken (by simp)).append ((hbody.weaken (by simp)).append (.jump (by simp)))
  have hall := hbefore.append (hnext.weaken (List.subset_cons_self _ _))
  simpa using hall.place rfl rfl hbefore.height_eq

mutual

/-- The code of a statement is level, and leaves only for the exit. -/
theorem Stmt.level : (s : Stmt) → ∀ {g g' : GenState} {text : List Line} {u : Unit},
    (s.lower arena exit).Yields g text g' u → Level [exit] g text g'
  | .expr _, _, _, _, _, h => Expr.level_dropped h
  | .decl _, _, _, _, _, h => Decl.level h
  | .ret _, _, _, _, _, h => by
    obtain ⟨t, hvalue, rfl⟩ := Stmt.yields_ret h
    exact (Expr.level_returned hvalue).append (.jump (by simp))
  | .cond b, g, _, _, _, h => by
    obtain ⟨t, hb, rfl⟩ := Stmt.yields_cond h
    have hchain := b.level hb
    exact Level.place (k := { g with labels := g.labels + 1 }) (u := []) (by simpa using hchain)
      rfl rfl hchain.height_eq
  | .whileLoop c body, _, _, _, _, h => by
    rw [Stmt.lower_while] at h
    exact level_labelled (Stmt.levelAll body) h
  | .forLoop start c step body, _, _, _, _, h => by
    rw [Stmt.lower_for] at h
    obtain ⟨_, _, _, _, hstart, hloop, rfl⟩ := Gen.yields_bind.mp h
    exact (Decl.level_option hstart).append (level_labelled (Stmt.levelAll body) hloop)
termination_by structural s => s

theorem Stmt.levelAll : (ss : List Stmt) → ∀ {g g' : GenState} {text : List Line} {u : Unit},
    (Stmt.lowerAll arena exit ss).Yields g text g' u → Level [exit] g text g'
  | [], _, _, _, _, h => by
    obtain ⟨rfl, rfl, -⟩ := Gen.yields_pure.mp h
    exact .nil _ _
  | s :: rest, _, _, _, _, h => by
    obtain ⟨_, _, _, _, hs, hrest, rfl⟩ := Gen.yields_bind.mp h
    exact (s.level hs).append (Stmt.levelAll rest hrest)
termination_by structural ss => ss

theorem Branch.level : (b : Branch) → ∀ {stop : Label} {g g' : GenState} {text : List Line}
    {u : Unit}, (b.lower arena exit stop).Yields g text g' u → Level [stop, exit] g text g'
  | ⟨c, body, .done⟩, stop, _, _, _, _, h => by
    obtain ⟨t₁, g₁, t₂, htest, hbody, rfl⟩ := Branch.yields_done h
    have hlevel : Level [stop, exit] g₁ t₂ _ := (Stmt.levelAll body hbody).weaken (by simp)
    exact (Expr.level_test htest (by simp)).append (hlevel.append (.jump (by simp)))
  | ⟨c, body, .elseIf next⟩, _, _, _, _, _, h => by
    obtain ⟨t₁, g₁, t₂, g₂, t₃, htest, hbody, hnext, rfl⟩ := Branch.yields_next h nofun
    exact level_skip (Expr.level_test htest (by simp)) (Stmt.levelAll body hbody) (next.level hnext)
  | ⟨c, body, .otherwise last⟩, _, _, _, _, _, h => by
    obtain ⟨t₁, g₁, t₂, g₂, t₃, htest, hbody, hrest, rfl⟩ := Branch.yields_next h nofun
    obtain ⟨_, _, _, _, hlast, hjump, rfl⟩ := Gen.yields_bind.mp hrest
    obtain ⟨rfl, rfl⟩ := Gen.yields_instr.mp hjump
    exact level_skip (Expr.level_test htest (by simp)) (Stmt.levelAll body hbody)
      (((Stmt.levelAll last hlast).weaken (by simp)).append (.jump (by simp)))
termination_by structural b => b

end

end Statements

end TreeCompiler

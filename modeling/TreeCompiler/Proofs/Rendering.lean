import TreeCompiler.Proofs.Annotations

/-!
The text of an expression tells which expression it is.

Operations are written in parentheses but assignments are not, an offset of 0 is not written at all,
and a number may have the sign that is also an operator. All the same a text can be read in only one
way. It begins with a word, which is a number, a truth value or a name, and which is empty only in
front of the parenthesis of an operation. Behind a name may stand an offset. What comes next tells a
call and an assignment from a plain use, since nothing that can follow an expression looks like the
rest of one.
-/

namespace TreeCompiler

/-! ### Words -/

/-- The characters that end a word. -/
def delimiters : List Char := [' ', '(', ')', '[', ']', ',']

/-- Nothing in the text ends a word. -/
def Plain (w : List Char) : Prop := ∀ c ∈ w, c ∉ delimiters

/-- A word in front of the text ends there. -/
def Delimited (l : List Char) : Prop := ∀ c ∈ l.head?, c ∈ delimiters

lemma delimited_cons {c : Char} (hc : c ∈ delimiters) (l : List Char) : Delimited (c :: l) :=
  fun _ hd => Option.some.inj hd ▸ hc

/-- A class of characters that has no delimiter in it. -/
lemma not_mem_delimiters {p : Char → Bool} (hp : delimiters.all (!p ·) = true) {c : Char}
    (h : p c = true) : c ∉ delimiters := by
  intro hc
  have := List.all_eq_true.mp hp c hc
  simp [h] at this

lemma takeWhile_word {w l : List Char} (hw : Plain w) (hl : Delimited l) :
    (w ++ l).takeWhile (· ∉ delimiters) = w := by
  rw [List.takeWhile_append_of_pos fun c hc => decide_eq_true (hw c hc)]
  cases l with
  | nil => simp
  | cons c l =>
    have hc : c ∈ delimiters := hl c rfl
    simp [hc]

/-- **Words**: a text has only one first word. -/
lemma word_append_inj {w w' l l' : List Char} (hw : Plain w) (hw' : Plain w') (hl : Delimited l)
    (hl' : Delimited l') (h : w ++ l = w' ++ l') : w = w' ∧ l = l' := by
  have hword : w = w' := by rw [← takeWhile_word hw hl, h, takeWhile_word hw' hl']
  subst hword
  exact ⟨rfl, List.append_cancel_left h⟩

/-! ### Names and numbers -/

/-- The letters. Which characters beyond ASCII are letters is left open: all of them will do. -/
def isLetter (c : Char) : Bool := c.isAlpha || 128 ≤ c.toNat

/-- The characters that a name may begin with. -/
def isInitial (c : Char) : Bool := isLetter c || c == '_'

/-- The characters of a name behind the first one. -/
def isNameChar (c : Char) : Bool := isInitial c || c.isDigit

/-- The characters of numbers. -/
def isNumeral (c : Char) : Bool := c.isDigit || c == '-'

/-- The name is a letter or an underscore, followed by letters, digits and underscores, and it is
not a truth value. -/
def isLexical (x : String) : Bool :=
  match x.toList with
  | [] => false
  | c :: cs => isInitial c && cs.all isNameChar && x != "true" && x != "false"

lemma isLexical_iff {x : String} : isLexical x = true ↔ (∃ c cs, x.toList = c :: cs ∧
    isInitial c = true ∧ ∀ d ∈ cs, isNameChar d = true) ∧ x ≠ "true" ∧ x ≠ "false" := by
  rw [isLexical]
  cases x.toList <;> simp [and_assoc]

lemma toNat_le_of_isNumeral {c : Char} (h : isNumeral c = true) : c.toNat ≤ 57 := by
  rcases Bool.or_eq_true_iff.mp h with hdigit | hsign
  · exact (Char.isDigit_iff_toNat.mp hdigit).2
  · rw [beq_iff_eq.mp hsign]
    decide

lemma le_toNat_of_isAlpha {c : Char} (h : c.isAlpha = true) : 65 ≤ c.toNat := by
  have hcode : c.toNat = c.val.toNat := rfl
  rcases Bool.or_eq_true_iff.mp h with hupper | hlower
  · obtain ⟨hfirst, -⟩ := of_decide_eq_true hupper
    exact hcode ▸ UInt32.le_iff_toNat_le.mp hfirst
  · obtain ⟨hfirst, -⟩ := Bool.and_eq_true_iff.mp hlower
    have ha : 'a'.val.toNat ≤ c.val.toNat := UInt32.le_iff_toNat_le.mp (of_decide_eq_true hfirst)
    exact hcode ▸ Nat.le_trans (by decide) ha

lemma le_toNat_of_isInitial {c : Char} (h : isInitial c = true) : 65 ≤ c.toNat := by
  rcases Bool.or_eq_true_iff.mp h with hletter | hunderscore
  · rcases Bool.or_eq_true_iff.mp hletter with hascii | hbeyond
    · exact le_toNat_of_isAlpha hascii
    · exact Nat.le_trans (by decide) (of_decide_eq_true hbeyond)
  · rw [beq_iff_eq.mp hunderscore]
    decide

/-- No name begins like a number. -/
lemma isNumeral_eq_false {c : Char} (h : isInitial c = true) : isNumeral c = false := by
  rw [Bool.eq_false_iff]
  intro hnumeral
  have := toNat_le_of_isNumeral hnumeral
  have := le_toNat_of_isInitial h
  omega

lemma plain_of_isLexical {x : String} (h : isLexical x = true) : Plain x.toList := by
  obtain ⟨⟨c, cs, hx, hc, hcs⟩, -, -⟩ := isLexical_iff.mp h
  rw [hx]
  intro d hd
  rcases List.mem_cons.mp hd with rfl | hd
  · exact not_mem_delimiters (p := isInitial) (by decide) hc
  · exact not_mem_delimiters (p := isNameChar) (by decide) (hcs d hd)

lemma plain_toDigits (n : ℕ) : Plain (Nat.toDigits 10 n) := by
  intro c hc
  have hdigit : c.isDigit = true := Nat.isDigit_of_mem_toDigits (by decide) (by decide) hc
  exact not_mem_delimiters (p := Char.isDigit) (by decide) hdigit

/-- A number is written with its digits, behind a sign if it is negative. -/
lemma toList_repr (v : ℤ) :
    v.repr.toList = (if 0 ≤ v then [] else ['-']) ++ Nat.toDigits 10 v.natAbs := by
  have hdigits : ∀ n : ℕ, n.repr.toList = Nat.toDigits 10 n := fun n => by
    rw [Nat.repr_eq_ofList_toDigits, String.toList_ofList]
  rw [Int.repr_eq_if]
  split
  · next hv =>
    rw [hdigits, List.nil_append]
    congr 1
    omega
  · next hv =>
    rw [String.toList_append, hdigits]
    congr 2
    omega

lemma isNumeral_of_mem_repr {v : ℤ} {c : Char} (h : c ∈ v.repr.toList) : isNumeral c = true := by
  rw [toList_repr, List.mem_append] at h
  rcases h with hsign | hdigit
  · split at hsign
    · exact absurd hsign List.not_mem_nil
    · rw [List.mem_singleton.mp hsign]
      rfl
  · rw [isNumeral, Nat.isDigit_of_mem_toDigits (by decide) (by decide) hdigit, Bool.true_or]

lemma repr_ne_nil (v : ℤ) : v.repr.toList ≠ [] := by
  rw [toList_repr]
  exact List.append_ne_nil_of_right_ne_nil _ Nat.toDigits_ne_nil

lemma toDigits_inj {m n : ℕ} (h : Nat.toDigits 10 m = Nat.toDigits 10 n) : m = n := by
  have hread := congrArg (Nat.ofDigitChars 10 · 0) h
  simpa only [Nat.ofDigitChars_ten_toDigits] using hread

/-- Numbers with the same text are the same: a sign is not a digit, and the digits tell the rest. -/
lemma eq_of_toList_repr {v w : ℤ} (h : v.repr.toList = w.repr.toList) : v = w := by
  have hsign : ∀ m n : ℕ, Nat.toDigits 10 m ≠ '-' :: Nat.toDigits 10 n := fun m n heq => by
    have hmem : '-' ∈ Nat.toDigits 10 m := heq ▸ List.mem_cons_self
    exact absurd (Nat.isDigit_of_mem_toDigits (by decide) (by decide) hmem) (by decide)
  rw [toList_repr, toList_repr] at h
  split at h <;> split at h
  · have := toDigits_inj h
    omega
  · exact absurd h (hsign _ _)
  · exact absurd h.symm (hsign _ _)
  · have := toDigits_inj (List.cons.inj h).2
    omega

/-! ### The parts of a text -/

/-- How an offset is written. -/
def offsetText (n : ℕ) : List Char := if n = 0 then [] else '[' :: (Nat.toDigits 10 n ++ [']'])

lemma Ident.toList_render (x : Ident) : x.render.toList = x.name.toList ++ offsetText x.offset := by
  rw [render, offsetText]
  split
  · simp
  · simp

lemma Ident.bare_eq {x x' : Ident} (hname : x.name.toList = x'.name.toList)
    (hoffset : x.offset = x'.offset) : x.bare = x'.bare := by
  rw [bare, bare, String.toList_inj.mp hname, hoffset]

namespace Expr

/-- The word that the text begins with. -/
def word : Expr → List Char
  | int v => v.toInt.repr.toList
  | bool true => "true".toList
  | bool false => "false".toList
  | name x | assign x _ | call x _ => x.name.toList
  | binary .. => []

/-- The offset behind the word. -/
def wordOffset : Expr → ℕ
  | name x | assign x _ | call x _ => x.offset
  | int _ | bool _ | binary .. => 0

/-- What comes next, where `rest` follows the expression. -/
def sequel (rest : List Char) : Expr → List Char
  | int _ | bool _ | name _ => rest
  | assign _ e => ' ' :: '=' :: ' ' :: (e.render.toList ++ rest)
  | call _ args => '(' :: ((renderArgs args).toList ++ ')' :: rest)
  | binary op l r => '(' :: (l.render.toList ++
      ' ' :: (op.text.toList ++ ' ' :: (r.render.toList ++ ')' :: rest)))

lemma toList_render_append (e : Expr) (rest : List Char) :
    e.render.toList ++ rest = e.word ++ (offsetText e.wordOffset ++ e.sequel rest) := by
  cases e with
  | int v => rfl
  | bool b => cases b <;> rfl
  | name x => simp [render, word, wordOffset, sequel, x.toList_render]
  | assign x e => simp [render, word, wordOffset, sequel, x.toList_render]
  | call f args => simp [render, word, wordOffset, sequel, f.toList_render]
  | binary op l r => simp [render, word, wordOffset, sequel, offsetText]

end Expr

/-! ### What follows an expression -/

/-- The texts that can follow an expression: nothing, the end of a group, another argument, or an
operator. -/
inductive Follows : List Char → Prop
  | nothing : Follows []
  | close (l : List Char) : Follows (')' :: l)
  | comma (l : List Char) : Follows (',' :: l)
  | operator (op : BinOp) (l : List Char) : Follows (' ' :: (op.text.toList ++ ' ' :: l))

lemma BinOp.plain_text (op : BinOp) : Plain op.text.toList := by
  rcases op with (_ | _ | _ | _) | (_ | _ | _ | _ | _ | _) <;> simp [text, Plain, delimiters]

/-- The operators in a row. -/
def BinOp.all : List BinOp :=
  [.arith .add, .arith .sub, .arith .mul, .arith .div, .compare .eq, .compare .ne, .compare .gt,
    .compare .lt, .compare .ge, .compare .le]

lemma BinOp.find?_text (op : BinOp) : BinOp.all.find? (·.text == op.text) = some op := by
  rcases op with (_ | _ | _ | _) | (_ | _ | _ | _ | _ | _) <;> decide

lemma BinOp.text_injective {op op' : BinOp} (h : op.text = op'.text) : op = op' := by
  have hfind := op.find?_text
  rw [h, op'.find?_text] at hfind
  exact (Option.some.inj hfind).symm

/-- No sequel goes on with an offset. -/
lemma Expr.sequel_head {e : Expr} {rest : List Char} (hrest : Follows rest) {c : Char}
    (hc : c ∈ (e.sequel rest).head?) : c ∈ delimiters ∧ c ≠ '[' := by
  have hfollows : ∀ c ∈ rest.head?, c ∈ delimiters ∧ c ≠ '[' := by
    cases hrest <;> simp [delimiters]
  cases e with
  | int _ | bool _ | name _ => exact hfollows c hc
  | assign _ _ | call _ _ | binary _ _ _ =>
    obtain rfl := Option.some.inj hc
    decide

lemma delimited_offsetText_append {l : List Char} (n : ℕ) (h : Delimited l) :
    Delimited (offsetText n ++ l) := by
  rw [offsetText]
  split
  · exact h
  · exact delimited_cons (by decide) _

/-- **Offsets**: one that is not written is 0. -/
lemma offsetText_append_inj {m n : ℕ} {l l' : List Char} (hl : '[' ∉ l.head?)
    (hl' : '[' ∉ l'.head?) (h : offsetText m ++ l = offsetText n ++ l') :
    m = n ∧ l = l' := by
  rw [offsetText, offsetText] at h
  split at h <;> split at h
  · next hm hn => exact ⟨hm.trans hn.symm, h⟩
  · rw [List.nil_append] at h
    exact absurd (by rw [h]; rfl) hl
  · rw [List.nil_append] at h
    exact absurd (by rw [← h]; rfl) hl'
  · have hbracket : ∀ l : List Char, Delimited (']' :: l) := delimited_cons (by decide)
    simp only [List.cons_append, List.append_assoc, List.nil_append, List.cons.injEq, true_and] at h
    obtain ⟨hdigits, h⟩ := word_append_inj (plain_toDigits m) (plain_toDigits n) (hbracket l)
      (hbracket l') h
    exact ⟨toDigits_inj hdigits, (List.cons.inj h).2⟩

/-! ### Forms -/

mutual

/-- All names in the expression are lexical. -/
def Expr.Lexical : Expr → Prop
  | .int _ | .bool _ => True
  | .name x => isLexical x.name = true
  | .binary _ l r => l.Lexical ∧ r.Lexical
  | .assign x e => isLexical x.name = true ∧ e.Lexical
  | .call f args => isLexical f.name = true ∧ Expr.LexicalAll args
termination_by structural e => e

def Expr.LexicalAll : List Expr → Prop
  | [] => True
  | e :: rest => e.Lexical ∧ Expr.LexicalAll rest
termination_by structural es => es

end

/-- The forms of expressions. -/
inductive Form where
  | number
  | truth
  | use
  | operation
  | assignment
  | call
deriving DecidableEq

/-- The form of what begins with a name, from what comes behind it. -/
def Form.ofSequel : List Char → Form
  | '(' :: _ => call
  | ' ' :: '=' :: ' ' :: _ => assignment
  | _ => use

/-- The form that a first word and its sequel look like. -/
def Form.of (word sequel : List Char) : Form :=
  match word with
  | [] => operation
  | c :: _ =>
    if isNumeral c then number
    else if word = "true".toList ∨ word = "false".toList then truth
    else ofSequel sequel

/-- The name of an identifier is taken for nothing else. -/
lemma Form.of_isLexical {x : String} (h : isLexical x = true) (sequel : List Char) :
    Form.of x.toList sequel = ofSequel sequel := by
  obtain ⟨⟨c, cs, hx, hc, -⟩, htrue, hfalse⟩ := isLexical_iff.mp h
  have htruth : ¬ (x.toList = "true".toList ∨ x.toList = "false".toList) := by
    rw [String.toList_inj, String.toList_inj]
    exact not_or.mpr ⟨htrue, hfalse⟩
  rw [hx] at htruth ⊢
  rw [of, if_neg (by simp [isNumeral_eq_false hc]), if_neg htruth]

/-- What can follow an expression is not taken for the rest of one. -/
lemma Follows.ofSequel_eq {rest : List Char} (h : Follows rest) : Form.ofSequel rest = .use := by
  cases h with
  | nothing | close _ | comma _ => rfl
  | operator op l => rcases op with (_ | _ | _ | _) | (_ | _ | _ | _ | _ | _) <;> rfl

namespace Expr

def form : Expr → Form
  | int _ => .number
  | bool _ => .truth
  | name _ => .use
  | binary .. => .operation
  | assign .. => .assignment
  | call .. => .call

variable {e e' : Expr} {rest rest' : List Char}

/-- **Forms**: the form of an expression can be told from its first word and what comes next. -/
lemma form_of_parts (h : e.Lexical) (hrest : Follows rest) :
    Form.of e.word (e.sequel rest) = e.form := by
  cases e with
  | int v =>
    cases hv : v.toInt.repr.toList with
    | nil => exact absurd hv (repr_ne_nil v.toInt)
    | cons c cs =>
      have hc : isNumeral c = true := isNumeral_of_mem_repr (v := v.toInt) (by simp [hv])
      rw [word, hv, form]
      exact if_pos hc
  | bool b => cases b <;> rfl
  | name x => exact (Form.of_isLexical h _).trans hrest.ofSequel_eq
  | binary op l r => rfl
  | assign x e => exact Form.of_isLexical h.1 _
  | call f args => exact Form.of_isLexical h.1 _

lemma word_plain (h : e.Lexical) : Plain e.word := by
  cases e with
  | int v => exact fun c hc =>
      not_mem_delimiters (p := isNumeral) (by decide) (isNumeral_of_mem_repr hc)
  | bool b => cases b <;> simp [word, Plain, delimiters]
  | name x => exact plain_of_isLexical h
  | assign x e => exact plain_of_isLexical h.1
  | call f args => exact plain_of_isLexical h.1
  | binary op l r => exact nofun

/-- Two expressions that begin alike. -/
structure SameParts (e e' : Expr) (rest rest' : List Char) : Prop where
  word : e.word = e'.word
  offset : e.wordOffset = e'.wordOffset
  sequel : e.sequel rest = e'.sequel rest'
  form : e.form = e'.form

/-- **Parts**: texts that are equal have the same parts. -/
lemma sameParts (h : e.Lexical) (h' : e'.Lexical) (hrest : Follows rest) (hrest' : Follows rest')
    (heq : e.render.toList ++ rest = e'.render.toList ++ rest') : e.SameParts e' rest rest' := by
  have hhead : ∀ c ∈ (e.sequel rest).head?, c ∈ delimiters ∧ c ≠ '[' := fun _ => sequel_head hrest
  have hhead' : ∀ c ∈ (e'.sequel rest').head?, c ∈ delimiters ∧ c ≠ '[' :=
    fun _ => sequel_head hrest'
  rw [toList_render_append, toList_render_append] at heq
  obtain ⟨hword, heq⟩ := word_append_inj (word_plain h) (word_plain h')
    (delimited_offsetText_append _ fun c hc => (hhead c hc).1)
    (delimited_offsetText_append _ fun c hc => (hhead' c hc).1) heq
  obtain ⟨hoffset, hsequel⟩ := offsetText_append_inj (fun hc => (hhead _ hc).2 rfl)
    (fun hc => (hhead' _ hc).2 rfl) heq
  refine ⟨hword, hoffset, hsequel, ?_⟩
  rw [← form_of_parts h hrest, ← form_of_parts h' hrest', hword, hsequel]

/-! ### Arguments -/

lemma follows_renderMore (es : List Expr) (l : List Char) :
    Follows ((renderMore es).toList ++ ')' :: l) := by
  cases es with
  | nil => exact .close l
  | cons e es =>
    have htext : (renderMore (e :: es)).toList ++ ')' :: l =
        ',' :: ' ' :: (e.render.toList ++ ((renderMore es).toList ++ ')' :: l)) := by
      simp [renderMore]
    rw [htext]
    exact .comma _

/-- No expression begins with what closes the list of arguments. -/
lemma render_ne_close {e : Expr} {l l' : List Char} (h : e.Lexical) :
    e.render.toList ++ l ≠ ')' :: l' := by
  intro heq
  rw [toList_render_append] at heq
  have hplain := word_plain h
  cases hword : e.word with
  | nil =>
    cases e with
    | int v => exact repr_ne_nil v.toInt hword
    | bool b => cases b <;> exact nomatch hword
    | binary op l r =>
      rw [hword] at heq
      exact nomatch heq
    | name x =>
      obtain ⟨⟨c, cs, hx, -⟩, -⟩ := isLexical_iff.mp h
      exact nomatch hx.symm.trans hword
    | assign x _ | call x _ =>
      obtain ⟨⟨c, cs, hx, -⟩, -⟩ := isLexical_iff.mp h.1
      exact nomatch hx.symm.trans hword
  | cons c cs =>
    rw [hword] at heq hplain
    obtain rfl := (List.cons.inj heq).1
    exact hplain ')' (List.mem_cons_self ..) (by decide)

/-- The first argument has no comma in front of it. If it gets one, all arguments are alike. -/
lemma renderMore_of_renderArgs {es es' : List Expr} {l l' : List Char} (h : LexicalAll es)
    (h' : LexicalAll es')
    (heq : (renderArgs es).toList ++ ')' :: l = (renderArgs es').toList ++ ')' :: l') :
    (renderMore es).toList ++ ')' :: l = (renderMore es').toList ++ ')' :: l' := by
  cases es with
  | nil =>
    cases es' with
    | nil => exact heq
    | cons e' es' =>
      rw [renderArgs, renderArgs, String.toList_append, List.append_assoc] at heq
      exact absurd heq.symm (render_ne_close h'.1)
  | cons e es =>
    cases es' with
    | nil =>
      rw [renderArgs, renderArgs, String.toList_append, List.append_assoc] at heq
      exact absurd heq (render_ne_close h.1)
    | cons e' es' =>
      rw [renderArgs, renderArgs] at heq
      simp only [renderMore, String.toList_append, List.append_assoc] at heq ⊢
      rw [heq]

/-! ### One reading -/

mutual

/-- **One reading**: if two texts are equal, then they begin with the same expression. -/
lemma bare_eq_of_render : (e : Expr) → e.Lexical → ∀ {e' : Expr}, e'.Lexical →
    ∀ {rest rest' : List Char}, Follows rest → Follows rest' →
    e.render.toList ++ rest = e'.render.toList ++ rest' →
    e.image .bare = e'.image .bare ∧ rest = rest'
  | .int v, h, e', h', rest, rest', hrest, hrest', heq => by
    obtain ⟨hword, -, hsequel, hform⟩ := sameParts h h' hrest hrest' heq
    cases e' with
    | int v' =>
      have hv : v = v' := Int64.toInt_inj.mp (eq_of_toList_repr hword)
      exact ⟨by rw [hv], hsequel⟩
    | _ => exact nomatch hform
  | .bool b, h, e', h', rest, rest', hrest, hrest', heq => by
    obtain ⟨hword, -, hsequel, hform⟩ := sameParts h h' hrest hrest' heq
    cases e' with
    | bool b' =>
      have hb : b = b' := by cases b <;> cases b' <;> first | rfl | exact nomatch hword
      exact ⟨by rw [hb], hsequel⟩
    | _ => exact nomatch hform
  | .name x, h, e', h', rest, rest', hrest, hrest', heq => by
    obtain ⟨hword, hoffset, hsequel, hform⟩ := sameParts h h' hrest hrest' heq
    cases e' with
    | name x' =>
      have hname : LeafMap.bare.used x = LeafMap.bare.used x' := Ident.bare_eq hword hoffset
      exact ⟨by rw [image, image, hname], hsequel⟩
    | _ => exact nomatch hform
  | .binary op l r, h, e', h', rest, rest', hrest, hrest', heq => by
    obtain ⟨-, -, hsequel, hform⟩ := sameParts h h' hrest hrest' heq
    cases e' with
    | binary op' l' r' =>
      obtain ⟨hl, htail⟩ := bare_eq_of_render l h.1 h'.1 (.operator op _) (.operator op' _)
        (List.cons.inj hsequel).2
      have hblank : ∀ l : List Char, Delimited (' ' :: l) := delimited_cons (by decide)
      obtain ⟨hop, htail⟩ := word_append_inj op.plain_text op'.plain_text (hblank _) (hblank _)
        (List.cons.inj htail).2
      obtain ⟨hr, htail⟩ := bare_eq_of_render r h.2 h'.2 (.close _) (.close _)
        (List.cons.inj htail).2
      refine ⟨?_, (List.cons.inj htail).2⟩
      rw [image, image, BinOp.text_injective (String.toList_inj.mp hop), hl, hr]
    | _ => exact nomatch hform
  | .assign x e, h, e', h', rest, rest', hrest, hrest', heq => by
    obtain ⟨hword, hoffset, hsequel, hform⟩ := sameParts h h' hrest hrest' heq
    cases e' with
    | assign x' e' =>
      have hvalue : e.render.toList ++ rest = e'.render.toList ++ rest' := by
        simpa [sequel] using hsequel
      obtain ⟨he, hrests⟩ := bare_eq_of_render e h.2 h'.2 hrest hrest' hvalue
      have hname : LeafMap.bare.used x = LeafMap.bare.used x' := Ident.bare_eq hword hoffset
      exact ⟨by rw [image, image, hname, he], hrests⟩
    | _ => exact nomatch hform
  | .call f args, h, e', h', rest, rest', hrest, hrest', heq => by
    obtain ⟨hword, hoffset, hsequel, hform⟩ := sameParts h h' hrest hrest' heq
    cases e' with
    | call f' args' =>
      obtain ⟨hargs, hrests⟩ := bareAll_eq_of_renderMore args h.2 h'.2
        (renderMore_of_renderArgs h.2 h'.2 (List.cons.inj hsequel).2)
      have hname : LeafMap.bare.called f = LeafMap.bare.called f' := Ident.bare_eq hword hoffset
      exact ⟨by rw [image, image, hname, hargs], hrests⟩
    | _ => exact nomatch hform
termination_by structural e => e

lemma bareAll_eq_of_renderMore : (es : List Expr) → LexicalAll es → ∀ {es' : List Expr},
    LexicalAll es' → ∀ {l l' : List Char},
    (renderMore es).toList ++ ')' :: l = (renderMore es').toList ++ ')' :: l' →
    imageAll .bare es = imageAll .bare es' ∧ l = l'
  | [], _, es', _, l, l', heq => by
    cases es' with
    | nil => exact ⟨rfl, (List.cons.inj heq).2⟩
    | cons e' es' =>
      simp [renderMore] at heq
  | e :: es, h, es', h', l, l', heq => by
    cases es' with
    | nil => simp [renderMore] at heq
    | cons e' es' =>
      have hfirst : e.render.toList ++ ((renderMore es).toList ++ ')' :: l) =
          e'.render.toList ++ ((renderMore es').toList ++ ')' :: l') := by
        simpa [renderMore] using heq
      obtain ⟨he, hmore⟩ := bare_eq_of_render e h.1 h'.1 (follows_renderMore es l)
        (follows_renderMore es' l') hfirst
      obtain ⟨hes, hl⟩ := bareAll_eq_of_renderMore es h.2 h'.2 hmore
      exact ⟨by rw [imageAll, imageAll, he, hes], hl⟩
termination_by structural es => es

end

end Expr

/-- The symbols are not written. -/
lemma Expr.render_bare (e : Expr) : e.bare.render = e.render :=
  e.render_image (m := .bare) (fun _ => rfl) fun _ => rfl

/-- **Unambiguous texts**: take two expressions whose names are lexical. Their texts are equal
exactly if the expressions are, apart from the symbols that their names stand for. -/
theorem Expr.render_eq_iff {e e' : Expr} (h : e.Lexical) (h' : e'.Lexical) :
    e.render = e'.render ↔ e.bare = e'.bare := by
  constructor
  · intro heq
    have htext : e.render.toList ++ [] = e'.render.toList ++ [] := by rw [heq]
    exact (bare_eq_of_render e h h' .nothing .nothing htext).1
  · intro heq
    rw [← e.render_bare, heq, e'.render_bare]

/-- A comparison with an assignment on its left, and an assignment of a comparison. -/
def assignedFirst : Expr :=
  .binary (.compare .eq) (.assign ⟨"x", 0, some 1⟩ (.int (-1))) (.call ⟨"f", 0, none⟩ [])

def comparedFirst : Expr :=
  .assign ⟨"x", 0, none⟩ (.binary (.compare .eq) (.int (-1)) (.call ⟨"f", 0, some 0⟩ []))

/-- They differ only in where the parenthesis stands. -/
theorem Expr.render_assignedFirst :
    assignedFirst.Lexical ∧ comparedFirst.Lexical ∧ assignedFirst.render = "(x = -1 == f())" ∧
      assignedFirst.render ≠ comparedFirst.render := by
  have hassigned : assignedFirst.Lexical := ⟨⟨by decide, trivial⟩, by decide, trivial⟩
  have hcompared : comparedFirst.Lexical := ⟨by decide, trivial, by decide, trivial⟩
  refine ⟨hassigned, hcompared, by decide, fun heq => ?_⟩
  exact nomatch (Expr.render_eq_iff hassigned hcompared).mp heq

end TreeCompiler

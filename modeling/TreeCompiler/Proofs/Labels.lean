import TreeCompiler.Proofs.Machine
import TreeCompiler.Proofs.Yields

/-!
Labels, and where jumps go.

A step places only labels that it issued itself, each at most once. So wherever its text
stands in a unit, a jump to one of its labels comes out behind that label in the same text, as
long as nothing before it has the label too.
-/

namespace TreeCompiler

/-- The text places no label twice, and only labels issued between the two states. -/
structure Fresh (g : GenState) (text : List Line) (g' : GenState) : Prop where
  le : g.labels ≤ g'.labels
  once (n : ℕ) : text.count (.label ⟨n⟩) ≤ 1
  issued {n : ℕ} : 0 < text.count (.label ⟨n⟩) → g.labels ≤ n ∧ n < g'.labels

namespace Fresh

variable {g g₁ g' : GenState} {text t u : List Line}

/-- A text without labels. -/
lemma silent (hlabels : g'.labels = g.labels) (h : ∀ l, Line.label l ∉ text) :
    Fresh g text g' := by
  refine ⟨Nat.le_of_eq hlabels.symm, fun n => ?_, fun {n} hn => absurd ?_ (h ⟨n⟩)⟩
  · rw [List.count_eq_zero.mpr (h ⟨n⟩)]
    omega
  · exact List.count_pos_iff.mp hn

lemma append (ht : Fresh g t g₁) (hu : Fresh g₁ u g') : Fresh g (t ++ u) g' := by
  refine ⟨Nat.le_trans ht.le hu.le, fun n => ?_, fun {n} hn => ?_⟩
  · have h₁ := ht.once n
    have h₂ := hu.once n
    have h₃ := @ht.issued n
    have h₄ := @hu.issued n
    rw [List.count_append]
    omega
  · have h₃ := @ht.issued n
    have h₄ := @hu.issued n
    have := ht.le
    have := hu.le
    rw [List.count_append] at hn
    omega

lemma append_silent (ht : Fresh g t g') (hu : ∀ l, Line.label l ∉ u) : Fresh g (t ++ u) g' :=
  ht.append (silent rfl hu)

lemma silent_append (ht : ∀ l, Line.label l ∉ t) (hu : Fresh g u g') : Fresh g (t ++ u) g' :=
  (silent rfl ht).append hu

/-- Only the labels of the states matter. -/
lemma congr {k k' : GenState} (h : Fresh g text g') (hk : k.labels = g.labels)
    (hk' : k'.labels = g'.labels) : Fresh k text k' :=
  ⟨by rw [hk, hk']; exact h.le, h.once, fun hn => by rw [hk, hk']; exact h.issued hn⟩

/-- A label that is issued before the text and placed in it or next to it. -/
lemma place {k : GenState} (h : Fresh k (t ++ u) g') (hk : k.labels = g.labels + 1) :
    Fresh g (t ++ .label ⟨g.labels⟩ :: u) g' := by
  have hle := h.le
  refine ⟨by omega, fun n => ?_, fun {n} hn => ?_⟩
  · have h₁ := h.once n
    have h₂ := @h.issued n
    simp only [List.count_append, List.count_cons, beq_iff_eq, Line.label.injEq,
      Label.mk.injEq] at *
    split <;> omega
  · have h₂ := @h.issued n
    simp only [List.count_append, List.count_cons, beq_iff_eq, Line.label.injEq,
      Label.mk.injEq] at *
    split at hn <;> omega

end Fresh

section Text

lemma textBehind_append {l : Label} {a b : List Line} (h : a.count (.label l) = 0) :
    textBehind l (a ++ b) = textBehind l b := by
  induction a with
  | nil => rfl
  | cons x rest ih =>
    have hx : x ≠ .label l := by
      rintro rfl
      simp at h
    rw [List.cons_append, textBehind, if_neg hx]
    exact ih (by rwa [List.count_cons_of_ne hx] at h)

namespace Host

variable (h : Host)

/-- Every jump into the text comes out behind its label there, and then goes on with `rest`. -/
def Hosts (text rest : List Line) : Prop :=
  ∀ l pre post, text = pre ++ .label l :: post → textBehind l h.unit = some (post ++ rest)

variable {h} {a b rest : List Line}

lemma Hosts.left (hab : h.Hosts (a ++ b) rest) : h.Hosts a (b ++ rest) := by
  rintro l pre post rfl
  simpa using hab l pre (post ++ b) (by simp)

lemma Hosts.right (hab : h.Hosts (a ++ b) rest) : h.Hosts b rest := by
  rintro l pre post rfl
  exact hab l (a ++ pre) post (by simp)

lemma Hosts.behind {l : Label} (hab : h.Hosts (a ++ .label l :: b) rest) :
    textBehind l h.unit = some (b ++ rest) := hab l a b rfl

/-- A text with labels of its own, in a unit that has none of them before. -/
lemma hosts_of_fresh {g g' : GenState} {before text : List Line} (hfresh : Fresh g text g')
    (hbefore : ∀ n, g.labels ≤ n → n < g'.labels → before.count (.label ⟨n⟩) = 0)
    (hunit : h.unit = before ++ (text ++ rest)) : h.Hosts text rest := by
  rintro ⟨n⟩ pre post rfl
  have honce := hfresh.once n
  simp only [List.count_append, List.count_cons_self] at honce
  obtain ⟨hlow, hhigh⟩ := hfresh.issued (n := n) (by
    rw [List.count_append, List.count_cons_self]
    omega)
  rw [hunit, textBehind_append (hbefore n hlow hhigh), List.append_assoc,
    textBehind_append (by omega), List.cons_append, textBehind, if_pos rfl]

end Host

end Text

variable {arena : Arena}

mutual

/-- An expression places labels of its own. -/
theorem Expr.fresh : (e : Expr) → ∀ {g g' : GenState} {text : List Line} {r : Scratch},
    (e.lower arena).Yields g text g' r → Fresh g text g'
  | .int _, _, _, _, _, h | .bool true, _, _, _, _, h | .bool false, _, _, _, _, h => by
    obtain ⟨bank, -, rfl, rfl⟩ := Gen.yields_constant.mp h
    exact Fresh.silent rfl (by simp)
  | .name x, _, _, _, _, h => by
    obtain ⟨_, bank, -, -, rfl, rfl⟩ := Ident.yields_load.mp h
    exact Fresh.silent rfl (by simp)
  | .assign x e, _, _, _, _, h => by
    obtain ⟨_, g₁, r, _, he, hstore, rfl⟩ := Gen.yields_bind.mp h
    obtain ⟨_, _, _, _, hx, hr, rfl⟩ := Gen.yields_bind.mp hstore
    obtain ⟨o, -, rfl, rfl⟩ := Ident.yields_store.mp hx
    obtain ⟨rfl, rfl, rfl⟩ := Gen.yields_pure.mp hr
    exact (e.fresh he).append_silent (by simp)
  | .binary op left right, _, _, _, _, h => by
    obtain ⟨_, g₁, l, _, hl, hrest, rfl⟩ := Gen.yields_bind.mp h
    obtain ⟨_, g₂, r, _, hr, hop, rfl⟩ := Gen.yields_bind.mp hrest
    refine (left.fresh hl).append ((right.fresh hr).append ?_)
    cases op with
    | arith op =>
      obtain ⟨rfl, rfl, rfl⟩ := Gen.yields_arith.mp hop
      refine Fresh.silent rfl ?_
      cases op <;> simp [Gen.arithText]
    | compare rel =>
      obtain ⟨bank, -, rfl, rfl⟩ := Gen.yields_compare.mp hop
      refine Fresh.place (k := { g₂ with labels := g₂.labels + 1 }) (t := [_, _, _, _]) (u := [])
        (Fresh.silent rfl ?_) rfl
      simp
  | .call f args, g, _, _, _, h => by
    rw [Expr.lower_call] at h
    obtain ⟨n, t, g₁, bank, -, hargs, -, rfl, rfl⟩ := Gen.yields_callWith.mp h
    have hpass := Ident.pass_cases
      (P := fun args' _ => args'.Yields _ t g₁ () → Fresh _ t g₁) f
      (Expr.fresh_printed args) (Expr.fresh_args args) hargs
    refine Fresh.congr (Fresh.silent_append (by simp) (Fresh.silent_append (by simp)
      (hpass.append_silent ?_))) rfl rfl
    split <;> simp
termination_by structural e => e

theorem Expr.fresh_args : (es : List Expr) → ∀ {g g' : GenState} {text : List Line} {u : Unit},
    (Expr.lowerArgs arena es).Yields g text g' u → Fresh g text g'
  | [], g, _, _, _, h => by
    obtain ⟨rfl, rfl, -⟩ := Gen.yields_pure.mp h
    exact Fresh.silent rfl (by simp)
  | e :: rest, g, _, _, _, h => by
    obtain ⟨_, g₁, _, _, hrest, he, rfl⟩ := Gen.yields_bind.mp h
    obtain ⟨_, g₂, r, _, hr, hpush, rfl⟩ := Gen.yields_bind.mp he
    obtain ⟨_, hfree, rfl⟩ := Gen.yields_push_bind.mp hpush
    obtain ⟨rfl, rfl⟩ := Gen.yields_free.mp hfree
    exact (Expr.fresh_args rest hrest).append
      (((e.fresh hr).append_silent (by simp)).congr rfl rfl)
termination_by structural es => es

theorem Expr.fresh_printed : (es : List Expr) →
    ∀ {g g' : GenState} {text : List Line} {u : Unit},
    (Expr.lowerPrinted arena es).Yields g text g' u → Fresh g text g'
  | [], g, _, _, _, h => by
    obtain ⟨rfl, rfl, -⟩ := Gen.yields_pure.mp h
    exact Fresh.silent rfl (by simp)
  | e :: rest, g, _, _, _, h => by
    obtain ⟨_, g₁, r, _, he, hmove, rfl⟩ := Gen.yields_bind.mp h
    obtain ⟨_, hfree, rfl⟩ := Gen.yields_instr_bind.mp hmove
    have hrest := Expr.fresh_printed rest (Gen.yields_free_bind.mp hfree)
    exact (e.fresh he).append
      ((hrest.silent_append (t := [_]) (by simp)).congr rfl rfl)
termination_by structural es => es

end

end TreeCompiler

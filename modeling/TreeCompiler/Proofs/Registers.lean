import TreeCompiler.Proofs.Yields

/-!
Which registers an expression takes.

An expression that has code leaves its value in the first free register, gives back every
other one it took, and leaves as many words on the stack as it found. How many registers are
in use at once on the way depends on its shape and on how many were in use before: that is its
peak. A call counts its arguments from an empty bank, since all registers are saved first.
-/

namespace TreeCompiler

namespace Bank

variable {b c : Bank} {r : Scratch}

/-- How many registers are in use. -/
def count (b : Bank) : ℕ := b.live.length

/-- The first free register. -/
def next? (b : Bank) : Option Scratch := Scratch.all.find? (!b.isLive ·)

lemma alloc?_eq_some_iff : b.alloc? = some (r, c) ↔ b.next? = some r ∧ c = b.claim r := by
  rw [alloc?, ← next?, Option.map_eq_some_iff]
  constructor
  · rintro ⟨_, hnext, e⟩
    obtain ⟨rfl, rfl⟩ := Prod.mk.inj e
    exact ⟨hnext, rfl⟩
  · rintro ⟨hnext, rfl⟩
    exact ⟨r, hnext, rfl⟩

lemma isLive_of_next? (h : b.next? = some r) : b.isLive r = false := by
  simpa using List.find?_some h

lemma next?_congr (h : b.isLive = c.isLive) : b.next? = c.next? := by rw [next?, next?, h]

lemma count_congr (h : b.isLive = c.isLive) : b.count = c.count := by
  rw [count, count, live, live, h]

lemma count_le (b : Bank) : b.count ≤ 7 := List.length_filter_le _ _

lemma next?_eq_none_iff : b.next? = none ↔ b.count = 7 := by
  rw [next?, count, live, show (7 : ℕ) = Scratch.all.length from rfl,
    List.length_filter_eq_length_iff]
  simp

/-- The registers in use are the marks that are set. -/
lemma count_used (b : Bank) : b.used.count true = b.count := by
  obtain ⟨used, _⟩ := b
  have hlist : used.toList = Scratch.all.map fun r => used[r.index] := by
    have hmap : Scratch.all.map (fun r => used[r.index]) =
      (Scratch.all.map Scratch.index).map fun i => used[i] := List.map_map.symm
    rw [hmap, show Scratch.all.map Scratch.index = List.finRange 7 by decide]
    apply List.ext_getElem
    · simp
    · intro i _ _
      simp
  rw [← Vector.count_toList, hlist, List.count_eq_countP, List.countP_map,
    List.countP_eq_length_filter]
  rw [count, live]
  congr 1
  apply List.filter_congr
  intro r _
  simp [isLive]

lemma highWater_claim (b : Bank) (r : Scratch) :
    (b.claim r).highWater = max b.highWater (b.claim r).count := by
  rw [← count_used]
  rfl

lemma live_nodup (b : Bank) : b.live.Nodup := Scratch.nodup_all.filter _

lemma count_claim (h : b.isLive r = false) : (b.claim r).count = b.count + 1 := by
  have hperm : (b.claim r).live.Perm (r :: b.live) := by
    rw [List.perm_ext_iff_of_nodup (live_nodup _)
      (List.nodup_cons.mpr ⟨by simp [mem_live, h], live_nodup b⟩)]
    intro q
    rw [mem_live, isLive_claim, List.mem_cons, mem_live]
    simp [eq_comm (a := r)]
  exact hperm.length_eq

lemma count_le_claim (b : Bank) (r : Scratch) : b.count ≤ (b.claim r).count := by
  cases h : b.isLive r with
  | false => simp [count_claim h]
  | true =>
    have hsame : b.isLive = (b.claim r).isLive := by
      funext q
      rw [isLive_claim]
      by_cases hq : r = q
      · simp [← hq, h]
      · simp [hq]
    exact Nat.le_of_eq (count_congr hsame)

lemma count_eq_zero_iff : b.count = 0 ↔ ∀ q, b.isLive q = false := by
  simp [count, live, Scratch.mem_all]

end Bank

namespace Gen

@[simp] lemma isLive_saved (b : Bank) (rs : List Scratch) (q : Scratch) :
    (saved b rs).isLive q = (b.isLive q && !decide (q ∈ rs)) := by
  induction rs generalizing b with
  | nil => simp [saved]
  | cons r rest ih =>
    have h : saved b (r :: rest) = saved (b.free r) rest := rfl
    rw [h, ih]
    simp [eq_comm (a := q), Bool.and_assoc, Bool.and_comm, Bool.and_left_comm]

@[simp] lemma highWater_saved (b : Bank) (rs : List Scratch) :
    (saved b rs).highWater = b.highWater := by
  induction rs generalizing b with
  | nil => rfl
  | cons r rest ih => exact ih (b.free r)

/-- Saving all registers leaves the whole bank. -/
lemma count_saved_live (b : Bank) : (saved b b.live).count = 0 := by
  rw [Bank.count_eq_zero_iff]
  intro q
  simp [Bank.mem_live]

@[simp] lemma isLive_restored (b : Bank) (rs : List Scratch) (q : Scratch) :
    (restored b rs).isLive q = (decide (q ∈ rs) || b.isLive q) := by
  induction rs with
  | nil => simp [restored]
  | cons r rest ih =>
    have h : restored b (r :: rest) = (restored b rest).claim r := rfl
    rw [h, Bank.isLive_claim, ih]
    simp [eq_comm (a := q), Bool.or_assoc]

lemma highWater_restored {b : Bank} (hb : b.count = 0) (rs : List Scratch) :
    (restored b rs).highWater = max b.highWater (restored b rs).count := by
  induction rs with
  | nil => simp [restored, hb]
  | cons r rest ih =>
    have h : restored b (r :: rest) = (restored b rest).claim r := rfl
    have hle := Bank.count_le_claim (restored b rest) r
    rw [h, Bank.highWater_claim, ih]
    omega

/-- What was saved and is then restored is in use again, as it was. -/
lemma isLive_restored_live {b c : Bank} (hc : c.count = 0) :
    (restored c b.live).isLive = b.isLive := by
  funext q
  simp [Bank.mem_live, Bank.count_eq_zero_iff.mp hc q]

end Gen

mutual

/-- The most registers in use at once while the expression is evaluated with `k` in use. -/
def Expr.peak : Expr → ℕ → ℕ
  | .int _, k => k + 1
  | .bool _, k => k + 1
  | .name _, k => k + 1
  | .assign _ e, k => e.peak k
  | .binary _ l r, k => max (l.peak k) (r.peak (k + 1))
  | .call _ args, k => max (k + 1) (Expr.peakArgs args)
termination_by structural e => e

/-- The peak of the arguments of a call, each of which starts with no register in use. -/
def Expr.peakArgs : List Expr → ℕ
  | [] => 0
  | e :: rest => max (e.peak 0) (Expr.peakArgs rest)
termination_by structural es => es

end

lemma Expr.lt_peak : (e : Expr) → (k : ℕ) → k < e.peak k
  | .int _, k | .bool _, k | .name _, k => Nat.lt_succ_self k
  | .assign _ e, k => e.lt_peak k
  | .binary _ l _, k => by
    have hleft := l.lt_peak k
    exact Nat.lt_of_lt_of_le hleft (Nat.le_max_left _ _)
  | .call _ _, _ => Nat.le_max_left _ _
termination_by structural e => e

/-- The first free register is taken, and nothing else is in use that was not before. -/
structure Takes (g g' : GenState) (r : Scratch) (peak : ℕ) : Prop where
  first : g.bank.next? = some r
  live : g'.bank.isLive = (g.bank.claim r).isLive
  highWater : g'.bank.highWater = max g.bank.highWater peak
  depth : g'.depth = g.depth

/-- The same registers are in use as before. -/
structure GivesBack (g g' : GenState) (peak pushed : ℕ) : Prop where
  live : g'.bank.isLive = g.bank.isLive
  highWater : g'.bank.highWater = max g.bank.highWater peak
  depth : g'.depth = g.depth + pushed

section Steps

variable {g g₁ g₂ : GenState} {bank : Bank} {l r q : Scratch} {p p' n n' : ℕ}

lemma Takes.isLive (h : Takes g g₁ r p) (q : Scratch) :
    g₁.bank.isLive q = (decide (r = q) || g.bank.isLive q) := by rw [h.live, Bank.isLive_claim]

lemma Takes.count (h : Takes g g₁ r p) : g₁.bank.count = g.bank.count + 1 := by
  rw [Bank.count_congr h.live, Bank.count_claim (Bank.isLive_of_next? h.first)]

lemma Takes.free (h : Takes g g₁ r p) :
    GivesBack g { g₁ with bank := g₁.bank.free r } p 0 := by
  refine ⟨?_, h.highWater, h.depth⟩
  funext q
  have hr := Bank.isLive_of_next? h.first
  rw [Bank.isLive_free, h.isLive]
  by_cases hq : r = q
  · simp [← hq, hr]
  · simp [hq]

lemma GivesBack.count (h : GivesBack g g₁ p n) : g₁.bank.count = g.bank.count :=
  Bank.count_congr h.live

lemma GivesBack.trans (h : GivesBack g g₁ p n) (h' : GivesBack g₁ g₂ p' n') :
    GivesBack g g₂ (max p p') (n + n') where
  live := h'.live.trans h.live
  highWater := by rw [h'.highWater, h.highWater, Nat.max_assoc]
  depth := by rw [h'.depth, h.depth, Nat.add_assoc]

/-- Two operands one after the other, of which the second is given up. -/
lemma Takes.combine (hl : Takes g g₁ l p) (hr : Takes g₁ g₂ r p') :
    Takes g { g₂ with bank := g₂.bank.free r } l (max p p') := by
  have hback := hr.free
  exact ⟨hl.first, hback.live.trans hl.live, by rw [hback.highWater, hl.highWater, Nat.max_assoc],
    hback.depth.trans hl.depth⟩

/-- A register is taken when the bank is as it was. -/
lemma GivesBack.alloc {k : ℕ} (h : GivesBack g g₁ p 0)
    (ha : g₁.bank.alloc? = some (q, bank)) :
    Takes g ⟨k, bank, g₁.depth⟩ q (max p (g.bank.count + 1)) := by
  obtain ⟨hnext, rfl⟩ := Bank.alloc?_eq_some_iff.mp ha
  refine ⟨Bank.next?_congr h.live ▸ hnext, ?_, ?_, h.depth⟩
  · funext x
    rw [Bank.isLive_claim, Bank.isLive_claim, h.live]
  · rw [Bank.highWater_claim, Bank.count_claim (Bank.isLive_of_next? hnext), h.highWater, h.count,
      Nat.max_assoc]

lemma GivesBack.refl (g : GenState) : GivesBack g g 0 0 := ⟨rfl, by simp, rfl⟩

lemma takes_alloc (h : g.bank.alloc? = some (r, bank)) :
    Takes g { g with bank } r (g.bank.count + 1) := by
  simpa using (GivesBack.refl g).alloc h

/-- Both operands are given up, and so the first free register is that of the left one again. -/
lemma Takes.compare {k : ℕ} (hl : Takes g g₁ l p) (hr : Takes g₁ g₂ r p')
    (hp : g.bank.count < p) (h : ((g₂.bank.free r).free l).alloc? = some (q, bank)) :
    q = l ∧ Takes g ⟨k, bank, g₂.depth⟩ q (max p p') := by
  have htaken : Takes g ⟨k, bank, g₂.depth⟩ q (max (max p p') (g.bank.count + 1)) :=
    (hl.combine hr).free.alloc h
  have hpeak : max (max p p') (g.bank.count + 1) = max p p' := by omega
  exact ⟨Option.some.inj (htaken.first.symm.trans hl.first), hpeak ▸ htaken⟩

/-- Saving all registers before, and restoring them after. -/
lemma GivesBack.around {pushed padding : ℕ}
    (h : GivesBack { g with
      bank := Gen.saved g.bank g.bank.live
      depth := g.depth + g.bank.live.length + padding } g₁ p pushed) :
    GivesBack g { g₁ with
      bank := Gen.restored g₁.bank g.bank.live
      depth := g₁.depth - (pushed + padding) - g.bank.live.length } (max p g.bank.count) 0 := by
  have hclear : g₁.bank.count = 0 := h.count.trans (Gen.count_saved_live g.bank)
  have hlive := Gen.isLive_restored_live (b := g.bank) hclear
  refine ⟨hlive, ?_, ?_⟩
  · have hwater := Gen.highWater_restored hclear g.bank.live
    rw [Bank.count_congr hlive, h.highWater, Gen.highWater_saved] at hwater
    simpa [Nat.max_assoc] using hwater
  · have hdepth := h.depth
    simp only at hdepth ⊢
    omega

end Steps

variable {arena : Arena}

mutual

/-- **What an expression takes**: the first free register, and on the way its peak. -/
theorem Expr.takes : (e : Expr) → ∀ {g g' : GenState} {text : List Line} {r : Scratch},
    (e.lower arena).Yields g text g' r → Takes g g' r (e.peak g.bank.count)
  | .int _, _, _, _, _, h | .bool true, _, _, _, _, h | .bool false, _, _, _, _, h => by
    obtain ⟨bank, halloc, rfl, -⟩ := Gen.yields_constant.mp h
    exact takes_alloc halloc
  | .name x, _, _, _, _, h => by
    obtain ⟨_, bank, -, halloc, rfl, -⟩ := Ident.yields_load.mp h
    exact takes_alloc halloc
  | .assign x e, _, _, _, _, h => by
    obtain ⟨_, g₁, r, _, he, hstore, rfl⟩ := Gen.yields_bind.mp h
    obtain ⟨_, _, _, _, hx, hr, rfl⟩ := Gen.yields_bind.mp hstore
    obtain ⟨o, -, rfl, -⟩ := Ident.yields_store.mp hx
    obtain ⟨-, rfl, rfl⟩ := Gen.yields_pure.mp hr
    exact e.takes he
  | .binary op left right, _, _, _, _, h => by
    obtain ⟨_, g₁, l, _, hl, hrest, rfl⟩ := Gen.yields_bind.mp h
    obtain ⟨_, g₂, r, _, hr, hop, rfl⟩ := Gen.yields_bind.mp hrest
    have hleft := left.takes hl
    have hright := right.takes hr
    rw [hleft.count] at hright
    cases op with
    | arith op =>
      obtain ⟨rfl, rfl, -⟩ := Gen.yields_arith.mp hop
      exact hleft.combine hright
    | compare rel =>
      obtain ⟨bank, halloc, rfl, -⟩ := Gen.yields_compare.mp hop
      exact (hleft.compare hright (left.lt_peak _) halloc).2
  | .call f args, g, _, _, _, h => by
    rw [Expr.lower_call] at h
    obtain ⟨n, _, g₁, bank, -, hargs, halloc, rfl, -⟩ := Gen.yields_callWith.mp h
    have hpass := Ident.pass_cases
      (P := fun args' n => args'.Yields _ _ g₁ () → GivesBack _ g₁ (Expr.peakArgs args) n) f
      (Expr.givesBack_printed args (Gen.count_saved_live _))
      (Expr.givesBack_args args (Gen.count_saved_live _)) hargs
    have hpeak : max (max (Expr.peakArgs args) g.bank.count) (g.bank.count + 1) =
        Expr.peak (.call f args) g.bank.count := by
      rw [Expr.peak]
      omega
    exact hpeak ▸ hpass.around.alloc halloc
termination_by structural e => e

theorem Expr.givesBack_args : (es : List Expr) → ∀ {g g' : GenState} {text : List Line} {u : Unit},
    g.bank.count = 0 → (Expr.lowerArgs arena es).Yields g text g' u →
    GivesBack g g' (Expr.peakArgs es) es.length
  | [], g, _, _, _, _, h => by
    obtain ⟨-, rfl, -⟩ := Gen.yields_pure.mp h
    exact GivesBack.refl _
  | e :: rest, g, _, _, _, hclear, h => by
    obtain ⟨_, g₁, _, _, hrest, he, rfl⟩ := Gen.yields_bind.mp h
    obtain ⟨_, g₂, r, _, hr, hpush, rfl⟩ := Gen.yields_bind.mp he
    obtain ⟨_, hfree, rfl⟩ := Gen.yields_push_bind.mp hpush
    obtain ⟨rfl, rfl⟩ := Gen.yields_free.mp hfree
    have hargs := Expr.givesBack_args rest hclear hrest
    have hlast := (e.takes hr).free
    rw [hargs.count, hclear] at hlast
    refine ⟨hlast.live.trans hargs.live, ?_, ?_⟩
    · rw [Expr.peakArgs, hlast.highWater, hargs.highWater]
      omega
    · have hd := hlast.depth
      have hd' := hargs.depth
      simp only [List.length_cons] at hd ⊢
      omega
termination_by structural es => es

theorem Expr.givesBack_printed : (es : List Expr) →
    ∀ {g g' : GenState} {text : List Line} {u : Unit},
    g.bank.count = 0 → (Expr.lowerPrinted arena es).Yields g text g' u →
    GivesBack g g' (Expr.peakArgs es) 0
  | [], g, _, _, _, _, h => by
    obtain ⟨-, rfl, -⟩ := Gen.yields_pure.mp h
    exact GivesBack.refl _
  | e :: rest, g, _, _, _, hclear, h => by
    obtain ⟨_, g₁, r, _, he, hmove, rfl⟩ := Gen.yields_bind.mp h
    obtain ⟨_, hfree, rfl⟩ := Gen.yields_instr_bind.mp hmove
    have hfirst := (e.takes he).free
    rw [hclear] at hfirst
    have hclear₁ := hfirst.count.trans hclear
    have hrest := Expr.givesBack_printed rest hclear₁ (Gen.yields_free_bind.mp hfree)
    exact hfirst.trans hrest
termination_by structural es => es

end

end TreeCompiler

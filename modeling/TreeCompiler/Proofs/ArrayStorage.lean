import Mathlib.Algebra.BigOperators.Group.List.Lemmas
import Mathlib.Data.List.Infix
import TreeCompiler.Proofs.Displacements
import TreeCompiler.Proofs.Exhaustion

/-!
Arrays: how large they are, and where their elements lie.

The extents of an array are multiplied from the first to the last, and every product on the way has
to be a size. If the array has elements, then none of these products exceeds the last one, so the
outcome is that of the product of all. An empty array is different: an extent of 0 does not undo an
overflow in front of it, so its size depends on the order of the extents.

In a variable that has bytes, the elements that name resolution lets a name ask for are exactly
those that code generation finds in its storage, and each of them has bytes of its own.
-/

namespace TreeCompiler

/-! ### Products of extents -/

/-- The number itself, if it is a size. -/
def exactSize? (n : ℕ) : Option ℕ := if n ≤ maxSize then some n else none

/-- A product on the way, from the first extent on, is not a size. -/
def Overflows (extents : List ℕ) : Prop := ∃ l, l <+: extents ∧ maxSize < l.prod

instance (extents : List ℕ) : Decidable (Overflows extents) :=
  decidable_of_iff (∃ l ∈ extents.inits, maxSize < l.prod) (by simp [Overflows])

/-- The extents of an array. Any other type has none. -/
def Ty.extents (ty : Ty) : List ℕ :=
  match ty.shape with
  | .array extents => extents
  | .plain | .pointer => []

lemma Ty.extent_eq_prod (ty : Ty) : ty.extent = ty.extents.prod := by
  rw [extent, extents]
  cases ty.shape <;> rfl

lemma exactSize?_eq_none_iff {n : ℕ} : exactSize? n = none ↔ maxSize < n := by
  simp [exactSize?]

lemma exactSize?_zero : exactSize? 0 = some 0 := rfl

/-- The last product is one of those on the way. -/
lemma overflows_of_lt_prod {extents : List ℕ} (h : maxSize < extents.prod) : Overflows extents :=
  ⟨extents, List.prefix_refl extents, h⟩

/-- Only an extent of 0 leads from an overflow back to a size. -/
lemma Overflows.lt_prod {extents : List ℕ} (h : Overflows extents) (hne : extents.prod ≠ 0) :
    maxSize < extents.prod := by
  obtain ⟨l, hl, hover⟩ := h
  have hdvd : l.prod ∣ extents.prod := hl.sublist.prod_dvd_prod
  exact Nat.lt_of_lt_of_le hover (Nat.le_of_dvd (Nat.pos_of_ne_zero hne) hdvd)

/-- **The products on the way**: multiplying stops if one of them, begun with `m`, is not a size. -/
lemma foldlM_mulSize?_eq_none_iff {extents : List ℕ} {m : ℕ} (hm : m ≤ maxSize) :
    extents.foldlM mulSize? m = none ↔ ∃ l, l <+: extents ∧ maxSize < m * l.prod := by
  induction extents generalizing m with
  | nil => simpa using hm
  | cons k extents ih =>
    rw [List.foldlM_cons, mulSize?]
    split
    · next hk =>
      rw [Option.bind_eq_bind, Option.bind_some, ih hk]
      constructor
      · rintro ⟨l, hl, hover⟩
        exact ⟨k :: l, (List.prefix_cons_inj k).mpr hl, by rwa [List.prod_cons, ← Nat.mul_assoc]⟩
      · rintro ⟨l, hl, hover⟩
        rcases List.prefix_cons_iff.mp hl with rfl | ⟨l, rfl, hrest⟩
        · rw [List.prod_nil, Nat.mul_one] at hover
          omega
        · exact ⟨l, hrest, by rwa [List.prod_cons, ← Nat.mul_assoc] at hover⟩
    · next hk =>
      refine ⟨fun _ => ⟨[k], by simp, ?_⟩, fun _ => rfl⟩
      rw [List.prod_singleton]
      omega

lemma Ty.elements?_eq_none_iff (ty : Ty) : ty.elements? = none ↔ Overflows ty.extents := by
  have hone : (1 : ℕ) ≤ maxSize := by decide
  rw [elements?, extents]
  cases ty.shape with
  | array extents =>
    rw [Overflows, foldlM_mulSize?_eq_none_iff hone]
    simp only [Nat.one_mul]
  | plain | pointer => simp [Overflows, maxSize]

/-- Without an overflow the number of elements is a size. -/
lemma Ty.extent_le_maxSize {ty : Ty} (h : ¬ Overflows ty.extents) : ty.extent ≤ maxSize := by
  rw [extent_eq_prod]
  exact Nat.le_of_not_lt fun hlt => h (overflows_of_lt_prod hlt)

/-- The number of elements is exact but for what happens on the way. -/
lemma Ty.elements?_eq_ite (ty : Ty) :
    ty.elements? = if Overflows ty.extents then none else exactSize? ty.extent := by
  split
  · next hover => exact (elements?_eq_none_iff ty).mpr hover
  · next hfits =>
    cases hn : ty.elements? with
    | none => exact absurd ((elements?_eq_none_iff ty).mp hn) hfits
    | some n =>
      obtain rfl := elements?_eq hn
      rw [exactSize?, if_pos (extent_le_maxSize hfits)]

/-- So is the number of bytes. -/
lemma Ty.size?_eq_ite (ty : Ty) :
    ty.size? = if Overflows ty.extents then none else exactSize? ty.bytes := by
  rw [size?, elements?_eq_ite]
  split
  · rfl
  · next hfits =>
    rw [exactSize?, if_pos (extent_le_maxSize hfits)]
    rfl

lemma Ty.size_le_maxSize {ty : Ty} {size : ℕ} (h : ty.size? = some size) : size ≤ maxSize := by
  obtain ⟨n, -, hmul⟩ := Option.bind_eq_some_iff.mp h
  obtain ⟨rfl, hmax⟩ := mulSize?_eq_some_iff.mp hmul
  exact hmax

section Guarded

variable {P Q : Prop} [Decidable P] [Decidable Q] {n : ℕ}

/-- A size that is given up on `P` is exact unless `P` holds of nothing at all. -/
lemma guarded_eq_exactSize?_iff (h : P → n ≠ 0 → maxSize < n) :
    (if P then none else exactSize? n) = exactSize? n ↔ ¬ (n = 0 ∧ P) := by
  by_cases hP : P
  · rw [if_pos hP, eq_comm, exactSize?_eq_none_iff, not_and']
    exact ⟨fun hlt _ hzero => by omega, fun hne => h hP (hne hP)⟩
  · simp [hP]

/-- Two ways to give up make a difference only there. -/
lemma guarded_eq_guarded_iff (hP : P → n ≠ 0 → maxSize < n) (hQ : Q → n ≠ 0 → maxSize < n) :
    (if P then none else exactSize? n) = (if Q then none else exactSize? n) ↔
      (n = 0 → (P ↔ Q)) := by
  rcases Nat.eq_zero_or_pos n with rfl | hpos
  · by_cases hP' : P <;> by_cases hQ' : Q <;> simp [hP', hQ', exactSize?_zero]
  · have hne : n ≠ 0 := by omega
    rw [(guarded_eq_exactSize?_iff hP).mpr (by simp [hne]),
      (guarded_eq_exactSize?_iff hQ).mpr (by simp [hne])]
    simp [hne]

end Guarded

lemma Ty.lt_extent_of_overflows {ty : Ty} (h : Overflows ty.extents) (hne : ty.extent ≠ 0) :
    maxSize < ty.extent := by
  rw [extent_eq_prod] at hne ⊢
  exact h.lt_prod hne

lemma Ty.lt_bytes_of_overflows {ty : Ty} (h : Overflows ty.extents) (hne : ty.bytes ≠ 0) :
    maxSize < ty.bytes := by
  rw [bytes] at hne ⊢
  have hpos : 0 < ty.elementSize := Nat.pos_of_ne_zero (right_ne_zero_of_mul hne)
  exact Nat.lt_of_lt_of_le (lt_extent_of_overflows h (left_ne_zero_of_mul hne))
    (Nat.le_mul_of_pos_right _ hpos)

/-- **Sizes of arrays**: the number of elements is the product of the extents, if that is a size,
and the number of bytes is that times the bytes of an element, if that is a size. There is one
exception to each, where the true number is 0 and a product on the way overflows. So arrays of the
same elements that differ in the order of their extents have the same number of elements, and the
same size, unless that is 0 and only one of them overflows on the way. -/
theorem Ty.sizes_exact_iff (t : Ty) :
    (t.elements? = exactSize? t.extents.prod ↔ ¬ (t.extents.prod = 0 ∧ Overflows t.extents)) ∧
    (t.size? = exactSize? (t.extents.prod * t.elementSize) ↔
      ¬ (t.extents.prod * t.elementSize = 0 ∧ Overflows t.extents)) ∧
    ∀ u : Ty, u.elem = t.elem → u.extents.Perm t.extents →
      (u.elements? = t.elements? ↔
        (t.extents.prod = 0 → (Overflows u.extents ↔ Overflows t.extents))) ∧
      (u.size? = t.size? ↔
        (t.extents.prod * t.elementSize = 0 → (Overflows u.extents ↔ Overflows t.extents))) := by
  have hextent : t.extents.prod = t.extent := t.extent_eq_prod.symm
  have hbytes : t.extents.prod * t.elementSize = t.bytes := by rw [hextent, bytes]
  rw [hbytes, hextent]
  refine ⟨?_, ?_, fun u helem hperm => ?_⟩
  · rw [elements?_eq_ite]
    exact guarded_eq_exactSize?_iff lt_extent_of_overflows
  · rw [size?_eq_ite]
    exact guarded_eq_exactSize?_iff lt_bytes_of_overflows
  · have hextent' : u.extent = t.extent := by
      rw [extent_eq_prod, extent_eq_prod, hperm.prod_eq]
    have hbytes' : u.bytes = t.bytes := by
      rw [bytes, bytes, hextent', elementSize, helem, elementSize]
    rw [elements?_eq_ite u, elements?_eq_ite t, size?_eq_ite u, size?_eq_ite t, hextent', hbytes']
    exact ⟨guarded_eq_guarded_iff (hextent' ▸ lt_extent_of_overflows) lt_extent_of_overflows,
      guarded_eq_guarded_iff (hbytes' ▸ lt_bytes_of_overflows) lt_bytes_of_overflows⟩

/-- An empty array of many rows, and the same one with its extents turned around. -/
def emptyRows : Ty := ⟨.prim .int8, .array [65536, 65536, 0]⟩

def emptyRowsTurned : Ty := ⟨.prim .int8, .array [0, 65536, 65536]⟩

/-- Only one of the two has a size. -/
theorem Ty.sizes_emptyRows :
    emptyRowsTurned.elements? = some 0 ∧ emptyRowsTurned.size? = some 0 ∧
      emptyRows.elements? ≠ exactSize? 0 ∧ emptyRows.size? ≠ exactSize? 0 ∧
      emptyRowsTurned.elements? ≠ emptyRows.elements? ∧
      emptyRowsTurned.size? ≠ emptyRows.size? := by
  have hover : Overflows emptyRows.extents := ⟨[65536, 65536], by decide, by decide⟩
  have hturned : ¬ Overflows emptyRowsTurned.extents := by
    intro h
    exact nomatch (elements?_eq_none_iff emptyRowsTurned).mpr h
  obtain ⟨helements, hsize, horder⟩ := sizes_exact_iff emptyRows
  obtain ⟨helements', hsize'⟩ := horder emptyRowsTurned rfl (by decide)
  exact ⟨rfl, rfl, fun h => helements.mp h ⟨rfl, hover⟩, fun h => hsize.mp h ⟨rfl, hover⟩,
    fun h => hturned ((helements'.mp h rfl).mpr hover),
    fun h => hturned ((hsize'.mp h rfl).mpr hover)⟩

/-! ### Elements in storage -/

/-- The variable has an element of that number. -/
def Symbol.HasElement (symbol : Symbol) (n : ℕ) : Prop :=
  ∃ count, symbol.ty.elements? = some count ∧ n < count

/-- **A use of a variable**: the name is bound, and there is a report unless it asks for one of the
elements. -/
lemma Ident.resolve_of_lookup {opts : Options} {s : Resolver} {x : Ident} {id : SymbolId}
    {symbol : Symbol} {count : ℕ} (hlookup : s.scopes.lookup x.name = some id)
    (hsymbol : s.arena[id]? = some symbol) (hvariable : symbol.isFunction = false)
    (hcount : symbol.ty.elements? = some count) :
    x.resolve opts s = .ok ({ x with symbol := some id }, if x.offset < count then s else
      { s with errors := opts.report s.errors (.indexOutOfBounds x.name x.offset symbol.ty) }) := by
  rw [resolve, run_get_bind, hlookup, run_get_bind, run_lift_bind]
  refine ⟨symbol, Arena.find_eq_ok_iff.mpr hsymbol, ?_⟩
  rcases Nat.lt_or_ge x.offset count with hlt | hge
  · rw [if_neg (by simpa [hvariable, hcount] using hlt), if_pos hlt, run_pure]
    exact ⟨rfl, rfl⟩
  · rw [if_pos (by simpa [hvariable, hcount] using hge), if_neg (Nat.not_lt.mpr hge),
      Resolve.run_report_bind, run_pure]
    exact ⟨rfl, rfl⟩

namespace Symbol

variable {symbol : Symbol} {m n : ℕ} {o o' : Operand}

/-- The elements of a variable of its full size are those of its type. -/
lemma hasElement_iff (hsize : symbol.ty.size? = some symbol.size) :
    symbol.HasElement n ↔ n < symbol.ty.extent := by
  simp [HasElement, (Ty.size?_eq hsize).1]

lemma elementSize_pos (hsize : symbol.ty.size? = some symbol.size) (hpos : 0 < symbol.size) :
    0 < symbol.ty.elementSize := by
  rw [(Ty.size?_eq hsize).2] at hpos
  exact Nat.pos_of_mul_pos_left hpos

/-- An element is one of the variable exactly if the bytes in front of it are fewer than all. -/
lemma bias_lt_iff (hsize : symbol.ty.size? = some symbol.size) (hpos : 0 < symbol.size) :
    n * symbol.ty.elementSize < symbol.size ↔ symbol.HasElement n := by
  rw [hasElement_iff hsize, (Ty.size?_eq hsize).2, Ty.bytes]
  exact Nat.mul_lt_mul_right (elementSize_pos hsize hpos)

/-- An element of a variable ends within it. -/
lemma HasElement.end_le (hsize : symbol.ty.size? = some symbol.size) (h : symbol.HasElement n) :
    n * symbol.ty.elementSize + symbol.ty.elementSize ≤ symbol.size := by
  rw [hasElement_iff hsize] at h
  rw [(Ty.size?_eq hsize).2, Ty.bytes, ← Nat.succ_mul]
  exact Nat.mul_le_mul_right _ h

lemma hasElement_of_locate (hsize : symbol.ty.size? = some symbol.size) (hpos : 0 < symbol.size)
    (h : symbol.locate n = .ok o) : symbol.HasElement n := by
  obtain ⟨-, -, hinside, -⟩ := locate_eq_ok h
  rw [← bias_lt_iff hsize hpos]
  omega

lemma locate_of_not_hasElement (hsize : symbol.ty.size? = some symbol.size)
    (hpos : 0 < symbol.size) (h : ¬ symbol.HasElement n) :
    symbol.locate n = .error (.outOfBounds symbol.name n) := by
  rw [← bias_lt_iff hsize hpos] at h
  rw [locate]
  split
  · rfl
  · next bias hbias =>
    obtain ⟨rfl, -⟩ := mulSize?_eq_some_iff.mp hbias
    rw [if_pos ⟨by omega, Nat.le_of_not_lt h⟩]

/-- Elements that have bytes are accessed in their size. -/
lemma width_of_locate (h : symbol.locate n = .ok o) (hpos : 0 < symbol.ty.elementSize) :
    o.width.bytes = symbol.ty.elementSize := by
  obtain ⟨-, hwidth, -, -⟩ := locate_eq_ok h
  rw [hwidth]
  exact symbol.ty.elem.width_bytes.resolve_left (Nat.ne_of_gt hpos)

/-- Two accesses that share a byte are to the same element. -/
lemma eq_of_touches {rbp : ℤ} {c : Cell ℤ} (hpos : 0 < symbol.ty.elementSize)
    (h : symbol.locate m = .ok o) (h' : symbol.locate n = .ok o') (hc : o.Touches rbp c)
    (hc' : o'.Touches rbp c) : m = n := by
  obtain ⟨i, hi, rfl⟩ := hc
  obtain ⟨j, hj, hij⟩ := hc'
  rw [width_of_locate h hpos] at hi
  rw [width_of_locate h' hpos] at hj
  obtain ⟨-, -, -, haddress⟩ := locate_eq_ok h
  obtain ⟨-, -, -, haddress'⟩ := locate_eq_ok h'
  rw [haddress, haddress'] at hij
  have hbyte := Address.cellAt_injective rbp _ hij
  -- the number of an element is the quotient of each of its bytes
  have hquotient : ∀ k r, r < symbol.ty.elementSize →
      (k * symbol.ty.elementSize + r) / symbol.ty.elementSize = k := fun k r hr => by
    rw [Nat.mul_comm, Nat.mul_add_div hpos, Nat.div_eq_of_lt hr, Nat.add_zero]
  rw [← hquotient m i hi, ← hbyte, hquotient n j hj]

/-- **Elements in storage**: take a variable that has the size of its type, which is not 0. In a
walk that goes on, a use of it is resolved without a report exactly if it asks for one of the
elements; these are the elements that have a place in the code, and for any other the code stops
with that element out of bounds. A place lies as many bytes behind the start of the variable as the
elements in front of it have, which is a size; it has the width of an element, ends within the
variable, and shares no byte with the place of another element. -/
theorem indexed_iff_located (hvariable : symbol.isFunction = false)
    (hsize : symbol.ty.size? = some symbol.size) (hpos : 0 < symbol.size) :
    (∀ (opts : Options) (s : Resolver) (x : Ident) (id : SymbolId),
      s.scopes.lookup x.name = some id → s.arena[id]? = some symbol →
      opts.halts s.errors = false →
      (x.resolve opts s = .ok ({ x with symbol := some id }, s) ↔
        symbol.HasElement x.offset)) ∧
    (∀ n, (symbol.HasElement n ↔ ∃ o, symbol.locate n = .ok o) ∧
      (¬ symbol.HasElement n → symbol.locate n = .error (.outOfBounds symbol.name n))) ∧
    (∀ n o, symbol.locate n = .ok o →
      mulSize? n symbol.ty.elementSize = some (n * symbol.ty.elementSize) ∧
      o.address.displacement = symbol.base.displacement + n * symbol.ty.elementSize ∧
      o.width.bytes = symbol.ty.elementSize ∧
      n * symbol.ty.elementSize + symbol.ty.elementSize ≤ symbol.size) ∧
    ∀ (rbp : ℤ) (m n : ℕ) (o o' : Operand), m ≠ n → symbol.locate m = .ok o →
      symbol.locate n = .ok o' → ∀ c, ¬ (o.Touches rbp c ∧ o'.Touches rbp c) := by
  obtain ⟨hcount, -⟩ := Ty.size?_eq hsize
  have hunit := elementSize_pos hsize hpos
  refine ⟨fun opts s x id hlookup hsymbol hgoing => ?_, fun n => ⟨⟨?_, ?_⟩, ?_⟩,
    fun n o h => ?_, fun rbp m n o o' hne h h' c hc => ?_⟩
  · rw [Ident.resolve_of_lookup hlookup hsymbol hvariable hcount, hasElement_iff hsize]
    split
    · next hlt => simp [hlt]
    · next hge =>
      -- the report makes the list of errors longer
      have hlonger : opts.report s.errors (.indexOutOfBounds x.name x.offset symbol.ty) ≠
          s.errors := by
        simp [Options.report, hgoing]
      simp only [hge, iff_false]
      intro h
      exact hlonger (congrArg Resolver.errors (Prod.mk.inj (Except.ok.inj h)).2)
  · rintro ⟨count, hn, hlt⟩
    refine exists_locate hvariable hsize (.inr fun count' hn' => ?_)
    rwa [← Option.some.inj (hn.symm.trans hn')]
  · rintro ⟨o, h⟩
    exact hasElement_of_locate hsize hpos h
  · exact locate_of_not_hasElement hsize hpos
  · have hend := (hasElement_of_locate hsize hpos h).end_le hsize
    have hmax : symbol.size ≤ maxSize := Ty.size_le_maxSize hsize
    exact ⟨mulSize?_eq_some_iff.mpr ⟨rfl, by omega⟩, displacement_of_locate h,
      width_of_locate h hunit, hend⟩
  · exact hne (eq_of_touches hunit h h' hc.1 hc.2)

end Symbol

/-- A local array of two words, and a walk in which it is in scope. -/
def twoWords : Symbol := ⟨"a", .localVar, ⟨.prim .int, .array [2]⟩, 16, 16, []⟩

def twoWordsWalk : Resolver :=
  { arena := #[twoWords], scopes := (ScopeStack.enter {}).bind "a" 0 }

/-- The second word is its last element. -/
theorem Symbol.indexed_twoWords :
    (⟨"a", 1, none⟩ : Ident).resolve {} twoWordsWalk = .ok (⟨"a", 1, some 0⟩, twoWordsWalk) ∧
      twoWords.locate 1 = .ok ⟨.qword, .frame (-8)⟩ ∧
      (⟨"a", 2, none⟩ : Ident).resolve {} twoWordsWalk ≠
        .ok (⟨"a", 2, some 0⟩, twoWordsWalk) ∧
      twoWords.locate 2 = .error (.outOfBounds "a" 2) ∧
      twoWords.locate 4294967295 = .error (.outOfBounds "a" 4294967295) := by
  have hcount : ∀ n, twoWords.HasElement n ↔ n < 2 := fun n => hasElement_iff rfl
  have hpos : 0 < twoWords.size := by decide
  obtain ⟨hresolve, hlocate, -, -⟩ := indexed_iff_located rfl rfl hpos
  refine ⟨?_, rfl, ?_, (hlocate 2).2 ?_, (hlocate 4294967295).2 ?_⟩
  · exact (hresolve {} twoWordsWalk ⟨"a", 1, none⟩ 0 rfl rfl rfl).mpr ((hcount 1).mpr (by decide))
  · rw [Ne, hresolve {} twoWordsWalk ⟨"a", 2, none⟩ 0 rfl rfl rfl, hcount]
    decide
  · rw [hcount]
    decide
  · rw [hcount]
    decide

end TreeCompiler

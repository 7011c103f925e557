import TreeCompiler.Proofs.Placement

/-!
Which bytes the code of a program can touch.

A load or a store touches the bytes from its place on, as many as it is wide. An access to a local
or a global stays in the storage of that variable if there is any: then it touches nothing else that
the function knows, nor what the caller has saved. A variable without bytes has code for its
accesses all the same. A parameter has one word, and its type may have more elements than that: an
access is in the word of its parameter, or in one of the words behind it.
-/

namespace TreeCompiler

variable {rbp : ℤ} {symbol symbol' : Symbol} {o : Operand} {n : ℕ} {c : Cell ℤ}

/-! ### Bytes -/

/-- The bytes that a load or a store touches, in a function that runs with that frame pointer. -/
def Operand.Touches (rbp : ℤ) (o : Operand) (c : Cell ℤ) : Prop :=
  ∃ i < o.width.bytes, o.address.cellAt rbp i = c

/-- Where the storage of a variable starts. -/
def Symbol.base (symbol : Symbol) : Address :=
  match symbol.kind with
  | .globalVar => .symbol (globalSymbol symbol.name) 0
  | .localVar => .frame (-symbol.position)
  | .param | .function => .frame (argumentBase + symbol.position)

/-- The bytes in the storage of a variable. A parameter has a word, and a global has what is
reserved at its label. -/
def Symbol.room (symbol : Symbol) : ℕ :=
  match symbol.kind with
  | .localVar => symbol.size
  | .globalVar => max symbol.size 1
  | .param => wordSize
  | .function => 0

def Symbol.Owns (rbp : ℤ) (symbol : Symbol) (c : Cell ℤ) : Prop :=
  ∃ j < symbol.room, symbol.base.cellAt rbp j = c

/-- The access stays in the storage of the variable. -/
def Operand.Inside (rbp : ℤ) (o : Operand) (symbol : Symbol) : Prop :=
  ∀ c, o.Touches rbp c → symbol.Owns rbp c

lemma Symbol.owns_stack {a : ℤ} : symbol.Owns rbp (.stack a) ↔
    (symbol.kind = .localVar ∧ rbp - symbol.position ≤ a ∧
      a < rbp - symbol.position + symbol.size) ∨
    (symbol.kind = .param ∧ rbp + argumentBase + symbol.position ≤ a ∧
      a < rbp + argumentBase + symbol.position + wordSize) := by
  rw [Owns, room, base]
  cases symbol.kind with
  | localVar =>
    simp only [Address.cellAt, Cell.stack.injEq, true_and, reduceCtorEq, false_and, or_false]
    constructor
    · rintro ⟨j, hj, heq⟩
      omega
    · exact fun h => ⟨(a - (rbp - symbol.position)).toNat, by omega⟩
  | param =>
    simp only [Address.cellAt, Cell.stack.injEq, true_and, reduceCtorEq, false_and, false_or]
    constructor
    · rintro ⟨j, hj, heq⟩
      omega
    · exact fun h => ⟨(a - (rbp + argumentBase + symbol.position)).toNat, by omega⟩
  | globalVar | function => simp [Address.cellAt]

lemma Symbol.owns_data {x : String} {m : ℕ} : symbol.Owns rbp (.data x m) ↔
    symbol.kind = .globalVar ∧ x = globalSymbol symbol.name ∧ m < max symbol.size 1 := by
  rw [Owns, room, base]
  cases symbol.kind with
  | globalVar =>
    simp only [Address.cellAt, Cell.data.injEq, true_and, Nat.zero_add]
    constructor
    · rintro ⟨j, hj, rfl, rfl⟩
      exact ⟨rfl, hj⟩
    · rintro ⟨rfl, hm⟩
      exact ⟨m, hm, rfl, rfl⟩
  | localVar | param | function => simp [Address.cellAt]

lemma Address.cellAt_injective (rbp : ℤ) (d : Address) : Function.Injective (d.cellAt rbp) := by
  intro i j h
  cases d with
  | symbol x n => exact Nat.add_left_cancel (Cell.data.inj h).2
  | frame d =>
    have := Cell.stack.inj h
    omega

lemma Width.bytes_pos (w : Width) : 0 < w.bytes := by cases w <;> decide

/-- An element is accessed in its size, but one without bytes as a word. -/
lemma Element.width_bytes (e : Element) :
    e.size = 0 ∨ (Width.ofSize e.size).bytes = e.size := by
  rcases e with p | x
  · cases p <;> decide
  · exact .inr rfl

/-- An element never lies across the end of a word. -/
lemma Element.word_le (e : Element) (n : ℕ) :
    n * e.size % wordSize + (Width.ofSize e.size).bytes ≤ wordSize := by
  rcases e with p | x
  · cases p <;>
      simp only [Element.size, Primitive.size, Width.ofSize, Width.bytes, wordSize] <;>
      omega
  · simp only [Element.size, Width.ofSize, Width.bytes, wordSize]
    omega

/-- The place of an element: so many bytes behind the start of its variable, and not behind the
end, but for the first element. -/
lemma Symbol.locate_eq_ok (h : symbol.locate n = .ok o) :
    symbol.kind ≠ .function ∧ o.width = Width.ofSize symbol.ty.elementSize ∧
      (n * symbol.ty.elementSize ≠ 0 → n * symbol.ty.elementSize < symbol.size) ∧
      ∀ rbp i, o.address.cellAt rbp i =
        symbol.base.cellAt rbp (n * symbol.ty.elementSize + i) := by
  rw [locate] at h
  split at h
  · cases h
  · next bias hbias =>
    obtain ⟨rfl, -⟩ := mulSize?_eq_some_iff.mp hbias
    split at h
    · cases h
    · next hbound =>
      have hinside : n * symbol.ty.elementSize ≠ 0 → n * symbol.ty.elementSize < symbol.size :=
        fun hne => Nat.lt_of_not_le fun hle => hbound ⟨hne, hle⟩
      rw [base]
      cases hkind : symbol.kind with
      | function =>
        rw [hkind] at h
        cases h
      | globalVar =>
        rw [hkind] at h
        obtain rfl := Except.ok.inj h
        exact ⟨by simp, rfl, hinside, fun rbp i => by simp [Address.cellAt]⟩
      | localVar | param =>
        rw [hkind] at h
        obtain rfl := Except.ok.inj h
        refine ⟨by simp, rfl, hinside, fun rbp i => ?_⟩
        simp only [Address.cellAt, Cell.stack.injEq]
        push_cast
        omega

/-- An access stays inside of its variable exactly if it ends there. -/
lemma Symbol.inside_iff_le (h : symbol.locate n = .ok o) :
    o.Inside rbp symbol ↔ n * symbol.ty.elementSize + o.width.bytes ≤ symbol.room := by
  obtain ⟨-, -, -, haddress⟩ := locate_eq_ok h
  constructor
  · intro hinside
    have hpos := o.width.bytes_pos
    obtain ⟨j, hj, hlast⟩ := hinside _ ⟨o.width.bytes - 1, by omega, rfl⟩
    rw [haddress] at hlast
    have := Address.cellAt_injective rbp _ hlast
    omega
  · rintro hle c ⟨i, hi, rfl⟩
    exact ⟨n * symbol.ty.elementSize + i, by omega, (haddress rbp i).symm⟩

/-- If a variable has bytes, then each element that has a place lies within them. -/
lemma Symbol.element_le_size (h : symbol.locate n = .ok o) (hsize : symbol.size = symbol.ty.bytes)
    (hpos : 0 < symbol.size) : n * symbol.ty.elementSize + o.width.bytes ≤ symbol.size := by
  obtain ⟨-, hwidth, hinside, -⟩ := locate_eq_ok h
  rw [Ty.bytes] at hsize
  rcases symbol.ty.elem.width_bytes with hzero | hbytes
  · rw [Ty.elementSize, hzero, Nat.mul_zero] at hsize
    omega
  · have hlt : n < symbol.ty.extent := by
      by_contra hge
      have hover := Nat.mul_le_mul_right symbol.ty.elementSize (Nat.le_of_not_lt hge)
      have := hinside (by omega)
      omega
    rw [hwidth, hsize, Ty.elementSize, hbytes, ← Nat.succ_mul]
    exact Nat.mul_le_mul_right _ hlt

/-- An access to a local or a global stays inside of it exactly if the variable has bytes. A global
of no size has one byte all the same, which is enough for an element of one byte. -/
lemma Symbol.inside_iff (h : symbol.locate n = .ok o) (hsize : symbol.size = symbol.ty.bytes)
    (hkind : symbol.kind = .localVar ∨ symbol.kind = .globalVar) :
    o.Inside rbp symbol ↔ 0 < symbol.size ∨ symbol.kind = .globalVar ∧ o.width = .byte := by
  rw [inside_iff_le h, room]
  rcases Nat.eq_zero_or_pos symbol.size with hzero | hpos
  · obtain ⟨-, -, hinside, -⟩ := locate_eq_ok h
    have hstart : n * symbol.ty.elementSize = 0 := by
      by_contra hne
      have := hinside hne
      omega
    have hone : o.width.bytes ≤ 1 ↔ o.width = .byte := by cases o.width <;> decide
    have hsome := o.width.bytes_pos
    rcases hkind with hkind | hkind <;> simp only [hkind, hzero, hstart]
    · simp
      omega
    · simpa using hone
  · have hle := element_le_size h hsize hpos
    rcases hkind with hkind | hkind <;> simp only [hkind, hpos, true_or, iff_true]
    · exact hle
    · omega

/-! ### Owners -/

section Program

variable {opts : Options} {p : Program} {f : FunDecl} {t : Resolver} {id id' : SymbolId}

/-- The variables that a function knows: the globals, and those that it declares. -/
def FunDecl.Knows (f : FunDecl) (id : SymbolId) (symbol : Symbol) : Prop :=
  symbol.kind = .globalVar ∨ f.Declares id

/-- A local lies in the frame of its function. -/
lemma Trace.local_bounds (h : Trace opts .start p.events t) (hf : f ∈ p.functions)
    (hflat : f.Flat) (hid : f.Declares id) (hsymbol : t.arena[id]? = some symbol)
    (hkind : symbol.kind = .localVar) :
    symbol.size ≤ symbol.position ∧ symbol.position ≤ f.frameSize := by
  obtain ⟨-, hsize, y, pre, post, hinner, -, hpos⟩ := h.variable hf hflat hid hsymbol
  obtain ⟨u, v, hu, htrace, -⟩ := h.decl (Program.mem_functions.mp hf)
  have hframe : f.variableSize ≤ f.frameSize := le_align16 (htrace.variableSize_le hu)
  have htotal := (htrace.frame_eq hu hflat).1
  rw [hinner, storage_append, hkind, storage_declare, if_pos rfl] at htotal
  rw [hkind] at hpos
  simp only [SymbolKind.position, SymbolKind.bytes] at hpos htotal
  omega

lemma Trace.parameterSize_eq (h : Trace opts .start p.events t) (hf : f ∈ p.functions)
    (hflat : f.Flat) : f.parameterSize = wordSize * f.params.length := by
  obtain ⟨u, v, hu, htrace, -⟩ := h.decl (Program.mem_functions.mp hf)
  rw [(htrace.frame_eq hu hflat).2, FunDecl.storage_param hflat]

/-- No byte belongs to two variables that a function knows, but redeclared globals share theirs. -/
lemma Trace.owner_unique (h : Trace opts .start p.events t) (hf : f ∈ p.functions)
    (hflat : f.Flat) (hknows : f.Knows id symbol) (hsymbol : t.arena[id]? = some symbol)
    (hknows' : f.Knows id' symbol') (hsymbol' : t.arena[id']? = some symbol')
    (hc : symbol.Owns rbp c) (hc' : symbol'.Owns rbp c) :
    id' = id ∨ (opts.allowRedeclaration = true ∧ symbol.kind = .globalVar ∧
      symbol'.kind = .globalVar ∧ symbol'.name = symbol.name) := by
  cases c with
  | data x m =>
    obtain ⟨hkind, rfl, -⟩ := Symbol.owns_data.mp hc
    obtain ⟨hkind', hname, -⟩ := Symbol.owns_data.mp hc'
    have hname : symbol.name = symbol'.name := (String.append_right_inj _).mp hname
    cases hopts : opts.allowRedeclaration with
    | true => exact .inr ⟨rfl, hkind, hkind', hname.symm⟩
    | false => exact .inl (h.global_unique hopts hsymbol hsymbol' hkind hkind' hname).symm
  | stack a =>
    -- neither of the two is a global
    rw [Symbol.owns_stack] at hc hc'
    have hid : f.Declares id := hknows.resolve_left (by grind)
    have hid' : f.Declares id' := hknows'.resolve_left (by grind)
    refine .inl (by_contra fun hne => ?_)
    obtain ⟨-, hsize, -⟩ := h.variable hf hflat hid hsymbol
    obtain ⟨-, hsize', -⟩ := h.variable hf hflat hid' hsymbol'
    have hapart := h.apart hf hflat hid hsymbol hid' hsymbol' (Ne.symm hne)
    rcases hc with ⟨hkind, hlow, hhigh⟩ | ⟨hkind, hlow, hhigh⟩ <;>
      rcases hc' with ⟨hkind', hlow', hhigh'⟩ | ⟨hkind', hlow', hhigh'⟩
    · simp only [hkind, hkind', SymbolKind.bytes, ← hsize, ← hsize', true_implies] at hapart
      omega
    · have := (h.local_bounds hf hflat hid hsymbol hkind).1
      omega
    · have := (h.local_bounds hf hflat hid' hsymbol' hkind').1
      omega
    · simp only [hkind, hkind', SymbolKind.bytes, true_implies] at hapart
      omega

lemma mem_reserveLines {arena : Arena} (hsymbol : arena[id]? = some symbol)
    (hkind : symbol.kind = .globalVar) :
    .reserve (globalSymbol symbol.name) symbol.room ∈ reserveLines arena := by
  have hmem : symbol ∈ arena.toList.filter (·.kind == .globalVar) := by
    rw [List.mem_filter, Array.mem_toList_iff]
    exact ⟨Array.mem_of_getElem? hsymbol, by simp [hkind]⟩
  rw [reserveLines]
  split
  · next hnone =>
    rw [hnone] at hmem
    cases hmem
  · rw [Symbol.room, hkind]
    exact List.mem_append_right _ (List.mem_map.mpr ⟨symbol, hmem, rfl⟩)

end Program

/-! ### Accepted programs -/

section Accepted

variable {s : Session} {p : Program} {a : Analysis} {g : GenState} {k : ℕ}

/-- An access in the code of an accepted program is to a variable that its function knows. -/
lemma Session.exists_access (hanalyze : s.analyze p = .ok a) (herrors : a.errors = [])
    (hk : (operands (lines (a.program.lower a.session.arena g).code))[k]? = some o) :
    ∃ f x id symbol, a.program.accesses[k]? = some (f, x) ∧ f ∈ a.program.functions ∧
      x.symbol = some id ∧ a.session.arena[id]? = some symbol ∧ symbol.locate x.offset = .ok o ∧
      symbol.size = symbol.ty.bytes ∧ f.Knows id symbol := by
  obtain ⟨t, htrace, harena, -⟩ := Session.trace_of_analyze hanalyze herrors
  obtain ⟨f, x, haccess, hplace⟩ := Program.access_of_operand hk
  obtain ⟨hf, id, symbol, hid, hsymbol, hdeclares⟩ := htrace.access (List.mem_of_getElem? haccess)
  rw [harena, Ident.place?_eq hid hsymbol] at hplace
  cases hlocate : symbol.locate x.offset with
  | error e =>
    rw [hlocate] at hplace
    cases hplace
  | ok o' =>
    rw [hlocate] at hplace
    obtain rfl := Option.some.inj hplace
    have hfun : symbol.isFunction = false := by
      simpa [Symbol.isFunction] using (Symbol.locate_eq_ok hlocate).1
    have hsize := (htrace.sound Resolver.sound_start).sized id symbol hsymbol hfun
    refine ⟨f, x, id, symbol, haccess, hf, hid, harena ▸ hsymbol, hlocate,
      (Ty.size?_eq hsize).2, ?_⟩
    cases hkind : symbol.kind with
    | function => simp [Symbol.isFunction, hkind] at hfun
    | globalVar => exact .inl hkind
    | localVar => exact .inr (hdeclares (.inl hkind))
    | param => exact .inr (hdeclares (.inr hkind))

/-- **Accesses to variables**: take any load or store in the code of an accepted program, whatever
labels and registers were in use before. It is there for a name, at the place of the variable that
the name stands for. If that is a local or a global, then the access stays inside of its storage
exactly if the variable has bytes, or is a global whose element is a byte: something is reserved for
each global. An access inside of its variable touches only the frame of its function on the stack,
below what the caller has saved, and no byte of any other variable that the function knows; only
redeclared globals share one label. -/
theorem Session.access_inside_iff (hanalyze : s.analyze p = .ok a) (herrors : a.errors = [])
    (hk : (operands (lines (a.program.lower a.session.arena g).code))[k]? = some o) :
    ∃ f x id symbol, a.program.accesses[k]? = some (f, x) ∧ x.symbol = some id ∧
      a.session.arena[id]? = some symbol ∧ symbol.locate x.offset = .ok o ∧
      (symbol.kind = .globalVar →
        .reserve (globalSymbol symbol.name) symbol.room ∈ reserveLines a.session.arena) ∧
      (symbol.kind = .localVar ∨ symbol.kind = .globalVar → ∀ rbp,
        (o.Inside rbp symbol ↔ 0 < symbol.size ∨ symbol.kind = .globalVar ∧ o.width = .byte) ∧
        (o.Inside rbp symbol → ∀ c, o.Touches rbp c →
          (∀ b, c = .stack b → rbp - f.frameSize ≤ b ∧ b < rbp) ∧
          ∀ id' symbol', a.session.arena[id']? = some symbol' → f.Knows id' symbol' →
            symbol'.Owns rbp c → id' = id ∨ (s.options.allowRedeclaration = true ∧
              symbol.kind = .globalVar ∧ symbol'.kind = .globalVar ∧
              symbol'.name = symbol.name))) := by
  obtain ⟨t, htrace, harena, hflat⟩ := Session.trace_of_analyze hanalyze herrors
  obtain ⟨f, x, id, symbol, haccess, hf, hid, hsymbol, hlocate, hsize, hknows⟩ :=
    Session.exists_access hanalyze herrors hk
  rw [harena] at hsymbol ⊢
  refine ⟨f, x, id, symbol, haccess, hid, hsymbol, hlocate, mem_reserveLines hsymbol,
    fun hkind rbp => ⟨Symbol.inside_iff hlocate hsize hkind, fun hinside c hc => ⟨?_, ?_⟩⟩⟩
  · rintro b rfl
    rcases Symbol.owns_stack.mp (hinside _ hc) with ⟨hlocal, hlow, hhigh⟩ | ⟨hparam, -⟩
    · have hdeclares : f.Declares id := hknows.resolve_left (by simp [hlocal])
      have hbounds := htrace.local_bounds hf (hflat f hf) hdeclares hsymbol hlocal
      omega
    · simp [hparam] at hkind
  · intro id' symbol' hsymbol' hknows' hc'
    exact htrace.owner_unique hf (hflat f hf) hknows hsymbol hknows' hsymbol' (hinside c hc) hc'

/-- An array of no elements. -/
def emptyArray : Symbol := ⟨"a", .localVar, ⟨.prim .int, .array [0]⟩, 0, 0, []⟩

/-- A function that gives it a value, and then one to a variable with bytes. -/
def emptyFunction : FunDecl where
  name := ⟨"main", 0, some 0⟩
  params := []
  returns := some .int
  body := [.decl (.localVar ⟨⟨"a", 0, some 1⟩, emptyArray.ty, some (.int 5)⟩),
    .decl (.localVar ⟨⟨"b", 0, some 2⟩, .int, some (.int 7)⟩),
    .ret (some (.name ⟨"b", 0, some 2⟩))]
  variableSize := 8
  parameterSize := 0

def emptySession : Session :=
  { arena := #[⟨"main", .function, .int, 0, 0, []⟩, emptyArray, ⟨"b", .localVar, .int, 8, 8, []⟩] }

/-- The value of the array goes where the frame pointer of the caller is saved. That of the other
variable stays in the frame. -/
theorem Session.access_emptyArray :
    ({} : Session).analyze [.function emptyFunction.bare] =
        .ok ⟨emptySession, [.function emptyFunction], []⟩ ∧
      operands (emptySession.unit [.function emptyFunction]) =
        [⟨.qword, .frame 0⟩, ⟨.qword, .frame (-8)⟩, ⟨.qword, .frame (-8)⟩] ∧
      ∀ rbp, ¬ (⟨.qword, .frame 0⟩ : Operand).Inside rbp emptyArray ∧
        (⟨.qword, .frame 0⟩ : Operand).Touches rbp (.stack rbp) ∧
        ∀ b, (⟨.qword, .frame (-8)⟩ : Operand).Touches rbp (.stack b) → rbp - 16 ≤ b ∧ b < rbp := by
  have hanalyze : ({} : Session).analyze [.function emptyFunction.bare] =
      .ok ⟨emptySession, [.function emptyFunction], []⟩ :=
    Session.analyze_of_resolve (a := ⟨emptySession, [.function emptyFunction], []⟩) rfl rfl rfl
  refine ⟨hanalyze, rfl, fun rbp => ⟨?_, ⟨0, by decide, by simp [Address.cellAt]⟩, ?_⟩⟩
  · obtain ⟨f, x, id, symbol, haccess, hid, hsymbol, -, -, hinside⟩ :=
      Session.access_inside_iff (g := {}) (k := 0) hanalyze rfl rfl
    obtain ⟨-, rfl⟩ := Prod.mk.inj (Option.some.inj haccess)
    obtain rfl := Option.some.inj hid
    obtain rfl := Option.some.inj hsymbol
    exact fun h => absurd ((hinside (.inl rfl) rbp).1.mp h) (by decide)
  · obtain ⟨f, x, id, symbol, haccess, hid, hsymbol, -, -, hinside⟩ :=
      Session.access_inside_iff (g := {}) (k := 1) hanalyze rfl rfl
    obtain ⟨rfl, rfl⟩ := Prod.mk.inj (Option.some.inj haccess)
    obtain rfl := Option.some.inj hid
    obtain rfl := Option.some.inj hsymbol
    obtain ⟨hiff, hclear⟩ := hinside (.inl rfl) rbp
    exact fun b hb => (hclear (hiff.mpr (.inl (by decide))) _ hb).1 b rfl

/-- The byte is in the word that the caller has pushed for argument `i`. -/
def InArgument (rbp : ℤ) (i : ℕ) (c : Cell ℤ) : Prop :=
  ∃ j < wordSize, c = .stack (rbp + argumentBase + wordSize * i + j)

/-- An access to a parameter is in one word, and in no other. -/
lemma Symbol.inArgument_iff {i : ℕ} (h : symbol.locate n = .ok o) (hkind : symbol.kind = .param)
    (hpos : symbol.position = wordSize * i) (hc : o.Touches rbp c) (j : ℕ) :
    InArgument rbp j c ↔ j = i + n * symbol.ty.elementSize / wordSize := by
  obtain ⟨-, hwidth, -, haddress⟩ := locate_eq_ok h
  obtain ⟨m, hm, rfl⟩ := hc
  have hword := symbol.ty.elem.word_le n
  rw [hwidth] at hm
  rw [haddress, base, hkind, Ty.elementSize, InArgument]
  simp only [Address.cellAt, Cell.stack.injEq, hpos, wordSize] at *
  rw [Ty.elementSize] at hm
  constructor
  · rintro ⟨l, hl, heq⟩
    omega
  · rintro rfl
    exact ⟨n * symbol.ty.elem.size % 8 + m, by omega, by omega⟩

/-- It is the word of the parameter itself if less than a word lies in front of the element. -/
lemma Symbol.touches_own_iff {i : ℕ} (h : symbol.locate n = .ok o) (hkind : symbol.kind = .param)
    (hpos : symbol.position = wordSize * i) : (∀ c, o.Touches rbp c → InArgument rbp i c) ↔
      n * symbol.ty.elementSize < wordSize := by
  constructor
  · intro hall
    have hfirst : o.Touches rbp (o.address.cellAt rbp 0) := ⟨0, o.width.bytes_pos, rfl⟩
    have hword := (inArgument_iff h hkind hpos hfirst i).mp (hall _ hfirst)
    rw [wordSize] at hword ⊢
    omega
  · intro hless c hc
    rw [inArgument_iff h hkind hpos hc, Nat.div_eq_of_lt hless, Nat.add_zero]

lemma Symbol.bias_lt_word (h : symbol.locate n = .ok o) (hfits : symbol.size ≤ wordSize) :
    n * symbol.ty.elementSize < wordSize := by
  obtain ⟨-, -, hinside, -⟩ := locate_eq_ok h
  rcases Nat.eq_zero_or_pos (n * symbol.ty.elementSize) with hzero | hpos
  · rw [hzero]
    decide
  · have := hinside (Nat.ne_of_gt hpos)
    omega

/-- **Accesses to parameters**: take any load or store in the code of an accepted program, whatever
labels and registers were in use before. If the name that it is there for stands for a parameter,
then it touches bytes of one word: that of the parameter, or as many words behind it as lie in front
of the element. So it stays in the word of its own parameter exactly if less than a word lies in
front of the element, as it does in any type that fits in a word; and then it is within the
arguments of the function. -/
theorem Session.access_argument_iff (hanalyze : s.analyze p = .ok a) (herrors : a.errors = [])
    (hk : (operands (lines (a.program.lower a.session.arena g).code))[k]? = some o) :
    ∃ f x id symbol, a.program.accesses[k]? = some (f, x) ∧ x.symbol = some id ∧
      a.session.arena[id]? = some symbol ∧ symbol.locate x.offset = .ok o ∧
      (symbol.kind = .param → ∃ i q, f.params[i]? = some q ∧ q.name.symbol = some id ∧
        (q.ty.bytes ≤ wordSize → x.offset * q.ty.elementSize < wordSize) ∧ ∀ rbp,
        (∀ c, o.Touches rbp c → ∀ j,
          InArgument rbp j c ↔ j = i + x.offset * q.ty.elementSize / wordSize) ∧
        ((∀ c, o.Touches rbp c → InArgument rbp i c) ↔
          x.offset * q.ty.elementSize < wordSize) ∧
        (x.offset * q.ty.elementSize < wordSize → ∀ c, o.Touches rbp c →
          ∃ m < f.parameterSize, c = .stack (rbp + argumentBase + m))) := by
  obtain ⟨t, htrace, harena, hflat⟩ := Session.trace_of_analyze hanalyze herrors
  obtain ⟨f, x, id, symbol, haccess, hf, hid, hsymbol, hlocate, hsize, hknows⟩ :=
    Session.exists_access hanalyze herrors hk
  refine ⟨f, x, id, symbol, haccess, hid, hsymbol, hlocate, fun hkind => ?_⟩
  have hdeclares : f.Declares id := hknows.resolve_left (by simp [hkind])
  obtain ⟨i, q, hq, hqid, hty, hpos⟩ :=
    htrace.parameter hf (hflat f hf) hdeclares (harena ▸ hsymbol) hkind
  refine ⟨i, q, hq, hqid, ?_⟩
  rw [hty]
  refine ⟨fun hfits => Symbol.bias_lt_word hlocate (hsize ▸ hfits), fun rbp => ?_⟩
  have hown : (∀ c, o.Touches rbp c → InArgument rbp i c) ↔
    x.offset * symbol.ty.elementSize < wordSize := Symbol.touches_own_iff hlocate hkind hpos
  refine ⟨fun c hc => Symbol.inArgument_iff hlocate hkind hpos hc, hown, fun hless c hc => ?_⟩
  obtain ⟨j, hj, rfl⟩ := hown.mpr hless c hc
  have hlt := (List.getElem?_eq_some_iff.mp hq).1
  refine ⟨wordSize * i + j, ?_, by push_cast; rw [Int.add_assoc (rbp + argumentBase)]⟩
  rw [htrace.parameterSize_eq hf (hflat f hf)]
  rw [wordSize] at hj ⊢
  omega

end Accepted

/-- A function of two parameters that returns the second element of the first one. -/
def pairFunction : FunDecl where
  name := ⟨"f", 0, some 0⟩
  params := [⟨⟨"a", 0, some 1⟩, ⟨.prim .int, .array [2]⟩, none⟩, ⟨⟨"b", 0, some 2⟩, .int, none⟩]
  returns := some .int
  body := [.ret (some (.name ⟨"a", 1, some 1⟩))]
  variableSize := 0
  parameterSize := 16

def pairSession : Session :=
  { arena := #[⟨"f", .function, .int, 0, 0, [1, 2]⟩,
      ⟨"a", .param, ⟨.prim .int, .array [2]⟩, 16, 0, []⟩, ⟨"b", .param, .int, 8, 8, []⟩] }

/-- What it returns is the word of the second parameter. -/
theorem Session.access_pair :
    ({} : Session).analyze [.function pairFunction.bare] =
        .ok ⟨pairSession, [.function pairFunction], []⟩ ∧
      operands (pairSession.unit [.function pairFunction]) = [⟨.qword, .frame 24⟩] ∧
      ∀ rbp c, (⟨.qword, .frame 24⟩ : Operand).Touches rbp c →
        InArgument rbp 1 c ∧ ¬ InArgument rbp 0 c := by
  have hanalyze : ({} : Session).analyze [.function pairFunction.bare] =
      .ok ⟨pairSession, [.function pairFunction], []⟩ :=
    Session.analyze_of_resolve (a := ⟨pairSession, [.function pairFunction], []⟩) rfl rfl rfl
  obtain ⟨f, x, id, symbol, haccess, hid, hsymbol, -, hword⟩ :=
    Session.access_argument_iff (g := {}) (k := 0) hanalyze rfl rfl
  obtain ⟨rfl, rfl⟩ := Prod.mk.inj (Option.some.inj haccess)
  obtain rfl := Option.some.inj hid
  obtain rfl := Option.some.inj hsymbol
  obtain ⟨i, q, hq, hqid, -, hrest⟩ := hword rfl
  refine ⟨hanalyze, rfl, fun rbp c hc => ?_⟩
  have hwords := (hrest rbp).1 c hc
  -- of the two parameters, the first one has the symbol that is accessed
  rcases i with _ | _ | i
  · obtain rfl := Option.some.inj hq
    exact ⟨(hwords 1).mpr (by decide), fun h => absurd ((hwords 0).mp h) (by decide)⟩
  · obtain rfl := Option.some.inj hq
    exact absurd hqid (by decide)
  · exact nomatch hq

end TreeCompiler

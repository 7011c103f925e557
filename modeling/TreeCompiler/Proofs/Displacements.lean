import TreeCompiler.Proofs.FrameLayout
import TreeCompiler.Proofs.MemorySafety

/-!
Displacements in 32 bits.

Storage is limited so that a signed number of 32 bits reaches every byte of it. The limit holds for
what is taken from a frame, from an argument list and for all globals, so it holds for the place of
each symbol. But a parameter takes one word whatever its type, and an element of it may lie as far
behind that word as the type is large.
-/

namespace TreeCompiler

/-- What an address adds to the frame pointer, or to a symbol. -/
def Address.displacement : Address → ℤ
  | .symbol _ n => n
  | .frame n => n

/-- The numbers of 32 bits with a sign. -/
def Signed32 (n : ℤ) : Prop := -2 ^ 31 ≤ n ∧ n < 2 ^ 31

instance (n : ℤ) : Decidable (Signed32 n) := inferInstanceAs (Decidable (_ ∧ _))

lemma signed32_of_nat {n : ℕ} : Signed32 n ↔ n < 2 ^ 31 := by
  rw [Signed32]
  omega

/-! ### Places within the limit -/

/-- The place of a symbol is within the storage that there may be, where a parameter has a word. -/
def Symbol.InReach (symbol : Symbol) : Prop :=
  match symbol.kind with
  | .localVar | .globalVar => symbol.size ≤ symbol.position ∧ symbol.position ≤ storageLimit
  | .param => symbol.position + wordSize ≤ storageLimit
  | .function => True

def Arena.InReach (arena : Arena) : Prop :=
  ∀ (id : SymbolId) (symbol : Symbol), arena[id]? = some symbol → symbol.InReach

section Traces

variable {opts : Options} {s t : Resolver} {e : Event} {es : List Event}

lemma Arena.InReach.push {arena : Arena} {symbol : Symbol} (h : Arena.InReach arena)
    (hsymbol : symbol.InReach) : Arena.InReach (arena.push symbol) := by
  intro id symbol' hid
  rw [Array.getElem?_push] at hid
  split at hid
  · exact Option.some.inj hid ▸ hsymbol
  · exact h id symbol' hid

/-- What is reserved is within the limit. -/
lemma Resolver.Reserves.inReach {x : String} {kind : SymbolKind} {ty : Ty} {size position : ℕ}
    (h : s.Reserves ty size position t kind) :
    (⟨x, kind, ty, size, position, []⟩ : Symbol).InReach := by
  cases kind with
  | function => trivial
  | globalVar =>
    obtain ⟨-, -, -, -, hend, -⟩ := h
    obtain ⟨rfl, hlimit⟩ := storageEnd?_eq_some_iff.mp hend
    exact ⟨Nat.le_add_left .., hlimit⟩
  | localVar =>
    obtain ⟨f, n, -, -, -, -, hend, -⟩ := h
    obtain ⟨rfl, hlimit⟩ := storageEnd?_eq_some_iff.mp hend
    exact ⟨Nat.le_add_left .., hlimit⟩
  | param =>
    obtain ⟨f, n, stop, -, -, -, -, hend, rfl, -⟩ := h
    exact (storageEnd?_eq_some_iff.mp hend).2

/-- **Step**: every event leaves the symbols within the limit. -/
lemma Event.Step.arena_inReach (h : e.Step opts s t) (hs : Arena.InReach s.arena) :
    Arena.InReach t.arena := by
  cases e with
  | enter =>
    obtain rfl := h
    exact hs
  | exit =>
    obtain ⟨-, rfl⟩ := h
    exact hs
  | use x =>
    obtain ⟨-, rfl⟩ := h
    exact hs
  | finish f params frame =>
    obtain ⟨id, ids, -, -, -, -, rfl⟩ := h
    intro id' symbol hsymbol
    -- the parameters of a function say nothing about its place
    obtain ⟨params, hparams⟩ := Arena.getElem?_setParams s.arena id id' ids
    rw [hparams] at hsymbol
    obtain ⟨old, hold, rfl⟩ := Option.map_eq_some_iff.mp hsymbol
    exact hs id' old hold
  | declare x kind ty =>
    obtain ⟨size, position, u, hreserves, -, -, rfl⟩ := h
    exact hs.push hreserves.inReach

/-- **Run**: so does every trace. -/
lemma Trace.arena_inReach (h : Trace opts .start es t) : Arena.InReach t.arena := by
  refine h.preserves (P := fun u => Arena.InReach u.arena) ?_ nofun
  intro e _ u v he hs
  exact he.arena_inReach hs

lemma Trace.frameSize_le {p : Program} {f : FunDecl} (h : Trace opts .start p.events t)
    (hf : f ∈ p.functions) : f.frameSize ≤ storageLimit := by
  obtain ⟨u, v, hu, htrace, -⟩ := h.decl (Program.mem_functions.mp hf)
  exact align16_le (htrace.variableSize_le hu)

end Traces

/-! ### Elements -/

namespace Symbol

variable {symbol : Symbol} {n : ℕ} {o : Operand}

/-- An element lies as many bytes behind the start of its variable as there are in front of it. -/
lemma displacement_of_locate (h : symbol.locate n = .ok o) :
    o.address.displacement = symbol.base.displacement + n * symbol.ty.elementSize := by
  obtain ⟨-, -, -, haddress⟩ := locate_eq_ok h
  have hcell := haddress 0 0
  cases ho : o.address <;> cases hbase : symbol.base <;>
    simp only [ho, hbase, Address.cellAt, Cell.data.injEq, Cell.stack.injEq, reduceCtorEq]
      at hcell <;>
    simp only [Address.displacement] <;> push_cast at hcell <;> omega

lemma displacement_localVar (h : symbol.locate n = .ok o) (hreach : symbol.InReach)
    (hkind : symbol.kind = .localVar) : Signed32 o.address.displacement := by
  obtain ⟨-, -, hinside, -⟩ := locate_eq_ok h
  simp only [InReach, hkind, storageLimit] at hreach
  rw [displacement_of_locate h, base, hkind, Signed32]
  simp only [Address.displacement]
  norm_cast
  omega

lemma displacement_globalVar (h : symbol.locate n = .ok o) (hreach : symbol.InReach)
    (hkind : symbol.kind = .globalVar) :
    0 ≤ o.address.displacement ∧ Signed32 o.address.displacement := by
  obtain ⟨-, -, hinside, -⟩ := locate_eq_ok h
  simp only [InReach, hkind, storageLimit] at hreach
  rw [displacement_of_locate h, base, hkind, Signed32]
  simp only [Address.displacement]
  norm_cast
  omega

lemma displacement_param {i : ℕ} (h : symbol.locate n = .ok o) (hkind : symbol.kind = .param)
    (hpos : symbol.position = wordSize * i) : o.address.displacement =
      (argumentBase + wordSize * i + n * symbol.ty.elementSize : ℕ) := by
  rw [displacement_of_locate h, base, hkind, ← hpos]
  simp [Address.displacement]

end Symbol

/-! ### Frames -/

/-- The instructions that make and drop a frame move the stack pointer by its size. -/
lemma eq_of_mem_frame {bytes n : ℕ} (h : .instr (.lowerStack n) ∈ openFrame bytes ∨
    .instr (.raiseStack n) ∈ closeFrame bytes) : n = bytes := by
  rw [openFrame, closeFrame] at h
  split at h
  · simp at h
  · simpa using h

/-! ### Accepted programs -/

/-- **Displacements**: take any load or store in the code of an accepted program, whatever labels
and registers were in use before. If the name that it is there for stands for a local, then its
displacement has 32 bits with the sign; that of a global is not negative either. The displacement of
a parameter is that of its word and what lies in front of the element, so it has 32 bits exactly if
their sum has, as it does for any type that fits in a word. The size of every frame has 32 bits
where the stack pointer is moved by it. -/
theorem Session.displacement_iff {s : Session} {p : Program} {a : Analysis} {g : GenState}
    (hanalyze : s.analyze p = .ok a) (herrors : a.errors = []) :
    (∀ (k : ℕ) (o : Operand),
      (operands (lines (a.program.lower a.session.arena g).code))[k]? = some o →
      ∃ f x id symbol, a.program.accesses[k]? = some (f, x) ∧ x.symbol = some id ∧
        a.session.arena[id]? = some symbol ∧ symbol.locate x.offset = .ok o ∧
        (symbol.kind = .localVar → Signed32 o.address.displacement) ∧
        (symbol.kind = .globalVar →
          0 ≤ o.address.displacement ∧ Signed32 o.address.displacement) ∧
        (symbol.kind = .param → ∃ i q, f.params[i]? = some q ∧ q.name.symbol = some id ∧
          (Signed32 o.address.displacement ↔
            argumentBase + wordSize * i + x.offset * q.ty.elementSize < 2 ^ 31) ∧
          (q.ty.bytes ≤ wordSize → Signed32 o.address.displacement))) ∧
    ∀ f ∈ a.program.functions, ∀ n : ℕ, .instr (.lowerStack n) ∈ openFrame f.frameSize ∨
      .instr (.raiseStack n) ∈ closeFrame f.frameSize → Signed32 n := by
  obtain ⟨t, htrace, harena, hflat⟩ := Session.trace_of_analyze hanalyze herrors
  refine ⟨fun k o hk => ?_, fun f hf n hn => ?_⟩
  · obtain ⟨f, x, id, symbol, haccess, hf, hid, hsymbol, hlocate, hsize, hknows⟩ :=
      Session.exists_access hanalyze herrors hk
    have hreach : symbol.InReach := htrace.arena_inReach id symbol (harena ▸ hsymbol)
    refine ⟨f, x, id, symbol, haccess, hid, hsymbol, hlocate,
      Symbol.displacement_localVar hlocate hreach, Symbol.displacement_globalVar hlocate hreach,
      fun hkind => ?_⟩
    have hdeclares : f.Declares id := hknows.resolve_left (by simp [hkind])
    obtain ⟨i, q, hq, hqid, hty, hpos⟩ :=
      htrace.parameter hf (hflat f hf) hdeclares (harena ▸ hsymbol) hkind
    have hiff : Signed32 o.address.displacement ↔
        argumentBase + wordSize * i + x.offset * q.ty.elementSize < 2 ^ 31 := by
      rw [Symbol.displacement_param hlocate hkind hpos, signed32_of_nat, hty]
    refine ⟨i, q, hq, hqid, hiff, fun hfits => hiff.mpr ?_⟩
    have hbias := Symbol.bias_lt_word hlocate (by rwa [hsize, ← hty])
    simp only [Symbol.InReach, hkind, hpos, storageLimit] at hreach
    rw [hty, argumentBase]
    simp only [wordSize] at *
    omega
  · obtain rfl := eq_of_mem_frame hn
    have hle := htrace.frameSize_le hf
    rw [storageLimit] at hle
    rw [signed32_of_nat]
    omega

/-- A function that returns the last element of its only parameter. -/
def farFunction : FunDecl where
  name := ⟨"f", 0, some 0⟩
  params := [⟨⟨"a", 0, some 1⟩, ⟨.prim .int8, .array [4294967295]⟩, none⟩]
  returns := some .int
  body := [.ret (some (.name ⟨"a", 4294967294, some 1⟩))]
  variableSize := 0
  parameterSize := 8

def farSession : Session :=
  { arena := #[⟨"f", .function, .int, 0, 0, [1]⟩,
      ⟨"a", .param, ⟨.prim .int8, .array [4294967295]⟩, 4294967295, 0, []⟩] }

/-- Its displacement needs more than 32 bits. -/
theorem Session.displacement_far :
    ({} : Session).analyze [.function farFunction.bare] =
        .ok ⟨farSession, [.function farFunction], []⟩ ∧
      operands (farSession.unit [.function farFunction]) = [⟨.byte, .frame 4294967310⟩] ∧
      ¬ Signed32 (⟨.byte, .frame 4294967310⟩ : Operand).address.displacement := by
  have hanalyze : ({} : Session).analyze [.function farFunction.bare] =
      .ok ⟨farSession, [.function farFunction], []⟩ :=
    Session.analyze_of_resolve (a := ⟨farSession, [.function farFunction], []⟩) rfl rfl rfl
  refine ⟨hanalyze, rfl, ?_⟩
  obtain ⟨f, x, id, symbol, haccess, hid, hsymbol, -, -, -, hparam⟩ :=
    (Session.displacement_iff (g := {}) hanalyze rfl).1 0 ⟨.byte, .frame 4294967310⟩ rfl
  obtain ⟨rfl, rfl⟩ := Prod.mk.inj (Option.some.inj haccess)
  obtain rfl := Option.some.inj hid
  obtain rfl := Option.some.inj hsymbol
  obtain ⟨i, q, hq, -, hiff, -⟩ := hparam rfl
  obtain ⟨rfl, rfl⟩ : i = 0 ∧ q = ⟨⟨"a", 0, some 1⟩, ⟨.prim .int8, .array [4294967295]⟩, none⟩ := by
    rcases i with _ | i
    · exact ⟨rfl, (Option.some.inj hq).symm⟩
    · exact nomatch hq
  rw [hiff]
  decide

end TreeCompiler

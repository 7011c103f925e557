import Mathlib.Data.List.Nodup
import Mathlib.Data.UInt
import Mathlib.Order.CompletePartialOrder
import Mathlib.Order.Interval.Set.Disjoint
import TreeCompiler.Proofs.Placement

/-!
The frame of a function has exactly the bytes of its locals.

A scope that ends gives nothing back. So the locals lie one behind the other in the order of their
declarations, whatever the scopes are that they stand in, and the frame is what they take, rounded
up to 16. All of it stays far enough below the largest size for 32 bits.
-/

namespace TreeCompiler

/-! ### One behind the other -/

/-- The bytes of a local, counted from the end of the frame down. -/
def Symbol.span (l : Symbol) : Set ℕ := Set.Ico (l.position - l.size) l.position

/-- Each local has the bytes behind those of the local in front of it, the first from `used` on. -/
def Stacked (used : ℕ) : List Symbol → Prop
  | [] => True
  | l :: rest => l.position = used + l.size ∧ Stacked l.position rest

namespace Stacked

variable {used : ℕ} {l : Symbol} {ls : List Symbol}

lemma mem_span_iff {n : ℕ} (h : l.position = used + l.size) :
    n ∈ l.span ↔ used ≤ n ∧ n < l.position := by
  rw [Symbol.span, Set.mem_Ico, h, Nat.add_sub_cancel]

lemma position_append {ls' : List Symbol} (h : Stacked used (ls ++ l :: ls')) :
    l.position = used + (ls.map (·.size)).sum + l.size := by
  induction ls generalizing used with
  | nil => exact h.1
  | cons l' ls ih =>
    have := ih h.2
    rw [List.map_cons, List.sum_cons]
    have := h.1
    omega

/-- The locals cover what they take, without a gap. -/
lemma mem_span_iff_exists (h : Stacked used ls) (n : ℕ) :
    (∃ l ∈ ls, n ∈ l.span) ↔ used ≤ n ∧ n < used + (ls.map (·.size)).sum := by
  induction ls generalizing used with
  | nil => simp
  | cons l ls ih =>
    obtain ⟨hl, hls⟩ := h
    rw [List.exists_mem_cons_iff, mem_span_iff hl, ih hls, List.map_cons, List.sum_cons]
    omega

/-- No two of them share a byte. -/
lemma pairwise (h : Stacked used ls) : ls.Pairwise fun l l' => Disjoint l.span l'.span := by
  induction ls generalizing used with
  | nil => exact .nil
  | cons l ls ih =>
    obtain ⟨hl, hls⟩ := h
    refine .cons (fun l' hl' => Set.disjoint_left.mpr fun n hn hn' => ?_) (ih hls)
    have hbehind := ((mem_span_iff_exists hls n).mp ⟨l', hl', hn'⟩).1
    have hbefore := ((mem_span_iff hl).mp hn).2
    omega

end Stacked

/-! ### The locals of a function -/

/-- The symbol is that of a local variable, with the size of its type. -/
structure Var.Allotted (arena : Arena) (v : Var) (l : Symbol) : Prop where
  symbol : ∃ id, v.name.symbol = some id ∧ arena[id]? = some l
  kind : l.kind = .localVar
  name : l.name = v.name.name
  size : v.ty.size? = some l.size

section Function

variable {opts : Options} {s t : Resolver} {p : Program} {f : FunDecl}

lemma exists_event {es : List Event} {x : Ident} {kind : SymbolKind} {ty : Ty}
    {ds ds' : List (Ident × SymbolKind × Ty)} (h : declarations es = ds ++ (x, kind, ty) :: ds') :
    ∃ pre post, es = pre ++ .declare x kind ty :: post ∧ declarations pre = ds := by
  obtain ⟨front, rest, rfl, hfront, hrest⟩ := List.filterMap_eq_append_iff.mp h
  obtain ⟨mid, e, post, rfl, hmid, he, -⟩ := List.filterMap_eq_cons_iff.mp hrest
  refine ⟨front ++ mid, post, ?_, ?_⟩
  · cases e with
    | declare y k ty' =>
      obtain ⟨rfl, rfl, rfl⟩ : y = x ∧ k = kind ∧ ty' = ty := by simpa [Event.declared?] using he
      rw [List.append_assoc]
    | enter | exit | use | finish => cases he
  · rw [declarations_append, ← hfront, declarations, declarations,
      List.filterMap_eq_nil_iff.mpr hmid, List.append_nil]

/-- A local has the bytes behind those of the locals that are declared before it. -/
lemma Trace.local_placed {vs vs' : List Var} {v : Var} (h : Trace opts .start p.events t)
    (hf : f ∈ p.functions) (hflat : f.Flat) (hvars : Stmt.varsAll f.body = vs ++ v :: vs') :
    ∃ l, v.Allotted t.arena l ∧ l.position = Var.bytesAll vs + l.size := by
  have hinner := FunDecl.declarations_inner hflat
  rw [hvars, List.map_append, List.map_cons, ← List.append_assoc] at hinner
  obtain ⟨pre, post, hsplit, hpre⟩ := exists_event hinner
  obtain ⟨u, w, hu, htrace, hgrows⟩ := h.decl (Program.mem_functions.mp hf)
  obtain ⟨-, id, params, hid, hplaced⟩ := htrace.placed hu hflat hsplit
  obtain ⟨params', hl⟩ := hgrows id _ hplaced
  have hsize := (h.sound Resolver.sound_start).sized id _ hl rfl
  exact ⟨_, ⟨⟨id, hid, hl⟩, rfl, rfl, hsize⟩,
    congrArg (· + v.ty.bytes) (storage_of_declarations hpre).1⟩

/-- The locals are stacked in the order of their declarations. -/
lemma Trace.stacked (h : Trace opts .start p.events t) (hf : f ∈ p.functions) (hflat : f.Flat)
    (vs : List Var) {vs' : List Var} (hvars : Stmt.varsAll f.body = vs ++ vs') :
    ∃ locals, List.Forall₂ (Var.Allotted t.arena) vs' locals ∧
      Stacked (Var.bytesAll vs) locals := by
  induction vs' generalizing vs with
  | nil => exact ⟨[], .nil, trivial⟩
  | cons v vs' ih =>
    obtain ⟨l, hl, hposition⟩ := h.local_placed hf hflat hvars
    obtain ⟨locals, hlocals, hstacked⟩ := ih (vs ++ [v]) (by simp [hvars])
    have hbytes : Var.bytesAll (vs ++ [v]) = l.position := by
      rw [hposition, (Ty.size?_eq hl.size).2]
      simp [Var.bytesAll]
    exact ⟨l :: locals, .cons hl hlocals, hposition, hbytes ▸ hstacked⟩

lemma Var.Allotted.bytesAll {arena : Arena} {vs : List Var} {ls : List Symbol}
    (h : List.Forall₂ (Var.Allotted arena) vs ls) : Var.bytesAll vs = (ls.map (·.size)).sum := by
  induction h with
  | nil => rfl
  | cons hl _ ih => exact congrArg₂ (· + ·) (Ty.size?_eq hl.size).2.symm ih

/-- Each local has a symbol of its own. -/
lemma Trace.locals_nodup (h : Trace opts s f.events t) (hs : s.Sound) (hflat : f.Flat) :
    ((Stmt.varsAll f.body).map (·.name.symbol)).Nodup := by
  obtain ⟨u, v, -, -, hinner, -⟩ := h.function hs
  have hall : ((declarations f.inner).map (·.1.symbol)).Nodup := by
    rw [hinner.symbols.1]
    exact List.Nodup.map (Option.some_injective _) List.nodup_range'
  rw [FunDecl.declarations_inner hflat, List.map_append, List.map_map, List.map_map] at hall
  exact (List.nodup_append.mp hall).2.1

end Function

/-! ### Rounding -/

lemma isLeast_align16 {n : ℕ} (h : n ≤ storageLimit) :
    IsLeast {m | 16 ∣ m ∧ n ≤ m} (align16 n) := by
  refine ⟨⟨Nat.dvd_of_mod_eq_zero (align16_mod n), le_align16 h⟩, ?_⟩
  rintro m ⟨⟨k, rfl⟩, hm⟩
  simp only [align16, storageLimit, maxSize] at *
  omega

/-- The limit is a multiple of 16 itself. -/
lemma align16_le {n : ℕ} (h : n ≤ storageLimit) : align16 n ≤ storageLimit :=
  (isLeast_align16 h).2 ⟨by decide, h⟩

lemma add_fifteen_le {n : ℕ} (h : n ≤ storageLimit) : n + 15 ≤ maxSize := by
  rw [storageLimit] at h
  rw [maxSize]
  omega

/-! ### In 32 bits -/

lemma toNat_add_of_le {m n : ℕ} (h : m + n ≤ maxSize) :
    (UInt32.ofNat m + UInt32.ofNat n).toNat = m + n := by
  rw [maxSize] at h
  rw [UInt32.toNat_add, UInt32.toNat_ofNat', UInt32.toNat_ofNat']
  omega

/-- To clear the last four bits is to round down. -/
lemma toNat_and_not_fifteen (x : UInt32) : (x &&& ~~~15).toNat = x.toNat / 16 * 16 := by
  have hmask : ~~~(15 : BitVec 32) = BitVec.allOnes 32 <<< 4 := rfl
  have hshift : x.toBitVec &&& ~~~(15 : BitVec 32) = x.toBitVec >>> 4 <<< 4 := by
    rw [hmask]
    ext i hi
    simp only [BitVec.getElem_and, BitVec.getElem_shiftLeft, BitVec.getElem_allOnes,
      BitVec.getElem_ushiftRight]
    by_cases hlow : i < 4
    · simp [hlow]
    · simp [hlow, show 4 + (i - 4) = i by omega, BitVec.getLsbD_eq_getElem hi]
  have hlt := x.toNat_lt
  calc (x &&& ~~~15).toNat = (x.toBitVec >>> 4 <<< 4).toNat := congrArg BitVec.toNat hshift
    _ = x.toNat / 16 * 16 := by
      rw [BitVec.toNat_shiftLeft, BitVec.toNat_ushiftRight, UInt32.toNat_toBitVec,
        Nat.shiftLeft_eq, Nat.shiftRight_eq_div_pow]
      omega

lemma toNat_align16 {n : ℕ} (h : n ≤ storageLimit) :
    ((UInt32.ofNat n + 15) &&& ~~~15).toNat = align16 n := by
  have hle := add_fifteen_le h
  have hsum : (UInt32.ofNat n + 15).toNat = n + 15 := toNat_add_of_le hle
  rw [toNat_and_not_fifteen, hsum, align16, Nat.min_eq_left hle]

/-! ### Frames -/

/-- **The frame of a function is exact**: take any function of a program whose names are resolved
from a fresh start without a report, whatever the options. Each local that is declared anywhere in
its body has a symbol of its own, with the size of its type. No two of them share a byte, and
together they have all bytes up to the size of all variables, which is the sum of their sizes and
within the limit. The frame is the least multiple of 16 that has room for them, and within the limit
too. In 32 bits, the sum for each local and the rounding give the same numbers. -/
theorem Session.frame_exact {s : Session} {p : Program} {a : Analysis} {f : FunDecl}
    (hresolve : s.reset.resolve p = .ok a) (herrors : a.errors = [])
    (hf : f ∈ a.program.functions) : ∃ locals : List Symbol,
      List.Forall₂ (Var.Allotted a.session.arena) (Stmt.varsAll f.body) locals ∧
      ((Stmt.varsAll f.body).map (·.name.symbol)).Nodup ∧
      (∀ l ∈ locals, l.size ≤ l.position) ∧
      locals.Pairwise (fun l l' => Disjoint l.span l'.span) ∧
      {n | ∃ l ∈ locals, n ∈ l.span} = Set.Ico 0 f.variableSize ∧
      f.variableSize = (locals.map (·.size)).sum ∧ f.variableSize ≤ storageLimit ∧
      IsLeast {n | 16 ∣ n ∧ f.variableSize ≤ n} f.frameSize ∧ f.frameSize ≤ storageLimit ∧
      (∀ ls l ls', locals = ls ++ l :: ls' → l.position = (ls.map (·.size)).sum + l.size ∧
        (UInt32.ofNat (ls.map (·.size)).sum + UInt32.ofNat l.size).toNat = l.position) ∧
      f.variableSize + 15 ≤ maxSize ∧
      ((UInt32.ofNat f.variableSize + 15) &&& ~~~15).toNat = f.frameSize := by
  obtain ⟨t, hrun, ht, hsession⟩ := Session.resolve_eq_ok hresolve
  obtain ⟨u, hwalk, rfl, hflat⟩ := Program.run_resolve hrun (ht.symm.trans herrors)
  replace hflat := hflat f hf
  have harena : a.session.arena = u.arena := by rw [hsession]
  obtain ⟨v, w, hv, htrace, -⟩ := hwalk.trace.decl (Program.mem_functions.mp hf)
  have hlimit := htrace.variableSize_le hv
  obtain ⟨locals, hlocals, hstacked⟩ := hwalk.trace.stacked hf hflat [] rfl
  replace hstacked : Stacked 0 locals := hstacked
  have hsum : f.variableSize = (locals.map (·.size)).sum := by
    rw [(htrace.frame_eq hv hflat).1, FunDecl.storage_localVar hflat,
      Var.Allotted.bytesAll hlocals]
  have hposition : ∀ ls l ls', locals = ls ++ l :: ls' →
      l.position = (ls.map (·.size)).sum + l.size := by
    rintro ls l ls' rfl
    rw [hstacked.position_append, Nat.zero_add]
  refine ⟨locals, harena ▸ hlocals, htrace.locals_nodup hv hflat, fun l hl => ?_,
    hstacked.pairwise, ?_, hsum, hlimit, isLeast_align16 hlimit, align16_le hlimit,
    fun ls l ls' hls => ⟨hposition ls l ls' hls, ?_⟩, add_fifteen_le hlimit,
    toNat_align16 hlimit⟩
  · obtain ⟨ls, ls', hls⟩ := List.append_of_mem hl
    rw [hposition ls l ls' hls]
    exact Nat.le_add_left ..
  · ext n
    rw [Set.mem_ofPred_eq, hstacked.mem_span_iff_exists, Set.mem_Ico, hsum, Nat.zero_add]
  · rw [hposition ls l ls' hls]
    refine toNat_add_of_le (Nat.le_trans ?_ (Nat.le_of_add_right_le (add_fifteen_le hlimit)))
    rw [hsum, hls, List.map_append, List.sum_append, List.map_cons, List.sum_cons]
    omega

/-- A function whose locals share one name, in the same scope, in a nested one and in a loop, with
another local in a sibling scope. -/
def scopesFunction : FunDecl where
  name := ⟨"main", 0, none⟩
  params := []
  returns := none
  body := [.decl (.localVar ⟨⟨"a", 0, none⟩, .int, none⟩),
    .cond ⟨.bool true, [.decl (.localVar ⟨⟨"a", 0, none⟩, ⟨.prim .int8, .array [3]⟩, none⟩)],
      .otherwise [.decl (.localVar ⟨⟨"b", 0, none⟩, .bool, none⟩)]⟩,
    .forLoop (some (.localVar ⟨⟨"a", 0, none⟩, ⟨.prim .int16, .plain⟩, none⟩)) (.bool false) none
      [.decl (.localVar ⟨⟨"a", 0, none⟩, .int, none⟩)],
    .decl (.localVar ⟨⟨"a", 0, none⟩, ⟨.prim .int32, .plain⟩, none⟩)]

/-- Six locals in 26 bytes, each byte of which belongs to one of them. -/
theorem Session.frame_scopes : ∃ a f, Session.resolve { options := ⟨false, true⟩ }
      [.function scopesFunction] = .ok a ∧ a.errors = [] ∧ a.program.functions = [f] ∧
    ∃ locals : List Symbol, locals.length = 6 ∧ (∀ n < 26, ∃ l ∈ locals, n ∈ l.span) ∧
      locals.Pairwise (fun l l' => Disjoint l.span l'.span) ∧ (locals.map (·.size)).sum = 26 ∧
      f.frameSize = 32 := by
  have hrun : (Session.resolve { options := ⟨false, true⟩ }
      [.function scopesFunction]).toOption.any (fun a => a.errors = [] ∧
        a.program.functions.map (fun f => ((Stmt.varsAll f.body).length, f.variableSize)) =
          [(6, 26)]) = true := by
    decide +kernel
  obtain ⟨a, hresolve, herrors, hfunctions⟩ := exists_ok_of_any hrun
  obtain ⟨f, hf, hsizes⟩ := List.map_eq_singleton_iff.mp hfunctions
  obtain ⟨hlength, hsize⟩ := Prod.mk.inj hsizes
  obtain ⟨locals, hlocals, -, -, hapart, hcover, hsum, -⟩ :=
    Session.frame_exact (s := { options := ⟨false, true⟩ }) hresolve herrors
      (hf ▸ List.mem_singleton_self f)
  refine ⟨a, f, hresolve, herrors, hf, locals, ?_, fun n hn => ?_, hapart, ?_, ?_⟩
  · rw [← hlocals.length_eq, hlength]
  · exact hcover.ge ⟨Nat.zero_le n, hsize ▸ hn⟩
  · rw [← hsum, hsize]
  · rw [FunDecl.frameSize, hsize]
    rfl

end TreeCompiler

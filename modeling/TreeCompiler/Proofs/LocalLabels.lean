import Mathlib.Data.List.Perm.Basic
import Mathlib.Data.List.Nodup
import TreeCompiler.Proofs.UnitText

/-!
Labels are local to routines.

A label belongs to the last symbol that is defined in front of it, so a jump is understood only if
its label is defined between the symbol of its routine and the next symbol. Labels are numbered
through the whole unit, and every label that is issued is placed once, in the routine it was issued
for.
-/

namespace TreeCompiler

/-! ### Labels and symbols of a text -/

/-- The label that a line defines. -/
def Line.label? : Line → Option Label
  | .label l => some l
  | _ => none

/-- The symbol that a line defines. It ends the scope of the labels in front of it. -/
def Line.symbol? : Line → Option String
  | .routine x => some x
  | .reserve x _ => some x
  | .format => some formatSymbol
  | _ => none

/-- The labels that a text defines. -/
def labelsOf (text : List Line) : List Label := text.filterMap Line.label?

lemma mem_labelsOf {text : List Line} {l : Label} : l ∈ labelsOf text ↔ .label l ∈ text := by
  rw [labelsOf, List.mem_filterMap]
  constructor
  · rintro ⟨line, hline, hl⟩
    cases line with
    | label l' =>
      obtain rfl := Option.some.inj hl
      exact hline
    | instr | blank | segment | relativeAddresses | external | exported | routine | reserve
      | format => cases hl
  · exact fun hl => ⟨.label l, hl, rfl⟩

lemma count_labelsOf (text : List Line) (l : Label) :
    (labelsOf text).count l = text.count (.label l) := by
  rw [labelsOf, List.count, List.countP_filterMap, List.count]
  refine List.countP_congr fun line _ => ?_
  cases line <;> simp [Line.label?]

lemma Label.name_injective : Function.Injective Label.name := by
  rintro ⟨m⟩ ⟨n⟩ h
  have hrepr : m.repr = n.repr := (String.append_right_inj _).mp h
  have hdigits : Nat.toDigits 10 m = Nat.toDigits 10 n := by
    rw [← Nat.toList_repr, hrepr, Nat.toList_repr]
  rw [← Nat.ofDigitChars_ten_toDigits (n := m), hdigits, Nat.ofDigitChars_ten_toDigits]

lemma Fresh.labels_nodup {g g' : GenState} {text : List Line} (h : Fresh g text g') :
    (labelsOf text).Nodup :=
  List.nodup_iff_count_le_one.mpr fun l => by rw [count_labelsOf]; exact h.once l.id

/-- A text with labels of its own that has all that were issued. -/
lemma Fresh.labels_perm {g g' : GenState} {text : List Line} (h : Fresh g text g')
    (hplaced : ∀ n < g'.labels, .label ⟨n⟩ ∈ text) :
    (labelsOf text).Perm ((List.range g'.labels).map Label.mk) := by
  have hrange : ((List.range g'.labels).map Label.mk).Nodup :=
    List.nodup_range.map fun m n hmn => (Label.mk.inj hmn)
  refine (List.perm_ext_iff_of_nodup h.labels_nodup hrange).mpr fun ⟨n⟩ => ?_
  rw [mem_labelsOf, List.mem_map]
  constructor
  · intro hn
    exact ⟨n, List.mem_range.mpr (h.issued (List.count_pos_iff.mpr hn)).2, rfl⟩
  · rintro ⟨m, hm, hmn⟩
    obtain rfl := Label.mk.inj hmn
    exact hplaced m (List.mem_range.mp hm)

/-! ### Scopes -/

/-- The symbol in whose scope the next line is. -/
def scopeBehind (text : List Line) : Option String := (text.filterMap Line.symbol?).getLast?

/-- Every jump finds its label in its own scope. -/
def Resolves (text : List Line) : Prop :=
  ∀ pre line post l, text = pre ++ line :: post → line.target? = some l →
    ∃ pre' post', text = pre' ++ .label l :: post' ∧ scopeBehind pre' = scopeBehind pre

section Scopes

variable {t u text : List Line}

lemma scopeBehind_append : scopeBehind (t ++ u) = (scopeBehind u).or (scopeBehind t) := by
  rw [scopeBehind, List.filterMap_append, List.getLast?_append]
  rfl

lemma scopeBehind_eq_none (h : ∀ line ∈ text, line.symbol? = none) : scopeBehind text = none := by
  rw [scopeBehind, List.filterMap_eq_nil_iff.mpr h]
  rfl

lemma resolves_of_target? (h : ∀ line ∈ text, line.target? = none) : Resolves text := by
  rintro pre line post l rfl hl
  rw [h line (by simp)] at hl
  cases hl

lemma Resolves.append (ht : Resolves t) (hu : Resolves u) : Resolves (t ++ u) := by
  intro pre line post l hsplit hl
  rcases append_eq_split hsplit with ⟨mid, hline⟩ | ⟨mid, rfl, hline⟩
  · obtain ⟨pre', post', rfl, hscope⟩ := ht pre line mid l hline hl
    exact ⟨pre', post' ++ u, by simp, hscope⟩
  · obtain ⟨pre', post', rfl, hscope⟩ := hu mid line post l hline hl
    exact ⟨t ++ pre', post', by simp, by rw [scopeBehind_append, scopeBehind_append, hscope]⟩

lemma resolves_flatMap {α : Type} {f : α → List Line} :
    (xs : List α) → (∀ x ∈ xs, Resolves (f x)) → Resolves (xs.flatMap f)
  | [], _ => resolves_of_target? (by simp)
  | x :: xs, h => by
    obtain ⟨hx, hxs⟩ := List.forall_mem_cons.mp h
    exact hx.append (resolves_flatMap xs hxs)

/-- The scope of one symbol, with the labels of all of its jumps. -/
lemma resolves_of_scope (hsymbol : ∀ line ∈ text, line.symbol? = none)
    (hlabel : ∀ line ∈ text, ∀ l, line.target? = some l → .label l ∈ text) (hhead : Resolves t) :
    Resolves (t ++ text) := by
  refine hhead.append ?_
  rintro pre line post l rfl hl
  obtain ⟨pre', post', hsplit⟩ := List.append_of_mem (hlabel line (by simp) l hl)
  refine ⟨pre', post', hsplit, ?_⟩
  rw [scopeBehind_eq_none fun line' h => hsymbol line' (List.mem_append_left _ h),
    scopeBehind_eq_none fun line' h => hsymbol line' (hsplit ▸ List.mem_append_left _ h)]

end Scopes

/-! ### Routines -/

variable {arena : Arena} {globals : List Var}

/-- The line is code: an instruction, or a label. -/
def Line.isCode : Line → Bool
  | .label _ | .instr _ => true
  | _ => false

lemma Line.symbol?_of_isCode {line : Line} (h : line.isCode = true) : line.symbol? = none := by
  cases line with
  | label | instr => rfl
  | blank | segment | relativeAddresses | external | exported | routine | reserve
  | format => cases h

lemma Line.isCode_of_plain {line : Line} (h : line.plain = true) : line.isCode = true := by
  cases line with
  | label | instr => rfl
  | blank | segment | relativeAddresses | external | exported | routine | reserve
  | format => cases h

lemma isCode_openFrame (n : ℕ) : ∀ line ∈ openFrame n, line.isCode = true := by
  rw [openFrame]
  split <;> simp [Line.isCode]

lemma FunDecl.isCode_epilogue (f : FunDecl) : ∀ line ∈ f.epilogue, line.isCode = true := by
  rw [epilogue, closeFrame, leaveProcess]
  split <;> split <;> simp [Line.isCode]

namespace Routine.Generated

variable {r : Routine} {g' : GenState}

/-- There is only code behind the symbol of a routine. -/
lemma isCode_inner (h : r.Generated arena globals g') : ∀ line ∈ r.inner, line.isCode = true := by
  intro line hline
  rcases List.mem_append.mp hline with hopen | hrest
  · exact isCode_openFrame _ _ hopen
  · rcases List.mem_append.mp hrest with hbody | hrest
    · exact Line.isCode_of_plain (h.level.plain (List.mem_append_left _ hbody))
    · rcases List.mem_cons.mp hrest with rfl | hclose
      · rfl
      · exact FunDecl.isCode_epilogue _ _ hclose

/-- All of a routine is in the scope of its symbol. -/
lemma symbol?_inner (h : r.Generated arena globals g') : ∀ line ∈ r.inner, line.symbol? = none :=
  fun line hline => Line.symbol?_of_isCode (h.isCode_inner line hline)

lemma mem_inner {line : Line} (hline : line ∈ r.body ++ [.label r.exit]) : line ∈ r.inner := by
  refine List.mem_append_right _ ?_
  rcases List.mem_append.mp hline with hline | hline
  · exact List.mem_append_left _ hline
  · rw [List.mem_singleton.mp hline]
    exact List.mem_append_right _ (List.mem_cons_self ..)

/-- A jump in a routine goes to a label in the routine. -/
lemma mem_of_target? (h : r.Generated arena globals g') {line : Line} {l : Label}
    (hline : line ∈ r.inner) (hl : line.target? = some l) : .label l ∈ r.inner := by
  have hbody := List.mem_append_left [.label r.exit] (mem_body_of_target? hline hl)
  obtain ⟨n, hstands⟩ := exists_stands hbody
  exact mem_inner ((h.level.jumps hl hstands).resolve_right (by simp)).mem

lemma resolves (h : r.Generated arena globals g') : Resolves r.text := by
  have hhead : Resolves [.blank, .routine (functionSymbol r.fn.name.name)] :=
    resolves_of_target? (by simp [Line.target?])
  exact resolves_of_scope h.symbol?_inner (fun line hline l hl => h.mem_of_target? hline hl) hhead

end Routine.Generated

/-- Routines have labels of their own, and all labels that are issued for them. -/
lemma FunDecl.fresh_all : (fs : List FunDecl) →
    ∀ {g g' : GenState} {text : List Line} {u : Unit},
    (FunDecl.lowerAll arena globals fs).Yields g text g' u → Fresh g text g' ∧
      ∀ n, g.labels ≤ n → n < g'.labels → .label ⟨n⟩ ∈ text
  | [], _, _, _, _, h => by
    obtain ⟨rfl, rfl, -⟩ := Gen.yields_pure.mp h
    exact ⟨.silent rfl (by simp), fun n hlow hhigh => absurd hlow (Nat.not_le.mpr hhigh)⟩
  | f :: fs, g, g', _, _, h => by
    obtain ⟨_, g₁, _, t, hfirst, hrest, rfl⟩ := Gen.yields_bind.mp h
    obtain ⟨hfresh, hplaced⟩ := FunDecl.fresh_all fs hrest
    obtain ⟨r, rfl, rfl, rfl, hr⟩ := FunDecl.exists_routine hfirst
    refine ⟨(FunDecl.fresh hfirst).append hfresh, fun n hlow hhigh => ?_⟩
    rcases Nat.lt_or_ge n g₁.labels with hn | hn
    · have hmem := Routine.Generated.mem_inner (hr.level.placed hlow hn)
      exact List.mem_append_left _ (List.mem_cons_of_mem _ (List.mem_cons_of_mem _ hmem))
    · exact List.mem_append_right _ (hplaced n hn hhigh)

/-! ### Units -/

/-- The lines of a unit that belong to no function have neither labels nor jumps. -/
lemma inert_prelude : ∀ line ∈ preludeLines, line.label? = none ∧ line.target? = none := by decide

lemma inert_dataLines : ∀ line ∈ dataLines, line.label? = none ∧ line.target? = none := by decide

lemma inert_reserveLines (arena : Arena) :
    ∀ line ∈ reserveLines arena, line.label? = none ∧ line.target? = none := by
  rw [reserveLines]
  split
  · nofun
  · refine List.forall_mem_append.mpr ⟨by decide, ?_⟩
    rintro line hline
    obtain ⟨symbol, -, rfl⟩ := List.mem_map.mp hline
    exact ⟨rfl, rfl⟩

lemma Line.not_mem_of_inert {text : List Line}
    (h : ∀ line ∈ text, line.label? = none ∧ line.target? = none) (l : Label) :
    .label l ∉ text := fun hl => nomatch (h _ hl).1

lemma Program.fresh {p : Program} {g g' : GenState} {text : List Line} {u : Unit}
    (h : (p.lower arena).Yields g text g' u) : Fresh g text g' ∧
      ∀ n, g.labels ≤ n → n < g'.labels → .label ⟨n⟩ ∈ text := by
  obtain ⟨t, hfunctions, rfl⟩ := Program.yields_lower h
  obtain ⟨hfresh, hplaced⟩ := FunDecl.fresh_all _ hfunctions
  have hlast : ∀ l, .label l ∉ reserveLines arena ++ dataLines := fun l hl =>
    (List.mem_append.mp hl).elim (Line.not_mem_of_inert (inert_reserveLines arena) l)
      (Line.not_mem_of_inert inert_dataLines l)
  exact ⟨.silent_append (Line.not_mem_of_inert inert_prelude) (hfresh.append_silent hlast),
    fun n hlow hhigh => List.mem_append_right _ (List.mem_append_left _ (hplaced n hlow hhigh))⟩

/-- The labels of a unit are those that were issued for it, and every jump of a function goes to a
label of the same function, whatever the names of functions and variables are. -/
theorem Session.labels_closed {s : Session} {p : Program} {room : Option ℕ} {out : Emission}
    (h : s.emit room p = .ok out) (hout : out.error = none) (hlabels : s.labels = 0) :
    out.output = textBytes (s.unit p) ∧
    ((labelsOf (s.unit p)).map Label.name).Perm
      ((List.range out.session.labels).map fun n => ".L" ++ toString n) ∧
    ((labelsOf (s.unit p)).map Label.name).Nodup ∧
    (∃ rs : List Routine, rs.map (·.fn) = p.functions ∧
      s.unit p = preludeLines ++ (rs.flatMap Routine.text ++ (reserveLines s.arena ++ dataLines)) ∧
      (∀ line ∈ preludeLines ++ (reserveLines s.arena ++ dataLines), line.target? = none) ∧
      ∀ r ∈ rs, (∀ line ∈ r.inner, line.symbol? = none) ∧
        ∀ line ∈ r.inner, ∀ l, line.target? = some l → .label l ∈ r.inner) ∧
    Resolves (s.unit p) := by
  obtain ⟨g', hyields, rfl⟩ := emit_eq_ok h hout
  obtain ⟨hfresh, hplaced⟩ := Program.fresh hyields
  have hperm := hfresh.labels_perm fun n hn => hplaced n (hlabels ▸ Nat.zero_le n) hn
  have hnames : ((labelsOf (s.unit p)).map Label.name).Perm
      ((List.range g'.labels).map fun n => ".L" ++ toString n) := by
    simpa [Function.comp_def, Label.name] using hperm.map Label.name
  have hnodup : ((labelsOf (s.unit p)).map Label.name).Nodup :=
    hfresh.labels_nodup.map Label.name_injective
  obtain ⟨rs, hfns, hunit, hrs⟩ := Program.exists_routines hyields
  have hinert : ∀ line ∈ preludeLines ++ (reserveLines s.arena ++ dataLines),
      line.target? = none := by
    intro line hline
    rcases List.mem_append.mp hline with hline | hline
    · exact (inert_prelude line hline).2
    · rcases List.mem_append.mp hline with hline | hline
      · exact (inert_reserveLines s.arena line hline).2
      · exact (inert_dataLines line hline).2
  dsimp only
  refine ⟨rfl, hnames, hnodup, ⟨rs, hfns, hunit, hinert, fun r hr => ?_⟩, ?_⟩
  · obtain ⟨_, _, _, -, hgenerated, -⟩ := hrs r hr
    exact ⟨hgenerated.symbol?_inner, fun line hline l hl => hgenerated.mem_of_target? hline hl⟩
  · have hroutines : Resolves (rs.flatMap Routine.text) := resolves_flatMap rs fun r hr =>
      have ⟨_, _, _, _, hgenerated, _⟩ := hrs r hr
      hgenerated.resolves
    obtain ⟨hprelude, htail⟩ := List.forall_mem_append.mp hinert
    rw [hunit]
    exact (resolves_of_target? hprelude).append (hroutines.append (resolves_of_target? htail))

/-- Two functions with a chain of branches in a loop, and a loop around a comparison. -/
def chainProgram : Program := [
  .function { name := ⟨"main", 0, none⟩, params := [], returns := none, body := [
    .whileLoop (.binary (.compare .lt) (.int 1) (.int 2)) [
      .cond ⟨.binary (.compare .eq) (.int 3) (.int 4), [.ret none],
        .elseIf ⟨.bool true, [.expr (.int 5)], .otherwise [.ret (some (.int 6))]⟩⟩]] },
  .function { name := ⟨"f", 0, none⟩, params := [], returns := none, body := [
    .forLoop none (.binary (.compare .ne) (.int 7) (.int 8)) (some (.int 9)) [.ret none]] }]

theorem Session.labels_chain : ∃ out, Session.emit {} none chainProgram = .ok out ∧
    out.error = none ∧ ((labelsOf (Session.unit {} chainProgram)).map Label.name).Perm
      [".L0", ".L1", ".L2", ".L3", ".L4", ".L5", ".L6", ".L7", ".L8", ".L9", ".L10", ".L11"] ∧
    Resolves (Session.unit {} chainProgram) := by
  have hresult : (chainProgram.lower #[] { labels := 0, bank := {} }).result = .ok () := by
    decide +kernel
  have hissued : (chainProgram.lower #[] { labels := 0, bank := {} }).state.labels = 12 := by
    decide +kernel
  have hemit : Session.emit {} none chainProgram = .ok _ :=
    emit_of_yields (Gen.yields_of_result hresult)
  obtain ⟨-, hlabels, -, -, hresolves⟩ := Session.labels_closed hemit rfl rfl
  dsimp only at hlabels
  rw [hissued] at hlabels
  exact ⟨_, hemit, rfl, hlabels, hresolves⟩

end TreeCompiler

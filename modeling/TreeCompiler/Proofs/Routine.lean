import TreeCompiler.Proofs.Accepted
import TreeCompiler.Proofs.Emission
import TreeCompiler.Proofs.StmtSimulation

/-!
Functions as routines of a unit.

A routine opens its frame, runs its body, and closes the frame on one common way out. In a unit
every routine has labels of its own, so its jumps stay inside of it. Put together with the code
of statements, each routine of an accepted program does what its function does.
-/

namespace TreeCompiler

variable {arena : Arena} {globals : List Var} {f : FunDecl} {g g' : GenState}
  {text : List Line} {u : Unit}

/-! ### The text of a routine -/

/-- What a routine does on its way to the exit if no `return` was met. -/
def FunDecl.fallsOff (f : FunDecl) : List Line := if f.isEntry then [.instr .clearResult] else []

/-- The lines behind the exit label of a routine. -/
def FunDecl.epilogue (f : FunDecl) : List Line :=
  closeFrame f.frameSize ++ if f.isEntry then leaveProcess else [.instr .ret]

/-- All routines have one shape, the entry point has more to do in two places. -/
lemma FunDecl.lower_eq (f : FunDecl) : f.lower arena globals = (do
    Gen.emitAll (.blank :: .routine (functionSymbol f.name.name) :: openFrame f.frameSize)
    let exit ← Gen.freshLabel
    Gen.setDepth 0
    Var.lowerAll arena (f.preset globals)
    Stmt.lowerAll arena exit f.body
    Gen.emitAll (f.fallsOff ++ .label exit :: f.epilogue)) := by
  have happend : ∀ a b : List Line, Gen.emitAll (a ++ b) = (do Gen.emitAll a; Gen.emitAll b) := by
    intro a b
    induction a with
    | nil => simp [Gen.emitAll]
    | cons l rest ih => simp [Gen.emitAll, ih]
  rw [lower, preset, fallsOff, epilogue]
  split <;> simp [Gen.emitAll, happend, Gen.instr, Var.lowerAll]

lemma FunDecl.yields_lower (h : (f.lower arena globals).Yields g text g' u) :
    ∃ t₁ g₁ t₂, (Var.lowerAll arena (f.preset globals)).Yields
        { g with labels := g.labels + 1, depth := 0 } t₁ g₁ () ∧
      (Stmt.lowerAll arena ⟨g.labels⟩ f.body).Yields g₁ t₂ g' () ∧
      text = .blank :: .routine (functionSymbol f.name.name) :: (openFrame f.frameSize ++
        (t₁ ++ (t₂ ++ (f.fallsOff ++ .label ⟨g.labels⟩ :: f.epilogue)))) := by
  rw [FunDecl.lower_eq] at h
  obtain ⟨_, _, _, _, hopen, hopened, rfl⟩ := Gen.yields_bind.mp h
  obtain ⟨rfl, rfl⟩ := Gen.yields_emitAll.mp hopen
  rw [Gen.yields_freshLabel_bind, Gen.yields_setDepth_bind] at hopened
  obtain ⟨t₁, g₁, _, _, hpreset, hrest, rfl⟩ := Gen.yields_bind.mp hopened
  obtain ⟨t₂, g₂, _, _, hbody, hclose, rfl⟩ := Gen.yields_bind.mp hrest
  obtain ⟨rfl, rfl⟩ := Gen.yields_emitAll.mp hclose
  exact ⟨t₁, g₁, t₂, hpreset, hbody, rfl⟩

lemma Var.fresh_all : (vs : List Var) → ∀ {g g' : GenState} {text : List Line} {u : Unit},
    (Var.lowerAll arena vs).Yields g text g' u → Fresh g text g'
  | [], _, _, _, _, h => by
    obtain ⟨rfl, rfl, -⟩ := Gen.yields_pure.mp h
    exact .silent rfl (by simp)
  | v :: rest, _, _, _, _, h => by
    obtain ⟨_, _, _, _, hv, hrest, rfl⟩ := Gen.yields_bind.mp h
    exact (Var.fresh hv).append (Var.fresh_all rest hrest)

lemma label_not_mem_openFrame (l : Label) (n : ℕ) : Line.label l ∉ openFrame n := by
  rw [openFrame]
  split <;> simp

lemma FunDecl.label_not_mem_epilogue (f : FunDecl) (l : Label) : Line.label l ∉ f.epilogue := by
  rw [epilogue, closeFrame, leaveProcess]
  split <;> split <;> simp

/-- A routine places labels of its own. -/
lemma FunDecl.fresh (h : (f.lower arena globals).Yields g text g' u) : Fresh g text g' := by
  obtain ⟨t₁, g₁, t₂, hpreset, hbody, rfl⟩ := FunDecl.yields_lower h
  have hfall : ∀ l, Line.label l ∉ f.fallsOff := by
    intro l
    rw [fallsOff]
    split <;> simp
  have hinner := (Var.fresh_all _ hpreset).append
    ((Stmt.freshAll f.body hbody).append_silent (u := f.fallsOff ++ f.epilogue) fun l hl => by
      rcases List.mem_append.mp hl with hl | hl
      · exact hfall l hl
      · exact f.label_not_mem_epilogue l hl)
  have hplaced : Fresh g ((t₁ ++ (t₂ ++ f.fallsOff)) ++ .label ⟨g.labels⟩ :: f.epilogue) g' :=
    Fresh.place (by simpa using hinner) rfl
  have hopen := hplaced.silent_append
    (t := .blank :: .routine (functionSymbol f.name.name) :: openFrame f.frameSize)
    (fun l hl => label_not_mem_openFrame l f.frameSize (by simpa using hl))
  simpa using hopen

/-- The routine of each function stands in the text, behind text with other labels. -/
lemma FunDecl.yields_mem : (fs : List FunDecl) → f ∈ fs →
    ∀ {g g' : GenState} {text : List Line} {u : Unit},
    (FunDecl.lowerAll arena globals fs).Yields g text g' u →
    ∃ before g₁ t g₂ after, Fresh g before g₁ ∧ (f.lower arena globals).Yields g₁ t g₂ () ∧
      text = before ++ (t ++ after)
  | f' :: rest, hf, g, _, _, _, h => by
    obtain ⟨t, g₁, _, _, hfirst, hrest, rfl⟩ := Gen.yields_bind.mp h
    rcases List.mem_cons.mp hf with rfl | hf
    · exact ⟨[], g, t, g₁, _, .silent rfl (by simp), hfirst, rfl⟩
    · obtain ⟨before, g₂, t', g₃, after, hfresh, hmem, rfl⟩ := FunDecl.yields_mem rest hf hrest
      exact ⟨t ++ before, g₂, t', g₃, after, (FunDecl.fresh hfirst).append hfresh, hmem, by simp⟩

/-! ### In and out -/

/-- The memory with which a function starts when its routine is entered: the frame pointer of the
caller is pushed, and the frame lies below it. -/
def Machine.entryView (M : Machine) (frame : ℕ) : Memory :=
  (M.push (M.get .rbp)).mem ∘ Cell.based (M.rsp - 8 - frame)

/-- Where a routine ends: at a `ret`, with the stack pointer at `sp`, or for the entry point at
the end of the process. -/
def FunDecl.AtEnd (f : FunDecl) (sp : ℤ) (M : Machine) : Prop :=
  if f.isEntry then (∃ rest, M.text = .instr (.callExternal "exit") :: rest) ∧ M.rsp % 16 = 0
  else (∃ rest, M.text = .instr .ret :: rest) ∧ M.rsp = sp

/-- The word that is there as the result: in `rax`, or in the argument of `exit`. -/
def FunDecl.output (f : FunDecl) (M : Machine) : Word := if f.isEntry then M.rdi else M.rax

namespace Host

variable {h : Host} {M M' N : Machine} {rest : List Line} {m m₁ m' : Memory} {o : Ending} {n : ℕ}

lemma reaches_routine {x : String} (ht : M.text = .routine x :: rest) :
    h.Reaches M { M with text := rest } := by
  apply Relation.ReflTransGen.single
  rw [step, ht]

lemma reaches_openFrame (ht : M.text = openFrame n ++ rest) :
    ∃ N, h.Reaches M N ∧ N.text = rest ∧ N.rsp = N.rbp - n ∧ N.rbp = M.rsp - 8 ∧
      N.mem = (M.push (M.get .rbp)).mem := by
  rw [openFrame, List.append_assoc] at ht
  have hpushed : h.Reaches M { M.push (M.get .rbp) with
      text := (if n = 0 then [] else [.instr (.lowerStack n)]) ++ rest
      rbp := M.rsp - 8 } := (reaches_instr ht rfl).instr rfl rfl
  by_cases hn : n = 0
  · subst hn
    exact ⟨_, hpushed, rfl, (Int.sub_zero _).symm, rfl, rfl⟩
  · have hlowered : h.Reaches M { M.push (M.get .rbp) with
        text := rest
        rsp := M.rsp - 8 - n
        rbp := M.rsp - 8
        flags := none } := hpushed.instr (by rw [if_neg hn]; rfl) rfl
    exact ⟨_, hlowered, rfl, rfl, rfl, rfl⟩

lemma reaches_closeFrame (ht : M.text = closeFrame n ++ rest) (hsp : M.rsp = M.rbp - n) :
    ∃ N, h.Reaches M N ∧ N.text = rest ∧ N.rsp = M.rbp + 8 ∧
      N.rbp = (wordAt M.mem M.rbp).toInt ∧ N.mem = M.mem ∧ N.rax = M.rax := by
  rw [closeFrame, List.append_assoc] at ht
  by_cases hn : n = 0
  · subst hn
    have hbase : M.rsp = M.rbp := by simpa using hsp
    refine ⟨_, reaches_instr ht rfl, rfl, ?_, ?_, rfl, rfl⟩
    · simp only [Machine.set, hbase]
    · simp only [Machine.set, hbase]
  · rw [if_neg hn] at ht
    have hbase : M.rsp + n = M.rbp := by omega
    refine ⟨_, (reaches_instr ht rfl).instr rfl rfl, rfl, ?_, ?_, rfl, rfl⟩
    · simp only [Machine.set, hbase]
    · simp only [Machine.set, hbase]

lemma carries_initAll {after : List Line} : (vs : List Var) →
    (∀ e ∈ vs.flatMap Var.exprs, e.Ready h.env.arena h.env.frame) →
    (∀ w ∈ vs, w.name.Within h.env.arena h.env.frame) →
    ∀ {g g' : GenState} {text rest : List Line} {m m' : Memory},
    (Var.lowerAll h.env.arena vs).Yields g text g' () → h.Hosts text rest →
    Var.initAll h.env vs m = some m' → h.Carries after m .normal m' (text ++ rest) rest
  | [], _, _, g, g', text, rest, m, m', hy, _, hinit => by
    obtain ⟨rfl, -, -⟩ := Gen.yields_pure.mp hy
    obtain rfl := Option.some.inj hinit
    exact carries_refl
  | v :: vs, he, hw, g, g', text, rest, m, m', hy, hosts, hinit => by
    obtain ⟨t, g₁, _, _, hyv, hyvs, rfl⟩ := Gen.yields_bind.mp hy
    obtain ⟨m₁, hinitv, hinitvs⟩ := Option.bind_eq_some_iff.mp hinit
    rw [List.flatMap_cons] at he
    rw [List.append_assoc]
    have hfirst : h.Carries after m .normal m₁ _ _ :=
      carries_var (fun e hmem => he e (List.mem_append_left _ hmem)) (hw v (List.mem_cons_self ..))
        hyv hosts.left hinitv
    have hrest : h.Carries after m₁ .normal m' _ _ :=
      carries_initAll vs (fun e hmem => he e (List.mem_append_right _ hmem))
        (fun w hmem => hw w (List.mem_cons_of_mem _ hmem)) hyvs hosts.right hinitvs
    exact hfirst.trans hrest

/-- On every way to the exit the result is in `rax`. -/
lemma completes_body {post : List Line} {exit : Label}
    (hends : h.Ends (f.epilogue ++ post) M
      (f.fallsOff ++ .label exit :: (f.epilogue ++ post)) o m M') :
    ∃ N, h.Completes M (f.epilogue ++ post) m N ∧ ∀ v, f.result? o = some v → N.rax = v := by
  cases o with
  | returned w =>
    refine ⟨M', hends.1, fun v hv => ?_⟩
    obtain rfl := Option.some.inj hv
    exact hends.2
  | normal =>
    have hcompletes : h.Completes M _ m M' := hends
    rw [FunDecl.fallsOff] at hcompletes
    cases hentry : f.isEntry with
    | false =>
      rw [hentry] at hcompletes
      refine ⟨_, hcompletes.next (Reaches.label .refl hcompletes.text) rfl rfl rfl rfl,
        fun v hv => ?_⟩
      simp [FunDecl.result?, hentry] at hv
    | true =>
      rw [hentry] at hcompletes
      have hclear : h.Reaches M' { M' with
          text := f.epilogue ++ post
          rax := 0
          flags := none } := (reaches_instr hcompletes.text rfl).label rfl
      refine ⟨_, hcompletes.next hclear rfl rfl rfl rfl, fun v hv => ?_⟩
      rw [FunDecl.result?, hentry] at hv
      exact Option.some.inj hv

lemma reaches_epilogue {post : List Line} (ht : M.text = f.epilogue ++ post)
    (hsp : M.rsp = M.rbp - f.frameSize) :
    ∃ M', h.Reaches M M' ∧ f.AtEnd (M.rbp + 8) M' ∧ f.output M' = M.rax ∧ M'.mem = M.mem ∧
      M'.rbp = (wordAt M.mem M.rbp).toInt := by
  rw [FunDecl.epilogue, List.append_assoc] at ht
  obtain ⟨N, hN, htext, hNsp, hNbp, hmem, hrax⟩ := reaches_closeFrame (h := h) ht hsp
  unfold FunDecl.AtEnd FunDecl.output
  cases hentry : f.isEntry with
  | false =>
    rw [hentry] at htext
    exact ⟨N, hN, ⟨⟨post, htext⟩, hNsp⟩, hrax, hmem, hNbp⟩
  | true =>
    rw [hentry] at htext
    have hleave : h.Reaches M { N with
        text := .instr (.callExternal "exit") :: post
        rdi := N.rax
        rsp := N.rsp / 16 * 16
        flags := none } := (hN.instr htext rfl).instr rfl rfl
    exact ⟨_, hleave, ⟨⟨post, rfl⟩, Int.mul_emod_left _ _⟩, hrax, hmem, hNbp⟩

/-- What is left when a routine is done. The memory is that of the function, and if the word under
the frame of the caller was not written to, its frame pointer is back. -/
structure Leaves (h : Host) (f : FunDecl) (M : Machine) (o : Ending) (m : Memory) (M' : Machine) :
    Prop where
  reach : h.Reaches M M'
  atEnd : f.AtEnd M.rsp M'
  result : ∀ v, f.result? o = some v → f.output M' = v
  memory : M'.mem ∘ Cell.based (M.rsp - 8 - f.frameSize) = m
  rbp : (∀ i < 8, m (.stack (f.frameSize + i)) =
      M.entryView f.frameSize (.stack (f.frameSize + i))) → M'.rbp = (M.get .rbp).toInt

/-- **Routines**: from its entry on, the code of a function does what the function does. -/
theorem leaves_of_runs {post : List Line} (hframe : h.env.frame = f.frameSize)
    (hy : (f.lower h.env.arena globals).Yields g text g' u) (hosts : h.Hosts text post)
    (he : ∀ e ∈ f.generated globals, e.Ready h.env.arena h.env.frame)
    (hw : ∀ w ∈ f.initialized globals, w.name.Within h.env.arena h.env.frame)
    (ht : .blank :: M.text = text ++ post)
    (hruns : f.Runs h.env globals (M.entryView f.frameSize) o m) : ∃ M', h.Leaves f M o m M' := by
  obtain ⟨m₁, hpreset, hbody⟩ := hruns
  obtain ⟨t₁, g₁, t₂, hypreset, hybody, rfl⟩ := FunDecl.yields_lower hy
  have hinner := Hosts.right (a := .blank :: .routine _ :: openFrame f.frameSize) hosts
  have hexit : textBehind ⟨g.labels⟩ h.unit = some (f.epilogue ++ post) :=
    hinner.right.right.behind
  -- the prologue
  simp only [List.cons_append, List.append_assoc, List.cons.injEq, true_and] at ht
  obtain ⟨N, hopen, hNtext, hNsp, hNbp, hNmem⟩ := reaches_openFrame (h := h) (M := { M with
    text := openFrame f.frameSize ++ (t₁ ++ (t₂ ++ (f.fallsOff ++ .label ⟨g.labels⟩ ::
      (f.epilogue ++ post)))) }) rfl
  have hNview : N.view h.env.frame = M.entryView f.frameSize := by
    rw [Machine.view, Machine.entryView, hNbp, hNmem, hframe]
    rfl
  -- the body
  have hready : Phrase.Ready h.env.arena h.env.frame (.block f.body) :=
    ⟨fun e hmem => he e (List.mem_append_right _ hmem),
      fun w hmem => hw w (List.mem_append_right _ hmem)⟩
  have hinit : h.Carries (f.epilogue ++ post) _ .normal m₁ _ _ :=
    carries_initAll _ (fun e hmem => he e (List.mem_append_left _ hmem))
      (fun w hmem => hw w (List.mem_append_left _ hmem)) hypreset hinner.left hpreset
  have hcarries : h.Carries (f.epilogue ++ post) _ o m _
      (f.fallsOff ++ .label ⟨g.labels⟩ :: (f.epilogue ++ post)) :=
    hinit.trans (by simpa using hbody.follows hexit hready hybody hinner.right.left)
  obtain ⟨N₁, hends⟩ := hcarries N (by simpa using hNtext)
    (Int.le_of_eq (by rw [hNsp, hframe])) hNview
  obtain ⟨N₂, hcompletes, hresult⟩ := completes_body hends
  -- the epilogue
  obtain ⟨M', hclose, hend, houtput, hmem, hrbp⟩ := reaches_epilogue (h := h) hcompletes.text
    (by rw [hcompletes.rsp, hcompletes.rbp, hNsp])
  have hbase : N₂.rbp = M.rsp - 8 := hcompletes.rbp.trans hNbp
  have hmemory : M'.mem ∘ Cell.based (M.rsp - 8 - f.frameSize) = m := by
    rw [hmem, ← hbase, ← hframe]
    exact hcompletes.view
  refine ⟨M', (reaches_routine ht).trans (hopen.trans (hcompletes.reach.trans hclose)), ?_,
    fun v hv => houtput.trans (hresult v hv), hmemory, fun hkept => ?_⟩
  · rwa [hbase, Int.sub_add_cancel] at hend
  · have hword : wordAt M'.mem (M.rsp - 8) = M.get .rbp := by
      rw [← Machine.wordAt_push M (M.get .rbp)]
      refine wordAt_congr fun i hi => ?_
      have hi := hkept i hi
      rw [← hmemory] at hi
      simp only [Function.comp, Machine.entryView, Cell.based] at hi
      rwa [show M.rsp - 8 - (f.frameSize : ℤ) + (f.frameSize + i : ℕ) = M.rsp - 8 + i by
        push_cast; omega] at hi
    rw [hrbp, hbase, ← hmem, hword]

end Host

/-! ### Routines of accepted programs -/

lemma Program.yields_lower {p : Program} (h : (p.lower arena).Yields g text g' u) :
    ∃ t, (FunDecl.lowerAll arena p.globals p.functions).Yields g t g' () ∧
      text = preludeLines ++ (t ++ (reserveLines arena ++ dataLines)) := by
  obtain ⟨_, _, _, _, hprelude, hrest, rfl⟩ := Gen.yields_bind.mp h
  obtain ⟨rfl, rfl⟩ := Gen.yields_emitAll.mp hprelude
  obtain ⟨t, g₁, _, _, hfunctions, hstorage, rfl⟩ := Gen.yields_bind.mp hrest
  obtain ⟨_, _, _, _, hreserve, hdata, rfl⟩ := Gen.yields_bind.mp hstorage
  obtain ⟨rfl, rfl⟩ := Gen.yields_emitAll.mp hreserve
  obtain ⟨rfl, rfl⟩ := Gen.yields_emitAll.mp hdata
  exact ⟨t, hfunctions, rfl⟩

/-- Each routine of a unit stands behind text that has none of its labels. -/
lemma Program.yields_function {p : Program} (h : (p.lower arena).Yields g text g' u)
    (hf : f ∈ p.functions) : ∃ before g₁ t g₂ after,
      (f.lower arena p.globals).Yields g₁ t g₂ () ∧ text = before ++ (t ++ after) ∧
      ∀ n, g₁.labels ≤ n → before.count (.label ⟨n⟩) = 0 := by
  obtain ⟨t, hfunctions, rfl⟩ := Program.yields_lower h
  obtain ⟨before, g₁, t, g₂, after, hfresh, hy, rfl⟩ := FunDecl.yields_mem _ hf hfunctions
  refine ⟨preludeLines ++ before, g₁, t, g₂, after ++ (reserveLines arena ++ dataLines), hy,
    by simp, fun n hn => ?_⟩
  have hprelude : preludeLines.count (.label ⟨n⟩) = 0 :=
    List.count_eq_zero.mpr (by simp [preludeLines])
  have hbefore : before.count (.label ⟨n⟩) = 0 := by
    refine Nat.eq_zero_of_not_pos fun hpos => ?_
    exact Nat.not_lt.mpr hn (hfresh.issued hpos).2
  rw [List.count_append, hprelude, hbefore]

/-- **Routines of accepted programs**: take a program that analysis accepts and that is emitted
without error. The output is the text of its unit, and in the unit each function has its
routine. Entered in any state of the machine, with any callees, the routine does what the
function does from the memory it finds: if the function runs to an end, then the routine ends,
with that memory and, if there is one, with that result. -/
theorem Session.leaves_of_emit {s : Session} {p : Program} {a : Analysis} {room : Option ℕ}
    {out : Emission} {f : FunDecl} (hanalyze : s.analyze p = .ok a) (herrors : a.errors = [])
    (hemit : a.session.emit room a.program = .ok out) (hout : out.error = none)
    (hf : f ∈ a.program.functions) :
    out.output = textBytes (a.session.unit a.program) ∧
      ∃ before after, a.session.unit a.program =
          before ++ .routine (functionSymbol f.name.name) :: after ∧
        ∀ (h : Host) (M : Machine) (o : Ending) (m : Memory),
          h.env.arena = a.session.arena → h.env.frame = f.frameSize →
          h.unit = a.session.unit a.program →
          M.text = .routine (functionSymbol f.name.name) :: after →
          f.Runs h.env a.program.globals (M.entryView f.frameSize) o m →
          ∃ M', h.Leaves f M o m M' := by
  obtain ⟨g', hy, hwritten⟩ := Session.emit_eq_ok hemit hout
  refine ⟨by rw [hwritten], ?_⟩
  have haccepted := Session.accepted hanalyze herrors
  obtain ⟨before, g₁, t, g₂, after, hyf, hunit, hlabels⟩ := Program.yields_function hy hf
  obtain ⟨body, ht⟩ : ∃ body, t = .blank :: .routine (functionSymbol f.name.name) :: body := by
    obtain ⟨_, _, _, -, -, ht⟩ := FunDecl.yields_lower hyf
    exact ⟨_, ht⟩
  refine ⟨before ++ [.blank], body ++ after, by rw [hunit, ht]; simp, ?_⟩
  intro h M o m harena hframe hunit' htext hruns
  have hhosts : h.Hosts t after := Host.hosts_of_fresh (FunDecl.fresh hyf)
    (fun n hn _ => hlabels n hn) (hunit'.trans hunit)
  have hyf' : (f.lower h.env.arena a.program.globals).Yields g₁ t g₂ () := by rwa [harena]
  have ht' : .blank :: M.text = t ++ after := by rw [htext, ht]; rfl
  refine Host.leaves_of_runs hframe hyf' hhosts (fun e he => ?_) (fun w hw => ?_) ht' hruns
  · rw [harena, hframe]
    exact haccepted.ready hf he
  · rw [harena, hframe]
    exact (haccepted.vars f hf w hw).within (haccepted.variableSize_le hf)

def countName : Ident := ⟨"n", 0, some 1⟩

def countTest : Expr := .binary (.compare .lt) (.int 0) (.name countName)

def countStep : Expr := .assign countName (.binary (.arith .sub) (.name countName) (.int 1))

/-- A function that counts its argument down to 0 and returns it. -/
def countFunction : FunDecl where
  name := ⟨"count", 0, some 0⟩
  params := [⟨countName, .int, none⟩]
  returns := some .int
  body := [.whileLoop countTest [.expr countStep], .ret (some (.name countName))]
  parameterSize := 8

def countSession : Session :=
  { arena := #[⟨"count", .function, .int, 0, 0, [1]⟩, ⟨"n", .param, .int, 8, 0, []⟩] }

def countHost : Host where
  env := ⟨countSession.arena, 0, fun _ _ _ => none⟩
  unit := countSession.unit [.function countFunction]
  leftover M := M
  format := 0

/-- In front of the text, with 1 as the argument. -/
def countStart (text : List Line) : Machine where
  text := text
  scratch _ := 7
  rax := 0
  rdx := 0
  rdi := 0
  rsi := 0
  rsp := 8
  rbp := 0
  flags := none
  mem c := if c = .stack 16 then 1 else 0

/-- Where the argument is. -/
def countPlace : Operand := ⟨.qword, .frame 16⟩

/-- The memory in front of the loop. -/
def countMemory : Memory := (countStart []).entryView 0

theorem Session.leaves_count :
    ({} : Session).analyze [.function countFunction] =
        .ok ⟨countSession, [.function countFunction], []⟩ ∧
      countFunction.Runs countHost.env [] countMemory (.returned 0)
        (countMemory.store 0 countPlace 0) ∧
      ∃ before after M', countHost.unit = before ++ .routine "function_count" :: after ∧
        countHost.Leaves countFunction (countStart (.routine "function_count" :: after))
          (.returned 0) (countMemory.store 0 countPlace 0) M' := by
  have hanalyze : ({} : Session).analyze [.function countFunction] =
    .ok ⟨countSession, [.function countFunction], []⟩ := rfl
  have hruns : countFunction.Runs countHost.env [] countMemory (.returned 0)
      (countMemory.store 0 countPlace 0) := by
    have htest (m : Memory) : countTest.eval countHost.env m =
      some (if Rel.lt.holds 0 (m.load 0 countPlace) then 1 else 0, m) := rfl
    have hstep (m : Memory) : countStep.eval countHost.env m = some (m.load 0 countPlace - 1,
      m.store 0 countPlace (m.load 0 countPlace - 1)) := rfl
    have hret (m : Memory) : (Expr.name countName).eval countHost.env m =
      some (m.load 0 countPlace, m) := rfl
    have hone : countMemory.load 0 countPlace = 1 := by decide
    have hzero : (countMemory.store 0 countPlace 0).load 0 countPlace = 0 := by decide
    have hpass : TreeCompiler.Runs countHost.env (.block [.expr countStep]) countMemory .normal
      (countMemory.store 0 countPlace 0) := .cons (.expr (hone ▸ hstep countMemory)) .nil
    exact ⟨_, rfl, .cons (.whileLoop (.again (hone ▸ htest countMemory) hpass rfl
      (.stop (hzero ▸ htest _) (by decide)))) (.leave (.ret (hzero ▸ hret _)))⟩
  obtain ⟨-, before, after, hunit, hleaves⟩ := Session.leaves_of_emit hanalyze rfl
    (Session.emit_of_yields (Gen.yields_of_result rfl)) rfl (List.mem_singleton.mpr rfl)
  obtain ⟨M', hM'⟩ := hleaves countHost (countStart (.routine "function_count" :: after))
    (.returned 0) _ rfl rfl rfl rfl hruns
  exact ⟨hanalyze, hruns, before, after, M', hunit, hM'⟩

end TreeCompiler

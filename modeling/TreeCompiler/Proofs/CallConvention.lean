import TreeCompiler.Proofs.ArgumentWords
import TreeCompiler.Proofs.Signatures

/-!
Caller and callee agree on where the arguments of a call are.

The caller has the words of the arguments on top of the stack when it comes to the line of the
call, and the callee finds its parameters behind the two words that the call and its own prologue
push. Analysis sees to it that there are as many of the ones as of the others.
-/

namespace TreeCompiler

/-! ### The side of the caller -/

lemma getElem?_wordsAt (mem : Cell ℤ → Byte) (a : ℤ) {i n : ℕ} (hi : i < n) :
    (wordsAt mem a n)[i]? = some (wordAt mem (a + 8 * i)) := by
  induction n generalizing a i with
  | zero => omega
  | succ n ih =>
    cases i with
    | zero => simp [wordsAt]
    | succ i =>
      rw [wordsAt, List.getElem?_cons_succ, ih (a + 8) (Nat.lt_of_succ_lt_succ hi)]
      push_cast
      rw [show a + 8 + 8 * (i : ℤ) = a + 8 * (i + 1) by omega]

/-- From `M` the machine came to the line of the call in `N`: it has the values of the arguments on
top of the stack, and above them the registers that were in use. -/
structure CallSite.Reached (c : CallSite) (h : Host) (M : Machine) (live : List Scratch)
    (vs : List Word) (N : Machine) : Prop where
  reach : h.Reaches M N
  rbp : N.rbp = M.rbp
  rsp : N.rsp = M.rsp - 8 * (c.passed.length + c.padding.length + c.saved.length)
  arguments : wordsAt N.mem N.rsp c.passed.length = vs
  registers : wordsAt N.mem (N.rsp + 8 * (c.passed.length + c.padding.length)) c.saved.length =
    live.reverse.map M.scratch

namespace CallSite

variable {arena : Arena} {text before : List Line} {g g' : GenState} {routine : String}
  {args : List Expr} {c : CallSite}

lemma Stands.length_passed (hc : c.Stands arena text before g routine args) :
    c.passed.length = args.length := hc.arguments.length_eq.symm

lemma Stands.length_padding (hc : c.Stands arena text before g routine args) :
    c.padding.length = g.padding args.length := by
  simpa using congrArg List.length hc.zeros

lemma Stands.length_saved (hc : c.Stands arena text before g routine args) :
    c.saved.length = g.bank.live.length := by
  simpa using congrArg List.length hc.registers

/-- Where the arguments have values, the machine comes from the start of the code to the line of the
call with these values. -/
lemma exists_reached {h : Host} {M : Machine} {x : Ident} {t tail : List Line} {vs : List Word}
    {m : Memory} (hc : c.Stands arena text before g routine args)
    (hlead : c.lead = g.callHead args.length ++ t) (hx : x.name ≠ printName)
    (hready : (Expr.call x args).Ready h.env.arena h.env.frame)
    (hargs : (Expr.lowerArgs h.env.arena args).Yields (g.inCall args.length) t g' ())
    (hosts : h.Hosts t tail) (ht : M.text = c.lead ++ tail) (hsp : M.rsp ≤ M.rbp - h.env.frame)
    (heval : Expr.evalArgs h.env args (M.view h.env.frame) = some (vs, m)) :
    ∃ N, N.text = tail ∧ c.Reached h M g.bank.live vs N := by
  have hdelivers : h.Delivers x args :=
    Host.delivers_pushed hx hready.1 (Expr.pushesAll args hready.2)
  have hpass : (x.pass h.env.arena args).Yields (g.inCall args.length) t g' () := by
    simpa [Ident.pass, hx] using hargs
  have htext : M.text = g.bank.live.map (fun r => .instr (.push (.scratch r))) ++
      (List.replicate (g.padding args.length) (.instr .pushZero) ++ (t ++ tail)) := by
    simpa [hlead, GenState.callHead] using ht
  obtain ⟨N, hpasses, hNsp, harguments, hsaved⟩ := Host.passes_lead hdelivers
    (Gen.count_saved_live g.bank) hpass hosts htext hsp heval
  have hpushed : x.pushed args = args.length := by simp [Ident.pushed, hx]
  have haccepts : h.env.arena.arity (functionSymbol x.name) = args.length := by
    simpa [Ident.Accepts, hx] using hready.1
  have hrsp : N.rsp = M.rsp - 8 * (c.passed.length + c.padding.length + c.saved.length) := by
    rw [hc.length_passed, hc.length_padding, hc.length_saved, hNsp, hpushed]
  refine ⟨N, hpasses.text, hpasses.reach, hpasses.rbp, hrsp, ?_, ?_⟩
  · rw [hc.length_passed, ← haccepts]
    simpa [Host.arguments, Ident.routine, hx, Host.functionSymbol_ne_printSymbol] using
      harguments
  · rw [hc.length_saved] at hrsp ⊢
    rw [show N.rsp + 8 * (c.passed.length + c.padding.length : ℤ) =
      M.rsp - 8 * g.bank.live.length by omega, hsaved]

end CallSite

/-! ### The side of the callee -/

/-- A call has left its return address on the stack, and nothing above it has changed. -/
structure Machine.Entered (N K : Machine) : Prop where
  rsp : K.rsp = N.rsp - 8
  mem (a : ℤ) : N.rsp ≤ a → K.mem (.stack a) = N.mem (.stack a)

/-- In `K'` the prologue of a routine is done that was entered in `K`, from a call in `N`. Parameter
`i` has the bytes of word `i` on the stack of the caller, and reads as the low end of its value. -/
structure Routine.Receives (arena : Arena) (r : Routine) (h : Host) (after : List Line)
    (vs : List Word) (N K K' : Machine) : Prop where
  reach : h.Reaches K K'
  text : K'.text = r.body ++ .label r.exit :: (r.fn.epilogue ++ after)
  params (i : ℕ) (q : Param) : r.fn.params[i]? = some q → ∃ id symbol o v,
    q.PassedAt arena i id symbol ∧ symbol.locate 0 = .ok o ∧ vs[i]? = some v ∧
    (∀ j, o.address.cellAt K'.rbp j = .stack (N.rsp + 8 * i + j)) ∧
    wordAt K'.mem (N.rsp + 8 * i) = v ∧
    loadBytes K'.mem (o.address.cellAt K'.rbp) o.width.bytes =
      (v.setWidth (8 * o.width.bytes)).signExtend 64

lemma Width.bytes_le (w : Width) : w.bytes ≤ 8 := by cases w <;> decide

/-- What the caller has on the stack, the callee has in its parameters. -/
lemma Routine.exists_receives {arena : Arena} {p : Program} {r : Routine} {x : Ident} {n : ℕ}
    {symbol : Symbol} {h : Host} {after : List Line} {vs : List Word} {N K : Machine}
    (hcallee : p.Callee arena x n symbol r.fn) (hwords : wordsAt N.mem N.rsp n = vs)
    (hK : .blank :: K.text = r.text ++ after) (hentered : N.Entered K) :
    ∃ K', r.Receives arena h after vs N K K' := by
  obtain ⟨K', hreach, htext, hrbp, hmem⟩ := Routine.reaches_body (h := h) hK
  refine ⟨K', hreach, htext, fun i q hq => ?_⟩
  obtain ⟨id, param, -, hparam⟩ := hcallee.params i q hq
  have hi : i < n := by
    rw [← hcallee.declared]
    exact (List.getElem?_eq_some_iff.mp hq).1
  -- the parameters lie above all that the call and the prologue have pushed
  have hkept (a : ℤ) (ha : N.rsp ≤ a) : K'.mem (.stack a) = N.mem (.stack a) := by
    rw [hmem, K.push_of_le _ (by rw [hentered.rsp]; omega), hentered.mem a ha]
  have hcells (j : ℕ) : (Address.frame (16 + 8 * i)).cellAt K'.rbp j =
      .stack (N.rsp + 8 * i + j) := by
    rw [Address.cellAt, hrbp, hentered.rsp, Cell.stack.injEq]
    omega
  have hword : wordAt K'.mem (N.rsp + 8 * i) = wordAt N.mem (N.rsp + 8 * i) :=
    wordAt_congr fun j _ => hkept _ (by omega)
  refine ⟨id, param, _, wordAt N.mem (N.rsp + 8 * i), hparam, hparam.place, ?_, hcells, hword, ?_⟩
  · rw [← hwords, getElem?_wordsAt _ _ hi]
  · rw [loadBytes_low _ _ (Width.bytes_le _), ← hword]
    simp only [funext hcells]
    rfl

/-! ### Both sides -/

/-- A call of `f` with these arguments at a place of routine `r`, in a unit where `after` stands
behind the routine. Its site is in the text. Wherever its arguments have values, the machine comes
to the call with them, and the routine of `f` receives them. -/
structure Routine.Agrees (arena : Arena) (unit : List Line) (r : Routine) (after : List Line)
    (pl : Place Expr) (args : List Expr) (f : FunDecl) (c : CallSite) : Prop where
  stands : c.Stands arena r.body pl.before pl.state (functionSymbol f.name.name) args
  runs (h : Host) (M : Machine) (tail : List Line) (vs : List Word) (m : Memory) :
    h.env.arena = arena → h.env.frame = r.fn.frameSize → h.unit = unit →
    tail = c.callLines (functionSymbol f.name.name) ++
      (c.rest ++ .label r.exit :: (r.fn.epilogue ++ after)) →
    M.text = c.lead ++ tail → M.rsp ≤ M.rbp - h.env.frame →
    Expr.evalArgs h.env args (M.view h.env.frame) = some (vs, m) →
    ∃ N, N.text = tail ∧ c.Reached h M pl.state.bank.live vs N ∧
      ∀ (callee : Routine) (k : Host) (K : Machine) (behind : List Line), callee.fn = f →
        .blank :: K.text = callee.text ++ behind → N.Entered K →
        ∃ K', callee.Receives arena k behind vs N K K'

lemma Expr.yields_userCall {arena : Arena} {x : Ident} {args : List Expr} {g g' : GenState}
    {text : List Line} {r : Scratch} (hx : x.name ≠ printName)
    (h : ((Expr.call x args).lower arena).Yields g text g' r) :
    ∃ t g₁ post, (Expr.lowerArgs arena args).Yields (g.inCall args.length) t g₁ () ∧
      text = g.callHead args.length ++ (t ++ (.instr (.call (functionSymbol x.name)) ::
        (dropLines (args.length + g.padding args.length) ++ post))) := by
  simpa [Ident.pass, Ident.pushed, Ident.routine, hx] using Expr.yields_call h

/-- Every call in a routine is one on which both sides agree. -/
lemma Routine.Generated.exists_agrees {arena : Arena} {p : Program} {r : Routine} {g' : GenState}
    {unit before after : List Line} {pl : Place Expr} {x : Ident} {args : List Expr}
    {symbol : Symbol} {f : FunDecl} (hr : r.Generated arena p.globals g')
    (hunit : unit = before ++ (r.text ++ after))
    (hlabels : ∀ n, r.state.labels ≤ n → before.count (.label ⟨n⟩) = 0)
    (hpl : pl ∈ r.exprPlaces arena p.globals) (hpart : pl.part = .call x args)
    (hx : x.name ≠ printName) (hready : (Expr.call x args).Ready arena r.fn.frameSize)
    (hcallee : p.Callee arena x args.length symbol f) :
    ∃ c, r.Agrees arena unit after pl args f c := by
  obtain ⟨code, g₁, q, post, hlower, hbody⟩ := hr.sits pl hpl
  rw [hpart] at hlower
  obtain ⟨t, g₂, rest, hargs, rfl⟩ := Expr.yields_userCall hx hlower
  rw [← hcallee.name] at hbody
  have hsite : r.body = pl.before ++ (pl.state.callHead args.length ++ (t ++
      (.instr (.call (functionSymbol f.name.name)) ::
        (dropLines (args.length + pl.state.padding args.length) ++ (rest ++ post))))) := by
    simpa using hbody
  obtain ⟨c, hlead, hrest, hstands⟩ := CallSite.exists_stands hargs hsite
  refine ⟨c, hstands, fun h M tail vs m harena hframe hhost htail hM hsp heval => ?_⟩
  have hosts : h.Hosts r.text after := Host.hosts_of_fresh (FunDecl.fresh hr.yields)
    (fun n hn _ => hlabels n hn) (hhost.trans hunit)
  have hsplit : r.text = (.blank :: .routine (functionSymbol r.fn.name.name) ::
      (openFrame r.fn.frameSize ++ (pl.before ++ pl.state.callHead args.length))) ++
      (t ++ (c.callLines (functionSymbol f.name.name) ++
        (c.rest ++ .label r.exit :: r.fn.epilogue))) := by
    rw [Routine.text, Routine.inner, hstands.text_eq, hlead]
    simp
  rw [hsplit] at hosts
  obtain ⟨N, hN, hreached⟩ := CallSite.exists_reached hstands hlead hx
    (by rw [harena, hframe]; exact hready) (by rw [harena]; exact hargs)
    (by simpa [htail] using hosts.right.left) hM hsp heval
  refine ⟨N, hN, hreached, fun callee k K behind hfn hK hentered => ?_⟩
  have hwords := hreached.arguments
  rw [hstands.length_passed] at hwords
  exact Routine.exists_receives (hfn ▸ hcallee) hwords hK hentered

/-- **Arguments**: take a program that analysis accepts. Every call in it, but those that print, has
its callee, with a parameter for each argument. If the program is emitted without error, then each
expression in the code of a function has its place in the text, and for each of the calls among them
caller and callee agree on where the arguments are. -/
theorem Session.arguments_agree {s : Session} {p : Program} {a : Analysis}
    (hanalyze : s.analyze p = .ok a) (herrors : a.errors = []) :
    (∀ e ∈ a.program.exprs, ∀ x args, .call x args ∈ e.parts → x.name ≠ printName →
      ∃ symbol f, a.program.Callee a.session.arena x args.length symbol f) ∧
    ∀ room out, a.session.emit room a.program = .ok out → out.error = none →
      out.output = textBytes (a.session.unit a.program) ∧
      ∃ rs : List Routine, rs.map (·.fn) = a.program.functions ∧
        a.session.unit a.program = preludeLines ++ (rs.flatMap Routine.text ++
          (reserveLines a.session.arena ++ dataLines)) ∧
        ∀ r ∈ rs,
          (∃ g', (r.fn.lower a.session.arena a.program.globals).Yields r.state r.text g' ()) ∧
          (r.exprPlaces a.session.arena a.program.globals).map (·.part) =
            (r.fn.generated a.program.globals).flatMap Expr.parts ∧
          ∃ before after, a.session.unit a.program = before ++ (r.text ++ after) ∧
            ∀ pl ∈ r.exprPlaces a.session.arena a.program.globals, ∀ x args,
              pl.part = .call x args → x.name ≠ printName →
              ∃ symbol f c, a.program.Callee a.session.arena x args.length symbol f ∧
                r.Agrees a.session.arena (a.session.unit a.program) after pl args f c := by
  refine ⟨fun e he x args hcall hx => Session.callee_of_analyze hanalyze herrors he hcall hx, ?_⟩
  intro room out hemit hout
  have haccepted := Session.accepted hanalyze herrors
  obtain ⟨g', hyields, rfl⟩ := emit_eq_ok hemit hout
  obtain ⟨rs, hfns, hunit, hrs⟩ := Program.exists_routines hyields
  refine ⟨by dsimp only, rs, hfns, hunit, fun r hr => ?_⟩
  obtain ⟨before, after, g₁, hsplit, hgenerated, hlabels⟩ := hrs r hr
  refine ⟨⟨g₁, hgenerated.yields⟩, Routine.map_part_exprPlaces, before, after, hsplit, ?_⟩
  intro pl hpl x args hpart hx
  have hf : r.fn ∈ a.program.functions := hfns ▸ List.mem_map_of_mem hr
  obtain ⟨e, he, hcall⟩ : ∃ e ∈ r.fn.generated a.program.globals, .call x args ∈ e.parts := by
    rw [← List.mem_flatMap, ← Routine.map_part_exprPlaces, ← hpart]
    exact List.mem_map_of_mem hpl
  obtain ⟨symbol, f, hcallee⟩ := Session.callee_of_analyze hanalyze herrors
    (Program.mem_exprs hf he) hcall hx
  obtain ⟨c, hc⟩ := hgenerated.exists_agrees hsplit hlabels hpl hpart hx
    (Expr.Ready.parts e (haccepted.ready hf he) _ hcall) hcallee
  exact ⟨symbol, f, c, hcallee, hc⟩

def mixName : Ident := ⟨"mix", 0, some 0⟩

/-- A function of three parameters, one of them narrow. -/
def mixFunction : FunDecl where
  name := mixName
  params := [⟨⟨"a", 0, some 1⟩, .int, none⟩, ⟨⟨"b", 0, some 2⟩, .bool, none⟩,
    ⟨⟨"c", 0, some 3⟩, .int, none⟩]
  returns := some .int
  body := [.ret (some (.name ⟨"a", 0, some 1⟩))]
  parameterSize := 24

def topArg : Expr := .name ⟨"x", 0, some 5⟩

/-- `top(x)`, `x < 2` and `mix(x, true, 3)`. -/
def mixArgs : List Expr :=
  [.call ⟨"top", 0, some 4⟩ [topArg], .binary (.compare .lt) topArg (.int 2),
    .call mixName [topArg, .bool true, .int 3]]

/-- A function that returns `x + x * mix(top(x), x < 2, mix(x, true, 3))`. -/
def topFunction : FunDecl where
  name := ⟨"top", 0, some 4⟩
  params := [⟨⟨"x", 0, some 5⟩, .int, none⟩]
  returns := some .int
  body := [.ret (some (.binary (.arith .add) topArg
    (.binary (.arith .mul) topArg (.call mixName mixArgs))))]
  parameterSize := 8

def mixProgram : Program := [.function mixFunction, .function topFunction]

def mixSession : Session where
  arena := #[⟨"mix", .function, .int, 0, 0, [1, 2, 3]⟩, ⟨"a", .param, .int, 8, 0, []⟩,
    ⟨"b", .param, .bool, 1, 8, []⟩, ⟨"c", .param, .int, 8, 16, []⟩,
    ⟨"top", .function, .int, 0, 0, [5]⟩, ⟨"x", .param, .int, 8, 0, []⟩]

/-- Resolution after the first function. -/
def mixWalk : Resolver where
  arena := #[⟨"mix", .function, .int, 0, 0, [1, 2, 3]⟩, ⟨"a", .param, .int, 8, 0, []⟩,
    ⟨"b", .param, .bool, 1, 8, []⟩, ⟨"c", .param, .int, 8, 16, []⟩]
  scopes := ({} : ScopeStack).enter.bind "mix" 0

/-- Resolution after both. -/
def topWalk : Resolver where
  arena := mixSession.arena
  scopes := mixWalk.scopes.bind "top" 4

lemma Session.analyze_mix :
    ({} : Session).analyze mixProgram = .ok ⟨mixSession, mixProgram, []⟩ := by
  have hprogram : Program.resolve {} mixProgram { arena := #[], scopes := {} } =
      .ok (mixProgram, { topWalk with scopes := {} }) := by
    -- one function at a time: the states in between are given, not computed
    refine Resolve.run_inScope.mpr ⟨topWalk, ?_, rfl⟩
    refine run_bind.mpr ⟨.function mixFunction, mixWalk, rfl, ?_⟩
    exact run_bind.mpr ⟨[.function topFunction], topWalk, rfl, rfl⟩
  have hresolve : ({} : Session).reset.resolve mixProgram = .ok ⟨mixSession, mixProgram, []⟩ :=
    bind_eq_ok.mpr ⟨_, hprogram, rfl⟩
  have hcheck : mixSession.check mixProgram = .ok [] := by decide +kernel
  exact Session.analyze_of_resolve hresolve rfl hcheck

/-- A callee adds 1 to its first argument and clears all registers. -/
def mixHost : Host where
  env := ⟨mixSession.arena, 0, fun _ args m => some (args.headD 0 + 1, m)⟩
  unit := mixSession.unit mixProgram
  leftover M := { M with scratch := fun _ => 0 }
  format := 0

/-- In front of the text, where `x` is 5. -/
def mixStart (text : List Line) : Machine where
  text := text
  scratch _ := 7
  rax := 0
  rdx := 0
  rdi := 0
  rsi := 0
  rsp := 0
  rbp := 0
  flags := none
  mem c := if c = .stack 16 then 5 else 0

theorem Session.arguments_mixed :
    ({} : Session).analyze mixProgram = .ok ⟨mixSession, mixProgram, []⟩ ∧
    (∃ out, mixSession.emit none mixProgram = .ok out ∧ out.error = none) ∧
    ∃ (r callee : Routine) (pl : Place Expr) (symbol : Symbol) (c : CallSite) (text : List Line)
      (N K K' : Machine), r.fn = topFunction ∧ callee.fn = mixFunction ∧
      pl ∈ r.exprPlaces mixSession.arena [] ∧ pl.part = .call mixName mixArgs ∧
      mixProgram.Callee mixSession.arena mixName 3 symbol mixFunction ∧
      c.Stands mixSession.arena r.body pl.before pl.state "function_mix" mixArgs ∧
      c.Reached mixHost (mixStart text) pl.state.bank.live [6, 0, 6] N ∧
      N.Entered K ∧ callee.Receives mixSession.arena mixHost [] [6, 0, 6] N K K' := by
  have hanalyze := Session.analyze_mix
  have hresult : (mixProgram.lower mixSession.arena {}).result = .ok () := by decide +kernel
  have hemit : mixSession.emit none mixProgram = .ok _ :=
    emit_of_yields (Gen.yields_of_result hresult)
  obtain ⟨-, hagree⟩ := Session.arguments_agree hanalyze rfl
  obtain ⟨-, rs, hfns, -, hrs⟩ := hagree none _ hemit rfl
  obtain ⟨callee, rest, rfl, hcallee, hrest⟩ := List.map_eq_cons_iff.mp hfns
  obtain ⟨r, rfl, hr⟩ := List.map_eq_singleton_iff.mp hrest
  obtain ⟨-, hparts, before, after, -, hcalls⟩ := hrs r (by simp)
  -- the call has its place
  have hmem : .call mixName mixArgs ∈ (r.exprPlaces mixSession.arena []).map (·.part) := by
    refine hparts ▸ ?_
    rw [hr]
    simp [FunDecl.generated, FunDecl.preset, topFunction, FunDecl.isEntry, Stmt.exprsAll,
      Stmt.exprs, Expr.parts]
  obtain ⟨pl, hpl, hpart⟩ := List.mem_map.mp hmem
  obtain ⟨symbol, f, c, hcalled, hagrees⟩ := hcalls pl hpl mixName mixArgs hpart (by decide)
  obtain rfl : f = mixFunction := by
    rcases List.mem_cons.mp hcalled.mem with rfl | hf
    · rfl
    · obtain rfl := List.mem_singleton.mp hf
      exact absurd hcalled.name (by decide)
  -- its arguments have values
  have heval (m : Memory) : Expr.evalArgs mixHost.env mixArgs m =
      some ([m.load 0 ⟨.qword, .frame 16⟩ + 1,
        if Rel.lt.holds (m.load 0 ⟨.qword, .frame 16⟩) 2 then 1 else 0,
        m.load 0 ⟨.qword, .frame 16⟩ + 1], m) := rfl
  have hload : ((mixStart []).view 0).load 0 ⟨.qword, .frame 16⟩ = 5 := by decide
  have hvalues (text : List Line) : Expr.evalArgs mixHost.env mixArgs ((mixStart text).view 0) =
      some ([6, 0, 6], (mixStart []).view 0) := by
    rw [heval, show (mixStart text).view 0 = (mixStart []).view 0 from rfl, hload]
    rfl
  obtain ⟨N, -, hreached, hreceives⟩ := hagrees.runs mixHost (mixStart _) _ _ _ rfl
    (by rw [hr]; rfl) rfl rfl rfl (Int.le_refl 0) (hvalues _)
  obtain ⟨K, hK, hentered⟩ : ∃ K : Machine, .blank :: K.text = callee.text ++ [] ∧ N.Entered K :=
    ⟨{ N with text := callee.text.tail, rsp := N.rsp - 8 }, by simp [Routine.text], rfl,
      fun _ _ => rfl⟩
  obtain ⟨K', hK'⟩ := hreceives callee mixHost K [] hcallee hK hentered
  exact ⟨hanalyze, ⟨_, hemit, rfl⟩, r, callee, pl, symbol, c, _, N, K, K', hr, hcallee, hpl, hpart,
    hcalled, hagrees.stands, hreached, hentered, hK'⟩

end TreeCompiler

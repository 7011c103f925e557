import TreeCompiler.Proofs.Labels
import TreeCompiler.Proofs.Registers
import TreeCompiler.Proofs.Stack

/-!
The code of an expression computes the value of the expression.

One lemma per form of expression, and then the induction. The code may stand anywhere in a
unit, and any registers may be in use around it: those it keeps. What has to be known of the
expression is that its names lie in the frame and that its calls have the right number of
arguments.
-/

namespace TreeCompiler

/-- Wherever the name is, it belongs to a function with that frame. -/
def Ident.Within (arena : Arena) (frame : ℕ) (x : Ident) : Prop :=
  ∀ o, x.place? arena = some o → o.Within frame

/-- The routine of a call takes `n` arguments. -/
def Ident.Accepts (arena : Arena) (f : Ident) (n : ℕ) : Prop :=
  if f.name == printName then n = 1 else arena.arity (functionSymbol f.name) = n

mutual

/-- All names are within the frame, and all calls have the arguments they need. -/
def Expr.Ready (arena : Arena) (frame : ℕ) : Expr → Prop
  | .int _ => True
  | .bool _ => True
  | .name x => x.Within arena frame
  | .assign x e => x.Within arena frame ∧ e.Ready arena frame
  | .binary _ l r => l.Ready arena frame ∧ r.Ready arena frame
  | .call f args => f.Accepts arena args.length ∧ Expr.ReadyAll arena frame args
termination_by structural e => e

def Expr.ReadyAll (arena : Arena) (frame : ℕ) : List Expr → Prop
  | [] => True
  | e :: rest => e.Ready arena frame ∧ Expr.ReadyAll arena frame rest
termination_by structural es => es

end

namespace Host

variable {h : Host} {g g' : GenState} {text rest : List Line} {r : Scratch} {M M' : Machine}
  {v : Word} {m : Memory}

/-- The code ran through with the value in its register. The registers that were in use and
the stack are as before. -/
structure Evaluates (h : Host) (g : GenState) (M : Machine) (rest : List Line) (r : Scratch)
    (v : Word) (m : Memory) (M' : Machine) : Prop extends h.Passes M.rsp M rest m M' where
  rsp : M'.rsp = M.rsp
  live : ∀ q, g.bank.isLive q = true → M'.scratch q = M.scratch q
  value : M'.scratch r = v

/-- The code of the expression computes its value, wherever it stands. -/
def Simulates (h : Host) (e : Expr) : Prop :=
  ∀ {g g' : GenState} {text rest : List Line} {r : Scratch} {M : Machine} {v : Word} {m : Memory},
    (e.lower h.env.arena).Yields g text g' r → h.Hosts text rest → M.text = text ++ rest →
    M.rsp ≤ M.rbp - h.env.frame → e.eval h.env (M.view h.env.frame) = some (v, m) →
    ∃ M', h.Evaluates g M rest r v m M'

/-- A register that was free gets a value, and nothing else changes. -/
lemma evaluates_of_setScratch {i : Instr} (hr : g.bank.isLive r = false)
    (ht : M.text = .instr i :: rest)
    (hN : h.exec { M with text := rest } i = some ({ M with text := rest }.setScratch r v)) :
    h.Evaluates g M rest r v (M.view h.env.frame) ({ M with text := rest }.setScratch r v) where
  toPasses := passes_instr ht hN rfl rfl rfl
  rsp := rfl
  live q hq := by
    have hne : q ≠ r := by
      rintro rfl
      simp [hq] at hr
    simp [Machine.setScratch, hne]
  value := by simp [Machine.setScratch]

lemma evaluates_constant {c : Int64} (hy : (Gen.constant c).Yields g text g' r)
    (ht : M.text = text ++ rest) :
    ∃ M', h.Evaluates g M rest r c.toBitVec (M.view h.env.frame) M' := by
  obtain ⟨bank, halloc, rfl, rfl⟩ := Gen.yields_constant.mp hy
  exact ⟨_, evaluates_of_setScratch (Bank.isLive_of_alloc? halloc).1 ht rfl⟩

lemma simulates_name {x : Ident} (hx : x.Within h.env.arena h.env.frame) :
    h.Simulates (.name x) := by
  intro g g' text rest r M v m hy _ ht _ heval
  obtain ⟨o, bank, ho, halloc, rfl, rfl⟩ := Ident.yields_load.mp hy
  simp only [Expr.eval, ho, Option.bind_eq_bind, Option.bind_some, Option.pure_def,
    Option.some.injEq, Prod.mk.injEq] at heval
  obtain ⟨rfl, rfl⟩ := heval
  refine ⟨_, evaluates_of_setScratch (Bank.isLive_of_alloc? halloc).1 ht ?_⟩
  rw [← M.load_view (hx o ho)]
  rfl

lemma simulates_assign {x : Ident} {e : Expr} (hx : x.Within h.env.arena h.env.frame)
    (he : h.Simulates e) : h.Simulates (.assign x e) := by
  intro g g' text rest r M v m hy hosts ht hsp heval
  obtain ⟨t, g₁, r, _, hye, hstore, rfl⟩ := Gen.yields_bind.mp hy
  obtain ⟨_, _, _, _, hyx, hpure, rfl⟩ := Gen.yields_bind.mp hstore
  obtain ⟨o, ho, rfl, rfl⟩ := Ident.yields_store.mp hyx
  obtain ⟨rfl, rfl, rfl⟩ := Gen.yields_pure.mp hpure
  simp only [Expr.eval, ho, Option.bind_eq_bind, Option.bind_eq_some_iff, Option.pure_def,
    Option.some.injEq, Prod.exists, Prod.mk.injEq] at heval
  obtain ⟨v', m', hv, _, rfl, rfl, rfl⟩ := heval
  rw [List.append_assoc] at ht
  obtain ⟨N, hN⟩ := he hye hosts.left (by simpa using ht) hsp hv
  have hpass : h.Passes M.rsp N rest _ _ := passes_store hN.text (hx o ho)
  rw [hN.view, hN.value] at hpass
  exact ⟨_, hN.toPasses.trans hpass, hN.rsp, hN.live, hN.value⟩

/-- What follows an operand keeps what the operand kept. -/
lemma Evaluates.trans {g₁ : GenState} {N : Machine} {t : List Line} {q : Scratch} {u : Word}
    {m' : Memory} (h₁ : h.Evaluates g M t r u m N) (h₂ : h.Evaluates g₁ N rest q v m' M')
    (hlive : ∀ q, g.bank.isLive q = true → g₁.bank.isLive q = true) :
    h.Evaluates g M rest q v m' M' where
  toPasses := by
    have hrest := h₂.toPasses
    rw [h₁.rsp] at hrest
    exact h₁.toPasses.trans hrest
  rsp := h₂.rsp.trans h₁.rsp
  live q hq := by
    have hkept := h₂.live q (hlive q hq)
    exact hkept.trans (h₁.live q hq)
  value := h₂.value

/-- An operation on two registers computes the value of its operator. -/
lemma evaluates_arith {op : Arith} {l : Scratch} (hl : g.bank.isLive l = false)
    (ht : M.text = Gen.arithText l r op ++ rest)
    (hv : op.eval (M.scratch l) (M.scratch r) = some v) :
    ∃ M', h.Evaluates g M rest l v (M.view h.env.frame) M' := by
  have hother : ∀ q, g.bank.isLive q = true → q ≠ l := by
    rintro q hq rfl
    simp [hq] at hl
  -- all but the division are one instruction that puts its result in the left register
  have hone : ∀ {i}, M.text = .instr i :: rest →
      h.exec { M with text := rest } i = some ({ M with text := rest }.result l v) →
      ∃ M', h.Evaluates g M rest l v (M.view h.env.frame) M' := by
    intro i hi hN
    refine ⟨_, passes_instr hi hN rfl rfl rfl, rfl, fun q hq => ?_, ?_⟩
    · simp [Machine.result, Machine.setScratch, hother q hq]
    · simp [Machine.result, Machine.setScratch]
  cases op with
  | add => exact hone ht (by rw [← Option.some.inj hv]; rfl)
  | sub => exact hone ht (by rw [← Option.some.inj hv]; rfl)
  | mul => exact hone ht (by rw [← Option.some.inj hv]; rfl)
  | div =>
    have hextend : h.Reaches M { M with
        text := .instr (.div r) :: .instr (.move (.scratch l) .rax) :: rest
        rax := M.scratch l
        rdx := if (M.scratch l).msb then -1 else 0 } :=
      (reaches_instr ht rfl).instr rfl rfl
    obtain ⟨rdx, hdiv⟩ := Machine.divide_signExtended (b := M.scratch r) (v := v)
      (M := { M with
        text := .instr (.move (.scratch l) .rax) :: rest
        rax := M.scratch l
        rdx := if (M.scratch l).msb then -1 else 0 }) rfl hv
    have hquotient := (hextend.instr rfl hdiv).instr rfl rfl
    refine ⟨_, passes_of_mem_eq hquotient rfl rfl rfl, rfl, fun q hq => ?_, ?_⟩
    · simp [Machine.set, Machine.setScratch, hother q hq]
    · simp [Machine.set, Machine.setScratch, Machine.get]

/-- A comparison leaves 1 or 0 in its register. -/
lemma evaluates_compare {rel : Rel} {l q : Scratch} {skip : Label}
    (hq : g.bank.isLive q = false) (hosts : h.Hosts (Gen.compareText rel l r q skip) rest)
    (ht : M.text = Gen.compareText rel l r q skip ++ rest) :
    ∃ M', h.Evaluates g M rest q (if rel.holds (M.scratch l) (M.scratch r) then 1 else 0)
      (M.view h.env.frame) M' := by
  have hother : ∀ p, g.bank.isLive p = true → p ≠ q := by
    rintro p hp rfl
    simp [hp] at hq
  have hbehind : textBehind skip h.unit = some rest := hosts.behind (a := [_, _, _, _]) (b := [])
  have hzero : h.Reaches M ({ M with
      text := .instr (.jumpIf rel.negated skip) :: .instr (.const q 1) :: .label skip :: rest
      flags := some (.compare (M.scratch l) (M.scratch r)) }.setScratch q 0) :=
    (reaches_instr ht rfl).instr rfl rfl
  cases hrel : rel.holds (M.scratch l) (M.scratch r) with
  | false =>
    have hjump : h.Reaches M ({ M with
        text := rest
        flags := some (.compare (M.scratch l) (M.scratch r)) }.setScratch q 0) := by
      refine hzero.instr (i := .jumpIf rel.negated skip) rfl ?_
      simp [exec, jump, Machine.setScratch, Rel.holds_negated, hrel, hbehind]
    refine ⟨_, passes_of_mem_eq hjump rfl rfl rfl, rfl, fun p hp => ?_, ?_⟩
    · simp [Machine.setScratch, hother p hp]
    · simp [Machine.setScratch]
  | true =>
    have hnext : h.Reaches M ({ M with
        text := .instr (.const q 1) :: .label skip :: rest
        flags := some (.compare (M.scratch l) (M.scratch r)) }.setScratch q 0) := by
      refine hzero.instr (i := .jumpIf rel.negated skip) rfl ?_
      simp [exec, Machine.setScratch, Rel.holds_negated, hrel]
    have hone := (hnext.instr rfl rfl).label rfl
    refine ⟨_, passes_of_mem_eq hone rfl rfl rfl, rfl, fun p hp => ?_, ?_⟩
    · simp [Machine.setScratch, hother p hp]
    · simp [Machine.setScratch]

lemma simulates_binary {op : BinOp} {left right : Expr} (hl : h.Simulates left)
    (hr : h.Simulates right) : h.Simulates (.binary op left right) := by
  intro g g' text rest q M v m hy hosts ht hsp heval
  obtain ⟨t, g₁, l, _, hyl, hyrest, rfl⟩ := Gen.yields_bind.mp hy
  obtain ⟨u, g₂, r, _, hyr, hop, rfl⟩ := Gen.yields_bind.mp hyrest
  simp only [Expr.eval, Option.bind_eq_bind, Option.bind_eq_some_iff, Option.pure_def,
    Option.some.injEq, Prod.exists, Prod.mk.injEq] at heval
  obtain ⟨a, m₁, ha, b, m₂, hb, v', hv, rfl, rfl⟩ := heval
  have hleft := left.takes hyl
  have hright := right.takes hyr
  rw [List.append_assoc, List.append_assoc] at ht
  obtain ⟨N, hN⟩ := hl hyl (by simpa using hosts.left) ht hsp ha
  obtain ⟨N', hN'⟩ := hr hyr hosts.right.left hN.text (by rw [hN.rsp, hN.rbp]; exact hsp)
    (by rw [hN.view]; exact hb)
  have hfree : g.bank.isLive l = false := Bank.isLive_of_next? hleft.first
  have hkeep : ∀ q, g.bank.isLive q = true → g₁.bank.isLive q = true := fun q hq => by
    rw [hleft.isLive, hq, Bool.or_true]
  have hboth := hN.trans hN' hkeep
  -- the left value is in a register that is in use, so the right operand kept it
  have hlval : N'.scratch l = a := by
    rw [hN'.live l (by simp [hleft.isLive]), hN.value]
  cases op with
  | arith op =>
    obtain ⟨rfl, rfl, rfl⟩ := Gen.yields_arith.mp hop
    obtain ⟨M', hM'⟩ := evaluates_arith (h := h) hfree hN'.text
      (by rw [hlval, hN'.value]; exact hv)
    rw [hN'.view] at hM'
    exact ⟨M', hboth.trans hM' fun _ => id⟩
  | compare rel =>
    obtain ⟨bank, halloc, rfl, rfl⟩ := Gen.yields_compare.mp hop
    have hq : q = l :=
      (hleft.compare (k := g₂.labels + 1) hright (left.lt_peak _) halloc).1
    obtain ⟨M', hM'⟩ := evaluates_compare (h := h) (hq ▸ hfree) hosts.right.right hN'.text
    rw [hN'.view, hlval, hN'.value, Option.some.inj hv] at hM'
    exact ⟨M', hboth.trans hM' fun _ => id⟩

/-- The code before a call puts the argument words in place. -/
def Delivers (h : Host) (f : Ident) (args : List Expr) : Prop :=
  ∀ {g g' : GenState} {text rest : List Line} {M : Machine} {vs : List Word} {m : Memory},
    g.bank.count = 0 → (f.pass h.env.arena args).Yields g text g' () → h.Hosts text rest →
    M.text = text ++ rest → M.rsp ≤ M.rbp - h.env.frame →
    Expr.evalArgs h.env args (M.view h.env.frame) = some (vs, m) →
    ∃ M', h.Passes M.rsp M rest m M' ∧ M'.rsp = M.rsp - 8 * f.pushed args ∧
      h.arguments f.routine M' = vs

/-- A call from where its arguments are in place. The words that it passed are gone after it. -/
lemma passes_call {f : String} {vs : List Word} {m' : Memory}
    (ht : M.text = .instr (.call f) :: rest) (hargs : h.arguments f M = vs)
    (hview : M.view h.env.frame = m) (hv : h.env.oracle f vs m = some (v, m')) :
    ∃ M', h.Passes (M.rsp + 8 * h.taken f) M rest m' M' ∧ M'.rsp = M.rsp ∧ M'.rax = v := by
  have hcall : h.exec { M with text := rest } (.call f) =
      some (h.returned { M with text := rest } (8 * h.taken f) v m') := by
    have hargs' : h.arguments f { M with text := rest } = vs := hargs
    have hview' : Machine.view { M with text := rest } h.env.frame = m := hview
    simp [exec, call, hargs', hview', hv]
  refine ⟨_, (passes_returned (reaches_instr ht hcall) rfl rfl rfl).mono (by simp), rfl, rfl⟩

/-- Up to the line of a call: the registers in use are saved, and below them the arguments are in
place. -/
lemma passes_lead {f : Ident} {args : List Expr} {rs : List Scratch} {n : ℕ} {vs : List Word}
    (hargs : h.Delivers f args) (hclear : g.bank.count = 0)
    (hy : (f.pass h.env.arena args).Yields g text g' ()) (hosts : h.Hosts text rest)
    (ht : M.text = rs.map (fun r => .instr (.push (.scratch r))) ++
      (List.replicate n (.instr .pushZero) ++ (text ++ rest)))
    (hsp : M.rsp ≤ M.rbp - h.env.frame)
    (heval : Expr.evalArgs h.env args (M.view h.env.frame) = some (vs, m)) :
    ∃ N, h.Passes M.rsp M rest m N ∧ N.rsp = M.rsp - 8 * (f.pushed args + n + rs.length) ∧
      h.arguments f.routine N = vs ∧
      wordsAt N.mem (M.rsp - 8 * rs.length) rs.length = rs.reverse.map M.scratch := by
  obtain ⟨M₁, hsave, hsp₁, hwords⟩ := passes_save (h := h) ht hsp
  obtain ⟨M₂, hpad, hsp₂⟩ := passes_pad (h := h) hsave.text (by rw [hsave.rbp]; omega)
  have hpushed : h.Passes M.rsp M _ _ M₂ := hsave.trans (hpad.mono (by omega))
  rw [hsave.view] at hpushed
  obtain ⟨N, hdeliver, hsp₃, harguments⟩ := hargs hclear hy hosts hpad.text
    (by rw [hpushed.rbp]; omega) (by rw [hpushed.view]; exact heval)
  refine ⟨N, hpushed.trans (hdeliver.mono (by omega)), by omega, harguments, ?_⟩
  -- what was saved lies above all that was pushed since
  rw [hdeliver.wordsAt (by omega) (by rw [hpushed.rbp]; omega),
    hpad.wordsAt (by omega) (by rw [hsave.rbp]; omega), ← hsp₁, hwords]

lemma simulates_call {f : Ident} {args : List Expr} (htaken : h.taken f.routine = f.pushed args)
    (hargs : h.Delivers f args) : h.Simulates (.call f args) := by
  intro g g' text rest r M v m hy hosts ht hsp heval
  have hfree : g.bank.isLive r = false := Bank.isLive_of_next? (Expr.takes _ hy).first
  rw [Expr.lower_call] at hy
  obtain ⟨n, t, g₁, bank, -, hyargs, halloc, rfl, rfl⟩ := Gen.yields_callWith.mp hy
  simp only [Expr.eval, Option.bind_eq_bind, Option.bind_eq_some_iff, Prod.exists] at heval
  obtain ⟨vs, m₁, hvs, hcall⟩ := heval
  simp only [List.append_assoc, List.cons_append, List.nil_append] at ht
  obtain ⟨N, hlead, hNsp, harguments, hsaved⟩ := passes_lead hargs (Gen.count_saved_live g.bank)
    hyargs (by simpa using hosts.right.right.left) ht hsp hvs
  obtain ⟨N₁, hback, hsp₁, hrax⟩ := passes_call hlead.text harguments hlead.view hcall
  obtain ⟨N₂, hdrop, htext₂, hrbp₂, hmem₂, hrax₂, hsp₂⟩ := reaches_drop (h := h) hback.text
  rw [htaken] at hback
  have hN₂sp : N₂.rsp = M.rsp - 8 * g.bank.live.length := by
    rw [hsp₂, hsp₁, hNsp]
    push_cast
    omega
  have hwords : wordsAt N₂.mem N₂.rsp g.bank.live.reverse.length =
      g.bank.live.reverse.map M.scratch := by
    rw [List.length_reverse, hmem₂, hN₂sp, hback.wordsAt (by omega) (by rw [hlead.rbp]; omega),
      hsaved]
  obtain ⟨N₃, hrestore, htext₃, hrbp₃, hmem₃, hrax₃, hsp₃, hscratch⟩ :=
    reaches_restore (h := h) htext₂ hwords
  have hresult := (hdrop.trans hrestore).instr htext₃ rfl
  have hend : h.Passes M.rsp _ rest _ _ :=
    passes_of_mem_eq hresult rfl (hrbp₃.trans hrbp₂) (hmem₃.trans hmem₂)
  rw [hback.view] at hend
  refine ⟨_, hlead.trans ((hback.mono (by omega)).trans hend), ?_, fun q hq => ?_, ?_⟩
  · simp only [Machine.set, Machine.setScratch]
    rw [hsp₃, hN₂sp, List.length_reverse]
    omega
  · have hne : q ≠ r := by
      rintro rfl
      simp [hq] at hfree
    simp [Machine.set, Machine.setScratch, hne, hscratch, Bank.mem_live, hq]
  · simp [Machine.set, Machine.setScratch, Machine.get, hrax₃, hrax₂, hrax]

/-- The code of the arguments of a call leaves their values on the stack, the first one lowest. -/
def PushesAll (h : Host) (es : List Expr) : Prop :=
  ∀ {g g' : GenState} {text rest : List Line} {M : Machine} {vs : List Word} {m : Memory},
    g.bank.count = 0 → (Expr.lowerArgs h.env.arena es).Yields g text g' () → h.Hosts text rest →
    M.text = text ++ rest → M.rsp ≤ M.rbp - h.env.frame →
    Expr.evalArgs h.env es (M.view h.env.frame) = some (vs, m) →
    ∃ M', h.Passes M.rsp M rest m M' ∧ M'.rsp = M.rsp - 8 * es.length ∧
      wordsAt M'.mem M'.rsp es.length = vs

lemma pushesAll_nil : h.PushesAll [] := by
  intro g g' text rest M vs m _ hy _ ht _ heval
  obtain ⟨rfl, rfl, -⟩ := Gen.yields_pure.mp hy
  obtain ⟨rfl, rfl⟩ := Prod.mk.inj (Option.some.inj heval)
  exact ⟨M, passes_of_mem_eq .refl ht rfl rfl, by simp, rfl⟩

lemma pushesAll_cons {e : Expr} {es : List Expr} (he : h.Simulates e) (hes : h.PushesAll es) :
    h.PushesAll (e :: es) := by
  intro g g' text rest M vs m hclear hy hosts ht hsp heval
  obtain ⟨t, g₁, _, _, hyes, hye, rfl⟩ := Gen.yields_bind.mp hy
  obtain ⟨u, g₂, r, _, hyr, hypush, rfl⟩ := Gen.yields_bind.mp hye
  obtain ⟨_, hyfree, rfl⟩ := Gen.yields_push_bind.mp hypush
  obtain ⟨rfl, rfl⟩ := Gen.yields_free.mp hyfree
  simp only [Expr.evalArgs, Option.bind_eq_bind, Option.bind_eq_some_iff, Option.pure_def,
    Option.some.injEq, Prod.exists, Prod.mk.injEq] at heval
  obtain ⟨ws, m₁, hws, v, m₂, hv, rfl, rfl⟩ := heval
  rw [List.append_assoc, List.append_assoc] at ht
  obtain ⟨N, hN, hNsp, hwords⟩ := hes hclear hyes (by simpa using hosts.left) ht hsp hws
  obtain ⟨N', hN'⟩ := he hyr hosts.right.left hN.text (by rw [hN.rbp]; omega)
    (by rw [hN.view]; exact hv)
  have hpush := passes_push (h := h) (v := v) hN'.text
    (by rw [← hN'.value]; rfl) (by rw [hN'.rsp, hN'.rbp, hN.rbp]; omega)
  rw [hN'.view] at hpush
  have hN'sp := hN'.rsp
  have hkept : wordsAt N'.mem N.rsp es.length = ws := by
    rw [hN'.wordsAt (Int.le_refl _) (by rw [hN.rbp]; omega), hwords]
  refine ⟨_, (hN.trans (hN'.mono (by omega))).trans (hpush.mono (by omega)), ?_, ?_⟩
  · simp only [Machine.push, List.length_cons]
    push_cast
    omega
  · refine (Machine.wordsAt_push { N' with text := rest } v es.length).trans ?_
    simp only
    rw [hN'sp, hkept]

/-- The value to print is in the register in which the routine takes it. -/
lemma delivers_printed {f : Ident} {e : Expr} (hf : f.name = printName) (he : h.Simulates e) :
    h.Delivers f [e] := by
  intro g g' text rest M vs m _ hy hosts ht hsp heval
  have hpass : f.pass h.env.arena [e] = Expr.lowerPrinted h.env.arena [e] := by
    simp [Ident.pass, hf]
  rw [hpass] at hy
  obtain ⟨t, g₁, r, _, hye, hymove, rfl⟩ := Gen.yields_bind.mp hy
  obtain ⟨_, hyfree, rfl⟩ := Gen.yields_instr_bind.mp hymove
  rw [Gen.yields_free_bind] at hyfree
  obtain ⟨rfl, rfl, -⟩ := Gen.yields_pure.mp hyfree
  simp only [Expr.evalArgs, Option.bind_eq_bind, Option.bind_some, Option.bind_eq_some_iff,
    Option.pure_def, Option.some.injEq, Prod.exists, Prod.mk.injEq] at heval
  obtain ⟨v, m', hv, rfl, rfl⟩ := heval
  rw [List.append_assoc] at ht
  obtain ⟨N, hN⟩ := he hye (by simpa using hosts.left) ht hsp hv
  have hmove : h.Passes M.rsp N rest _ _ := passes_instr hN.text rfl rfl rfl rfl
  rw [hN.view] at hmove
  refine ⟨_, hN.toPasses.trans hmove, ?_, ?_⟩
  · simp [Machine.set, hN.rsp, Ident.pushed, hf]
  · simp [arguments, Ident.routine, hf, Machine.set, Machine.get, hN.value]

lemma functionSymbol_ne_printSymbol (x : String) : functionSymbol x ≠ printSymbol := by
  intro hx
  have hlength := congrArg String.length hx
  rw [functionSymbol] at hlength hx
  split at hx
  · next hmain =>
    rw [beq_iff_eq.mp hmain] at hx
    exact absurd hx (by decide)
  · next hmain =>
    rw [if_neg hmain, String.length_append] at hlength
    have : "function_".length + x.length = 5 := hlength
    have : "function_".length = 9 := by decide
    omega

/-- The words that a call passes are those that its routine takes. -/
lemma taken_routine {f : Ident} {args : List Expr} (hf : f.Accepts h.env.arena args.length) :
    h.taken f.routine = f.pushed args := by
  by_cases hprint : f.name = printName
  · simp [taken, Ident.routine, Ident.pushed, hprint]
  · simp only [Ident.Accepts, beq_iff_eq, hprint, if_false] at hf
    simp [taken, Ident.routine, Ident.pushed, hprint, functionSymbol_ne_printSymbol, hf]

lemma delivers_pushed {f : Ident} {args : List Expr} (hf : f.name ≠ printName)
    (haccepts : f.Accepts h.env.arena args.length) (hargs : h.PushesAll args) :
    h.Delivers f args := by
  intro g g' text rest M vs m hclear hy hosts ht hsp heval
  simp only [Ident.Accepts, beq_iff_eq, hf, if_false] at haccepts
  simp only [Ident.pass, beq_iff_eq, hf, if_false] at hy
  obtain ⟨M', hpass, hM'sp, hwords⟩ := hargs hclear hy hosts ht hsp heval
  refine ⟨M', hpass, ?_, ?_⟩
  · simpa [Ident.pushed, hf] using hM'sp
  · simpa [arguments, Ident.routine, hf, functionSymbol_ne_printSymbol, haccepts] using hwords

end Host

mutual

/-- **Expressions**: the code of an expression computes its value. -/
theorem Expr.simulates {h : Host} : (e : Expr) → e.Ready h.env.arena h.env.frame → h.Simulates e
  | .int c, _ => fun hy _ ht _ heval => by
    obtain ⟨rfl, rfl⟩ := Prod.mk.inj (Option.some.inj heval)
    exact Host.evaluates_constant hy ht
  | .bool true, _ => fun hy _ ht _ heval => by
    obtain ⟨rfl, rfl⟩ := Prod.mk.inj (Option.some.inj heval)
    exact Host.evaluates_constant hy ht
  | .bool false, _ => fun hy _ ht _ heval => by
    obtain ⟨rfl, rfl⟩ := Prod.mk.inj (Option.some.inj heval)
    exact Host.evaluates_constant hy ht
  | .name _, hready => Host.simulates_name hready
  | .assign _ e, hready => Host.simulates_assign hready.1 (e.simulates hready.2)
  | .binary _ l r, hready => Host.simulates_binary (l.simulates hready.1) (r.simulates hready.2)
  | .call f args, hready => by
    refine Host.simulates_call (Host.taken_routine hready.1) ?_
    by_cases hf : f.name = printName
    · have hone : args.length = 1 := by simpa [Ident.Accepts, hf] using hready.1
      exact Expr.delivers_one hf args hone hready.2
    · exact Host.delivers_pushed hf hready.1 (Expr.pushesAll args hready.2)
termination_by structural e => e

theorem Expr.pushesAll {h : Host} : (es : List Expr) →
    Expr.ReadyAll h.env.arena h.env.frame es → h.PushesAll es
  | [], _ => Host.pushesAll_nil
  | e :: rest, hready => by
    obtain ⟨hfirst, hrest⟩ := hready
    have hsimulates : h.Simulates e := e.simulates hfirst
    have hpushes : h.PushesAll rest := Expr.pushesAll rest hrest
    exact Host.pushesAll_cons hsimulates hpushes
termination_by structural es => es

theorem Expr.delivers_one {h : Host} {f : Ident} (hf : f.name = printName) :
    (es : List Expr) → es.length = 1 → Expr.ReadyAll h.env.arena h.env.frame es → h.Delivers f es
  | [e], _, hready => Host.delivers_printed hf (e.simulates hready.1)
termination_by structural es => es

end

end TreeCompiler

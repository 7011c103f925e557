import TreeCompiler.Symbol
import TreeCompiler.Machine.Bank
import TreeCompiler.Machine.Assembly

/-!
Code generation steps. A step reads and changes the labels issued, the register bank and the
count of words pushed in the current function; it writes lines; and it returns a value or
stops. What a step wrote and changed before it stopped is kept. Each line is written down with
the labels and the bank at that moment.
-/

namespace TreeCompiler

/-- Why a tree has no code. -/
inductive LoweringError where
  | outOfRegisters
  | unresolved (name : String)
  | notAddressable (name : String)
  | outOfBounds (name : String) (offset : Nat)
deriving DecidableEq, Repr

def LoweringError.message : LoweringError → String
  | outOfRegisters => "out of registers"
  | unresolved x => "'" ++ x ++ "' reached code generation without a resolved symbol"
  | notAddressable x => "'" ++ x ++ "' has no storage"
  | outOfBounds x n => "element " ++ toString n ++ " of '" ++ x ++ "' lies outside its storage"

inductive Stop where
  | error (e : LoweringError)
  | dangling (d : Dangling)
deriving DecidableEq, Repr

structure GenState where
  labels : Nat := 0
  bank : Bank := {}
  depth : Nat := 0
deriving DecidableEq, Repr

structure Emitted where
  line : Line
  labels : Nat
  bank : Bank
deriving DecidableEq, Repr

structure Outcome (α : Type) where
  code : List Emitted
  state : GenState
  result : Except Stop α

def Gen (α : Type) : Type := GenState → Outcome α

namespace Gen

protected def pure {α : Type} (a : α) : Gen α := fun s => ⟨[], s, .ok a⟩

protected def bind {α β : Type} (x : Gen α) (f : α → Gen β) : Gen β := fun s =>
  match x s with
  | ⟨code, s, .ok a⟩ =>
    let next := f a s
    ⟨code ++ next.code, next.state, next.result⟩
  | ⟨code, s, .error e⟩ => ⟨code, s, .error e⟩

instance : Monad Gen where
  pure := Gen.pure
  bind := Gen.bind

theorem pure_apply {α : Type} (a : α) (s : GenState) : (pure a : Gen α) s = ⟨[], s, .ok a⟩ := rfl

theorem bind_of_ok {α β : Type} {x : Gen α} {f : α → Gen β} {s t : GenState}
    {code : List Emitted} {a : α} (h : x s = ⟨code, t, .ok a⟩) :
    (x >>= f) s = ⟨code ++ (f a t).code, (f a t).state, (f a t).result⟩ := by
  change Gen.bind x f s = _
  simp [Gen.bind, h]

theorem bind_of_error {α β : Type} {x : Gen α} {f : α → Gen β} {s t : GenState}
    {code : List Emitted} {e : Stop} (h : x s = ⟨code, t, .error e⟩) :
    (x >>= f) s = ⟨code, t, .error e⟩ := by
  change Gen.bind x f s = _
  simp [Gen.bind, h]

/-- Two steps in a row end well when both do. -/
theorem bind_eq_ok_iff {α β : Type} {x : Gen α} {f : α → Gen β} {s t : GenState}
    {code : List Emitted} {b : β} :
    (x >>= f) s = ⟨code, t, .ok b⟩ ↔
      ∃ c₁ s₁ a c₂, x s = ⟨c₁, s₁, .ok a⟩ ∧ f a s₁ = ⟨c₂, t, .ok b⟩ ∧ code = c₁ ++ c₂ := by
  constructor
  · intro h
    match hx : x s with
    | ⟨c₁, s₁, .ok a⟩ =>
      rw [bind_of_ok hx, Outcome.mk.injEq] at h
      obtain ⟨rfl, rfl, h⟩ := h
      exact ⟨c₁, s₁, a, (f a s₁).code, rfl, by rw [← h], rfl⟩
    | ⟨c₁, s₁, .error e⟩ =>
      rw [bind_of_error hx] at h
      simp at h
  · rintro ⟨c₁, s₁, a, c₂, hx, hf, rfl⟩
    rw [bind_of_ok hx, hf]

private theorem map_id {α : Type} (x : Gen α) : Gen.bind x Gen.pure = x := by
  funext s
  unfold Gen.bind
  match x s with
  | ⟨code, t, .ok a⟩ => simp [Gen.pure]
  | ⟨code, t, .error e⟩ => rfl

private theorem pure_then {α β : Type} (a : α) (f : α → Gen β) :
    Gen.bind (Gen.pure a) f = f a := by
  funext s
  simp [Gen.bind, Gen.pure]

private theorem bind_then {α β γ : Type} (x : Gen α) (f : α → Gen β) (g : β → Gen γ) :
    Gen.bind (Gen.bind x f) g = Gen.bind x fun a => Gen.bind (f a) g := by
  funext s
  unfold Gen.bind
  match x s with
  | ⟨code, t, .error e⟩ => rfl
  | ⟨code, t, .ok a⟩ =>
    dsimp only
    match f a t with
    | ⟨code', t', .ok b⟩ => simp
    | ⟨code', t', .error e⟩ => rfl

instance : LawfulMonad Gen := LawfulMonad.mk' Gen map_id pure_then bind_then

def stop {α : Type} (e : LoweringError) : Gen α := fun s => ⟨[], s, .error (.error e)⟩

def ofExcept {α : Type} : Except LoweringError α → Gen α
  | .ok a => pure a
  | .error e => stop e

/-- The symbol with that id. -/
def symbol (arena : Arena) (id : SymbolId) : Gen Symbol := fun s =>
  match Arena.find arena id with
  | .ok symbol => ⟨[], s, .ok symbol⟩
  | .error d => ⟨[], s, .error (.dangling d)⟩

def emit (line : Line) : Gen Unit := fun s => ⟨[⟨line, s.labels, s.bank⟩], s, .ok ()⟩

def instr (i : Instr) : Gen Unit := emit (.instr i)

def emitAll : List Line → Gen Unit
  | [] => pure ()
  | l :: rest => do
    emit l
    emitAll rest

/-- The next label. Labels are counted in 32 bits, through all units of a session: fewer than
`2 ^ 32` of them are taken to be made, so that the count does not wrap around. -/
def freshLabel : Gen Label := fun s => ⟨[], { s with labels := s.labels + 1 }, .ok ⟨s.labels⟩⟩

def liveRegisters : Gen (List Scratch) := fun s => ⟨[], s, .ok s.bank.live⟩

def alloc : Gen Scratch := fun s =>
  match s.bank.alloc? with
  | some (r, bank) => ⟨[], { s with bank }, .ok r⟩
  | none => ⟨[], s, .error (.error .outOfRegisters)⟩

def claim (r : Scratch) : Gen Unit := fun s => ⟨[], { s with bank := s.bank.claim r }, .ok ()⟩

def free (r : Scratch) : Gen Unit := fun s => ⟨[], { s with bank := s.bank.free r }, .ok ()⟩

def depth : Gen Nat := fun s => ⟨[], s, .ok s.depth⟩

def setDepth (n : Nat) : Gen Unit := fun s => ⟨[], { s with depth := n }, .ok ()⟩

def push (r : Scratch) : Gen Unit := do
  instr (.push (.scratch r))
  setDepth ((← depth) + 1)

def pop (r : Scratch) : Gen Unit := do
  instr (.pop (.scratch r))
  setDepth ((← depth) - 1)

/-- Makes the number of words on the stack even once `pending` more are pushed, and returns
how many words that took. -/
def pad (pending : Nat) : Gen Nat := do
  let d ← depth
  if (d + pending) % 2 = 0 then
    return 0
  else
    instr .pushZero
    setDepth (d + 1)
    return 1

def dropWords (words : Nat) : Gen Unit :=
  if words = 0 then pure ()
  else do
    instr (.raiseStack (words * wordSize))
    setDepth ((← depth) - words)

end Gen

end TreeCompiler

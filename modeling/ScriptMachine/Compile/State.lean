import ScriptMachine.Compile.Draft
import ScriptMachine.Heap.Alloc

/-!
# Compiling in one pass

The compiler reads the tokens once and emits code as it goes. Its state is the place among the
tokens, the drafts of the functions it is in, the classes it is in, how deep it is nested, the
errors so far, and the heap, because names and texts are interned and functions allocated while the
source is read.
A step either goes on, or stops with a compile error or with a fault; what it did before it
stopped stays done.
-/

namespace ScriptMachine.Compile

/-- Why compiling stops. -/
inductive Stop
  | problem (e : CompileError)
  | fault (f : Fault)

/-- The state of the compiler. `classes` tells for each class around, the innermost first,
whether it has a superclass; `nesting` counts the forms around. -/
structure State where
  tokens : Array Lexeme
  pos : Nat
  sourceBytes : Nat
  heap : Heap
  outer : List Handle
  draft : Draft
  enclosing : List Draft
  classes : List Bool
  nesting : Nat
  errors : Array CompileError

/-- The most errors that are reported. -/
def maxErrors : Nat := 20

end Compile

/-- A step of the compiler. -/
abbrev Compiler := EStateM Compile.Stop Compile.State

namespace Compile

namespace State

/-- The next token with its place. -/
def lexeme? (s : State) : Option Lexeme := s.tokens[s.pos]?

/-- The token read last. -/
def previous? (s : State) : Option Lexeme := if s.pos = 0 then none else s.tokens[s.pos - 1]?

/-- The next token. -/
def peek? (s : State) : Option Token := s.lexeme?.map Lexeme.token

/-- Whether all tokens are read. -/
def atEnd (s : State) : Bool := s.tokens.size ≤ s.pos

/-- The number of tokens left. -/
def remaining (s : State) : Nat := s.tokens.size - s.pos

/-- The line code is emitted for: that of the token read last. -/
def line (s : State) : UInt32 :=
  match s.previous? with
  | some l => l.line
  | none => (s.tokens[0]?.map Lexeme.line).getD 1

/-- How a message names the next token. -/
def found (s : State) : String :=
  match s.peek? with
  | some t => t.describe
  | none => "end of input"

/-- The span after the last byte. -/
def endSpan (s : State) : Source.Span := ⟨s.sourceBytes, s.sourceBytes⟩

/-- A problem with the next token. -/
def errorHere (s : State) (p : Problem) : CompileError :=
  match s.lexeme? with
  | some l => ⟨p, l.span, l.line⟩
  | none => ⟨p, s.endSpan, s.line⟩

/-- A problem with the token read last. -/
def errorBefore (s : State) (p : Problem) : CompileError :=
  match s.previous? with
  | some l => ⟨p, l.span, l.line⟩
  | none => s.errorHere p

/-- The span of the token read last. -/
def previousSpan (s : State) : Source.Span :=
  match s.previous? with
  | some l => l.span
  | none => s.endSpan

/-- The objects that unfinished functions and the caller keep alive, the outermost first. -/
def roots (s : State) : List Handle :=
  s.enclosing.reverse.flatMap Draft.handles ++ s.draft.handles ++ s.outer

/-- The number of functions being compiled. -/
def depth (s : State) : Nat := s.enclosing.length + 1

/-- The state one form further in. -/
def deeper (s : State) : State := { s with nesting := s.nesting + 1 }

/-- The state one form further out. -/
def shallower (s : State) : State := { s with nesting := s.nesting - 1 }

end State

/-- Stops with a problem with the next token. -/
def failHere {α : Type} (p : Problem) : Compiler α := fun s => .error (.problem (s.errorHere p)) s

/-- Stops with a problem with the token read last. -/
def failBefore {α : Type} (p : Problem) : Compiler α := fun s =>
  .error (.problem (s.errorBefore p)) s

/-- Runs a form one level deeper, or stops if that is too deep. The level is left again whether the
form succeeds or not. -/
def nested {α : Type} (form : Compiler α) : Compiler α := fun s =>
  if maxNesting ≤ s.nesting then failHere .tooDeeplyNested s
  else
    match form s.deeper with
    | .ok a s => .ok a s.shallower
    | .error stop s => .error stop s.shallower

/-- Where forms are nested too deeply, a form stops before its first step. -/
theorem nested_full {α : Type} {form : Compiler α} {s : State} (h : maxNesting ≤ s.nesting) :
    nested form s = failHere .tooDeeplyNested s := if_pos h

/-- A form that succeeds one level deeper succeeds, on the level it started on. -/
theorem nested_ok {α : Type} {form : Compiler α} {s s' : State} {a : α}
    (h : s.nesting < maxNesting) (hr : form s.deeper = .ok a s') :
    nested form s = .ok a s'.shallower := by
  simp only [nested, Nat.not_le.mpr h, if_false, hr]

/-- A form that stops one level deeper stops, on the level it started on. -/
theorem nested_error {α : Type} {form : Compiler α} {s s' : State} {stop : Stop}
    (h : s.nesting < maxNesting) (hr : form s.deeper = .error stop s') :
    nested form s = .error stop s'.shallower := by
  simp only [nested, Nat.not_le.mpr h, if_false, hr]

/-- A form succeeds if there is room for it and it succeeds one level deeper. -/
theorem nested_ok_iff {α : Type} {form : Compiler α} {s s' : State} {a : α} :
    nested form s = .ok a s' ↔
      s.nesting < maxNesting ∧ ∃ s₁, form s.deeper = .ok a s₁ ∧ s₁.shallower = s' := by
  rcases Nat.lt_or_ge s.nesting maxNesting with hlt | hfull
  · cases hr : form s.deeper with
    | ok b s₁ =>
      rw [nested_ok hlt hr]
      simp [hlt, and_assoc]
    | error stop s₁ =>
      rw [nested_error hlt hr]
      simp
  · simp [nested_full hfull, failHere, Nat.not_lt.mpr hfull]

/-- A form stops because it is too deep, or as it stops one level deeper. -/
theorem nested_error_iff {α : Type} {form : Compiler α} {s s' : State} {stop : Stop} :
    nested form s = .error stop s' ↔
      (maxNesting ≤ s.nesting ∧ .problem (s.errorHere .tooDeeplyNested) = stop ∧ s = s') ∨
        s.nesting < maxNesting ∧ ∃ s₁, form s.deeper = .error stop s₁ ∧ s₁.shallower = s' := by
  rcases Nat.lt_or_ge s.nesting maxNesting with hlt | hfull
  · cases hr : form s.deeper with
    | ok b s₁ =>
      rw [nested_ok hlt hr]
      simp [Nat.not_le.mpr hlt]
    | error stop s₁ =>
      rw [nested_error hlt hr]
      simp [hlt, Nat.not_le.mpr hlt, and_assoc]
  · simp [nested_full hfull, failHere, hfull, Nat.not_lt.mpr hfull]

/-- Reads the state. -/
@[inline] def look {α : Type} (f : State → α) : Compiler α := fun s => .ok (f s) s

/-- Goes past the next token. -/
def advance : Compiler Unit := modify fun s => { s with pos := s.pos + 1 }

/-- The next token, read. -/
def next? : Compiler (Option Token) := do
  let token ← look State.peek?
  if token.isSome then advance
  return token

/-- Whether the next token is a symbol. -/
def check (symbol : Symbol) : Compiler Bool := look fun s => s.peek?.any (·.isSymbol symbol)

/-- Reads a symbol if it is next. -/
def accept (symbol : Symbol) : Compiler Bool := do
  let hit ← check symbol
  if hit then advance
  return hit

/-- Reads a reserved word if it is next. -/
def acceptKeyword (keyword : Keyword) : Compiler Bool := do
  let hit ← look fun s => s.peek?.any (·.isKeyword keyword)
  if hit then advance
  return hit

/-- Reads a symbol if it is next and allowed. -/
def acceptIf (allowed : Bool) (symbol : Symbol) : Compiler Bool :=
  if allowed then accept symbol else pure false

/-- Stops because something else was expected here. -/
def failExpected {α : Type} (what : Expectation) : Compiler α := do
  let found ← look State.found
  failHere (.expected what found)

/-- Reads a symbol that has to be next. -/
def expect (symbol : Symbol) (what : Expectation) : Compiler Unit := do
  if !(← accept symbol) then failExpected what

/-- Reads a reserved word that has to be next. -/
def expectKeyword (keyword : Keyword) (what : Expectation) : Compiler Unit := do
  if !(← acceptKeyword keyword) then failExpected what

/-- Reads a name that has to be next. -/
def expectName (what : Expectation) : Compiler String := do
  match ← look State.peek? with
  | some (.name spelling) =>
    advance
    return spelling
  | _ => failExpected what

/-- Changes the draft of the innermost function. -/
@[inline] def modifyDraft (f : Draft → Draft) : Compiler Unit :=
  modify fun s => { s with draft := f s.draft }

/-- Emits an instruction for the line of the token read last. -/
def emit (i : Instr) : Compiler Unit := do
  let line ← look State.line
  modifyDraft (·.emit i.encode line)

/-- Emits instructions in their order. -/
def emitAll : List Instr → Compiler Unit
  | [] => pure ()
  | i :: rest => do
    emit i
    emitAll rest

/-- The offset of the next word of code. -/
def here : Compiler Nat := look fun s => s.draft.chunk.code.size

/-- Emits a jump whose distance is not known yet and answers with its offset. -/
def emitJump (jump : UInt16 → Instr) : Compiler Nat := do
  let at_ ← here
  emit (jump 0xFFFF)
  return at_

/-- Lets a jump go to the end of the code so far. -/
def patchJump (at_ : Nat) : Compiler Unit := do
  let distance := (← here) - at_ - 1
  if distance > Chunk.maxDistance then failBefore .jumpTooLarge
  modifyDraft fun d => { d with chunk := d.chunk.patch at_ distance.toUInt16 }

/-- Emits a jump back to `start`. -/
def emitLoop (start : Nat) : Compiler Unit := do
  let distance := (← here) + 1 - start
  if distance > Chunk.maxDistance then failBefore .loopTooLarge
  emit (.loop distance.toUInt16)

/-- Emits the return that ends a function's body: an initializer answers with its receiver. -/
def emitReturn : Compiler Unit := do
  let kind ← look fun s => s.draft.kind
  emit (if kind = .initializer then .getLocal 0 else .null)
  emit .return_

/-- The index of a constant, added to the pool if it is new. -/
def makeConstant (v : Value) : Compiler UInt16 := do
  match ← look fun s => s.draft.pool[v.bits]? with
  | some index => return index
  | none =>
    let size ← look fun s => s.draft.chunk.constants.size
    if size ≥ Chunk.maxConstants then failBefore .tooManyConstants
    let index := size.toUInt16
    modifyDraft fun d =>
      { d with chunk := d.chunk.pushConstant v, pool := d.pool.insert v.bits index }
    return index

/-- Emits the instruction that loads a constant. -/
def emitConstant (v : Value) : Compiler Unit := do
  let index ← makeConstant v
  emit (.constant index)

/-- The handle of a text, interned while everything in the making is kept alive. -/
def intern (chars : String) : Compiler Handle := fun s =>
  let heap := s.heap
  let rest := { s with heap := Heap.absent }
  match heap.intern chars fun _ => rest.roots with
  | .ok (r, heap) => .ok r { rest with heap := heap }
  | .error e => .error (.fault e) rest

/-- The constant of a name. -/
def nameConstant (name : String) : Compiler UInt16 := do
  let r ← intern name
  makeConstant (.ofHandle r)

/-- Begins the draft of an inner function. -/
def beginFunction (kind : FunctionKind) (name : Handle) : Compiler Unit :=
  modify fun s =>
    { s with draft := Draft.start kind (some name), enclosing := s.draft :: s.enclosing }

/-- The name under which a finished function is reported. -/
def finishedName (heap : Heap) (d : Draft) : Except Fault String :=
  match d.name with
  | none => .ok "<script>"
  | some r => return (← heap.string r).chars

/-- The function that a finished draft describes. -/
def Draft.prototype (d : Draft) : Prototype := ⟨d.arity, d.captures.size, d.name, d.chunk⟩

/-- Allocates the function of the innermost draft, whose place the draft around it takes, and
answers with its captures too. -/
def finishFunction : Compiler (Handle × Array Capture) := fun s =>
  match finishedName s.heap s.draft with
  | .error e => .error (.fault e) s
  | .ok name =>
    let code := s.draft.chunk.code.size
    let constants := s.draft.chunk.constants.size
    let heap := s.heap.note .debug fun _ =>
      s!"compiled {name} ({code} instructions, {constants} constants)"
    let kept := s.enclosing.reverse.flatMap Draft.handles ++ s.outer
    let rest := { s with heap := Heap.absent }
    match heap.alloc (.function rest.draft.prototype) fun _ => kept with
    | .error e => .error (.fault e) rest
    | .ok (r, heap) =>
      let captures := rest.draft.captures
      match rest.enclosing with
      | [] => .ok (r, captures) { rest with heap := heap }
      | outer :: enclosing =>
        .ok (r, captures) { rest with heap := heap, draft := outer, enclosing := enclosing }

end Compile

end ScriptMachine

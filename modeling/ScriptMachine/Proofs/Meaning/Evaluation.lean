import ScriptMachine.Machine.Session
import ScriptMachine.Proofs.Syntax.Tree

/-!
# The meaning of the imperative core

The programs without functions, classes, calls and properties, evaluated directly on their trees.
Every block has an environment of its own, the globals are around all of them, and the operands of
an operator are evaluated from left to right. Each loop goes round at most `fuel` times; an
evaluation that ends comes to the same with more.
-/

namespace ScriptMachine

/-! ### Values and variables -/

/-- A value of the core. Of a native function nothing is known but its name. -/
inductive Datum
  | number (x : Float)
  | truth (b : Bool)
  | null
  | text (chars : String)
  | native (name : String)

namespace Datum

/-- The name of the type of a value. -/
def typeName : Datum → String
  | number _ => "number"
  | truth _ => "bool"
  | null => "null"
  | text _ => "string"
  | native _ => "native function"

/-- The printed form of a value. -/
def shown : Datum → String
  | number x => Decimal.printed x
  | truth b => if b then "true" else "false"
  | null => "null"
  | text chars => chars
  | native _ => "<native fn>"

/-- Null and false count as false in a condition, everything else as true. -/
def isFalsey : Datum → Bool
  | null => true
  | truth b => !b
  | number _ | text _ | native _ => false

/-- Numbers are the same by the rules of floating point, all else by what it is. -/
def same : Datum → Datum → Bool
  | number x, number y => x == y
  | truth a, truth b => a == b
  | null, null => true
  | text s, text t => s == t
  | native s, native t => s == t
  | _, _ => false

end Datum

/-- The variables of a block with their values, the latest first. -/
abbrev Environment := List (String × Datum)

/-- The environment with another value for the latest variable of a name, if there is one. -/
def Environment.assign? (name : String) (d : Datum) : Environment → Option Environment
  | [] => none
  | (other, old) :: rest =>
    if other = name then some ((other, d) :: rest)
    else (assign? name d rest).map ((other, old) :: ·)

/-- What an evaluation knows and changes: the environments of the blocks around, the innermost
first, the globals, and where printed lines go. -/
structure Store where
  blocks : List Environment
  globals : String → Option Datum
  sink : Sink

namespace Store

/-- The value of the variable that a name stands for: the innermost one. -/
def find? (σ : Store) (name : String) : Option Datum :=
  (σ.blocks.findSome? (List.lookup name)).or (σ.globals name)

/-- The environments with another value for the innermost variable of a name. -/
def assignLocal? (name : String) (d : Datum) : List Environment → Option (List Environment)
  | [] => none
  | env :: rest =>
    match env.assign? name d with
    | some env => some (env :: rest)
    | none => (assignLocal? name d rest).map (env :: ·)

/-- The store with a value for a global. -/
def setGlobal (σ : Store) (name : String) (d : Datum) : Store :=
  { σ with globals := fun other => if other = name then some d else σ.globals other }

/-- The store with another value for the variable that a name stands for. -/
def assign? (σ : Store) (name : String) (d : Datum) : Option Store :=
  match assignLocal? name d σ.blocks with
  | some blocks => some { σ with blocks := blocks }
  | none => if (σ.globals name).isSome then some (σ.setGlobal name d) else none

/-- A declaration inside a block is one of the innermost block, else one of a global. -/
def declare (σ : Store) (name : String) (d : Datum) : Store :=
  match σ.blocks with
  | [] => σ.setGlobal name d
  | env :: rest => { σ with blocks := ((name, d) :: env) :: rest }

/-- At the beginning the native functions are the globals. -/
def fresh (sink : Sink) : Store where
  blocks := []
  globals name := if Native.all.any (·.name = name) then some (.native name) else none
  sink := sink

end Store

/-! ### Evaluations -/

/-- Why an evaluation stops: an error of the program, or rounds that were not enough. -/
inductive Stop
  | error (e : RuntimeError)
  | unfinished

/-- An evaluation changes the store, and may stop. -/
abbrev Eval := EStateM Stop Store

namespace Eval

variable {α : Type}

/-- Stops with an error of the program. -/
def raise (e : RuntimeError) : Eval α := fun σ => .error (.error e) σ

/-- The value of a variable. -/
def read (name : String) : Eval Datum := fun σ =>
  match σ.find? name with
  | some d => .ok d σ
  | none => .error (.error (.undefinedVariable name)) σ

/-- Assigns to a variable, which has to be there. -/
def write (name : String) (d : Datum) : Eval Unit := fun σ =>
  match σ.assign? name d with
  | some σ => .ok () σ
  | none => .error (.error (.undefinedVariable name)) σ

/-- Declares a variable. -/
def declare (name : String) (d : Datum) : Eval Unit := fun σ => .ok () (σ.declare name d)

/-- Prints a value on a line of its own, if the writer takes it. -/
def print (d : Datum) : Eval Unit := fun σ =>
  match σ.sink.give d.shown with
  | (none, sink) => .ok () { σ with sink := sink }
  | (some error, sink) => .error (.error (.output error)) { σ with sink := sink }

/-- Evaluates inside a block of its own. -/
def inBlock (x : Eval Unit) : Eval Unit := do
  modify fun σ => { σ with blocks := [] :: σ.blocks }
  x
  modify fun σ => { σ with blocks := σ.blocks.tail }

/-- Goes round as long as the rounds ask for another one. -/
def rounds (round : Eval Bool) : (fuel : Nat) → Eval Unit
  | 0 => fun σ => .error .unfinished σ
  | fuel + 1 => do if ← round then rounds round fuel

/-- An operator on two numbers. -/
def numbers (operator : Symbol) (f : Float → Float → Datum) : Datum → Datum → Eval Datum
  | .number x, .number y => pure (f x y)
  | a, b => raise (.typeMismatch operator .numbers [a.typeName, b.typeName])

/-- The sum of two numbers, or two texts joined. -/
def add : Datum → Datum → Eval Datum
  | .number x, .number y => pure (.number (x + y))
  | .text s, .text t => pure (.text (s ++ t))
  | a, b => raise (.typeMismatch .plus .numbersOrStrings [a.typeName, b.typeName])

/-- The opposite of a number. -/
def negate : Datum → Eval Datum
  | .number x => pure (.number (-x))
  | d => raise (.typeMismatch .minus .number [d.typeName])

end Eval

/-- What an operator makes of two values. -/
def Arithmetic.eval : Arithmetic → Datum → Datum → Eval Datum
  | add => Eval.add
  | subtract => Eval.numbers .minus fun x y => .number (x - y)
  | multiply => Eval.numbers .star fun x y => .number (x * y)
  | divide => Eval.numbers .slash fun x y => .number (x / y)

/-- What an operator makes of two values. A weak comparison means that the opposite strict one does
not hold. -/
def BinaryOp.eval : BinaryOp → Datum → Datum → Eval Datum
  | arithmetic op => op.eval
  | equal => fun a b => return .truth (a.same b)
  | notEqual => fun a b => return .truth (!a.same b)
  | greater => Eval.numbers .greater fun x y => .truth (x > y)
  | greaterEqual => fun a b => do
    let less ← Eval.numbers .less (fun x y => .truth (x < y)) a b
    return .truth less.isFalsey
  | less => Eval.numbers .less fun x y => .truth (x < y)
  | lessEqual => fun a b => do
    let greater ← Eval.numbers .greater (fun x y => .truth (x > y)) a b
    return .truth greater.isFalsey

/-! ### Trees -/

namespace Core

/-- The expressions of the core. -/
inductive Expr
  | number (x : Float)
  | text (content : String)
  | true_
  | false_
  | null
  | group (e : Expr)
  | negate (e : Expr)
  | not (e : Expr)
  | variable_ (name : String)
  | assign (name : String) (e : Expr)
  | update (name : String) (op : Arithmetic) (e : Expr)
  | binary (op : BinaryOp) (l r : Expr)
  | both (l r : Expr)
  | either (l r : Expr)

/-- The statements of the core. -/
inductive Stmt
  | let_ (name : String) (init : Option Expr)
  | print (e : Expr)
  | expression (e : Expr)
  | if_ (test : Expr) (body : Stmt) (otherwise : Option Stmt)
  | while_ (test : Expr) (body : Stmt)
  | doWhile (body : Stmt) (test : Expr)
  | for_ (init : Option Stmt) (test : Option Expr) (step : Option Expr) (body : Stmt)
  | block (body : List Stmt)

/-- What holds of a statement if it holds of its parts holds of every statement. -/
@[induction_eliminator]
theorem Stmt.induct {motive : Stmt → Prop} (let_ : ∀ name init, motive (.let_ name init))
    (print : ∀ e, motive (.print e)) (expression : ∀ e, motive (.expression e))
    (if_ : ∀ test body otherwise, motive body → (∀ s, otherwise = some s → motive s) →
      motive (.if_ test body otherwise))
    (while_ : ∀ test body, motive body → motive (.while_ test body))
    (doWhile : ∀ body test, motive body → motive (.doWhile body test))
    (for_ : ∀ init test step body, (∀ s, init = some s → motive s) → motive body →
      motive (.for_ init test step body))
    (block : ∀ body, (∀ s ∈ body, motive s) → motive (.block body)) (s : Stmt) : motive s :=
  @Stmt.rec motive (fun o => ∀ s, o = some s → motive s) (fun body => ∀ s ∈ body, motive s)
    let_ print expression if_ while_ doWhile for_ block (fun _ h => by cases h)
    (fun _ h _ hs => Option.some.inj hs ▸ h) (List.forall_mem_nil _)
    (fun _ _ h hs => List.forall_mem_cons.mpr ⟨h, hs⟩) s

/-- An expression of the core among all expressions. -/
def Expr.tree : Expr → ScriptMachine.Expr
  | number x => .number x
  | text content => .text content
  | true_ => .true_
  | false_ => .false_
  | null => .null
  | group e => .group e.tree
  | negate e => .negate e.tree
  | not e => .not e.tree
  | variable_ name => .variable_ name
  | assign name e => .assign name e.tree
  | update name op e => .update name op e.tree
  | binary op l r => .binary op l.tree r.tree
  | both l r => .both l.tree r.tree
  | either l r => .either l.tree r.tree

mutual

/-- A statement of the core among all statements. -/
def Stmt.tree : Stmt → ScriptMachine.Stmt
  | let_ name init => .let_ name (init.map Expr.tree)
  | print e => .print e.tree
  | expression e => .expression e.tree
  | if_ test body otherwise => .if_ test.tree body.tree (Stmt.optionTree otherwise)
  | while_ test body => .while_ test.tree body.tree
  | doWhile body test => .doWhile body.tree test.tree
  | for_ init test step body =>
    .for_ (Stmt.optionTree init) (test.map Expr.tree) (step.map Expr.tree) body.tree
  | block body => .block (Stmt.listTree body)

/-- A statement of the core among all statements, if there is one. -/
def Stmt.optionTree : Option Stmt → Option ScriptMachine.Stmt
  | none => none
  | some s => some s.tree

/-- Statements of the core among all statements. -/
def Stmt.listTree : List Stmt → List ScriptMachine.Stmt
  | [] => []
  | s :: ss => s.tree :: Stmt.listTree ss

end

/-! ### The evaluation of trees -/

open Eval

/-- The value of an expression. The operators `&&` and `||` come to the operand that decides. -/
def Expr.eval : Expr → Eval Datum
  | number x => pure (.number x)
  | text content => pure (.text content)
  | true_ => pure (.truth true)
  | false_ => pure (.truth false)
  | null => pure .null
  | group e => e.eval
  | negate e => do Eval.negate (← e.eval)
  | not e => do return .truth (← e.eval).isFalsey
  | variable_ name => read name
  | assign name e => do
    let d ← e.eval
    write name d
    return d
  | update name op e => do
    let old ← read name
    let d ← op.eval old (← e.eval)
    write name d
    return d
  | binary op l r => do
    let a ← l.eval
    op.eval a (← r.eval)
  | both l r => do
    let a ← l.eval
    if a.isFalsey then return a else r.eval
  | either l r => do
    let a ← l.eval
    if a.isFalsey then r.eval else return a

/-- Whether a condition holds. -/
def Expr.holds (test : Expr) : Eval Bool := do return !(← test.eval).isFalsey

/-- Whether the condition of a loop holds, if it has one. -/
def Expr.optionHolds : Option Expr → Eval Bool
  | none => pure true
  | some test => test.holds

/-- Evaluates an expression for what it does, if there is one. -/
def Expr.optionDo : Option Expr → Eval Unit
  | none => pure ()
  | some e => do let _ ← e.eval

mutual

/-- Does what a statement says. -/
def Stmt.exec (fuel : Nat) : Stmt → Eval Unit
  | let_ name none => declare name .null
  | let_ name (some e) => do declare name (← e.eval)
  | print e => do Eval.print (← e.eval)
  | expression e => do let _ ← e.eval
  | if_ test body otherwise => do
    if ← test.holds then body.exec fuel else Stmt.optionExec fuel otherwise
  | while_ test body =>
    rounds (do
      if ← test.holds then
        body.exec fuel
        return true
      else return false) fuel
  | doWhile body test =>
    rounds (do
      body.exec fuel
      test.holds) fuel
  | for_ init test step body =>
    inBlock do
      Stmt.optionExec fuel init
      rounds (do
        if ← Expr.optionHolds test then
          body.exec fuel
          Expr.optionDo step
          return true
        else return false) fuel
  | block body => inBlock (Stmt.listExec fuel body)

/-- Does what a statement says, if there is one. -/
def Stmt.optionExec (fuel : Nat) : Option Stmt → Eval Unit
  | none => pure ()
  | some s => s.exec fuel

/-- Does what statements say, in their order. -/
def Stmt.listExec (fuel : Nat) : List Stmt → Eval Unit
  | [] => pure ()
  | s :: ss => do
    s.exec fuel
    Stmt.listExec fuel ss

end

/-- Evaluates a program on a sink, with the native functions as its globals. -/
def evaluate (fuel : Nat) (program : List Stmt) (sink : Sink) : EStateM.Result Stop Store Unit :=
  Stmt.listExec fuel program (Store.fresh sink)

end Core

end ScriptMachine

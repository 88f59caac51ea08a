import ScriptMachine.Proofs.Scoping.Heights
import ScriptMachine.Proofs.Syntax.Translation

/-!
# Which code belongs to a tree

`Codes` says for each form of expression and statement which words are its code, if the visible
locals where it stands are given by a scope. Every instruction that reads or writes a variable is
the one for where the name is found, the end of a scope takes each of its locals off the stack by
the instruction for whether it was captured, and the closure of a function marks the locals that
it captures. After each statement of a list the stack is as high as the scope is long, so the slot
of a local is where its value is.
-/

namespace ScriptMachine

open Compile (Access FunctionKind)

/-- The code that ends the body of a function: an initializer answers with its receiver. -/
def FunctionKind.finalReturn (kind : FunctionKind) : List UInt32 :=
  [(if kind = .initializer then Instr.getLocal 0 else .null).encode, Instr.return_.encode]

namespace Scope

/-- The code that takes the locals above a height off the stack. -/
def exit (height : Nat) (scope : Scope) : List UInt32 :=
  (scope.take (scope.length - height)).map fun b => b.leave.encode

/-- The locals up to a height. -/
def keep (height : Nat) (scope : Scope) : Scope := scope.drop (scope.length - height)

end Scope

/-! ### Expressions -/

mutual

/-- Some words are the code of an expression. -/
inductive Expr.Codes (B : Body) (scope : Scope) : Expr → List UInt32 → Prop
  | number {x : Float} {k : UInt16} (constant : B.constants[k.toNat]? = some (.ofFloat x)) :
      Codes B scope (.number x) [(Instr.constant k).encode]
  | text {content : String} {k : UInt16} (names : B.Names k content) :
      Codes B scope (.text content) [(Instr.constant k).encode]
  | true_ : Codes B scope .true_ [Instr.true_.encode]
  | false_ : Codes B scope .false_ [Instr.false_.encode]
  | null : Codes B scope .null [Instr.null.encode]
  | group {e : Expr} {ws : List UInt32} (inner : Codes B scope e ws) : Codes B scope (.group e) ws
  | negate {e : Expr} {ws : List UInt32} (operand : Codes B scope e ws) :
      Codes B scope (.negate e) (ws ++ [Instr.negate.encode])
  | not {e : Expr} {ws : List UInt32} (operand : Codes B scope e ws) :
      Codes B scope (.not e) (ws ++ [Instr.not.encode])
  | variable_ {name : String} {a : Access} (found : B.Finds scope name a) :
      Codes B scope (.variable_ name) [a.get.encode]
  | assign {name : String} {e : Expr} {a : Access} {ws : List UInt32}
      (found : B.Finds scope name a) (value : Codes B scope e ws) :
      Codes B scope (.assign name e) (ws ++ [a.set.encode])
  | update {name : String} {op : Arithmetic} {e : Expr} {a : Access} {ws : List UInt32}
      (found : B.Finds scope name a) (value : Codes B scope e ws) :
      Codes B scope (.update name op e) (a.get.encode :: ws ++ [op.instr.encode, a.set.encode])
  | this {a : Access} (found : B.Finds scope "this" a) : Codes B scope .this [a.get.encode]
  | superGet {name : String} {k : UInt16} {a b : Access} (names : B.Names k name)
      (receiver : B.Finds scope "this" a) (parent : B.Finds scope "super" b) :
      Codes B scope (.superGet name) [a.get.encode, b.get.encode, (Instr.getSuper k).encode]
  | superCall {name : String} {args : List Expr} {k : UInt16} {count : UInt8} {a b : Access}
      {ws : List UInt32} (names : B.Names k name) (receiver : B.Finds scope "this" a)
      (arguments : ListCodes B scope args ws) (number : count.toNat = args.length)
      (parent : B.Finds scope "super" b) : Codes B scope (.superCall name args)
        (a.get.encode :: ws ++ [b.get.encode, (Instr.superInvoke k count).encode])
  | binary {op : BinaryOp} {l r : Expr} {v w : List UInt32} (left : Codes B scope l v)
      (right : Codes B scope r w) :
      Codes B scope (.binary op l r) (v ++ w ++ op.code.map Instr.encode)
  | both {l r : Expr} {v w : List UInt32} {d : UInt16} (left : Codes B scope l v)
      (right : Codes B scope r w) (skip : d.toNat = w.length + 1) :
      Codes B scope (.both l r) (v ++ (Instr.jumpIfFalse d).encode :: Instr.pop.encode :: w)
  | either {l r : Expr} {v w : List UInt32} {d d' : UInt16} (left : Codes B scope l v)
      (right : Codes B scope r w) (skip : d.toNat = 1) (leave : d'.toNat = w.length + 1) :
      Codes B scope (.either l r)
        (v ++ (Instr.jumpIfFalse d).encode :: (Instr.jump d').encode :: Instr.pop.encode :: w)
  | call {f : Expr} {args : List Expr} {count : UInt8} {v w : List UInt32}
      (callee : Codes B scope f v) (arguments : ListCodes B scope args w)
      (number : count.toNat = args.length) :
      Codes B scope (.call f args) (v ++ w ++ [(Instr.call count).encode])
  | get {o : Expr} {name : String} {k : UInt16} {ws : List UInt32} (object : Codes B scope o ws)
      (names : B.Names k name) :
      Codes B scope (.get o name) (ws ++ [(Instr.getProperty k).encode])
  | set {o e : Expr} {name : String} {k : UInt16} {v w : List UInt32} (object : Codes B scope o v)
      (names : B.Names k name) (value : Codes B scope e w) :
      Codes B scope (.set o name e) (v ++ w ++ [(Instr.setProperty k).encode])
  | updateField {o e : Expr} {name : String} {op : Arithmetic} {k : UInt16} {v w : List UInt32}
      (object : Codes B scope o v) (names : B.Names k name) (value : Codes B scope e w) :
      Codes B scope (.updateField o name op e)
        (v ++ Instr.duplicate.encode :: (Instr.getProperty k).encode :: w ++
          [op.instr.encode, (Instr.setProperty k).encode])
  | invoke {o : Expr} {name : String} {args : List Expr} {k : UInt16} {count : UInt8}
      {v w : List UInt32} (object : Codes B scope o v) (names : B.Names k name)
      (arguments : ListCodes B scope args w) (number : count.toNat = args.length) :
      Codes B scope (.invoke o name args) (v ++ w ++ [(Instr.invoke k count).encode])

/-- Some words are the code of arguments. -/
inductive Expr.ListCodes (B : Body) (scope : Scope) : List Expr → List UInt32 → Prop
  | nil : ListCodes B scope [] []
  | cons {e : Expr} {es : List Expr} {v w : List UInt32} (first : Expr.Codes B scope e v)
      (rest : ListCodes B scope es w) : ListCodes B scope (e :: es) (v ++ w)

end

/-! ### Declarations -/

/-- How a name is declared: inside a scope its value on top of the stack becomes a local, else a
global is defined by it. The words define the global. -/
inductive Binds (B : Body) (scope : Scope) (name : String) : Bool → List UInt32 → Scope → Prop
  | global {k : UInt16} (names : B.Names k name) :
      Binds B scope name false [(Instr.defineGlobal k).encode] scope
  | local_ : Binds B scope name true [] (⟨name, false⟩ :: scope)

/-- The code of the part of a class declaration about its superclass, which methods find in a
local of their own scope. -/
inductive ParentCodes (B : Body) (scope : Scope) (name : String) :
    Option String → List UInt32 → Scope → Prop
  | none : ParentCodes B scope name none [] scope
  | some {parent : String} {a b : Access} (parentFound : B.Finds scope parent a)
      (found : B.Finds (⟨"super", false⟩ :: scope) name b) :
      ParentCodes B scope name (some parent)
        [a.get.encode, b.get.encode, Instr.inherit.encode] (⟨"super", false⟩ :: scope)

/-- The code of the condition of a counting loop with `after` words behind it up to the end of the
loop, and the code behind the loop. -/
inductive TestCodes (B : Body) (scope : Scope) (after : Nat) :
    Option Expr → List UInt32 → List UInt32 → Prop
  | none : TestCodes B scope after none [] []
  | some {test : Expr} {ws : List UInt32} {d : UInt16} (codes : test.Codes B scope ws)
      (leave : d.toNat = after + 1) : TestCodes B scope after (some test)
        (ws ++ [(Instr.jumpIfFalse d).encode, Instr.pop.encode]) [Instr.pop.encode]

/-- The code of what a counting loop with `before` words of condition does after its body, and how
far before the body the code is that follows the body. -/
inductive StepCodes (B : Body) (scope : Scope) (before : Nat) :
    Option Expr → List UInt32 → Nat → Prop
  | none : StepCodes B scope before none [] before
  | some {step : Expr} {ws : List UInt32} {d d' : UInt16} (codes : step.Codes B scope ws)
      (skip : d.toNat = ws.length + 2) (back : d'.toNat = before + ws.length + 3) :
      StepCodes B scope before (some step)
        ((Instr.jump d).encode :: ws ++ [Instr.pop.encode, (Instr.loop d').encode])
        (ws.length + 2)

/-! ### Statements -/

mutual

/-- Some words are the code of a statement, inside a scope or outside of all, that leads from one
scope to another. -/
inductive Stmt.Codes : Body → Scope → Bool → Stmt → List UInt32 → Scope → Prop
  | declare {B : Body} {scope scope' : Scope} {inside : Bool} {name : String}
      {define : List UInt32} (binds : Binds B scope name inside define scope') :
      Stmt.Codes B scope inside (.let_ name none) (Instr.null.encode :: define) scope'
  | define {B : Body} {scope scope' : Scope} {inside : Bool} {name : String} {e : Expr}
      {ws define : List UInt32} (value : e.Codes B scope ws)
      (binds : Binds B scope name inside define scope') :
      Stmt.Codes B scope inside (.let_ name (some e)) (ws ++ define) scope'
  | def_ {B : Body} {scope scope₁ scope' : Scope} {inside : Bool} {f : Function}
      {ws define : List UInt32} (binds : Binds B scope f.name inside define scope₁)
      (function : f.Codes B scope₁ .function ws scope') :
      Stmt.Codes B scope inside (.def_ f) (ws ++ define) scope'
  | class_ {B : Body} {scope scope₁ scope₂ scope₃ : Scope} {inside : Bool} {name : String}
      {parent : Option String} {methods : List Function} {k : UInt16} {a : Access}
      {define inherit ws : List UInt32} (names : B.Names k name)
      (binds : Binds B scope name inside define scope₁)
      (above : ParentCodes B scope₁ name parent inherit scope₂) (found : B.Finds scope₂ name a)
      (methodsCode : Function.ListCodes B scope₂ methods ws scope₃) :
      Stmt.Codes B scope inside (.class_ name parent methods)
        ((Instr.class_ k).encode :: define ++ inherit ++ a.get.encode :: ws ++
          Instr.pop.encode :: scope₃.exit scope₁.length) (scope₃.keep scope₁.length)
  | print {B : Body} {scope : Scope} {inside : Bool} {e : Expr} {ws : List UInt32}
      (value : e.Codes B scope ws) :
      Stmt.Codes B scope inside (.print e) (ws ++ [Instr.print.encode]) scope
  | expression {B : Body} {scope : Scope} {inside : Bool} {e : Expr} {ws : List UInt32}
      (value : e.Codes B scope ws) :
      Stmt.Codes B scope inside (.expression e) (ws ++ [Instr.pop.encode]) scope
  | finish {B : Body} {scope : Scope} {inside : Bool} :
      Stmt.Codes B scope inside (.return_ none) (FunctionKind.finalReturn B.kind) scope
  | construct {B : Body} {scope : Scope} {inside : Bool} {e : Expr} {ws : List UInt32}
      (kind : B.kind = .initializer) (value : e.Codes B scope ws) :
      Stmt.Codes B scope inside (.return_ (some e))
        (ws ++ Instr.pop.encode :: FunctionKind.finalReturn B.kind) scope
  | return_ {B : Body} {scope : Scope} {inside : Bool} {e : Expr} {ws : List UInt32}
      (kind : B.kind ≠ .initializer) (value : e.Codes B scope ws) :
      Stmt.Codes B scope inside (.return_ (some e)) (ws ++ [Instr.return_.encode]) scope
  | when_ {B : Body} {scope scope' : Scope} {inside : Bool} {test : Expr} {body : Stmt}
      {v w : List UInt32} {d d' : UInt16} (condition : test.Codes B scope v)
      (yes : body.Codes B scope inside w scope') (same : scope'.length = scope.length)
      (skip : d.toNat = w.length + 2) (leave : d'.toNat = 1) :
      Stmt.Codes B scope inside (.if_ test body none)
        (v ++ (Instr.jumpIfFalse d).encode :: (Instr.pop.encode :: w ++
          (Instr.jump d').encode :: [Instr.pop.encode])) scope'
  | if_ {B : Body} {scope scope₁ scope' : Scope} {inside : Bool} {test : Expr}
      {body otherwise : Stmt} {u v w : List UInt32} {d d' : UInt16}
      (condition : test.Codes B scope v) (yes : body.Codes B scope inside w scope₁)
      (no : otherwise.Codes B scope₁ inside u scope') (same : scope₁.length = scope.length)
      (same' : scope'.length = scope₁.length) (skip : d.toNat = w.length + 2)
      (leave : d'.toNat = u.length + 1) :
      Stmt.Codes B scope inside (.if_ test body (some otherwise))
        (v ++ (Instr.jumpIfFalse d).encode :: (Instr.pop.encode :: w ++
          (Instr.jump d').encode :: (Instr.pop.encode :: u))) scope'
  | while_ {B : Body} {scope scope' : Scope} {inside : Bool} {test : Expr} {body : Stmt}
      {v w : List UInt32} {d d' : UInt16} (condition : test.Codes B scope v)
      (codes : body.Codes B scope inside w scope') (same : scope'.length = scope.length)
      (leave : d.toNat = w.length + 2) (back : d'.toNat = v.length + w.length + 3) :
      Stmt.Codes B scope inside (.while_ test body)
        (v ++ [(Instr.jumpIfFalse d).encode, Instr.pop.encode] ++ w ++
          (Instr.loop d').encode :: [Instr.pop.encode]) scope'
  | doWhile {B : Body} {scope scope' : Scope} {inside : Bool} {test : Expr} {body : Stmt}
      {v w : List UInt32} {d d' : UInt16} (codes : body.Codes B scope inside v scope')
      (condition : test.Codes B scope' w) (same : scope'.length = scope.length)
      (leave : d.toNat = 2) (back : d'.toNat = v.length + w.length + 3) :
      Stmt.Codes B scope inside (.doWhile body test)
        (v ++ w ++ [(Instr.jumpIfFalse d).encode, Instr.pop.encode, (Instr.loop d').encode,
          Instr.pop.encode]) scope'
  | for_ {B : Body} {scope scope₁ scope₂ : Scope} {inside : Bool} {init : Option Stmt}
      {test step : Option Expr} {body : Stmt} {start T X P w : List UInt32} {back : Nat}
      {d : UInt16} (first : Stmt.OptionCodes B scope init start scope₁)
      (condition : TestCodes B scope₁ (P.length + w.length + 1) test T X)
      (advance : StepCodes B scope₁ T.length step P back)
      (codes : body.Codes B scope₁ true w scope₂) (same : scope₂.length = scope₁.length)
      (loop : d.toNat = back + w.length + 1) :
      Stmt.Codes B scope inside (.for_ init test step body)
        (start ++ (T ++ P ++ w ++ (Instr.loop d).encode :: X) ++ scope₂.exit scope.length)
        (scope₂.keep scope.length)
  | block {B : Body} {scope scope' : Scope} {inside : Bool} {body : List Stmt} {ws : List UInt32}
      (codes : Stmt.ListCodes B scope true body ws scope') :
      Stmt.Codes B scope inside (.block body) (ws ++ scope'.exit scope.length)
        (scope'.keep scope.length)

/-- Some words are the code of what a counting loop starts with, if there is anything. -/
inductive Stmt.OptionCodes : Body → Scope → Option Stmt → List UInt32 → Scope → Prop
  | none {B : Body} {scope : Scope} : Stmt.OptionCodes B scope none [] scope
  | some {B : Body} {scope scope' : Scope} {init : Stmt} {ws : List UInt32}
      (codes : init.Codes B scope true ws scope') (height : Leads B scope.length ws scope'.length) :
      Stmt.OptionCodes B scope (some init) ws scope'

/-- Some words are the code of statements in their order. From one to the next, the stack is as
high as the scope is long. -/
inductive Stmt.ListCodes : Body → Scope → Bool → List Stmt → List UInt32 → Scope → Prop
  | nil {B : Body} {scope : Scope} {inside : Bool} : Stmt.ListCodes B scope inside [] [] scope
  | cons {B : Body} {scope scope₁ scope' : Scope} {inside : Bool} {s : Stmt} {ss : List Stmt}
      {v w : List UInt32} (first : s.Codes B scope inside v scope₁)
      (height : Leads B scope.length v scope₁.length)
      (rest : Stmt.ListCodes B scope₁ inside ss w scope') :
      Stmt.ListCodes B scope inside (s :: ss) (v ++ w) scope'

/-- Some words make the closure of a function on top of the stack, which marks the locals that it
captures. The function has the code of its body, which finds names among the parameters, in the
captures and in the functions around. -/
inductive Function.Codes : Body → Scope → FunctionKind → Function → List UInt32 → Scope → Prop
  | mk {B : Body} {scope scope' : Scope} {kind : FunctionKind} {name : String}
      {params : List String} {body : List Stmt} {k : UInt16} {r : Handle} {f : Prototype}
      {captures : List Capture} {ws : List UInt32}
      (constant : B.constants[k.toNat]? = some (.ofHandle r))
      (object : B.heap.object? r = some (.function f)) (arity : f.arity.toNat = params.length)
      (count : f.upvalueCount = captures.length)
      (codes : Stmt.ListCodes ⟨B.heap, kind, f.chunk.constants.toList, captures,
        ⟨scope, B.captures⟩ :: B.outer⟩ (.start kind params) true body ws scope')
      (code : f.chunk.code.toList = ws ++ FunctionKind.finalReturn kind) :
      Function.Codes B scope kind ⟨name, params, body⟩
        ((Instr.closure k).encode :: captures.map Capture.encode) (scope.mark captures)

/-- Some words add methods to the class on top of the stack. -/
inductive Function.ListCodes : Body → Scope → List Function → List UInt32 → Scope → Prop
  | nil {B : Body} {scope : Scope} : Function.ListCodes B scope [] [] scope
  | cons {B : Body} {scope scope₁ scope' : Scope} {f : Function} {fs : List Function} {k : UInt16}
      {v w : List UInt32} (names : B.Names k f.name)
      (first : f.Codes B scope (methodKind f.name) v scope₁)
      (rest : Function.ListCodes B scope₁ fs w scope') :
      Function.ListCodes B scope (f :: fs) (v ++ (Instr.method k).encode :: w) scope'

end

/-! ### Heights -/

variable {B : Body} {scope scope' : Scope} {n : Nat} {ws : List UInt32}

/-- Reading a variable pushes its value. -/
theorem Compile.Access.get_effect (a : Access) :
    a.get.isStraight = true ∧ a.get.operands = 0 ∧ a.get.results = 1 := by
  cases a <;> exact ⟨rfl, rfl, rfl⟩

/-- Assigning a variable leaves its value. -/
theorem Compile.Access.set_effect (a : Access) :
    a.set.isStraight = true ∧ a.set.operands = 1 ∧ a.set.results = 1 := by
  cases a <;> exact ⟨rfl, rfl, rfl⟩

/-- Reading a variable pushes its value. -/
theorem Leads.get (a : Access) {w : List UInt32} {m : Nat} (hw : Leads B (n + 1) w m) :
    Leads B n (a.get.encode :: w) m := by
  obtain ⟨hstraight, hoperands, hresults⟩ := a.get_effect
  exact .cons a.get hstraight (by rwa [hoperands, hresults])

/-- Writing a variable leaves its value. -/
theorem Leads.set (a : Access) : Leads B (n + 1) [a.set.encode] (n + 1) := by
  obtain ⟨hstraight, hoperands, hresults⟩ := a.set_effect
  exact .cons a.set hstraight (by rw [hoperands, hresults]; exact .nil)

/-- The arithmetic operators take two operands. -/
theorem Leads.arithmetic (op : Arithmetic) {w : List UInt32} {m : Nat}
    (hw : Leads B (n + 1) w m) : Leads B (n + 2) (op.instr.encode :: w) m := by
  cases op <;> exact .cons _ rfl hw

/-- The operators take two operands. -/
theorem Leads.binary (op : BinaryOp) : Leads B (n + 2) (op.code.map Instr.encode) (n + 1) := by
  cases op with
  | arithmetic op => exact .arithmetic op .nil
  | equal | greater | less => exact .cons _ rfl .nil
  | notEqual | greaterEqual | lessEqual => exact .cons _ rfl (.cons _ rfl .nil)

/-- The code of arguments leaves them all on the stack. -/
theorem Expr.ListCodes.leads {args : List Expr}
    (hargs : ∀ e ∈ args, ∀ {n ws}, e.Codes B scope ws → Leads B n ws (n + 1))
    (h : Expr.ListCodes B scope args ws) : Leads B n ws (n + args.length) := by
  induction args generalizing n ws with
  | nil =>
    cases h
    exact .nil
  | cons e es ih =>
    cases h with
    | cons first rest =>
      have htail := ih (fun e he => hargs e (List.mem_cons_of_mem _ he)) (n := n + 1) rest
      rw [Nat.add_assoc, Nat.add_comm 1] at htail
      exact .append (hargs e List.mem_cons_self first) htail

/-- The code of an expression leaves its value on top of the stack. -/
theorem Expr.Codes.leads {e : Expr} (h : e.Codes B scope ws) : Leads B n ws (n + 1) := by
  induction e generalizing n ws with
  | number | text | true_ | false_ | null => cases h; exact .cons _ rfl .nil
  | group e ih =>
    cases h with
    | group inner => exact ih inner
  | negate e ih | not e ih => cases h; exact .append (ih ‹_›) (.cons _ rfl .nil)
  | variable_ name | this => cases h; exact .get _ .nil
  | assign name e ih =>
    cases h with
    | assign found value => exact .append (ih value) (.set _)
  | update name op e ih =>
    cases h with
    | update found value => exact .append (.get _ (ih value)) (.arithmetic op (.set _))
  | superGet name =>
    cases h
    exact .get _ (.get _ (.cons _ rfl .nil))
  | superCall name args hargs =>
    cases h with
    | superCall names receiver arguments number parent =>
      refine .append (.get _ (arguments.leads hargs)) (.get _ (.cons _ rfl ?_))
      rw [Instr.operands, Instr.results, number, show n + 1 + args.length + 1 - (args.length + 2) + 1 =
        n + 1 by omega]
      exact .nil
  | binary op l r hl hr =>
    cases h with
    | binary left right => exact .append (.append (hl left) (hr right)) (.binary op)
  | both l r hl hr =>
    cases h with
    | both left right skip =>
      exact .append (hl left) (.skip (.cons .pop rfl (hr right)) (Nat.succ_pos n) (by simpa using skip))
  | either l r hl hr =>
    cases h with
    | either left right skip leave =>
      exact .append (hl left) (.branch .nil (.cons .pop rfl (hr right)) (Nat.succ_pos n) skip
        (by simpa using leave))
  | call f args hf hargs =>
    cases h with
    | call callee arguments number =>
      refine .append (.append (hf callee) (arguments.leads hargs)) (.cons _ rfl ?_)
      rw [Instr.operands, Instr.results, number, show n + 1 + args.length - (args.length + 1) + 1 =
        n + 1 by omega]
      exact .nil
  | get o name ho =>
    cases h with
    | get object names => exact .append (ho object) (.cons _ rfl .nil)
  | set o name e ho he =>
    cases h with
    | set object names value => exact .append (.append (ho object) (he value)) (.cons _ rfl .nil)
  | updateField o name op e ho he =>
    cases h with
    | updateField object names value =>
      exact .append (.append (ho object) (.cons .duplicate rfl (.cons (.getProperty _) rfl (he value))))
        (.arithmetic op (.cons _ rfl .nil))
  | invoke o name args ho hargs =>
    cases h with
    | invoke object names arguments number =>
      refine .append (.append (ho object) (arguments.leads hargs)) (.cons _ rfl ?_)
      rw [Instr.operands, Instr.results, number, show n + 1 + args.length - (args.length + 1) + 1 =
        n + 1 by omega]
      exact .nil

/-- A declared variable takes the value on top of the stack. -/
theorem Binds.leads {name : String} {inside : Bool} (h : Binds B scope name inside ws scope') :
    Leads B (scope.length + 1) ws scope'.length := by
  cases h with
  | global names => exact .cons (.defineGlobal _) rfl .nil
  | local_ => exact .nil

/-- The code of a superclass leaves it as a local, if there is one. -/
theorem ParentCodes.leads {name : String} {parent : Option String}
    (h : ParentCodes B scope name parent ws scope') :
    Leads B scope.length ws scope'.length ∧ scope.length ≤ scope'.length := by
  cases h with
  | none => exact ⟨.nil, Nat.le_refl _⟩
  | some => exact ⟨.get _ (.get _ (.cons .inherit rfl .nil)), Nat.le_succ _⟩

/-- The locals of a scope are as many as the instructions that take them off the stack. -/
theorem Scope.leads_exit :
    Leads B scope.length (scope.exit n) (scope.keep n).length := by
  have hall (new : List Binding) (k : Nat) :
      Leads B (k + new.length) (new.map fun b => b.leave.encode) k := by
    induction new generalizing k with
    | nil => exact .nil
    | cons b new ih =>
      have hone : Leads B (k + (b :: new).length) [b.leave.encode] (k + new.length) := by
        unfold Binding.leave
        split <;> exact .cons _ rfl .nil
      exact .append hone (ih k)
  have := hall (scope.take (scope.length - n)) (scope.keep n).length
  rwa [← List.length_append, Scope.keep, List.length_append, Nat.add_comm, ← List.length_append,
    List.take_append_drop] at this

/-- As many locals are kept as are asked for. -/
theorem Scope.length_keep (hle : n ≤ scope.length) : (scope.keep n).length = n := by
  rw [Scope.keep, List.length_drop]
  omega

/-- Behind the answer of a function nothing follows. -/
theorem FunctionKind.leads_finalReturn (kind : FunctionKind) {m : Nat} :
    Leads B n (finalReturn kind) m := by
  unfold finalReturn
  split <;> exact .cons _ rfl .return_

/-- A closure is pushed; the marks leave the scope as long as it is. -/
theorem Function.Codes.leads {kind : FunctionKind} {f : Function}
    (h : f.Codes B scope kind ws scope') :
    Leads B n ws (n + 1) ∧ scope'.length = scope.length := by
  cases h with
  | mk constant object arity count codes code =>
    refine ⟨.instr _ ?_ (fun _ _ => rfl) rfl, Scope.length_mark _ _⟩
    simp [Instr.width, Body.captureCount, constant, Value.toHandle?_ofHandle, object, count]

/-- The code of methods leaves the class on the stack. -/
theorem Function.ListCodes.leads {methods : List Function}
    (h : Function.ListCodes B scope methods ws scope') :
    Leads B (n + 1) ws (n + 1) ∧ scope'.length = scope.length := by
  induction methods generalizing scope ws with
  | nil =>
    cases h
    exact ⟨.nil, rfl⟩
  | cons f methods ih =>
    cases h with
    | cons names first rest =>
      obtain ⟨hfirst, hlength⟩ := first.leads (n := n + 1)
      obtain ⟨hrest, hlength'⟩ := ih rest
      exact ⟨.append hfirst (.cons (.method _) rfl hrest), hlength'.trans hlength⟩

/-- The code of statements leaves what they declare on the stack. -/
theorem Stmt.ListCodes.leads {inside : Bool} {body : List Stmt}
    (h : Stmt.ListCodes B scope inside body ws scope') :
    Leads B scope.length ws scope'.length := by
  induction body generalizing scope ws with
  | nil =>
    cases h
    exact .nil
  | cons s body ih =>
    cases h with
    | cons first height rest => exact .append height (ih rest)

/-- The code of a first clause leaves what it declares on the stack. -/
theorem Stmt.OptionCodes.leads {init : Option Stmt} (h : Stmt.OptionCodes B scope init ws scope') :
    Leads B scope.length ws scope'.length := by
  cases h with
  | none => exact .nil
  | some codes height => exact height

/-- A condition in front of a loop. -/
theorem TestCodes.guard {after : Nat} {test : Option Expr} {T X : List UInt32}
    (h : TestCodes B scope after test T X) : Guard B n after T X := by
  cases h with
  | none => exact .none
  | some codes leave => exact .some codes.leads leave

/-- What a loop does after its body. -/
theorem StepCodes.advance {before back : Nat} {step : Option Expr} {P : List UInt32}
    (h : StepCodes B scope before step P back) : Advance B n before P back := by
  cases h with
  | none => exact .none
  | @some e ws d d' codes skip start =>
    have hstep : Leads B n (ws ++ [Instr.pop.encode]) n := .append codes.leads (.cons .pop rfl .nil)
    have : Advance B n before _ _ := @Advance.some _ _ _ _ d d' hstep (by simpa using skip)
      (by simp; omega)
    simpa using this

/-- The code of a statement starts and ends with the stack as high as the scopes are long. -/
theorem Stmt.Codes.leads {inside : Bool} {s : Stmt} (h : s.Codes B scope inside ws scope') :
    Leads B scope.length ws scope'.length := by
  induction s generalizing scope scope' inside ws with
  | let_ name init =>
    cases h with
    | declare binds => exact .cons .null rfl binds.leads
    | define value binds => exact .append value.leads binds.leads
  | def_ name params body =>
    cases h with
    | def_ binds function =>
      obtain ⟨hclosure, hlength⟩ := function.leads (n := scope.length)
      rw [hlength]
      exact .append hclosure binds.leads
  | class_ name parent methods =>
    cases h with
    | @class_ _ _ scope₁ scope₂ scope₃ _ _ _ _ _ a define inherit w names binds above found codes =>
      obtain ⟨habove, -⟩ := above.leads
      obtain ⟨hmethods, hlength⟩ := codes.leads (n := scope₂.length)
      have hrest : Leads B scope₂.length (a.get.encode :: w ++ Instr.pop.encode ::
          scope₃.exit scope₁.length) (scope₃.keep scope₁.length).length :=
        .append (.get _ hmethods) (.cons .pop rfl (hlength ▸ Scope.leads_exit :
          Leads B scope₂.length (scope₃.exit scope₁.length) (scope₃.keep scope₁.length).length))
      simpa using Leads.append (.append (.cons (.class_ _) rfl binds.leads) habove) hrest
  | print e =>
    cases h with
    | print value => exact .append value.leads (.cons _ rfl .nil)
  | expression e =>
    cases h with
    | expression value => exact .append value.leads (.cons _ rfl .nil)
  | return_ e =>
    cases h with
    | finish => exact FunctionKind.leads_finalReturn _
    | construct kind value =>
      exact .append value.leads (.cons _ rfl (FunctionKind.leads_finalReturn _))
    | return_ kind value => exact .append value.leads .return_
  | if_ test body otherwise hbody hotherwise =>
    cases h with
    | when_ condition yes same skip leave =>
      exact .append condition.leads (.branch (.cons .pop rfl (hbody yes)) (.cons .pop rfl (same ▸ .nil))
        (Nat.succ_pos _) (by simpa using skip) (by simpa using leave))
    | if_ condition yes no same same' skip leave =>
      have hno := hotherwise _ rfl no
      rw [same] at hno
      rw [same', same]
      rw [same', same] at hno
      have hyes := hbody yes
      rw [same] at hyes
      exact .append condition.leads (.branch (.cons .pop rfl hyes) (.cons .pop rfl hno)
        (Nat.succ_pos _) (by simpa using skip) (by simpa using leave))
  | while_ test body hbody =>
    cases h with
    | @while_ _ _ _ _ _ _ v w d d' condition codes same leave back =>
      have hcodes := hbody codes
      rw [same] at hcodes ⊢
      have := Leads.loop (P := []) (d := d') (.some (d := d) condition.leads (by simpa using leave))
        .none hcodes (by simp; omega)
      simpa using this
  | doWhile body test hbody =>
    cases h with
    | doWhile codes condition same leave back =>
      have hcodes := hbody codes
      rw [same] at hcodes ⊢
      exact .repeating (.append hcodes condition.leads) leave (by simpa using back)
  | for_ init test step body hinit hbody =>
    cases h with
    | for_ first condition advance codes same loop =>
      have hcodes := hbody codes
      rw [same] at hcodes
      exact .append (.append first.leads (.loop condition.guard advance.advance hcodes loop))
        (same ▸ Scope.leads_exit)
  | block body hbody =>
    cases h with
    | block codes => exact .append codes.leads Scope.leads_exit

end ScriptMachine

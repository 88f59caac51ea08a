import ScriptMachine.Compile.Statement

/-!
# Syntax trees

The programs of the language as trees. A tree keeps the parentheses of its source, so it says by
itself which tokens spell it. It is grammatical if every operand binds at least as tightly as its
place asks for and every statement stands where one is allowed; an `else` belongs to the nearest
`if` that has none.
-/

namespace ScriptMachine

open Compile (Precedence)

/-- The operators that compound assignments can do. -/
inductive Arithmetic
  | add | subtract | multiply | divide
deriving DecidableEq

/-- The operators that evaluate both operands. -/
inductive BinaryOp
  | arithmetic (op : Arithmetic)
  | equal | notEqual | greater | greaterEqual | less | lessEqual
deriving DecidableEq

namespace Arithmetic

/-- The instruction of an operator. -/
def instr : Arithmetic → Instr
  | add => .add
  | subtract => .subtract
  | multiply => .multiply
  | divide => .divide

/-- The operator between its operands. -/
def symbol : Arithmetic → Symbol
  | add => .plus
  | subtract => .minus
  | multiply => .star
  | divide => .slash

/-- The operator of a compound assignment. -/
def assigning : Arithmetic → Symbol
  | add => .plusAssign
  | subtract => .minusAssign
  | multiply => .starAssign
  | divide => .slashAssign

/-- How tightly an operator binds. -/
def precedence : Arithmetic → Precedence
  | add | subtract => .term
  | multiply | divide => .factor

end Arithmetic

namespace BinaryOp

/-- The operator between its operands. -/
def symbol : BinaryOp → Symbol
  | arithmetic op => op.symbol
  | equal => .equal
  | notEqual => .notEqual
  | greater => .greater
  | greaterEqual => .greaterEqual
  | less => .less
  | lessEqual => .lessEqual

/-- How tightly an operator binds. -/
def precedence : BinaryOp → Precedence
  | arithmetic op => op.precedence
  | equal | notEqual => .equality
  | greater | greaterEqual | less | lessEqual => .comparison

/-- The code of an operator: the weak comparisons are the negated strict ones. -/
def code : BinaryOp → List Instr
  | arithmetic op => [op.instr]
  | equal => [.equal]
  | notEqual => [.equal, .not]
  | greater => [.greater]
  | greaterEqual => [.less, .not]
  | less => [.less]
  | lessEqual => [.greater, .not]

end BinaryOp

/-! ### Expressions -/

/-- The expressions. -/
inductive Expr
  | number (x : Float)
  | text (content : String)
  | true_
  | false_
  | null
  | group (e : Expr)
  | negate (e : Expr)
  | not (e : Expr)
  | variable_ (name : String)
  | assign (name : String) (e : Expr)
  | update (name : String) (op : Arithmetic) (e : Expr)
  | this
  | superGet (name : String)
  | superCall (name : String) (args : List Expr)
  | binary (op : BinaryOp) (l r : Expr)
  | both (l r : Expr)
  | either (l r : Expr)
  | call (f : Expr) (args : List Expr)
  | get (o : Expr) (name : String)
  | set (o : Expr) (name : String) (e : Expr)
  | updateField (o : Expr) (name : String) (op : Arithmetic) (e : Expr)
  | invoke (o : Expr) (name : String) (args : List Expr)

namespace Expr

/-- What holds of an expression if it holds of its parts holds of every expression. -/
@[induction_eliminator]
theorem induct {motive : Expr → Prop} (number : ∀ x, motive (.number x))
    (text : ∀ content, motive (.text content)) (true_ : motive .true_) (false_ : motive .false_)
    (null : motive .null) (group : ∀ e, motive e → motive (.group e))
    (negate : ∀ e, motive e → motive (.negate e)) (not : ∀ e, motive e → motive (.not e))
    (variable_ : ∀ name, motive (.variable_ name))
    (assign : ∀ name e, motive e → motive (.assign name e))
    (update : ∀ name op e, motive e → motive (.update name op e)) (this : motive .this)
    (superGet : ∀ name, motive (.superGet name))
    (superCall : ∀ name args, (∀ a ∈ args, motive a) → motive (.superCall name args))
    (binary : ∀ op l r, motive l → motive r → motive (.binary op l r))
    (both : ∀ l r, motive l → motive r → motive (.both l r))
    (either : ∀ l r, motive l → motive r → motive (.either l r))
    (call : ∀ f args, motive f → (∀ a ∈ args, motive a) → motive (.call f args))
    (get : ∀ o name, motive o → motive (.get o name))
    (set : ∀ o name e, motive o → motive e → motive (.set o name e))
    (updateField : ∀ o name op e, motive o → motive e → motive (.updateField o name op e))
    (invoke : ∀ o name args, motive o → (∀ a ∈ args, motive a) → motive (.invoke o name args))
    (e : Expr) : motive e :=
  @Expr.rec motive (fun args => ∀ a ∈ args, motive a) number text true_ false_ null group negate
    not variable_ assign update this superGet superCall binary both either call get set updateField
    invoke (List.forall_mem_nil _) (fun _ _ h hs => List.forall_mem_cons.mpr ⟨h, hs⟩) e

/-- How tightly the outermost operator of an expression binds. -/
def precedence : Expr → Precedence
  | assign .. | update .. | set .. | updateField .. => .assignment
  | either .. => .or
  | both .. => .and
  | binary op _ _ => op.precedence
  | negate _ | not _ => .unary
  | call .. | get .. | invoke .. => .call
  | number _ | text _ | true_ | false_ | null | group _ | variable_ _ | this | superGet _
  | superCall .. => .primary

/-- Whether a call of an expression is one of a method: those are forms of their own. -/
def readsMethod : Expr → Bool
  | get .. | superGet _ => true
  | _ => false

mutual

/-- The tokens that spell an expression. -/
def tokens : Expr → List Token
  | number x => [.number x]
  | text content => [.text content]
  | true_ => [.keyword .true_]
  | false_ => [.keyword .false_]
  | null => [.keyword .null_]
  | group e => .symbol .leftParen :: e.tokens ++ [.symbol .rightParen]
  | negate e => .symbol .minus :: e.tokens
  | not e => .symbol .bang :: e.tokens
  | variable_ name => [.name name]
  | assign name e => .name name :: .symbol .assign :: e.tokens
  | update name op e => .name name :: .symbol op.assigning :: e.tokens
  | this => [.keyword .this_]
  | superGet name => [.keyword .super_, .symbol .dot, .name name]
  | superCall name args =>
    .keyword .super_ :: .symbol .dot :: .name name :: .symbol .leftParen ::
      listTokens args ++ [.symbol .rightParen]
  | binary op l r => l.tokens ++ .symbol op.symbol :: r.tokens
  | both l r => l.tokens ++ .symbol .both :: r.tokens
  | either l r => l.tokens ++ .symbol .either :: r.tokens
  | call f args => f.tokens ++ .symbol .leftParen :: listTokens args ++ [.symbol .rightParen]
  | get o name => o.tokens ++ [.symbol .dot, .name name]
  | set o name e => o.tokens ++ .symbol .dot :: .name name :: .symbol .assign :: e.tokens
  | updateField o name op e =>
    o.tokens ++ .symbol .dot :: .name name :: .symbol op.assigning :: e.tokens
  | invoke o name args =>
    o.tokens ++ .symbol .dot :: .name name :: .symbol .leftParen ::
      listTokens args ++ [.symbol .rightParen]

/-- The tokens that spell arguments. -/
def listTokens : List Expr → List Token
  | [] => []
  | [e] => e.tokens
  | e :: es => e.tokens ++ .symbol .comma :: listTokens es

end

mutual

/-- Every operand binds at least as tightly as its place asks for. Operators group to the left,
but for the assignments, `&&` and `||`. -/
def Grammatical : Expr → Prop
  | number _ | text _ | true_ | false_ | null | variable_ _ | this | superGet _ => True
  | group e | assign _ e | update _ _ e => e.Grammatical
  | negate e | not e => e.Grammatical ∧ Precedence.unary.rank ≤ e.precedence.rank
  | superCall _ args => ListGrammatical args
  | binary op l r =>
    (l.Grammatical ∧ op.precedence.rank ≤ l.precedence.rank) ∧
      (r.Grammatical ∧ op.precedence.rank < r.precedence.rank)
  | both l r =>
    (l.Grammatical ∧ Precedence.and.rank < l.precedence.rank) ∧
      (r.Grammatical ∧ Precedence.and.rank ≤ r.precedence.rank)
  | either l r =>
    (l.Grammatical ∧ Precedence.or.rank < l.precedence.rank) ∧
      (r.Grammatical ∧ Precedence.or.rank ≤ r.precedence.rank)
  | call f args =>
    (f.Grammatical ∧ Precedence.call.rank ≤ f.precedence.rank ∧ f.readsMethod = false) ∧
      ListGrammatical args
  | get o _ => o.Grammatical ∧ Precedence.call.rank ≤ o.precedence.rank
  | set o _ e | updateField o _ _ e =>
    (o.Grammatical ∧ Precedence.call.rank ≤ o.precedence.rank) ∧ e.Grammatical
  | invoke o _ args =>
    (o.Grammatical ∧ Precedence.call.rank ≤ o.precedence.rank) ∧ ListGrammatical args

/-- Every argument is grammatical. -/
def ListGrammatical : List Expr → Prop
  | [] => True
  | e :: es => e.Grammatical ∧ ListGrammatical es

end

end Expr

/-- Arguments are spelled with commas between them. -/
theorem Expr.listTokens_cons (e e' : Expr) (es : List Expr) : Expr.listTokens (e :: e' :: es) =
    e.tokens ++ .symbol .comma :: Expr.listTokens (e' :: es) := by
  simp [Expr.listTokens]

/-! ### Statements -/

mutual

/-- The statements and declarations. -/
inductive Stmt
  | let_ (name : String) (init : Option Expr)
  | def_ (f : Function)
  | class_ (name : String) (parent : Option String) (methods : List Function)
  | print (e : Expr)
  | expression (e : Expr)
  | return_ (e : Option Expr)
  | if_ (test : Expr) (body : Stmt) (otherwise : Option Stmt)
  | while_ (test : Expr) (body : Stmt)
  | doWhile (body : Stmt) (test : Expr)
  | for_ (init : Option Stmt) (test : Option Expr) (step : Option Expr) (body : Stmt)
  | block (body : List Stmt)

/-- A function or a method with its name. -/
inductive Function
  | mk (name : String) (params : List String) (body : List Stmt)

end

namespace Function

/-- The name of a function. -/
def name : Function → String
  | mk name _ _ => name

/-- The parameters of a function, the first one first. -/
def params : Function → List String
  | mk _ params _ => params

/-- The body of a function. -/
def body : Function → List Stmt
  | mk _ _ body => body

end Function

namespace Stmt

/-- What holds of a statement if it holds of its parts holds of every statement. -/
@[induction_eliminator]
theorem induct {motive : Stmt → Prop} (let_ : ∀ name init, motive (.let_ name init))
    (def_ : ∀ name params body, (∀ s ∈ body, motive s) → motive (.def_ ⟨name, params, body⟩))
    (class_ : ∀ name parent methods, (∀ f ∈ methods, ∀ s ∈ f.body, motive s) →
      motive (.class_ name parent methods))
    (print : ∀ e, motive (.print e)) (expression : ∀ e, motive (.expression e))
    (return_ : ∀ e, motive (.return_ e))
    (if_ : ∀ test body otherwise, motive body → (∀ s, otherwise = some s → motive s) →
      motive (.if_ test body otherwise))
    (while_ : ∀ test body, motive body → motive (.while_ test body))
    (doWhile : ∀ body test, motive body → motive (.doWhile body test))
    (for_ : ∀ init test step body, (∀ s, init = some s → motive s) → motive body →
      motive (.for_ init test step body))
    (block : ∀ body, (∀ s ∈ body, motive s) → motive (.block body)) (s : Stmt) : motive s :=
  @Stmt.rec motive (fun f => ∀ s ∈ f.body, motive s)
    (fun methods => ∀ f ∈ methods, ∀ s ∈ f.body, motive s) (fun o => ∀ s, o = some s → motive s)
    (fun body => ∀ s ∈ body, motive s) let_ (fun f => f.casesOn def_) class_ print expression
    return_ if_ while_ doWhile for_ block (fun _ _ _ h => h)
    (List.forall_mem_nil _) (fun _ _ h hs => List.forall_mem_cons.mpr ⟨h, hs⟩)
    (fun _ h => by cases h) (fun _ h _ hs => Option.some.inj hs ▸ h)
    (List.forall_mem_nil _) (fun _ _ h hs => List.forall_mem_cons.mpr ⟨h, hs⟩) s

/-- Whether a statement is a declaration, which only blocks and programs can hold. -/
def declares : Stmt → Bool
  | let_ .. | def_ _ | class_ .. => true
  | _ => false

/-- Whether a statement can start a counting loop. -/
def startsLoop : Stmt → Bool
  | let_ .. | expression _ => true
  | _ => false

/-- Whether a statement ends in an `if` without an `else`, which would take one that follows. -/
def isOpen : Stmt → Bool
  | if_ _ _ none => true
  | if_ _ _ (some s) => s.isOpen
  | while_ _ body | for_ _ _ _ body => body.isOpen
  | _ => false

end Stmt

/-- The tokens that spell an expression, if there is one. -/
def Expr.optionTokens : Option Expr → List Token
  | none => []
  | some e => e.tokens

/-- An expression is grammatical, if there is one. -/
def Expr.OptionGrammatical : Option Expr → Prop
  | none => True
  | some e => e.Grammatical

/-- The tokens that spell names in a list. -/
def nameTokens : List String → List Token
  | [] => []
  | [name] => [.name name]
  | name :: names => .name name :: .symbol .comma :: nameTokens names

/-- Names are spelled with commas between them. -/
theorem nameTokens_cons (name name' : String) (names : List String) :
    nameTokens (name :: name' :: names) =
      .name name :: .symbol .comma :: nameTokens (name' :: names) := by
  simp [nameTokens]

mutual

/-- The tokens that spell a statement. -/
def Stmt.tokens : Stmt → List Token
  | .let_ name none => [.keyword .let_, .name name, .symbol .semicolon]
  | .let_ name (some e) =>
    .keyword .let_ :: .name name :: .symbol .assign :: e.tokens ++ [.symbol .semicolon]
  | .def_ f => .keyword .def_ :: f.tokens
  | .class_ name none methods =>
    .keyword .class_ :: .name name :: .symbol .leftBrace :: Function.listTokens methods ++
      [.symbol .rightBrace]
  | .class_ name (some parent) methods =>
    .keyword .class_ :: .name name :: .symbol .colon :: .name parent :: .symbol .leftBrace ::
      Function.listTokens methods ++ [.symbol .rightBrace]
  | .print e => .keyword .print_ :: e.tokens ++ [.symbol .semicolon]
  | .expression e => e.tokens ++ [.symbol .semicolon]
  | .return_ e => .keyword .return_ :: Expr.optionTokens e ++ [.symbol .semicolon]
  | .if_ test body none =>
    .keyword .if_ :: .symbol .leftParen :: test.tokens ++ .symbol .rightParen :: body.tokens
  | .if_ test body (some otherwise) =>
    .keyword .if_ :: .symbol .leftParen :: test.tokens ++ .symbol .rightParen :: body.tokens ++
      .keyword .else_ :: otherwise.tokens
  | .while_ test body =>
    .keyword .while_ :: .symbol .leftParen :: test.tokens ++ .symbol .rightParen :: body.tokens
  | .doWhile body test =>
    .keyword .do_ :: body.tokens ++ .keyword .while_ :: .symbol .leftParen :: test.tokens ++
      [.symbol .rightParen, .symbol .semicolon]
  | .for_ none test step body =>
    .keyword .for_ :: .symbol .leftParen :: .symbol .semicolon ::
      Expr.optionTokens test ++ .symbol .semicolon :: Expr.optionTokens step ++
      .symbol .rightParen :: body.tokens
  | .for_ (some init) test step body =>
    .keyword .for_ :: .symbol .leftParen :: init.tokens ++
      Expr.optionTokens test ++ .symbol .semicolon :: Expr.optionTokens step ++
      .symbol .rightParen :: body.tokens
  | .block body => .symbol .leftBrace :: Stmt.listTokens body ++ [.symbol .rightBrace]

/-- The tokens that spell a function after its reserved word. -/
def Function.tokens : Function → List Token
  | .mk name params body =>
    .name name :: .symbol .leftParen :: nameTokens params ++ .symbol .rightParen ::
      .symbol .leftBrace :: Stmt.listTokens body ++ [.symbol .rightBrace]

/-- The tokens that spell statements in their order. -/
def Stmt.listTokens : List Stmt → List Token
  | [] => []
  | s :: ss => s.tokens ++ Stmt.listTokens ss

/-- The tokens that spell methods in their order. -/
def Function.listTokens : List Function → List Token
  | [] => []
  | f :: fs => .keyword .def_ :: f.tokens ++ Function.listTokens fs

end

mutual

/-- Every expression is grammatical and every statement stands where it may. -/
def Stmt.Grammatical : Stmt → Prop
  | .let_ _ e | .return_ e => Expr.OptionGrammatical e
  | .def_ f => f.Grammatical
  | .class_ _ _ methods => Function.ListGrammatical methods
  | .print e | .expression e => e.Grammatical
  | .if_ test body none => test.Grammatical ∧ body.Grammatical ∧ body.declares = false
  | .if_ test body (some otherwise) =>
    test.Grammatical ∧ (body.Grammatical ∧ body.declares = false ∧ body.isOpen = false) ∧
      otherwise.Grammatical ∧ otherwise.declares = false
  | .while_ test body | .doWhile body test =>
    test.Grammatical ∧ body.Grammatical ∧ body.declares = false
  | .for_ none test step body =>
    Expr.OptionGrammatical test ∧ Expr.OptionGrammatical step ∧
      body.Grammatical ∧ body.declares = false
  | .for_ (some init) test step body =>
    (init.Grammatical ∧ init.startsLoop) ∧ Expr.OptionGrammatical test ∧
      Expr.OptionGrammatical step ∧ body.Grammatical ∧ body.declares = false
  | .block body => Stmt.ListGrammatical body

/-- The body of a function is grammatical. -/
def Function.Grammatical : Function → Prop
  | .mk _ _ body => Stmt.ListGrammatical body

/-- Every statement is grammatical. -/
def Stmt.ListGrammatical : List Stmt → Prop
  | [] => True
  | s :: ss => s.Grammatical ∧ Stmt.ListGrammatical ss

/-- Every method is grammatical. -/
def Function.ListGrammatical : List Function → Prop
  | [] => True
  | f :: fs => f.Grammatical ∧ Function.ListGrammatical fs

end

/-- Each of grammatical statements is grammatical. -/
theorem Stmt.ListGrammatical.mem {body : List Stmt} {t : Stmt} (h : Stmt.ListGrammatical body)
    (ht : t ∈ body) : t.Grammatical := by
  induction body with
  | nil => cases ht
  | cons s body ih =>
    rcases List.mem_cons.mp ht with rfl | ht
    · exact h.1
    · exact ih h.2 ht

/-- Each of grammatical methods has a grammatical body. -/
theorem Function.ListGrammatical.mem {methods : List Function} {f : Function}
    (h : Function.ListGrammatical methods) (hf : f ∈ methods) : Stmt.ListGrammatical f.body := by
  induction methods with
  | nil => cases hf
  | cons g methods ih =>
    obtain ⟨name, params, body⟩ := g
    rcases List.mem_cons.mp hf with rfl | hf
    · exact h.1
    · exact ih h.2 hf

/-- A program spells the tokens of a source. -/
structure Spells (program : List Stmt) (tokens : List Token) : Prop where
  tokens : Stmt.listTokens program = tokens
  grammatical : Stmt.ListGrammatical program

end ScriptMachine

import ScriptMachine.Proofs.Syntax.Tree

/-!
# The code of an expression, from its tree

What the code of an expression is by the tree alone: the operands first, from left to right, then
what is done with them. A short-circuit operator jumps over its right operand, a compound assignment
reads what it writes, and the receiver of a compound assignment to a property is duplicated and not
evaluated again. Parentheses leave no trace. Where variables are kept and which index a constant has
depends on the function around; the translation takes both as they are.
-/

namespace ScriptMachine

open Compile (Access Precedence)

/-- A constant apart from where its text is kept. -/
inductive Constant
  | value (v : Value)
  | text (content : String)
deriving DecidableEq

/-- The place of each variable and the index of each constant. -/
structure Operands where
  place : String → Access
  index : Constant → UInt16

/-- The pool after a constant was taken: it is added unless it is there. -/
def takeConstant (pool : List Constant) (c : Constant) : List Constant :=
  if c ∈ pool then pool else pool ++ [c]

namespace Expr

/-! ### Parentheses -/

mutual

/-- The tree of an expression: what is left of it without its parentheses. -/
def strip : Expr → Expr
  | group e => e.strip
  | negate e => negate e.strip
  | not e => not e.strip
  | assign name e => assign name e.strip
  | update name op e => update name op e.strip
  | superCall name args => superCall name (listStrip args)
  | binary op l r => binary op l.strip r.strip
  | both l r => both l.strip r.strip
  | either l r => either l.strip r.strip
  | call f args => call f.strip (listStrip args)
  | get o name => get o.strip name
  | set o name e => set o.strip name e.strip
  | updateField o name op e => updateField o.strip name op e.strip
  | invoke o name args => invoke o.strip name (listStrip args)
  | number x => number x
  | text content => text content
  | true_ => true_
  | false_ => false_
  | null => null
  | variable_ name => variable_ name
  | this => this
  | superGet name => superGet name

/-- The trees of arguments. -/
def listStrip : List Expr → List Expr
  | [] => []
  | e :: es => e.strip :: listStrip es

end

/-! ### Variables -/

mutual

/-- The names that an expression stands for the variables of. -/
def names : Expr → List String
  | number _ | text _ | true_ | false_ | null => []
  | group e | negate e | not e | get e _ => e.names
  | variable_ name => [name]
  | assign name e | update name _ e => name :: e.names
  | this => ["this"]
  | superGet _ => ["this", "super"]
  | superCall _ args => "this" :: listNames args ++ ["super"]
  | binary _ l r | both l r | either l r => l.names ++ r.names
  | call f args => f.names ++ listNames args
  | set o _ e | updateField o _ _ e => o.names ++ e.names
  | invoke o _ args => o.names ++ listNames args

/-- The names that arguments stand for the variables of. -/
def listNames : List Expr → List String
  | [] => []
  | e :: es => e.names ++ listNames es

end

/-! ### Code -/

mutual

/-- The code of an expression. -/
def postorder (O : Operands) : Expr → List Instr
  | number x => [.constant (O.index (.value (.ofFloat x)))]
  | text content => [.constant (O.index (.text content))]
  | true_ => [.true_]
  | false_ => [.false_]
  | null => [.null]
  | group e => e.postorder O
  | negate e => e.postorder O ++ [.negate]
  | not e => e.postorder O ++ [.not]
  | variable_ name => [(O.place name).get]
  | assign name e => e.postorder O ++ [(O.place name).set]
  | update name op e => (O.place name).get :: e.postorder O ++ [op.instr, (O.place name).set]
  | this => [(O.place "this").get]
  | superGet name =>
    [(O.place "this").get, (O.place "super").get, .getSuper (O.index (.text name))]
  | superCall name args =>
    (O.place "this").get :: listPostorder O args ++
      [(O.place "super").get, .superInvoke (O.index (.text name)) args.length.toUInt8]
  | binary op l r => l.postorder O ++ r.postorder O ++ op.code
  | both l r =>
    l.postorder O ++ .jumpIfFalse ((r.postorder O).length + 1).toUInt16 :: .pop :: r.postorder O
  | either l r =>
    l.postorder O ++ .jumpIfFalse 1 :: .jump ((r.postorder O).length + 1).toUInt16 :: .pop ::
      r.postorder O
  | call f args => f.postorder O ++ listPostorder O args ++ [.call args.length.toUInt8]
  | get o name => o.postorder O ++ [.getProperty (O.index (.text name))]
  | set o name e => o.postorder O ++ e.postorder O ++ [.setProperty (O.index (.text name))]
  | updateField o name op e =>
    o.postorder O ++ .duplicate :: .getProperty (O.index (.text name)) :: e.postorder O ++
      [op.instr, .setProperty (O.index (.text name))]
  | invoke o name args =>
    o.postorder O ++ listPostorder O args ++
      [.invoke (O.index (.text name)) args.length.toUInt8]

/-- The code of arguments. -/
def listPostorder (O : Operands) : List Expr → List Instr
  | [] => []
  | e :: es => e.postorder O ++ listPostorder O es

end

/-! ### Constants -/

/-- The constant that a variable takes: a global is found by its name. -/
def nameUse (place : String → Access) (name : String) : List Constant :=
  match place name with
  | .global _ => [.text name]
  | _ => []

mutual

/-- The constants that an expression takes, in the order in which it takes them. A variable that is
assigned to is looked for before its value is translated, and so is the name of a property. -/
def uses (place : String → Access) : Expr → List Constant
  | number x => [.value (.ofFloat x)]
  | text content => [.text content]
  | true_ | false_ | null => []
  | group e | negate e | not e => e.uses place
  | variable_ name => nameUse place name
  | assign name e | update name _ e => nameUse place name ++ e.uses place
  | this => nameUse place "this"
  | superGet name => .text name :: nameUse place "this" ++ nameUse place "super"
  | superCall name args =>
    .text name :: nameUse place "this" ++ listUses place args ++ nameUse place "super"
  | binary _ l r | both l r | either l r => l.uses place ++ r.uses place
  | call f args => f.uses place ++ listUses place args
  | get o name => o.uses place ++ [.text name]
  | set o name e | updateField o name _ e => o.uses place ++ .text name :: e.uses place
  | invoke o name args => o.uses place ++ .text name :: listUses place args

/-- The constants that arguments take. -/
def listUses (place : String → Access) : List Expr → List Constant
  | [] => []
  | e :: es => e.uses place ++ listUses place es

end

/-! ### No trace of parentheses -/

/-- Arguments are as many without parentheses. -/
theorem length_listStrip (args : List Expr) : (listStrip args).length = args.length := by
  induction args with
  | nil => rfl
  | cons e es ih => rw [listStrip, List.length_cons, List.length_cons, ih]

section Arguments

variable {args : List Expr} {α : Type} {f : Expr → List α} {g : List Expr → List α}

/-- What is collected from arguments one by one is the same for their trees, if it is for each. -/
theorem listStrip_collect (hcons : ∀ e es, g (e :: es) = f e ++ g es)
    (h : ∀ e ∈ args, f e.strip = f e) : g (listStrip args) = g args := by
  induction args with
  | nil => rfl
  | cons e es ih =>
    obtain ⟨he, hes⟩ := List.forall_mem_cons.mp h
    rw [listStrip, hcons, hcons, he, ih hes]

end Arguments

/-- An expression has the same names without parentheses. -/
theorem names_strip (e : Expr) : e.strip.names = e.names := by
  have hlist {args : List Expr} (h : ∀ e ∈ args, e.strip.names = e.names) :
      listNames (listStrip args) = listNames args := listStrip_collect (fun _ _ => rfl) h
  induction e with
  | superCall _ args ih => simp only [strip, names, hlist ih]
  | call f args ihf ihargs => simp only [strip, names, ihf, hlist ihargs]
  | invoke o _ args iho ihargs => simp only [strip, names, iho, hlist ihargs]
  | _ => simp_all only [strip, names]

/-- An expression has the same code without parentheses. -/
theorem postorder_strip (O : Operands) (e : Expr) : e.strip.postorder O = e.postorder O := by
  have hlist {args : List Expr} (h : ∀ e ∈ args, e.strip.postorder O = e.postorder O) :
      listPostorder O (listStrip args) = listPostorder O args :=
    listStrip_collect (fun _ _ => rfl) h
  induction e with
  | superCall _ args ih => simp only [strip, postorder, hlist ih, length_listStrip]
  | call f args ihf ihargs => simp only [strip, postorder, ihf, hlist ihargs, length_listStrip]
  | invoke o _ args iho ihargs =>
    simp only [strip, postorder, iho, hlist ihargs, length_listStrip]
  | _ => simp_all only [strip, postorder]

/-- An expression has the same constants without parentheses. -/
theorem uses_strip (place : String → Access) (e : Expr) : e.strip.uses place = e.uses place := by
  have hlist {args : List Expr} (h : ∀ e ∈ args, e.strip.uses place = e.uses place) :
      listUses place (listStrip args) = listUses place args :=
    listStrip_collect (fun _ _ => rfl) h
  induction e with
  | superCall _ args ih => simp only [strip, uses, hlist ih]
  | call f args ihf ihargs => simp only [strip, uses, ihf, hlist ihargs]
  | invoke o _ args iho ihargs => simp only [strip, uses, iho, hlist ihargs]
  | _ => simp_all only [strip, uses]

end Expr

end ScriptMachine

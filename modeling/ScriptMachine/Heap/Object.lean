import ScriptMachine.Table
import ScriptMachine.Bytecode.Chunk

/-!
# Objects

The kinds of thing that live on the heap, what each refers to, and how many bytes each is
charged for.
-/

namespace ScriptMachine

/-- The kinds of object. -/
inductive Kind
  | string | function | native | closure | upvalue | class_ | instance_ | boundMethod
deriving DecidableEq

/-- The type name of a kind, as scripts see it. -/
def Kind.name : Kind → String
  | string => "string"
  | function => "function"
  | native => "native function"
  | closure => "function"
  | upvalue => "upvalue"
  | class_ => "class"
  | instance_ => "instance"
  | boundMethod => "method"

/-- The name of a kind inside the machine. -/
def Kind.role : Kind → String
  | string => "string"
  | function => "function"
  | native => "native"
  | closure => "closure"
  | upvalue => "upvalue"
  | class_ => "class"
  | instance_ => "instance"
  | boundMethod => "bound method"

/-- The functions that the machine itself provides. -/
inductive Builtin
  | clock
  | str
  | len
deriving DecidableEq

/-- An interned text with its hash. -/
structure Interned where
  chars : String
  hash : UInt32

/-- A compiled function. -/
structure Prototype where
  arity : UInt8
  upvalueCount : Nat
  name : Option Handle
  chunk : Chunk

/-- A function of the machine; without an arity it takes any number of arguments. -/
structure Native where
  name : String
  arity : Option UInt8
  action : Builtin

/-- A function with the variables it captured. -/
structure Closure where
  function : Handle
  upvalues : Array Handle

/-- A captured variable: a slot of the stack while the slot lives, afterwards its own value. -/
inductive Upvalue
  | onStack (slot : Nat)
  | closed (value : Value)

/-- A class with its methods, inherited ones included. -/
structure ClassObject where
  name : Handle
  methods : Table

/-- An instance with its fields. -/
structure InstanceObject where
  class_ : Handle
  fields : Table

/-- A method together with its receiver. -/
structure BoundMethod where
  receiver : Value
  method : Handle

/-- An object on the heap. -/
inductive Object
  | string (s : Interned)
  | function (f : Prototype)
  | native (n : Native)
  | closure (c : Closure)
  | upvalue (u : Upvalue)
  | class_ (c : ClassObject)
  | instance_ (i : InstanceObject)
  | boundMethod (b : BoundMethod)

namespace Object

/-- The kind of an object. -/
def kind : Object → Kind
  | string _ => .string
  | function _ => .function
  | native _ => .native
  | closure _ => .closure
  | upvalue _ => .upvalue
  | class_ _ => .class_
  | instance_ _ => .instance_
  | boundMethod _ => .boundMethod

/-- The bytes beyond the fixed part of an object. -/
def payload : Object → Nat
  | string s => s.chars.utf8ByteSize
  | function f => f.chunk.bytes
  | closure c => c.upvalues.size * 4
  | class_ c => c.methods.capacity * Table.entryBytes
  | instance_ i => i.fields.capacity * Table.entryBytes
  | native _ | upvalue _ | boundMethod _ => 0

/-- The bytes that an object is charged for. -/
def bytes (o : Object) : Nat := 48 + o.payload

/-- What an object refers to, in the order it is traced. The slot of an upvalue on the stack is
a root by itself. -/
def references : Object → List Handle
  | string _ => []
  | function f => f.name.toList ++ f.chunk.constants.toList.filterMap Value.toHandle?
  | native _ => []
  | closure c => c.function :: c.upvalues.toList
  | upvalue (.onStack _) => []
  | upvalue (.closed v) => v.toHandle?.toList
  | class_ c => c.name :: c.methods.handles
  | instance_ i => i.class_ :: i.fields.handles
  | boundMethod b => b.receiver.toHandle?.toList ++ [b.method]

end Object

end ScriptMachine

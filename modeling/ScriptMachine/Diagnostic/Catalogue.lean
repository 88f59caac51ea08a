/-!
# The catalogue of error codes

For every stable code a short description and a full explanation, in the order of the codes'
families: reading tokens, compiling, running.
-/

namespace ScriptMachine.Diagnostic

/-- An error code with its descriptions; the full one is kept line by line. -/
structure CatalogueEntry where
  code : String
  short : String
  lines : List String

/-- The full description of a code. -/
def CatalogueEntry.long (e : CatalogueEntry) : String := String.join (e.lines.map (· ++ "\n"))

/-- All error codes. -/
def catalogue : List CatalogueEntry := [
  { code := "NYR-L001"
    short := "unterminated string"
    lines := [
      "## NYR-L001: unterminated string",
      "",
      "A string literal was opened with `\"` but the file ended before the",
      "closing quote. Strings may span lines, so the error is reported where",
      "the string starts, not where the file ends.",
      "",
      "**Example:**",
      "",
      "    print \"hello;"] },
  { code := "NYR-L002"
    short := "unterminated block comment"
    lines := [
      "## NYR-L002: unterminated block comment",
      "",
      "A `/*` comment was never closed with `*/`. A lone `*` inside the",
      "comment does not end it.",
      "",
      "**Example:**",
      "",
      "    /* draft * notes",
      "    print 1;"] },
  { code := "NYR-L003"
    short := "unexpected character"
    lines := [
      "## NYR-L003: unexpected character",
      "",
      "A character was found that does not start any token.",
      "",
      "**Common causes:**",
      "- single `&` or `|` where `&&` or `||` was meant",
      "- single-quoted strings: only `\"...\"` is a string"] },
  { code := "NYR-C001"
    short := "unexpected token"
    lines := [
      "## NYR-C001: unexpected token",
      "",
      "The compiler expected a particular token (a `;`, a `)`, a name) and",
      "found something else. The message names both.",
      "",
      "**Example:**",
      "",
      "    print 1 + 2    -- missing ';'"] },
  { code := "NYR-C002"
    short := "expected expression"
    lines := [
      "## NYR-C002: expected expression",
      "",
      "An operand was expected but the next token cannot start an expression.",
      "",
      "**Example:**",
      "",
      "    let x = * 2;"] },
  { code := "NYR-C003"
    short := "invalid assignment target"
    lines := [
      "## NYR-C003: invalid assignment target",
      "",
      "Only variables and properties can appear left of `=`, `+=`, `-=`, `*=`",
      "or `/=`.",
      "",
      "**Example:**",
      "",
      "    1 + 2 = 3;"] },
  { code := "NYR-C004"
    short := "local read in its own initializer"
    lines := [
      "## NYR-C004: local read in its own initializer",
      "",
      "A local variable was used inside the expression that initializes it.",
      "",
      "**Example:**",
      "",
      "    \x7b",
      "      let a = a + 1;",
      "    \x7d",
      "",
      "Rename the new variable, or initialize it from a different one."] },
  { code := "NYR-C005"
    short := "duplicate local"
    lines := [
      "## NYR-C005: duplicate local",
      "",
      "Two locals with the same name were declared in one block. Shadowing is",
      "allowed in an inner block, not in the same one."] },
  { code := "NYR-C006"
    short := "too many locals"
    lines := [
      "## NYR-C006: too many locals",
      "",
      "A function may have at most 256 local variables in scope at once,",
      "including its parameters and the receiver slot."] },
  { code := "NYR-C007"
    short := "too many closure variables"
    lines := [
      "## NYR-C007: too many closure variables",
      "",
      "A function may capture at most 256 variables from enclosing functions."] },
  { code := "NYR-C008"
    short := "too many parameters"
    lines := [
      "## NYR-C008: too many parameters",
      "",
      "A function or method may declare at most 255 parameters."] },
  { code := "NYR-C009"
    short := "too many arguments"
    lines := [
      "## NYR-C009: too many arguments",
      "",
      "A call may pass at most 255 arguments."] },
  { code := "NYR-C010"
    short := "too many constants"
    lines := [
      "## NYR-C010: too many constants",
      "",
      "One function body may reference at most 65536 distinct constants",
      "(numbers, strings, names and nested functions). Split the function."] },
  { code := "NYR-C011"
    short := "jump too large"
    lines := [
      "## NYR-C011: jump too large",
      "",
      "The body of an `if`, `else`, `&&` or `||` compiled to more than 65535",
      "instructions. Move part of it into a function."] },
  { code := "NYR-C012"
    short := "loop body too large"
    lines := [
      "## NYR-C012: loop body too large",
      "",
      "A loop body compiled to more than 65535 instructions. Move part of it",
      "into a function."] },
  { code := "NYR-C013"
    short := "return at top level"
    lines := [
      "## NYR-C013: return at top level",
      "",
      "`return` is only valid inside a function or method body."] },
  { code := "NYR-C014"
    short := "'this' outside a class"
    lines := [
      "## NYR-C014: 'this' outside a class",
      "",
      "`this` refers to the receiver of a method and only exists inside a",
      "class body."] },
  { code := "NYR-C015"
    short := "'super' outside a class"
    lines := [
      "## NYR-C015: 'super' outside a class",
      "",
      "`super.name` looks a method up on the superclass and only exists inside",
      "a class body."] },
  { code := "NYR-C016"
    short := "'super' without a superclass"
    lines := [
      "## NYR-C016: 'super' without a superclass",
      "",
      "`super` was used in a class that does not inherit from anything.",
      "",
      "**Fix:** declare a superclass with `class B : A \x7b ... \x7d`."] },
  { code := "NYR-C017"
    short := "class inherits from itself"
    lines := [
      "## NYR-C017: class inherits from itself",
      "",
      "**Example:**",
      "",
      "    class A : A \x7b\x7d"] },
  { code := "NYR-C018"
    short := "code nested too deeply"
    lines := [
      "## NYR-C018: code nested too deeply",
      "",
      "Expressions, blocks and declarations may nest at most 128 levels deep.",
      "Each parenthesis, unary operator, block and nested declaration is one",
      "level; a block and the statement holding it count separately.",
      "",
      "**Example:**",
      "",
      "    print ((((((((((((((((((((...))))))))))))))))))));",
      "",
      "Pull inner parts out into variables or functions."] },
  { code := "NYR-R001"
    short := "operand type mismatch"
    lines := [
      "## NYR-R001: operand type mismatch",
      "",
      "Arithmetic and comparison work on numbers; `+` also joins two strings.",
      "Any other combination is an error. Convert with `str(value)` first to",
      "join a number onto a string.",
      "",
      "**Example:**",
      "",
      "    print \"n = \" + 1;        -- error",
      "    print \"n = \" + str(1);   -- ok"] },
  { code := "NYR-R002"
    short := "undefined variable"
    lines := [
      "## NYR-R002: undefined variable",
      "",
      "A global was read or assigned before any `let` defined it. Assignment",
      "never creates a global."] },
  { code := "NYR-R003"
    short := "undefined property"
    lines := [
      "## NYR-R003: undefined property",
      "",
      "The instance has no field of that name and its class (and superclasses)",
      "no method of that name."] },
  { code := "NYR-R004"
    short := "value is not callable"
    lines := [
      "## NYR-R004: value is not callable",
      "",
      "Only functions, methods, natives and classes can be called."] },
  { code := "NYR-R005"
    short := "wrong number of arguments"
    lines := [
      "## NYR-R005: wrong number of arguments",
      "",
      "Calls must pass exactly as many arguments as the function declares.",
      "Calling a class passes the arguments to `init`; a class without `init`",
      "takes none."] },
  { code := "NYR-R006"
    short := "stack overflow"
    lines := [
      "## NYR-R006: stack overflow",
      "",
      "Calls nested deeper than the frame limit (64 by default). Usually",
      "unbounded recursion; raise the limit with `--max-frames` if the depth is",
      "intended."] },
  { code := "NYR-R007"
    short := "not an instance"
    lines := [
      "## NYR-R007: not an instance",
      "",
      "Fields and methods are accessed with `.` on instances only.",
      "",
      "**Example:**",
      "",
      "    let n = 3;",
      "    print n.x;"] },
  { code := "NYR-R008"
    short := "superclass is not a class"
    lines := [
      "## NYR-R008: superclass is not a class",
      "",
      "The name after `:` in a class declaration must evaluate to a class."] },
  { code := "NYR-R009"
    short := "native function failed"
    lines := [
      "## NYR-R009: native function failed",
      "",
      "A built-in function rejected its arguments, e.g. `len(3)`: `len` only",
      "accepts strings."] },
  { code := "NYR-R010"
    short := "output failed"
    lines := [
      "## NYR-R010: output failed",
      "",
      "Writing the result of `print` failed, typically because stdout was",
      "closed."] }]

/-- The entry of a code. -/
def explain? (code : String) : Option CatalogueEntry := catalogue.find? (·.code = code)

end ScriptMachine.Diagnostic

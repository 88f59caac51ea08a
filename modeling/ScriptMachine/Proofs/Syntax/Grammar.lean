import ScriptMachine.Token.Basic

/-!
# The grammar of the language

The grammar as the rules that document it, and which tokens the rules derive. A form of the grammar
can also be read with a meaning of one's own for the rules; what is derived is the least meaning
that the rules agree with.
-/

namespace ScriptMachine

namespace Grammar

/-- The rules of the grammar. -/
inductive Rule
  | program | declaration | variableDeclaration | function | block | statement
  | expressionStatement | expression | assignment | either | both | equality | comparison | term
  | factor | unary | call | arguments | primary

/-- What a rule allows. -/
inductive Form
  | keyword (k : Keyword)
  | symbol (s : Symbol)
  | number
  | text
  | name
  | rule (r : Rule)
  | nothing
  | both (f g : Form)
  | either (f g : Form)
  | many (f : Form)

namespace Form

/-- Forms one after the other. -/
def sequence : List Form → Form
  | [] => nothing
  | [f] => f
  | f :: fs => both f (sequence fs)

/-- One of some forms. -/
def oneOf (f : Form) : List Form → Form
  | [] => f
  | g :: fs => either f (oneOf g fs)

/-- A form that may be left out. -/
def optional (f : Form) : Form := either nothing f

/-- Operands with operators of one level between them. -/
def level (operand : Rule) (operators : Form) : Form :=
  sequence [rule operand, many (sequence [operators, rule operand])]

end Form

open Form in
/-- What each rule allows. -/
def rules : Rule → Form
  | .program => many (rule .declaration)
  | .declaration => oneOf
      (sequence [keyword .class_, name, optional (sequence [symbol .colon, name]),
        symbol .leftBrace, many (sequence [keyword .def_, name, rule .function]),
        symbol .rightBrace])
      [sequence [keyword .def_, name, rule .function],
      rule .variableDeclaration,
      rule .statement]
  | .variableDeclaration => sequence [keyword .let_, name,
      optional (sequence [symbol .assign, rule .expression]), symbol .semicolon]
  | .function => sequence [symbol .leftParen,
      optional (sequence [name, many (sequence [symbol .comma, name])]), symbol .rightParen,
      rule .block]
  | .block => sequence [symbol .leftBrace, many (rule .declaration), symbol .rightBrace]
  | .statement => oneOf
      (sequence [keyword .print_, rule .expression, symbol .semicolon])
      [sequence [keyword .if_, symbol .leftParen, rule .expression, symbol .rightParen,
        rule .statement, optional (sequence [keyword .else_, rule .statement])],
      sequence [keyword .while_, symbol .leftParen, rule .expression, symbol .rightParen,
        rule .statement],
      sequence [keyword .do_, rule .statement, keyword .while_, symbol .leftParen,
        rule .expression, symbol .rightParen, symbol .semicolon],
      sequence [keyword .for_, symbol .leftParen,
        oneOf (rule .variableDeclaration) [rule .expressionStatement, symbol .semicolon],
        optional (rule .expression), symbol .semicolon, optional (rule .expression),
        symbol .rightParen, rule .statement],
      sequence [keyword .return_, optional (rule .expression), symbol .semicolon],
      rule .block,
      rule .expressionStatement]
  | .expressionStatement => sequence [rule .expression, symbol .semicolon]
  | .expression => rule .assignment
  | .assignment => oneOf
      (sequence [optional (sequence [rule .call, symbol .dot]), name,
        oneOf (symbol .assign) [symbol .plusAssign, symbol .minusAssign, symbol .starAssign,
          symbol .slashAssign],
        rule .expression])
      [rule .either]
  | .either => level .both (symbol .either)
  | .both => level .equality (symbol .both)
  | .equality => level .comparison (oneOf (symbol .equal) [symbol .notEqual])
  | .comparison => level .term (oneOf (symbol .greater) [symbol .greaterEqual, symbol .less,
      symbol .lessEqual])
  | .term => level .factor (oneOf (symbol .plus) [symbol .minus])
  | .factor => level .unary (oneOf (symbol .star) [symbol .slash])
  | .unary => oneOf (sequence [oneOf (symbol .bang) [symbol .minus], rule .unary]) [rule .call]
  | .call => sequence [rule .primary, many (oneOf
      (sequence [symbol .leftParen, rule .arguments, symbol .rightParen])
      [sequence [symbol .dot, name]])]
  | .arguments => optional (sequence [rule .expression,
      many (sequence [symbol .comma, rule .expression])])
  | .primary => oneOf (keyword .true_) [keyword .false_, keyword .null_, keyword .this_, number,
      text, name, sequence [symbol .leftParen, rule .expression, symbol .rightParen],
      sequence [keyword .super_, symbol .dot, name]]

/-- The tokens that a form derives. -/
inductive Derives : Form → List Token → Prop
  | keyword (k : Keyword) : Derives (.keyword k) [.keyword k]
  | symbol (s : Symbol) : Derives (.symbol s) [.symbol s]
  | number (x : Float) : Derives .number [.number x]
  | text (content : String) : Derives .text [.text content]
  | name (spelling : String) : Derives .name [.name spelling]
  | rule {r : Rule} {ts : List Token} : Derives (rules r) ts → Derives (.rule r) ts
  | nothing : Derives .nothing []
  | both {f g : Form} {ts us : List Token} :
    Derives f ts → Derives g us → Derives (.both f g) (ts ++ us)
  | left {f g : Form} {ts : List Token} : Derives f ts → Derives (.either f g) ts
  | right {f g : Form} {ts : List Token} : Derives g ts → Derives (.either f g) ts
  | none {f : Form} : Derives (.many f) []
  | more {f : Form} {ts us : List Token} :
    Derives f ts → Derives (.many f) us → Derives (.many f) (ts ++ us)

/-- The tokens of a form, if those of the rules are the ones `meaning` says. -/
def Form.Means (meaning : Rule → List Token → Prop) : Form → List Token → Prop
  | .keyword k, ts => ts = [.keyword k]
  | .symbol s, ts => ts = [.symbol s]
  | .number, ts => ∃ x, ts = [.number x]
  | .text, ts => ∃ content, ts = [.text content]
  | .name, ts => ∃ spelling, ts = [.name spelling]
  | .rule r, ts => meaning r ts
  | .nothing, ts => ts = []
  | .both f g, ts => ∃ us vs, f.Means meaning us ∧ g.Means meaning vs ∧ ts = us ++ vs
  | .either f g, ts => f.Means meaning ts ∨ g.Means meaning ts
  | .many f, ts => ∃ parts : List (List Token), (∀ us ∈ parts, f.Means meaning us) ∧
    ts = parts.flatten

/-- What is derived has every meaning that the rules agree with. -/
theorem Derives.means {meaning : Rule → List Token → Prop}
    (hrules : ∀ r ts, (rules r).Means meaning ts → meaning r ts) {f : Form} {ts : List Token}
    (h : Derives f ts) : f.Means meaning ts := by
  induction h with
  | keyword | symbol | nothing => rfl
  | number x => exact ⟨x, rfl⟩
  | text content => exact ⟨content, rfl⟩
  | name spelling => exact ⟨spelling, rfl⟩
  | rule _ ih => exact hrules _ _ ih
  | both _ _ ihf ihg => exact ⟨_, _, ihf, ihg, rfl⟩
  | left _ ih => exact .inl ih
  | right _ ih => exact .inr ih
  | none => exact ⟨[], List.forall_mem_nil _, rfl⟩
  | more _ _ ihf ihfs =>
    obtain ⟨parts, hparts, rfl⟩ := ihfs
    exact ⟨_ :: parts, List.forall_mem_cons.mpr ⟨ihf, hparts⟩, rfl⟩

/-- What a form allows of what the rules derive is derived. -/
theorem derives_of_means {f : Form} {ts : List Token}
    (h : f.Means (fun r => Derives (.rule r)) ts) : Derives f ts := by
  induction f generalizing ts with
  | keyword k => exact h ▸ .keyword k
  | symbol s => exact h ▸ .symbol s
  | number =>
    obtain ⟨x, rfl⟩ := h
    exact .number x
  | text =>
    obtain ⟨content, rfl⟩ := h
    exact .text content
  | name =>
    obtain ⟨spelling, rfl⟩ := h
    exact .name spelling
  | rule r => exact h
  | nothing => exact h ▸ .nothing
  | both f g ihf ihg =>
    obtain ⟨us, vs, hf, hg, rfl⟩ := h
    exact .both (ihf hf) (ihg hg)
  | either f g ihf ihg => exact h.elim (fun h => .left (ihf h)) fun h => .right (ihg h)
  | many f ih =>
    obtain ⟨parts, hparts, rfl⟩ := h
    induction parts with
    | nil => exact .none
    | cons us parts ihs =>
      obtain ⟨hfirst, hparts⟩ := List.forall_mem_cons.mp hparts
      exact .more (ih hfirst) (ihs hparts)

/-- A rule derives what it allows of what the rules derive. -/
theorem derives_rule {r : Rule} {ts : List Token} :
    Derives (.rule r) ts ↔ (rules r).Means (fun r => Derives (.rule r)) ts := by
  refine ⟨fun h => ?_, fun h => .rule (derives_of_means h)⟩
  cases h with
  | rule h => exact h.means fun r ts h => .rule (derives_of_means h)

end Grammar

end ScriptMachine

/-!
# Options of the command line

Arguments are read from left to right. Options may stand before or after the script; an option's
value follows it or an equals sign; two dashes end the options. What is wrong with the
arguments is found at the first argument that shows it. Settings that the arguments leave open
are taken from the environment.
-/

namespace ScriptMachine.CommandLine

/-- How errors are written. -/
inductive Format
  | terminal
  | json
deriving DecidableEq

/-- The options without a value. -/
inductive Flag
  | disassemble | noColor | gcStress | gcStats
deriving DecidableEq

/-- The options with a value. -/
inductive Setting
  | diagnostics | explain | gcThreshold | maxFrames
deriving DecidableEq

/-- What the arguments say. -/
structure Options where
  script : Option String
  flags : List Flag
  format : Option Format
  explain : Option String
  gcThreshold : Option Nat
  maxFrames : Option Nat

/-- What is wrong with the arguments or the environment. -/
inductive UsageError
  | unknownArgument (argument : String)
  | repeated (option : String)
  | missingValue (option : String)
  | unexpectedValue (option : String)
  | invalidValue (option value : String)
deriving DecidableEq

/-- What the program is asked to do. -/
inductive Request
  | version
  | help
  | run (o : Options)

/-- A usage error in words. -/
def UsageError.message : UsageError → String
  | unknownArgument argument => s!"error: unexpected argument '{argument}' found"
  | repeated option => s!"error: the argument '{option}' cannot be used multiple times"
  | missingValue option => s!"error: a value is required for '{option}' but none was supplied"
  | unexpectedValue option =>
    s!"error: unexpected value for '{option}' found; no more were expected"
  | invalidValue option value => s!"error: invalid value '{value}' for '{option}'"

/-- How a flag is written. -/
def Flag.spelling : Flag → String
  | disassemble => "--disassemble"
  | noColor => "--no-color"
  | gcStress => "--gc-stress"
  | gcStats => "--gc-stats"

/-- All flags. -/
def Flag.all : List Flag := [disassemble, noColor, gcStress, gcStats]

/-- How a setting is written. -/
def Setting.spelling : Setting → String
  | diagnostics => "--diagnostics"
  | explain => "--explain"
  | gcThreshold => "--gc-threshold"
  | maxFrames => "--max-frames"

/-- All settings. -/
def Setting.all : List Setting := [diagnostics, explain, gcThreshold, maxFrames]

/-- The options before any argument is read. -/
def Options.start : Options := ⟨none, [], none, none, none, none⟩

/-- The number that decimal digits, after an optional plus sign, denote, up to a limit. -/
def readNatural? (limit : Nat) (s : String) : Option Nat :=
  let digits := match s.toList with
    | '+' :: rest => rest
    | cs => cs
  if digits.isEmpty || !digits.all Char.isDigit then none
  else
    let n := digits.foldl (fun n c => 10 * n + (c.toNat - '0'.toNat)) 0
    if n ≤ limit then some n else none

/-- A number of bytes. -/
def readBytes? (s : String) : Option Nat := readNatural? (UInt64.size - 1) s

/-- A number of frames, of which there is at least one. -/
def readFrames? (s : String) : Option Nat := (readNatural? (UInt32.size - 1) s).filter (0 < ·)

/-- A format of errors. -/
def readFormat? : String → Option Format
  | "ansi" => some .terminal
  | "json" => some .json
  | _ => none

/-- A truth value. -/
def readBool? : String → Option Bool
  | "true" => some true
  | "false" => some false
  | _ => none

namespace Options

/-- Whether a flag is given. -/
def has (o : Options) (f : Flag) : Bool := o.flags.contains f

/-- Gives a flag. -/
def setFlag (o : Options) (f : Flag) : Except UsageError Options :=
  if o.has f then .error (.repeated f.spelling) else .ok { o with flags := f :: o.flags }

/-- A value read from its text, if the setting has none yet. -/
def readOnce {α : Type} (present : Option α) (s : Setting) (value : String)
    (read : String → Option α) : Except UsageError (Option α) :=
  if present.isSome then .error (.repeated s.spelling)
  else
    match read value with
    | some a => .ok (some a)
    | none => .error (.invalidValue s.spelling value)

/-- Gives a setting its value. -/
def set (o : Options) (s : Setting) (value : String) : Except UsageError Options :=
  match s with
  | .diagnostics => return { o with format := ← readOnce o.format s value readFormat? }
  | .explain => return { o with explain := ← readOnce o.explain s value some }
  | .gcThreshold => return { o with gcThreshold := ← readOnce o.gcThreshold s value readBytes? }
  | .maxFrames => return { o with maxFrames := ← readOnce o.maxFrames s value readFrames? }

/-- Names the script. -/
def setScript (o : Options) (path : String) : Except UsageError Options :=
  if o.script.isSome then .error (.unknownArgument path)
  else if path.isEmpty then .error (.invalidValue "[SCRIPT]" path)
  else .ok { o with script := some path }

end Options

/-- An argument cut at its first equals sign. -/
def cutArgument (argument : String) : String × Option String :=
  match argument.toList.span (· ≠ '=') with
  | (name, '=' :: value) => (String.ofList name, some (String.ofList value))
  | _ => (argument, none)

/-- Whether an argument is read as an option: it starts with a dash and is more than that. -/
def looksLikeOption (argument : String) : Bool := argument.startsWith "-" && argument ≠ "-"

/-- The arguments after the end of the options. -/
def readScripts (o : Options) : List String → Except UsageError Request
  | [] => .ok (.run o)
  | path :: rest => do readScripts (← o.setScript path) rest

/-- Reads the arguments from left to right. -/
def readArguments (o : Options) : List String → Except UsageError Request
  | [] => .ok (.run o)
  | "--" :: rest => readScripts o rest
  | argument :: rest =>
    if argument.startsWith "--" then
      let (name, value) := cutArgument argument
      match Flag.all.find? (·.spelling = name), Setting.all.find? (·.spelling = name), value with
      | some _, _, some _ => .error (.unexpectedValue name)
      | some flag, _, none => do readArguments (← o.setFlag flag) rest
      | none, some setting, some value => do readArguments (← o.set setting value) rest
      | none, some setting, none =>
        match rest with
        | [] => .error (.missingValue name)
        | value :: rest =>
          if looksLikeOption value then .error (.missingValue name)
          else do readArguments (← o.set setting value) rest
      | none, none, value =>
        if name = "--version" then
          if value.isSome then .error (.unexpectedValue name) else .ok .version
        else if name = "--help" then
          if value.isSome then .error (.unexpectedValue name) else .ok .help
        else .error (.unknownArgument argument)
    else if looksLikeOption argument then
      if argument.startsWith "-V" then .ok .version
      else if argument.startsWith "-h" then .ok .help
      else .error (.unknownArgument argument)
    else do readArguments (← o.setScript argument) rest

/-- The environment, by names. -/
abbrev Environment := List (String × String)

/-- A setting that the arguments leave open, from the environment. -/
def fromEnvironment {α : Type} (present : Option α) (env : Environment) (name : String)
    (read : String → Option α) : Except UsageError (Option α) :=
  match present, env.lookup name with
  | some a, _ => .ok (some a)
  | none, none => .ok none
  | none, some value =>
    match read value with
    | some a => .ok (some a)
    | none => .error (.invalidValue name value)

/-- Completes options from the environment. -/
def Options.complete (o : Options) (env : Environment) : Except UsageError Options := do
  let given := if o.has .gcStress then some true else none
  let stress ← fromEnvironment given env "NYR_GC_STRESS" readBool?
  let threshold ← fromEnvironment o.gcThreshold env "NYR_GC_THRESHOLD" readBytes?
  let frames ← fromEnvironment o.maxFrames env "NYR_MAX_FRAMES" readFrames?
  let others := o.flags.filter (· ≠ .gcStress)
  return { o with
    flags := if stress = some true then .gcStress :: others else others
    gcThreshold := threshold
    maxFrames := frames }

/-- What arguments and environment ask for. -/
def readRequest (arguments : List String) (env : Environment) : Except UsageError Request := do
  match ← readArguments Options.start arguments with
  | .run o => return .run (← o.complete env)
  | other => return other

end ScriptMachine.CommandLine

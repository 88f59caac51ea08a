import ScriptMachine.CommandLine.Options
import ScriptMachine.Diagnostic.Catalogue
import ScriptMachine.Diagnostic.Json
import ScriptMachine.Diagnostic.Terminal
import ScriptMachine.Machine.Session

/-!
# The program of the command line

The program runs or lists a script, or reads lines and runs each by itself, or explains an error
code. What it writes and how it ends is a function of its arguments, its environment, the files
it can read and its input.
-/

namespace ScriptMachine.CommandLine

/-- How the program ends. -/
inductive Status
  | success | usage | compileError | runtimeError | ioError | fault | unfinished
deriving DecidableEq

/-- The exit code of a status. -/
def Status.code : Status → UInt8
  | success => 0
  | usage => 64
  | compileError => 65
  | runtimeError => 70
  | ioError => 74
  | fault => 101
  | unfinished => 130

/-- Why a file cannot be read. -/
inductive FileError
  | notFound
  | isDirectory
  | notDirectory
  | other (message : String)
deriving DecidableEq

/-- A file error in the words of the system. -/
def FileError.message : FileError → String
  | notFound => "No such file or directory (os error 2)"
  | isDirectory => "Is a directory (os error 21)"
  | notDirectory => "Not a directory (os error 20)"
  | other message => message

/-- The message about bytes that are no text. -/
def invalidText : String := "stream did not contain valid UTF-8"

/-- What the program writes and how it ends. -/
structure Reply where
  status : Status
  out : String
  err : String

namespace Reply

/-- A reply that goes on after another one, with the status of the later. -/
def append (a b : Reply) : Reply := ⟨b.status, a.out ++ b.out, a.err ++ b.err⟩

/-- A successful reply on the output. -/
def success (out : String) : Reply := ⟨.success, out, ""⟩

end Reply

/-- What the program works with: the names of its environment, its files, its input, and
whether its errors go to a terminal. -/
structure World where
  env : Environment
  readFile : String → Except FileError ByteArray
  input : ByteArray
  terminal : Bool

/-- The settings of the machine that options ask for. -/
def Options.settings (o : Options) : Settings where
  framesMax := o.maxFrames.getD Settings.standard.framesMax
  pacing := { Pacing.standard with
    initialThreshold := o.gcThreshold.getD Pacing.standard.initialThreshold
    stress := o.has .gcStress }

/-- How diagnostics are written. -/
structure Reporter where
  format : Format
  color : Bool

/-- The reporter that options ask for. -/
def Options.reporter (o : Options) (world : World) : Reporter where
  format := o.format.getD .terminal
  color := !o.has .noColor && (world.env.lookup "NO_COLOR").isNone && world.terminal

/-- A diagnostic as it is written, if its labels start in lines of its source. -/
def Reporter.render (r : Reporter) (d : Diagnostic) : Option String :=
  match r.format with
  | .terminal => d.render r.color
  | .json => d.toJson.map (· ++ "\n")

/-- What a program ends with that has nothing to write for a diagnostic. -/
def lineMissing : String := "line 0 out of bounds\n"

/-- The reply that writes a diagnostic and ends with a status. -/
def Reporter.reply (r : Reporter) (status : Status) (d : Diagnostic) : Reply :=
  match r.render d with
  | some text => ⟨status, "", text⟩
  | none => ⟨.fault, "", lineMissing⟩

/-- The reply that writes compile errors; no more are written behind one that cannot be. -/
def Reporter.compileErrors (r : Reporter) (source : String) : List CompileError → Reply
  | [] => ⟨.compileError, "", ""⟩
  | e :: es =>
    let reply := r.reply .compileError (.ofCompileError e (some source))
    if reply.status = .fault then reply else reply.append (r.compileErrors source es)

/-- What an outcome is reported by. -/
def Reporter.outcome (r : Reporter) (source : String) : Outcome → Reply
  | .ok => ⟨.success, "", ""⟩
  | .refused es => r.compileErrors source es
  | .failed f => r.reply .runtimeError (.ofFailure f)
  | .fault f => ⟨.fault, "", f.message ++ "\n"⟩
  | .unfinished => ⟨.unfinished, "", ""⟩

/-- The text printed so far as a reply. -/
def printed (m : Machine) : Reply × Machine :=
  let (out, m) := m.takeOutput
  (.success out, m)

/-- Lists a source. -/
def listSource (r : Reporter) (m : Machine) (source : String) : Reply × Machine :=
  match m.disassemble source with
  | (.listing text, m) => (.success text, m)
  | (.refused es, m) => (r.compileErrors source es, m)
  | (.fault f, m) => (⟨.fault, "", f.message ++ "\n"⟩, m)

/-- Runs a source, for at most `fuel` instructions. -/
def runSource (r : Reporter) (fuel : Nat) (m : Machine) (source : String) : Reply × Machine :=
  let (outcome, m) := m.interpret fuel source
  let (reply, m) := printed m
  (reply.append (r.outcome source outcome), m)

/-- Lists or runs a source, as options ask for. -/
def evaluate (o : Options) (r : Reporter) (fuel : Nat) (m : Machine) (source : String) :
    Reply × Machine :=
  if o.has .disassemble then listSource r m source else runSource r fuel m source

/-- The reply about a file or an input that cannot be read. -/
def unreadable (path message : String) : Reply :=
  ⟨.ioError, "", s!"nyr: can't read {path}: {message}\n"⟩

/-- The text of a script file. -/
def scriptText (path : String) (content : Except FileError ByteArray) : Except Reply String :=
  match content with
  | .error e => .error (unreadable path e.message)
  | .ok bytes =>
    match String.fromUTF8? bytes with
    | some source => .ok source
    | none => .error (unreadable path invalidText)

/-- Runs or lists a script file. -/
def runFile (o : Options) (r : Reporter) (fuel : Nat) (m : Machine) (path : String)
    (content : Except FileError ByteArray) : Reply × Machine :=
  match scriptText path content with
  | .error reply => (reply, m)
  | .ok source => evaluate o r fuel m source

/-- What is written before a line is read. -/
def prompt : String := "nyr> "

/-- Cuts bytes after each newline, with `line` the reversed part of the current line. -/
def cutInput (line : List UInt8) (done : Array (List UInt8)) : List UInt8 → Array (List UInt8)
  | [] => if line.isEmpty then done else done.push line.reverse
  | b :: rest =>
    if b = 10 then cutInput [] (done.push (dropReturn line).reverse) rest
    else cutInput (b :: line) done rest
where
  /-- A reversed line without the carriage return that ends it. -/
  dropReturn : List UInt8 → List UInt8
    | 13 :: rest => rest
    | bytes => bytes

/-- The lines of the input, without the characters that end them. -/
def inputLines (input : ByteArray) : List (List UInt8) := (cutInput [] #[] input.toList).toList

/-- The reply to one line of input. -/
def replyToLine (o : Options) (r : Reporter) (fuel : Nat) (m : Machine) (line : String) :
    Reply × Machine :=
  if Text.isBlankText line then (.success "", m) else evaluate o r fuel m line

/-- Reads lines to the end of the input. Errors concern only the line they are in. -/
def converse (o : Options) (r : Reporter) (fuel : Nat) (m : Machine) (done : Reply) :
    List (List UInt8) → Reply × Machine
  | [] => (done.append (.success (prompt ++ "\n")), m)
  | line :: rest =>
    let done := done.append (.success prompt)
    match String.fromUTF8? ⟨line.toArray⟩ with
    | none => (done.append (unreadable "input" invalidText), m)
    | some line =>
      let (reply, m) := replyToLine o r fuel m line
      match reply.status with
      | .fault | .unfinished => (done.append reply, m)
      | _ => converse o r fuel m (done.append reply) rest

/-- The statistics of the collector on one line. -/
def statsLine (m : Machine) : String :=
  let s := m.heap.stats
  let fields := [("collections", s.collections), ("objects_allocated", s.objectsAllocated),
    ("objects_freed", s.objectsFreed), ("bytes_freed", s.bytesFreed), ("peak_bytes", s.peakBytes)]
  Text.Json.object (fields.map fun f => (f.1, toString f.2)) ++ "\n"

/-- The statistics after a reply, if options ask for them. -/
def withStats (o : Options) (reply : Reply) (m : Machine) : Reply :=
  if o.has .gcStats then { reply with err := reply.err ++ statsLine m } else reply

/-- The explanation of an error code. -/
def explain (code : String) : Reply :=
  let code := code.map Char.toUpper
  match Diagnostic.explain? code with
  | some entry => .success entry.long
  | none => ⟨.usage, "", s!"nyr: unknown error code '{code}'\n"⟩

/-- Does what options ask for. -/
def perform (o : Options) (fuel : Nat) (world : World) : Reply :=
  match o.explain with
  | some code => explain code
  | none =>
    let r := o.reporter world
    match Machine.create o.settings Journal.off Sink.unlimited with
    | .error f => ⟨.fault, "", f.message ++ "\n"⟩
    | .ok m =>
      let (reply, m) := match o.script with
        | some path => runFile o r fuel m path (world.readFile path)
        | none => converse o r fuel m (.success "") (inputLines world.input)
      withStats o reply m

/-- How the program is used. -/
def usageText : String := "Usage: nyr [OPTIONS] [SCRIPT]\n"

/-- The name and the version of the program. -/
def versionText : String := "nyr 0.4.0\n"

/-- The program: every run takes at most `fuel` instructions. -/
def program (fuel : Nat) (world : World) (arguments : List String) : Reply :=
  match readRequest arguments world.env with
  | .error e => ⟨.usage, "", s!"{e.message}\n\n{usageText}"⟩
  | .ok .version => .success versionText
  | .ok .help => .success usageText
  | .ok (.run o) => perform o fuel world

end ScriptMachine.CommandLine

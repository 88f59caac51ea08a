import ScriptMachine.CommandLine.Program

/-!
# The executable

The program of the command line with the files, the environment and the terminal of the system.
A script prints while it runs: it is carried on in slices, and what a slice printed is written
before the next.
-/

namespace ScriptMachine.CommandLine

/-- The instructions carried out between two writes. -/
def slice : Nat := 1000000

/-- Writes a reply. -/
def writeReply (reply : Reply) : IO Unit := do
  let out ← IO.getStdout
  out.putStr reply.out
  out.flush
  IO.eprint reply.err

/-- The environment variables that the program looks at. -/
def systemEnvironment : IO Environment := do
  let names := ["NYR_GC_STRESS", "NYR_GC_THRESHOLD", "NYR_MAX_FRAMES", "NO_COLOR"]
  let found ← names.mapM fun name => do
    let value ← IO.getEnv name
    return value.map fun value => (name, value)
  return found.filterMap id

/-- The content of a file. -/
def readSystemFile (path : String) : IO (Except FileError ByteArray) := do
  try
    return .ok (← IO.FS.readBinFile path)
  catch
    | .noFileOrDirectory .. => return .error .notFound
    | .inappropriateType _ 21 _ => return .error .isDirectory
    | .inappropriateType .. => return .error .notDirectory
    | e => return .error (.other (toString e))

/-- Carries on with a script, writing what it prints, until it ends. -/
partial def carryOn (r : Reporter) (m : Machine) (source : String) (outcome : Outcome) :
    IO (Status × Machine) := do
  let (reply, m) := printed m
  writeReply reply
  match outcome with
  | .unfinished =>
    let (outcome, m) := m.resume slice
    carryOn r m source outcome
  | outcome =>
    let reply := r.outcome source outcome
    writeReply reply
    return (reply.status, m)

/-- Lists or runs a source. -/
def evaluateSource (o : Options) (r : Reporter) (m : Machine) (source : String) :
    IO (Status × Machine) := do
  let started ← IO.monoNanosNow
  let m := { m with clock := Float.ofNat started / 1e9 }
  if o.has .disassemble then
    let (reply, m) := listSource r m source
    writeReply reply
    return (reply.status, m)
  else
    let (outcome, m) := m.load source
    carryOn r m source outcome

/-- Reads on to the end of a line, which stays in the answer; nothing is left at the end of the
input. -/
partial def readLine (input : IO.FS.Stream) (line : ByteArray) : IO ByteArray := do
  let next ← input.read 1
  let line := line ++ next
  if next.isEmpty || next.toList = [10] then return line else readLine input line

/-- Reads lines and runs each, to the end of the input. -/
partial def converseOnTerminal (o : Options) (r : Reporter) (m : Machine) :
    IO (Status × Machine) := do
  writeReply (.success prompt)
  match inputLines (← readLine (← IO.getStdin) ByteArray.empty) with
  | [] =>
    writeReply (.success "\n")
    return (.success, m)
  | line :: _ =>
    match String.fromUTF8? ⟨line.toArray⟩ with
    | none =>
      writeReply (unreadable "input" invalidText)
      return (.ioError, m)
    | some line =>
      if Text.isBlankText line then converseOnTerminal o r m
      else
        match ← evaluateSource o r m line with
        | (.fault, m) => return (.fault, m)
        | (_, m) => converseOnTerminal o r m

/-- Does what options ask for. -/
def performOnSystem (o : Options) (env : Environment) : IO Status := do
  match o.explain with
  | some code =>
    let reply := explain code
    writeReply reply
    return reply.status
  | none =>
    let stderr ← IO.getStderr
    let world : World := ⟨env, fun _ => .error .notFound, ByteArray.empty, ← stderr.isTty⟩
    let r := o.reporter world
    match Machine.create o.settings Journal.off Sink.unlimited with
    | .error f =>
      IO.eprintln f.message
      return .fault
    | .ok m =>
      let (status, m) ← match o.script with
        | none => converseOnTerminal o r m
        | some path =>
          match scriptText path (← readSystemFile path) with
          | .error reply =>
            writeReply reply
            pure (reply.status, m)
          | .ok source => evaluateSource o r m source
      writeReply (withStats o ⟨status, "", ""⟩ m)
      return status

end ScriptMachine.CommandLine

/-- Runs the program. -/
def main (arguments : List String) : IO UInt32 := do
  let env ← ScriptMachine.CommandLine.systemEnvironment
  match ScriptMachine.CommandLine.readRequest arguments env with
  | .ok (.run o) => return (← ScriptMachine.CommandLine.performOnSystem o env).code.toUInt32
  | _ =>
    let world := ⟨env, fun _ => .error .notFound, ByteArray.empty, false⟩
    let reply := ScriptMachine.CommandLine.program 0 world arguments
    ScriptMachine.CommandLine.writeReply reply
    return reply.status.code.toUInt32

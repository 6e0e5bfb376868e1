import ForthMachine.Program

/-!
# The command line program

Lines are read one at a time, so that each is answered before the next is asked for. A terminal is
left in the mode it is in, where it edits the lines itself.
-/

set_option autoImplicit false

namespace ForthMachine.Main

/-- More passes than any loop can take. -/
def bounds : Bounds := { passes := 4611686018427387904 }

def readFile (name : String) : IO (Except OpenFault FileContent) := do
  try
    let bytes ← IO.FS.readBinFile name
    return .ok (.bytes bytes.toList)
  catch
    | .noFileOrDirectory .. => return .error .missing
    | .inappropriateType _ 20 _ => return .error .notDirectory
    | .invalidArgument _ 36 _ => return .error .nameTooLong
    | _ => return .ok .directory

partial def readLine (input : IO.FS.Stream) (line : ByteArray) : IO ByteArray := do
  let byte ← input.read 1
  if byte.isEmpty || byte[0]? == some newlineByte then return line ++ byte
  readLine input (line ++ byte)

def emit (text : String) : IO Unit := do
  let out ← IO.getStdout
  out.putStr text
  out.flush

/-- Writes the messages logged, and takes them off the log. -/
def emitMessages (m : Machine) : IO Machine := do
  (← IO.getStderr).putStr m.log.write
  return { m with log := { m.log with entries := #[] } }

partial def answerLines (m : Machine) (prompting : Bool) (number : Nat) : IO Unit := do
  if prompting then emit prompt
  let line ← readLine (← IO.getStdin) .empty
  let source := LineSource.mk (.bytes line.toList) number
  match runLines bounds Page.sink true m (.lines source) {} with
  | none => return
  | some (m, rest, page) =>
    emit page.text
    let m ← emitMessages m
    if m.exiting || rest.number == number then return
    answerLines m prompting rest.number

def run (options : Options) : IO Unit := do
  let file ← options.file.mapM readFile
  let some (m, page) := startUp bounds options fun _ => file.getD (.error .missing) | return
  emit page.text
  let m ← emitMessages m
  if m.exiting then return
  let interactive := (← (← IO.getStdin).isTty) && !options.plain
  let banner := interactive && !options.quiet
  if banner then emit welcome
  answerLines m interactive 0
  if banner then emit farewell

end ForthMachine.Main

def main (arguments : List String) : IO UInt32 := do
  match ForthMachine.Options.parse arguments with
  | .ok options =>
    ForthMachine.Main.run options
    return 0
  | .error stop =>
    let transcript := ForthMachine.refusal stop
    (← IO.getStdout).putStr transcript.output
    (← IO.getStderr).putStr transcript.messages
    return transcript.status.toUInt32

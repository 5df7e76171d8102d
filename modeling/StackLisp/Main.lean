import StackLisp.Shell.CommandLine

/-!
# The program

Reads arguments, files and lines, and writes what the shell computes from them.
-/

namespace StackLisp.Main

/-- Steps enough for any program that ends in a lifetime. -/
def fuel : Nat := 1000000000000000

/-- The fault behind a failed look at a file. -/
def faultOf (e : IO.Error) : FileFault :=
  let known := match e with
    | .noFileOrDirectory _ code _ | .inappropriateType _ code _ | .invalidArgument _ code _ =>
      -- some calls give the error number negated
      FileFault.ofNumber? (min code.toNat (-code).toNat)
    | _ => none
  known.getD (.other (toString e))

/-- Look at a file. -/
def look (path : String) : IO FileAnswer := do
  match FileFault.ofPath? path with
  | some fault => return .fault fault
  | none =>
    try
      let bytes ← IO.FS.readBinFile path
      match String.fromUTF8? bytes with
      | some content => return .text content
      | none => return .fault .invalidUtf8
    catch e => return .fault (faultOf e)

/-- The files looked at so far. -/
def known (seen : List (String × FileAnswer)) (path : String) : FileAnswer :=
  (seen.lookup path).getD .unread

/-- Start a computation again and again, looking at the files that it waits for. -/
partial def settle {α : Type} (seen : List (String × FileAnswer))
    (action : (String → FileAnswer) → Except String α) :
    IO (α × List (String × FileAnswer)) := do
  match action (known seen) with
  | .ok a => return (a, seen)
  | .error path => settle ((path, ← look path) :: seen) action

/-- Feed the lines of standard input to a session, through a line editor. Files are looked at anew
for each input. -/
partial def session (editor : LineEditor) (r : Repl) : IO Unit := do
  let line ← (← IO.getStdin).getLine
  if line.isEmpty then return
  let text := (editor line).headD ""
  let (reply, _) ← settle [] fun files =>
    { r with engine := { r.engine with files } }.feed fuel text
  IO.print reply.out
  IO.eprint reply.err
  (← IO.getStdout).flush
  match reply.state with
  | some r => session editor r
  | none => return

/-- Do what the options ask for. -/
def perform (options : Options) : IO UInt32 := do
  match CommandLine.engine fuel options (known []) with
  | .error _ =>
    IO.eprintln "Error loading prelude"
    return 1
  | .ok e =>
    match CommandLine.task? fuel options with
    | some (task, heading) =>
      let (transcript, _) ← settle [] fun files =>
        CommandLine.runTask task heading { e with files }
      IO.print transcript.out
      IO.eprint transcript.err
      return transcript.status.toUInt32
    | none =>
      IO.print Repl.banner
      session lines { engine := e }
      IO.print Repl.farewell
      return 0

end StackLisp.Main

/-- The program. -/
def main (arguments : List String) : IO UInt32 := do
  match StackLisp.CommandLine.parse arguments with
  | .ok options => StackLisp.Main.perform options
  | .error refusal =>
    let transcript := StackLisp.CommandLine.refuse refusal
    IO.print transcript.out
    IO.eprint transcript.err
    return transcript.status.toUInt32

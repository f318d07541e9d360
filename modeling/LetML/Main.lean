import LetML.Cli.Basic

namespace LetML.Main

/-- More than any evaluation reaches before memory ends. -/
def depth : Nat := 1000000000000000000

def readSource (path : String) : IO (Except ReadFault String) := do
  try
    let bytes ← IO.FS.readBinFile path
    match decode? bytes.toList with
    | some source => return .ok source
    | none => return .error .notText
  catch e => match e with
    | .noFileOrDirectory .. => return .error .missing
    | .inappropriateType (some _) .. => return .error .notDirectory
    | .inappropriateType none .. => return .error .directory
    | .invalidArgument .. =>
      return .error (if path.toList.contains (Char.ofNat 0) then .zeroByte else .longName)
    | e => return .error (.other (toString e))

partial def readLine (input : IO.FS.Stream) (acc : List UInt8) : IO (List UInt8) := do
  match (← input.read 1).toList with
  | [] => return acc.reverse
  | b :: _ => if b = 10 then return (b :: acc).reverse else readLine input (b :: acc)

def write (stdout stderr : String) : IO Unit := do
  IO.eprint stderr
  IO.print stdout
  (← IO.getStdout).flush

partial def converse (level : Level) (s : Session) : IO UInt32 := do
  write Repl.prompt ""
  match ← readLine (← IO.getStdin) [] with
  | [] => return 0
  | bytes => match decode? (dropLineEnd bytes) with
    | none =>
      write "" (Repl.line ("error: " ++ ReadFault.message .notText))
      return 1
    | some line =>
      write "" (Cli.logText level [.input line])
      match Command.parse line with
      | .quit => return 0
      | c =>
        let files : Files ← match c with
          | .load path => do
            let source ← readSource path
            pure (fun _ => source)
          | _ => pure (fun _ => .error .missing)
        match Repl.answer depth files s c with
        | none => return 1
        | some t =>
          write t.output (Cli.logText level t.log)
          converse level t.session

def runOptions (o : Options) : IO UInt32 := do
  let sources ← o.files.mapM fun path => return (path, ← readSource path)
  let files : Files := fun path => (sources.lookup path).getD (.error .missing)
  match Cli.batch depth files o with
  | none => return 1
  | some p =>
    write p.stdout p.stderr
    match p.session with
    | none => return 1
    | some s => if o.dialogue then converse o.level s else return 0

end LetML.Main

def main (args : List String) : IO UInt32 := do
  match LetML.Options.parse args with
  | .ok o => LetML.Main.runOptions o
  | .error r =>
    let outcome := LetML.Cli.refuse r
    LetML.Main.write outcome.stdout outcome.stderr
    return outcome.exit.toUInt32

import LetML.Cli.Options
import LetML.Repl.Basic
import LetML.Text.Control
import LetML.Text.Lines

namespace LetML

def Options.config (o : Options) : Config :=
  { prelude := !o.noPrelude, strict := !o.unchecked, trace := o.trace, keepGoing := o.keepGoing }

def Options.level (o : Options) : Level :=
  match o.verbosity with
  | 0 => .warn
  | 1 => .info
  | 2 => .debug
  | _ => .trace

def Options.dialogue (o : Options) : Bool :=
  o.interactive || (o.files.isEmpty && o.expression.isNone)

inductive StackFault where
  | unavailable
  | invalid
  deriving DecidableEq

def StackFault.message : StackFault → String
  | unavailable => "Resource temporarily unavailable (os error 11)"
  | invalid => "Invalid argument (os error 22)"

/-- No stack has this many mebibytes, which are 32 gibibytes. -/
def stackLimit : Nat := 32 * 1024

/-- A stack is asked for in mebibytes. Its bytes are counted in 64 bits. -/
def Options.stackFault (o : Options) : Option StackFault :=
  let size := o.stackSize.getD 0
  if UInt64.size ≤ size * (1024 * 1024) then some .invalid
  else if stackLimit ≤ size then some .unavailable
  else none

structure Outcome where
  exit : Nat
  stdout : String
  stderr : String

namespace Cli

def versionText : String := "mini-ml 0.1.0\n"

def helpText : String :=
"Type-inferring interpreter for a small ML

Usage: mini-ml [OPTIONS] [FILES]...

  -e, --expression <SRC>  run one statement after the files are loaded
  -i, --interactive       read statements even if files or an expression are given
      --no-prelude        start without the standard prelude
      --unchecked         evaluate statements even if they have no type
      --trace             print the derivation of every statement
      --keep-going        skip failing statements while loading files
  -v, --verbose           log more (-v info, -vv debug, -vvv trace)
      --stack-size <MIB>  interpreter stack size
  -h, --help              print this text
  -V, --version           print the version
"

/-- A level is padded to five columns, and further lines of a message are indented by four. Nothing
in a record can control a terminal. -/
def recordText (r : Record) : String :=
  let level := r.level.text
  withoutControls <|
    "[" ++ level ++ String.ofList (List.replicate (5 - level.length) ' ') ++ " " ++ r.source ++ "] "
      ++ String.join (r.message.toList.map fun c => if c = '\n' then "\n    " else c.toString)
      ++ "\n"

def logText (level : Level) (log : List Event) : String :=
  String.join ((Event.recordsUpTo level log).map recordText)

structure Progress where
  stdout : String
  stderr : String
  session : Option Session

def Progress.write (p : Progress) (stdout stderr : String) : Progress :=
  { p with stdout := p.stdout ++ stdout, stderr := p.stderr ++ stderr }

/-- Go on with some work on the session, whose results are shown by `text`. An error ends the
program. -/
def Progress.step {α : Type} (level : Level) (p : Progress)
    (work : Session → Option (Reply α)) (text : α → String) : Option Progress :=
  match p.session with
  | none => some p
  | some s => (work s).map fun r =>
    let p := p.write "" (logText level r.log)
    match r.result with
    | .ok a => { p.write (text a) "" with session := some r.session }
    | .error e => { p.write "" (Repl.errorText e) with session := none }

def stackRecord (f : StackFault) : Record :=
  ⟨.error, "mini_ml", "cannot start interpreter thread: " ++ f.message⟩

def load (fuel : Nat) (files : Files) (o : Options) : Option Progress := do
  let start : Progress := ⟨"", "", some (Session.bare o.config)⟩
  let p ← start.step o.level (fun _ => Session.new fuel o.config) (fun _ => "")
  let p ← o.files.foldlM (fun p path =>
    p.step o.level (fun s => s.loadFile fuel files path)
      (fun reports => String.join (reports.map Repl.reportText))) p
  match o.expression with
  | none => return p
  | some source => p.step o.level (fun s => s.runLine fuel source) Repl.reportText

def batch (fuel : Nat) (files : Files) (o : Options) : Option Progress :=
  match o.stackFault with
  | some f => some ⟨"", recordText (stackRecord f), none⟩
  | none => load fuel files o

def runOptions (fuel : Nat) (files : Files) (o : Options) (input : List UInt8) : Option Outcome := do
  let p ← batch fuel files o
  match p.session with
  | none => return ⟨1, p.stdout, p.stderr⟩
  | some s =>
    if o.dialogue then
      let r ← Repl.run fuel files s (textLines input)
      let p := p.write r.output (logText o.level r.log)
      if r.broken then
        return ⟨1, p.stdout, p.stderr ++ Repl.line ("error: " ++ ReadFault.message .notText)⟩
      else return ⟨0, p.stdout, p.stderr⟩
    else return ⟨0, p.stdout, p.stderr⟩

def refuse : Refusal → Outcome
  | .version => ⟨0, versionText, ""⟩
  | .help => ⟨0, helpText, ""⟩
  | .usage => ⟨2, "", "error: invalid arguments (try --help)\n"⟩

def run (fuel : Nat) (files : Files) (args : List String) (input : List UInt8) : Option Outcome :=
  match Options.parse args with
  | .ok o => runOptions fuel files o input
  | .error r => some (refuse r)

end Cli

end LetML

import LetML.Repl.Command
import LetML.Session.Basic

namespace LetML

structure Turn where
  output : String
  session : Session
  log : List Event

namespace Repl

def prompt : String := "> "

def line (s : String) : String := s ++ "\n"

def errorText (e : SessionError) : String := line ("error: " ++ e.message)

def reportText (r : Report) : String :=
  (match r.derivation with
    | some d => d.text true
    | none => "")
  ++ line r.text

def bindingText : String × Option Scheme → String
  | (x, some σ) => line (x ++ " : " ++ σ.text)
  | (x, none) => line x

def turn {α : Type} (text : α → String) (r : Reply α) : Turn :=
  { output := match r.result with
      | .ok a => text a
      | .error e => errorText e
    session := r.session
    log := r.log }

def answer (fuel : Nat) (files : Files) (s : Session) : Command → Option Turn
  | .quit => some ⟨"", s, []⟩
  | .statement source =>
    if source.isEmpty then some ⟨"", s, []⟩
    else (s.runLine fuel source).map (turn reportText)
  | .type source =>
    let (r, log) := s.typeOf source
    let shown : Scheme × Derivation → String := fun (σ, d) =>
      (if s.config.trace then d.text true else "") ++ line (source ++ " : " ++ σ.text)
    some (turn shown ⟨r, s, log⟩)
  | .load path =>
    (s.loadFile fuel files path).map (turn fun reports => String.join (reports.map (line ·.text)))
  | .env => some ⟨String.join (s.bindings.map bindingText), s, []⟩
  | .help => some ⟨line Command.helpText, s, []⟩
  | .unknown name => some ⟨line ("unknown command :" ++ name ++ " (try :help)"), s, []⟩

/-- What a dialogue has written, the session after it, what happened on the way, and whether a line
that is not text cut it short. -/
structure Transcript where
  output : String
  session : Session
  log : List Event
  broken : Bool

/-- Answer lines in order, with a prompt after each answer, until one asks to quit. -/
def answerLines (fuel : Nat) (files : Files) (s : Session) : List (Option String) → Option Transcript
  | [] => some ⟨"", s, [], false⟩
  | none :: _ => some ⟨"", s, [], true⟩
  | some l :: rest =>
    match Command.parse l with
    | .quit => some ⟨"", s, [.input l], false⟩
    | c => do
      let t ← answer fuel files s c
      let r ← answerLines fuel files t.session rest
      return { r with output := t.output ++ prompt ++ r.output, log := .input l :: t.log ++ r.log }

def run (fuel : Nat) (files : Files) (s : Session) (lines : List (Option String)) :
    Option Transcript :=
  (answerLines fuel files s lines).map fun r => { r with output := prompt ++ r.output }

end Repl

end LetML

import LetML.Parser.Shift
import LetML.Token.Lexer

namespace LetML

inductive ParseError where
  | invalid (offset : Nat)
  | unexpected (lexeme : Lexeme) (expected : List Terminal)
  | unfinished (offset : Nat) (expected : List Terminal)
  | fault (f : Fault)

namespace ParseError

/-- The text `A, B or C`, after what stands before its first item. -/
def listing : String → List String → String
  | _, [] => ""
  | sep, [x] => sep ++ " " ++ x
  | sep, [x, y] => sep ++ " " ++ x ++ " or " ++ y
  | sep, x :: rest => sep ++ " " ++ x ++ listing "," rest

def expectedText (expected : List Terminal) : String :=
  listing "\nExpected one of" (expected.map Terminal.text)

def message : ParseError → String
  | invalid offset => "syntax error: Invalid token at " ++ offset.repr
  | unexpected l expected =>
    "syntax error: Unrecognized token `" ++ l.token.text ++ "` found at " ++ l.start.repr ++ ":"
      ++ l.stop.repr ++ expectedText expected
  | unfinished offset expected =>
    "syntax error: Unrecognized EOF found at " ++ offset.repr ++ expectedText expected
  | fault f => "syntax error: " ++ f.message

end ParseError

/-- Every terminal that can come next. -/
def expected {α : Type} (g : Goal α) (st : State) : List Terminal :=
  Terminal.all.filter (fun t => (shift g st t.sample).isSome)

/-- Read the rest of a text, of which the part before `offset` led to the state. -/
def parseFrom {α : Type} (g : Goal α) (st : State) (offset : Nat) (invalid : Option Nat) :
    List Lexeme → Except ParseError α
  | [] => match invalid with
    | some n => .error (.invalid n)
    | none => match finish g st with
      | some (.ok a) => .ok a
      | some (.error f) => .error (.fault f)
      | none => .error (.unfinished offset (expected g st))
  | l :: ls => match shift g st l.token with
    | some (.ok st) => parseFrom g st l.stop invalid ls
    | some (.error f) => .error (.fault f)
    | none => .error (.unexpected l (expected g st))

def parse {α : Type} (g : Goal α) (source : String) : Except ParseError α :=
  let s := scan source
  parseFrom g .start 0 s.invalid s.lexemes

end LetML

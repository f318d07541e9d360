import LetML.Text.Blank

namespace LetML

inductive Command where
  | type (source : String)
  | load (path : String)
  | env
  | help
  | quit
  | statement (source : String)
  | unknown (name : String)
  deriving DecidableEq

namespace Command

def named (name arg : String) : Command :=
  if name = "type" ∨ name = "t" then type arg
  else if name = "load" ∨ name = "l" then load arg
  else if name = "env" then env
  else if name = "help" ∨ name = "h" ∨ name = "?" then help
  else if name = "quit" ∨ name = "q" then quit
  else unknown name

/-- A line that starts with a colon is a command, whose name ends at the first blank; any other
line is a statement. -/
def parse (line : String) : Command :=
  match trimBlanks line.toList with
  | ':' :: rest =>
    let name := rest.takeWhile (fun c => !isBlank c)
    named (String.ofList name) (String.ofList (trimBlanks (rest.drop name.length)))
  | cs => statement (String.ofList cs)

def helpText : String :=
"Commands:
  <statement>        run a declaration or expression (trailing ; optional)
  :type, :t <expr>   show the inferred type of an expression
  :load, :l <path>   load a file of ;-terminated declarations
  :env               list bound names and their types
  :help, :h, :?      show this message
  :quit, :q          leave the REPL"

end Command

end LetML

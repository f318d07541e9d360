import LetML.Parser.Basic
import LetML.TypeError
import LetML.Value.RuntimeError

namespace LetML

inductive ReadFault where
  | missing
  | directory
  | notDirectory
  | longName
  | zeroByte
  | notText
  | other (reason : String)
  deriving DecidableEq

def ReadFault.message : ReadFault → String
  | missing => "No such file or directory (os error 2)"
  | directory => "Is a directory (os error 21)"
  | notDirectory => "Not a directory (os error 20)"
  | longName => "File name too long (os error 36)"
  | zeroByte => "file name contained an unexpected NUL byte"
  | notText => "stream did not contain valid UTF-8"
  | other reason => reason

/-- The texts of the files that can be read, by their paths. -/
abbrev Files := String → Except ReadFault String

inductive SessionError where
  | parse (e : ParseError)
  | type (e : TypeError)
  | runtime (e : RuntimeError)
  | read (path : String) (e : ReadFault)

def SessionError.message : SessionError → String
  | parse e => e.message
  | type e => "type error: " ++ e.message
  | runtime e => "runtime error: " ++ e.message
  | read path e => "cannot read " ++ path ++ ": " ++ e.message

end LetML

import LetML.Session.Error
import LetML.Text.Lines

namespace LetML

inductive Place where
  | outside
  | inside
  | file (bytes : List UInt8)

def nameLimit : Nat := 255

def pathLimit : Nat := 4095

/-- Follow one name of a path, where an empty name is a dot. A file leads nowhere, and outside of
the directory nothing is known but directories above it. -/
def Place.follow (entries : List (String × List UInt8)) (p : Place) (name : String) :
    Except ReadFault Place :=
  match p with
  | .file _ => .error .notDirectory
  | _ =>
    if name = "" ∨ name = "." then .ok p
    else if name = ".." then .ok .outside
    else if nameLimit < name.utf8ByteSize then .error .longName
    else match p, entries.lookup name with
      | .inside, some bytes => .ok (.file bytes)
      | _, _ => .error .missing

def cutPath : List Char → List (List Char)
  | [] => [[]]
  | c :: cs =>
    if c = '/' then [] :: cutPath cs
    else match cutPath cs with
      | [] => [[c]]
      | name :: rest => (c :: name) :: rest

/-- Where a path leads to. A path that starts with a slash starts outside. -/
def Place.ofPath (entries : List (String × List UInt8)) (path : String) : Except ReadFault Place :=
  if path.toList.contains (Char.ofNat 0) then .error .zeroByte
  else if path = "" then .error .missing
  else if pathLimit < path.utf8ByteSize then .error .longName
  else
    let start := if path.toList.head? = some '/' then .outside else .inside
    ((cutPath path.toList).map String.ofList).foldlM (Place.follow entries) start

def Files.ofDirectory (entries : List (String × List UInt8)) : Files := fun path => do
  match ← Place.ofPath entries path with
  | .file bytes => match decode? bytes with
    | none => .error .notText
    | some source => .ok source
  | _ => .error .directory

end LetML

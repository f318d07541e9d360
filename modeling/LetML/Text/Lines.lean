namespace LetML

/-- A line without its end, which is a line feed or a carriage return and a line feed. -/
def dropLineEnd (line : List UInt8) : List UInt8 :=
  match line.reverse with
  | 10 :: 13 :: rest => rest.reverse
  | 10 :: rest => rest.reverse
  | _ => line

def cutLines : List UInt8 → List (List UInt8)
  | [] => []
  | b :: bs =>
    if b = 10 then [b] :: cutLines bs
    else match cutLines bs with
      | [] => [[b]]
      | line :: rest => (b :: line) :: rest

def decode? (bs : List UInt8) : Option String := String.fromUTF8? ⟨bs.toArray⟩

/-- The lines of an input, where a line that is not text is missing. -/
def textLines (bs : List UInt8) : List (Option String) :=
  (cutLines bs).map fun line => decode? (dropLineEnd line)

end LetML

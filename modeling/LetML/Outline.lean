namespace LetML

inductive Outline where
  | node (rule input output : String) (children : List Outline)

namespace Outline

mutual

/-- One line for each node, its children two columns further in. -/
def textAt (depth : Nat) : Outline → String
  | node rule input output children =>
    String.ofList (List.replicate (2 * depth) ' ') ++ rule ++ ": " ++ input ++ " " ++ output ++ "\n"
      ++ textsAt (depth + 1) children

def textsAt (depth : Nat) : List Outline → String
  | [] => ""
  | o :: os => o.textAt depth ++ textsAt depth os

end

def text (o : Outline) : String := o.textAt 0

end Outline

end LetML

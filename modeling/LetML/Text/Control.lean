namespace LetML

def isPlain (c : Char) : Bool :=
  c = '\t' || c = '\n' || c = '\x0C' || c = '\r' || (0x20 ≤ c.toNat && c.toNat ≠ 0x7F)

/-- The part of a control sequence that a text is in, or `ground` outside of all of them. A string
is the body of a device control string or of one that only ends. -/
inductive Control where
  | ground
  | escape
  | escapeRest
  | sequence
  | device
  | deviceParams
  | deviceRest
  | string
  | command
  deriving DecidableEq

namespace Control

/-- The part that follows a character. Cancel and substitute end every sequence, and escape starts
a new one. A string also ends at the byte 9C, within the encoding of a character too. -/
def next (s : Control) (c : Char) : Control :=
  let n := c.toNat
  if n = 0x18 || n = 0x1A then ground
  else if n = 0x1B then escape
  else match s with
    | ground => ground
    | escape =>
      if n < 0x20 || 0x7F ≤ n then escape
      else if n < 0x30 then escapeRest
      else if c = '[' then sequence
      else if c = ']' then command
      else if c = 'P' then device
      else if c = 'X' || c = '^' || c = '_' then string
      else ground
    | escapeRest => if 0x30 ≤ n && n < 0x7F then ground else escapeRest
    | sequence => if 0x40 ≤ n && n < 0x7F then ground else sequence
    | device =>
      if n < 0x20 || 0x7F ≤ n then device
      else if n < 0x30 then deviceRest
      else if n < 0x40 then deviceParams
      else string
    | deviceParams =>
      if n < 0x20 || 0x7F ≤ n then deviceParams
      else if n < 0x30 then deviceRest
      else if n < 0x3C then deviceParams
      else string
    | deviceRest => if 0x30 ≤ n && n < 0x7F then string else deviceRest
    | string => if (String.utf8EncodeChar c).contains 0x9C then ground else string
    | command => if n = 0x07 then ground else command

def shows (s : Control) (c : Char) : Bool :=
  match s with
  | ground => isPlain c
  | escape | escapeRest | sequence => c.toNat < 0x20 && isPlain c
  | _ => false

end Control

/-- The characters of a text that show. After one that does, plain characters show as in the
ground, while the part of a sequence that it stood in is kept until a character beyond ASCII shows. -/
def shownFrom (showing : Bool) (s : Control) : List Char → List Char
  | [] => []
  | c :: cs =>
    if Control.shows (if showing then .ground else s) c then
      c :: shownFrom true (if c.toNat < 0x80 then s else .ground) cs
    else shownFrom false (s.next c) cs

def withoutControls (text : String) : String :=
  String.ofList (shownFrom false .ground text.toList)

end LetML

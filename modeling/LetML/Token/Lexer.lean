import LetML.Text.Blank
import LetML.Token.Basic

namespace LetML

inductive Shape where
  | symbol (s : Symbol)
  | number
  | ident
  | blank
  | comment
  deriving DecidableEq

def isLineEnd (c : Char) : Bool := c = '\n' || c = '\r'

def isIdentStart (c : Char) : Bool := 'a' ≤ c && c ≤ 'z'

def isIdentRest (c : Char) : Bool :=
  isIdentStart c || ('A' ≤ c && c ≤ 'Z') || ('0' ≤ c && c ≤ '9') || c = '_' || c = '\''

def isDecimal (c : Char) : Bool := '0' ≤ c && c ≤ '9'

namespace Shape

/-- Symbols come first, so that a keyword is preferred to an identifier of the same length. -/
def all : List Shape := Symbol.all.map symbol ++ [number, ident, blank, comment]

/-- The length of the longest beginning of the text that has the shape, 0 if there is none. -/
def reach : Shape → List Char → Nat
  | symbol s, cs => if s.chars.isPrefixOf cs then s.chars.length else 0
  | number, cs => (cs.takeWhile isDecimal).length
  | ident, c :: cs => if isIdentStart c then (cs.takeWhile isIdentRest).length + 1 else 0
  | ident, [] => 0
  | blank, cs => (cs.takeWhile isBlank).length
  | comment, '-' :: '-' :: cs =>
    let line := cs.takeWhile (fun c => !isLineEnd c)
    line.length + ((cs.drop line.length).takeWhile isLineEnd).length + 2
  | comment, _ => 0

def token? (text : List Char) : Shape → Option Token
  | symbol s => some (.symbol s)
  | number => some (.number (String.ofList text))
  | ident => some (.ident (String.ofList text))
  | blank | comment => none

/-- The shape that reaches furthest, with its length. Of two that reach equally far the first of
the list is taken, and a shape that reaches nothing never. -/
def longest (cs : List Char) : List Shape → Option (Shape × Nat)
  | [] => none
  | sh :: rest =>
    let n := sh.reach cs
    match longest cs rest with
    | none => if n = 0 then none else some (sh, n)
    | some (sh', m) => if n < m then some (sh', m) else some (sh, n)

theorem longest_pos {cs : List Char} {shs : List Shape} {sh : Shape} {n : Nat}
    (h : longest cs shs = some (sh, n)) : 0 < n := by
  induction shs generalizing sh n with
  | nil => simp [longest] at h
  | cons sh₀ rest ih =>
    simp only [longest] at h
    split at h
    · split at h
      · simp at h
      · cases h; omega
    · rename_i hrest
      have hpos := ih hrest
      split at h <;> cases h <;> omega

end Shape

structure Lexeme where
  token : Token
  start : Nat
  stop : Nat

structure Scan where
  lexemes : List Lexeme
  invalid : Option Nat

def byteLength : List Char → Nat
  | [] => 0
  | c :: cs => c.utf8Size + byteLength cs

/-- Cut the longest shape off the text again and again. It has at least one character, by
`Shape.longest_pos`. -/
def scanFrom (start : Nat) : List Char → Scan
  | [] => ⟨[], none⟩
  | c :: cs => match Shape.longest (c :: cs) Shape.all with
    | none => ⟨[], some start⟩
    | some (sh, n) =>
      let text := c :: cs.take (n - 1)
      let stop := start + byteLength text
      let rest := scanFrom stop (cs.drop (n - 1))
      match sh.token? text with
      | none => rest
      | some t => { rest with lexemes := ⟨t, start, stop⟩ :: rest.lexemes }
termination_by cs => cs.length
decreasing_by
  simp only [List.length_drop, List.length_cons]
  omega

def scan (source : String) : Scan := scanFrom 0 source.toList

end LetML

namespace LetML

inductive Symbol where
  | ne | andAnd | lparen | rparen | star | plus | comma | minus | arrow | colons | semi
  | lt | le | assign | eq | gt | ge | capFalse | capTrue | lbracket | backslash | rbracket
  | underscore | kwCase | kwElse | kwEnd | kwFalse | kwIf | kwIn | kwLet | kwOf | kwRec
  | kwThen | kwTrue | bar | orOr
  deriving DecidableEq

namespace Symbol

def all : List Symbol :=
  [ne, andAnd, lparen, rparen, star, plus, comma, minus, arrow, colons, semi, lt, le, assign, eq,
   gt, ge, capFalse, capTrue, lbracket, backslash, rbracket, underscore, kwCase, kwElse, kwEnd,
   kwFalse, kwIf, kwIn, kwLet, kwOf, kwRec, kwThen, kwTrue, bar, orOr]

theorem mem_all (s : Symbol) : s ∈ all := by cases s <;> decide

def chars : Symbol → List Char
  | ne => ['!', '=']
  | andAnd => ['&', '&']
  | lparen => ['(']
  | rparen => [')']
  | star => ['*']
  | plus => ['+']
  | comma => [',']
  | minus => ['-']
  | arrow => ['-', '>']
  | colons => [':', ':']
  | semi => [';']
  | lt => ['<']
  | le => ['<', '=']
  | assign => ['=']
  | eq => ['=', '=']
  | gt => ['>']
  | ge => ['>', '=']
  | capFalse => ['F', 'a', 'l', 's', 'e']
  | capTrue => ['T', 'r', 'u', 'e']
  | lbracket => ['[']
  | backslash => ['\\']
  | rbracket => [']']
  | underscore => ['_']
  | kwCase => ['c', 'a', 's', 'e']
  | kwElse => ['e', 'l', 's', 'e']
  | kwEnd => ['e', 'n', 'd']
  | kwFalse => ['f', 'a', 'l', 's', 'e']
  | kwIf => ['i', 'f']
  | kwIn => ['i', 'n']
  | kwLet => ['l', 'e', 't']
  | kwOf => ['o', 'f']
  | kwRec => ['r', 'e', 'c']
  | kwThen => ['t', 'h', 'e', 'n']
  | kwTrue => ['t', 'r', 'u', 'e']
  | bar => ['|']
  | orOr => ['|', '|']

def spelling (s : Symbol) : String := String.ofList s.chars

end Symbol

/-- A number keeps its digits as they were written. -/
inductive Token where
  | symbol (s : Symbol)
  | number (digits : String)
  | ident (name : String)
  deriving DecidableEq

def Token.text : Token → String
  | symbol s => s.spelling
  | number digits => digits
  | ident name => name

inductive Terminal where
  | symbol (s : Symbol)
  | number
  | ident
  deriving DecidableEq

namespace Terminal

def all : List Terminal := Symbol.all.map symbol ++ [number, ident]

def sample : Terminal → Token
  | symbol s => .symbol s
  | number => .number "0"
  | ident => .ident "x"

def text : Terminal → String
  | symbol .backslash => "\"\\\\\""
  | symbol s => "\"" ++ s.spelling ++ "\""
  | number => "r#\"[0-9]+\"#"
  | ident => "r#\"[a-z][a-zA-Z0-9_']*\"#"

end Terminal

end LetML

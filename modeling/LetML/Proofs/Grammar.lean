import LetML.Parser.Basic

namespace LetML

/-- The nonterminals of the grammar. The levels of expressions go from the loosest to the tightest;
a sequence of parts is a nonterminal of its own. -/
inductive Nonterminal where
  | expr | or | and | cmp | cons | add | mul | app | atom
  | elems | arm | arms | clause | clauses | params
  | pattern | atomPattern | patternElems
  | decl | statement | program

@[reducible]
def Nonterminal.Meaning : Nonterminal → Type
  | expr | or | and | cmp | cons | add | mul | app | atom => Expr
  | elems => List Expr
  | arm => Pattern × Expr
  | arms => List (Pattern × Expr)
  | clause => Clause
  | clauses => List Clause
  | pattern | atomPattern => Pattern
  | params | patternElems => List Pattern
  | decl | statement => Decl
  | program => List Decl

inductive Comparison where
  | eq | ne | lt | le | gt | ge

namespace Comparison

def symbol : Comparison → Symbol
  | eq => .eq
  | ne => .ne
  | lt => .lt
  | le => .le
  | gt => .gt
  | ge => .ge

def op : Comparison → BinOp
  | eq => .eq
  | ne => .ne
  | lt => .lt
  | le => .le
  | gt => .gt
  | ge => .ge

end Comparison

inductive Addition where
  | plus | minus

namespace Addition

def symbol : Addition → Symbol
  | plus => .plus
  | minus => .minus

def op : Addition → BinOp
  | plus => .add
  | minus => .sub

end Addition

/-- A truth value may be written with a capital letter. -/
def truthSymbol : (capital truth : Bool) → Symbol
  | false, true => .kwTrue
  | true, true => .capTrue
  | false, false => .kwFalse
  | true, false => .capFalse

inductive ParseTree : Nonterminal → Type where
  | lambda (x : String) (xs : List String) (body : ParseTree .expr) : ParseTree .expr
  | letIn (recursive : Bool) (cs : ParseTree .clauses) (body : ParseTree .expr) : ParseTree .expr
  | cond (test yes no : ParseTree .expr) : ParseTree .expr
  | ofOr (e : ParseTree .or) : ParseTree .expr
  | or (l : ParseTree .and) (r : ParseTree .or) : ParseTree .or
  | ofAnd (e : ParseTree .and) : ParseTree .or
  | and (l : ParseTree .cmp) (r : ParseTree .and) : ParseTree .and
  | ofCmp (e : ParseTree .cmp) : ParseTree .and
  | cmp (l : ParseTree .cons) (c : Comparison) (r : ParseTree .cons) : ParseTree .cmp
  | ofCons (e : ParseTree .cons) : ParseTree .cmp
  | cons (h : ParseTree .add) (t : ParseTree .cons) : ParseTree .cons
  | ofAdd (e : ParseTree .add) : ParseTree .cons
  | add (l : ParseTree .add) (a : Addition) (r : ParseTree .mul) : ParseTree .add
  | ofMul (e : ParseTree .mul) : ParseTree .add
  | mul (l : ParseTree .mul) (r : ParseTree .app) : ParseTree .mul
  | ofApp (e : ParseTree .app) : ParseTree .mul
  | app (f : ParseTree .app) (a : ParseTree .atom) : ParseTree .app
  | ofAtom (e : ParseTree .atom) : ParseTree .app
  | number (digits : String) : ParseTree .atom
  | truth (capital b : Bool) : ParseTree .atom
  | var (x : String) : ParseTree .atom
  | paren (e : ParseTree .expr) : ParseTree .atom
  | brackets (es : ParseTree .elems) : ParseTree .atom
  | case (e : ParseTree .expr) (bar : Bool) (as : ParseTree .arms) : ParseTree .atom
  -- elements that are each followed by a comma, but for the last, which need not be
  | noElem : ParseTree .elems
  | lastElem (e : ParseTree .expr) : ParseTree .elems
  | moreElems (e : ParseTree .expr) (es : ParseTree .elems) : ParseTree .elems
  | arm (p : ParseTree .pattern) (e : ParseTree .expr) : ParseTree .arm
  | lastArm (a : ParseTree .arm) : ParseTree .arms
  | moreArms (a : ParseTree .arm) (as : ParseTree .arms) : ParseTree .arms
  | clause (name : String) (ps : ParseTree .params) (body : ParseTree .expr) : ParseTree .clause
  | lastClause (c : ParseTree .clause) : ParseTree .clauses
  | moreClauses (c : ParseTree .clause) (cs : ParseTree .clauses) : ParseTree .clauses
  | noParam : ParseTree .params
  | moreParams (p : ParseTree .atomPattern) (ps : ParseTree .params) : ParseTree .params
  | patternCons (h : ParseTree .atomPattern) (t : ParseTree .pattern) : ParseTree .pattern
  | ofAtomPattern (p : ParseTree .atomPattern) : ParseTree .pattern
  | wild : ParseTree .atomPattern
  | patternVar (x : String) : ParseTree .atomPattern
  | patternNumber (digits : String) : ParseTree .atomPattern
  | patternTruth (capital b : Bool) : ParseTree .atomPattern
  | patternBrackets (ps : ParseTree .patternElems) : ParseTree .atomPattern
  | patternParen (p : ParseTree .pattern) : ParseTree .atomPattern
  | noPattern : ParseTree .patternElems
  | lastPattern (p : ParseTree .pattern) : ParseTree .patternElems
  | morePatterns (p : ParseTree .pattern) (ps : ParseTree .patternElems) : ParseTree .patternElems
  | letDecl (recursive : Bool) (cs : ParseTree .clauses) : ParseTree .decl
  | evalDecl (e : ParseTree .expr) : ParseTree .decl
  | statement (d : ParseTree .decl) (semicolon : Bool) : ParseTree .statement
  | noDecl : ParseTree .program
  | moreDecls (d : ParseTree .decl) (ds : ParseTree .program) : ParseTree .program

def optional (present : Bool) (s : Symbol) : List Token := if present then [.symbol s] else []

namespace ParseTree

@[simp]
def tokens : {n : Nonterminal} → ParseTree n → List Token
  | _, lambda x xs body =>
    .symbol .backslash :: .ident x :: xs.map .ident ++ .symbol .arrow :: body.tokens
  | _, letIn recursive cs body =>
    .symbol .kwLet :: optional recursive .kwRec ++ cs.tokens ++ .symbol .kwIn :: body.tokens
  | _, cond test yes no =>
    .symbol .kwIf :: test.tokens ++ .symbol .kwThen :: yes.tokens ++ .symbol .kwElse :: no.tokens
  | _, ofOr e => e.tokens
  | _, or l r => l.tokens ++ .symbol .orOr :: r.tokens
  | _, ofAnd e => e.tokens
  | _, and l r => l.tokens ++ .symbol .andAnd :: r.tokens
  | _, ofCmp e => e.tokens
  | _, cmp l c r => l.tokens ++ .symbol c.symbol :: r.tokens
  | _, ofCons e => e.tokens
  | _, cons h t => h.tokens ++ .symbol .colons :: t.tokens
  | _, ofAdd e => e.tokens
  | _, add l a r => l.tokens ++ .symbol a.symbol :: r.tokens
  | _, ofMul e => e.tokens
  | _, mul l r => l.tokens ++ .symbol .star :: r.tokens
  | _, ofApp e => e.tokens
  | _, app f a => f.tokens ++ a.tokens
  | _, ofAtom e => e.tokens
  | _, number digits => [.number digits]
  | _, truth capital b => [.symbol (truthSymbol capital b)]
  | _, var x => [.ident x]
  | _, paren e => .symbol .lparen :: e.tokens ++ [.symbol .rparen]
  | _, brackets es => .symbol .lbracket :: es.tokens ++ [.symbol .rbracket]
  | _, case e bar as =>
    .symbol .kwCase :: e.tokens ++ .symbol .kwOf :: optional bar .bar ++ as.tokens
      ++ [.symbol .kwEnd]
  | _, noElem => []
  | _, lastElem e => e.tokens
  | _, moreElems e es => e.tokens ++ .symbol .comma :: es.tokens
  | _, arm p e => p.tokens ++ .symbol .arrow :: e.tokens
  | _, lastArm a => a.tokens
  | _, moreArms a as => a.tokens ++ .symbol .bar :: as.tokens
  | _, clause name ps body => .ident name :: ps.tokens ++ .symbol .assign :: body.tokens
  | _, lastClause c => c.tokens
  | _, moreClauses c cs => c.tokens ++ .symbol .bar :: cs.tokens
  | _, noParam => []
  | _, moreParams p ps => p.tokens ++ ps.tokens
  | _, patternCons h t => h.tokens ++ .symbol .colons :: t.tokens
  | _, ofAtomPattern p => p.tokens
  | _, wild => [.symbol .underscore]
  | _, patternVar x => [.ident x]
  | _, patternNumber digits => [.number digits]
  | _, patternTruth capital b => [.symbol (truthSymbol capital b)]
  | _, patternBrackets ps => .symbol .lbracket :: ps.tokens ++ [.symbol .rbracket]
  | _, patternParen p => .symbol .lparen :: p.tokens ++ [.symbol .rparen]
  | _, noPattern => []
  | _, lastPattern p => p.tokens
  | _, morePatterns p ps => p.tokens ++ .symbol .comma :: ps.tokens
  | _, letDecl recursive cs => .symbol .kwLet :: optional recursive .kwRec ++ cs.tokens
  | _, evalDecl e => e.tokens
  | _, statement d semicolon => d.tokens ++ optional semicolon .semi
  | _, noDecl => []
  | _, moreDecls d ds => d.tokens ++ .symbol .semi :: ds.tokens

/-- What a derivation means, unless a number is out of range or clauses define nothing. -/
def meaning : {n : Nonterminal} → ParseTree n → Except Fault n.Meaning
  | _, lambda x xs body => do return Expr.lambda (x :: xs) (← body.meaning)
  | _, letIn recursive cs body => do letExpr recursive (← cs.meaning) (← body.meaning)
  | _, cond test yes no => do
    return Expr.cond (← test.meaning) (← yes.meaning) (← no.meaning)
  | _, ofOr e => e.meaning
  | _, or l r => do return Expr.bin .or (← l.meaning) (← r.meaning)
  | _, ofAnd e => e.meaning
  | _, and l r => do return Expr.bin .and (← l.meaning) (← r.meaning)
  | _, ofCmp e => e.meaning
  | _, cmp l c r => do return Expr.bin c.op (← l.meaning) (← r.meaning)
  | _, ofCons e => e.meaning
  | _, cons h t => do return Expr.cons (← h.meaning) (← t.meaning)
  | _, ofAdd e => e.meaning
  | _, add l a r => do return Expr.bin a.op (← l.meaning) (← r.meaning)
  | _, ofMul e => e.meaning
  | _, mul l r => do return Expr.bin .mul (← l.meaning) (← r.meaning)
  | _, ofApp e => e.meaning
  | _, app f a => do return Expr.app (← f.meaning) (← a.meaning)
  | _, ofAtom e => e.meaning
  | _, number digits => do return Expr.lit (.int (← readInt digits))
  | _, truth _ b => return Expr.lit (.bool b)
  | _, var x => return Expr.var x
  | _, paren e => e.meaning
  | _, brackets es => do return bracketed (← es.meaning)
  | _, case e _ as => do return Expr.case (← e.meaning) (← as.meaning)
  | _, noElem => return ([] : List Expr)
  | _, lastElem e => do return [← e.meaning]
  | _, moreElems e es => do return (← e.meaning) :: (← es.meaning)
  | _, arm p e => do return (← p.meaning, ← e.meaning)
  | _, lastArm a => do return [← a.meaning]
  | _, moreArms a as => do return (← a.meaning) :: (← as.meaning)
  | _, clause name ps body => do return Clause.mk name (← ps.meaning) (← body.meaning)
  | _, lastClause c => do return [← c.meaning]
  | _, moreClauses c cs => do return (← c.meaning) :: (← cs.meaning)
  | _, noParam => return ([] : List Pattern)
  | _, moreParams p ps => do return (← p.meaning) :: (← ps.meaning)
  | _, patternCons h t => do return Pattern.cons (← h.meaning) (← t.meaning)
  | _, ofAtomPattern p => p.meaning
  | _, wild => return Pattern.wild
  | _, patternVar x => return Pattern.var x
  | _, patternNumber digits => do return Pattern.lit (.int (← readInt digits))
  | _, patternTruth _ b => return Pattern.lit (.bool b)
  | _, patternBrackets ps => do return Pattern.ofList (← ps.meaning)
  | _, patternParen p => p.meaning
  | _, noPattern => return ([] : List Pattern)
  | _, lastPattern p => do return [← p.meaning]
  | _, morePatterns p ps => do return (← p.meaning) :: (← ps.meaning)
  | _, letDecl recursive cs => do LetML.letDecl recursive (← cs.meaning)
  | _, evalDecl e => do return Decl.eval (← e.meaning)
  | _, statement d _ => d.meaning
  | _, noDecl => return ([] : List Decl)
  | _, moreDecls d ds => do return (← d.meaning) :: (← ds.meaning)

end ParseTree

end LetML

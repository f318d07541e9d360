import LetML.Proofs.Grammar

namespace LetML

variable {ts us ws : List Token}

/-- A text has a derivation with a meaning. -/
def Derives (n : Nonterminal) (ts : List Token) (v : n.Meaning) : Prop :=
  ∃ T : ParseTree n, T.tokens = ts ∧ T.meaning = .ok v

def Goal.start {α : Type} : Goal α → Nonterminal
  | .expr => .expr
  | .statement => .statement
  | .program => .program

/-- A text has a derivation from what the parser is asked for. -/
def Goal.Derives {α : Type} : Goal α → List Token → α → Prop
  | .expr => LetML.Derives .expr
  | .statement => LetML.Derives .statement
  | .program => LetML.Derives .program

theorem bind_eq_ok {β γ : Type} {x : Except Fault β} {f : β → Except Fault γ} {v : γ} :
    x >>= f = .ok v ↔ ∃ u, x = .ok u ∧ f u = .ok v := by
  constructor
  · intro h
    cases x with
    | error e => cases h
    | ok u => exact ⟨u, rfl, h⟩
  · rintro ⟨u, rfl, h⟩
    exact h

theorem map_eq_ok {β γ : Type} {x : Except Fault β} {f : β → γ} {v : γ} :
    x.map f = .ok v ↔ ∃ u, x = .ok u ∧ f u = v := by
  cases x <;> simp [Except.map]

theorem bind₂_eq_ok {β γ δ : Type} {x : Except Fault β} {y : Except Fault γ}
    {f : β → γ → Except Fault δ} {v : δ} :
    (do f (← x) (← y)) = .ok v ↔ ∃ u w, x = .ok u ∧ y = .ok w ∧ f u w = .ok v := by
  constructor
  · intro h
    obtain ⟨u, hu, h⟩ := bind_eq_ok.mp h
    obtain ⟨w, hw, h⟩ := bind_eq_ok.mp h
    exact ⟨u, w, hu, hw, h⟩
  · rintro ⟨u, w, rfl, rfl, h⟩
    exact h

theorem exists_truthSymbol {s : Symbol} {b : Bool} (h : bool? s = some b) :
    ∃ capital, s = truthSymbol capital b := by
  cases s <;> cases h <;> first | exact ⟨false, rfl⟩ | exact ⟨true, rfl⟩

namespace Derives

open ParseTree

section Expressions

variable {u v w : Expr}

theorem lambda {x : String} {xs : List String} (h : Derives .expr ts u) :
    Derives .expr (.symbol .backslash :: .ident x :: xs.map .ident ++ .symbol .arrow :: ts)
      (Expr.lambda (x :: xs) u) := by
  obtain ⟨T, rfl, hT⟩ := h
  exact ⟨.lambda x xs T, rfl, bind_eq_ok.mpr ⟨_, hT, rfl⟩⟩

theorem letIn {rec : Bool} {cs : List Clause} (hcs : Derives .clauses ts cs)
    (hu : Derives .expr us u) (h : letExpr rec cs u = .ok v) :
    Derives .expr (.symbol .kwLet :: optional rec .kwRec ++ ts ++ .symbol .kwIn :: us) v := by
  obtain ⟨T, rfl, hT⟩ := hcs
  obtain ⟨U, rfl, hU⟩ := hu
  exact ⟨.letIn rec T U, rfl, bind₂_eq_ok.mpr ⟨_, _, hT, hU, h⟩⟩

theorem cond (hu : Derives .expr ts u) (hv : Derives .expr us v) (hw : Derives .expr ws w) :
    Derives .expr (.symbol .kwIf :: ts ++ .symbol .kwThen :: us ++ .symbol .kwElse :: ws)
      (.cond u v w) := by
  obtain ⟨T, rfl, hT⟩ := hu
  obtain ⟨U, rfl, hU⟩ := hv
  obtain ⟨W, rfl, hW⟩ := hw
  exact ⟨.cond T U W, rfl, bind₂_eq_ok.mpr ⟨_, _, hT, hU, bind_eq_ok.mpr ⟨_, hW, rfl⟩⟩⟩

theorem ofOr (h : Derives .or ts u) : Derives .expr ts u := by
  obtain ⟨T, rfl, hT⟩ := h
  exact ⟨.ofOr T, rfl, hT⟩

theorem or (hl : Derives .and ts u) (hr : Derives .or us v) :
    Derives .or (ts ++ .symbol .orOr :: us) (.bin .or u v) := by
  obtain ⟨T, rfl, hT⟩ := hl
  obtain ⟨U, rfl, hU⟩ := hr
  exact ⟨.or T U, rfl, bind₂_eq_ok.mpr ⟨_, _, hT, hU, rfl⟩⟩

theorem ofAnd (h : Derives .and ts u) : Derives .or ts u := by
  obtain ⟨T, rfl, hT⟩ := h
  exact ⟨.ofAnd T, rfl, hT⟩

theorem and (hl : Derives .cmp ts u) (hr : Derives .and us v) :
    Derives .and (ts ++ .symbol .andAnd :: us) (.bin .and u v) := by
  obtain ⟨T, rfl, hT⟩ := hl
  obtain ⟨U, rfl, hU⟩ := hr
  exact ⟨.and T U, rfl, bind₂_eq_ok.mpr ⟨_, _, hT, hU, rfl⟩⟩

theorem ofCmp (h : Derives .cmp ts u) : Derives .and ts u := by
  obtain ⟨T, rfl, hT⟩ := h
  exact ⟨.ofCmp T, rfl, hT⟩

theorem cmp {q : Comparison} (hl : Derives .cons ts u) (hr : Derives .cons us v) :
    Derives .cmp (ts ++ .symbol q.symbol :: us) (.bin q.op u v) := by
  obtain ⟨T, rfl, hT⟩ := hl
  obtain ⟨U, rfl, hU⟩ := hr
  exact ⟨.cmp T q U, rfl, bind₂_eq_ok.mpr ⟨_, _, hT, hU, rfl⟩⟩

theorem ofCons (h : Derives .cons ts u) : Derives .cmp ts u := by
  obtain ⟨T, rfl, hT⟩ := h
  exact ⟨.ofCons T, rfl, hT⟩

theorem cons (hl : Derives .add ts u) (hr : Derives .cons us v) :
    Derives .cons (ts ++ .symbol .colons :: us) (.cons u v) := by
  obtain ⟨T, rfl, hT⟩ := hl
  obtain ⟨U, rfl, hU⟩ := hr
  exact ⟨.cons T U, rfl, bind₂_eq_ok.mpr ⟨_, _, hT, hU, rfl⟩⟩

theorem ofAdd (h : Derives .add ts u) : Derives .cons ts u := by
  obtain ⟨T, rfl, hT⟩ := h
  exact ⟨.ofAdd T, rfl, hT⟩

theorem add {a : Addition} (hl : Derives .add ts u) (hr : Derives .mul us v) :
    Derives .add (ts ++ .symbol a.symbol :: us) (.bin a.op u v) := by
  obtain ⟨T, rfl, hT⟩ := hl
  obtain ⟨U, rfl, hU⟩ := hr
  exact ⟨.add T a U, rfl, bind₂_eq_ok.mpr ⟨_, _, hT, hU, rfl⟩⟩

theorem ofMul (h : Derives .mul ts u) : Derives .add ts u := by
  obtain ⟨T, rfl, hT⟩ := h
  exact ⟨.ofMul T, rfl, hT⟩

theorem mul (hl : Derives .mul ts u) (hr : Derives .app us v) :
    Derives .mul (ts ++ .symbol .star :: us) (.bin .mul u v) := by
  obtain ⟨T, rfl, hT⟩ := hl
  obtain ⟨U, rfl, hU⟩ := hr
  exact ⟨.mul T U, rfl, bind₂_eq_ok.mpr ⟨_, _, hT, hU, rfl⟩⟩

theorem ofApp (h : Derives .app ts u) : Derives .mul ts u := by
  obtain ⟨T, rfl, hT⟩ := h
  exact ⟨.ofApp T, rfl, hT⟩

theorem app (hf : Derives .app ts u) (ha : Derives .atom us v) :
    Derives .app (ts ++ us) (.app u v) := by
  obtain ⟨T, rfl, hT⟩ := hf
  obtain ⟨U, rfl, hU⟩ := ha
  exact ⟨.app T U, rfl, bind₂_eq_ok.mpr ⟨_, _, hT, hU, rfl⟩⟩

theorem ofAtom (h : Derives .atom ts u) : Derives .app ts u := by
  obtain ⟨T, rfl, hT⟩ := h
  exact ⟨.ofAtom T, rfl, hT⟩

theorem ofAtomExpr (h : Derives .atom ts u) : Derives .expr ts u :=
  h.ofAtom.ofApp.ofMul.ofAdd.ofCons.ofCmp.ofAnd.ofOr

theorem number {digits : String} {n : Int64} (h : readInt digits = .ok n) :
    Derives .atom [.number digits] (.lit (.int n)) :=
  ⟨.number digits, rfl, bind_eq_ok.mpr ⟨_, h, rfl⟩⟩

theorem truth {s : Symbol} {b : Bool} (h : bool? s = some b) :
    Derives .atom [.symbol s] (.lit (.bool b)) := by
  obtain ⟨capital, rfl⟩ := exists_truthSymbol h
  exact ⟨.truth capital b, rfl, rfl⟩

theorem var (x : String) : Derives .atom [.ident x] (.var x) := ⟨.var x, rfl, rfl⟩

theorem paren (h : Derives .expr ts u) :
    Derives .atom (.symbol .lparen :: ts ++ [.symbol .rparen]) u := by
  obtain ⟨T, rfl, hT⟩ := h
  exact ⟨.paren T, rfl, hT⟩

theorem brackets {es : List Expr} (h : Derives .elems ts es) :
    Derives .atom (.symbol .lbracket :: ts ++ [.symbol .rbracket]) (bracketed es) := by
  obtain ⟨T, rfl, hT⟩ := h
  exact ⟨.brackets T, rfl, bind_eq_ok.mpr ⟨_, hT, rfl⟩⟩

theorem case {as : List (Pattern × Expr)} (bar : Bool) (hu : Derives .expr ts u)
    (has : Derives .arms us as) :
    Derives .atom (.symbol .kwCase :: ts ++ .symbol .kwOf :: optional bar .bar ++ us
      ++ [.symbol .kwEnd]) (.case u as) := by
  obtain ⟨T, rfl, hT⟩ := hu
  obtain ⟨U, rfl, hU⟩ := has
  exact ⟨.case T bar U, rfl, bind₂_eq_ok.mpr ⟨_, _, hT, hU, rfl⟩⟩

theorem noElem : Derives .elems [] [] := ⟨.noElem, rfl, rfl⟩

theorem lastElem (h : Derives .expr ts u) : Derives .elems ts [u] := by
  obtain ⟨T, rfl, hT⟩ := h
  exact ⟨.lastElem T, rfl, bind_eq_ok.mpr ⟨_, hT, rfl⟩⟩

theorem moreElems {es : List Expr} (h : Derives .expr ts u) (hes : Derives .elems us es) :
    Derives .elems (ts ++ .symbol .comma :: us) (u :: es) := by
  obtain ⟨T, rfl, hT⟩ := h
  obtain ⟨U, rfl, hU⟩ := hes
  exact ⟨.moreElems T U, rfl, bind₂_eq_ok.mpr ⟨_, _, hT, hU, rfl⟩⟩

end Expressions

section Clauses

variable {p q : Pattern} {e : Expr} {ps : List Pattern} {a : Pattern × Expr}
  {as : List (Pattern × Expr)} {c : Clause} {cs : List Clause} {name : String}

theorem arm (hp : Derives .pattern ts p) (he : Derives .expr us e) :
    Derives .arm (ts ++ .symbol .arrow :: us) (p, e) := by
  obtain ⟨T, rfl, hT⟩ := hp
  obtain ⟨U, rfl, hU⟩ := he
  exact ⟨.arm T U, rfl, bind₂_eq_ok.mpr ⟨_, _, hT, hU, rfl⟩⟩

theorem lastArm (h : Derives .arm ts a) : Derives .arms ts [a] := by
  obtain ⟨T, rfl, hT⟩ := h
  exact ⟨.lastArm T, rfl, bind_eq_ok.mpr ⟨_, hT, rfl⟩⟩

theorem moreArms (h : Derives .arm ts a) (has : Derives .arms us as) :
    Derives .arms (ts ++ .symbol .bar :: us) (a :: as) := by
  obtain ⟨T, rfl, hT⟩ := h
  obtain ⟨U, rfl, hU⟩ := has
  exact ⟨.moreArms T U, rfl, bind₂_eq_ok.mpr ⟨_, _, hT, hU, rfl⟩⟩

theorem clause (hps : Derives .params ts ps) (he : Derives .expr us e) :
    Derives .clause (.ident name :: ts ++ .symbol .assign :: us) ⟨name, ps, e⟩ := by
  obtain ⟨T, rfl, hT⟩ := hps
  obtain ⟨U, rfl, hU⟩ := he
  exact ⟨.clause name T U, rfl, bind₂_eq_ok.mpr ⟨_, _, hT, hU, rfl⟩⟩

theorem lastClause (h : Derives .clause ts c) : Derives .clauses ts [c] := by
  obtain ⟨T, rfl, hT⟩ := h
  exact ⟨.lastClause T, rfl, bind_eq_ok.mpr ⟨_, hT, rfl⟩⟩

theorem moreClauses (h : Derives .clause ts c) (hcs : Derives .clauses us cs) :
    Derives .clauses (ts ++ .symbol .bar :: us) (c :: cs) := by
  obtain ⟨T, rfl, hT⟩ := h
  obtain ⟨U, rfl, hU⟩ := hcs
  exact ⟨.moreClauses T U, rfl, bind₂_eq_ok.mpr ⟨_, _, hT, hU, rfl⟩⟩

theorem noParam : Derives .params [] [] := ⟨.noParam, rfl, rfl⟩

theorem moreParams (h : Derives .atomPattern ts p) (hps : Derives .params us ps) :
    Derives .params (ts ++ us) (p :: ps) := by
  obtain ⟨T, rfl, hT⟩ := h
  obtain ⟨U, rfl, hU⟩ := hps
  exact ⟨.moreParams T U, rfl, bind₂_eq_ok.mpr ⟨_, _, hT, hU, rfl⟩⟩

theorem patternCons (hp : Derives .atomPattern ts p) (hq : Derives .pattern us q) :
    Derives .pattern (ts ++ .symbol .colons :: us) (.cons p q) := by
  obtain ⟨T, rfl, hT⟩ := hp
  obtain ⟨U, rfl, hU⟩ := hq
  exact ⟨.patternCons T U, rfl, bind₂_eq_ok.mpr ⟨_, _, hT, hU, rfl⟩⟩

theorem ofAtomPattern (h : Derives .atomPattern ts p) : Derives .pattern ts p := by
  obtain ⟨T, rfl, hT⟩ := h
  exact ⟨.ofAtomPattern T, rfl, hT⟩

theorem wild : Derives .atomPattern [.symbol .underscore] .wild := ⟨.wild, rfl, rfl⟩

theorem patternVar (x : String) : Derives .atomPattern [.ident x] (.var x) :=
  ⟨.patternVar x, rfl, rfl⟩

theorem patternNumber {digits : String} {n : Int64} (h : readInt digits = .ok n) :
    Derives .atomPattern [.number digits] (.lit (.int n)) :=
  ⟨.patternNumber digits, rfl, bind_eq_ok.mpr ⟨_, h, rfl⟩⟩

theorem patternTruth {s : Symbol} {b : Bool} (h : bool? s = some b) :
    Derives .atomPattern [.symbol s] (.lit (.bool b)) := by
  obtain ⟨capital, rfl⟩ := exists_truthSymbol h
  exact ⟨.patternTruth capital b, rfl, rfl⟩

theorem patternBrackets (h : Derives .patternElems ts ps) :
    Derives .atomPattern (.symbol .lbracket :: ts ++ [.symbol .rbracket]) (.ofList ps) := by
  obtain ⟨T, rfl, hT⟩ := h
  exact ⟨.patternBrackets T, rfl, bind_eq_ok.mpr ⟨_, hT, rfl⟩⟩

theorem patternParen (h : Derives .pattern ts p) :
    Derives .atomPattern (.symbol .lparen :: ts ++ [.symbol .rparen]) p := by
  obtain ⟨T, rfl, hT⟩ := h
  exact ⟨.patternParen T, rfl, hT⟩

theorem noPattern : Derives .patternElems [] [] := ⟨.noPattern, rfl, rfl⟩

theorem lastPattern (h : Derives .pattern ts p) : Derives .patternElems ts [p] := by
  obtain ⟨T, rfl, hT⟩ := h
  exact ⟨.lastPattern T, rfl, bind_eq_ok.mpr ⟨_, hT, rfl⟩⟩

theorem morePatterns (h : Derives .pattern ts p) (hps : Derives .patternElems us ps) :
    Derives .patternElems (ts ++ .symbol .comma :: us) (p :: ps) := by
  obtain ⟨T, rfl, hT⟩ := h
  obtain ⟨U, rfl, hU⟩ := hps
  exact ⟨.morePatterns T U, rfl, bind₂_eq_ok.mpr ⟨_, _, hT, hU, rfl⟩⟩

end Clauses

section Statements

variable {d : Decl} {ds : List Decl}

theorem letDecl {rec : Bool} {cs : List Clause} (hcs : Derives .clauses ts cs)
    (h : LetML.letDecl rec cs = .ok d) :
    Derives .decl (.symbol .kwLet :: optional rec .kwRec ++ ts) d := by
  obtain ⟨T, rfl, hT⟩ := hcs
  exact ⟨.letDecl rec T, rfl, bind_eq_ok.mpr ⟨_, hT, h⟩⟩

theorem evalDecl {e : Expr} (h : Derives .expr ts e) : Derives .decl ts (.eval e) := by
  obtain ⟨T, rfl, hT⟩ := h
  exact ⟨.evalDecl T, rfl, bind_eq_ok.mpr ⟨_, hT, rfl⟩⟩

theorem statement (semicolon : Bool) (h : Derives .decl ts d) :
    Derives .statement (ts ++ optional semicolon .semi) d := by
  obtain ⟨T, rfl, hT⟩ := h
  exact ⟨.statement T semicolon, rfl, hT⟩

theorem noDecl : Derives .program [] [] := ⟨.noDecl, rfl, rfl⟩

theorem moreDecls (h : Derives .decl ts d) (hds : Derives .program us ds) :
    Derives .program (ts ++ .symbol .semi :: us) (d :: ds) := by
  obtain ⟨T, rfl, hT⟩ := h
  obtain ⟨U, rfl, hU⟩ := hds
  exact ⟨.moreDecls T U, rfl, bind₂_eq_ok.mpr ⟨_, _, hT, hU, rfl⟩⟩

end Statements

end Derives

end LetML

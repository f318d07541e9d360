import LetML.Parser.State

namespace LetML

def readInt (digits : String) : Except Fault Int64 :=
  let n := Nat.ofDigitChars 10 digits.toList 0
  if n ≤ Int64.maxValue.toInt then .ok (Int64.ofNat n) else .error .range

def bool? : Symbol → Option Bool
  | .kwTrue | .capTrue => some true
  | .kwFalse | .capFalse => some false
  | _ => none

def bracketed : List Expr → Expr
  | [] => .nil
  | es => .list es

def letExpr (recursive : Bool) (clauses : List Clause) (body : Expr) : Except Fault Expr :=
  match Clause.desugar clauses with
  | .error e => .error (.clauses e)
  | .ok (name, value) =>
    .ok (if recursive then .letRec name value body else .letIn name value body)

def letDecl (recursive : Bool) (clauses : List Clause) : Except Fault Decl :=
  match Clause.desugar clauses with
  | .error e => .error (.clauses e)
  | .ok (name, value) => .ok (.define recursive name value)

/-- The patterns of a `::` chain, the last head first, before its tail. -/
def consChain (heads : List Pattern) (tail : Pattern) : Pattern :=
  heads.foldl (fun t h => .cons h t) tail

def operandStart : Token → Option (List Frame → Pending → List Frame × Focus)
  | .number digits => some fun stack left =>
    (stack, .operator left ((readInt digits).map (fun n => .lit (.int n))))
  | .ident name => some fun stack left => (stack, .operator left (.ok (.var name)))
  | .symbol .lparen => some fun stack left => (.paren left :: stack, .expr)
  | .symbol .lbracket => some fun stack left => (stack, .elem left [])
  | .symbol .kwCase => some fun stack left => (.scrutinee left :: stack, .expr)
  | .symbol s => (bool? s).map fun b stack left => (stack, .operator left (.ok (.lit (.bool b))))

def exprStart : Token → Option (List Frame → List Frame × Focus)
  | .symbol .backslash => some fun stack => (stack, .lambda [])
  | .symbol .kwLet => some fun stack => (stack, .afterLet)
  | .symbol .kwIf => some fun stack => (.test :: stack, .expr)
  | t => (operandStart t).map fun k stack => k stack .nothing

def patternStart : Token → Option (PatternSite → List PatternFrame → List Pattern → Focus)
  | .number digits => some fun site within heads =>
    .patternEnd site within heads ((readInt digits).map (fun n => .lit (.int n)))
  | .ident name => some fun site within heads => .patternEnd site within heads (.ok (.var name))
  | .symbol .underscore => some fun site within heads => .patternEnd site within heads (.ok .wild)
  | .symbol .lparen => some fun site within heads => .pattern site (.paren heads :: within) []
  | .symbol .lbracket => some fun site within heads => .patternElem site within heads []
  | .symbol s => (bool? s).map fun b site within heads =>
    .patternEnd site within heads (.ok (.lit (.bool b)))

def paramShift (recursive : Bool) (done : List Clause) (name : String) (t : Token) :
    Option (List Pattern → List Frame → List Frame × Focus) :=
  if t = .symbol .assign then
    some fun params stack => (.clause recursive done name params :: stack, .expr)
  else
    (patternStart t).map fun k params stack => (stack, k (.param recursive done name params) [] [])

def patternEndShift (site : PatternSite) (within : List PatternFrame) (heads : List Pattern)
    (t : Token) : Option (Pattern → List Frame → List Frame × Focus) :=
  match within, site, t with
  | [], .param recursive done name params, t =>
    (paramShift recursive done name t).map fun k p stack => k (params ++ [p]) stack
  | _, _, .symbol .colons => some fun p stack => (stack, .pattern site within (p :: heads))
  | [], .arm left scrutinee done, .symbol .arrow => some fun p stack =>
    (.arm left scrutinee done (consChain heads p) :: stack, .expr)
  | .paren outer :: within, _, .symbol .rparen => some fun p stack =>
    (stack, .patternEnd site within outer (.ok (consChain heads p)))
  | .elem outer done :: within, _, .symbol .comma => some fun p stack =>
    (stack, .patternElem site within outer (done ++ [consChain heads p]))
  | .elem outer done :: within, _, .symbol .rbracket => some fun p stack =>
    (stack, .patternEnd site within outer (.ok (.ofList (done ++ [consChain heads p]))))
  | _, _, _ => none

/-- Close the constructs that end with the expression inside them. -/
def settle : List Frame → Except Fault Expr → List Frame × Except Fault Expr
  | .lambda params :: stack, v => settle stack (v.map (.lambda params))
  | .body recursive clauses :: stack, v => settle stack (v.bind (letExpr recursive clauses))
  | .no test yes :: stack, v => settle stack (v.map (.cond test yes))
  | stack, v => (stack, v)

/-- What a token makes of a complete expression inside the innermost open construct. -/
def frameShift : Frame → Symbol → Option (Expr → List Frame → List Frame × Focus)
  | .test, .kwThen => some fun e stack => (.yes e :: stack, .expr)
  | .yes test, .kwElse => some fun e stack => (.no test e :: stack, .expr)
  | .paren left, .rparen => some fun e stack => (stack, .operator left (.ok e))
  | .elem left done, .comma => some fun e stack => (stack, .elem left (done ++ [e]))
  | .elem left done, .rbracket => some fun e stack =>
    (stack, .operator left (.ok (bracketed (done ++ [e]))))
  | .scrutinee left, .kwOf => some fun e stack => (stack, .firstArm left e)
  | .arm left scrutinee done p, .bar => some fun e stack =>
    (stack, .pattern (.arm left scrutinee (done ++ [(p, e)])) [] [])
  | .arm left scrutinee done p, .kwEnd => some fun e stack =>
    (stack, .operator left (.ok (.case scrutinee (done ++ [(p, e)]))))
  | .clause recursive done name params, .bar => some fun e stack =>
    (stack, .clauseName recursive (done ++ [⟨name, params, e⟩]))
  | .clause recursive done name params, .kwIn => some fun e stack =>
    (.body recursive (done ++ [⟨name, params, e⟩]) :: stack, .expr)
  | _, _ => none

def decl? : List Frame → Except Fault Expr → Option (Except Fault Decl)
  | [], v => some (v.map .eval)
  | [.clause recursive done name params], v =>
    some (v.bind fun e => letDecl recursive (done ++ [⟨name, params, e⟩]))
  | _, _ => none

def Goal.afterDecl {α : Type} : Goal α → Option (List Decl → Decl → State)
  | .expr => none
  | .statement => some fun done d => ⟨done, [], .ended d⟩
  | .program => some fun done d => ⟨done ++ [d], [], .expr⟩

def closeShift {α : Type} (g : Goal α) (done : List Decl) (stack : List Frame)
    (v : Except Fault Expr) (t : Token) : Option (Except Fault State) :=
  match settle stack v, t with
  | (stack, v), .symbol .semi => do
    let k ← g.afterDecl
    let d ← decl? stack v
    return d.map (k done)
  | (frame :: stack, v), .symbol s =>
    (frameShift frame s).map fun k => v.map fun e =>
      let (stack, focus) := k e stack
      ⟨done, stack, focus⟩
  | _, _ => none

/-- After an operand: an argument or an operator continues the expression, all else ends it. -/
def operatorShift {α : Type} (g : Goal α) (done : List Decl) (stack : List Frame) (left : Pending)
    (v : Except Fault Expr) (t : Token) : Option (Except Fault State) :=
  match operandStart t, t with
  | some k, _ => some (v.map fun e =>
    let (stack, focus) := k stack (left.apply e)
    ⟨done, stack, focus⟩)
  | none, .symbol s => match left.operator? s with
    | some k => some (v.map fun e => ⟨done, stack, .operand (k e)⟩)
    | none => closeShift g done stack (v.map left.complete) t
  | none, _ => none

/-- Take one token, if it can follow those before it. The grammar leaves open whether that or a
fault of what was just read is found first; here it is the token. -/
def shift {α : Type} (g : Goal α) (st : State) (t : Token) : Option (Except Fault State) :=
  let next : List Frame × Focus → Except Fault State := fun r => .ok ⟨st.done, r.1, r.2⟩
  match st.focus, t with
  | .expr, t => (exprStart t).map fun k => next (k st.stack)
  | .elem left done, .symbol .rbracket =>
    some (next (st.stack, .operator left (.ok (bracketed done))))
  | .elem left done, t => (exprStart t).map fun k => next (k (.elem left done :: st.stack))
  | .operand left, t => (operandStart t).map fun k => next (k st.stack left)
  | .operator left v, t => operatorShift g st.done st.stack left v t
  | .lambda params, .ident name => some (next (st.stack, .lambda (params ++ [name])))
  | .lambda (p :: ps), .symbol .arrow => some (next (.lambda (p :: ps) :: st.stack, .expr))
  | .afterLet, .symbol .kwRec => some (next (st.stack, .clauseName true []))
  | .afterLet, .ident name => some (next (st.stack, .pattern (.param false [] name []) [] []))
  | .clauseName recursive done, .ident name =>
    some (next (st.stack, .pattern (.param recursive done name []) [] []))
  | .firstArm left scrutinee, .symbol .bar =>
    some (next (st.stack, .pattern (.arm left scrutinee []) [] []))
  | .firstArm left scrutinee, t =>
    (patternStart t).map fun k => next (st.stack, k (.arm left scrutinee []) [] [])
  | .pattern (.param recursive done name params) [] [], t =>
    (paramShift recursive done name t).map fun k => next (k params st.stack)
  | .pattern site within heads, t =>
    (patternStart t).map fun k => next (st.stack, k site within heads)
  | .patternElem site within heads done, .symbol .rbracket =>
    some (next (st.stack, .patternEnd site within heads (.ok (.ofList done))))
  | .patternElem site within heads done, t =>
    (patternStart t).map fun k => next (st.stack, k site (.elem heads done :: within) [])
  | .patternEnd site within heads v, t =>
    (patternEndShift site within heads t).map fun k => v.bind fun p => next (k p st.stack)
  | _, _ => none

def finish {α : Type} : Goal α → State → Option (Except Fault α)
  | .expr, ⟨_, stack, .operator left v⟩ => match settle stack (v.map left.complete) with
    | ([], v) => some v
    | _ => none
  | .statement, ⟨_, stack, .operator left v⟩ =>
    let (stack, v) := settle stack (v.map left.complete)
    decl? stack v
  | .statement, ⟨_, _, .ended d⟩ => some (.ok d)
  | .program, ⟨done, [], .expr⟩ => some (.ok done)
  | _, _ => none

end LetML

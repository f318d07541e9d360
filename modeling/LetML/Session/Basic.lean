import LetML.Eval.Basic
import LetML.Infer.Basic
import LetML.Session.Event
import LetML.Session.Prelude

namespace LetML

/-- How a session treats its statements: whether it starts with the prelude, refuses statements
without a type, keeps derivations, and passes over failing statements of a program. -/
structure Config where
  prelude : Bool
  strict : Bool
  trace : Bool
  keepGoing : Bool
  deriving DecidableEq

def Config.standard : Config := ⟨true, true, false, false⟩

/-- The outcome of a statement. It has no scheme if the statement has no type and was run all the
same. -/
structure Report where
  name : Option String
  scheme : Option Scheme
  value : Value
  derivation : Option Derivation

def Report.text (r : Report) : String :=
  (match r.name with
    | some x => "val " ++ x
    | none => "-")
  ++ (match r.scheme with
    | some σ => " : " ++ σ.text
    | none => "")
  ++ " = " ++ r.value.text

structure Session where
  config : Config
  types : TypeEnv
  values : Env
  store : Store

structure Reply (α : Type) where
  result : Except SessionError α
  session : Session
  log : List Event

def Reply.after {α : Type} (log : List Event) (r : Reply α) : Reply α := { r with log := log ++ r.log }

namespace Session

def infer (s : Session) (e : Expr) : Except TypeError (Scheme × Derivation) × List Event :=
  let (r, supply) := (inferScheme s.types e).run s.types.unused
  let tried := supply.tried.reverse.map fun p => Event.solving p.1 p.2
  match r with
  | .ok (σ, d) => (.ok (σ.normalize, d), tried ++ [.inferred e σ])
  | .error e => (.error e, tried)

/-- Give a name a value. If it has no type, an earlier type of the name no longer holds. -/
def define (s : Session) (x : String) (σ : Option Scheme) (v : Value) (store : Store) : Session :=
  { s with
    types := match σ with
      | some σ => s.types.insert x σ
      | none => s.types.erase x
    values := .bind x v s.values
    store := store }

/-- Evaluate a statement whose type is known or given up. The session changes only if the statement
succeeds and is a definition. -/
def evaluate (fuel : Nat) (s : Session) (d : Decl) (σ : Option Scheme)
    (derivation : Option Derivation) : Option (Reply Report) := do
  let (r, store) ← LetML.eval fuel s.values d.toExpr s.store
  match r with
  | .error e => return ⟨.error (.runtime e), s, []⟩
  | .ok v =>
    let s' := match d.name? with
      | some x => s.define x σ v store
      | none => s
    return ⟨.ok ⟨d.name?, σ, v, derivation⟩, s', [.evaluated d.toExpr v]⟩

def run (fuel : Nat) (s : Session) (d : Decl) : Option (Reply Report) :=
  let (r, tried) := s.infer d.toExpr
  let log := .running d.toExpr :: tried
  match r with
  | .ok (σ, derivation) =>
    (s.evaluate fuel d (some σ) (if s.config.trace then some derivation else none)).map
      (Reply.after log)
  | .error e =>
    if s.config.strict then some ⟨.error (.type e), s, log⟩
    else (s.evaluate fuel d none none).map (Reply.after (log ++ [.ignored e]))

def runLine (fuel : Nat) (s : Session) (source : String) : Option (Reply Report) :=
  match parse .statement source with
  | .error e => some ⟨.error (.parse e), s, []⟩
  | .ok d => s.run fuel d

/-- Run statements in order, up to the first that fails or, if the session keeps going, past those
that fail. -/
def runAll (fuel : Nat) (s : Session) : List Decl → Option (Reply (List Report))
  | [] => some ⟨.ok [], s, []⟩
  | d :: ds => do
    let r ← s.run fuel d
    match r.result with
    | .ok report =>
      let rest ← r.session.runAll fuel ds
      return ⟨rest.result.map (report :: ·), rest.session, r.log ++ rest.log⟩
    | .error e =>
      if s.config.keepGoing then
        (r.session.runAll fuel ds).map (Reply.after (r.log ++ [.skipped e]))
      else return ⟨.error e, r.session, r.log⟩

/-- Run a program. Nothing of it runs unless all of it can be read. -/
def load (fuel : Nat) (s : Session) (source : String) : Option (Reply (List Report)) :=
  match parse .program source with
  | .error e => some ⟨.error (.parse e), s, []⟩
  | .ok ds => s.runAll fuel ds

def loadFile (fuel : Nat) (files : Files) (s : Session) (path : String) :
    Option (Reply (List Report)) :=
  match files path with
  | .error e => some ⟨.error (.read path e), s, []⟩
  | .ok source => (s.load fuel source).map (Reply.after [.loading path])

def bare (config : Config) : Session := ⟨config, .empty, .empty, .empty⟩

def new (fuel : Nat) (config : Config) : Option (Reply Unit) :=
  if config.prelude then
    ((bare config).load fuel preludeSource).map fun r => match r.result with
      | .ok reports => ⟨.ok (), r.session, r.log ++ [.preludeLoaded reports.length]⟩
      | .error e => ⟨.error e, r.session, r.log⟩
  else some ⟨.ok (), bare config, []⟩

def bareSource (source : String) : String :=
  String.ofList ((trimBlanks source.toList).reverse.dropWhile (· = ';')).reverse

def typeOf (s : Session) (source : String) : Except SessionError (Scheme × Derivation) × List Event :=
  match parse .expr (bareSource source) with
  | .error e => (.error (.parse e), [])
  | .ok e =>
    let (r, log) := s.infer e
    (r.mapError .type, log)

def bindings (s : Session) : List (String × Option Scheme) :=
  (s.values.names.mergeSort).map fun x => (x, s.types.get? x)

end Session

end LetML

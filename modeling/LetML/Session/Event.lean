import LetML.Session.Error
import LetML.Unify.Trace

namespace LetML

/-- How much a record matters, the most severe first. -/
inductive Level where
  | error
  | warn
  | info
  | debug
  | trace
  deriving DecidableEq

namespace Level

def rank : Level → Nat
  | error => 0
  | warn => 1
  | info => 2
  | debug => 3
  | trace => 4

def text : Level → String
  | error => "ERROR"
  | warn => "WARN"
  | info => "INFO"
  | debug => "DEBUG"
  | trace => "TRACE"

end Level

structure Record where
  level : Level
  source : String
  message : String

inductive Event where
  | running (e : Expr)
  | solving (t₁ t₂ : Ty)
  | inferred (e : Expr) (σ : Scheme)
  | ignored (e : TypeError)
  | evaluated (e : Expr) (v : Value)
  | skipped (e : SessionError)
  | preludeLoaded (count : Nat)
  | loading (path : String)
  | input (line : String)

namespace Event

/-- An equation leaves a record for each equation that solving it leads to. -/
def records : Event → List Record
  | running e => [⟨.debug, "mini_ml::session", "running statement " ++ e.text⟩]
  | solving t₁ t₂ => (attempts t₁ t₂).map fun p =>
    ⟨.trace, "mini_ml::infer::unify", "unify " ++ equationText p.1 p.2⟩
  | inferred e σ => [⟨.debug, "mini_ml::infer", "inferred " ++ e.text ++ " : " ++ σ.text⟩]
  | ignored e => [⟨.warn, "mini_ml::session", "ignoring type error: " ++ e.message⟩]
  | evaluated e v => [⟨.debug, "mini_ml::eval", "evaluated " ++ e.text ++ " => " ++ v.text⟩]
  | skipped e => [⟨.error, "mini_ml::session", "skipping statement: " ++ e.message⟩]
  | preludeLoaded count =>
    [⟨.info, "mini_ml::session", "loaded prelude (" ++ count.repr ++ " definitions)"⟩]
  | loading path => [⟨.info, "mini_ml::session", "loading " ++ path⟩]
  | input line => [⟨.debug, "mini_ml::repl", "repl input: " ++ line⟩]

def recordsUpTo (level : Level) (log : List Event) : List Record :=
  (log.flatMap records).filter (fun r => r.level.rank ≤ level.rank)

end Event

end LetML

namespace LetML

structure Options where
  files : List String
  expression : Option String
  interactive : Bool
  noPrelude : Bool
  unchecked : Bool
  trace : Bool
  keepGoing : Bool
  verbosity : Nat
  stackSize : Option Nat
  deriving DecidableEq

inductive Refusal where
  | usage
  | version
  | help
  deriving DecidableEq

inductive Flag where
  | interactive
  | noPrelude
  | unchecked
  | trace
  | keepGoing
  | verbose
  | version
  | help

inductive Setting where
  | expression
  | stackSize

namespace Options

def initial : Options := ⟨[], none, false, false, false, false, false, 0, none⟩

def once (given : Bool) (o : Options) : Except Refusal Options :=
  if given then .error .usage else .ok o

def addFlag (o : Options) : Flag → Except Refusal Options
  | .interactive => once o.interactive { o with interactive := true }
  | .noPrelude => once o.noPrelude { o with noPrelude := true }
  | .unchecked => once o.unchecked { o with unchecked := true }
  | .trace => once o.trace { o with trace := true }
  | .keepGoing => once o.keepGoing { o with keepGoing := true }
  | .verbose => .ok { o with verbosity := o.verbosity + 1 }
  | .version => .error .version
  | .help => .error .help

/-- A number that fits into 64 bits, with or without a plus sign. -/
def readSize (s : String) : Option Nat :=
  let digits := match s.toList with
    | '+' :: cs => cs
    | cs => cs
  let n := Nat.ofDigitChars 10 digits 0
  if digits.isEmpty || !digits.all Char.isDigit || UInt64.size ≤ n then none else some n

def addSetting (o : Options) (value : String) : Setting → Except Refusal Options
  | .expression => once o.expression.isSome { o with expression := some value }
  | .stackSize => match readSize value with
    | none => .error .usage
    | some n => once o.stackSize.isSome { o with stackSize := some n }

def addFile (o : Options) (path : String) : Except Refusal Options :=
  if path.isEmpty then .error .usage else .ok { o with files := o.files ++ [path] }

def longFlag? (name : String) : Option Flag :=
  [("interactive", .interactive), ("no-prelude", .noPrelude), ("unchecked", .unchecked),
   ("trace", .trace), ("keep-going", .keepGoing), ("verbose", .verbose), ("version", .version),
   ("help", .help)].lookup name

def longSetting? (name : String) : Option Setting :=
  [("expression", .expression), ("stack-size", .stackSize)].lookup name

def shortFlag? (c : Char) : Option Flag :=
  [('i', .interactive), ('v', .verbose), ('V', .version), ('h', .help)].lookup c

def addLong (o : Options) (name : String) (value : Option String) :
    Except Refusal (Options × Option Setting) :=
  match longSetting? name, longFlag? name, value with
  | some s, _, some v => (o.addSetting v s).map (·, none)
  | some s, _, none => .ok (o, some s)
  | none, some f, none => (o.addFlag f).map (·, none)
  | _, _, _ => .error .usage

/-- Read a group of short options. The one that takes a value takes the rest of the group, without
a leading equals sign, or waits for a value if there is no rest. -/
def addShort (o : Options) : List Char → Except Refusal (Options × Option Setting)
  | [] => .ok (o, none)
  | ['e'] => .ok (o, some .expression)
  | 'e' :: '=' :: rest => (o.addSetting (String.ofList rest) .expression).map (·, none)
  | 'e' :: rest => (o.addSetting (String.ofList rest) .expression).map (·, none)
  | c :: rest => match shortFlag? c with
    | none => .error .usage
    | some f => do (← o.addFlag f).addShort rest

/-- Read arguments from left to right, where an option may wait for its value. An argument that
looks like an option is no value. -/
def addAll (o : Options) (waiting : Option Setting) : List String → Except Refusal Options
  | [] => if waiting.isSome then .error .usage else .ok o
  | arg :: rest => match arg.toList, waiting with
    | ['-', '-'], none => rest.foldlM addFile o
    | '-' :: '-' :: long, none =>
      let name := long.takeWhile (· ≠ '=')
      let value := match long.drop name.length with
        | _ :: v => some (String.ofList v)
        | [] => none
      do
        let (o, waiting) ← o.addLong (String.ofList name) value
        o.addAll waiting rest
    | '-' :: c :: short, none => do
      let (o, waiting) ← o.addShort (c :: short)
      o.addAll waiting rest
    | '-' :: _ :: _, some _ => .error .usage
    | _, some s => do (← o.addSetting arg s).addAll none rest
    | _, none => do (← o.addFile arg).addAll none rest

def parse (args : List String) : Except Refusal Options := initial.addAll none args

end Options

end LetML

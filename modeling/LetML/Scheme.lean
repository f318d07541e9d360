import LetML.Ty

namespace LetML

/-- A type under quantifiers. The quantifier list is kept as given: it may repeat a variable or
name one that the type lacks. -/
structure Scheme where
  vars : List Nat
  ty : Ty
  deriving DecidableEq

namespace Scheme

def mono (t : Ty) : Scheme := ⟨[], t⟩

def bound (σ : Scheme) : List Nat := σ.ty.vars.filter (· ∈ σ.vars)

def unbound (σ : Scheme) : List Nat := σ.ty.vars.filter (· ∉ σ.vars)

def freeVars (σ : Scheme) : List Nat := ascending σ.unbound

def Closed (σ : Scheme) : Prop := σ.unbound = []

instance (σ : Scheme) : Decidable σ.Closed := inferInstanceAs (Decidable (_ = _))

/-- The `count` least numbers outside `avoid`: that many are found among the first
`count + avoid.length`. -/
def leastOutside (avoid : List Nat) (count : Nat) : List Nat :=
  ((List.range (count + avoid.length)).filter (· ∉ avoid)).take count

/-- The scheme with its bound variables numbered in order of appearance by the least numbers that
are not free in it, and no other quantifiers. -/
def normalize (σ : Scheme) : Scheme :=
  let fresh := leastOutside σ.unbound σ.bound.length
  { vars := fresh
    ty := σ.ty.rename (fun v => ((σ.bound.zip fresh).lookup v).getD v) }

/-- The names `a`, …, `z`, `a1`, …, `z1`, `a2`, … -/
def letterName (i : Nat) : String :=
  let letter := (Char.ofNat ('a'.toNat + i % 26)).toString
  if i < 26 then letter else letter ++ (i / 26).repr

/-- Bound variables are shown by letters in order of appearance, free ones by their numbers. -/
def nameAmong (bound : List Nat) (v : Nat) : String :=
  match bound.idxOf? v with
  | some i => letterName i
  | none => Ty.rawName v

def text (σ : Scheme) : String :=
  let bound := σ.bound
  let body := σ.ty.render (nameAmong bound)
  if bound.isEmpty then body
  else "forall " ++ " ".intercalate (bound.map (nameAmong bound)) ++ ". " ++ body

end Scheme

end LetML

import LetML.Text.Quoted
import LetML.Value.RuntimeError

namespace LetML

structure Store where
  slots : Array (Option Value)

namespace Store

def empty : Store := ⟨#[]⟩

def next (σ : Store) : Nat := σ.slots.size

def alloc (σ : Store) : Store := ⟨σ.slots.push none⟩

def get? (σ : Store) (address : Nat) : Option Value := σ.slots[address]?.join

/-- Fill an empty slot. A slot that holds a value keeps it. -/
def fill (σ : Store) (address : Nat) (v : Value) : Store :=
  ⟨σ.slots.modify address (fun old => old.or (some v))⟩

end Store

namespace Env

/-- Bind names from left to right, so that the last is the innermost. -/
def bindAll (ρ : Env) (bindings : List (String × Value)) : Env :=
  bindings.foldl (fun ρ b => .bind b.1 b.2 ρ) ρ

def bindSlot (ρ : Env) (x : String) (σ : Store) : Env × Store := (.slot x σ.next ρ, σ.alloc)

def lookup (σ : Store) (x : String) : Env → Except RuntimeError Value
  | empty => .error (.unbound x)
  | bind y v outer => if y = x then .ok v else lookup σ x outer
  | slot y a outer =>
    if y = x then
      match σ.get? a with
      | some v => .ok v
      | none => .error (.notReady x)
    else lookup σ x outer

def bound : Env → List String
  | empty => []
  | bind x _ outer => x :: outer.bound
  | slot x _ outer => x :: outer.bound

def names (ρ : Env) : List String := ρ.bound.eraseDups

def text (ρ : Env) : String := "[" ++ ", ".intercalate (ρ.names.map quote) ++ "]"

def contains (ρ : Env) (x : String) : Bool := ρ.names.contains x

def fillHead (v : Value) (σ : Store) : Env → Store
  | slot _ a _ => σ.fill a v
  | _ => σ

end Env

end LetML

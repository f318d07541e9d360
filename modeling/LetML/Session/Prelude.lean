namespace LetML

def preludeSource : String :=
"-- Loaded into every session unless --no-prelude is given.

let id x = x;
let const x _ = x;
let flip f x y = f y x;
let compose f g x = f (g x);

let not true = false
  | not false = true;

let rec map f [] = []
      | map f (h :: t) = f h :: map f t;

let rec filter p [] = []
         | filter p (h :: t) = if p h then h :: filter p t else filter p t;

let rec foldl f acc [] = acc
        | foldl f acc (h :: t) = foldl f (f acc h) t;

let rec foldr f z [] = z
        | foldr f z (h :: t) = f h (foldr f z t);

let rec length [] = 0
         | length (_ :: t) = 1 + length t;

let rec append [] ys = ys
         | append (h :: t) ys = h :: append t ys;

let reverse xs = foldl (\\acc x -> x :: acc) [] xs;
let sum xs = foldl (\\a b -> a + b) 0 xs;
let product xs = foldl (\\a b -> a * b) 1 xs;

let rec range lo hi = if lo > hi then [] else lo :: range (lo + 1) hi;

let null xs = case xs of [] -> true | _ -> false end;

-- Partial: both fail on the empty list
let head (h :: _) = h;
let tail (_ :: t) = t;
"

end LetML

import LetML.Proofs.Lexing
import LetML.Pattern

namespace LetML

open Shape

variable {s t w x : String} {ts us : List Token} {cs rest : List Char} {sh : Shape} {y : Symbol}

/-- A text that starts with a separator, if with anything. -/
def Parted (rest : List Char) : Prop := ∀ d ∈ rest.head?, Separates d

/-- A text is read as the tokens wherever it ends before a separator. -/
def Spells (s : String) (ts : List Token) : Prop :=
  ∀ rest, Parted rest → lex? (s.toList ++ rest) = (lex? rest).map (ts ++ ·)

/-- A text is read as the tokens whatever comes after it. -/
def Cuts (s : String) (ts : List Token) : Prop :=
  ∀ rest, lex? (s.toList ++ rest) = (lex? rest).map (ts ++ ·)

theorem parted_cons {d : Char} (hd : Separates d) : Parted (d :: rest) := by
  intro c hc
  obtain rfl := Option.some.inj hc
  exact hd

theorem parted_blank : Parted (' ' :: rest) := parted_cons (.blank (by decide))

theorem lex?_blank (cs : List Char) : lex? (' ' :: cs) = lex? cs := by
  rw [← lex?_dropWhile_blank, List.dropWhile_cons_of_pos (by decide), lex?_dropWhile_blank]

theorem Spells.lex?_eq (h : Spells s ts) : lex? s.toList = some ts := by
  have hnil := h [] (fun _ hd => nomatch hd)
  rw [List.append_nil, lex?_nil] at hnil
  rw [hnil, Option.map_some, List.append_nil]

theorem spells_empty : Spells "" [] := fun rest _ => by simp

namespace Cuts

theorem spells_append (hs : Cuts s ts) (ht : Spells t us) : Spells (s ++ t) (ts ++ us) := by
  intro rest hrest
  rw [String.toList_append, List.append_assoc, hs, ht rest hrest, Option.map_map]
  simp only [Function.comp_def, List.append_assoc]

theorem spells (hs : Cuts s ts) : Spells s ts := fun rest _ => hs rest

theorem mark (hy : y ∈ Symbol.marks) : Cuts y.spelling [.symbol y] := by
  intro rest
  rw [Symbol.spelling, String.toList_ofList, lex?_of_longest (longest_mark hy rest), List.drop_left]
  rfl

end Cuts

namespace Spells

theorem append_cuts (hs : Spells s ts) (ht : Cuts t us) (hsep : ∀ rest, Parted (t.toList ++ rest)) :
    Cuts (s ++ t) (ts ++ us) := by
  intro rest
  rw [String.toList_append, List.append_assoc, hs _ (hsep rest), ht, Option.map_map]
  simp only [Function.comp_def, List.append_assoc]

theorem append_blank (hs : Spells s ts) : Cuts (s ++ " ") ts := by
  intro rest
  rw [String.toList_append, List.append_assoc]
  exact (hs _ parted_blank).trans (congrArg _ (lex?_blank rest))

theorem blank (hs : Spells s ts) (ht : Spells t us) : Spells (s ++ " " ++ t) (ts ++ us) :=
  hs.append_blank.spells_append ht

end Spells

theorem spells_of_longest (hlong : longest s.toList all = some (sh, s.toList.length))
    (hgraphic : ∀ c ∈ s.toList.head?, Graphic c) (hstart : ∀ r, s.toList ≠ '-' :: '-' :: r) :
    Spells s (sh.token? s.toList).toList := by
  intro rest hrest
  have hlong' : longest (s.toList ++ rest) all = some (sh, s.toList.length) := by
    cases rest with
    | nil => rwa [List.append_nil]
    | cons d ds =>
      obtain ⟨c, cs, hs⟩ := List.exists_cons_of_ne_nil (ne_nil_of_longest hlong)
      rw [hs] at hlong hgraphic hstart ⊢
      have hblank : ¬isBlank c = true := fun hc => not_graphic_of_isBlank hc (hgraphic c rfl)
      rw [longest_append_token (hrest d rfl) hblank hstart, hlong]
  rw [lex?_of_longest hlong', List.take_left, List.drop_left]

theorem longest_chars (y : Symbol) : longest y.chars all = some (.symbol y, y.chars.length) := by
  cases y <;> rfl

theorem spells_symbol (y : Symbol) : Spells y.spelling [.symbol y] := by
  have hlong := longest_chars y
  have hstart : ∀ r, y.chars ≠ '-' :: '-' :: r := by
    intro r hr
    cases y <;> cases hr
  have hchars : y.spelling.toList = y.chars := String.toList_ofList
  rw [← hchars] at hlong hstart
  have hgraphic : ∀ c ∈ y.spelling.toList.head?, Graphic c := by
    rw [hchars]
    exact fun c hc => y.graphic c (List.mem_of_mem_head? hc)
  exact spells_of_longest hlong hgraphic hstart

def keywords : List Symbol :=
  [.kwCase, .kwElse, .kwEnd, .kwFalse, .kwIf, .kwIn, .kwLet, .kwOf, .kwRec, .kwThen, .kwTrue]

/-- A small letter, with letters, digits, underscores and apostrophes after it, that is no keyword. -/
structure IsName (x : String) : Prop where
  start : ∃ c cs, x.toList = c :: cs ∧ isIdentStart c = true ∧ ∀ d ∈ cs, isIdentRest d = true
  notKeyword : ∀ y ∈ keywords, x ≠ y.spelling

instance : DecidablePred IsName := fun x =>
  decidable_of_iff (x.toList.head?.any isIdentStart = true ∧ x.toList.tail.all isIdentRest = true ∧
    ∀ y ∈ keywords, x ≠ y.spelling) <| by
    cases hx : x.toList with
    | nil => exact ⟨nofun, fun ⟨⟨_, _, h, _⟩, _⟩ => nomatch hx.symm.trans h⟩
    | cons c cs =>
      refine ⟨fun ⟨hc, hcs, hk⟩ => ⟨⟨c, cs, hx, hc, List.all_eq_true.mp hcs⟩, hk⟩, ?_⟩
      rintro ⟨⟨_, _, h, hc, hcs⟩, hk⟩
      cases hx.symm.trans h
      exact ⟨hc, List.all_eq_true.mpr hcs, hk⟩

theorem isIdentRest_of_start {c : Char} (h : isIdentStart c = true) : isIdentRest c = true := by
  simp [isIdentRest, h]

theorem isDecimal_of_start {c : Char} (h : isIdentStart c = true) : isDecimal c = false := by
  simp only [isIdentStart, isDecimal, Bool.and_eq_true, decide_eq_true_eq, Char.le_def] at h ⊢
  simp only [Bool.and_eq_false_iff, decide_eq_false_iff_not]
  right
  intro h'
  exact absurd (Nat.le_trans h.1 h') (by decide)

namespace IsName

theorem isIdentRest (hx : IsName x) : ∀ c ∈ x.toList, isIdentRest c = true := by
  obtain ⟨c, cs, htext, hc, hcs⟩ := hx.start
  rw [htext]
  exact List.forall_mem_cons.mpr ⟨isIdentRest_of_start hc, hcs⟩

theorem ne_chars (hx : IsName x) (y : Symbol) : x.toList ≠ y.chars := by
  intro heq
  have hspelling : x = y.spelling := by rw [Symbol.spelling, ← heq, String.ofList_toList]
  obtain ⟨c, cs, htext, hc, -⟩ := hx.start
  have hhead : y.chars.head?.any isIdentStart = true := by simp [← heq, htext, hc]
  refine hx.notKeyword y ?_ hspelling
  revert hhead
  cases y <;> decide

theorem longest (hx : IsName x) : longest x.toList all = some (.ident, x.toList.length) := by
  obtain ⟨c, cs, htext, hc, hcs⟩ := hx.start
  have hreach : ident.reach (c :: cs) = (c :: cs).length := by
    rw [reach, if_pos hc, List.takeWhile_eq_self_iff.mpr hcs, List.length_cons]
  have hne := hx.ne_chars
  have hgraphic : Graphic c := graphic_of_isIdentRest (isIdentRest_of_start hc)
  rw [htext] at hne ⊢
  rw [← hreach]
  refine longest_eq (by rw [hreach]; exact Nat.succ_pos _) (fun sh hsh => ?_)
  rw [hreach]
  cases sh with
  | symbol y =>
    refine Nat.lt_of_le_of_ne (reach_le _ _) (fun hlen => ?_)
    simp only [reach] at hlen
    split at hlen
    · rename_i hprefix
      exact hne y (List.IsPrefix.eq_of_length (List.isPrefixOf_iff_prefix.mp hprefix) hlen).symm
    · cases hlen
  | number => simp [reach, isDecimal_of_start hc]
  | blank =>
    have hblank : isBlank c = false := Bool.eq_false_iff.mpr fun h => not_graphic_of_isBlank h hgraphic
    simp [reach, hblank]
  | comment =>
    rw [reach_comment_eq_zero]
    · exact Nat.succ_pos _
    · intro r hr
      obtain ⟨rfl, -⟩ := List.cons.inj hr
      cases hc
  | ident => exact (hsh rfl).elim

theorem spells (hx : IsName x) : Spells x [.ident x] := by
  have hall := hx.isIdentRest
  obtain ⟨c, cs, htext, hc, hcs⟩ := hx.start
  have h := spells_of_longest hx.longest
    (fun d hd => graphic_of_isIdentRest (hall d (List.mem_of_mem_head? hd)))
    (fun r hr => by
      obtain ⟨rfl, -⟩ := List.cons.inj (htext.symm.trans hr)
      cases hc)
  rwa [token?, String.ofList_toList] at h

end IsName

section Numbers

variable {n : Int64}

theorem isDecimal_of_isDigit {c : Char} (h : c.isDigit = true) : isDecimal c = true := by
  simpa [isDecimal, Char.isDigit, Char.le_def] using h

theorem repr_toInt (hn : 0 ≤ n.toInt) : n.toInt.repr = n.toInt.toNat.repr := by
  conv => lhs; rw [← Int.toNat_of_nonneg hn]
  rfl

theorem readInt_repr (hn : 0 ≤ n.toInt) : readInt n.toInt.repr = .ok n := by
  have hdigits : Nat.ofDigitChars 10 n.toInt.repr.toList 0 = n.toInt.toNat := by
    rw [repr_toInt hn, Nat.toList_repr, Nat.ofDigitChars_ten_toDigits]
  have hofNat : Int64.ofNat n.toInt.toNat = n := by
    rw [← Int64.ofInt_eq_ofNat, Int.toNat_of_nonneg hn, Int64.ofInt_toInt]
  simp only [readInt, hdigits, Int.toNat_of_nonneg hn, if_pos n.toInt_le, hofNat]

theorem longest_digits (hcs : cs ≠ []) (hall : ∀ c ∈ cs, isDecimal c = true) :
    longest cs all = some (.number, cs.length) := by
  have hreach : number.reach cs = cs.length := by
    rw [reach, List.takeWhile_eq_self_iff.mpr hall]
  obtain ⟨c, cs, rfl⟩ := List.exists_cons_of_ne_nil hcs
  have hc := hall c List.mem_cons_self
  rw [← hreach]
  refine longest_eq (by rw [hreach]; exact Nat.succ_pos _) (fun sh hsh => ?_)
  suffices h : sh.reach (c :: cs) = 0 by
    rw [h, hreach]
    exact Nat.succ_pos _
  cases sh with
  | symbol y =>
    have hhead : y.chars.head?.any isDecimal = false := by cases y <;> rfl
    cases hy : y.chars with
    | nil => cases y <;> cases hy
    | cons x xs =>
      have hne : x ≠ c := by
        rintro rfl
        simp [hy, hc] at hhead
      simp [reach, hy, List.isPrefixOf, hne]
  | ident =>
    have hstart : ¬isIdentStart c = true := fun h => by simp [isDecimal_of_start h] at hc
    rw [reach, if_neg hstart]
  | blank =>
    have hblank : ¬isBlank c = true := fun h => not_graphic_of_isBlank h (graphic_of_isDecimal hc)
    simp [reach, hblank]
  | comment =>
    refine reach_comment_eq_zero (fun r hr => ?_)
    obtain ⟨rfl, -⟩ := List.cons.inj hr
    cases hc
  | number => exact (hsh rfl).elim

theorem isDecimal_of_mem_repr (hn : 0 ≤ n.toInt) {c : Char} (hc : c ∈ n.toInt.repr.toList) :
    isDecimal c = true := by
  rw [repr_toInt hn, Nat.toList_repr] at hc
  exact isDecimal_of_isDigit (Nat.isDigit_of_mem_toDigits (by decide) (by decide) hc)

theorem spells_number (hn : 0 ≤ n.toInt) : Spells n.toInt.repr [.number n.toInt.repr] := by
  have hall : ∀ c ∈ n.toInt.repr.toList, isDecimal c = true := fun c => isDecimal_of_mem_repr hn
  have hne : n.toInt.repr.toList ≠ [] := by
    rw [repr_toInt hn, Nat.toList_repr]
    exact Nat.toDigits_ne_nil
  have h := spells_of_longest (longest_digits hne hall)
    (fun c hc => graphic_of_isDecimal (hall c (List.mem_of_mem_head? hc)))
    (fun r hr => by cases hall '-' (hr ▸ List.mem_cons_self))
  rwa [token?, String.ofList_toList] at h

end Numbers

section Phrases

theorem Spells.lead (hw : w = y.spelling ++ " ") (ht : Spells t us) :
    Spells (w ++ t) (.symbol y :: us) :=
  hw ▸ (spells_symbol y).blank ht

theorem Spells.trail (hs : Spells s ts) (hw : w = " " ++ y.spelling) :
    Spells (s ++ w) (ts ++ [.symbol y]) := by
  rw [hw, ← String.append_assoc]
  exact hs.blank (spells_symbol y)

theorem Spells.join (hs : Spells s ts) (hw : w = " " ++ y.spelling ++ " ") (ht : Spells t us) :
    Spells (s ++ w ++ t) (ts ++ .symbol y :: us) := by
  have h := (hs.trail (y := y) rfl).blank ht
  have hassoc : s ++ (" " ++ y.spelling) ++ " " = s ++ w := by rw [hw, String.append_assoc]
  rwa [hassoc, List.append_assoc] at h

theorem Spells.comma (hs : Spells s ts) (ht : Spells t us) :
    Spells (s ++ ", " ++ t) (ts ++ .symbol .comma :: us) := by
  have hcomma : Cuts (Symbol.comma.spelling ++ " ") [.symbol .comma] := (spells_symbol .comma).append_blank
  have h := (hs.append_cuts hcomma (fun _ => parted_cons Separates.comma)).spells_append ht
  rwa [List.append_assoc] at h

theorem Spells.enclose {l r : String} {y z : Symbol} (hl : l = y.spelling) (hr : r = z.spelling)
    (hy : y ∈ Symbol.marks) (hz : z ∈ [.rparen, .rbracket]) (hs : Spells s ts) :
    Spells (l ++ s ++ r) (.symbol y :: ts ++ [.symbol z]) := by
  have hclose : z ∈ Symbol.marks ∧ ∃ d, z.chars = [d] ∧ Separates d := by
    simp only [List.mem_cons, List.not_mem_nil, or_false] at hz
    rcases hz with rfl | rfl
    · exact ⟨by decide, _, rfl, .rparen⟩
    · exact ⟨by decide, _, rfl, .rbracket⟩
  obtain ⟨hz, d, hchars, hd⟩ := hclose
  have hsep : ∀ rest, Parted (z.spelling.toList ++ rest) := by
    intro rest
    rw [Symbol.spelling, String.toList_ofList, hchars]
    exact parted_cons hd
  rw [hl, hr]
  exact (((Cuts.mark hy).spells_append hs).append_cuts (Cuts.mark hz) hsep).spells

theorem Spells.paren (hs : Spells s ts) :
    Spells ("(" ++ s ++ ")") (.symbol .lparen :: ts ++ [.symbol .rparen]) :=
  hs.enclose (by decide) (by decide) (by decide) (by decide)

theorem Spells.brackets (hs : Spells s ts) :
    Spells ("[" ++ s ++ "]") (.symbol .lbracket :: ts ++ [.symbol .rbracket]) :=
  hs.enclose (by decide) (by decide) (by decide) (by decide)

theorem Spells.backslash (hs : Spells s ts) : Spells ("\\" ++ s) (.symbol .backslash :: ts) := by
  have hslash : "\\" = Symbol.backslash.spelling := by decide
  exact hslash ▸ (Cuts.mark (by decide)).spells_append hs

end Phrases

end LetML

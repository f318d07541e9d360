import LetML.Proofs.LongestMatch
import LetML.Proofs.SyntaxErrors

namespace LetML

open Shape

abbrev Piece := Shape × List Char

def textOf (ps : List Piece) : List Char := ps.flatMap (·.2)

/-- A text is cut into pieces, the longest there is at each place, and a rest. -/
inductive Munches : List Char → List Piece → List Char → Prop
  | done {rest : List Char} : Munches rest [] rest
  | cut {sh : Shape} {w cs rest : List Char} {ps : List Piece} (h : Munch sh w cs)
    (hcs : Munches cs ps rest) : Munches (w ++ cs) ((sh, w) :: ps) rest

def lexemesFrom (i : Nat) : List Piece → List Lexeme
  | [] => []
  | (sh, w) :: ps =>
    let after := lexemesFrom (i + byteLength w) ps
    match sh.token? w with
    | none => after
    | some t => ⟨t, i, i + byteLength w⟩ :: after

variable {cs rest w gap : List Char} {sh : Shape} {i n : Nat} {l : Lexeme} {t : Token}
  {ps before after : List Piece}

theorem textOf_cons (p : Piece) (ps : List Piece) : textOf (p :: ps) = p.2 ++ textOf ps :=
  List.flatMap_cons

namespace Munches

theorem eq_append (h : Munches cs ps rest) : cs = textOf ps ++ rest := by
  induction h with
  | done => rfl
  | cut _ _ ih => rw [textOf_cons, List.append_assoc, ← ih]

theorem length_le (h : Munches cs ps rest) : ps.length ≤ cs.length := by
  induction h with
  | done => exact Nat.zero_le _
  | cut h _ ih =>
    have := List.length_pos_iff.mpr h.ne_nil
    rw [List.length_cons, List.length_append]
    omega

theorem exists_of_mem_append (h : Munches cs (before ++ (sh, w) :: after) rest) :
    cs = textOf before ++ (w ++ (textOf after ++ rest)) ∧ Munch sh w (textOf after ++ rest) := by
  induction before generalizing cs with
  | nil =>
    cases h with
    | cut hw hcs =>
      obtain rfl := hcs.eq_append
      exact ⟨rfl, hw⟩
  | cons p before ih =>
    cases h with
    | cut _ hcs =>
      obtain ⟨rfl, hw⟩ := ih hcs
      exact ⟨by rw [textOf_cons, List.append_assoc], hw⟩

theorem scanFrom_eq (h : Munches cs ps rest) (i : Nat) : scanFrom i cs =
    ⟨lexemesFrom i ps ++ (scanFrom (i + byteLength (textOf ps)) rest).lexemes,
      (scanFrom (i + byteLength (textOf ps)) rest).invalid⟩ := by
  induction h generalizing i with
  | done => rfl
  | @cut sh w cs rest ps h hcs ih =>
    rw [scanFrom_of_longest (munch_iff.mp h), List.take_left, List.drop_left, ih, textOf_cons,
      byteLength_append, ← Nat.add_assoc, lexemesFrom]
    cases sh.token? w <;> rfl

theorem scanFrom_of_nil (h : Munches cs ps []) (i : Nat) : scanFrom i cs = ⟨lexemesFrom i ps, none⟩ := by
  rw [h.scanFrom_eq, scanFrom_nil, List.append_nil]

theorem scanFrom_of_stuck (h : Munches cs ps rest) (hrest : Stuck rest) (i : Nat) :
    scanFrom i cs = ⟨lexemesFrom i ps, some (i + byteLength (textOf ps))⟩ := by
  obtain ⟨hne, hnone⟩ := stuck_iff.mp hrest
  rw [h.scanFrom_eq, scanFrom_of_none hnone hne, List.append_nil]

end Munches

theorem exists_munches (cs : List Char) :
    ∃ ps rest, Munches cs ps rest ∧ (rest = [] ∨ Stuck rest) := by
  induction cs using lex_induction with
  | nil => exact ⟨[], [], .done, Or.inl rfl⟩
  | stuck cs hcs hnone => exact ⟨[], cs, .done, Or.inr (stuck_iff.mpr ⟨hcs, hnone⟩)⟩
  | cut cs sh n hlong ih =>
    obtain ⟨w, cs, rfl, rfl⟩ : ∃ w cs', cs = w ++ cs' ∧ n = w.length :=
      ⟨_, _, (List.take_append_drop n cs).symm,
        (List.length_take_of_le (le_length_of_longest hlong)).symm⟩
    rw [List.drop_left] at ih
    obtain ⟨ps, rest, hps, hrest⟩ := ih
    exact ⟨(sh, w) :: ps, rest, .cut (munch_iff.mpr hlong) hps, hrest⟩

section Offsets

theorem exists_piece_of_mem (hl : l ∈ lexemesFrom i ps) : ∃ before sh w after,
    ps = before ++ (sh, w) :: after ∧ l.start = i + byteLength (textOf before) ∧
      l.stop = l.start + byteLength w ∧ sh.token? w = some l.token := by
  induction ps generalizing i with
  | nil => cases hl
  | cons p ps ih =>
    obtain ⟨sh, w⟩ := p
    have hlater : l ∈ lexemesFrom (i + byteLength w) ps → ∃ before sh' w' after,
        (sh, w) :: ps = before ++ (sh', w') :: after ∧ l.start = i + byteLength (textOf before) ∧
          l.stop = l.start + byteLength w' ∧ sh'.token? w' = some l.token := fun hl => by
      obtain ⟨before, sh', w', after, rfl, hstart, hstop, ht⟩ := ih hl
      refine ⟨(sh, w) :: before, sh', w', after, rfl, ?_, hstop, ht⟩
      rw [hstart, textOf_cons, byteLength_append, Nat.add_assoc]
    rw [lexemesFrom] at hl
    cases ht : sh.token? w with
    | none =>
      rw [ht] at hl
      exact hlater hl
    | some t =>
      rw [ht] at hl
      obtain rfl | hl := List.mem_cons.mp hl
      · exact ⟨[], sh, w, ps, rfl, rfl, rfl, ht⟩
      · exact hlater hl

theorem byteLength_pos (hw : w ≠ []) : 0 < byteLength w := by
  obtain ⟨c, w, rfl⟩ := List.exists_cons_of_ne_nil hw
  exact Nat.lt_of_lt_of_le c.utf8Size_pos (Nat.le_add_right _ _)

/-- A token stands between characters of a text, and it is the longest text there that has a
shape. -/
def Lexeme.MunchedFrom (l : Lexeme) (cs : List Char) : Prop :=
  ∃ front w rest sh, cs = front ++ (w ++ rest) ∧ l.start = byteLength front ∧
    l.stop = byteLength (front ++ w) ∧ Munch sh w rest ∧ sh.token? w = some l.token

theorem Lexeme.MunchedFrom.start_lt_stop (h : l.MunchedFrom cs) : l.start < l.stop := by
  obtain ⟨front, w, _, _, -, hstart, hstop, hw, -⟩ := h
  have := byteLength_pos hw.ne_nil
  rw [hstart, hstop, byteLength_append]
  omega

theorem Munches.munchedFrom (h : Munches cs ps rest) (hl : l ∈ lexemesFrom 0 ps) :
    l.MunchedFrom cs := by
  obtain ⟨before, sh, w, after, rfl, hstart, hstop, ht⟩ := exists_piece_of_mem hl
  obtain ⟨hcs, hw⟩ := h.exists_of_mem_append
  rw [Nat.zero_add] at hstart
  refine ⟨textOf before, w, _, sh, hcs, hstart, ?_, hw, ht⟩
  rw [hstop, hstart, byteLength_append]

theorem pairwise_lexemesFrom (i : Nat) (ps : List Piece) :
    (lexemesFrom i ps).Pairwise fun l l' => l.stop ≤ l'.start := by
  induction ps generalizing i with
  | nil => exact .nil
  | cons p ps ih =>
    rw [lexemesFrom]
    split
    · exact ih _
    · refine .cons (fun l hl => ?_) (ih _)
      obtain ⟨_, _, _, _, -, hstart, -⟩ := exists_piece_of_mem hl
      rw [hstart]
      exact Nat.le_add_right _ _

def Skipped (gap : List Char) : Prop :=
  ∃ parts : List (List Char), gap = parts.flatten ∧ ∀ w ∈ parts, blank.Matches w ∨ comment.Matches w

theorem skipped_nil : Skipped [] := ⟨[], rfl, nofun⟩

theorem Skipped.append (hgap : Skipped gap) (hw : sh.Matches w) (ht : sh.token? w = none) :
    Skipped (gap ++ w) := by
  obtain ⟨parts, rfl, hparts⟩ := hgap
  refine ⟨parts ++ [w], by simp, List.forall_mem_append.mpr ⟨hparts, ?_⟩⟩
  rw [List.forall_mem_singleton]
  cases sh with
  | blank => exact Or.inl hw
  | comment => exact Or.inr hw
  | symbol | number | ident => cases ht

def SkippedAt (cs : List Char) (p : Nat × Nat) : Prop :=
  ∃ front gap rest, cs = front ++ (gap ++ rest) ∧ p.1 = byteLength front ∧
    p.2 = byteLength (front ++ gap) ∧ Skipped gap

/-- The offsets from `i` to `stop` between which no token stands: before the first token, between
each and the next, and after the last. -/
def gaps (i stop : Nat) : List Lexeme → List (Nat × Nat)
  | [] => [(i, stop)]
  | l :: ls => (i, l.start) :: gaps l.stop stop ls

theorem skippedAt_of_mem_gaps (front : List Char) (h : Munches cs ps rest) (hgap : Skipped gap)
    (hi : i = byteLength (front ++ gap)) :
    ∀ p ∈ gaps (byteLength front) (i + byteLength (textOf ps)) (lexemesFrom i ps),
      SkippedAt (front ++ (gap ++ cs)) p := by
  induction h generalizing front gap i with
  | @done rest =>
    simp only [lexemesFrom, gaps, List.forall_mem_singleton]
    exact ⟨front, gap, rest, rfl, rfl, hi, hgap⟩
  | @cut sh w cs rest ps h hcs ih =>
    have hnext : i + byteLength w = byteLength (front ++ gap ++ w) := by rw [hi, byteLength_append _ w]
    rw [lexemesFrom, textOf_cons, byteLength_append, ← Nat.add_assoc]
    cases ht : sh.token? w with
    | none =>
      have hrest := ih front (hgap.append h.hasShape ht) (hnext.trans (by rw [List.append_assoc]))
      rwa [List.append_assoc] at hrest
    | some t =>
      refine List.forall_mem_cons.mpr ⟨⟨front, gap, w ++ cs, rfl, rfl, hi, hgap⟩, ?_⟩
      have hrest := ih (front ++ gap ++ w) skipped_nil
        (hnext.trans (by rw [List.append_nil]))
      rw [← hnext] at hrest
      simpa only [List.append_assoc, List.nil_append] using hrest

end Offsets

/-- What the tokens of a text are, and where they stand. -/
structure Tiling (cs : List Char) (s : Scan) : Prop where
  ordered : (∀ l ∈ s.lexemes, l.start < l.stop) ∧ s.lexemes.Pairwise fun l l' => l.stop ≤ l'.start
  longest : ∀ l ∈ s.lexemes, l.MunchedFrom cs
  skipped : ∀ p ∈ gaps 0 (s.invalid.getD (byteLength cs)) s.lexemes, SkippedAt cs p
  ends : ∃ ps rest, Munches cs ps rest ∧ (rest = [] ∨ Stuck rest) ∧ ps.length ≤ cs.length ∧
    s.lexemes = lexemesFrom 0 ps
  invalid_iff : ∀ n, s.invalid = some n ↔
    ∃ ps rest, Munches cs ps rest ∧ Stuck rest ∧ n = byteLength (textOf ps)

theorem scan_of_munches {source : String} (h : Munches source.toList ps rest)
    (hrest : rest = [] ∨ Stuck rest) : (scan source).lexemes = lexemesFrom 0 ps ∧
      (scan source).invalid.getD (byteLength source.toList) = 0 + byteLength (textOf ps) := by
  rw [scan]
  obtain rfl | hstuck := hrest
  · rw [h.scanFrom_of_nil, h.eq_append, List.append_nil, Nat.zero_add]
    exact ⟨rfl, rfl⟩
  · rw [h.scanFrom_of_stuck hstuck]
    exact ⟨rfl, rfl⟩

theorem invalid_eq_some_iff {source : String} : (scan source).invalid = some n ↔
    ∃ ps rest, Munches source.toList ps rest ∧ Stuck rest ∧ n = byteLength (textOf ps) := by
  constructor
  · intro hn
    obtain ⟨ps, rest, hps, rfl | hstuck⟩ := exists_munches source.toList
    · rw [scan, hps.scanFrom_of_nil] at hn
      cases hn
    · rw [scan, hps.scanFrom_of_stuck hstuck] at hn
      exact ⟨ps, rest, hps, hstuck, by simpa using hn.symm⟩
  · rintro ⟨ps, rest, hps, hstuck, rfl⟩
    rw [scan, hps.scanFrom_of_stuck hstuck, Nat.zero_add]

theorem tiling_scan (source : String) : Tiling source.toList (scan source) := by
  obtain ⟨ps, rest, hps, hrest⟩ := exists_munches source.toList
  obtain ⟨hlexemes, hstop⟩ := scan_of_munches hps hrest
  have hmunched : ∀ l ∈ (scan source).lexemes, l.MunchedFrom source.toList := fun l hl =>
    hps.munchedFrom (hlexemes ▸ hl)
  refine ⟨⟨fun l hl => (hmunched l hl).start_lt_stop, ?_⟩, hmunched, ?_,
    ⟨ps, rest, hps, hrest, hps.length_le, hlexemes⟩, fun n => invalid_eq_some_iff⟩
  · rw [hlexemes]
    exact pairwise_lexemesFrom 0 ps
  · rw [hlexemes, hstop]
    exact skippedAt_of_mem_gaps [] hps skipped_nil rfl

section Joined

/-- A text that is a single token from its first character to its last. -/
def IsToken (w : String) (t : Token) : Prop := scan w = ⟨[⟨t, 0, byteLength w.toList⟩], none⟩

theorem eq_nil_of_byteLength (h : byteLength w = 0) : w = [] :=
  Classical.byContradiction fun hne => Nat.ne_of_gt (byteLength_pos hne) h

theorem graphic_of_matches (hw : sh.Matches w) (ht : (sh.token? w).isSome = true) :
    ∀ c ∈ w, Graphic c := by
  cases sh with
  | symbol s =>
    obtain rfl := hw
    exact s.graphic
  | number => exact fun c hc => graphic_of_isDecimal (hw.2 c hc)
  | ident =>
    obtain ⟨c, cs, rfl, hc, hcs⟩ := hw
    exact List.forall_mem_cons.mpr ⟨graphic_of_isIdentRest (isIdentRest_of_start hc),
      fun d hd => graphic_of_isIdentRest (hcs d hd)⟩
  | blank | comment => cases ht

namespace IsToken

theorem munch {w : String} (h : IsToken w t) :
    ∃ sh, Munch sh w.toList [] ∧ sh.token? w.toList = some t := by
  have hmem : ⟨t, 0, byteLength w.toList⟩ ∈ (scan w).lexemes := h ▸ List.mem_cons_self
  obtain ⟨front, w', rest, sh, hw, hstart, hstop, hmunch, ht⟩ := (tiling_scan w).longest _ hmem
  obtain rfl := eq_nil_of_byteLength hstart.symm
  obtain rfl : rest = [] := by
    refine eq_nil_of_byteLength ?_
    rw [hw] at hstop
    simp only [List.nil_append, byteLength_append] at hstop
    omega
  rw [List.nil_append, List.append_nil] at hw
  exact ⟨sh, hw ▸ hmunch, hw ▸ ht⟩

theorem longest {w : String} (h : IsToken w t) : ∃ sh, sh.Matches w.toList ∧
    Shape.longest w.toList all = some (sh, w.toList.length) ∧ sh.token? w.toList = some t := by
  obtain ⟨sh, hmunch, ht⟩ := h.munch
  have hlong := munch_iff.mp hmunch
  rw [List.append_nil] at hlong
  exact ⟨sh, hmunch.hasShape, hlong, ht⟩

theorem text_eq {w : String} (h : IsToken w t) : t.text = w := by
  obtain ⟨sh, -, hlong, ht⟩ := h.longest
  have htext := toList_text_of_longest hlong (by rwa [List.take_length])
  rw [List.take_length] at htext
  exact String.toList_injective htext

theorem spells {w : String} (h : IsToken w t) : Spells w [t] := by
  obtain ⟨sh, hshape, hlong, ht⟩ := h.longest
  have hgraphic := graphic_of_matches hshape (by rw [ht]; rfl)
  have hspells := spells_of_longest hlong (fun c hc => hgraphic c (List.mem_of_mem_head? hc)) fun r hr => ?_
  · rwa [ht] at hspells
  · rw [hr, longest_comment] at hlong
    obtain ⟨rfl, -⟩ := Prod.mk.inj (Option.some.inj hlong)
    cases ht

end IsToken

theorem spells_intercalate {ws : List String} {ts : List Token} (h : List.Forall₂ IsToken ws ts) :
    Spells (" ".intercalate ws) ts := by
  induction h with
  | nil => exact spells_empty
  | @cons w t ws ts hw hws ih =>
    cases hws with
    | nil => exact hw.spells
    | cons hw' hws =>
      rw [String.intercalate_cons_cons]
      exact hw.spells.blank ih

end Joined

section Reports

variable {α : Type} {g : Goal α}

theorem parseFrom_eq_invalid {st : State} {offset : Nat} {invalid : Option Nat} {ls : List Lexeme} :
    parseFrom g st offset invalid ls = .error (.invalid n) ↔
      invalid = some n ∧ (run g st (tokensOf ls)).isSome = true := by
  induction ls generalizing st offset with
  | nil =>
    cases invalid with
    | some m => simp [parseFrom, run, tokensOf]
    | none =>
      simp only [parseFrom, reduceCtorEq, false_and, iff_false]
      split <;> simp
  | cons l ls ih =>
    have hcons : tokensOf (l :: ls) = l.token :: tokensOf ls := rfl
    rw [parseFrom, hcons, run]
    split <;> simp_all

/-- The tokens of a text are cut off its front in turn, each the longest there is, with blanks and
comments between them. -/
theorem scan_tiles :
    (∀ source : String, Tiling source.toList (scan source)) ∧
    (∀ ws ts, List.Forall₂ IsToken ws ts →
      (scan (" ".intercalate ws)).invalid = none ∧
      (scan (" ".intercalate ws)).lexemes.map (·.token) = ts ∧
      (scan (" ".intercalate ws)).lexemes.map (·.token.text) = ws) ∧
    ∀ {α : Type} (g : Goal α) (source : String) (n : Nat),
      (parse g source = .error (.invalid n) ↔ (scan source).invalid = some n ∧
        (run g .start ((scan source).lexemes.map (·.token))).isSome = true) ∧
      (ParseError.invalid n).message = "syntax error: Invalid token at " ++ n.repr := by
  refine ⟨tiling_scan, fun ws ts h => ?_, fun g source n =>
    ⟨parseFrom_eq_invalid, ParseError.message_invalid n⟩⟩
  have htexts : ts.map Token.text = ws := by
    induction h with
    | nil => rfl
    | cons hw _ ih => rw [List.map_cons, hw.text_eq, ih]
  have hlex := (spells_intercalate h).lex?_eq
  simp only [lex?, Scan.tokens?, Option.ite_none_right_eq_some, Option.isNone_iff_eq_none,
    Option.some.injEq] at hlex
  obtain ⟨hinvalid, htokens⟩ := hlex
  refine ⟨hinvalid, htokens, Eq.trans ?_ htexts⟩
  rw [← htokens, List.map_map]
  rfl

deriving instance DecidableEq for Lexeme, Scan

instance (w : String) (t : Token) : Decidable (IsToken w t) := inferInstanceAs (Decidable (_ = _))

/-- Signs that others begin with, a keyword that a name begins with, and a number as it is written. -/
theorem scan_tiles_beginnings :
    List.Forall₂ IsToken ["-", "->", "in", "inner", "<", "<=", "007"]
      [.symbol .minus, .symbol .arrow, .symbol .kwIn, .ident "inner", .symbol .lt, .symbol .le,
        .number "007"] ∧
    (scan "- -> in inner < <= 007").lexemes.map (·.token) =
      [.symbol .minus, .symbol .arrow, .symbol .kwIn, .ident "inner", .symbol .lt, .symbol .le,
        .number "007"] := by
  have htokens : List.Forall₂ IsToken ["-", "->", "in", "inner", "<", "<=", "007"]
      [.symbol .minus, .symbol .arrow, .symbol .kwIn, .ident "inner", .symbol .lt, .symbol .le,
        .number "007"] := by
    decide +kernel
  exact ⟨htokens, (scan_tiles.2.1 _ _ htokens).2.1⟩

end Reports

end LetML

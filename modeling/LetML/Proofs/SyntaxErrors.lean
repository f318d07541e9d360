import LetML.Proofs.Lexing
import LetML.Proofs.Viability
import Mathlib.Data.List.Basic

namespace LetML

open Shape

variable {α : Type} {g : Goal α} {st st' : State} {t : Token} {ts us : List Token} {l : Lexeme}
  {ls before after : List Lexeme} {f : Fault} {cs : List Char}

def tokensOf (ls : List Lexeme) : List Token := ls.map (·.token)

section Outcomes

/-- How the reading of a text ends: at a token that cannot come next or that brings out a fault, at
a character that starts no token, or at the end of the text. -/
inductive ParseOutcome (g : Goal α) (st : State) (offset : Nat) (invalid : Option Nat)
    (ls : List Lexeme) : Except ParseError α → Prop where
  | unexpected {before after : List Lexeme} {l : Lexeme} {st' : State} (hls : ls = before ++ l :: after)
    (hrun : run g st (tokensOf before) = some st') (h : shift g st' l.token = none) :
    ParseOutcome g st offset invalid ls (.error (.unexpected l (expected g st')))
  | fault {before after : List Lexeme} {l : Lexeme} {st' : State} {f : Fault}
    (hls : ls = before ++ l :: after) (hrun : run g st (tokensOf before) = some st')
    (h : shift g st' l.token = some (.error f)) : ParseOutcome g st offset invalid ls (.error (.fault f))
  | invalid {n : Nat} (h : invalid = some n) : ParseOutcome g st offset invalid ls (.error (.invalid n))
  | ended {st' : State} {r : Except Fault α} (hinvalid : invalid = none)
    (hrun : run g st (tokensOf ls) = some st') (h : finish g st' = some r) :
    ParseOutcome g st offset invalid ls (r.mapError .fault)
  | unfinished {st' : State} (hinvalid : invalid = none)
    (hrun : run g st (tokensOf ls) = some st') (h : finish g st' = none) :
    ParseOutcome g st offset invalid ls
      (.error (.unfinished (ls.getLast?.elim offset (·.stop)) (expected g st')))

theorem outcome_parseFrom (g : Goal α) (st : State) (offset : Nat) (invalid : Option Nat)
    (ls : List Lexeme) : ParseOutcome g st offset invalid ls (parseFrom g st offset invalid ls) := by
  induction ls generalizing st offset with
  | nil =>
    cases invalid with
    | some n => exact .invalid rfl
    | none =>
      rw [parseFrom]
      cases hfinish : finish g st with
      | none => exact .unfinished rfl rfl hfinish
      | some r => cases r <;> exact .ended rfl rfl hfinish
  | cons l ls ih =>
    rw [parseFrom]
    cases hshift : shift g st l.token with
    | none => exact .unexpected (List.nil_append _).symm rfl hshift
    | some r =>
      cases r with
      | error f => exact .fault (List.nil_append _).symm rfl hshift
      | ok st₁ =>
        have hcons : ∀ {ms st'}, run g st₁ (tokensOf ms) = some st' →
            run g st (tokensOf (l :: ms)) = some st' := (run_cons hshift).trans
        have hrest := ih st₁ l.stop
        dsimp only
        generalize parseFrom g st₁ l.stop invalid ls = r at hrest ⊢
        cases hrest with
        | unexpected hls hrun h => exact .unexpected (by rw [hls]; rfl) (hcons hrun) h
        | fault hls hrun h => exact .fault (by rw [hls]; rfl) (hcons hrun) h
        | invalid h => exact .invalid h
        | ended hinvalid hrun h => exact .ended hinvalid (hcons hrun) h
        | unfinished hinvalid hrun h =>
          have hlast : ls.getLast?.elim l.stop (·.stop) = (l :: ls).getLast?.elim offset (·.stop) := by
            cases ls with
            | nil => rfl
            | cons k ls =>
              rw [List.getLast?_cons_cons, List.getLast?_eq_some_getLast (List.cons_ne_nil k ls)]
              rfl
          exact hlast ▸ .unfinished hinvalid (hcons hrun) h

end Outcomes

section Offsets

/-- A token stands in a text from the byte where it starts to that where it stops, where the text
itself starts at `i`, and from there it and those after it are read. -/
def Lexeme.StandsIn (l : Lexeme) (i : Nat) (cs : List Char) (after : List Lexeme) : Prop :=
  ∃ front rest, cs = front ++ (l.token.text.toList ++ rest) ∧ l.start = i + byteLength front ∧
    l.stop = l.start + byteLength l.token.text.toList ∧
    (scanFrom l.start (l.token.text.toList ++ rest)).lexemes = l :: after

theorem byteLength_append (cs ds : List Char) :
    byteLength (cs ++ ds) = byteLength cs + byteLength ds := by
  induction cs with
  | nil => simp [byteLength]
  | cons c cs ih => simp [byteLength, ih, Nat.add_assoc]

theorem toList_text_of_longest {sh : Shape} {n : Nat} (hlong : longest cs all = some (sh, n))
    (ht : sh.token? (cs.take n) = some t) : t.text.toList = cs.take n := by
  cases sh with
  | symbol s =>
    cases ht
    have hreach := (reach_of_longest hlong).1
    have hpos := longest_pos hlong
    rw [Shape.reach] at hreach
    split at hreach
    · rename_i hprefix
      obtain ⟨rest, rfl⟩ := List.isPrefixOf_iff_prefix.mp hprefix
      rw [← hreach, List.take_left, Token.text, Symbol.spelling, String.toList_ofList]
    · omega
  | number | ident =>
    cases ht
    rw [Token.text, String.toList_ofList]
  | blank | comment => cases ht

theorem Lexeme.StandsIn.drop {i n : Nat}
    (h : l.StandsIn (i + byteLength (cs.take n)) (cs.drop n) after) : l.StandsIn i cs after := by
  obtain ⟨front, rest, hcs, hstart, hstop, hscan⟩ := h
  refine ⟨cs.take n ++ front, rest, ?_, ?_, hstop, hscan⟩
  · rw [List.append_assoc, ← hcs, List.take_append_drop]
  · rw [hstart, byteLength_append, Nat.add_assoc]

theorem standsIn_of_scanFrom {i : Nat} (h : (scanFrom i cs).lexemes = before ++ l :: after) :
    l.StandsIn i cs after := by
  induction cs using lex_induction generalizing i before with
  | nil => simp [scanFrom_nil] at h
  | stuck cs hcs hnone => simp [scanFrom_of_none hnone hcs] at h
  | cut cs sh n hlong ih =>
    have hscan := h
    rw [scanFrom_of_longest hlong] at h
    dsimp only at h
    cases ht : sh.token? (cs.take n) with
    | none =>
      rw [ht] at h
      exact (ih h).drop
    | some t =>
      rw [ht] at h
      cases before with
      | cons b before => exact (ih (List.cons.inj h).2).drop
      | nil =>
        obtain ⟨rfl, -⟩ := List.cons.inj h
        have htext := toList_text_of_longest hlong ht
        refine ⟨[], cs.drop n, ?_, rfl, ?_, ?_⟩
        · rw [htext, List.nil_append, List.take_append_drop]
        · rw [htext]
        · rw [htext, List.take_append_drop]
          exact hscan

end Offsets

section Sentences

theorem Takes.of_run {Q : State → Prop} (h : Takes g st (ts ++ us) Q) (hrun : run g st ts = some st') :
    Takes g st' us Q := by
  induction ts generalizing st with
  | nil =>
    obtain rfl : st = st' := by simpa [run] using hrun
    exact h
  | cons t ts ih =>
    obtain ⟨r, hr, htakes⟩ := h
    rw [run, hr] at hrun
    cases r with
    | error f => cases hrun
    | ok st₁ => exact ih (htakes st₁ rfl) hrun

theorem not_viable_of_shift (hrun : run g .start ts = some st) (h : shift g st t = none) :
    ¬g.Viable (ts ++ [t]) := by
  rintro ⟨us, T, hT⟩
  have htakes := takes_sentence T
  rw [hT, List.append_assoc] at htakes
  obtain ⟨r, hr, -⟩ := htakes.of_run hrun
  cases h.symm.trans hr

theorem not_sentence_of_finish (hrun : run g .start ts = some st) (h : finish g st = none) :
    ¬g.Sentence ts := by
  rintro ⟨T, rfl⟩
  have htakes := takes_sentence T
  rw [← List.append_nil T.tokens] at htakes
  have hfinish : (finish g st).isSome = true := htakes.of_run hrun
  rw [h] at hfinish
  cases hfinish

theorem Goal.Derives.sentence {a : α} (h : g.Derives ts a) : g.Sentence ts := by
  cases g <;> exact Derives.text h

def InRange (ts : List Token) : Prop := ∀ digits, .number digits ∈ ts → ∃ n, readInt digits = .ok n

theorem InRange.append (hrange : InRange (ts ++ us)) : InRange ts :=
  fun digits h => hrange digits (List.mem_append_left us h)

theorem InRange.fault? (hrange : InRange ts) (h : run g .start ts = some st) :
    st.focus.fault? = none := by
  obtain rfl | ⟨init, t, rfl⟩ := ts.eq_nil_or_concat
  · cases h
    rfl
  · rw [List.concat_eq_append] at h hrange
    obtain ⟨st₁, -, hshift⟩ := run_concat.mp h
    cases hf : st.focus.fault? with
    | none => rfl
    | some f =>
      obtain ⟨digits, rfl, hread⟩ := (shift_follows hshift).1 f hf
      obtain ⟨n, hn⟩ := hrange digits (by simp)
      cases hn.symm.trans hread

end Sentences

theorem eq_of_mem_zip {xs ys : List Char} (rest rest' : List Char) (h : xs ++ rest = ys ++ rest') :
    ∀ p ∈ xs.zip ys, p.1 = p.2 := by
  induction xs generalizing ys with
  | nil => simp
  | cons x xs ih =>
    cases ys with
    | nil => simp
    | cons y ys =>
      obtain ⟨rfl, htail⟩ := List.cons.inj h
      exact List.forall_mem_cons.mpr ⟨rfl, ih htail⟩

theorem append_ne_append {s t : String} (h : ¬∀ p ∈ s.toList.zip t.toList, p.1 = p.2)
    (x y : String) : s ++ x ≠ t ++ y := by
  intro heq
  refine h (eq_of_mem_zip x.toList y.toList ?_)
  rw [← String.toList_append, ← String.toList_append, heq]

/-- No fault is told in the words of an unrecognized token or end. -/
theorem Fault.message_ne (f : Fault) (rest : String) : f.message ≠ "Unrecognized " ++ rest := by
  have hne : ∀ s : String, (¬∀ p ∈ s.toList.zip "Unrecognized ".toList, p.1 = p.2) →
      s ≠ "Unrecognized " ++ rest := fun s h heq =>
    append_ne_append h "" rest (by rwa [String.append_empty])
  cases f with
  | range => exact hne _ (by decide)
  | clauses e => cases e <;> exact hne _ (by decide)

namespace ParseError

def NamesToken (e : ParseError) : Prop := ∃ rest, e.message = "syntax error: Unrecognized token " ++ rest

def NamesEnd (e : ParseError) : Prop := ∃ rest, e.message = "syntax error: Unrecognized EOF " ++ rest

theorem message_invalid (n : Nat) :
    (invalid n).message = "syntax error: Invalid token at " ++ n.repr := by
  unfold message
  rfl

theorem message_unexpected (l : Lexeme) (ex : List Terminal) : (unexpected l ex).message =
    "syntax error: Unrecognized token " ++ ("`" ++ l.token.text ++ "` found at " ++ l.start.repr ++ ":"
      ++ l.stop.repr ++ expectedText ex) := by
  have hwords : "syntax error: Unrecognized token `" = "syntax error: Unrecognized token " ++ "`" := by
    decide +kernel
  unfold message
  simp only [hwords, String.append_assoc]

theorem message_unfinished (n : Nat) (ex : List Terminal) : (unfinished n ex).message =
    "syntax error: Unrecognized EOF " ++ ("found at " ++ n.repr ++ expectedText ex) := by
  have hwords : "syntax error: Unrecognized EOF found at " =
      "syntax error: Unrecognized EOF " ++ "found at " := by decide +kernel
  unfold message
  simp only [hwords, String.append_assoc]

theorem message_fault_ne (f : Fault) (rest : String) :
    (fault f).message ≠ "syntax error: Unrecognized " ++ rest := by
  have hwords : "syntax error: Unrecognized " = "syntax error: " ++ "Unrecognized " := by decide +kernel
  unfold message
  rw [hwords, String.append_assoc]
  exact fun h => f.message_ne rest (String.append_right_inj _ |>.mp h)

theorem unexpected_or_unfinished {e : ParseError} {rest : String}
    (h : e.message = "syntax error: Unrecognized " ++ rest) :
    (∃ l ex, e = .unexpected l ex) ∨ ∃ n ex, e = .unfinished n ex := by
  cases e with
  | unexpected l ex => exact Or.inl ⟨l, ex, rfl⟩
  | unfinished n ex => exact Or.inr ⟨n, ex, rfl⟩
  | fault f => exact absurd h (message_fault_ne f rest)
  | invalid n =>
    rw [message_invalid] at h
    exact absurd h (append_ne_append (by decide +kernel) _ _)

theorem namesToken_iff {e : ParseError} : e.NamesToken ↔ ∃ l ex, e = .unexpected l ex := by
  constructor
  · rintro ⟨rest, h⟩
    have hwords : "syntax error: Unrecognized token " = "syntax error: Unrecognized " ++ "token " := by
      decide +kernel
    obtain htoken | ⟨n, ex, rfl⟩ :=
      unexpected_or_unfinished (h.trans (by rw [hwords, String.append_assoc]))
    · exact htoken
    · rw [message_unfinished] at h
      exact absurd h (append_ne_append (by decide +kernel) _ _)
  · rintro ⟨l, ex, rfl⟩
    exact ⟨_, message_unexpected l ex⟩

theorem namesEnd_iff {e : ParseError} : e.NamesEnd ↔ ∃ n ex, e = .unfinished n ex := by
  constructor
  · rintro ⟨rest, h⟩
    have hwords : "syntax error: Unrecognized EOF " = "syntax error: Unrecognized " ++ "EOF " := by
      decide +kernel
    obtain ⟨l, ex, rfl⟩ | hend :=
      unexpected_or_unfinished (h.trans (by rw [hwords, String.append_assoc]))
    · rw [message_unexpected] at h
      exact absurd h (append_ne_append (by decide +kernel) _ _)
    · exact hend
  · rintro ⟨n, ex, rfl⟩
    exact ⟨_, message_unfinished n ex⟩

instance : DecidablePred NamesToken
  | .unexpected l ex => .isTrue (namesToken_iff.mpr ⟨l, ex, rfl⟩)
  | .invalid _ | .unfinished _ _ | .fault _ => .isFalse fun h => by
    obtain ⟨_, _, h⟩ := namesToken_iff.mp h
    cases h

instance : DecidablePred NamesEnd
  | .unfinished n ex => .isTrue (namesEnd_iff.mpr ⟨n, ex, rfl⟩)
  | .invalid _ | .unexpected _ _ | .fault _ => .isFalse fun h => by
    obtain ⟨_, _, h⟩ := namesEnd_iff.mp h
    cases h

/-- The error names the first token of a text after which no sentence is left, and where it
stands. -/
def AtToken (g : Goal α) (s : Scan) (e : ParseError) : Prop :=
  ∃ before l after ex, s.lexemes = before ++ l :: after ∧
    e.message = "syntax error: Unrecognized token " ++ ("`" ++ l.token.text ++ "` found at " ++
      l.start.repr ++ ":" ++ l.stop.repr ++ expectedText ex) ∧
    g.Viable (tokensOf before) ∧ ¬g.Viable (tokensOf before ++ [l.token])

/-- The error names the end of a text that is no sentence but starts one, and where it is. -/
def AtEnd (g : Goal α) (s : Scan) (e : ParseError) : Prop :=
  s.invalid = none ∧
    (∃ ex, e.message = "syntax error: Unrecognized EOF " ++ ("found at " ++
      (s.lexemes.getLast?.elim 0 (·.stop)).repr ++ expectedText ex)) ∧
    g.Viable (tokensOf s.lexemes) ∧ ¬g.Sentence (tokensOf s.lexemes)

end ParseError

section Reports

open ParseError

instance {r : Except ParseError α} {p : ParseError → Prop} [DecidablePred p] :
    Decidable (∃ e, r = .error e ∧ p e) :=
  match r with
  | .ok _ => .isFalse nofun
  | .error e => decidable_of_iff (p e) ⟨fun h => ⟨e, rfl, h⟩, fun ⟨_, heq, h⟩ => by
    cases heq
    exact h⟩

theorem parse_outcome (g : Goal α) (source : String) :
    ParseOutcome g .start 0 (scan source).invalid (scan source).lexemes (parse g source) :=
  outcome_parseFrom g .start 0 _ _

theorem atToken_of_unexpected {source : String} {ex : List Terminal}
    (h : parse g source = .error (.unexpected l ex)) : AtToken g (scan source) (.unexpected l ex) := by
  have hout := parse_outcome g source
  rw [h] at hout
  generalize hr : Except.error (ParseError.unexpected l ex) = r at hout
  cases hout with
  | unexpected hls hrun hshift =>
    cases hr
    exact ⟨_, _, _, _, hls, message_unexpected _ _, viable_of_run hrun, not_viable_of_shift hrun hshift⟩
  | @ended _ r => cases r <;> cases hr
  | fault | invalid | unfinished => cases hr

theorem atEnd_of_unfinished {source : String} {n : Nat} {ex : List Terminal}
    (h : parse g source = .error (.unfinished n ex)) : AtEnd g (scan source) (.unfinished n ex) := by
  have hout := parse_outcome g source
  rw [h] at hout
  generalize hr : Except.error (ParseError.unfinished n ex) = r at hout
  cases hout with
  | unfinished hinvalid hrun hfinish =>
    cases hr
    exact ⟨hinvalid, ⟨_, message_unfinished _ _⟩, viable_of_run hrun,
      not_sentence_of_finish hrun hfinish⟩
  | @ended _ r => cases r <;> cases hr
  | fault | invalid | unexpected => cases hr

theorem error_of_not_sentence {source : String} (hinvalid : (scan source).invalid = none)
    (hrange : InRange (tokensOf (scan source).lexemes))
    (hdef : Definable g (tokensOf (scan source).lexemes))
    (hnot : ¬g.Sentence (tokensOf (scan source).lexemes)) :
    ∃ e, parse g source = .error e ∧ (e.NamesToken ∨ e.NamesEnd) := by
  have hout := parse_outcome g source
  generalize parse g source = r at hout ⊢
  cases hout with
  | unexpected => exact ⟨_, rfl, Or.inl (namesToken_iff.mpr ⟨_, _, rfl⟩)⟩
  | unfinished => exact ⟨_, rfl, Or.inr (namesEnd_iff.mpr ⟨_, _, rfl⟩)⟩
  | invalid h => cases hinvalid.symm.trans h
  | @fault before after l st f hls hrun h =>
    have htokens : tokensOf (scan source).lexemes = tokensOf before ++ l.token :: tokensOf after := by
      rw [hls, tokensOf, List.map_append]
      rfl
    rw [htokens] at hrange hdef
    exact absurd h (hdef.shift_ne_error (run_reads hrun reads_start) (hrange.append.fault? hrun))
  | @ended st r _ hrun h =>
    cases r with
    | ok a => exact absurd (derives_of_finish hrun h).sentence hnot
    | error f =>
      exact absurd h (hdef.finish_ne_error (run_reads hrun reads_start) (hrange.fault? hrun))

/-- A syntax error names the first token after which no sentence is left, or the end of a text that
starts a sentence but is none. -/
theorem parse_error_earliest (g : Goal α) (source : String) :
    (∀ before l after, (scan source).lexemes = before ++ l :: after →
      l.StandsIn 0 source.toList after) ∧
    (∀ e, parse g source = .error e → e.NamesToken → e.AtToken g (scan source)) ∧
    (∀ e, parse g source = .error e → e.NamesEnd → e.AtEnd g (scan source)) ∧
    -- no fault is reported instead if the numbers are in range and definitions define something
    ((scan source).invalid = none → InRange (tokensOf (scan source).lexemes) →
      Definable g (tokensOf (scan source).lexemes) → ¬g.Sentence (tokensOf (scan source).lexemes) →
      ∃ e, parse g source = .error e ∧ (e.NamesToken ∨ e.NamesEnd)) := by
  refine ⟨fun _ _ _ => standsIn_of_scanFrom, fun e he hnames => ?_, fun e he hnames => ?_,
    error_of_not_sentence⟩
  · obtain ⟨l, ex, rfl⟩ := namesToken_iff.mp hnames
    exact atToken_of_unexpected he
  · obtain ⟨n, ex, rfl⟩ := namesEnd_iff.mp hnames
    exact atEnd_of_unfinished he

/-- A comparison of three is reported at the second sign, and a definition without an expression to
use it at its end. -/
theorem parse_error_earliest_let :
    (∃ e, parse .expr "1 < 2 < 3" = .error e ∧ e.AtToken .expr (scan "1 < 2 < 3")) ∧
    InRange (tokensOf (scan "let x = 1 in").lexemes) ∧
    Definable .expr (tokensOf (scan "let x = 1 in").lexemes) ∧
    ∃ e, parse .expr "let x = 1 in" = .error e ∧ (e.NamesToken ∨ e.NamesEnd) ∧
      e.AtEnd .expr (scan "let x = 1 in") := by
  obtain ⟨-, htoken, -⟩ := parse_error_earliest .expr "1 < 2 < 3"
  obtain ⟨-, -, hend, herror⟩ := parse_error_earliest .expr "let x = 1 in"
  have hchain : ∃ e, parse .expr "1 < 2 < 3" = .error e ∧ e.NamesToken := by decide +kernel
  have hlet : ∃ e, parse .expr "let x = 1 in" = .error e ∧ e.NamesEnd := by decide +kernel
  obtain ⟨e, he, hnames⟩ := hchain
  obtain ⟨e', he', hnames'⟩ := hlet
  have htokens : tokensOf (scan "let x = 1 in").lexemes = [.symbol .kwLet, .ident "x",
      .symbol .assign, .number "1", .symbol .kwIn] := by decide +kernel
  have hrange : InRange (tokensOf (scan "let x = 1 in").lexemes) := by
    rw [htokens]
    intro digits h
    obtain rfl : digits = "1" := by simpa using h
    exact ⟨1, by decide +kernel⟩
  have hdef : Definable .expr (tokensOf (scan "let x = 1 in").lexemes) := by
    rw [htokens]
    rintro before rec xs cs after heq ⟨T, hT, hcs⟩ hafter
    have hxs : xs = [.ident "x", .symbol .assign, .number "1"] := by
      cases after with
      | nil => cases hafter
      | cons t after =>
        obtain rfl | ⟨-, hexpr⟩ := hafter
        · rw [List.cons_append, List.cons_append] at heq
          obtain ⟨-, -, htail⟩ := (List.append_cons_inj_of_notMem List.not_mem_nil
            (by decide)).mp ((List.nil_append _).trans heq)
          have hbody : [.ident "x", .symbol .assign, .number "1"] = optional rec .kwRec ++ xs :=
            ((List.append_cons_inj_of_notMem (by decide) List.not_mem_nil).mp htail).1
          cases rec with
          | false => exact hbody.symm
          | true => cases hbody
        · exact absurd rfl hexpr
    let one : ParseTree .expr :=
      .ofOr (.ofAnd (.ofCmp (.ofCons (.ofAdd (.ofMul (.ofApp (.ofAtom (.number "1"))))))))
    obtain rfl : T = .lastClause (.clause "x" .noParam one) := ParseTree.tokens_injective (hT.trans hxs)
    have hclause : (ParseTree.lastClause (.clause "x" .noParam one)).meaning =
        .ok [⟨"x", [], .lit (.int 1)⟩] := by rfl
    obtain rfl := Except.ok.inj (hcs.symm.trans hclause)
    exact ⟨_, rfl⟩
  refine ⟨⟨e, he, htoken e he hnames⟩, hrange, hdef, ?_⟩
  obtain ⟨e'', he'', hor⟩ := herror (by decide +kernel) hrange hdef (hend e' he' hnames').2.2.2
  obtain rfl : e' = e'' := Except.error.inj (he'.symm.trans he'')
  exact ⟨e', he', hor, hend e' he' hnames'⟩

end Reports

end LetML

import LetML.Proofs.ParserCompleteness
import LetML.Proofs.ParserSoundness
import Mathlib.Data.List.TakeWhile
import Mathlib.Tactic.ByContra

namespace LetML

variable {cs ds front rest : List Char} {c d : Char} {sh : Shape} {n : Nat} {ts us vs : List Token}

def Scan.tokens? (s : Scan) : Option (List Token) :=
  if s.invalid.isNone then some (s.lexemes.map (·.token)) else none

def lex? (cs : List Char) : Option (List Token) := (scanFrom 0 cs).tokens?

theorem parse_eq_ok {α : Type} {g : Goal α} {source : String} {a : α} :
    parse g source = .ok a ↔ ∃ ts, lex? source.toList = some ts ∧ g.Derives ts a := by
  have hlex : ∀ ts, lex? source.toList = some ts ↔
      (scan source).invalid = none ∧ (scan source).lexemes.map (·.token) = ts := by
    intro ts
    simp [lex?, Scan.tokens?, scan]
  rw [parse, parseFrom_eq_ok]
  constructor
  · rintro ⟨hinvalid, st, hrun, hfinish⟩
    exact ⟨_, (hlex _).mpr ⟨hinvalid, rfl⟩, derives_of_finish hrun hfinish⟩
  · rintro ⟨ts, hts, hderives⟩
    obtain ⟨hinvalid, rfl⟩ := (hlex ts).mp hts
    exact ⟨hinvalid, finish_of_derives hderives⟩

theorem takeWhile_append_of_lt {p : Char → Bool} (h : (cs.takeWhile p).length < cs.length) :
    (cs ++ ds).takeWhile p = cs.takeWhile p := by
  rw [List.takeWhile_append, if_neg (Nat.ne_of_lt h)]

theorem takeWhile_append_stop {p : Char → Bool} (hd : p d = false) :
    (cs ++ d :: ds).takeWhile p = cs.takeWhile p := by
  rw [List.takeWhile_append]
  split
  · rename_i hlen
    rw [List.takeWhile_cons_of_neg (by simp [hd]), List.append_nil]
    exact (List.takeWhile_prefix p).eq_of_length hlen |>.symm
  · rfl

theorem isPrefixOf_append_stop {xs : List Char} (hd : d ∉ xs) :
    xs.isPrefixOf (cs ++ d :: ds) = xs.isPrefixOf cs := by
  induction xs generalizing cs with
  | nil => simp
  | cons x xs ih =>
    obtain ⟨hx, hxs⟩ := not_or.mp (mt List.mem_cons.mpr hd)
    cases cs with
    | nil => simp [List.isPrefixOf, Ne.symm hx]
    | cons c cs => simp [List.isPrefixOf, ih hxs]

def Graphic (c : Char) : Prop := 0x21 ≤ c.toNat ∧ c.toNat ≤ 0x7E

instance (c : Char) : Decidable (Graphic c) := inferInstanceAs (Decidable (_ ∧ _))

theorem not_graphic_of_isBlank (h : isBlank c = true) : ¬Graphic c := by
  obtain ⟨r, hr, h₁, h₂⟩ := withinRanges_iff.mp h
  rintro ⟨h₃, h₄⟩
  simp only [blankRanges, List.mem_cons, List.not_mem_nil, or_false] at hr
  rcases hr with rfl | rfl | rfl | rfl | rfl | rfl | rfl | rfl | rfl | rfl <;> simp at h₁ h₂ <;> omega

theorem graphic_of_between {a b : Char} (ha : 0x21 ≤ a.toNat) (hb : b.toNat ≤ 0x7E)
    (h : (decide (a ≤ c) && decide (c ≤ b)) = true) : Graphic c := by
  simp only [Bool.and_eq_true, decide_eq_true_eq, Char.le_def, UInt32.le_iff_toNat_le] at h
  exact ⟨Nat.le_trans ha h.1, Nat.le_trans h.2 hb⟩

theorem graphic_of_isDecimal (h : isDecimal c = true) : Graphic c :=
  graphic_of_between (by decide) (by decide) h

theorem graphic_of_isIdentRest (h : isIdentRest c = true) : Graphic c := by
  simp only [isIdentRest, isIdentStart, Bool.or_eq_true] at h
  rcases h with (((h | h) | h) | h) | h
  · exact graphic_of_between (by decide) (by decide) h
  · exact graphic_of_between (by decide) (by decide) h
  · exact graphic_of_between (by decide) (by decide) h
  · rw [of_decide_eq_true h]; decide
  · rw [of_decide_eq_true h]; decide

theorem Symbol.graphic (s : Symbol) : ∀ x ∈ s.chars, Graphic x := by
  have hall : s.chars.all (fun x => decide (Graphic x)) = true := by cases s <;> rfl
  exact fun x hx => of_decide_eq_true (List.all_eq_true.mp hall x hx)

/-- A character with which every token before it has ended. -/
def Separates (d : Char) : Prop := d = ';' ∨ d = ')' ∨ d = ']' ∨ d = ',' ∨ isBlank d = true

namespace Separates

theorem semi : Separates ';' := Or.inl rfl

theorem rparen : Separates ')' := Or.inr (Or.inl rfl)

theorem rbracket : Separates ']' := Or.inr (Or.inr (Or.inl rfl))

theorem comma : Separates ',' := Or.inr (Or.inr (Or.inr (Or.inl rfl)))

theorem blank (hd : isBlank d = true) : Separates d := Or.inr (Or.inr (Or.inr (Or.inr hd)))

theorem isDecimal_eq (hd : Separates d) : isDecimal d = false := by
  obtain rfl | rfl | rfl | rfl | hd := hd
  iterate 4 decide
  · exact Bool.eq_false_iff.mpr fun h => not_graphic_of_isBlank hd (graphic_of_isDecimal h)

theorem isIdentRest_eq (hd : Separates d) : isIdentRest d = false := by
  obtain rfl | rfl | rfl | rfl | hd := hd
  iterate 4 decide
  · exact Bool.eq_false_iff.mpr fun h => not_graphic_of_isBlank hd (graphic_of_isIdentRest h)

theorem ne_minus (hd : Separates d) : d ≠ '-' := by
  obtain rfl | rfl | rfl | rfl | hd := hd
  iterate 4 decide
  · rintro rfl
    exact not_graphic_of_isBlank hd (by decide)

theorem not_mem_tail (hd : Separates d) (s : Symbol) : d ∉ s.chars.tail := by
  obtain rfl | rfl | rfl | rfl | hd := hd
  iterate 4 cases s <;> decide
  · exact fun h => not_graphic_of_isBlank hd (s.graphic d (List.mem_of_mem_tail h))

end Separates

namespace Shape

theorem mem_all (sh : Shape) : sh ∈ all := by
  cases sh with
  | symbol s => exact List.mem_append_left _ (List.mem_map_of_mem s.mem_all)
  | number | ident | blank | comment => simp [all]

theorem reach_le (sh : Shape) (cs : List Char) : sh.reach cs ≤ cs.length := by
  have htake : ∀ (p : Char → Bool) (l : List Char), (l.takeWhile p).length ≤ l.length :=
    fun p l => (List.takeWhile_sublist p).length_le
  cases sh with
  | symbol s =>
    simp only [reach]
    split
    · exact (List.isPrefixOf_iff_prefix.mp (by assumption)).length_le
    · exact Nat.zero_le _
  | number => exact htake ..
  | blank => exact htake ..
  | ident =>
    cases cs with
    | nil => exact Nat.le_refl 0
    | cons c cs =>
      simp only [reach]
      split
      · exact Nat.succ_le_succ (htake ..)
      · exact Nat.zero_le _
  | comment =>
    rw [reach.eq_def]
    split
    case h_6 cs _ =>
      have h₁ := htake (fun c => !isLineEnd c) cs
      have h₂ := htake isLineEnd (cs.drop (cs.takeWhile (fun c => !isLineEnd c)).length)
      rw [List.length_drop] at h₂
      simp only [List.length_cons]
      omega
    all_goals simp_all

/-- A separator does not change how far the shape of a token reaches. -/
theorem reach_append_token (hd : Separates d) (hcs : cs ≠ []) (hb : sh ≠ blank) (hc : sh ≠ comment) :
    sh.reach (cs ++ d :: ds) = sh.reach cs := by
  obtain ⟨c, cs, rfl⟩ := List.exists_cons_of_ne_nil hcs
  cases sh with
  | symbol s =>
    have hprefix : s.chars.isPrefixOf (c :: cs ++ d :: ds) = s.chars.isPrefixOf (c :: cs) := by
      have htail := hd.not_mem_tail s
      cases hs : s.chars with
      | nil => simp
      | cons x xs =>
        rw [hs, List.tail_cons] at htail
        simp [List.isPrefixOf, isPrefixOf_append_stop htail]
    simp only [reach, hprefix]
  | number => rw [reach, reach, takeWhile_append_stop hd.isDecimal_eq]
  | ident => rw [List.cons_append, reach, reach, takeWhile_append_stop hd.isIdentRest_eq]
  | blank => exact (hb rfl).elim
  | comment => exact (hc rfl).elim

theorem reach_comment (cs : List Char) : comment.reach ('-' :: '-' :: cs) =
    (cs.takeWhile (fun c => !isLineEnd c)).length +
      ((cs.drop (cs.takeWhile (fun c => !isLineEnd c)).length).takeWhile isLineEnd).length + 2 := rfl

theorem reach_comment_eq_zero (h : ∀ r, cs ≠ '-' :: '-' :: r) : comment.reach cs = 0 := by
  rw [reach.eq_def]
  split <;> simp_all

theorem length_takeWhile_append_ge (p : Char → Bool) (cs ds : List Char) :
    (cs.takeWhile p).length ≤ ((cs ++ ds).takeWhile p).length := by
  rw [List.takeWhile_append]
  split
  · rw [List.length_append]
    omega
  · exact Nat.le_refl _

theorem reach_comment_append (cs ds : List Char) :
    comment.reach ('-' :: '-' :: cs) ≤ comment.reach ('-' :: '-' :: (cs ++ ds)) := by
  rw [reach_comment, reach_comment]
  by_cases hlt : (cs.takeWhile (fun c => !isLineEnd c)).length < cs.length
  · rw [takeWhile_append_of_lt hlt, List.drop_append_of_le_length (Nat.le_of_lt hlt)]
    have := length_takeWhile_append_ge isLineEnd
      (cs.drop (cs.takeWhile (fun c => !isLineEnd c)).length) ds
    omega
  · rw [List.drop_eq_nil_of_le (Nat.le_of_not_lt hlt)]
    have := length_takeWhile_append_ge (fun c => !isLineEnd c) cs ds
    simp only [List.takeWhile_nil, List.length_nil]
    omega

theorem reach_append_of_lt (hd : Separates d) (h : sh.reach cs < cs.length) :
    sh.reach (cs ++ d :: ds) = sh.reach cs := by
  have hcs : cs ≠ [] := by
    rintro rfl
    exact Nat.not_lt_zero _ h
  cases sh with
  | symbol | number | ident => exact reach_append_token hd hcs (by simp) (by simp)
  | blank => rw [reach, reach, takeWhile_append_of_lt h]
  | comment =>
    by_cases hstart : ∃ r, cs = '-' :: '-' :: r
    · obtain ⟨r, rfl⟩ := hstart
      rw [reach_comment] at h
      simp only [List.length_cons] at h
      have hline : (r.takeWhile (fun c => !isLineEnd c)).length < r.length := by omega
      have hends : ((r.drop (r.takeWhile (fun c => !isLineEnd c)).length).takeWhile isLineEnd).length
          < (r.drop (r.takeWhile (fun c => !isLineEnd c)).length).length := by
        rw [List.length_drop]
        omega
      rw [List.cons_append, List.cons_append, reach_comment, reach_comment,
        takeWhile_append_of_lt hline, List.drop_append_of_le_length (Nat.le_of_lt hline),
        takeWhile_append_of_lt hends]
    · have hstart : ∀ r, cs ≠ '-' :: '-' :: r := fun r hr => hstart ⟨r, hr⟩
      rw [reach_comment_eq_zero hstart, reach_comment_eq_zero]
      intro r hr
      match cs, hcs, hstart with
      | [c], _, _ =>
        simp only [List.cons_append, List.nil_append, List.cons.injEq] at hr
        exact hd.ne_minus hr.2.1
      | c :: c' :: cs, _, hstart =>
        simp only [List.cons_append, List.cons.injEq] at hr
        exact hstart cs (by rw [hr.1, hr.2.1])

theorem longest_eq_none {shs : List Shape} :
    longest cs shs = none ↔ ∀ sh ∈ shs, sh.reach cs = 0 := by
  induction shs with
  | nil => simp [longest]
  | cons sh shs ih =>
    rw [longest, List.forall_mem_cons, ← ih]
    split <;> split <;> simp_all

theorem reach_of_longest {shs : List Shape} (h : longest cs shs = some (sh, n)) :
    sh.reach cs = n ∧ ∀ sh' ∈ shs, sh'.reach cs ≤ n := by
  induction shs generalizing sh n with
  | nil => cases h
  | cons sh₀ shs ih =>
    rw [List.forall_mem_cons]
    cases hrest : longest cs shs with
    | none =>
      have hzero : ∀ sh' ∈ shs, sh'.reach cs = 0 := longest_eq_none.mp hrest
      simp only [longest, hrest] at h
      split at h <;> cases h
      exact ⟨rfl, Nat.le_refl _, fun sh' hsh' => by simp [hzero sh' hsh']⟩
    | some p =>
      obtain ⟨hreach, hle⟩ := ih hrest
      simp only [longest, hrest] at h
      split at h <;> cases h
      · exact ⟨hreach, by omega, hle⟩
      · exact ⟨rfl, Nat.le_refl _, fun sh' hsh' => Nat.le_trans (hle sh' hsh') (by omega)⟩

theorem longest_congr {shs : List Shape} (h : ∀ sh ∈ shs, sh.reach cs = sh.reach ds) :
    longest cs shs = longest ds shs := by
  induction shs with
  | nil => rfl
  | cons sh shs ih =>
    obtain ⟨hsh, hshs⟩ := List.forall_mem_cons.mp h
    rw [longest, longest, ih hshs, hsh]

theorem longest_eq (hpos : 0 < sh.reach cs) (h : ∀ sh', sh' ≠ sh → sh'.reach cs < sh.reach cs) :
    longest cs all = some (sh, sh.reach cs) := by
  cases hlong : longest cs all with
  | none => exact absurd (longest_eq_none.mp hlong sh sh.mem_all) (Nat.ne_of_gt hpos)
  | some p =>
    obtain ⟨sh', m⟩ := p
    obtain ⟨rfl, hle⟩ := reach_of_longest hlong
    by_cases heq : sh' = sh
    · rw [heq]
    · exact absurd (hle sh sh.mem_all) (Nat.not_le_of_lt (h sh' heq))

theorem longest_append_of_lt (hd : Separates d) (h : longest cs all = some (sh, n))
    (hn : n < cs.length) : longest (cs ++ d :: ds) all = some (sh, n) := by
  rw [← h]
  refine longest_congr (fun sh' hsh' => reach_append_of_lt hd ?_)
  exact Nat.lt_of_le_of_lt ((reach_of_longest h).2 sh' hsh') hn

/-- A separator does not change the shape that is chosen where neither blanks nor a comment start. -/
theorem longest_append_token (hd : Separates d) (hblank : ¬isBlank c = true)
    (hstart : ∀ r, c :: cs ≠ '-' :: '-' :: r) :
    longest (c :: cs ++ d :: ds) all = longest (c :: cs) all := by
  refine longest_congr (fun sh _ => ?_)
  cases sh with
  | symbol | number | ident => exact reach_append_token hd (by simp) (by simp) (by simp)
  | blank => exact reach_append_of_lt hd (by simp [reach, hblank])
  | comment =>
    refine reach_append_of_lt hd ?_
    rw [reach_comment_eq_zero hstart]
    exact Nat.succ_pos _

theorem longest_append_of_none (hd : Separates d) (h : longest cs all = none) (hcs : cs ≠ []) :
    longest (cs ++ d :: ds) all = none := by
  rw [← h]
  refine longest_congr (fun sh' hsh' => reach_append_of_lt hd ?_)
  rw [longest_eq_none.mp h sh' hsh']
  exact List.length_pos_iff.mpr hcs

end Shape

section Tokens

open Shape

theorem ne_nil_of_longest (h : longest cs all = some (sh, n)) : cs ≠ [] := by
  rintro rfl
  have hle := reach_le sh []
  rw [(reach_of_longest h).1] at hle
  exact Nat.not_lt_of_le hle (longest_pos h)

theorem le_length_of_longest (h : longest cs all = some (sh, n)) : n ≤ cs.length := by
  rw [← (reach_of_longest h).1]
  exact reach_le sh cs

theorem scanFrom_of_longest {i : Nat} (h : longest cs all = some (sh, n)) :
    scanFrom i cs =
      let rest := scanFrom (i + byteLength (cs.take n)) (cs.drop n)
      match sh.token? (cs.take n) with
      | none => rest
      | some t => { rest with lexemes := ⟨t, i, i + byteLength (cs.take n)⟩ :: rest.lexemes } := by
  obtain ⟨c, cs, rfl⟩ := List.exists_cons_of_ne_nil (ne_nil_of_longest h)
  obtain ⟨m, rfl⟩ : ∃ m, n = m + 1 := ⟨n - 1, (Nat.sub_add_cancel (longest_pos h)).symm⟩
  conv => lhs; unfold scanFrom
  rw [h]
  rfl

theorem tokens?_scanFrom_of_longest {i : Nat} (h : longest cs all = some (sh, n)) :
    (scanFrom i cs).tokens? = (scanFrom (i + byteLength (cs.take n)) (cs.drop n)).tokens?.map
      ((sh.token? (cs.take n)).toList ++ ·) := by
  rw [scanFrom_of_longest h]
  cases sh.token? (cs.take n) with
  | none => simp
  | some t => simp [Scan.tokens?]

theorem scanFrom_of_none {i : Nat} (h : longest cs all = none) (hcs : cs ≠ []) :
    scanFrom i cs = ⟨[], some i⟩ := by
  obtain ⟨c, cs, rfl⟩ := List.exists_cons_of_ne_nil hcs
  unfold scanFrom
  rw [h]

theorem scanFrom_nil (i : Nat) : scanFrom i [] = ⟨[], none⟩ := by
  unfold scanFrom
  rfl

theorem tokens?_scanFrom (i : Nat) (cs : List Char) : (scanFrom i cs).tokens? = lex? cs := by
  induction hlen : cs.length using Nat.strongRecOn generalizing i cs with
  | ind m ih =>
    rw [lex?]
    cases h : longest cs all with
    | none =>
      by_cases hcs : cs = []
      · subst hcs
        rw [scanFrom_nil, scanFrom_nil]
      · rw [scanFrom_of_none h hcs, scanFrom_of_none h hcs]
        rfl
    | some p =>
      obtain ⟨sh, n⟩ := p
      have hlt : (cs.drop n).length < m := by
        have := List.length_pos_iff.mpr (ne_nil_of_longest h)
        have := longest_pos h
        rw [List.length_drop]
        omega
      rw [tokens?_scanFrom_of_longest h, tokens?_scanFrom_of_longest h, ih _ hlt _ _ rfl,
        ih _ hlt _ _ rfl]

@[simp] theorem lex?_nil : lex? [] = some [] := by
  rw [lex?, scanFrom_nil]
  rfl

theorem lex?_of_longest (h : longest cs all = some (sh, n)) :
    lex? cs = (lex? (cs.drop n)).map ((sh.token? (cs.take n)).toList ++ ·) := by
  rw [lex?, tokens?_scanFrom_of_longest h, tokens?_scanFrom]

theorem lex?_of_none (h : longest cs all = none) (hcs : cs ≠ []) : lex? cs = none := by
  rw [lex?, scanFrom_of_none h hcs]
  rfl

/-- What holds of the empty text, of one that starts with nothing that can be read, and of one if it
holds of what follows its first shape, holds of every text. -/
theorem lex_induction {P : List Char → Prop} (nil : P [])
    (stuck : ∀ cs, cs ≠ [] → longest cs all = none → P cs)
    (cut : ∀ cs sh n, longest cs all = some (sh, n) → P (cs.drop n) → P cs) (cs : List Char) :
    P cs := by
  induction hlen : cs.length using Nat.strongRecOn generalizing cs with
  | ind m ih =>
    cases h : longest cs all with
    | none =>
      by_cases hcs : cs = []
      · exact hcs ▸ nil
      · exact stuck cs hcs h
    | some p =>
      have := List.length_pos_iff.mpr (ne_nil_of_longest h)
      have := longest_pos h
      exact cut cs p.1 p.2 h (ih _ (by rw [List.length_drop]; omega) _ rfl)

theorem longest_comment (cs : List Char) :
    longest ('-' :: '-' :: cs) all = some (.comment, comment.reach ('-' :: '-' :: cs)) := by
  have hpos : 2 ≤ comment.reach ('-' :: '-' :: cs) := Nat.le_add_left ..
  refine longest_eq (by omega) (fun sh hsh => Nat.lt_of_le_of_lt ?_ hpos)
  cases sh with
  | symbol s => cases s <;> simp [reach, Symbol.chars, List.isPrefixOf]
  | number | ident | blank => exact Nat.zero_le 1
  | comment => exact (hsh rfl).elim

theorem longest_blank (hc : isBlank c = true) :
    longest (c :: cs) all = some (.blank, blank.reach (c :: cs)) := by
  have hgraphic := not_graphic_of_isBlank hc
  have hpos : 0 < blank.reach (c :: cs) := by simp [reach, hc]
  refine longest_eq hpos (fun sh hsh => Nat.lt_of_le_of_lt (Nat.le_of_eq ?_) hpos)
  cases sh with
  | symbol s =>
    cases hs : s.chars with
    | nil => cases s <;> cases hs
    | cons x xs =>
      have hx : x ≠ c := fun h => hgraphic (h ▸ s.graphic x (by simp [hs]))
      simp [reach, hs, List.isPrefixOf, hx]
  | number => simp [reach, mt graphic_of_isDecimal hgraphic]
  | ident =>
    have hrest := mt graphic_of_isIdentRest hgraphic
    simp only [isIdentRest, Bool.or_eq_true, not_or, Bool.not_eq_true] at hrest
    simp [reach, hrest.1.1.1.1]
  | comment =>
    refine reach_comment_eq_zero (fun r hr => hgraphic ?_)
    rw [(List.cons.inj hr).1]
    decide
  | blank => exact (hsh rfl).elim

/-- A text that ends in a comment that no line end closes. -/
inductive InComment : List Char → Prop
  | here {line : List Char} : (∀ c ∈ line, isLineEnd c = false) → InComment ('-' :: '-' :: line)
  | later {cs : List Char} {sh : Shape} {n : Nat} :
    longest cs all = some (sh, n) → InComment (cs.drop n) → InComment cs

theorem InComment.ne_nil (h : InComment cs) : cs ≠ [] := by
  cases h with
  | here => exact List.cons_ne_nil _ _
  | later hlong _ => exact ne_nil_of_longest hlong

theorem Shape.reach_append_semi (hcs : cs ≠ [])
    (hopen : ∀ line, cs = '-' :: '-' :: line → ∃ c ∈ line, isLineEnd c = true) (sh : Shape) :
    sh.reach (cs ++ ';' :: ds) = sh.reach cs := by
  cases sh with
  | symbol | number | ident => exact reach_append_token .semi hcs (by simp) (by simp)
  | blank => rw [reach, reach, takeWhile_append_stop (by decide)]
  | comment =>
    by_cases hstart : ∃ r, cs = '-' :: '-' :: r
    · obtain ⟨r, rfl⟩ := hstart
      obtain ⟨c, hc, hend⟩ := hopen r rfl
      have hline : (r.takeWhile (fun c => !isLineEnd c)).length < r.length := by
        refine Nat.lt_of_le_of_ne (List.takeWhile_sublist _).length_le (fun heq => ?_)
        have := List.takeWhile_eq_self_iff.mp ((List.takeWhile_prefix _).eq_of_length heq) c hc
        simp [hend] at this
      rw [List.cons_append, List.cons_append, reach_comment, reach_comment,
        takeWhile_append_of_lt hline, List.drop_append_of_le_length (Nat.le_of_lt hline),
        takeWhile_append_stop (by decide)]
    · have hzero : comment.reach cs = 0 := reach_comment_eq_zero fun r hr => hstart ⟨r, hr⟩
      exact reach_append_of_lt .semi (hzero ▸ List.length_pos_iff.mpr hcs)

theorem longest_append_semi (hcs : cs ≠ []) (hopen : ¬InComment cs) :
    longest (cs ++ ';' :: ds) all = longest cs all := by
  refine longest_congr (fun sh _ => reach_append_semi hcs (fun line hline => ?_) sh)
  by_contra hno
  simp only [not_exists, not_and, Bool.not_eq_true] at hno
  exact hopen (hline ▸ .here hno)

def Symbol.marks : List Symbol := [semi, lparen, rparen, lbracket, rbracket, comma, backslash]

theorem longest_mark {s : Symbol} (hs : s ∈ Symbol.marks) (cs : List Char) :
    longest (s.chars ++ cs) all = some (.symbol s, s.chars.length) := by
  have hreach : (symbol s).reach (s.chars ++ cs) = s.chars.length := by simp [reach]
  have hone : s.chars.length = 1 ∧
      ∀ sh : Shape, sh ≠ symbol s → sh.reach (s.chars ++ cs) < 1 := by
    simp only [Symbol.marks, List.mem_cons, List.not_mem_nil, or_false] at hs
    rcases hs with rfl | rfl | rfl | rfl | rfl | rfl | rfl
    all_goals
      refine ⟨rfl, fun sh hsh => ?_⟩
      cases sh with
      | symbol s => cases s <;> first | exact (hsh rfl).elim | exact Nat.zero_lt_one
      | number | ident | blank | comment => exact Nat.zero_lt_one
  rw [← hreach]
  exact longest_eq (by omega) (fun sh hsh => by have := hone.2 sh hsh; omega)

theorem longest_semi (cs : List Char) :
    longest (';' :: cs) all = some (.symbol .semi, 1) :=
  longest_mark List.mem_cons_self cs

/-- A semicolon outside of comments is a token that parts those before it from those after it. -/
theorem lex?_append_semi (hopen : ¬InComment front) :
    lex? (front ++ ';' :: rest) =
      (lex? front).bind fun us => (lex? rest).map fun vs => us ++ .symbol .semi :: vs := by
  induction front using lex_induction with
  | nil =>
    rw [List.nil_append, lex?_of_longest (longest_semi rest), lex?_nil]
    rfl
  | stuck cs hcs hnone =>
    rw [lex?_of_none hnone hcs, lex?_of_none ((longest_append_semi hcs hopen).trans hnone) (by simp)]
    rfl
  | cut cs sh n hlong ih =>
    have hle := le_length_of_longest hlong
    have hlong' : longest (cs ++ ';' :: rest) all = some (sh, n) :=
      (longest_append_semi (ne_nil_of_longest hlong) hopen).trans hlong
    rw [lex?_of_longest hlong', lex?_of_longest hlong, List.drop_append_of_le_length hle,
      List.take_append_of_le_length hle, ih (fun h => hopen (.later hlong h))]
    cases lex? (cs.drop n) <;> cases lex? rest <;> simp

theorem InComment.append_semis (h : InComment cs) (hds : ∀ c ∈ ds, c = ';') :
    InComment (cs ++ ds) ∧ lex? (cs ++ ds) = lex? cs := by
  have hwhole : ∀ line, (∀ c ∈ line, isLineEnd c = false) → lex? ('-' :: '-' :: line) = some [] := by
    intro line hline
    have htake : line.takeWhile (fun c => !isLineEnd c) = line :=
      List.takeWhile_eq_self_iff.mpr (fun c hc => by simp [hline c hc])
    rw [lex?_of_longest (longest_comment line), reach_comment, htake]
    simp [token?]
  induction h with
  | @here line hline =>
    have hline' : ∀ c ∈ line ++ ds, isLineEnd c = false := by
      intro c hc
      obtain hc | hc := List.mem_append.mp hc
      · exact hline c hc
      · rw [hds c hc]
        decide
    exact ⟨.here hline', (hwhole _ hline').trans (hwhole _ hline).symm⟩
  | @later cs sh n hlong hin ih =>
    cases ds with
    | nil =>
      rw [List.append_nil]
      exact ⟨.later hlong hin, rfl⟩
    | cons d ds =>
      have hlt : n < cs.length := by
        by_contra hge
        exact hin.ne_nil (List.drop_eq_nil_of_le (Nat.le_of_not_lt hge))
      have hlong' : longest (cs ++ d :: ds) all = some (sh, n) :=
        longest_append_of_lt (hds d (by simp) ▸ .semi) hlong hlt
      have hdrop : (cs ++ d :: ds).drop n = cs.drop n ++ d :: ds :=
        List.drop_append_of_le_length (Nat.le_of_lt hlt)
      refine ⟨.later hlong' (hdrop ▸ ih.1), ?_⟩
      rw [lex?_of_longest hlong', lex?_of_longest hlong, hdrop, ih.2,
        List.take_append_of_le_length (Nat.le_of_lt hlt)]

theorem exists_lineEnd {line : List Char}
    (h : longest ('-' :: '-' :: line ++ ';' :: rest) all = some (sh, n)) (hle : n ≤ line.length + 2) :
    ∃ c ∈ line, isLineEnd c = true := by
  by_contra hno
  simp only [not_exists, not_and, Bool.not_eq_true] at hno
  have htake : (line ++ ';' :: rest).takeWhile (fun c => !isLineEnd c) =
      line ++ (';' :: rest).takeWhile (fun c => !isLineEnd c) := by
    rw [List.takeWhile_append, if_pos]
    rw [List.takeWhile_eq_self_iff.mpr (fun c hc => by simp [hno c hc])]
  have hreach := (reach_of_longest h).2 _ comment.mem_all
  rw [List.cons_append, List.cons_append, reach_comment, htake,
    List.takeWhile_cons_of_pos (by decide)] at hreach
  simp only [List.length_append, List.length_cons] at hreach
  omega

theorem longest_of_append_semi (h : longest (front ++ ';' :: rest) all = some (sh, n))
    (hle : n ≤ front.length) : longest front all = some (sh, n) := by
  have hfront : front ≠ [] := by
    rintro rfl
    exact Nat.not_lt_of_le hle (longest_pos h)
  rw [← h]
  refine longest_congr (fun sh' _ => (reach_append_semi hfront (fun line hline => ?_) sh').symm)
  subst hline
  exact exists_lineEnd h hle

theorem toList_append_eq {α : Type} {o : Option α} {a : α} {ts us vs : List α}
    (h : o.toList ++ ts = us ++ a :: vs) :
    (o = some a ∧ us = [] ∧ ts = vs) ∨ ∃ us', us = o.toList ++ us' ∧ ts = us' ++ a :: vs := by
  cases o with
  | none => exact Or.inr ⟨us, rfl, h⟩
  | some b =>
    cases us with
    | nil =>
      obtain ⟨rfl, rfl⟩ := List.cons.inj h
      exact Or.inl ⟨rfl, rfl, rfl⟩
    | cons u us =>
      obtain ⟨rfl, hts⟩ := List.cons.inj h
      exact Or.inr ⟨us, rfl, hts⟩

theorem eq_cons_of_longest_semi (h : longest cs all = some (.symbol .semi, n)) :
    ∃ rest, cs = ';' :: rest ∧ n = 1 := by
  obtain ⟨c, cs, rfl⟩ := List.exists_cons_of_ne_nil (ne_nil_of_longest h)
  by_cases hc : ';' = c
  · subst hc
    obtain ⟨-, rfl⟩ := Prod.mk.inj (Option.some.inj (h.symm.trans (longest_semi cs)))
    exact ⟨cs, rfl, rfl⟩
  · have hreach := (reach_of_longest h).1
    have hpos := longest_pos h
    simp [reach, Symbol.chars, List.isPrefixOf, hc] at hreach
    omega

/-- A shape before which a text is cut leads into no comment that the rest is not in. -/
theorem InComment.of_cut (h : InComment front)
    (hwhole : longest (front ++ ';' :: rest) all = some (sh, n))
    (hlong : longest front all = some (sh, n)) : InComment (front.drop n) := by
  cases h with
  | here hline =>
    obtain ⟨c, hc, hend⟩ := exists_lineEnd hwhole (le_length_of_longest hlong)
    rw [hline c hc] at hend
    cases hend
  | later hlong' hin =>
    obtain ⟨-, rfl⟩ := Prod.mk.inj (Option.some.inj (hlong.symm.trans hlong'))
    exact hin

theorem exists_of_lex?_semi (h : lex? cs = some (us ++ .symbol .semi :: vs)) :
    ∃ front rest, cs = front ++ ';' :: rest ∧ ¬InComment front ∧ lex? front = some us ∧
      lex? rest = some vs := by
  induction cs using lex_induction generalizing us with
  | nil => simp at h
  | stuck cs hcs hnone => simp [lex?_of_none hnone hcs] at h
  | cut cs sh n hlong ih =>
    rw [lex?_of_longest hlong] at h
    obtain ⟨ts, hts, h⟩ := Option.map_eq_some_iff.mp h
    -- the semicolon is the first shape, or it comes later
    obtain ⟨htok, rfl, rfl⟩ | ⟨us', rfl, rfl⟩ := toList_append_eq h
    · obtain rfl : sh = .symbol .semi := by
        cases sh <;> simp [token?] at htok
        rw [htok]
      obtain ⟨rest, rfl, rfl⟩ := eq_cons_of_longest_semi hlong
      exact ⟨[], rest, rfl, fun h => h.ne_nil rfl, lex?_nil, hts⟩
    · obtain ⟨front, rest, hdrop, hopen, hfront, hrest⟩ := ih hts
      have hle := le_length_of_longest hlong
      have hcs : cs = (cs.take n ++ front) ++ ';' :: rest := by
        rw [List.append_assoc, ← hdrop, List.take_append_drop]
      have hlen : (cs.take n).length = n := List.length_take_of_le hle
      have hlong' : longest (cs.take n ++ front) all = some (sh, n) :=
        longest_of_append_semi (hcs ▸ hlong) (by rw [List.length_append, hlen]; omega)
      have htake : (cs.take n ++ front).take n = cs.take n := by
        rw [List.take_append_of_le_length (Nat.le_of_eq hlen.symm), List.take_take, Nat.min_self]
      have hdrop' : (cs.take n ++ front).drop n = front := List.drop_left' hlen
      refine ⟨cs.take n ++ front, rest, hcs, fun hin => hopen ?_, ?_, hrest⟩
      · exact hdrop' ▸ hin.of_cut (hcs ▸ hlong) hlong'
      · rw [lex?_of_longest hlong', htake, hdrop', hfront]
        rfl

theorem lex?_blanks (hds : ∀ c ∈ ds, isBlank c = true) : lex? ds = some [] := by
  cases ds with
  | nil => exact lex?_nil
  | cons d ds =>
    have htake : (d :: ds).takeWhile isBlank = d :: ds := List.takeWhile_eq_self_iff.mpr hds
    rw [lex?_of_longest (longest_blank (hds d (by simp))), reach, htake, List.drop_length]
    simp [token?]

/-- A comment that is the whole of a text takes in some of the blanks after it. -/
theorem lex?_comment_append_blanks {line : List Char} {sh : Shape}
    (h : longest ('-' :: '-' :: line) all = some (sh, ('-' :: '-' :: line).length))
    (hds : ∀ c ∈ ds, isBlank c = true) :
    lex? ('-' :: '-' :: line ++ ds) = lex? ('-' :: '-' :: line) := by
  obtain ⟨rfl, hlen⟩ := Prod.mk.inj (Option.some.inj (h.symm.trans (longest_comment line)))
  have hge := reach_comment_append line ds
  rw [← hlen] at hge
  obtain ⟨k, hk⟩ := Nat.exists_eq_add_of_le hge
  rw [List.cons_append, List.cons_append, lex?_of_longest (longest_comment _), lex?_of_longest h,
    List.drop_length, hk, ← List.cons_append, ← List.cons_append, List.drop_length_add_append,
    lex?_blanks (fun x hx => hds x (List.mem_of_mem_drop hx)), lex?_nil]
  rfl

theorem lex?_append_blanks (hds : ∀ c ∈ ds, isBlank c = true) : lex? (cs ++ ds) = lex? cs := by
  cases ds with
  | nil => rw [List.append_nil]
  | cons d ds =>
  have hd : Separates d := .blank (hds d (by simp))
  induction cs using lex_induction with
  | nil => rw [List.nil_append, lex?_blanks hds, lex?_nil]
  | stuck cs hcs hnone =>
    rw [lex?_of_none hnone hcs, lex?_of_none (longest_append_of_none hd hnone hcs) (by simp)]
  | cut cs sh n hlong ih =>
    have hle := le_length_of_longest hlong
    have hsame : longest (cs ++ d :: ds) all = some (sh, n) →
        lex? (cs ++ d :: ds) = lex? cs := fun hlong' => by
      rw [lex?_of_longest hlong', lex?_of_longest hlong, List.drop_append_of_le_length hle, ih,
        List.take_append_of_le_length hle]
    by_cases hlt : n < cs.length
    · exact hsame (longest_append_of_lt hd hlong hlt)
    obtain rfl : n = cs.length := Nat.le_antisymm hle (Nat.le_of_not_lt hlt)
    obtain ⟨c, cs, rfl⟩ := List.exists_cons_of_ne_nil (ne_nil_of_longest hlong)
    -- the text is one shape, which goes on into the blanks if it is a blank or a comment
    by_cases hblank : isBlank c = true
    · obtain ⟨rfl, hlen⟩ := Prod.mk.inj (Option.some.inj (hlong.symm.trans (longest_blank hblank)))
      have hcs := List.takeWhile_eq_self_iff.mp ((List.takeWhile_prefix _).eq_of_length hlen.symm)
      rw [lex?_blanks hcs, lex?_blanks (List.forall_mem_append.mpr ⟨hcs, hds⟩)]
    by_cases hstart : ∃ r, c :: cs = '-' :: '-' :: r
    · obtain ⟨line, hline⟩ := hstart
      rw [hline] at hlong ⊢
      exact lex?_comment_append_blanks hlong hds
    · exact hsame (hlong ▸ longest_append_token hd hblank (fun r hr => hstart ⟨r, hr⟩))

theorem drop_reach_blank (cs : List Char) : cs.drop (blank.reach cs) = cs.dropWhile isBlank := by
  conv => lhs; rw [← List.takeWhile_append_dropWhile (p := isBlank) (l := cs)]
  exact List.drop_left' (by rw [reach, List.takeWhile_append_dropWhile])

theorem lex?_dropWhile_blank (cs : List Char) : lex? (cs.dropWhile isBlank) = lex? cs := by
  cases cs with
  | nil => rfl
  | cons c cs =>
    by_cases hc : isBlank c = true
    · rw [lex?_of_longest (longest_blank hc), drop_reach_blank]
      cases lex? ((c :: cs).dropWhile isBlank) <;> rfl
    · rw [List.dropWhile_cons_of_neg hc]

theorem lex?_trimBlanks (cs : List Char) : lex? (trimBlanks cs) = lex? cs := by
  let rev := (cs.dropWhile isBlank).reverse
  have hsplit : cs.dropWhile isBlank = trimBlanks cs ++ (rev.takeWhile isBlank).reverse := by
    rw [trimBlanks, ← List.reverse_append, List.takeWhile_append_dropWhile, List.reverse_reverse]
  rw [← lex?_dropWhile_blank cs, hsplit]
  refine (lex?_append_blanks (fun c hc => ?_)).symm
  exact List.mem_takeWhile_imp (List.mem_reverse.mp hc)

end Tokens

end LetML

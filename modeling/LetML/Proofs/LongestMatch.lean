import LetML.Proofs.Spelling

namespace LetML

variable {cs w w' rest : List Char} {sh sh' : Shape} {n : Nat} {s : Symbol}

theorem length_le_takeWhile {p : Char → Bool} (hw : ∀ c ∈ w, p c = true) (hcs : w <+: cs) :
    w.length ≤ (cs.takeWhile p).length := by
  obtain ⟨rest, rfl⟩ := hcs
  have h := Shape.length_takeWhile_append_ge p w rest
  rwa [List.takeWhile_eq_self_iff.mpr hw] at h

theorem take_length_takeWhile (p : Char → Bool) (cs : List Char) :
    cs.take (cs.takeWhile p).length = cs.takeWhile p :=
  List.prefix_iff_eq_take.mp (List.takeWhile_prefix p) |>.symm

theorem mem_takeWhile {p : Char → Bool} : ∀ c ∈ cs.takeWhile p, p c = true :=
  fun _ => List.mem_takeWhile_imp

namespace Shape

/-- The texts that have a shape. Those of blanks include the empty one, which is never read. -/
def Matches : Shape → List Char → Prop
  | symbol s, w => w = s.chars
  | number, w => w ≠ [] ∧ ∀ c ∈ w, isDecimal c = true
  | ident, w => ∃ c cs, w = c :: cs ∧ isIdentStart c = true ∧ ∀ d ∈ cs, isIdentRest d = true
  | blank, w => ∀ c ∈ w, isBlank c = true
  | comment, w => ∃ line ends, w = '-' :: '-' :: (line ++ ends) ∧
      (∀ c ∈ line, isLineEnd c = false) ∧ ∀ c ∈ ends, isLineEnd c = true

theorem matches_comment_take (cs : List Char) :
    comment.Matches (('-' :: '-' :: cs).take (comment.reach ('-' :: '-' :: cs))) := by
  have hline : ∀ c ∈ cs.takeWhile (fun c => !isLineEnd c), isLineEnd c = false := fun c hc => by
    simpa using List.mem_takeWhile_imp hc
  refine ⟨_, (cs.drop (cs.takeWhile (fun c => !isLineEnd c)).length).takeWhile isLineEnd, ?_, hline,
    mem_takeWhile⟩
  rw [reach_comment, List.take_succ_cons, List.take_succ_cons, List.take_add, take_length_takeWhile,
    take_length_takeWhile]

theorem matches_take_reach (h : 0 < sh.reach cs) : sh.Matches (cs.take (sh.reach cs)) := by
  cases sh with
  | symbol s =>
    rw [reach] at h ⊢
    split at h
    · rename_i hprefix
      rw [if_pos hprefix]
      exact (List.prefix_iff_eq_take.mp (List.isPrefixOf_iff_prefix.mp hprefix)).symm
    · exact (Nat.lt_irrefl 0 h).elim
  | number =>
    rw [reach] at h ⊢
    rw [take_length_takeWhile]
    exact ⟨List.length_pos_iff.mp h, mem_takeWhile⟩
  | ident =>
    cases cs with
    | nil => exact (Nat.lt_irrefl 0 h).elim
    | cons c cs =>
      rw [reach] at h ⊢
      split at h
      · rename_i hc
        rw [if_pos hc, List.take_succ_cons, take_length_takeWhile]
        exact ⟨c, _, rfl, hc, mem_takeWhile⟩
      · exact (Nat.lt_irrefl 0 h).elim
  | blank =>
    rw [reach, take_length_takeWhile]
    exact mem_takeWhile
  | comment =>
    by_cases hstart : ∃ r, cs = '-' :: '-' :: r
    · obtain ⟨r, rfl⟩ := hstart
      exact matches_comment_take r
    · rw [reach_comment_eq_zero fun r hr => hstart ⟨r, hr⟩] at h
      exact (Nat.lt_irrefl 0 h).elim

theorem length_le_reach (hw : sh.Matches w) (hcs : w <+: cs) : w.length ≤ sh.reach cs := by
  cases sh with
  | symbol s =>
    obtain rfl := hw
    rw [reach, if_pos (List.isPrefixOf_iff_prefix.mpr hcs)]
  | number => exact length_le_takeWhile hw.2 hcs
  | ident =>
    obtain ⟨c, w, rfl, hc, hw⟩ := hw
    obtain ⟨rest, rfl⟩ := hcs
    rw [List.cons_append, reach, if_pos hc]
    exact Nat.succ_le_succ (length_le_takeWhile hw (List.prefix_append w rest))
  | blank => exact length_le_takeWhile hw hcs
  | comment =>
    obtain ⟨line, ends, rfl, hline, hends⟩ := hw
    obtain ⟨rest, rfl⟩ := hcs
    have hline' : ∀ c ∈ line, (!isLineEnd c) = true := fun c hc => by simp [hline c hc]
    rw [List.cons_append, List.cons_append, reach_comment, List.append_assoc]
    simp only [List.length_cons, List.length_append]
    cases ends with
    | nil =>
      have := length_le_takeWhile hline' (List.prefix_append line ([] ++ rest))
      rw [List.length_nil]
      omega
    | cons e ends =>
      -- the line ends with the first of its ends
      have hstop : (line ++ (e :: ends ++ rest)).takeWhile (fun c => !isLineEnd c) = line := by
        rw [List.cons_append, takeWhile_append_stop (by simp [hends e List.mem_cons_self]),
          List.takeWhile_eq_self_iff.mpr hline']
      rw [hstop, List.drop_left]
      have := length_le_takeWhile hends (List.prefix_append (e :: ends) rest)
      omega

theorem reach_eq_of_append (h : sh.reach (w ++ rest) ≤ w.length) :
    sh.reach (w ++ rest) = sh.reach w := by
  refine Nat.le_antisymm ?_ ?_
  · obtain hzero | hpos := Nat.eq_zero_or_pos (sh.reach (w ++ rest))
    · exact hzero ▸ Nat.zero_le _
    · have hmatch := matches_take_reach hpos
      rw [List.take_append_of_le_length h] at hmatch
      have hle := length_le_reach hmatch (List.take_prefix _ w)
      rwa [List.length_take_of_le h] at hle
  · obtain hzero | hpos := Nat.eq_zero_or_pos (sh.reach w)
    · exact hzero ▸ Nat.zero_le _
    · have hle := length_le_reach (matches_take_reach hpos)
        ((List.take_prefix _ w).trans (List.prefix_append w rest))
      rwa [List.length_take_of_le (reach_le sh w)] at hle

theorem longest_of_append (h : longest (w ++ rest) all = some (sh, w.length)) :
    longest w all = some (sh, w.length) := by
  rw [← h]
  exact longest_congr fun sh' hsh' => (reach_eq_of_append ((reach_of_longest h).2 sh' hsh')).symm

/-- A text is taken for the shape that it has, and for a symbol if it is spelled as one. -/
theorem longest_of_matches (hne : w ≠ []) (hw : sh.Matches w)
    (hs : ∀ s : Symbol, w = s.chars → sh = symbol s) : longest w all = some (sh, w.length) := by
  by_cases hsymbol : ∃ s : Symbol, w = s.chars
  · obtain ⟨s, rfl⟩ := hsymbol
    rw [hs s rfl]
    exact longest_chars s
  have hnot : ∀ s : Symbol, w ≠ s.chars := fun s h => hsymbol ⟨s, h⟩
  cases sh with
  | symbol s => exact (hnot s hw).elim
  | number => exact longest_digits hne hw.2
  | ident =>
    have hname : IsName (String.ofList w) := by
      refine ⟨?_, fun s _ h => hnot s ?_⟩
      · rwa [String.toList_ofList]
      · simpa [Symbol.spelling] using congrArg String.toList h
    have hlong := hname.longest
    rwa [String.toList_ofList] at hlong
  | blank =>
    obtain ⟨c, w, rfl⟩ := List.exists_cons_of_ne_nil hne
    rw [longest_blank (hw c List.mem_cons_self), reach, List.takeWhile_eq_self_iff.mpr hw]
  | comment =>
    have hle := length_le_reach hw (List.prefix_refl w)
    obtain ⟨line, ends, rfl, -⟩ := hw
    rw [longest_comment, Nat.le_antisymm (reach_le _ _) hle]

end Shape

/-- A text is cut off where it stands: it has the shape, no beginning of it and what follows that is
longer has any shape, and it is taken for a symbol if it is spelled as one. -/
structure Munch (sh : Shape) (w rest : List Char) : Prop where
  ne_nil : w ≠ []
  hasShape : sh.Matches w
  longest : ∀ sh' w', Shape.Matches sh' w' → w' <+: w ++ rest → w'.length ≤ w.length
  symbol : ∀ s : Symbol, w = s.chars → sh = .symbol s

def Stuck (cs : List Char) : Prop := cs ≠ [] ∧ ∀ sh w, Shape.Matches sh w → w <+: cs → w = []

open Shape

theorem munch_iff : Munch sh w rest ↔ longest (w ++ rest) all = some (sh, w.length) := by
  constructor
  · intro h
    have hreach := length_le_reach h.hasShape (List.prefix_append w rest)
    have hpos := List.length_pos_iff.mpr h.ne_nil
    cases hlong : Shape.longest (w ++ rest) all with
    | none => rw [longest_eq_none.mp hlong sh sh.mem_all] at hreach; omega
    | some p =>
      obtain ⟨sh', n⟩ := p
      obtain ⟨rfl, hle⟩ := reach_of_longest hlong
      have hmatch := matches_take_reach (longest_pos hlong)
      have hlen := h.longest sh' _ hmatch (List.take_prefix _ _)
      rw [List.length_take_of_le (reach_le sh' _)] at hlen
      have heq : sh'.reach (w ++ rest) = w.length :=
        Nat.le_antisymm hlen (Nat.le_trans hreach (hle sh sh.mem_all))
      rw [heq] at hlong ⊢
      rw [← longest_of_append hlong]
      exact longest_of_matches h.ne_nil h.hasShape h.symbol
  · intro h
    obtain ⟨hreach, hle⟩ := reach_of_longest h
    have hpos := longest_pos h
    have hw := longest_of_append h
    refine ⟨List.length_pos_iff.mp hpos, ?_, fun sh' w' hw' hprefix => ?_, fun s hs => ?_⟩
    · have hmatch := matches_take_reach (hreach ▸ hpos)
      rwa [hreach, List.take_left] at hmatch
    · exact Nat.le_trans (length_le_reach hw' hprefix) (hle sh' sh'.mem_all)
    · subst hs
      rw [longest_chars s] at hw
      exact (Prod.mk.inj (Option.some.inj hw)).1.symm

theorem stuck_iff : Stuck cs ↔ cs ≠ [] ∧ longest cs all = none := by
  refine and_congr_right fun _ => ?_
  rw [longest_eq_none]
  constructor
  · intro h sh _
    by_contra hne
    have hpos := Nat.pos_of_ne_zero hne
    have hnil := congrArg List.length (h sh _ (matches_take_reach hpos) (List.take_prefix _ _))
    rw [List.length_take_of_le (reach_le sh cs)] at hnil
    exact hne hnil
  · intro h sh w hw hprefix
    have hle := length_le_reach hw hprefix
    rw [h sh sh.mem_all] at hle
    exact List.length_eq_zero_iff.mp (Nat.le_zero.mp hle)

end LetML

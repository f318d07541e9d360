import LetML.Proofs.Grammar

namespace LetML

/-- How tightly a token binds where it comes after an operand: an operand, then the operators from
the tightest to the loosest, then the tokens that continue no expression. -/
def Token.tier : Token → Nat
  | .number _ | .ident _ => 0
  | .symbol s => match s with
    | .lparen | .lbracket | .kwCase | .kwTrue | .capTrue | .kwFalse | .capFalse => 0
    | .star => 1
    | .plus | .minus => 2
    | .colons => 3
    | .eq | .ne | .lt | .le | .gt | .ge => 4
    | .andAnd => 5
    | .orOr => 6
    | .bar => 7
    | _ => 8

namespace Nonterminal

/-- Whether a token after a text of a nonterminal may go on with that text. -/
def continues : Nonterminal → Token → Bool
  | atom, _ | atomPattern, _ => false
  | app, t => t.tier ≤ 0
  | mul, t => t.tier ≤ 1
  | add, t => t.tier ≤ 2
  | cons, t => t.tier ≤ 3
  | cmp, t => t.tier ≤ 4
  | and, t => t.tier ≤ 5
  | or, t | expr, t | arm, t | clause, t => t.tier ≤ 6
  | arms, t | clauses, t => t.tier ≤ 7
  | elems, t | patternElems, t => t ≠ .symbol .rbracket
  | params, t => t ≠ .symbol .assign
  | pattern, t => t = .symbol .colons
  | decl, t => t ≠ .symbol .semi
  | statement, _ | program, _ => true

def starts : Nonterminal → Token → Bool
  | or, t | and, t | cmp, t | cons, t | add, t | mul, t | app, t | atom, t => t.tier = 0
  | expr, t | decl, t | statement, t =>
    t.tier = 0 ∨ t = .symbol .backslash ∨ t = .symbol .kwLet ∨ t = .symbol .kwIf
  | arm, t | arms, t | pattern, t | atomPattern, t => t.tier = 0 ∨ t = .symbol .underscore
  | clause, t | clauses, t => t.tier = 0
  | elems, _ | params, _ | patternElems, _ | program, _ => true

def nullable : Nonterminal → Bool
  | elems | params | patternElems | program => true
  | _ => false

end Nonterminal

open Nonterminal

variable {n k : Nonterminal} {r : List Token} {t : Token}

/-- What follows a text of a nonterminal does not go on with it. -/
def Stop (n : Nonterminal) (r : List Token) : Prop := ∀ t ∈ r.head?, n.continues t = false

theorem stop_nil (n : Nonterminal) : Stop n [] := by simp [Stop]

theorem stop_cons : Stop n (t :: r) ↔ n.continues t = false := by simp [Stop]

theorem Stop.mono (h : Stop n r) (hnk : ∀ t, n.continues t = false → k.continues t = false) :
    Stop k r := fun t ht => hnk t (h t ht)

theorem truthSymbol_tier (capital b : Bool) : (Token.symbol (truthSymbol capital b)).tier = 0 := by
  cases capital <;> cases b <;> rfl

namespace ParseTree

theorem exists_first (T : ParseTree n) (hn : n.nullable = false) :
    ∃ t ts, T.tokens = t :: ts ∧ n.starts t = true := by
  induction T with
  | lambda | letIn | cond | number | var | paren | brackets | case | clause | wild | patternVar
  | patternNumber | patternBrackets | patternParen | letDecl => exact ⟨_, _, rfl, rfl⟩
  | noElem | lastElem | moreElems | noParam | moreParams | noPattern | lastPattern | morePatterns
  | noDecl | moreDecls => cases hn
  | truth capital b | patternTruth capital b =>
    exact ⟨_, _, rfl, by simp [starts, truthSymbol_tier]⟩
  | ofOr e ih | evalDecl e ih =>
    obtain ⟨t, ts, h, ht⟩ := ih rfl
    exact ⟨t, ts, h, by simp_all [starts]⟩
  | ofAnd e ih | ofCmp e ih | ofCons e ih | ofAdd e ih | ofMul e ih | ofApp e ih | ofAtom e ih
  | lastArm e ih | lastClause e ih | ofAtomPattern e ih =>
    obtain ⟨t, ts, h, ht⟩ := ih rfl
    exact ⟨t, ts, h, ht⟩
  | or l r ih | and l r ih | cmp l c r ih | cons l r ih | add l a r ih | mul l r ih | app l r ih
  | arm l r ih | moreArms l r ih | moreClauses l r ih | patternCons l r ih =>
    obtain ⟨t, ts, h, ht⟩ := ih rfl
    exact ⟨t, _, by rw [tokens, h]; rfl, ht⟩
  | statement d semicolon ih =>
    obtain ⟨t, ts, h, ht⟩ := ih rfl
    exact ⟨t, _, by rw [tokens, h]; rfl, ht⟩

/-- A derivation is known from any text that starts with its own, if what follows does not go on
with it. -/
def Unique (T : ParseTree n) : Prop :=
  ∀ (T' : ParseTree n) (r r' : List Token), T.tokens ++ r = T'.tokens ++ r' → Stop n r → Stop n r' →
    T = T' ∧ r = r'

/-- A level of the grammar where an operator associates to the right: a text of the tighter level
`k`, or one that `s` and a text of the same level follow. -/
structure RightLevel (n k : Nonterminal) (s : Symbol)
    (infx : ParseTree k → ParseTree n → ParseTree n) (unit : ParseTree k → ParseTree n) : Prop where
  tokens_infx : ∀ l r, (infx l r).tokens = l.tokens ++ .symbol s :: r.tokens
  tokens_unit : ∀ e, (unit e).tokens = e.tokens
  cases : ∀ T : ParseTree n, (∃ l r, T = infx l r) ∨ ∃ e, T = unit e
  stops : k.continues (.symbol s) = false
  goes : n.continues (.symbol s) = true
  tighter : ∀ t, n.continues t = false → k.continues t = false

namespace RightLevel

variable {s : Symbol} {infx : ParseTree k → ParseTree n → ParseTree n}
  {unit : ParseTree k → ParseTree n} {l e : ParseTree k} {r : ParseTree n}

theorem unique_infx (H : RightLevel n k s infx unit) (hl : Unique l) (hr : Unique r) :
    Unique (infx l r) := by
  intro T' u u' h hu hu'
  obtain ⟨l', r', rfl⟩ | ⟨e, rfl⟩ := H.cases T'
  · simp only [H.tokens_infx, List.append_assoc, List.cons_append] at h
    obtain ⟨rfl, hr'⟩ := hl l' _ _ h (stop_cons.mpr H.stops) (stop_cons.mpr H.stops)
    obtain ⟨rfl, hrest⟩ := hr r' _ _ (List.cons.inj hr').2 hu hu'
    exact ⟨rfl, hrest⟩
  · simp only [H.tokens_infx, H.tokens_unit, List.append_assoc, List.cons_append] at h
    obtain ⟨-, rfl⟩ := hl e _ _ h (stop_cons.mpr H.stops) (hu'.mono H.tighter)
    cases H.goes.symm.trans (stop_cons.mp hu')

theorem unique_unit (H : RightLevel n k s infx unit) (he : Unique e) : Unique (unit e) := by
  intro T' u u' h hu hu'
  obtain ⟨l', r', rfl⟩ | ⟨e', rfl⟩ := H.cases T'
  · simp only [H.tokens_infx, H.tokens_unit, List.append_assoc, List.cons_append] at h
    obtain ⟨-, rfl⟩ := he l' _ _ h (hu.mono H.tighter) (stop_cons.mpr H.stops)
    cases H.goes.symm.trans (stop_cons.mp hu)
  · simp only [H.tokens_unit] at h
    obtain ⟨rfl, hrest⟩ := he e' _ _ h (hu.mono H.tighter) (hu'.mono H.tighter)
    exact ⟨rfl, hrest⟩

end RightLevel

theorem rightLevel_or : RightLevel .or .and .orOr or ofAnd where
  tokens_infx _ _ := rfl
  tokens_unit _ := rfl
  cases T := by
    cases T with
    | or l r => exact Or.inl ⟨l, r, rfl⟩
    | ofAnd e => exact Or.inr ⟨e, rfl⟩
  stops := rfl
  goes := rfl
  tighter t h := by simp only [continues, decide_eq_false_iff_not] at h ⊢; omega

theorem rightLevel_and : RightLevel .and .cmp .andAnd and ofCmp where
  tokens_infx _ _ := rfl
  tokens_unit _ := rfl
  cases T := by
    cases T with
    | and l r => exact Or.inl ⟨l, r, rfl⟩
    | ofCmp e => exact Or.inr ⟨e, rfl⟩
  stops := rfl
  goes := rfl
  tighter t h := by simp only [continues, decide_eq_false_iff_not] at h ⊢; omega

theorem rightLevel_cons : RightLevel .cons .add .colons cons ofAdd where
  tokens_infx _ _ := rfl
  tokens_unit _ := rfl
  cases T := by
    cases T with
    | cons l r => exact Or.inl ⟨l, r, rfl⟩
    | ofAdd e => exact Or.inr ⟨e, rfl⟩
  stops := rfl
  goes := rfl
  tighter t h := by simp only [continues, decide_eq_false_iff_not] at h ⊢; omega

theorem rightLevel_arms : RightLevel .arms .arm .bar moreArms lastArm where
  tokens_infx _ _ := rfl
  tokens_unit _ := rfl
  cases T := by
    cases T with
    | moreArms l r => exact Or.inl ⟨l, r, rfl⟩
    | lastArm e => exact Or.inr ⟨e, rfl⟩
  stops := rfl
  goes := rfl
  tighter t h := by simp only [continues, decide_eq_false_iff_not] at h ⊢; omega

theorem rightLevel_clauses : RightLevel .clauses .clause .bar moreClauses lastClause where
  tokens_infx _ _ := rfl
  tokens_unit _ := rfl
  cases T := by
    cases T with
    | moreClauses l r => exact Or.inl ⟨l, r, rfl⟩
    | lastClause e => exact Or.inr ⟨e, rfl⟩
  stops := rfl
  goes := rfl
  tighter t h := by simp only [continues, decide_eq_false_iff_not] at h ⊢; omega

theorem rightLevel_pattern :
    RightLevel .pattern .atomPattern .colons patternCons ofAtomPattern where
  tokens_infx _ _ := rfl
  tokens_unit _ := rfl
  cases T := by
    cases T with
    | patternCons l r => exact Or.inl ⟨l, r, rfl⟩
    | ofAtomPattern e => exact Or.inr ⟨e, rfl⟩
  stops := rfl
  goes := rfl
  tighter _ _ := rfl

/-- A level where operators associate to the left: a text of the tighter level `k`, then any number
of such texts, each after an operator. -/
structure LeftLevel (n k : Nonterminal) {ω : Type} (sep : ω → List Token)
    (infx : ParseTree n → ω → ParseTree k → ParseTree n) (unit : ParseTree k → ParseTree n) :
    Prop where
  tokens_infx : ∀ l w r, (infx l w r).tokens = l.tokens ++ (sep w ++ r.tokens)
  tokens_unit : ∀ e, (unit e).tokens = e.tokens
  stops : ∀ w (r : ParseTree k) u, Stop k (sep w ++ r.tokens ++ u)
  goes : ∀ w (r : ParseTree k) u, ¬Stop n (sep w ++ r.tokens ++ u)
  sep_inj : ∀ w w' u u', sep w ++ u = sep w' ++ u' → w = w' ∧ u = u'
  tighter : ∀ t, n.continues t = false → k.continues t = false

/-- A first operand and those that follow it, each with its operator. -/
def chain {ω : Type} (infx : ParseTree n → ω → ParseTree k → ParseTree n)
    (unit : ParseTree k → ParseTree n) (b : ParseTree k) (is : List (ω × ParseTree k)) :
    ParseTree n :=
  is.foldl (fun l i => infx l i.1 i.2) (unit b)

def UniqueChain {ω : Type} (infx : ParseTree n → ω → ParseTree k → ParseTree n)
    (unit : ParseTree k → ParseTree n) (T : ParseTree n) : Prop :=
  ∃ b is, T = chain infx unit b is ∧ Unique b ∧ ∀ i ∈ is, Unique i.2

namespace LeftLevel

variable {ω : Type} {sep : ω → List Token} {infx : ParseTree n → ω → ParseTree k → ParseTree n}
  {unit : ParseTree k → ParseTree n}

def rest (sep : ω → List Token) (is : List (ω × ParseTree k)) : List Token :=
  is.flatMap (fun i => sep i.1 ++ i.2.tokens)

theorem tokens_chain (H : LeftLevel n k sep infx unit) (b : ParseTree k)
    (is : List (ω × ParseTree k)) : (chain infx unit b is).tokens = b.tokens ++ rest sep is := by
  have hfold : ∀ T : ParseTree n,
      (is.foldl (fun l i => infx l i.1 i.2) T).tokens = T.tokens ++ rest sep is := by
    induction is with
    | nil => simp [rest]
    | cons i is ih =>
      intro T
      rw [List.foldl_cons, ih, H.tokens_infx]
      simp [rest]
  rw [chain, hfold, H.tokens_unit]

theorem stop_rest (H : LeftLevel n k sep infx unit) (is : List (ω × ParseTree k)) {u : List Token}
    (hu : Stop n u) : Stop k (rest sep is ++ u) := by
  cases is with
  | nil => exact hu.mono H.tighter
  | cons i is =>
    rw [rest, List.flatMap_cons, List.append_assoc (sep i.1 ++ i.2.tokens)]
    exact H.stops i.1 i.2 _

theorem rest_inj (H : LeftLevel n k sep infx unit) {is is' : List (ω × ParseTree k)}
    (his : ∀ i ∈ is, Unique i.2) {u u' : List Token} (hu : Stop n u) (hu' : Stop n u')
    (h : rest sep is ++ u = rest sep is' ++ u') : is = is' ∧ u = u' := by
  -- from the left, one operand at a time; a chain that ends first would be followed by an operator
  induction is generalizing is' with
  | nil =>
    cases is' with
    | nil => exact ⟨rfl, h⟩
    | cons i' is' =>
      rw [rest, rest, List.flatMap_nil, List.nil_append, List.flatMap_cons, List.append_assoc] at h
      exact (H.goes i'.1 i'.2 _ (h ▸ hu)).elim
  | cons i is ih =>
    cases is' with
    | nil =>
      rw [rest, rest, List.flatMap_nil, List.nil_append, List.flatMap_cons, List.append_assoc] at h
      exact (H.goes i.1 i.2 _ (h ▸ hu')).elim
    | cons i' is' =>
      obtain ⟨w, r⟩ := i
      obtain ⟨w', r'⟩ := i'
      simp only [rest, List.flatMap_cons, List.append_assoc] at h
      obtain ⟨rfl, hr⟩ := H.sep_inj _ _ _ _ h
      obtain ⟨rfl, hrest⟩ := his (w, r) (by simp) r' _ _ hr (H.stop_rest is hu)
        (H.stop_rest is' hu')
      obtain ⟨rfl, hend⟩ := ih (fun i hi => his i (by simp [hi])) hrest
      exact ⟨rfl, hend⟩

theorem unique (H : LeftLevel n k sep infx unit) (hcases : ∀ T, ∃ b is, T = chain infx unit b is)
    {T : ParseTree n} (hT : UniqueChain infx unit T) : Unique T := by
  obtain ⟨b, is, rfl, hb, his⟩ := hT
  intro T' u u' h hu hu'
  obtain ⟨b', is', rfl⟩ := hcases T'
  simp only [H.tokens_chain, List.append_assoc] at h
  obtain ⟨rfl, hrest⟩ := hb b' _ _ h (H.stop_rest is hu) (H.stop_rest is' hu')
  obtain ⟨rfl, hend⟩ := H.rest_inj his hu hu' hrest
  exact ⟨rfl, hend⟩

end LeftLevel

namespace UniqueChain

variable {ω : Type} {infx : ParseTree n → ω → ParseTree k → ParseTree n}
  {unit : ParseTree k → ParseTree n}

theorem extend {l : ParseTree n} {r : ParseTree k} (hl : UniqueChain infx unit l) (hr : Unique r)
    (w : ω) : UniqueChain infx unit (infx l w r) := by
  obtain ⟨b, is, rfl, hb, his⟩ := hl
  refine ⟨b, is ++ [(w, r)], by simp [chain], hb, fun i hi => ?_⟩
  rcases List.mem_append.mp hi with hi | hi
  · exact his i hi
  · rw [List.mem_singleton.mp hi]
    exact hr

theorem single {e : ParseTree k} (he : Unique e) : UniqueChain infx unit (unit e) :=
  ⟨e, [], rfl, he, by simp⟩

end UniqueChain

theorem not_stop_of_starts (T : ParseTree k) (hk : k.nullable = false)
    (h : ∀ t, k.starts t = true → n.continues t = true) (u : List Token) :
    ¬Stop n (T.tokens ++ u) := by
  obtain ⟨t, ts, ht, hs⟩ := T.exists_first hk
  rw [ht, List.cons_append, stop_cons, h t hs]
  simp

theorem leftLevel_add : LeftLevel .add .mul (fun a : Addition => [.symbol a.symbol]) add ofMul where
  tokens_infx _ _ _ := rfl
  tokens_unit _ := rfl
  stops a _ _ := stop_cons.mpr (by cases a <;> rfl)
  goes a _ _ h := by
    have hgoes : continues .add (.symbol a.symbol) = true := by cases a <;> rfl
    cases hgoes.symm.trans (stop_cons.mp h)
  sep_inj a a' u u' h := by
    obtain ⟨ha, hu⟩ := List.cons.inj h
    exact ⟨by cases a <;> cases a' <;> simp [Addition.symbol] at ha ⊢, hu⟩
  tighter t h := by simp only [continues, decide_eq_false_iff_not] at h ⊢; omega

theorem leftLevel_mul : LeftLevel .mul .app (fun _ : Unit => [.symbol .star])
    (fun l _ r => mul l r) ofApp where
  tokens_infx _ _ _ := rfl
  tokens_unit _ := rfl
  stops _ _ _ := stop_cons.mpr rfl
  goes _ _ _ h := nomatch stop_cons.mp h
  sep_inj _ _ _ _ h := ⟨rfl, (List.cons.inj h).2⟩
  tighter t h := by simp only [continues, decide_eq_false_iff_not] at h ⊢; omega

theorem leftLevel_app : LeftLevel .app .atom (fun _ : Unit => [])
    (fun f _ a => app f a) ofAtom where
  tokens_infx _ _ _ := rfl
  tokens_unit _ := rfl
  stops _ _ _ := fun _ _ => rfl
  goes _ a u := a.not_stop_of_starts rfl (fun t ht => by simpa [continues, starts] using ht) u
  sep_inj _ _ _ _ h := ⟨rfl, h⟩
  tighter _ _ := rfl

def IsChain : {n : Nonterminal} → ParseTree n → Prop
  | .add, T => ∃ b is, T = chain add ofMul b is
  | .mul, T => ∃ b is, T = chain (fun l (_ : Unit) r => mul l r) ofApp b is
  | .app, T => ∃ b is, T = chain (fun f (_ : Unit) a => app f a) ofAtom b is
  | _, _ => True

theorem isChain (T : ParseTree n) : T.IsChain := by
  induction T with
  | add l a r ihl _ =>
    obtain ⟨b, is, rfl⟩ := ihl
    exact ⟨b, is ++ [(a, r)], by simp [chain]⟩
  | mul l r ihl _ =>
    obtain ⟨b, is, rfl⟩ := ihl
    exact ⟨b, is ++ [((), r)], by simp [chain]⟩
  | app f a ihf _ =>
    obtain ⟨b, is, rfl⟩ := ihf
    exact ⟨b, is ++ [((), a)], by simp [chain]⟩
  | ofMul e => exact ⟨e, [], rfl⟩
  | ofApp e => exact ⟨e, [], rfl⟩
  | ofAtom e => exact ⟨e, [], rfl⟩
  | _ => trivial

/-- A sequence in brackets: parts that are each followed by a comma, but for the last, which need
not be. -/
structure Listing (n k : Nonterminal) (none : ParseTree n) (last : ParseTree k → ParseTree n)
    (more : ParseTree k → ParseTree n → ParseTree n) : Prop where
  tokens_none : none.tokens = []
  tokens_last : ∀ e, (last e).tokens = e.tokens
  tokens_more : ∀ e es, (more e es).tokens = e.tokens ++ .symbol .comma :: es.tokens
  cases : ∀ T : ParseTree n, T = none ∨ (∃ e, T = last e) ∨ ∃ e es, T = more e es
  goes : ∀ t, n.continues t = false → t = .symbol .rbracket
  comma : k.continues (.symbol .comma) = false
  tighter : ∀ t, n.continues t = false → k.continues t = false
  starts : ∀ (e : ParseTree k) u, ¬Stop n (e.tokens ++ u)

namespace Listing

variable {none : ParseTree n} {last : ParseTree k → ParseTree n}
  {more : ParseTree k → ParseTree n → ParseTree n} {e : ParseTree k} {es : ParseTree n}

theorem not_stop_comma (H : Listing n k none last more) (u : List Token) :
    ¬Stop n (.symbol .comma :: u) := fun h => nomatch H.goes _ (stop_cons.mp h)

theorem unique_none (H : Listing n k none last more) : Unique none := by
  intro T' u u' h hu hu'
  rw [H.tokens_none, List.nil_append] at h
  obtain rfl | ⟨e', rfl⟩ | ⟨e', es', rfl⟩ := H.cases T'
  · exact ⟨rfl, by simpa [H.tokens_none] using h⟩
  · rw [H.tokens_last] at h
    exact (H.starts e' _ (h ▸ hu)).elim
  · rw [H.tokens_more, List.append_assoc] at h
    exact (H.starts e' _ (h ▸ hu)).elim

theorem unique_last (H : Listing n k none last more) (he : Unique e) : Unique (last e) := by
  intro T' u u' h hu hu'
  rw [H.tokens_last] at h
  obtain rfl | ⟨e', rfl⟩ | ⟨e', es', rfl⟩ := H.cases T'
  · rw [H.tokens_none, List.nil_append] at h
    exact (H.starts e _ (h ▸ hu')).elim
  · rw [H.tokens_last] at h
    obtain ⟨rfl, hrest⟩ := he e' _ _ h (hu.mono H.tighter) (hu'.mono H.tighter)
    exact ⟨rfl, hrest⟩
  · rw [H.tokens_more, List.append_assoc] at h
    obtain ⟨-, rfl⟩ := he e' _ _ h (hu.mono H.tighter) (stop_cons.mpr H.comma)
    exact (H.not_stop_comma _ hu).elim

theorem unique_more (H : Listing n k none last more) (he : Unique e) (hes : Unique es) :
    Unique (more e es) := by
  intro T' u u' h hu hu'
  rw [H.tokens_more, List.append_assoc] at h
  obtain rfl | ⟨e', rfl⟩ | ⟨e', es', rfl⟩ := H.cases T'
  · rw [H.tokens_none, List.nil_append] at h
    exact (H.starts e _ (h ▸ hu')).elim
  · rw [H.tokens_last] at h
    obtain ⟨-, rfl⟩ := he e' _ _ h (stop_cons.mpr H.comma) (hu'.mono H.tighter)
    exact (H.not_stop_comma _ hu').elim
  · rw [H.tokens_more, List.append_assoc] at h
    obtain ⟨rfl, hes'⟩ := he e' _ _ h (stop_cons.mpr H.comma) (stop_cons.mpr H.comma)
    obtain ⟨rfl, hrest⟩ := hes es' _ _ (List.cons.inj hes').2 hu hu'
    exact ⟨rfl, hrest⟩

end Listing

theorem listing_elems : Listing .elems .expr noElem lastElem moreElems where
  tokens_none := rfl
  tokens_last _ := rfl
  tokens_more _ _ := rfl
  cases T := by
    cases T with
    | noElem => exact Or.inl rfl
    | lastElem e => exact Or.inr (Or.inl ⟨e, rfl⟩)
    | moreElems e es => exact Or.inr (Or.inr ⟨e, es, rfl⟩)
  goes t h := by simpa [continues] using h
  comma := rfl
  tighter t h := by
    obtain rfl : t = .symbol .rbracket := by simpa [continues] using h
    rfl
  starts e u := e.not_stop_of_starts rfl (fun t ht => by
    simp only [continues, decide_eq_true_eq]
    rintro rfl
    cases ht) u

theorem listing_patternElems :
    Listing .patternElems .pattern noPattern lastPattern morePatterns where
  tokens_none := rfl
  tokens_last _ := rfl
  tokens_more _ _ := rfl
  cases T := by
    cases T with
    | noPattern => exact Or.inl rfl
    | lastPattern p => exact Or.inr (Or.inl ⟨p, rfl⟩)
    | morePatterns p ps => exact Or.inr (Or.inr ⟨p, ps, rfl⟩)
  goes t h := by simpa [continues] using h
  comma := rfl
  tighter t h := by
    obtain rfl : t = .symbol .rbracket := by simpa [continues] using h
    rfl
  starts e u := e.not_stop_of_starts rfl (fun t ht => by
    simp only [continues, decide_eq_true_eq]
    rintro rfl
    cases ht) u

end ParseTree

end LetML

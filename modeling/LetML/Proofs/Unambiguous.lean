import LetML.Proofs.Levels

namespace LetML

namespace ParseTree

open Nonterminal

variable {n k : Nonterminal} {t : Token}

theorem cons_ne_tokens (T : ParseTree n) (hn : n.nullable = false) (ht : n.starts t = false)
    (u u' : List Token) : t :: u ≠ T.tokens ++ u' := by
  obtain ⟨t', ts, htokens, hstarts⟩ := T.exists_first hn
  rw [htokens, List.cons_append]
  intro h
  obtain rfl := (List.cons.inj h).1
  cases ht.symm.trans hstarts

theorem idents_inj {xs xs' : List String} {u u' : List Token}
    (h : xs.map Token.ident ++ .symbol .arrow :: u = xs'.map Token.ident ++ .symbol .arrow :: u') :
    xs = xs' ∧ u = u' := by
  induction xs generalizing xs' with
  | nil =>
    cases xs' with
    | nil => exact ⟨rfl, (List.cons.inj h).2⟩
    | cons x' xs' => cases (List.cons.inj h).1
  | cons x xs ih =>
    cases xs' with
    | nil => cases (List.cons.inj h).1
    | cons x' xs' =>
      obtain ⟨hx, hrest⟩ := List.cons.inj h
      obtain ⟨rfl, hu⟩ := ih hrest
      exact ⟨by rw [Token.ident.inj hx], hu⟩

theorem optional_inj {b b' : Bool} {s : Symbol} {T T' : ParseTree n} {u u' : List Token}
    (hn : n.nullable = false) (hs : n.starts (.symbol s) = false)
    (h : optional b s ++ (T.tokens ++ u) = optional b' s ++ (T'.tokens ++ u')) :
    b = b' ∧ T.tokens ++ u = T'.tokens ++ u' := by
  cases b <;> cases b'
  · exact ⟨rfl, h⟩
  · exact (T.cons_ne_tokens hn hs _ _ h.symm).elim
  · exact (T'.cons_ne_tokens hn hs _ _ h).elim
  · exact ⟨rfl, (List.cons.inj h).2⟩

section Expressions

variable {x : String} {xs : List String} {b c y z : ParseTree .expr} {cs : ParseTree .clauses}
  {e : ParseTree .or} {rec : Bool}

theorem unique_lambda (hb : Unique b) : Unique (lambda x xs b) := by
  intro T' u u' h hu hu'
  cases T' with
  | lambda x' xs' b' =>
    simp only [tokens, List.cons_append, List.append_assoc, List.cons.injEq, Token.ident.injEq,
      true_and] at h
    obtain ⟨rfl, hidents⟩ := h
    obtain ⟨rfl, hbody⟩ := idents_inj hidents
    obtain ⟨rfl, hrest⟩ := hb b' _ _ hbody hu hu'
    exact ⟨rfl, hrest⟩
  | letIn => cases (List.cons.inj h).1
  | cond => cases (List.cons.inj h).1
  | ofOr e' => exact (e'.cons_ne_tokens rfl rfl _ _ h).elim

theorem unique_letIn (hcs : Unique cs) (hb : Unique b) : Unique (letIn rec cs b) := by
  intro T' u u' h hu hu'
  cases T' with
  | lambda => cases (List.cons.inj h).1
  | letIn rec' cs' b' =>
    simp only [tokens, List.cons_append, List.append_assoc, List.cons.injEq, true_and] at h
    obtain ⟨rfl, hclauses⟩ := optional_inj rfl rfl h
    obtain ⟨rfl, hbody⟩ := hcs cs' _ _ hclauses (stop_cons.mpr rfl) (stop_cons.mpr rfl)
    obtain ⟨rfl, hrest⟩ := hb b' _ _ (List.cons.inj hbody).2 hu hu'
    exact ⟨rfl, hrest⟩
  | cond => cases (List.cons.inj h).1
  | ofOr e' => exact (e'.cons_ne_tokens rfl rfl _ _ h).elim

theorem unique_cond (hc : Unique c) (hy : Unique y) (hz : Unique z) : Unique (cond c y z) := by
  intro T' u u' h hu hu'
  cases T' with
  | lambda => cases (List.cons.inj h).1
  | letIn => cases (List.cons.inj h).1
  | cond c' y' z' =>
    simp only [tokens, List.cons_append, List.append_assoc, List.cons.injEq, true_and] at h
    obtain ⟨rfl, hyes⟩ := hc c' _ _ h (stop_cons.mpr rfl) (stop_cons.mpr rfl)
    obtain ⟨rfl, hno⟩ := hy y' _ _ (List.cons.inj hyes).2 (stop_cons.mpr rfl) (stop_cons.mpr rfl)
    obtain ⟨rfl, hrest⟩ := hz z' _ _ (List.cons.inj hno).2 hu hu'
    exact ⟨rfl, hrest⟩
  | ofOr e' => exact (e'.cons_ne_tokens rfl rfl _ _ h).elim

theorem unique_ofOr (he : Unique e) : Unique (ofOr e) := by
  intro T' u u' h hu hu'
  cases T' with
  | lambda => exact (e.cons_ne_tokens rfl rfl _ _ h.symm).elim
  | letIn => exact (e.cons_ne_tokens rfl rfl _ _ h.symm).elim
  | cond => exact (e.cons_ne_tokens rfl rfl _ _ h.symm).elim
  | ofOr e' =>
    obtain ⟨rfl, hrest⟩ := he e' _ _ h hu hu'
    exact ⟨rfl, hrest⟩

end Expressions

theorem stop_comparison (o : Comparison) (u : List Token) :
    Stop .cons (.symbol o.symbol :: u) := stop_cons.mpr (by cases o <;> rfl)

theorem not_stop_comparison (o : Comparison) (u : List Token) :
    ¬Stop .cmp (.symbol o.symbol :: u) := fun h => by
  have hgoes : continues .cmp (.symbol o.symbol) = true := by cases o <;> rfl
  cases hgoes.symm.trans (stop_cons.mp h)

theorem cons_stop_of_cmp {u : List Token} (h : Stop .cmp u) : Stop .cons u :=
  h.mono (fun t ht => by simp only [continues, decide_eq_false_iff_not] at ht ⊢; omega)

theorem Comparison.symbol_inj {o o' : Comparison} (h : o.symbol = o'.symbol) : o = o' := by
  cases o <;> cases o' <;> first | rfl | cases h

theorem unique_cmp {l r : ParseTree .cons} (o : Comparison) (hl : Unique l) (hr : Unique r) :
    Unique (cmp l o r) := by
  intro T' u u' h hu hu'
  cases T' with
  | cmp l' o' r' =>
    simp only [tokens, List.append_assoc, List.cons_append] at h
    obtain ⟨rfl, hop⟩ := hl l' _ _ h (stop_comparison o _) (stop_comparison o' _)
    obtain ⟨ho, hright⟩ := List.cons.inj hop
    obtain rfl := Comparison.symbol_inj (Token.symbol.inj ho)
    obtain ⟨rfl, hrest⟩ := hr r' _ _ hright (cons_stop_of_cmp hu) (cons_stop_of_cmp hu')
    exact ⟨rfl, hrest⟩
  | ofCons e' =>
    simp only [tokens, List.append_assoc, List.cons_append] at h
    obtain ⟨-, rfl⟩ := hl e' _ _ h (stop_comparison o _) (cons_stop_of_cmp hu')
    exact (not_stop_comparison o _ hu').elim

theorem unique_ofCons {e : ParseTree .cons} (he : Unique e) : Unique (ofCons e) := by
  intro T' u u' h hu hu'
  cases T' with
  | cmp l' o' r' =>
    simp only [tokens, List.append_assoc, List.cons_append] at h
    obtain ⟨-, rfl⟩ := he l' _ _ h (cons_stop_of_cmp hu) (stop_comparison o' _)
    exact (not_stop_comparison o' _ hu).elim
  | ofCons e' =>
    obtain ⟨rfl, hrest⟩ := he e' _ _ h (cons_stop_of_cmp hu) (cons_stop_of_cmp hu')
    exact ⟨rfl, hrest⟩

theorem truthSymbol_inj {a a' b b' : Bool} (h : truthSymbol a b = truthSymbol a' b') :
    a = a' ∧ b = b' := by
  cases a <;> cases a' <;> cases b <;> cases b' <;> first | exact ⟨rfl, rfl⟩ | cases h

theorem truthSymbol_ne (a b : Bool) : truthSymbol a b ≠ .lparen ∧ truthSymbol a b ≠ .lbracket ∧
    truthSymbol a b ≠ .kwCase ∧ truthSymbol a b ≠ .underscore := by
  cases a <;> cases b <;> decide

theorem ne_truthSymbol (a b : Bool) : .lparen ≠ truthSymbol a b ∧ .lbracket ≠ truthSymbol a b ∧
    .kwCase ≠ truthSymbol a b ∧ .underscore ≠ truthSymbol a b := by
  cases a <;> cases b <;> decide

theorem unique_leaf {T : ParseTree n} (hn : n.nullable = false) (hT : T.tokens = [t])
    (hfirst : ∀ (T' : ParseTree n) ts, T'.tokens = t :: ts → T' = T) : Unique T := by
  intro T' u u' h hu hu'
  obtain ⟨t', ts, hT', -⟩ := T'.exists_first hn
  rw [hT, hT'] at h
  obtain ⟨rfl, hrest⟩ := List.cons.inj h
  obtain rfl := hfirst T' ts hT'
  obtain rfl : ts = [] := (List.cons.inj (hT'.symm.trans hT)).2
  exact ⟨rfl, hrest⟩

/-- A derivation of a text in brackets, where the opening one starts no other text of its
nonterminal. -/
theorem unique_enclosed {o c : Symbol} {build : ParseTree k → ParseTree n} {T : ParseTree k}
    (hn : n.nullable = false)
    (hbuild : ∀ T, (build T).tokens = .symbol o :: T.tokens ++ [.symbol c])
    (hfirst : ∀ (T' : ParseTree n) ts, T'.tokens = .symbol o :: ts → ∃ T, T' = build T)
    (hc : k.continues (.symbol c) = false) (hT : Unique T) : Unique (build T) := by
  intro T' u u' h hu hu'
  obtain ⟨t', ts, hT', -⟩ := T'.exists_first hn
  have ho : t' = .symbol o := by
    rw [hbuild, hT'] at h
    exact (List.cons.inj h).1.symm
  obtain ⟨T', rfl⟩ := hfirst T' ts (by rw [hT', ho])
  simp only [hbuild, List.cons_append, List.append_assoc, List.cons.injEq, true_and] at h
  obtain ⟨rfl, hrest⟩ := hT T' _ _ h (stop_cons.mpr hc) (stop_cons.mpr hc)
  exact ⟨rfl, (List.cons.inj hrest).2⟩

section Atoms

variable {digits x : String} {a b bar : Bool} {e : ParseTree .expr} {es : ParseTree .elems}
  {as : ParseTree .arms}

theorem unique_number : Unique (number digits) :=
  unique_leaf rfl rfl fun T' ts h => by cases T' <;> simp_all [tokens]

theorem unique_var : Unique (var x) :=
  unique_leaf rfl rfl fun T' ts h => by cases T' <;> simp_all [tokens]

theorem unique_truth : Unique (truth a b) :=
  unique_leaf rfl rfl fun T' ts h => by
    cases T' with
    | truth a' b' =>
      obtain ⟨rfl, rfl⟩ := truthSymbol_inj (Token.symbol.inj (List.cons.inj h).1)
      rfl
    | _ => simp [tokens, ne_truthSymbol] at h

theorem unique_paren (he : Unique e) : Unique (paren e) :=
  unique_enclosed rfl (fun _ => rfl)
    (fun T' ts h => by cases T' <;> simp_all [tokens, truthSymbol_ne]) rfl he

theorem unique_brackets (hes : Unique es) : Unique (brackets es) :=
  unique_enclosed rfl (fun _ => rfl)
    (fun T' ts h => by cases T' <;> simp_all [tokens, truthSymbol_ne]) rfl hes

theorem unique_case (he : Unique e) (has : Unique as) : Unique (case e bar as) := by
  intro T' u u' h hu hu'
  cases T' with
  | case e' bar' as' =>
    simp only [tokens, List.cons_append, List.append_assoc, List.cons.injEq, true_and] at h
    obtain ⟨rfl, hof⟩ := he e' _ _ h (stop_cons.mpr rfl) (stop_cons.mpr rfl)
    obtain ⟨rfl, harms⟩ := optional_inj rfl rfl (List.cons.inj hof).2
    obtain ⟨rfl, hend⟩ := has as' _ _ harms (stop_cons.mpr rfl) (stop_cons.mpr rfl)
    exact ⟨rfl, (List.cons.inj hend).2⟩
  | _ => simp [tokens, ne_truthSymbol] at h

end Atoms

section Patterns

variable {digits x : String} {a b : Bool} {p : ParseTree .pattern} {ps : ParseTree .patternElems}

theorem unique_wild : Unique wild :=
  unique_leaf rfl rfl fun T' ts h => by cases T' <;> simp_all [tokens, truthSymbol_ne]

theorem unique_patternNumber : Unique (patternNumber digits) :=
  unique_leaf rfl rfl fun T' ts h => by cases T' <;> simp_all [tokens]

theorem unique_patternVar : Unique (patternVar x) :=
  unique_leaf rfl rfl fun T' ts h => by cases T' <;> simp_all [tokens]

theorem unique_patternTruth : Unique (patternTruth a b) :=
  unique_leaf rfl rfl fun T' ts h => by
    cases T' with
    | patternTruth a' b' =>
      obtain ⟨rfl, rfl⟩ := truthSymbol_inj (Token.symbol.inj (List.cons.inj h).1)
      rfl
    | _ => simp [tokens, ne_truthSymbol] at h

theorem unique_patternParen (hp : Unique p) : Unique (patternParen p) :=
  unique_enclosed rfl (fun _ => rfl)
    (fun T' ts h => by cases T' <;> simp_all [tokens, truthSymbol_ne]) rfl hp

theorem unique_patternBrackets (hps : Unique ps) : Unique (patternBrackets ps) :=
  unique_enclosed rfl (fun _ => rfl)
    (fun T' ts h => by cases T' <;> simp_all [tokens, truthSymbol_ne]) rfl hps

end Patterns

section Clauses

variable {x : String} {e : ParseTree .expr} {p : ParseTree .pattern} {q : ParseTree .atomPattern}
  {qs : ParseTree .params}

theorem unique_arm (hp : Unique p) (he : Unique e) : Unique (arm p e) := by
  intro T' u u' h hu hu'
  cases T' with
  | arm p' e' =>
    simp only [tokens, List.append_assoc, List.cons_append] at h
    obtain ⟨rfl, harrow⟩ := hp p' _ _ h (stop_cons.mpr rfl) (stop_cons.mpr rfl)
    obtain ⟨rfl, hrest⟩ := he e' _ _ (List.cons.inj harrow).2 hu hu'
    exact ⟨rfl, hrest⟩

theorem unique_clause (hqs : Unique qs) (he : Unique e) : Unique (clause x qs e) := by
  intro T' u u' h hu hu'
  cases T' with
  | clause x' qs' e' =>
    simp only [tokens, List.append_assoc, List.cons_append, List.cons.injEq,
      Token.ident.injEq] at h
    obtain ⟨rfl, hparams⟩ := h
    obtain ⟨rfl, hassign⟩ := hqs qs' _ _ hparams (stop_cons.mpr rfl) (stop_cons.mpr rfl)
    obtain ⟨rfl, hrest⟩ := he e' _ _ (List.cons.inj hassign).2 hu hu'
    exact ⟨rfl, hrest⟩

theorem not_stop_param (q : ParseTree .atomPattern) (u : List Token) :
    ¬Stop .params (q.tokens ++ u) :=
  q.not_stop_of_starts rfl (fun t ht => by
    simp only [continues, decide_eq_true_eq]
    rintro rfl
    cases ht) u

theorem unique_noParam : Unique noParam := by
  intro T' u u' h hu hu'
  cases T' with
  | noParam => exact ⟨rfl, h⟩
  | moreParams q' qs' =>
    simp only [tokens, List.nil_append, List.append_assoc] at h
    exact (not_stop_param q' _ (h ▸ hu)).elim

theorem unique_moreParams (hq : Unique q) (hqs : Unique qs) : Unique (moreParams q qs) := by
  intro T' u u' h hu hu'
  cases T' with
  | noParam =>
    simp only [tokens, List.nil_append, List.append_assoc] at h
    exact (not_stop_param q _ (h ▸ hu')).elim
  | moreParams q' qs' =>
    simp only [tokens, List.append_assoc] at h
    obtain ⟨rfl, hparams⟩ := hq q' _ _ h (fun _ _ => rfl) (fun _ _ => rfl)
    obtain ⟨rfl, hrest⟩ := hqs qs' _ _ hparams hu hu'
    exact ⟨rfl, hrest⟩

end Clauses

/-- What the induction on an expression, a pattern or a clause shows: a text at a level of operators
that associate to the left is not known before its last operand is. -/
def Determined : {n : Nonterminal} → ParseTree n → Prop
  | .add, T => UniqueChain add ofMul T
  | .mul, T => UniqueChain (fun l (_ : Unit) r => mul l r) ofApp T
  | .app, T => UniqueChain (fun f (_ : Unit) a => app f a) ofAtom T
  | .decl, _ | .statement, _ | .program, _ => True
  | _, T => Unique T

theorem determined (T : ParseTree n) : T.Determined := by
  induction T with
  | lambda _ _ _ ih => exact unique_lambda ih
  | letIn _ _ _ ihcs ihb => exact unique_letIn ihcs ihb
  | cond _ _ _ ihc ihy ihz => exact unique_cond ihc ihy ihz
  | ofOr _ ih => exact unique_ofOr ih
  | or _ _ ihl ihr => exact rightLevel_or.unique_infx ihl ihr
  | ofAnd _ ih => exact rightLevel_or.unique_unit ih
  | and _ _ ihl ihr => exact rightLevel_and.unique_infx ihl ihr
  | ofCmp _ ih => exact rightLevel_and.unique_unit ih
  | cmp _ o _ ihl ihr => exact unique_cmp o ihl ihr
  | ofCons _ ih => exact unique_ofCons ih
  | cons _ _ ihl ihr => exact rightLevel_cons.unique_infx (leftLevel_add.unique isChain ihl) ihr
  | ofAdd _ ih => exact rightLevel_cons.unique_unit (leftLevel_add.unique isChain ih)
  | add _ a _ ihl ihr => exact UniqueChain.extend ihl (leftLevel_mul.unique isChain ihr) a
  | ofMul _ ih => exact UniqueChain.single (leftLevel_mul.unique isChain ih)
  | mul _ _ ihl ihr => exact UniqueChain.extend ihl (leftLevel_app.unique isChain ihr) ()
  | ofApp _ ih => exact UniqueChain.single (leftLevel_app.unique isChain ih)
  | app _ _ ihf iha => exact UniqueChain.extend ihf iha ()
  | ofAtom _ ih => exact UniqueChain.single ih
  | number => exact unique_number
  | truth => exact unique_truth
  | var => exact unique_var
  | paren _ ih => exact unique_paren ih
  | brackets _ ih => exact unique_brackets ih
  | case _ _ _ ihe ihas => exact unique_case ihe ihas
  | noElem => exact listing_elems.unique_none
  | lastElem _ ih => exact listing_elems.unique_last ih
  | moreElems _ _ ih ihes => exact listing_elems.unique_more ih ihes
  | arm _ _ ihp ihe => exact unique_arm ihp ihe
  | lastArm _ ih => exact rightLevel_arms.unique_unit ih
  | moreArms _ _ iha ihas => exact rightLevel_arms.unique_infx iha ihas
  | clause _ _ _ ihps ihb => exact unique_clause ihps ihb
  | lastClause _ ih => exact rightLevel_clauses.unique_unit ih
  | moreClauses _ _ ihc ihcs => exact rightLevel_clauses.unique_infx ihc ihcs
  | noParam => exact unique_noParam
  | moreParams _ _ ihp ihps => exact unique_moreParams ihp ihps
  | patternCons _ _ ihh iht => exact rightLevel_pattern.unique_infx ihh iht
  | ofAtomPattern _ ih => exact rightLevel_pattern.unique_unit ih
  | wild => exact unique_wild
  | patternVar => exact unique_patternVar
  | patternNumber => exact unique_patternNumber
  | patternTruth => exact unique_patternTruth
  | patternBrackets _ ih => exact unique_patternBrackets ih
  | patternParen _ ih => exact unique_patternParen ih
  | noPattern => exact listing_patternElems.unique_none
  | lastPattern _ ih => exact listing_patternElems.unique_last ih
  | morePatterns _ _ ih ihps => exact listing_patternElems.unique_more ih ihps
  | letDecl | evalDecl | statement | noDecl | moreDecls => trivial

theorem stop_of_stop_decl {u : List Token} (h : Stop .decl u)
    (hn : n.continues (.symbol .semi) = false) : Stop n u :=
  h.mono fun t ht => by
    obtain rfl : t = .symbol .semi := by simpa [continues] using ht
    exact hn

theorem letDecl_ne_evalDecl {rec : Bool} {cs : ParseTree .clauses} {e : ParseTree .expr}
    {u u' : List Token} (hu : Stop .decl u) :
    (letDecl rec cs).tokens ++ u ≠ (evalDecl e).tokens ++ u' := by
  intro h
  cases e with
  | letIn rec' cs' b' =>
    simp only [tokens, List.cons_append, List.append_assoc, List.cons.injEq, true_and] at h
    obtain ⟨-, hclauses⟩ := optional_inj rfl rfl h
    have hcs : Unique cs := cs.determined
    obtain ⟨-, rfl⟩ := hcs cs' _ _ hclauses (stop_of_stop_decl hu rfl) (stop_cons.mpr rfl)
    cases stop_cons.mp hu
  | lambda => cases (List.cons.inj h).1
  | cond => cases (List.cons.inj h).1
  | ofOr e' => exact e'.cons_ne_tokens rfl rfl _ _ h

theorem unique_decl (d : ParseTree .decl) : Unique d := by
  intro d' u u' h hu hu'
  cases d with
  | letDecl rec cs =>
    cases d' with
    | letDecl rec' cs' =>
      simp only [tokens, List.cons_append, List.append_assoc, List.cons.injEq, true_and] at h
      obtain ⟨rfl, hclauses⟩ := optional_inj rfl rfl h
      have hcs : Unique cs := cs.determined
      obtain ⟨rfl, hrest⟩ := hcs cs' _ _ hclauses (stop_of_stop_decl hu rfl)
        (stop_of_stop_decl hu' rfl)
      exact ⟨rfl, hrest⟩
    | evalDecl e' => exact (letDecl_ne_evalDecl hu h).elim
  | evalDecl e =>
    cases d' with
    | letDecl rec' cs' => exact (letDecl_ne_evalDecl hu' h.symm).elim
    | evalDecl e' =>
      have he : Unique e := e.determined
      obtain ⟨rfl, hrest⟩ := he e' _ _ h (stop_of_stop_decl hu rfl) (stop_of_stop_decl hu' rfl)
      exact ⟨rfl, hrest⟩

theorem stop_optional_semi (b : Bool) : Stop .decl (optional b .semi) := by
  cases b
  · exact stop_nil .decl
  · exact stop_cons.mpr rfl

theorem program_tokens_inj : ∀ {ds ds' : ParseTree .program}, ds.tokens = ds'.tokens → ds = ds'
  | noDecl, noDecl, _ => rfl
  | noDecl, moreDecls d' ds', h => by simp [tokens] at h
  | moreDecls d ds, noDecl, h => by simp [tokens] at h
  | moreDecls d ds, moreDecls d' ds', h => by
    obtain ⟨rfl, hds⟩ := unique_decl d d' _ _ h (stop_cons.mpr rfl) (stop_cons.mpr rfl)
    rw [program_tokens_inj (List.cons.inj hds).2]

/-- The grammar is unambiguous: a text has at most one derivation. -/
theorem tokens_injective : Function.Injective (tokens (n := n)) := by
  intro T T' h
  have happ : T.tokens ++ [] = T'.tokens ++ [] := by rw [h]
  have hT := T.determined
  cases n
  case add => exact (leftLevel_add.unique isChain hT T' _ _ happ (stop_nil _) (stop_nil _)).1
  case mul => exact (leftLevel_mul.unique isChain hT T' _ _ happ (stop_nil _) (stop_nil _)).1
  case app => exact (leftLevel_app.unique isChain hT T' _ _ happ (stop_nil _) (stop_nil _)).1
  case decl => exact (unique_decl T T' _ _ happ (stop_nil _) (stop_nil _)).1
  case statement =>
    cases T with | statement d b =>
    cases T' with | statement d' b' =>
    obtain ⟨rfl, hb⟩ := unique_decl d d' _ _ h (stop_optional_semi b) (stop_optional_semi b')
    cases b <;> cases b' <;> first | rfl | cases hb
  case program => exact program_tokens_inj h
  all_goals exact (hT T' _ _ happ (stop_nil _) (stop_nil _)).1

end ParseTree

end LetML

import LetML.Proofs.ParserCompleteness

namespace LetML

variable {α : Type} {g : Goal α} {st st' : State} {t : Token} {ts us : List Token}
  {done : List Decl} {stack outer : List Frame} {left : Pending} {v : Except Fault Expr}
  {Q R : State → Prop}

/-- The tokens can be taken one after the other until a fault is reported, and the state after them
has the property if none is. -/
def Takes (g : Goal α) : State → List Token → (State → Prop) → Prop
  | st, [], Q => Q st
  | st, t :: ts, Q => ∃ r, shift g st t = some r ∧ ∀ st', r = .ok st' → Takes g st' ts Q

theorem takes_append : Takes g st (ts ++ us) Q ↔ Takes g st ts fun st' => Takes g st' us Q := by
  induction ts generalizing st with
  | nil => rfl
  | cons t ts ih => simp only [List.cons_append, Takes, ih]

theorem Takes.mono (h : Takes g st ts Q) (hQR : ∀ st', Q st' → R st') : Takes g st ts R := by
  induction ts generalizing st with
  | nil => exact hQR st h
  | cons t ts ih =>
    obtain ⟨r, hr, htakes⟩ := h
    exact ⟨r, hr, fun st' hst' => ih (htakes st' hst')⟩

theorem Takes.trans (h : Takes g st ts R) (hR : ∀ st', R st' → Takes g st' us Q) :
    Takes g st (ts ++ us) Q := takes_append.mpr (h.mono hR)

theorem takes_cons (h : shift g st t = some (.ok st')) (hts : Takes g st' ts Q) :
    Takes g st (t :: ts) Q := by
  refine ⟨_, h, fun st₁ hst₁ => ?_⟩
  cases hst₁
  exact hts

theorem takes_cons_of_map {β : Type} {x : Except Fault β} {f : β → State}
    (h : shift g st t = some (x.map f)) (hts : ∀ b, Takes g (f b) ts Q) : Takes g st (t :: ts) Q := by
  refine ⟨_, h, fun st₁ hst₁ => ?_⟩
  cases x with
  | error e => cases hst₁
  | ok b =>
    cases hst₁
    exact hts b

/-- Two states take a text of a nonterminal alike if they take the tokens alike with which it
starts. -/
theorem takes_congr {n : Nonterminal} (T : ParseTree n) (hn : n.nullable = false)
    (h : ∀ t, n.starts t = true → shift g st t = shift g st' t) (hT : Takes g st' T.tokens Q) :
    Takes g st T.tokens Q := by
  obtain ⟨t, ts, htokens, ht⟩ := T.exists_first hn
  rw [htokens] at hT ⊢
  simpa only [Takes, h t ht] using hT

/-- The constructs that do not end where the expression inside them ends. -/
def around : List Frame → List Frame
  | .lambda _ :: stack | .body _ _ :: stack | .no _ _ :: stack => around stack
  | stack => stack

theorem settle_fst (stack : List Frame) (v : Except Fault Expr) :
    (settle stack v).1 = around stack := by
  induction stack, v using settle.induct with
  | case1 ps stack v ih => rw [settle, around, ih]
  | case2 rec cs stack v ih => rw [settle, around, ih]
  | case3 test yes stack v ih => rw [settle, around, ih]
  | case4 stack v hl hb hn =>
    cases stack with
    | nil => rfl
    | cons frame stack =>
      cases frame with
      | lambda ps => exact (hl _ _ rfl).elim
      | body rec cs => exact (hb _ _ _ rfl).elim
      | no test yes => exact (hn _ _ _ rfl).elim
      | _ => rfl

/-- An operand has been read, of which `P` says what waits for it. -/
def AfterOperand (done : List Decl) (stack : List Frame) (P : Pending → Prop) (st : State) : Prop :=
  ∃ left v, st = ⟨done, stack, .operator left v⟩ ∧ P left

/-- An expression has been read, and `outer` are the constructs that it does not end. -/
def AfterExpr (done : List Decl) (outer : List Frame) (st : State) : Prop :=
  ∃ stack left v, st = ⟨done, stack, .operator left v⟩ ∧ around stack = outer

theorem AfterExpr.settle (h : AfterExpr done outer st) : ∃ stack left v,
    st = ⟨done, stack, .operator left v⟩ ∧ ∃ w, settle stack (v.map left.complete) = (outer, w) := by
  obtain ⟨stack, left, v, rfl, haround⟩ := h
  refine ⟨stack, left, v, rfl, (LetML.settle stack (v.map left.complete)).2, ?_⟩
  rw [← haround, ← settle_fst stack (v.map left.complete)]

def AfterPattern (done : List Decl) (stack : List Frame) (site : PatternSite)
    (within : List PatternFrame) (st : State) : Prop :=
  ∃ heads v, st = ⟨done, stack, .patternEnd site within heads v⟩

theorem takes_operator {s : Symbol} {k : Expr → Pending} (hk : left.operator? s = some k)
    (h : ∀ e, Takes g ⟨done, stack, .operand (k e)⟩ ts Q) :
    Takes g ⟨done, stack, .operator left v⟩ (.symbol s :: ts) Q := by
  have hstart : operandStart (.symbol s) = none := by
    cases s <;> first | rfl | cases hk
  refine takes_cons_of_map (x := v) (f := fun e => ⟨done, stack, .operand (k e)⟩) ?_ h
  simp only [shift, operatorShift, hstart, hk]

theorem takes_close {frame : Frame} {s : Symbol} {k : Expr → List Frame → List Frame × Focus}
    (hk : frameShift frame s = some k) (hst : AfterExpr done (frame :: stack) st)
    (h : ∀ e, Takes g ⟨done, (k e stack).1, (k e stack).2⟩ ts Q) :
    Takes g st (.symbol s :: ts) Q := by
  obtain ⟨stack', left, v, rfl, w, hw⟩ := hst.settle
  obtain ⟨hstart, hop, hsemi⟩ := not_continues_of_frameShift (l := left) hk
  refine takes_cons_of_map (x := w) (f := fun e => ⟨done, (k e stack).1, (k e stack).2⟩) ?_ h
  simp only [shift, operatorShift, hstart, hop]
  rw [closeShift_frame hsemi hw, hk]
  rfl

/-- A text is taken where an operand is due that is compared with nothing. -/
def Loose (g : Goal α) (ts : List Token) : Prop :=
  ∀ done stack left, left.comparison = none →
    Takes g ⟨done, stack, .operand left⟩ ts (AfterOperand done stack fun _ => True)

/-- A text is taken where an operand is due, and becomes part of what is compared. -/
def Tight (g : Goal α) (ts : List Token) : Prop :=
  ∀ done stack left, Takes g ⟨done, stack, .operand left⟩ ts
    (AfterOperand done stack fun left' => left'.comparison.isSome = left.comparison.isSome)

def Unrefused (g : Goal α) : Nonterminal → List Token → Prop
  | .expr, ts => ∀ done stack, Takes g ⟨done, stack, .expr⟩ ts (AfterExpr done (around stack))
  | .or, ts | .and, ts | .cmp, ts => Loose g ts
  | .cons, ts | .add, ts | .mul, ts | .app, ts | .atom, ts => Tight g ts
  | .elems, ts => ∀ done stack left es,
    Takes g ⟨done, stack, .elem left es⟩ (ts ++ [.symbol .rbracket]) (AfterOperand done stack (· = left))
  | .arm, ts => ∀ done stack left e as,
    Takes g ⟨done, stack, .pattern (.arm left e as) [] []⟩ ts fun st =>
      ∃ p, AfterExpr done (.arm left e as p :: stack) st
  | .arms, ts => ∀ done stack left e as,
    Takes g ⟨done, stack, .pattern (.arm left e as) [] []⟩ (ts ++ [.symbol .kwEnd])
      (AfterOperand done stack (· = left))
  | .clause, ts | .clauses, ts => ∀ done stack rec cs,
    Takes g ⟨done, stack, .clauseName rec cs⟩ ts fun st =>
      ∃ cs name ps, AfterExpr done (.clause rec cs name ps :: stack) st
  | .params, ts => ∀ done stack rec cs name ps,
    Takes g ⟨done, stack, .pattern (.param rec cs name ps) [] []⟩ (ts ++ [.symbol .assign]) fun st =>
      ∃ ps, st = ⟨done, .clause rec cs name ps :: stack, .expr⟩
  | .pattern, ts => ∀ done stack site within heads, Chains site within →
    Takes g ⟨done, stack, .pattern site within heads⟩ ts (AfterPattern done stack site within)
  | .atomPattern, ts => ∀ done stack site within heads,
    Takes g ⟨done, stack, .pattern site within heads⟩ ts (AfterPattern done stack site within)
  | .patternElems, ts => ∀ done stack site within heads ps,
    Takes g ⟨done, stack, .patternElem site within heads ps⟩ (ts ++ [.symbol .rbracket])
      (AfterPattern done stack site within)
  | .decl, ts => ∀ done, Takes g ⟨done, [], .expr⟩ ts fun st =>
    ∃ outer, AfterExpr done outer st ∧ ∀ v, (decl? outer v).isSome = true
  | .statement, _ | .program, _ => True

section Operators

variable {s : Symbol}

theorem Tight.takes (h : Tight g ts) (done : List Decl) (stack : List Frame) (left : Pending) :
    Takes g ⟨done, stack, .operand left⟩ ts (AfterOperand done stack fun _ => True) :=
  (h done stack left).mono fun _ ⟨left', v, hst, _⟩ => ⟨left', v, hst, trivial⟩

theorem Tight.loose (h : Tight g ts) : Loose g ts := fun done stack left _ => h.takes done stack left

theorem Loose.operator (hl : Loose g ts) (hr : Loose g us)
    (hs : ∀ left : Pending, ∃ k, left.operator? s = some k ∧ ∀ e, (k e).comparison = none) :
    Loose g (ts ++ .symbol s :: us) := by
  intro done stack left hnone
  refine (hl done stack left hnone).trans ?_
  rintro _ ⟨left', v, rfl, -⟩
  obtain ⟨k, hk, hcomparison⟩ := hs left'
  exact takes_operator hk fun e => hr done stack (k e) (hcomparison e)

theorem Tight.operator (hl : Tight g ts) (hr : Tight g us)
    (hs : ∀ left : Pending, ∃ k, left.operator? s = some k ∧ ∀ e, (k e).comparison = left.comparison) :
    Tight g (ts ++ .symbol s :: us) := by
  intro done stack left
  refine (hl done stack left).trans ?_
  rintro _ ⟨left', v, rfl, hleft⟩
  obtain ⟨k, hk, hcomparison⟩ := hs left'
  refine takes_operator hk fun e => ?_
  have h := hr done stack (k e)
  rwa [hcomparison, hleft] at h

theorem Tight.compare (hl : Tight g ts) (hr : Tight g us) (q : Comparison) :
    Loose g (ts ++ .symbol q.symbol :: us) := by
  intro done stack left hnone
  refine (hl done stack left).trans ?_
  rintro _ ⟨left', v, rfl, hleft⟩
  rw [hnone] at hleft
  have hq : left'.operator? q.symbol = left'.compareWith q.op := by cases q <;> rfl
  rw [Pending.compareWith, if_neg (by simp [hleft])] at hq
  exact takes_operator hq fun e => hr.takes done stack _

theorem Tight.argument {T : ParseTree .atom} (hf : Tight g ts) (ha : Tight g T.tokens) :
    Tight g (ts ++ T.tokens) := by
  intro done stack left
  refine (hf done stack left).trans ?_
  rintro _ ⟨left', v, rfl, hleft⟩
  obtain ⟨t, ts, htokens, ht⟩ := T.exists_first rfl
  have htier : t.tier = 0 := by simpa [Nonterminal.starts] using ht
  obtain ⟨k, hk⟩ : ∃ k, operandStart t = some k := by
    cases t with
    | number | ident => exact ⟨_, rfl⟩
    | symbol s => cases s <;> first | exact ⟨_, rfl⟩ | cases htier
  have hfirst : ∀ e, Takes g ⟨done, (k stack (left'.apply e)).1, (k stack (left'.apply e)).2⟩ ts
      (AfterOperand done stack fun left'' => left''.comparison.isSome = left.comparison.isSome) := by
    intro e
    have h := ha done stack (left'.apply e)
    rw [htokens] at h
    obtain ⟨r, hr, htakes⟩ := h
    simp only [shift, hk, Option.map_some, Option.some.injEq] at hr
    rw [← hleft]
    exact htakes _ hr.symm
  rw [htokens]
  refine takes_cons_of_map (x := v) ?_ hfirst
  simp only [shift, operatorShift, hk]

end Operators

section Atoms

theorem tight_of_operandStart {k : List Frame → Pending → List Frame × Focus}
    (hk : operandStart t = some k)
    (h : ∀ stack left, ∃ v, k stack left = (stack, .operator left v)) : Tight g [t] := by
  intro done stack left
  obtain ⟨v, hv⟩ := h stack left
  have hshift : shift g ⟨done, stack, .operand left⟩ t =
      some (.ok ⟨done, stack, .operator left v⟩) := by
    simp only [shift, hk, Option.map_some, hv]
  exact takes_cons hshift ⟨left, v, rfl, rfl⟩

theorem tight_truth (capital b : Bool) : Tight g [.symbol (truthSymbol capital b)] := by
  cases capital <;> cases b <;> exact tight_of_operandStart rfl fun _ _ => ⟨_, rfl⟩

theorem tight_paren (h : Unrefused g .expr ts) :
    Tight g (.symbol .lparen :: ts ++ [.symbol .rparen]) := by
  intro done stack left
  refine takes_cons rfl ((h done (.paren left :: stack)).trans fun st hst => ?_)
  exact takes_close rfl hst fun e => ⟨left, _, rfl, rfl⟩

theorem tight_brackets (h : Unrefused g .elems ts) :
    Tight g (.symbol .lbracket :: ts ++ [.symbol .rbracket]) := by
  intro done stack left
  refine takes_cons rfl ((h done stack left []).mono ?_)
  rintro _ ⟨_, v, rfl, rfl⟩
  exact ⟨_, v, rfl, rfl⟩

theorem tight_case {T : ParseTree .arms} (bar : Bool) (he : Unrefused g .expr ts)
    (has : Unrefused g .arms T.tokens) :
    Tight g (.symbol .kwCase :: ts ++ .symbol .kwOf :: optional bar .bar ++ T.tokens
      ++ [.symbol .kwEnd]) := by
  intro done stack left
  simp only [List.cons_append, List.append_assoc]
  refine takes_cons rfl ((he done (.scrutinee left :: stack)).trans fun st hst => ?_)
  refine takes_close rfl hst fun e => ?_
  have harms : Takes g ⟨done, stack, .pattern (.arm left e []) [] []⟩ (T.tokens ++ [.symbol .kwEnd])
      (AfterOperand done stack fun left' => left'.comparison.isSome = left.comparison.isSome) := by
    refine (has done stack left e []).mono ?_
    rintro _ ⟨_, v, rfl, rfl⟩
    exact ⟨_, v, rfl, rfl⟩
  cases bar with
  | true => exact takes_cons rfl harms
  | false =>
    change Takes g _ (T.tokens ++ _) _
    refine takes_append.mpr (takes_congr T rfl (fun t ht => shift_firstArm (ne_of_starts rfl ht)) ?_)
    exact takes_append.mp harms

end Atoms

section Expressions

theorem unrefused_ofOr {T : ParseTree .or} (h : Loose g T.tokens) : Unrefused g .expr T.tokens := by
  intro done stack
  refine takes_congr T rfl (fun t ht => shift_expr (by simpa [Nonterminal.starts] using ht)) ?_
  refine (h done stack .nothing rfl).mono ?_
  rintro _ ⟨left, v, rfl, -⟩
  exact ⟨stack, left, v, rfl, rfl⟩

theorem takes_idents {P : State → Prop} (xs ys : List String)
    (h : P ⟨done, stack, .lambda (ys ++ xs)⟩) :
    Takes g ⟨done, stack, .lambda ys⟩ (xs.map .ident) P := by
  induction xs generalizing ys with
  | nil => simpa [Takes] using h
  | cons x xs ih =>
    refine takes_cons rfl (ih (ys ++ [x]) ?_)
    rwa [List.append_assoc]

theorem unrefused_lambda {x : String} {xs : List String} (hb : Unrefused g .expr ts) :
    Unrefused g .expr (.symbol .backslash :: .ident x :: xs.map .ident ++ .symbol .arrow :: ts) := by
  intro done stack
  refine takes_cons rfl (takes_cons rfl ?_)
  refine takes_append.mpr (takes_idents xs [x] ?_)
  exact takes_cons rfl (hb done (.lambda (x :: xs) :: stack))

theorem unrefused_cond {ws : List Token} (ht : Unrefused g .expr ts) (hy : Unrefused g .expr us)
    (hn : Unrefused g .expr ws) :
    Unrefused g .expr (.symbol .kwIf :: ts ++ .symbol .kwThen :: us ++ .symbol .kwElse :: ws) := by
  intro done stack
  simp only [List.cons_append, List.append_assoc]
  refine takes_cons rfl ((ht done (.test :: stack)).trans fun _ hst => takes_close rfl hst fun u => ?_)
  refine (hy done (.yes u :: stack)).trans fun _ hst => takes_close rfl hst fun v => ?_
  exact hn done (.no u v :: stack)

theorem takes_let {T : ParseTree .clauses} {rec : Bool}
    (h : Takes g ⟨done, stack, .clauseName rec []⟩ T.tokens Q) :
    Takes g ⟨done, stack, .expr⟩ (.symbol .kwLet :: optional rec .kwRec ++ T.tokens) Q := by
  refine takes_cons rfl ?_
  cases rec with
  | false => exact takes_congr T rfl (fun t ht => shift_afterLet (ne_of_starts rfl ht)) h
  | true => exact takes_cons rfl h

theorem unrefused_letIn {T : ParseTree .clauses} {rec : Bool} (hcs : Unrefused g .clauses T.tokens)
    (hb : Unrefused g .expr us) :
    Unrefused g .expr (.symbol .kwLet :: optional rec .kwRec ++ T.tokens ++ .symbol .kwIn :: us) := by
  intro done stack
  refine (takes_let (hcs done stack rec [])).trans ?_
  rintro _ ⟨cs, name, ps, hst⟩
  exact takes_close rfl hst fun e => hb done (.body rec _ :: stack)

end Expressions

section Sequences

theorem unrefused_noElem : Unrefused g .elems [] :=
  fun _ _ left _ => takes_cons rfl ⟨left, _, rfl, rfl⟩

theorem takes_elem {T : ParseTree .expr} {es : List Expr} (h : Unrefused g .expr T.tokens)
    (hQ : ∀ st, AfterExpr done (.elem left es :: stack) st → Takes g st us Q) :
    Takes g ⟨done, stack, .elem left es⟩ (T.tokens ++ us) Q := by
  refine takes_append.mpr (takes_congr T rfl (fun t ht => shift_elem es (ne_of_starts rfl ht)) ?_)
  exact (h done (.elem left es :: stack)).mono hQ

theorem unrefused_lastElem {T : ParseTree .expr} (h : Unrefused g .expr T.tokens) :
    Unrefused g .elems T.tokens :=
  fun _ _ left _ => takes_elem h fun _ hst => takes_close rfl hst fun _ => ⟨left, _, rfl, rfl⟩

theorem unrefused_moreElems {T : ParseTree .expr} (h : Unrefused g .expr T.tokens)
    (hes : Unrefused g .elems ts) : Unrefused g .elems (T.tokens ++ .symbol .comma :: ts) := by
  intro done stack left es
  rw [List.append_assoc]
  exact takes_elem h fun _ hst => takes_close rfl hst fun e => hes done stack left (es ++ [e])

theorem unrefused_arm (hp : Unrefused g .pattern ts) (he : Unrefused g .expr us) :
    Unrefused g .arm (ts ++ .symbol .arrow :: us) := by
  intro done stack left e as
  refine (hp done stack (.arm left e as) [] [] chains_arm).trans ?_
  rintro _ ⟨heads, v, rfl⟩
  refine takes_cons_of_map (x := v) (f := fun p =>
    ⟨done, .arm left e as (consChain heads p) :: stack, .expr⟩) ?_ fun p => ?_
  · cases v <;> rfl
  · exact (he done _).mono fun st hst => ⟨consChain heads p, hst⟩

theorem unrefused_lastArm (h : Unrefused g .arm ts) : Unrefused g .arms ts :=
  fun done stack left e as => (h done stack left e as).trans fun _ ⟨_, hst⟩ =>
    takes_close rfl hst fun _ => ⟨left, _, rfl, rfl⟩

theorem unrefused_moreArms (h : Unrefused g .arm ts) (has : Unrefused g .arms us) :
    Unrefused g .arms (ts ++ .symbol .bar :: us) := by
  intro done stack left e as
  rw [List.append_assoc]
  refine (h done stack left e as).trans fun _ ⟨p, hst⟩ => ?_
  exact takes_close rfl hst fun b => has done stack left e (as ++ [(p, b)])

theorem unrefused_clause {name : String} (hps : Unrefused g .params ts) (he : Unrefused g .expr us) :
    Unrefused g .clause (.ident name :: ts ++ .symbol .assign :: us) := by
  intro done stack rec cs
  have hparams := hps done stack rec cs name []
  rw [List.append_cons (.ident name :: ts)]
  refine takes_cons rfl (hparams.trans ?_)
  rintro _ ⟨ps, rfl⟩
  exact (he done (.clause rec cs name ps :: stack)).mono fun st hst => ⟨cs, name, ps, hst⟩

theorem unrefused_moreClauses (h : Unrefused g .clause ts) (hcs : Unrefused g .clauses us) :
    Unrefused g .clauses (ts ++ .symbol .bar :: us) := by
  intro done stack rec cs
  refine (h done stack rec cs).trans ?_
  rintro _ ⟨cs', name, ps, hst⟩
  exact takes_close rfl hst fun e => hcs done stack rec _

theorem unrefused_noParam : Unrefused g .params [] :=
  fun _ _ _ _ _ ps => takes_cons rfl ⟨ps, rfl⟩

theorem takes_param {rec : Bool} {cs : List Clause} {name : String} {ps heads : List Pattern}
    {w : Except Fault Pattern}
    (h : ∀ p, Takes g ⟨done, stack, .pattern (.param rec cs name (ps ++ [p])) [] []⟩ (t :: ts) Q) :
    Takes g ⟨done, stack, .patternEnd (.param rec cs name ps) [] heads w⟩ (t :: ts) Q := by
  obtain ⟨k, hk⟩ : ∃ k, paramShift rec cs name t = some k := by
    obtain ⟨r, hr, -⟩ := h .wild
    obtain ⟨k, hk, -⟩ := Option.map_eq_some_iff.mp hr
    exact ⟨k, hk⟩
  refine takes_cons_of_map (x := w)
    (f := fun p => ⟨done, (k (ps ++ [p]) stack).1, (k (ps ++ [p]) stack).2⟩) ?_ fun p => ?_
  · simp only [shift, patternEndShift, hk, Option.map_some]
    cases w <;> rfl
  · obtain ⟨r, hr, htakes⟩ := h p
    simp only [shift, hk, Option.map_some, Option.some.injEq] at hr
    exact htakes _ hr.symm

theorem unrefused_moreParams (hp : Unrefused g .atomPattern ts) (hps : Unrefused g .params us) :
    Unrefused g .params (ts ++ us) := by
  intro done stack rec cs name ps
  rw [List.append_assoc]
  refine (hp done stack (.param rec cs name ps) [] []).trans ?_
  rintro _ ⟨heads, v, rfl⟩
  obtain ⟨t, rest, hrest⟩ : ∃ t rest, us ++ [.symbol .assign] = t :: rest :=
    List.exists_cons_of_ne_nil (by simp)
  rw [hrest]
  exact takes_param fun p => hrest ▸ hps done stack rec cs name (ps ++ [p])

end Sequences

section Patterns

variable {site : PatternSite} {within : List PatternFrame} {heads ps : List Pattern}

theorem unrefused_ofAtomPattern (h : Unrefused g .atomPattern ts) : Unrefused g .pattern ts :=
  fun done stack site within heads _ => h done stack site within heads

theorem unrefused_patternCons (hh : Unrefused g .atomPattern ts) (ht : Unrefused g .pattern us) :
    Unrefused g .pattern (ts ++ .symbol .colons :: us) := by
  intro done stack site within heads hchains
  refine (hh done stack site within heads).trans ?_
  rintro _ ⟨heads', v, rfl⟩
  refine takes_cons_of_map (x := v) (f := fun p => ⟨done, stack, .pattern site within (p :: heads')⟩) ?_
    fun p => ht done stack site within (p :: heads') hchains
  cases within with
  | nil =>
    obtain ⟨left, e, as, rfl⟩ := hchains rfl
    cases v <;> rfl
  | cons frame within => cases frame <;> cases site <;> cases v <;> rfl

theorem takes_patternStart {k : PatternSite → List PatternFrame → List Pattern → Focus}
    (hk : patternStart t = some k) (ht : Nonterminal.atomPattern.starts t = true)
    (h : Takes g ⟨done, stack, k site within heads⟩ ts Q) :
    Takes g ⟨done, stack, .pattern site within heads⟩ (t :: ts) Q := by
  refine takes_cons ?_ h
  rw [shift_pattern ht, hk]
  rfl

theorem unrefused_patternToken (ht : Nonterminal.atomPattern.starts t = true)
    (hk : ∃ v, patternStart t = some fun site within heads => .patternEnd site within heads v) :
    Unrefused g .atomPattern [t] := by
  obtain ⟨v, hk⟩ := hk
  exact fun done stack site within heads => takes_patternStart hk ht ⟨heads, v, rfl⟩

theorem unrefused_patternTruth (capital b : Bool) :
    Unrefused g .atomPattern [.symbol (truthSymbol capital b)] := by
  cases capital <;> cases b <;> exact unrefused_patternToken rfl ⟨_, rfl⟩

theorem unrefused_patternBrackets (h : Unrefused g .patternElems ts) :
    Unrefused g .atomPattern (.symbol .lbracket :: ts ++ [.symbol .rbracket]) :=
  fun done stack site within heads => takes_patternStart rfl rfl (h done stack site within heads [])

theorem unrefused_patternParen (h : Unrefused g .pattern ts) :
    Unrefused g .atomPattern (.symbol .lparen :: ts ++ [.symbol .rparen]) := by
  intro done stack site within heads
  refine takes_patternStart rfl rfl ?_
  refine (h done stack site (.paren heads :: within) [] chains_cons).trans ?_
  rintro _ ⟨heads', v, rfl⟩
  refine takes_cons_of_map (x := v) (f := fun p =>
    ⟨done, stack, .patternEnd site within heads (.ok (consChain heads' p))⟩) ?_ fun p => ⟨heads, _, rfl⟩
  cases v <;> cases site <;> rfl

theorem unrefused_noPattern : Unrefused g .patternElems [] :=
  fun _ _ _ _ heads _ => takes_cons rfl ⟨heads, _, rfl⟩

theorem takes_patternElem {T : ParseTree .pattern} (h : Unrefused g .pattern T.tokens)
    (hQ : ∀ st, AfterPattern done stack site (.elem heads ps :: within) st → Takes g st us Q) :
    Takes g ⟨done, stack, .patternElem site within heads ps⟩ (T.tokens ++ us) Q := by
  refine takes_append.mpr (takes_congr T rfl (fun t ht => shift_patternElem (ne_of_starts rfl ht)) ?_)
  exact (h done stack site (.elem heads ps :: within) [] chains_cons).mono hQ

theorem unrefused_lastPattern {T : ParseTree .pattern} (h : Unrefused g .pattern T.tokens) :
    Unrefused g .patternElems T.tokens := by
  intro done stack site within heads ps
  refine takes_patternElem h ?_
  rintro _ ⟨heads', v, rfl⟩
  refine takes_cons_of_map (x := v) (f := fun p => ⟨done, stack, .patternEnd site within heads
    (.ok (.ofList (ps ++ [consChain heads' p])))⟩) ?_ fun p => ⟨heads, _, rfl⟩
  cases v <;> cases site <;> rfl

theorem unrefused_morePatterns {T : ParseTree .pattern} (h : Unrefused g .pattern T.tokens)
    (hps : Unrefused g .patternElems ts) :
    Unrefused g .patternElems (T.tokens ++ .symbol .comma :: ts) := by
  intro done stack site within heads ps
  rw [List.append_assoc]
  refine takes_patternElem h ?_
  rintro _ ⟨heads', v, rfl⟩
  refine takes_cons_of_map (x := v) (f := fun p => ⟨done, stack, .patternElem site within heads
    (ps ++ [consChain heads' p])⟩) ?_ fun p => hps done stack site within heads _
  cases v <;> cases site <;> rfl

end Patterns

/-- A text that the grammar derives is taken to its end, unless a fault is reported before. -/
theorem unrefused {n : Nonterminal} (T : ParseTree n) : Unrefused g n T.tokens := by
  induction T with
  | lambda x xs b ih => exact unrefused_lambda ih
  | letIn rec cs b ihcs ihb => exact unrefused_letIn ihcs ihb
  | cond c y z ihc ihy ihz => exact unrefused_cond ihc ihy ihz
  | ofOr e ih => exact unrefused_ofOr ih
  | or l r ihl ihr => exact Loose.operator ihl ihr fun _ => ⟨_, rfl, fun _ => rfl⟩
  | and l r ihl ihr => exact Loose.operator ihl ihr fun _ => ⟨_, rfl, fun _ => rfl⟩
  | cmp l c r ihl ihr => exact Tight.compare ihl ihr c
  | cons l r ihl ihr => exact Tight.operator ihl ihr fun _ => ⟨_, rfl, fun _ => rfl⟩
  | add l a r ihl ihr =>
    exact Tight.operator ihl ihr fun _ => by cases a <;> exact ⟨_, rfl, fun _ => rfl⟩
  | mul l r ihl ihr => exact Tight.operator ihl ihr fun _ => ⟨_, rfl, fun _ => rfl⟩
  | app f a ihf iha => exact Tight.argument ihf iha
  | ofCons e ih => exact Tight.loose ih
  | ofAnd e ih | ofCmp e ih | ofAdd e ih | ofMul e ih | ofApp e ih | ofAtom e ih => exact ih
  | number digits => exact tight_of_operandStart rfl fun _ _ => ⟨_, rfl⟩
  | truth capital b => exact tight_truth capital b
  | var x => exact tight_of_operandStart rfl fun _ _ => ⟨_, rfl⟩
  | paren e ih => exact tight_paren ih
  | brackets es ih => exact tight_brackets ih
  | case e bar as ihe ihas => exact tight_case bar ihe ihas
  | noElem => exact unrefused_noElem
  | lastElem e ih => exact unrefused_lastElem ih
  | moreElems e es ih ihes => exact unrefused_moreElems ih ihes
  | arm p e ihp ihe => exact unrefused_arm ihp ihe
  | lastArm a ih => exact unrefused_lastArm ih
  | moreArms a as ih ihas => exact unrefused_moreArms ih ihas
  | clause x ps b ihps ihb => exact unrefused_clause ihps ihb
  | lastClause c ih => exact ih
  | moreClauses c cs ih ihcs => exact unrefused_moreClauses ih ihcs
  | noParam => exact unrefused_noParam
  | moreParams p ps ih ihps => exact unrefused_moreParams ih ihps
  | patternCons p q ihp ihq => exact unrefused_patternCons ihp ihq
  | ofAtomPattern p ih => exact unrefused_ofAtomPattern ih
  | wild | patternVar | patternNumber => exact unrefused_patternToken rfl ⟨_, rfl⟩
  | patternTruth capital b => exact unrefused_patternTruth capital b
  | patternBrackets ps ih => exact unrefused_patternBrackets ih
  | patternParen p ih => exact unrefused_patternParen ih
  | noPattern => exact unrefused_noPattern
  | lastPattern p ih => exact unrefused_lastPattern ih
  | morePatterns p ps ih ihps => exact unrefused_morePatterns ih ihps
  | letDecl rec cs ih =>
    intro done
    refine (takes_let (ih done [] rec [])).mono ?_
    rintro _ ⟨cs, name, ps, hst⟩
    exact ⟨_, hst, fun _ => rfl⟩
  | evalDecl e ih => exact fun done => (ih done []).mono fun st hst => ⟨[], hst, fun _ => rfl⟩
  | statement | noDecl | moreDecls => trivial

section Statements

theorem takes_semi {k : List Decl → Decl → State} (hst : AfterExpr done outer st)
    (hdecl : ∀ v, (decl? outer v).isSome = true) (hk : g.afterDecl = some k)
    (h : ∀ d, Takes g (k done d) ts Q) : Takes g st (.symbol .semi :: ts) Q := by
  obtain ⟨stack, left, v, rfl, w, hw⟩ := hst.settle
  obtain ⟨d, hd⟩ := Option.isSome_iff_exists.mp (hdecl w)
  refine takes_cons_of_map (x := d) (f := k done) ?_ h
  change closeShift g done stack (v.map left.complete) (.symbol .semi) = _
  unfold closeShift
  rw [hw]
  simp only [hk, hd]
  rfl

theorem takes_program : ∀ (T : ParseTree .program) (done : List Decl),
    Takes .program ⟨done, [], .expr⟩ T.tokens fun st => ∃ done, st = ⟨done, [], .expr⟩
  | .noDecl, done => ⟨done, rfl⟩
  | .moreDecls D T, done => by
    refine (unrefused D done).trans ?_
    rintro st ⟨outer, hst, hdecl⟩
    exact takes_semi hst hdecl rfl fun d => takes_program T (done ++ [d])

/-- A sentence is taken to its end and may end there, unless a fault is reported. -/
theorem takes_sentence (T : ParseTree g.start) :
    Takes g .start T.tokens fun st => (finish g st).isSome = true := by
  cases g with
  | expr =>
    refine (unrefused (n := .expr) T [] []).mono fun st hst => ?_
    obtain ⟨stack, left, v, rfl, w, hw⟩ := hst.settle
    rw [finish]
    dsimp only
    rw [hw]
    rfl
  | statement =>
    cases T with | statement D b =>
    refine (unrefused D []).trans ?_
    rintro st ⟨outer, hst, hdecl⟩
    cases b with
    | true => exact takes_semi hst hdecl rfl fun d => rfl
    | false =>
      obtain ⟨stack, left, v, rfl, w, hw⟩ := hst.settle
      change (finish .statement ⟨[], stack, .operator left v⟩).isSome = true
      rw [finish]
      dsimp only
      rw [hw]
      exact hdecl w
  | program =>
    refine (takes_program T []).mono ?_
    rintro _ ⟨done, rfl⟩
    rfl

end Statements

end LetML

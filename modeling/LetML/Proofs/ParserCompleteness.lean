import LetML.Proofs.ParserSoundness

namespace LetML

variable {α : Type} {g : Goal α} {st : State} {t : Token} {ts us : List Token}
  {done : List Decl} {stack : List Frame} {left left' : Pending}

/-- A text leads from a state to the end of an expression, and `r` is left when the constructs that
end with it are closed. -/
def Ends (g : Goal α) (st : State) (ts : List Token) (done : List Decl)
    (r : List Frame × Except Fault Expr) : Prop :=
  ∃ stack left a, run g st ts = some ⟨done, stack, .operator left (.ok a)⟩ ∧
    settle stack (.ok (left.complete a)) = r

/-- A text leads from where an operand is due to where the operand `a` has been read. -/
def Operates (g : Goal α) (ts : List Token) (left left' : Pending) (a : Expr) : Prop :=
  ∀ done stack, run g ⟨done, stack, .operand left⟩ ts =
    some ⟨done, stack, .operator left' (.ok a)⟩

/-- How the parser reads a text of a nonterminal with a given meaning. A level of operators changes
what waits at its own level and at tighter ones; a sequence is read with the token that ends it. -/
def Read (g : Goal α) : (n : Nonterminal) → List Token → n.Meaning → Prop
  | .expr, ts, v => ∀ done stack, Ends g ⟨done, stack, .expr⟩ ts done (settle stack (.ok v))
  | .or, ts, v => ∀ o, ∃ left a, Operates g ts ⟨o, [], none, [], none, none, none⟩ left a ∧
    left.complete a = o.foldl (fun r l => .bin .or l r) v
  | .and, ts, v => ∀ o n, ∃ n' c h s m f a,
    Operates g ts ⟨o, n, none, [], none, none, none⟩ ⟨o, n', c, h, s, m, f⟩ a ∧
    Pending.conjoined ⟨o, n', c, h, s, m, f⟩ a = n.foldl (fun r l => .bin .and l r) v
  | .cmp, ts, v => ∀ o n, ∃ c h s m f a,
    Operates g ts ⟨o, n, none, [], none, none, none⟩ ⟨o, n, c, h, s, m, f⟩ a ∧
    Pending.compared ⟨o, n, c, h, s, m, f⟩ a = v
  | .cons, ts, v => ∀ o n c h, ∃ h' s m f a,
    Operates g ts ⟨o, n, c, h, none, none, none⟩ ⟨o, n, c, h', s, m, f⟩ a ∧
    Pending.listed ⟨o, n, c, h', s, m, f⟩ a = h.foldl (fun t x => .cons x t) v
  | .add, ts, v => ∀ o n c h, ∃ s m f a,
    Operates g ts ⟨o, n, c, h, none, none, none⟩ ⟨o, n, c, h, s, m, f⟩ a ∧
    Pending.added ⟨o, n, c, h, s, m, f⟩ a = v
  | .mul, ts, v => ∀ o n c h s, ∃ m f a,
    Operates g ts ⟨o, n, c, h, s, none, none⟩ ⟨o, n, c, h, s, m, f⟩ a ∧
    Pending.multiplied ⟨o, n, c, h, s, m, f⟩ a = v
  | .app, ts, v => ∀ o n c h s m, ∃ f a,
    Operates g ts ⟨o, n, c, h, s, m, none⟩ ⟨o, n, c, h, s, m, f⟩ a ∧
    Pending.application ⟨o, n, c, h, s, m, f⟩ a = v
  | .atom, ts, v => ∀ left, Operates g ts left left v
  | .elems, ts, v => ∀ done stack left es,
    run g ⟨done, stack, .elem left es⟩ (ts ++ [.symbol .rbracket]) =
      some ⟨done, stack, .operator left (.ok (bracketed (es ++ v)))⟩
  | .arm, ts, v => ∀ done stack left e as,
    Ends g ⟨done, stack, .pattern (.arm left e as) [] []⟩ ts done
      (.arm left e as v.1 :: stack, .ok v.2)
  | .arms, ts, v => ∀ done stack left e as,
    run g ⟨done, stack, .pattern (.arm left e as) [] []⟩ (ts ++ [.symbol .kwEnd]) =
      some ⟨done, stack, .operator left (.ok (.case e (as ++ v)))⟩
  | .clause, ts, v => ∀ done stack rec cs,
    Ends g ⟨done, stack, .clauseName rec cs⟩ ts done
      (.clause rec cs v.name v.params :: stack, .ok v.body)
  -- the last clause stays open, because a bar, `in` or the end of the statement may come next
  | .clauses, ts, v => ∃ init c, v = init ++ [c] ∧ ∀ done stack rec cs,
    Ends g ⟨done, stack, .clauseName rec cs⟩ ts done
      (.clause rec (cs ++ init) c.name c.params :: stack, .ok c.body)
  -- parameters and patterns in brackets accumulate after those that were read before
  | .params, ts, v => ∀ done stack rec cs name ps,
    run g ⟨done, stack, .pattern (.param rec cs name ps) [] []⟩ (ts ++ [.symbol .assign]) =
      some ⟨done, .clause rec cs name (ps ++ v) :: stack, .expr⟩
  | .pattern, ts, v => ∀ done stack site within heads, Chains site within → ∃ heads' p,
    run g ⟨done, stack, .pattern site within heads⟩ ts =
      some ⟨done, stack, .patternEnd site within heads' (.ok p)⟩ ∧
    consChain heads' p = consChain heads v
  | .atomPattern, ts, v => ∀ done stack site within heads,
    run g ⟨done, stack, .pattern site within heads⟩ ts =
      some ⟨done, stack, .patternEnd site within heads (.ok v)⟩
  | .patternElems, ts, v => ∀ done stack site within heads ps,
    run g ⟨done, stack, .patternElem site within heads ps⟩ (ts ++ [.symbol .rbracket]) =
      some ⟨done, stack, .patternEnd site within heads (.ok (.ofList (ps ++ v)))⟩
  | .decl, ts, v => ∀ done, ∃ r, Ends g ⟨done, [], .expr⟩ ts done r ∧ decl? r.1 r.2 = some (.ok v)
  | .statement, _, _ | .program, _, _ => True

theorem Ends.close {frame : Frame} {s : Symbol} {e : Expr} {stack' : List Frame} {focus : Focus}
    (h : Ends g st ts done (frame :: stack, .ok e))
    (hs : (frameShift frame s).map (fun k => k e stack) = some (stack', focus)) :
    run g st (ts ++ .symbol s :: us) = run g ⟨done, stack', focus⟩ us := by
  obtain ⟨stack₁, left, a, hrun, hsettle⟩ := h
  obtain ⟨k, hk, hr⟩ := Option.map_eq_some_iff.mp hs
  obtain ⟨hstart, hop, hsemi⟩ := not_continues_of_frameShift (l := left) hk
  rw [run_append hrun]
  apply run_cons
  simp only [shift, operatorShift, hstart, hop]
  refine (closeShift_frame hsemi hsettle).trans ?_
  rw [hk, Option.map_some, Except.map, hr]

theorem Ends.of_run_eq {st' : State} {r : List Frame × Except Fault Expr}
    (hrun : run g st ts = run g st' us) (h : Ends g st' us done r) : Ends g st ts done r := by
  obtain ⟨stack, left, a, hus, hsettle⟩ := h
  exact ⟨stack, left, a, hrun.trans hus, hsettle⟩

theorem Operates.trans {left₁ left₂ : Pending} {a b : Expr} {s : Symbol}
    (h : Operates g ts left left₁ a)
    (hs : ∀ done stack, shift g ⟨done, stack, .operator left₁ (.ok a)⟩ (.symbol s) =
      some (.ok ⟨done, stack, .operand left₂⟩))
    (h' : Operates g us left₂ left' b) : Operates g (ts ++ .symbol s :: us) left left' b := by
  intro done stack
  rw [run_append (h done stack), run_cons (hs done stack)]
  exact h' done stack

section Operators

variable {u w : Expr}

theorem read_app {T : ParseTree .atom} (hf : Read g .app ts u) (ha : Read g .atom T.tokens w) :
    Read g .app (ts ++ T.tokens) (.app u w) := by
  intro o n c h s m
  obtain ⟨f, a, hrun, rfl⟩ := hf o n c h s m
  refine ⟨some (Pending.application ⟨o, n, c, h, s, m, f⟩ a), w, fun done stack => ?_, rfl⟩
  rw [run_append (hrun done stack), run_congr_tokens T rfl fun t ht =>
    shift_operator (by simpa [Nonterminal.starts] using ht)]
  exact ha _ done stack

theorem read_ofAtom (h : Read g .atom ts u) : Read g .app ts u :=
  fun _ _ _ _ _ _ => ⟨none, u, h _, rfl⟩

theorem read_mul (hl : Read g .mul ts u) (hr : Read g .app us w) :
    Read g .mul (ts ++ .symbol .star :: us) (.bin .mul u w) := by
  intro o n c h s
  obtain ⟨m, f, a, hrun, rfl⟩ := hl o n c h s
  obtain ⟨f', a', hrun', rfl⟩ := hr o n c h s (some (Pending.multiplied ⟨o, n, c, h, s, m, f⟩ a))
  exact ⟨_, f', a', hrun.trans (fun _ _ => rfl) hrun', rfl⟩

theorem read_ofApp (h : Read g .app ts u) : Read g .mul ts u := by
  intro o n c hs s
  obtain ⟨f, a, hrun, rfl⟩ := h o n c hs s none
  exact ⟨none, f, a, hrun, rfl⟩

theorem read_add {d : Addition} (hl : Read g .add ts u) (hr : Read g .mul us w) :
    Read g .add (ts ++ .symbol d.symbol :: us) (.bin d.op u w) := by
  intro o n c h
  obtain ⟨s, m, f, a, hrun, rfl⟩ := hl o n c h
  obtain ⟨m', f', a', hrun', rfl⟩ := hr o n c h
    (some (Pending.added ⟨o, n, c, h, s, m, f⟩ a, d.op))
  exact ⟨_, m', f', a', hrun.trans (fun _ _ => by cases d <;> rfl) hrun', rfl⟩

theorem read_ofMul (h : Read g .mul ts u) : Read g .add ts u := by
  intro o n c hs
  obtain ⟨m, f, a, hrun, rfl⟩ := h o n c hs none
  exact ⟨none, m, f, a, hrun, rfl⟩

theorem read_cons (hh : Read g .add ts u) (ht : Read g .cons us w) :
    Read g .cons (ts ++ .symbol .colons :: us) (.cons u w) := by
  intro o n c h
  obtain ⟨s, m, f, a, hrun, rfl⟩ := hh o n c h
  obtain ⟨h', s', m', f', a', hrun', hlisted⟩ := ht o n c
    (Pending.added ⟨o, n, c, h, s, m, f⟩ a :: h)
  exact ⟨h', s', m', f', a', hrun.trans (fun _ _ => rfl) hrun', hlisted⟩

theorem read_ofAdd (h : Read g .add ts u) : Read g .cons ts u := by
  intro o n c hs
  obtain ⟨s, m, f, a, hrun, rfl⟩ := h o n c hs
  exact ⟨hs, s, m, f, a, hrun, rfl⟩

theorem read_cmp {q : Comparison} (hl : Read g .cons ts u) (hr : Read g .cons us w) :
    Read g .cmp (ts ++ .symbol q.symbol :: us) (.bin q.op u w) := by
  intro o n
  obtain ⟨h, s, m, f, a, hrun, rfl⟩ := hl o n none []
  obtain ⟨h', s', m', f', a', hrun', rfl⟩ := hr o n
    (some (Pending.listed ⟨o, n, none, h, s, m, f⟩ a, q.op)) []
  exact ⟨_, h', s', m', f', a', hrun.trans (fun _ _ => by cases q <;> rfl) hrun', rfl⟩

theorem read_ofCons (h : Read g .cons ts u) : Read g .cmp ts u := by
  intro o n
  obtain ⟨hs, s, m, f, a, hrun, rfl⟩ := h o n none []
  exact ⟨none, hs, s, m, f, a, hrun, rfl⟩

theorem read_and (hl : Read g .cmp ts u) (hr : Read g .and us w) :
    Read g .and (ts ++ .symbol .andAnd :: us) (.bin .and u w) := by
  intro o n
  obtain ⟨c, h, s, m, f, a, hrun, rfl⟩ := hl o n
  obtain ⟨n', c', h', s', m', f', a', hrun', hconjoined⟩ := hr o
    (Pending.compared ⟨o, n, c, h, s, m, f⟩ a :: n)
  exact ⟨n', c', h', s', m', f', a', hrun.trans (fun _ _ => rfl) hrun', hconjoined⟩

theorem read_ofCmp (h : Read g .cmp ts u) : Read g .and ts u := by
  intro o n
  obtain ⟨c, hs, s, m, f, a, hrun, rfl⟩ := h o n
  exact ⟨n, c, hs, s, m, f, a, hrun, rfl⟩

theorem read_or (hl : Read g .and ts u) (hr : Read g .or us w) :
    Read g .or (ts ++ .symbol .orOr :: us) (.bin .or u w) := by
  intro o
  obtain ⟨n, c, h, s, m, f, a, hrun, hconjoined⟩ := hl o []
  obtain rfl : Pending.conjoined ⟨o, n, c, h, s, m, f⟩ a = u := hconjoined
  obtain ⟨left', a', hrun', hcomplete⟩ := hr (Pending.conjoined ⟨o, n, c, h, s, m, f⟩ a :: o)
  exact ⟨left', a', hrun.trans (fun _ _ => rfl) hrun', hcomplete⟩

theorem read_ofAnd (h : Read g .and ts u) : Read g .or ts u := by
  intro o
  obtain ⟨n, c, hs, s, m, f, a, hrun, hconjoined⟩ := h o []
  obtain rfl : Pending.conjoined ⟨o, n, c, hs, s, m, f⟩ a = u := hconjoined
  exact ⟨_, a, hrun, rfl⟩

end Operators

section Expressions

variable {u v w : Expr}

theorem run_idents (xs : List String) (ys : List String) :
    run g ⟨done, stack, .lambda ys⟩ (xs.map .ident) = some ⟨done, stack, .lambda (ys ++ xs)⟩ := by
  induction xs generalizing ys with
  | nil => simp [run]
  | cons x xs ih =>
    rw [List.map_cons, run_cons rfl, ih, List.append_assoc]
    rfl

theorem read_lambda {x : String} {xs : List String} (hb : Read g .expr ts u) :
    Read g .expr (.symbol .backslash :: .ident x :: xs.map .ident ++ .symbol .arrow :: ts)
      (Expr.lambda (x :: xs) u) := by
  intro done stack
  have hparams : run g ⟨done, stack, .expr⟩ (.symbol .backslash :: .ident x :: xs.map .ident) =
      some ⟨done, stack, .lambda (x :: xs)⟩ := by
    rw [run_cons rfl, run_cons rfl]
    exact run_idents xs [x]
  exact .of_run_eq ((run_append hparams).trans (run_cons rfl))
    (hb done (.lambda (x :: xs) :: stack))

theorem run_let {T : ParseTree .clauses} {rec : Bool} :
    run g ⟨done, stack, .expr⟩ (.symbol .kwLet :: optional rec .kwRec ++ T.tokens ++ us) =
      run g ⟨done, stack, .clauseName rec []⟩ (T.tokens ++ us) := by
  cases rec with
  | false =>
    refine (run_cons rfl).trans ?_
    exact run_congr T rfl fun t ht => shift_afterLet (ne_of_starts rfl ht)
  | true => exact (run_cons rfl).trans (run_cons rfl)

theorem read_letIn {T : ParseTree .clauses} {cs : List Clause} {rec : Bool}
    (hcs : Read g .clauses T.tokens cs) (hb : Read g .expr us u) (hv : letExpr rec cs u = .ok v) :
    Read g .expr (.symbol .kwLet :: optional rec .kwRec ++ T.tokens ++ .symbol .kwIn :: us) v := by
  obtain ⟨init, c, rfl, hclauses⟩ := hcs
  intro done stack
  rw [← hv]
  exact .of_run_eq (run_let.trans ((hclauses done stack rec []).close rfl))
    (hb done (.body rec (init ++ [c]) :: stack))

theorem read_cond {xs : List Token} (ht : Read g .expr ts u) (hy : Read g .expr us v)
    (hn : Read g .expr xs w) :
    Read g .expr (.symbol .kwIf :: ts ++ .symbol .kwThen :: us ++ .symbol .kwElse :: xs)
      (.cond u v w) := by
  intro done stack
  have hyes := Ends.of_run_eq ((ht done (.test :: stack)).close (s := .kwThen) rfl)
    (hy done (.yes u :: stack))
  exact .of_run_eq ((run_cons rfl).trans (hyes.close rfl)) (hn done (.no u v :: stack))

theorem read_ofOr {T : ParseTree .or} (h : Read g .or T.tokens u) : Read g .expr T.tokens u := by
  intro done stack
  obtain ⟨left', a, hrun, hcomplete⟩ := h []
  obtain rfl : left'.complete a = u := hcomplete
  refine ⟨stack, left', a, ?_, rfl⟩
  rw [run_congr_tokens T rfl fun t ht => shift_expr (by simpa [Nonterminal.starts] using ht)]
  exact hrun done stack

theorem read_number {digits : String} {n : Int64} (h : readInt digits = .ok n) :
    Read g .atom [.number digits] (.lit (.int n)) := by
  intro left done stack
  rw [run_cons rfl, h]
  rfl

theorem read_truth (capital b : Bool) :
    Read g .atom [.symbol (truthSymbol capital b)] (.lit (.bool b)) := by
  intro left done stack
  cases capital <;> cases b <;> rfl

theorem read_var (x : String) : Read g .atom [.ident x] (.var x) := fun _ _ _ => rfl

theorem read_paren (h : Read g .expr ts u) :
    Read g .atom (.symbol .lparen :: ts ++ [.symbol .rparen]) u := by
  intro left done stack
  exact (run_cons rfl).trans (((h done (.paren left :: stack)).close rfl).trans rfl)

theorem read_brackets {es : List Expr} (h : Read g .elems ts es) :
    Read g .atom (.symbol .lbracket :: ts ++ [.symbol .rbracket]) (bracketed es) := by
  intro left done stack
  exact (run_cons rfl).trans (h done stack left [])

theorem read_case {T : ParseTree .arms} {as : List (Pattern × Expr)} (bar : Bool)
    (he : Read g .expr ts u) (has : Read g .arms T.tokens as) :
    Read g .atom (.symbol .kwCase :: ts ++ .symbol .kwOf :: optional bar .bar ++ T.tokens
      ++ [.symbol .kwEnd]) (.case u as) := by
  intro left done stack
  simp only [List.cons_append, List.append_assoc]
  refine (run_cons rfl).trans (((he done (.scrutinee left :: stack)).close rfl).trans ?_)
  cases bar with
  | false =>
    exact (run_congr T rfl fun t ht => shift_firstArm (ne_of_starts rfl ht)).trans
      (has done stack left u [])
  | true => exact (run_cons rfl).trans (has done stack left u [])

end Expressions

section Sequences

variable {e : Expr}

theorem read_noElem : Read g .elems [] [] := by
  intro done stack left es
  rw [List.append_nil]
  rfl

theorem ends_elem {T : ParseTree .expr} (h : Read g .expr T.tokens e) (left : Pending)
    (es : List Expr) :
    Ends g ⟨done, stack, .elem left es⟩ T.tokens done (.elem left es :: stack, .ok e) := by
  exact .of_run_eq (run_congr_tokens T rfl fun t ht => shift_elem es (ne_of_starts rfl ht))
    (h done (.elem left es :: stack))

theorem read_lastElem {T : ParseTree .expr} (h : Read g .expr T.tokens e) :
    Read g .elems T.tokens [e] :=
  fun _ _ left es => ((ends_elem h left es).close rfl).trans rfl

theorem read_moreElems {T : ParseTree .expr} {es : List Expr} (h : Read g .expr T.tokens e)
    (hes : Read g .elems ts es) : Read g .elems (T.tokens ++ .symbol .comma :: ts) (e :: es) := by
  intro done stack left ds
  rw [List.append_assoc]
  refine ((ends_elem h left ds).close rfl).trans ((hes done stack left (ds ++ [e])).trans ?_)
  rw [List.append_assoc]
  rfl

variable {p : Pattern} {as : List (Pattern × Expr)} {c : Clause} {cs : List Clause}
  {ps : List Pattern} {name : String}

theorem chains_arm {left : Pending} {d : List (Pattern × Expr)} : Chains (.arm left e d) [] :=
  fun _ => ⟨left, e, d, rfl⟩

theorem chains_cons {site : PatternSite} {frame : PatternFrame} {within : List PatternFrame} :
    Chains site (frame :: within) := fun h => nomatch h

theorem read_arm (hp : Read g .pattern ts p) (he : Read g .expr us e) :
    Read g .arm (ts ++ .symbol .arrow :: us) (p, e) := by
  intro done stack left scrutinee as
  obtain ⟨heads, q, hrun, hchain⟩ := hp done stack (.arm left scrutinee as) [] [] chains_arm
  obtain rfl : consChain heads q = p := hchain
  exact .of_run_eq ((run_append hrun).trans (run_cons rfl)) (he done _)

theorem read_lastArm {a : Pattern × Expr} (h : Read g .arm ts a) : Read g .arms ts [a] :=
  fun done stack left e as => ((h done stack left e as).close rfl).trans rfl

theorem read_moreArms {a : Pattern × Expr} (h : Read g .arm ts a) (has : Read g .arms us as) :
    Read g .arms (ts ++ .symbol .bar :: us) (a :: as) := by
  intro done stack left e bs
  rw [List.append_assoc]
  refine ((h done stack left e bs).close rfl).trans ((has done stack left e (bs ++ [a])).trans ?_)
  rw [List.append_assoc]
  rfl

theorem read_clause (hps : Read g .params ts ps) (he : Read g .expr us e) :
    Read g .clause (.ident name :: ts ++ .symbol .assign :: us) ⟨name, ps, e⟩ := by
  intro done stack rec cs
  have hparams : run g ⟨done, stack, .clauseName rec cs⟩
      (.ident name :: (ts ++ [.symbol .assign])) = some ⟨done, .clause rec cs name ps :: stack, .expr⟩ :=
    (run_cons rfl).trans (hps done stack rec cs name [])
  have hends := Ends.of_run_eq (run_append hparams) (he done (.clause rec cs name ps :: stack))
  rwa [List.cons_append, List.append_assoc] at hends

theorem read_lastClause (h : Read g .clause ts c) : Read g .clauses ts [c] := by
  refine ⟨[], c, rfl, fun done stack rec cs => ?_⟩
  rw [List.append_nil]
  exact h done stack rec cs

theorem read_moreClauses (h : Read g .clause ts c) (hcs : Read g .clauses us cs) :
    Read g .clauses (ts ++ .symbol .bar :: us) (c :: cs) := by
  obtain ⟨init, d, rfl, hclauses⟩ := hcs
  refine ⟨c :: init, d, rfl, fun done stack rec ds => ?_⟩
  have hends := Ends.of_run_eq ((h done stack rec ds).close (s := .bar) rfl)
    (hclauses done stack rec (ds ++ [c]))
  rwa [List.append_assoc] at hends

theorem read_noParam : Read g .params [] [] := by
  intro done stack rec cs name ps
  rw [List.append_nil]
  rfl

theorem read_moreParams (hp : Read g .atomPattern ts p) (hps : Read g .params us ps) :
    Read g .params (ts ++ us) (p :: ps) := by
  intro done stack rec cs name qs
  rw [List.append_assoc, run_append (hp done stack _ [] [])]
  have hnext : ∀ t ts,
      run g ⟨done, stack, .patternEnd (.param rec cs name qs) [] [] (.ok p)⟩ (t :: ts) =
        run g ⟨done, stack, .pattern (.param rec cs name (qs ++ [p])) [] []⟩ (t :: ts) := by
    intro t ts
    rw [run, run, shift_patternEnd_param]
  obtain ⟨t, rest, hrest⟩ : ∃ t rest, us ++ [.symbol .assign] = t :: rest :=
    List.exists_cons_of_ne_nil (by simp)
  have hparams := hps done stack rec cs name (qs ++ [p])
  rw [hrest] at hparams ⊢
  rw [hnext, hparams, List.append_assoc]
  rfl

end Sequences

section Patterns

open ParseTree

variable {p q : Pattern} {ps : List Pattern}

theorem shift_colons {site : PatternSite} {within : List PatternFrame} {heads : List Pattern}
    (h : Chains site within) :
    shift g ⟨done, stack, .patternEnd site within heads (.ok p)⟩ (.symbol .colons) =
      some (.ok ⟨done, stack, .pattern site within (p :: heads)⟩) := by
  cases within with
  | nil =>
    obtain ⟨left, scrutinee, as, rfl⟩ := h rfl
    rfl
  | cons frame within => cases frame <;> cases site <;> rfl

theorem read_patternCons (hh : Read g .atomPattern ts p) (ht : Read g .pattern us q) :
    Read g .pattern (ts ++ .symbol .colons :: us) (.cons p q) := by
  intro done stack site within heads hchains
  obtain ⟨heads', p', hrun, hchain⟩ := ht done stack site within (p :: heads) hchains
  refine ⟨heads', p', ?_, hchain⟩
  rw [run_append (hh done stack site within heads), run_cons (shift_colons hchains), hrun]

theorem read_ofAtomPattern (h : Read g .atomPattern ts p) : Read g .pattern ts p :=
  fun done stack site within heads _ => ⟨heads, p, h done stack site within heads, rfl⟩

theorem read_atomPattern {T : ParseTree .atomPattern} {site : PatternSite}
    {within : List PatternFrame} {heads : List Pattern}
    {k : PatternSite → List PatternFrame → List Pattern → Focus} (hT : T.tokens = t :: ts)
    (hk : patternStart t = some k) :
    run g ⟨done, stack, .pattern site within heads⟩ T.tokens =
      run g ⟨done, stack, k site within heads⟩ ts := by
  obtain ⟨t', ts', hT', ht⟩ := T.exists_first rfl
  obtain ⟨rfl, rfl⟩ := List.cons.inj (hT'.symm.trans hT)
  rw [hT]
  apply run_cons
  rw [shift_pattern ht, hk]
  rfl

theorem read_wild : Read g .atomPattern wild.tokens .wild :=
  fun _ _ _ _ _ => (read_atomPattern rfl rfl).trans rfl

theorem read_patternVar (x : String) : Read g .atomPattern (patternVar x).tokens (.var x) :=
  fun _ _ _ _ _ => (read_atomPattern rfl rfl).trans rfl

theorem read_patternNumber {digits : String} {n : Int64} (h : readInt digits = .ok n) :
    Read g .atomPattern (patternNumber digits).tokens (.lit (.int n)) := by
  intro done stack site within heads
  rw [read_atomPattern rfl rfl, h]
  rfl

theorem read_patternTruth (capital b : Bool) :
    Read g .atomPattern (patternTruth capital b).tokens (.lit (.bool b)) := by
  intro done stack site within heads
  cases capital <;> cases b <;> exact (read_atomPattern rfl rfl).trans rfl

theorem read_patternBrackets {T : ParseTree .patternElems} (h : Read g .patternElems T.tokens ps) :
    Read g .atomPattern (patternBrackets T).tokens (.ofList ps) :=
  fun done stack site within heads =>
    (read_atomPattern rfl rfl).trans (h done stack site within heads [])

theorem read_patternParen {T : ParseTree .pattern} (h : Read g .pattern T.tokens p) :
    Read g .atomPattern (patternParen T).tokens p := by
  intro done stack site within heads
  obtain ⟨heads', p', hrun, hchain⟩ := h done stack site (.paren heads :: within) [] chains_cons
  obtain rfl : consChain heads' p' = p := hchain
  refine (read_atomPattern rfl rfl).trans ((run_append hrun).trans ?_)
  cases site <;> rfl

theorem read_noPattern : Read g .patternElems [] [] := by
  intro done stack site within heads ps
  rw [List.append_nil]
  rfl

theorem run_patternElem {T : ParseTree .pattern} {site : PatternSite}
    {within : List PatternFrame} {heads qs : List Pattern} {f : Focus} {s : Symbol}
    (h : Read g .pattern T.tokens p)
    (hs : ∀ heads' p', consChain heads' p' = p →
      shift g ⟨done, stack, .patternEnd site (.elem heads qs :: within) heads' (.ok p')⟩
        (.symbol s) = some (.ok ⟨done, stack, f⟩)) :
    run g ⟨done, stack, .patternElem site within heads qs⟩ (T.tokens ++ .symbol s :: us) =
      run g ⟨done, stack, f⟩ us := by
  obtain ⟨heads', p', hrun, hchain⟩ := h done stack site (.elem heads qs :: within) [] chains_cons
  rw [run_congr T rfl fun t ht => shift_patternElem (ne_of_starts rfl ht), run_append hrun]
  exact run_cons (hs heads' p' hchain)

theorem read_lastPattern {T : ParseTree .pattern} (h : Read g .pattern T.tokens p) :
    Read g .patternElems T.tokens [p] := by
  intro done stack site within heads qs
  refine (run_patternElem h fun heads' p' hchain => ?_).trans rfl
  subst hchain
  cases site <;> rfl

theorem read_morePatterns {T : ParseTree .pattern} (h : Read g .pattern T.tokens p)
    (hps : Read g .patternElems ts ps) :
    Read g .patternElems (T.tokens ++ .symbol .comma :: ts) (p :: ps) := by
  intro done stack site within heads qs
  rw [List.append_assoc]
  refine (run_patternElem (f := .patternElem site within heads (qs ++ [p])) h
    fun heads' p' hchain => ?_).trans ((hps done stack site within heads (qs ++ [p])).trans ?_)
  · subst hchain
    cases site <;> rfl
  · rw [List.append_assoc]
    rfl

end Patterns

section Statements

open ParseTree

variable {d : Decl}

theorem read_letDecl {T : ParseTree .clauses} {cs : List Clause} {rec : Bool}
    (hcs : Read g .clauses T.tokens cs) (hd : LetML.letDecl rec cs = .ok d) :
    Read g .decl (.symbol .kwLet :: optional rec .kwRec ++ T.tokens) d := by
  obtain ⟨init, c, rfl, hclauses⟩ := hcs
  intro done
  obtain ⟨stack', left', a, hrun, hsettle⟩ := hclauses done [] rec []
  refine ⟨_, ⟨stack', left', a, ?_, hsettle⟩, congrArg some hd⟩
  rw [← List.append_nil (_ ++ T.tokens), run_let, List.append_nil, hrun]

theorem read_evalDecl {e : Expr} (h : Read g .expr ts e) : Read g .decl ts (.eval e) :=
  fun done => ⟨_, h done [], rfl⟩

/-- The parser reads whatever has a derivation that means something. -/
theorem read_of_meaning {n : Nonterminal} (T : ParseTree n) {v : n.Meaning}
    (h : T.meaning = .ok v) : Read g n T.tokens v := by
  induction T with
  | lambda x xs b ih =>
    obtain ⟨u, hu, ⟨⟩⟩ := bind_eq_ok.mp h
    exact read_lambda (ih hu)
  | letIn rec cs b ihcs ihb =>
    obtain ⟨u, w, hu, hw, hv⟩ := bind₂_eq_ok.mp h
    exact read_letIn (ihcs hu) (ihb hw) hv
  | cond c y z ihc ihy ihz =>
    obtain ⟨u, w, hu, hw, hv⟩ := bind₂_eq_ok.mp h
    obtain ⟨x, hx, ⟨⟩⟩ := bind_eq_ok.mp hv
    exact read_cond (ihc hu) (ihy hw) (ihz hx)
  | ofOr e ih => exact read_ofOr (ih h)
  | or l r ihl ihr =>
    obtain ⟨u, w, hu, hw, ⟨⟩⟩ := bind₂_eq_ok.mp h
    exact read_or (ihl hu) (ihr hw)
  | ofAnd e ih => exact read_ofAnd (ih h)
  | and l r ihl ihr =>
    obtain ⟨u, w, hu, hw, ⟨⟩⟩ := bind₂_eq_ok.mp h
    exact read_and (ihl hu) (ihr hw)
  | ofCmp e ih => exact read_ofCmp (ih h)
  | cmp l c r ihl ihr =>
    obtain ⟨u, w, hu, hw, ⟨⟩⟩ := bind₂_eq_ok.mp h
    exact read_cmp (ihl hu) (ihr hw)
  | ofCons e ih => exact read_ofCons (ih h)
  | cons l r ihl ihr =>
    obtain ⟨u, w, hu, hw, ⟨⟩⟩ := bind₂_eq_ok.mp h
    exact read_cons (ihl hu) (ihr hw)
  | ofAdd e ih => exact read_ofAdd (ih h)
  | add l a r ihl ihr =>
    obtain ⟨u, w, hu, hw, ⟨⟩⟩ := bind₂_eq_ok.mp h
    exact read_add (ihl hu) (ihr hw)
  | ofMul e ih => exact read_ofMul (ih h)
  | mul l r ihl ihr =>
    obtain ⟨u, w, hu, hw, ⟨⟩⟩ := bind₂_eq_ok.mp h
    exact read_mul (ihl hu) (ihr hw)
  | ofApp e ih => exact read_ofApp (ih h)
  | app f a ihf iha =>
    obtain ⟨u, w, hu, hw, ⟨⟩⟩ := bind₂_eq_ok.mp h
    exact read_app (ihf hu) (iha hw)
  | ofAtom e ih => exact read_ofAtom (ih h)
  | number digits =>
    obtain ⟨i, hi, ⟨⟩⟩ := bind_eq_ok.mp h
    exact read_number hi
  | truth capital b =>
    cases h
    exact read_truth capital b
  | var x =>
    cases h
    exact read_var x
  | paren e ih => exact read_paren (ih h)
  | brackets es ih =>
    obtain ⟨u, hu, ⟨⟩⟩ := bind_eq_ok.mp h
    exact read_brackets (ih hu)
  | case e bar as ihe ihas =>
    obtain ⟨u, w, hu, hw, ⟨⟩⟩ := bind₂_eq_ok.mp h
    exact read_case bar (ihe hu) (ihas hw)
  | noElem =>
    cases h
    exact read_noElem
  | lastElem e ih =>
    obtain ⟨u, hu, ⟨⟩⟩ := bind_eq_ok.mp h
    exact read_lastElem (ih hu)
  | moreElems e es ih ihes =>
    obtain ⟨u, w, hu, hw, ⟨⟩⟩ := bind₂_eq_ok.mp h
    exact read_moreElems (ih hu) (ihes hw)
  | arm p e ihp ihe =>
    obtain ⟨u, w, hu, hw, ⟨⟩⟩ := bind₂_eq_ok.mp h
    exact read_arm (ihp hu) (ihe hw)
  | lastArm a ih =>
    obtain ⟨u, hu, ⟨⟩⟩ := bind_eq_ok.mp h
    exact read_lastArm (ih hu)
  | moreArms a as ih ihas =>
    obtain ⟨u, w, hu, hw, ⟨⟩⟩ := bind₂_eq_ok.mp h
    exact read_moreArms (ih hu) (ihas hw)
  | clause x ps b ihps ihb =>
    obtain ⟨u, w, hu, hw, ⟨⟩⟩ := bind₂_eq_ok.mp h
    exact read_clause (ihps hu) (ihb hw)
  | lastClause c ih =>
    obtain ⟨u, hu, ⟨⟩⟩ := bind_eq_ok.mp h
    exact read_lastClause (ih hu)
  | moreClauses c cs ih ihcs =>
    obtain ⟨u, w, hu, hw, ⟨⟩⟩ := bind₂_eq_ok.mp h
    exact read_moreClauses (ih hu) (ihcs hw)
  | noParam =>
    cases h
    exact read_noParam
  | moreParams p ps ih ihps =>
    obtain ⟨u, w, hu, hw, ⟨⟩⟩ := bind₂_eq_ok.mp h
    exact read_moreParams (ih hu) (ihps hw)
  | patternCons p q ihp ihq =>
    obtain ⟨u, w, hu, hw, ⟨⟩⟩ := bind₂_eq_ok.mp h
    exact read_patternCons (ihp hu) (ihq hw)
  | ofAtomPattern p ih => exact read_ofAtomPattern (ih h)
  | wild =>
    cases h
    exact read_wild
  | patternVar x =>
    cases h
    exact read_patternVar x
  | patternNumber digits =>
    obtain ⟨i, hi, ⟨⟩⟩ := bind_eq_ok.mp h
    exact read_patternNumber hi
  | patternTruth capital b =>
    cases h
    exact read_patternTruth capital b
  | patternBrackets ps ih =>
    obtain ⟨u, hu, ⟨⟩⟩ := bind_eq_ok.mp h
    exact read_patternBrackets (ih hu)
  | patternParen p ih => exact read_patternParen (ih h)
  | noPattern =>
    cases h
    exact read_noPattern
  | lastPattern p ih =>
    obtain ⟨u, hu, ⟨⟩⟩ := bind_eq_ok.mp h
    exact read_lastPattern (ih hu)
  | morePatterns p ps ih ihps =>
    obtain ⟨u, w, hu, hw, ⟨⟩⟩ := bind₂_eq_ok.mp h
    exact read_morePatterns (ih hu) (ihps hw)
  | letDecl rec cs ih =>
    obtain ⟨u, hu, hv⟩ := bind_eq_ok.mp h
    exact read_letDecl (ih hu) hv
  | evalDecl e ih =>
    obtain ⟨u, hu, ⟨⟩⟩ := bind_eq_ok.mp h
    exact read_evalDecl (ih hu)
  | statement | noDecl | moreDecls => trivial

theorem Ends.semi {r : List Frame × Except Fault Expr} {k : List Decl → Decl → State}
    (h : Ends g st ts done r) (hk : g.afterDecl = some k) (hd : decl? r.1 r.2 = some (.ok d)) :
    run g st (ts ++ .symbol .semi :: us) = run g (k done d) us := by
  obtain ⟨stack', left', a, hrun, rfl⟩ := h
  rw [run_append hrun]
  apply run_cons
  change closeShift g done stack' (.ok (left'.complete a)) (.symbol .semi) = _
  simp only [closeShift, hk, hd]
  rfl

theorem run_program : ∀ (T : ParseTree .program) {ds : List Decl}, T.meaning = .ok ds → ∀ done,
    run .program ⟨done, [], .expr⟩ T.tokens = some ⟨done ++ ds, [], .expr⟩
  | noDecl, ds, h, done => by
    cases h
    rw [List.append_nil]
    rfl
  | moreDecls D T, ds, h, done => by
    obtain ⟨d, ds, hd, hds, ⟨⟩⟩ := bind₂_eq_ok.mp h
    obtain ⟨r, hends, hr⟩ := read_of_meaning (g := .program) D hd done
    refine (hends.semi rfl hr).trans ((run_program T hds (done ++ [d])).trans ?_)
    rw [List.append_assoc]
    rfl

theorem finish_of_derives {a : α} (h : g.Derives ts a) :
    ∃ st, run g .start ts = some st ∧ finish g st = some (.ok a) := by
  cases g with
  | expr =>
    obtain ⟨T, rfl, hT⟩ := h
    obtain ⟨stack', left', e, hrun, hsettle⟩ := read_of_meaning (g := .expr) T hT [] []
    refine ⟨_, hrun, ?_⟩
    rw [finish]
    dsimp only [Except.map]
    rw [hsettle]
    rfl
  | statement =>
    obtain ⟨T, rfl, hT⟩ := h
    cases T with | statement D b =>
    obtain ⟨r, hends, hr⟩ := read_of_meaning (g := .statement) D hT []
    cases b with
    | false =>
      obtain ⟨stack', left', e, hrun, rfl⟩ := hends
      exact ⟨_, (congrArg _ (List.append_nil _)).trans hrun, hr⟩
    | true => exact ⟨_, (hends.semi rfl hr).trans rfl, rfl⟩
  | program =>
    obtain ⟨T, rfl, hT⟩ := h
    exact ⟨_, run_program T hT [], rfl⟩

end Statements

/-- The parser accepts the texts of its grammar and no others, with the meaning that a derivation
gives them, and no text has two derivations. -/
theorem parse_accepts_grammar (g : Goal α) (source : String) :
    (∀ a, parse g source = .ok a ↔ (scan source).invalid = none ∧
      g.Derives ((scan source).lexemes.map (·.token)) a) ∧
    ∀ n : Nonterminal, Function.Injective (ParseTree.tokens (n := n)) := by
  refine ⟨fun a => ?_, fun _ => ParseTree.tokens_injective⟩
  rw [parse, parseFrom_eq_ok]
  constructor
  · rintro ⟨hinvalid, st, hrun, hfinish⟩
    exact ⟨hinvalid, derives_of_finish hrun hfinish⟩
  · rintro ⟨hinvalid, hderives⟩
    exact ⟨hinvalid, finish_of_derives hderives⟩

end LetML

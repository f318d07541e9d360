import LetML.Proofs.ParserTexts

namespace LetML

variable {α : Type} {g : Goal α} {t : Token} {ts us ws : List Token}

section Starts

variable {stack : List Frame} {left : Pending}

theorem operandStart_reads {k : List Frame → Pending → List Frame × Focus}
    (hk : operandStart t = some k) (hs : Series Frame.Reads stack us) (hl : left.Reads ws) :
    Inside (k stack left) (us ++ (ws ++ [t])) := by
  cases t with
  | number digits =>
    cases hk
    exact ⟨us, _, hs, ⟨ws, _, hl, yields_readInt .number, rfl⟩, rfl⟩
  | ident x =>
    cases hk
    exact ⟨us, _, hs, ⟨ws, _, hl, yields_ok (.var x), rfl⟩, rfl⟩
  | symbol s =>
    cases s
    case lparen =>
      cases hk
      exact ⟨_, [], .cons hs ⟨ws, hl, rfl⟩, rfl, (List.append_nil _).symm⟩
    case kwCase =>
      cases hk
      exact ⟨_, [], .cons hs ⟨ws, hl, rfl⟩, rfl, (List.append_nil _).symm⟩
    case lbracket =>
      cases hk
      exact ⟨us, _, hs, ⟨ws, [], hl, .nil, rfl⟩, rfl⟩
    case kwTrue | capTrue | kwFalse | capFalse =>
      cases hk
      exact ⟨us, _, hs, ⟨ws, _, hl, yields_ok (.truth rfl), rfl⟩, rfl⟩
    all_goals cases hk

theorem exprStart_reads {k : List Frame → List Frame × Focus} (hk : exprStart t = some k)
    (hs : Series Frame.Reads stack us) : Inside (k stack) (us ++ [t]) := by
  have hoperand : (operandStart t).map (fun k stack => k stack .nothing) = some k →
      Inside (k stack) (us ++ [t]) := by
    intro h
    obtain ⟨k', hk', rfl⟩ := Option.map_eq_some_iff.mp h
    exact operandStart_reads hk' hs Pending.reads_nothing
  cases t with
  | number | ident => exact hoperand hk
  | symbol s =>
    cases s
    case backslash =>
      cases hk
      exact ⟨us, _, hs, rfl, rfl⟩
    case kwLet =>
      cases hk
      exact ⟨us, _, hs, rfl, rfl⟩
    case kwIf =>
      cases hk
      exact ⟨_, [], .cons hs rfl, rfl, (List.append_nil _).symm⟩
    all_goals exact hoperand hk

variable {site : PatternSite} {within : List PatternFrame} {heads ps : List Pattern} {p : Pattern}

theorem patternStart_reads {k : PatternSite → List PatternFrame → List Pattern → Focus}
    (hk : patternStart t = some k) (h : PatternText site within heads ts) :
    (k site within heads).Reads (ts ++ [t]) := by
  cases t with
  | number digits =>
    cases hk
    exact ⟨ts, _, h, yields_readInt .patternNumber, rfl⟩
  | ident x =>
    cases hk
    exact ⟨ts, _, h, yields_ok (.patternVar x), rfl⟩
  | symbol s =>
    cases s
    case underscore =>
      cases hk
      exact ⟨ts, _, h, yields_ok .wild, rfl⟩
    case lparen =>
      cases hk
      exact .paren h
    case lbracket =>
      cases hk
      exact .elem h .nil
    case kwTrue | capTrue | kwFalse | capFalse =>
      cases hk
      exact ⟨ts, _, h, yields_ok (.patternTruth rfl), rfl⟩
    all_goals cases hk

theorem paramShift_reads {rec : Bool} {cs : List Clause} {name : String}
    {k : List Pattern → List Frame → List Frame × Focus} (hk : paramShift rec cs name t = some k)
    (h : ClauseText rec cs name ps ts) (hs : Series Frame.Reads stack us) :
    Inside (k ps stack) (us ++ (ts ++ [t])) := by
  rw [paramShift] at hk
  split at hk
  · subst t
    cases hk
    exact ⟨_, [], .cons hs ⟨ts, h, rfl⟩, rfl, (List.append_nil _).symm⟩
  · obtain ⟨k', hk', rfl⟩ := Option.map_eq_some_iff.mp hk
    exact ⟨us, _, hs, patternStart_reads hk' (.site h), rfl⟩

end Starts

section Patterns

variable {stack : List Frame} {left : Pending} {site : PatternSite} {within : List PatternFrame}
  {heads ps : List Pattern} {p : Pattern}

namespace PatternText

theorem chain (h : PatternText site within heads ts) (hp : Derives .pattern us p) :
    ∃ ts' us', PatternText site within [] ts' ∧ Derives .pattern us' (consChain heads p) ∧
      ∀ rest, ts ++ (us ++ rest) = ts' ++ (us' ++ rest) := by
  induction heads generalizing ts us p with
  | nil => exact ⟨ts, us, h, hp, fun _ => rfl⟩
  | cons q heads ih =>
    cases h with
    | head h hc hq =>
      obtain ⟨ts', us', hts', hus', heq⟩ := ih h (hq.patternCons hp)
      exact ⟨ts', us', hts', hus', fun rest => by rw [← heq]; simp⟩

theorem of_param {rec : Bool} {cs : List Clause} {name : String}
    (h : PatternText (.param rec cs name ps) [] heads ts) :
    heads = [] ∧ ClauseText rec cs name ps ts := by
  cases h with
  | site h => exact ⟨rfl, h⟩
  | head h hc hp =>
    obtain ⟨left, e, as, hsite⟩ := hc rfl
    cases hsite

end PatternText

theorem ClauseText.param {rec : Bool} {cs : List Clause} {name : String}
    (h : ClauseText rec cs name ps ts) (hp : Derives .atomPattern us p) :
    ClauseText rec cs name (ps ++ [p]) (ts ++ us) := by
  obtain ⟨ls, ws, hlet, hps, rfl⟩ := h
  exact ⟨ls, ws ++ us, hlet, hps.concat ⟨us, hp, (List.append_nil _).symm⟩, by simp⟩

theorem patternEndShift_reads {xs : List Token} {k : Pattern → List Frame → List Frame × Focus}
    (hk : patternEndShift site within heads t = some k) (h : PatternText site within heads ts)
    (hp : Derives .atomPattern xs p) (hs : Series Frame.Reads stack us) :
    Inside (k p stack) (us ++ (ts ++ (xs ++ [t]))) := by
  obtain ⟨ts', xs', hts', hxs', heq⟩ := h.chain hp.ofAtomPattern
  unfold patternEndShift at hk
  split at hk
  -- a parameter is complete, whatever comes next
  case h_1 rec cs name ps =>
    obtain ⟨k', hk', rfl⟩ := Option.map_eq_some_iff.mp hk
    obtain ⟨rfl, hclause⟩ := h.of_param
    rw [← List.append_assoc ts]
    exact paramShift_reads hk' (hclause.param hp) hs
  -- `::` makes the pattern one more head of its chain
  case h_2 hno =>
    cases hk
    have hchains : Chains site within := by
      intro hnil
      cases site with
      | param rec cs name ps => exact (hno rec cs name ps hnil rfl).elim
      | arm left e as => exact ⟨left, e, as, rfl⟩
    exact ⟨us, _, hs, .head h hchains hp, rfl⟩
  -- all else ends the chain: an arrow the pattern of an arm, brackets and commas one inside them
  case h_3 left e as =>
    cases hk
    rw [heq]
    cases hts' with
    | site harm =>
      exact ⟨_, [], .cons hs ⟨ts', xs', harm, hxs', rfl⟩, rfl, (List.append_nil _).symm⟩
  case h_4 outer within =>
    cases hk
    rw [heq]
    cases hts' with
    | paren h =>
      exact ⟨us, _, hs, ⟨_, _, h, yields_ok hxs'.patternParen, rfl⟩, by simp⟩
  case h_5 outer done within =>
    cases hk
    rw [heq]
    cases hts' with
    | elem h hps =>
      exact ⟨us, _, hs, .elem h (hps.concat ⟨xs', hxs', rfl⟩), by simp⟩
  case h_6 outer done within =>
    cases hk
    rw [heq]
    cases hts' with
    | elem h hps =>
      have helems := hps.sequence (Derives .patternElems) (fun hq hqs => hq.morePatterns hqs)
        hxs'.lastPattern
      exact ⟨us, _, hs, ⟨_, _, h, yields_ok helems.patternBrackets, rfl⟩, by simp⟩
  case h_7 => cases hk

end Patterns

section Frames

variable {stack : List Frame} {e : Expr}

/-- A construct that ends with the expression inside it is an expression. -/
theorem settle_reads {v w : Except Fault Expr} {stack' : List Frame}
    (h : settle stack v = (stack', w)) (hs : Series Frame.Reads stack us) (hv : Yields .expr v ts) :
    ∃ us' ts', Series Frame.Reads stack' us' ∧ Yields .expr w ts' ∧ us ++ ts = us' ++ ts' := by
  induction stack, v using settle.induct generalizing us ts with
  | case1 ps stack v ih =>
    cases hs with
    | cons init last =>
      obtain ⟨x, xs, rfl, rfl⟩ := last
      rw [List.append_assoc]
      exact ih h init (hv.map fun hu => by simpa using hu.lambda)
  | case2 rec cs stack v ih =>
    cases hs with
    | cons init last =>
      obtain ⟨xs, hcs, rfl⟩ := last
      rw [List.append_assoc]
      exact ih h init (hv.bind fun hu hw => by simpa using hcs.letIn hu hw)
  | case3 test yes stack v ih =>
    cases hs with
    | cons init last =>
      obtain ⟨xs, ys, htest, hyes, rfl⟩ := last
      rw [List.append_assoc]
      exact ih h init (hv.map fun hu => by simpa using htest.cond hyes hu)
  | case4 stack v hl hb hn =>
    rw [settle] at h
    · cases h
      exact ⟨us, ts, hs, hv, rfl⟩
    · exact hl
    · exact hb
    · exact hn

theorem ClauseText.clause {rec : Bool} {cs : List Clause} {name : String} {ps : List Pattern}
    (h : ClauseText rec cs name ps ts) (he : Derives .expr us e) :
    ∃ vs xs, LetText rec cs vs ∧ Derives .clause xs ⟨name, ps, e⟩ ∧
      ∀ rest, ts ++ .symbol .assign :: (us ++ rest) = vs ++ (xs ++ rest) := by
  obtain ⟨vs, ws, hvs, hws, rfl⟩ := h
  have hps := hws.whole (Derives .params) (fun hp hps => hp.moreParams hps) .noParam
  exact ⟨vs, _, hvs, hps.clause he, fun rest => by simp⟩

theorem LetText.clauses {rec : Bool} {cs : List Clause} {c : Clause} (h : LetText rec cs ts)
    (hc : Derives .clause us c) : ∃ vs, Derives .clauses vs (cs ++ [c]) ∧
      ∀ rest, ts ++ (us ++ rest) = .symbol .kwLet :: optional rec .kwRec ++ vs ++ rest := by
  obtain ⟨ws, hws, rfl⟩ := h
  exact ⟨_, hws.sequence (Derives .clauses)
    (fun hc hcs => hc.moreClauses hcs) hc.lastClause, fun rest => by simp⟩

theorem frameShift_reads {frame : Frame} {s : Symbol} {xs : List Token}
    {k : Expr → List Frame → List Frame × Focus} (hk : frameShift frame s = some k)
    (hs : Series Frame.Reads stack us) (hf : frame.Reads ts) (he : Derives .expr xs e) :
    Inside (k e stack) (us ++ (ts ++ (xs ++ [.symbol s]))) := by
  cases frame with
  | lambda | body | no => cases s <;> cases hk
  | test =>
    cases s
    case kwThen =>
      cases hk
      obtain rfl := hf
      exact ⟨_, [], .cons hs ⟨xs, he, rfl⟩, rfl, by simp⟩
    all_goals cases hk
  | yes test =>
    cases s
    case kwElse =>
      cases hk
      obtain ⟨vs, htest, rfl⟩ := hf
      exact ⟨_, [], .cons hs ⟨vs, xs, htest, he, rfl⟩, rfl, by simp⟩
    all_goals cases hk
  | paren left =>
    cases s
    case rparen =>
      cases hk
      obtain ⟨vs, hleft, rfl⟩ := hf
      exact ⟨us, _, hs, ⟨vs, _, hleft, yields_ok he.paren, rfl⟩, by simp⟩
    all_goals cases hk
  | elem left es =>
    obtain ⟨vs, zs, hleft, hes, rfl⟩ := hf
    cases s
    case comma =>
      cases hk
      exact ⟨us, _, hs, ⟨vs, _, hleft, hes.concat ⟨xs, he, rfl⟩, rfl⟩, by simp⟩
    case rbracket =>
      cases hk
      have helems := hes.sequence (Derives .elems) (fun hu hus => hu.moreElems hus) he.lastElem
      exact ⟨us, _, hs, ⟨vs, _, hleft, yields_ok helems.brackets, rfl⟩, by simp⟩
    all_goals cases hk
  | scrutinee left =>
    cases s
    case kwOf =>
      cases hk
      obtain ⟨vs, hleft, rfl⟩ := hf
      exact ⟨us, _, hs, ⟨vs, xs, hleft, he, rfl⟩, by simp⟩
    all_goals cases hk
  | arm left u as p =>
    obtain ⟨vs, zs, ⟨ys, bar, bs, hcase, hbs, rfl⟩, hp, rfl⟩ := hf
    have harm := hp.arm he
    cases s
    case bar =>
      cases hk
      exact ⟨us, _, hs, .site ⟨ys, bar, _, hcase, hbs.concat ⟨_, harm, rfl⟩, rfl⟩, by simp⟩
    case kwEnd =>
      cases hk
      obtain ⟨ls, cs, hleft, hu, rfl⟩ := hcase
      have harms := hbs.sequence (Derives .arms) (fun ha has => ha.moreArms has) harm.lastArm
      exact ⟨us, _, hs, ⟨ls, _, hleft, yields_ok (hu.case bar harms), rfl⟩, by simp⟩
    all_goals cases hk
  | clause rec cs name ps =>
    obtain ⟨vs, hclause, rfl⟩ := hf
    obtain ⟨ls, ys, hlet, hc, heq⟩ := hclause.clause he
    cases s
    case bar =>
      cases hk
      obtain ⟨zs, hzs, rfl⟩ := hlet
      exact ⟨us, _, hs, ⟨_, hzs.concat ⟨ys, hc, rfl⟩, rfl⟩, by simp [heq]⟩
    case kwIn =>
      cases hk
      obtain ⟨zs, hcs, heq'⟩ := hlet.clauses hc
      exact ⟨_, [], .cons hs ⟨zs, hcs, rfl⟩, rfl, by simp [heq, heq']⟩
    all_goals cases hk

theorem decl?_reads {v : Except Fault Expr} {d : Decl} (h : decl? stack v = some (.ok d))
    (hs : Series Frame.Reads stack us) (hv : Yields .expr v ts) : Derives .decl (us ++ ts) d := by
  unfold decl? at h
  split at h
  case h_1 =>
    obtain rfl := hs.eq_nil
    exact hv.map (fun hu => hu.evalDecl) d (Option.some.inj h)
  case h_2 rec cs name ps =>
    cases hs with
    | cons init last =>
      obtain rfl := init.eq_nil
      obtain ⟨vs, hclause, rfl⟩ := last
      refine hv.bind (k := .decl) (fun hu hd => ?_) d (Option.some.inj h)
      obtain ⟨ls, ys, hlet, hc, heq⟩ := hclause.clause hu
      obtain ⟨zs, hcs, heq'⟩ := hlet.clauses hc
      have htext := (heq []).trans (heq' [])
      simp only [List.append_nil] at htext
      rw [List.nil_append, List.append_assoc, List.singleton_append, htext]
      exact hcs.letDecl hd
  case h_3 => cases h

end Frames

/-- Only a program is more than one statement. -/
def Goal.Keeps {α : Type} : Goal α → List Decl → Prop
  | .program, _ => True
  | _, done => done = []

/-- The texts of the statements that are done and of the constructs that are open. -/
structure Before (g : Goal α) (done : List Decl) (stack : List Frame) (us ws : List Token) :
    Prop where
  keeps : g.Keeps done
  statements : Series (Followed .decl [.symbol .semi]) done.reverse us
  constructs : Series Frame.Reads stack ws

/-- What the parser has read when it is in a state. -/
inductive State.Reads (g : Goal α) : State → List Token → Prop where
  | ended {done : List Decl} {stack : List Frame} {d : Decl} {ts : List Token}
    (h : Derives .statement ts d) : State.Reads g ⟨done, stack, .ended d⟩ ts
  | inside {done : List Decl} {stack : List Frame} {focus : Focus} {us ws ts : List Token}
    (before : Before g done stack us ws) (h : focus.Reads ts) :
    State.Reads g ⟨done, stack, focus⟩ (us ++ (ws ++ ts))

section Steps

variable {st st' : State} {done : List Decl} {stack : List Frame} {left : Pending} {e : Expr}
  {xs : List Token}

theorem reads_start : State.start.Reads g [] := by
  have hkeeps : g.Keeps [] := by cases g <;> first | rfl | trivial
  exact .inside ⟨hkeeps, .nil, .nil⟩ rfl

theorem Before.reads {r : List Frame × Focus} (hb : Before g done stack us ws) (h : Inside r xs) :
    State.Reads g ⟨done, r.1, r.2⟩ (us ++ xs) := by
  obtain ⟨ws', ts', hs, hfocus, rfl⟩ := h
  exact .inside ⟨hb.keeps, hb.statements, hs⟩ hfocus

theorem Before.afterDecl {k : List Decl → Decl → State} {d : Decl}
    (hb : Before g done stack us ws) (hk : g.afterDecl = some k) (hd : Derives .decl ts d) :
    (k done d).Reads g (us ++ (ts ++ [.symbol .semi])) := by
  cases g with
  | expr => cases hk
  | statement =>
    cases hk
    obtain rfl := hb.keeps
    obtain rfl := hb.statements.eq_nil
    exact .ended (hd.statement true)
  | program =>
    cases hk
    have hnext : Before .program (done ++ [d]) [] (us ++ (ts ++ [.symbol .semi])) [] :=
      ⟨trivial, hb.statements.concat ⟨ts, hd, rfl⟩, .nil⟩
    rw [← List.append_nil (us ++ _)]
    exact .inside hnext rfl

theorem closeShift_reads {v : Except Fault Expr} (hb : Before g done stack us ws)
    (h : closeShift g done stack v t = some (.ok st')) (hv : Yields .expr v ts) :
    st'.Reads g (us ++ (ws ++ (ts ++ [t]))) := by
  obtain ⟨stack', w, hsettle⟩ : ∃ s w, settle stack v = (s, w) := ⟨_, _, rfl⟩
  obtain ⟨ws', ts', hs', hw, heq⟩ := settle_reads hsettle hb.constructs hv
  rw [← List.append_assoc ws, heq, List.append_assoc]
  unfold closeShift at h
  rw [hsettle] at h
  split at h
  case h_1 heq' =>
    cases heq'
    obtain ⟨k, hk, h⟩ := Option.bind_eq_some_iff.mp h
    obtain ⟨r, hr, h⟩ := Option.bind_eq_some_iff.mp h
    obtain ⟨d, rfl, rfl⟩ := map_eq_ok.mp (Option.some.inj h)
    rw [← List.append_assoc ws']
    exact hb.afterDecl hk (decl?_reads hr hs' hw)
  case h_2 frame stack₁ w₁ s _ heq' =>
    cases heq'
    obtain ⟨k, hk, h⟩ := Option.map_eq_some_iff.mp h
    obtain ⟨e, rfl, rfl⟩ := map_eq_ok.mp h
    cases hs' with
    | cons init last =>
      rw [List.append_assoc]
      exact hb.reads (frameShift_reads hk init last (hw e rfl))
  case h_3 => cases h

theorem operatorShift_reads {v : Except Fault Expr} (hb : Before g done stack us ws)
    (h : operatorShift g done stack left v t = some (.ok st')) (hl : left.Reads ts)
    (hv : Yields .atom v xs) : st'.Reads g (us ++ (ws ++ (ts ++ (xs ++ [t])))) := by
  unfold operatorShift at h
  split at h
  case h_1 k hk =>
    obtain ⟨e, rfl, rfl⟩ := map_eq_ok.mp (Option.some.inj h)
    rw [← List.append_assoc ts]
    exact hb.reads (operandStart_reads hk hb.constructs (hl.apply (hv e rfl)))
  case h_2 s _ =>
    split at h
    case h_1 k hk =>
      obtain ⟨e, rfl, rfl⟩ := map_eq_ok.mp (Option.some.inj h)
      exact .inside hb (hl.operator (hv e rfl) hk)
    case h_2 =>
      rw [← List.append_assoc ts]
      exact closeShift_reads hb h (hv.map fun he => hl.complete he)
  case h_3 => cases h

theorem shift_expr_reads (hb : Before g done stack us ws)
    (h : shift g ⟨done, stack, .expr⟩ t = some (.ok st')) : st'.Reads g (us ++ (ws ++ [t])) := by
  obtain ⟨k, hk, hst⟩ := Option.map_eq_some_iff.mp h
  cases hst
  exact hb.reads (exprStart_reads hk hb.constructs)

theorem shift_elem_reads {es : List Expr} (hb : Before g done stack us ws)
    (h : shift g ⟨done, stack, .elem left es⟩ t = some (.ok st'))
    (hf : (Frame.elem left es).Reads ts) : st'.Reads g (us ++ (ws ++ (ts ++ [t]))) := by
  by_cases ht : t = .symbol .rbracket
  · subst t
    cases h
    obtain ⟨ls, vs, hl, hes, rfl⟩ := hf
    have helems := hes.whole (Derives .elems) (fun hu hus => hu.moreElems hus) .noElem
    exact .inside hb ⟨ls, _, hl, yields_ok helems.brackets, by simp⟩
  · rw [shift_elem es ht] at h
    rw [← List.append_assoc ws]
    exact shift_expr_reads ⟨hb.keeps, hb.statements, .cons hb.constructs hf⟩ h

theorem shift_pattern_reads {site : PatternSite} {within : List PatternFrame} {heads : List Pattern}
    (hb : Before g done stack us ws)
    (h : shift g ⟨done, stack, .pattern site within heads⟩ t = some (.ok st'))
    (hp : PatternText site within heads ts) : st'.Reads g (us ++ (ws ++ (ts ++ [t]))) := by
  have hstart : (patternStart t).map (fun k => Except.ok (ε := Fault)
      (State.mk done stack (k site within heads))) = some (.ok st') →
      st'.Reads g (us ++ (ws ++ (ts ++ [t]))) := by
    intro h
    obtain ⟨k, hk, hst⟩ := Option.map_eq_some_iff.mp h
    cases hst
    exact .inside hb (patternStart_reads hk hp)
  cases site with
  | arm left e as => exact hstart h
  | param rec cs name ps =>
    cases within with
    | cons => exact hstart h
    | nil =>
      obtain ⟨rfl, hclause⟩ := hp.of_param
      obtain ⟨k, hk, hst⟩ := Option.map_eq_some_iff.mp h
      cases hst
      exact hb.reads (paramShift_reads hk hclause hb.constructs)

theorem shift_patternElem_reads {site : PatternSite} {within : List PatternFrame}
    {heads ps : List Pattern} (hb : Before g done stack us ws)
    (h : shift g ⟨done, stack, .patternElem site within heads ps⟩ t = some (.ok st'))
    (hp : PatternText site (.elem heads ps :: within) [] ts) :
    st'.Reads g (us ++ (ws ++ (ts ++ [t]))) := by
  by_cases ht : t = .symbol .rbracket
  · subst t
    cases h
    cases hp with
    | elem hp hps =>
      have helems := hps.whole (Derives .patternElems) (fun hq hqs => hq.morePatterns hqs)
        .noPattern
      exact .inside hb ⟨_, _, hp, yields_ok helems.patternBrackets, by simp⟩
  · rw [shift_patternElem ht] at h
    exact shift_pattern_reads hb h hp

theorem shift_firstArm_reads (hb : Before g done stack us ws)
    (h : shift g ⟨done, stack, .firstArm left e⟩ t = some (.ok st')) (hc : CaseText left e ts) :
    st'.Reads g (us ++ (ws ++ (ts ++ [t]))) := by
  by_cases ht : t = .symbol .bar
  · subst t
    cases h
    exact .inside hb (.site ⟨ts, true, [], hc, .nil, rfl⟩)
  · rw [shift_firstArm ht] at h
    have harm : ArmText left e [] ts := ⟨ts, false, [], hc, .nil, (List.append_nil _).symm⟩
    exact shift_pattern_reads hb h (.site harm)

theorem shift_lambda_reads {ps : List String} (hb : Before g done stack us ws)
    (h : shift g ⟨done, stack, .lambda ps⟩ t = some (.ok st')) :
    st'.Reads g (us ++ (ws ++ (.symbol .backslash :: ps.map .ident ++ [t]))) := by
  cases t with
  | number => cases ps <;> cases h
  | ident x =>
    cases h
    exact .inside hb (by simp [Focus.Reads])
  | symbol s =>
    cases ps with
    | nil => cases s <;> cases h
    | cons x xs =>
      cases s
      case arrow =>
        cases h
        exact hb.reads ⟨_, [], .cons hb.constructs ⟨x, xs, rfl, rfl⟩, rfl, (List.append_nil _).symm⟩
      all_goals cases h

theorem shift_clauseName_reads {rec : Bool} {cs : List Clause} (hb : Before g done stack us ws)
    (h : shift g ⟨done, stack, .clauseName rec cs⟩ t = some (.ok st')) (hlet : LetText rec cs ts) :
    st'.Reads g (us ++ (ws ++ (ts ++ [t]))) := by
  cases t with
  | ident x =>
    cases h
    exact .inside hb (.site ⟨ts, [], hlet, .nil, rfl⟩)
  | number | symbol => cases h

theorem shift_afterLet_reads (hb : Before g done stack us ws)
    (h : shift g ⟨done, stack, .afterLet⟩ t = some (.ok st')) :
    st'.Reads g (us ++ (ws ++ ([.symbol .kwLet] ++ [t]))) := by
  by_cases ht : t = .symbol .kwRec
  · subst t
    cases h
    exact .inside hb ⟨[], .nil, rfl⟩
  · rw [shift_afterLet ht] at h
    exact shift_clauseName_reads hb h ⟨[], .nil, rfl⟩

/-- Each token adds itself to what has been read. -/
theorem shift_reads (h : shift g st t = some (.ok st')) (hst : st.Reads g ts) :
    st'.Reads g (ts ++ [t]) := by
  cases hst with
  | ended hd => cases h
  | @inside done stack focus us ws ts hb hfocus =>
    rw [List.append_assoc, List.append_assoc]
    cases focus with
    | expr =>
      obtain rfl := hfocus
      exact shift_expr_reads hb h
    | elem left es => exact shift_elem_reads hb h hfocus
    | operand left =>
      obtain ⟨k, hk, hst⟩ := Option.map_eq_some_iff.mp h
      cases hst
      exact hb.reads (operandStart_reads hk hb.constructs hfocus)
    | operator left v =>
      obtain ⟨ls, vs, hl, hv, rfl⟩ := hfocus
      rw [List.append_assoc]
      exact operatorShift_reads hb h hl hv
    | lambda ps =>
      obtain rfl := hfocus
      exact shift_lambda_reads hb h
    | afterLet =>
      obtain rfl := hfocus
      exact shift_afterLet_reads hb h
    | clauseName rec cs => exact shift_clauseName_reads hb h hfocus
    | firstArm left e => exact shift_firstArm_reads hb h hfocus
    | pattern site within heads => exact shift_pattern_reads hb h hfocus
    | patternElem site within heads ps => exact shift_patternElem_reads hb h hfocus
    | patternEnd site within heads v =>
      obtain ⟨ps, vs, hp, hv, rfl⟩ := hfocus
      obtain ⟨k, hk, hst⟩ := Option.map_eq_some_iff.mp h
      obtain ⟨p, rfl, hst⟩ := bind_eq_ok.mp hst
      cases hst
      rw [List.append_assoc]
      exact hb.reads (patternEndShift_reads hk hp (hv p rfl) hb.constructs)
    | ended d => exact hfocus.elim

/-- What a run has read is what it took. -/
theorem run_reads (h : run g st us = some st') (hst : st.Reads g ts) : st'.Reads g (ts ++ us) := by
  induction us generalizing st ts with
  | nil =>
    obtain rfl : st = st' := by simpa [run] using h
    rwa [List.append_nil]
  | cons t us ih =>
    rw [run] at h
    split at h
    case h_1 st₁ hst₁ =>
      rw [← List.singleton_append, ← List.append_assoc]
      exact ih h (shift_reads hst₁ hst)
    case h_2 => cases h

theorem State.Reads.settled {v w : Except Fault Expr} {stack' : List Frame}
    (hst : State.Reads g ⟨done, stack, .operator left v⟩ ts) (hg : ∀ ds, g.Keeps ds → ds = [])
    (h : settle stack (v.map left.complete) = (stack', w)) :
    ∃ us ws, Series Frame.Reads stack' us ∧ Yields .expr w ws ∧ ts = us ++ ws := by
  cases hst with
  | inside hb hfocus =>
    obtain ⟨ls, xs, hl, hv, rfl⟩ := hfocus
    obtain rfl := hg _ hb.keeps
    obtain rfl := hb.statements.eq_nil
    rw [List.nil_append]
    exact settle_reads h hb.constructs (hv.map (k := .expr) fun he => hl.complete he)

theorem finish_expr_reads {a : Expr} (h : finish .expr st = some (.ok a))
    (hst : st.Reads .expr ts) : Derives .expr ts a := by
  obtain ⟨done, stack, focus⟩ := st
  cases focus
  case operator left v =>
    rw [finish] at h
    dsimp only at h
    split at h
    case h_1 w hsettle =>
      obtain ⟨us, ws, hs, hw, rfl⟩ := hst.settled (fun _ hds => hds) hsettle
      obtain rfl := hs.eq_nil
      exact hw a (Option.some.inj h)
    case h_2 => cases h
  all_goals cases h

theorem finish_statement_reads {d : Decl} (h : finish .statement st = some (.ok d))
    (hst : st.Reads .statement ts) : Derives .statement ts d := by
  obtain ⟨done, stack, focus⟩ := st
  cases focus
  case operator left v =>
    obtain ⟨us, ws, hs, hw, rfl⟩ := hst.settled (fun _ hds => hds) rfl
    have hstatement := (decl?_reads h hs hw).statement false
    rwa [optional, if_neg Bool.false_ne_true, List.append_nil] at hstatement
  case ended d' =>
    cases h
    cases hst with
    | ended hd => exact hd
    | inside hb hfocus => exact hfocus.elim
  all_goals cases h

theorem finish_program_reads {ds : List Decl} (h : finish .program st = some (.ok ds))
    (hst : st.Reads .program ts) : Derives .program ts ds := by
  obtain ⟨done, stack, focus⟩ := st
  cases stack with
  | cons frame stack => cases focus <;> cases h
  | nil =>
    cases focus
    case expr =>
      cases h
      cases hst with
      | inside hb hfocus =>
        obtain rfl := hfocus
        obtain rfl := hb.constructs.eq_nil
        rw [List.append_nil, List.append_nil]
        exact hb.statements.whole (Derives .program) (fun hd hds => hd.moreDecls hds) .noDecl
    all_goals cases h

/-- Where the text may end, what has been read has a derivation. -/
theorem derives_of_finish {a : α} (hrun : run g .start ts = some st)
    (h : finish g st = some (.ok a)) : g.Derives ts a := by
  have hst : st.Reads g ts := run_reads hrun reads_start
  cases g with
  | expr => exact finish_expr_reads h hst
  | statement => exact finish_statement_reads h hst
  | program => exact finish_program_reads h hst

end Steps

end LetML

import LetML.Proofs.Acceptance
import LetML.Proofs.Faults

namespace LetML

variable {α : Type} {g : Goal α} {m n : Nonterminal} {ts us ws : List Token}

def Text (n : Nonterminal) (ts : List Token) : Prop := ∃ T : ParseTree n, T.tokens = ts

theorem Derives.text {v : n.Meaning} (h : Derives n ts v) : Text n ts :=
  let ⟨T, hT, _⟩ := h
  ⟨T, hT⟩

/-- The grammar derives the text from what the parser is asked for. -/
def Goal.Sentence (g : Goal α) (ts : List Token) : Prop := Text g.start ts

/-- Some sentence starts with the text. -/
def Goal.Viable (g : Goal α) (ts : List Token) : Prop := ∃ us, g.Sentence (ts ++ us)

/-- After the text any text of the nonterminal can stand, with the same rest after it. -/
def Hole (g : Goal α) (n : Nonterminal) (ts : List Token) : Prop :=
  ∃ rest, ∀ us, Text n us → g.Sentence (ts ++ (us ++ rest))

namespace Hole

theorem fill {r : List Token} (h : Hole g n ts) (hus : Text n (us ++ r)) : g.Viable (ts ++ us) := by
  obtain ⟨rest, hrest⟩ := h
  refine ⟨r ++ rest, ?_⟩
  simpa only [List.append_assoc] using hrest _ hus

theorem inner (h : Hole g n ts) (after : List Token)
    (hm : ∀ us, Text m us → Text n (ws ++ (us ++ after))) : Hole g m (ts ++ ws) := by
  obtain ⟨rest, hrest⟩ := h
  refine ⟨after ++ rest, fun us hus => ?_⟩
  simpa only [List.append_assoc] using hrest _ (hm us hus)

theorem of_forall (h : Hole g n ts) (hm : ∀ us, Text m us → Text n us) : Hole g m ts := by
  obtain ⟨rest, hrest⟩ := h
  exact ⟨rest, fun us hus => hrest us (hm us hus)⟩

end Hole

theorem Series.text {sep : List Token} {vs : List n.Meaning} (h : Series (Followed n sep) vs ts)
    (hm : ∀ (T : ParseTree n) (U : ParseTree m), Text m (T.tokens ++ (sep ++ U.tokens)))
    (hus : Text m us) : Text m (ts ++ us) := by
  refine h.fold (f := fun x _ => x) (fun ts (_ : Unit) => Text m ts) ?_ (x := ()) hus
  rintro _ _ _ _ ⟨T, rfl, -⟩ ⟨U, rfl⟩
  exact hm T U

section Operands

variable {p : Pending} {o a c h s m f : List Token}

namespace Pending.Texts

theorem app (H : p.Texts o a c h s m f) (hus : Text .atom us) : Text .app (f ++ us) := by
  obtain ⟨U, rfl⟩ := hus
  obtain ⟨-, rfl⟩ | ⟨l, -, ws, ⟨T, rfl, -⟩, rfl⟩ := H.fn.of_option
  · exact ⟨.ofAtom U, rfl⟩
  · exact ⟨.app T U, by simp⟩

theorem mul (H : p.Texts o a c h s m f) (hus : Text .app us) : Text .mul (m ++ us) := by
  obtain ⟨U, rfl⟩ := hus
  obtain ⟨-, rfl⟩ | ⟨l, -, ws, ⟨T, rfl, -⟩, rfl⟩ := H.factor.of_option
  · exact ⟨.ofApp U, rfl⟩
  · exact ⟨.mul T U, by simp⟩

theorem add (H : p.Texts o a c h s m f) (hus : Text .mul us) : Text .add (s ++ us) := by
  obtain ⟨U, rfl⟩ := hus
  obtain ⟨-, rfl⟩ | ⟨l, -, d, ws, ⟨T, rfl, -⟩, -, rfl⟩ := H.sum.of_option
  · exact ⟨.ofMul U, rfl⟩
  · exact ⟨.add T d U, by simp⟩

theorem cmp (H : p.Texts o a c h s m f) (hus : Text .cons us) : Text .cmp (c ++ us) := by
  obtain ⟨U, rfl⟩ := hus
  obtain ⟨-, rfl⟩ | ⟨l, -, q, ws, ⟨T, rfl, -⟩, -, rfl⟩ := H.comparison.of_option
  · exact ⟨.ofCons U, rfl⟩
  · exact ⟨.cmp T q U, by simp⟩

/-- What waits for an operand is an expression with any atom for the operand. -/
theorem expr (H : p.Texts o a c h s m f) (hus : Text .atom us) :
    Text .expr (o ++ (a ++ (c ++ (h ++ (s ++ (m ++ (f ++ us))))))) := by
  obtain ⟨A, hA⟩ := H.add (H.mul (H.app hus))
  obtain ⟨C, hC⟩ := H.cmp (H.heads.text (fun T U => ⟨.cons T U, rfl⟩) ⟨.ofAdd A, hA⟩)
  obtain ⟨N, hN⟩ := H.ands.text (fun T U => ⟨.and T U, rfl⟩) ⟨.ofCmp C, hC⟩
  obtain ⟨O, hO⟩ := H.ors.text (fun T U => ⟨.or T U, rfl⟩) ⟨.ofAnd N, hN⟩
  exact ⟨.ofOr O, hO⟩

end Pending.Texts

theorem Pending.Reads.expr {left : Pending} (h : left.Reads ts) (hus : Text .atom us) :
    Text .expr (ts ++ us) := by
  obtain ⟨o, a, c, h, s, m, f, H, rfl⟩ := h
  simpa only [List.append_assoc] using H.expr hus

end Operands

section Constructs

variable {rec : Bool} {cs : List Clause} {name : String} {ps : List Pattern} {left : Pending}
  {e : Expr} {as : List (Pattern × Expr)} {stack : List Frame} {done : List Decl}

def anything : ParseTree .expr :=
  .ofOr (.ofAnd (.ofCmp (.ofCons (.ofAdd (.ofMul (.ofApp (.ofAtom (.var "x"))))))))

theorem tokens_anything : anything.tokens = [.ident "x"] := rfl

theorem LetText.expr (h : LetText rec cs ts) (hus : Text .clause us) :
    Text .expr (ts ++ (us ++ [.symbol .kwIn, .ident "x"])) := by
  obtain ⟨ws, hws, rfl⟩ := h
  obtain ⟨C, hC⟩ := hus
  obtain ⟨D, hD⟩ := hws.text (m := .clauses) (fun T U => ⟨.moreClauses T U, rfl⟩) ⟨.lastClause C, hC⟩
  exact ⟨.letIn rec D anything, by simp [tokens_anything, hD]⟩

theorem ClauseText.expr (h : ClauseText rec cs name ps ts) (hus : Text .params us)
    (hws : Text .expr ws) :
    Text .expr (ts ++ (us ++ .symbol .assign :: ws ++ [.symbol .kwIn, .ident "x"])) := by
  obtain ⟨ls, xs, hlet, hps, rfl⟩ := h
  obtain ⟨P, hP⟩ := hps.text (m := .params) (fun T U => ⟨.moreParams T U, rfl⟩) hus
  obtain ⟨E, rfl⟩ := hws
  simpa [hP] using hlet.expr ⟨.clause name P E, rfl⟩

theorem CaseText.expr (h : CaseText left e ts) (bar : Bool) (hus : Text .arms us) :
    Text .expr (ts ++ (optional bar .bar ++ us ++ [.symbol .kwEnd])) := by
  obtain ⟨ls, ws, hl, ⟨T, rfl, -⟩, rfl⟩ := h
  obtain ⟨A, rfl⟩ := hus
  simpa using hl.expr ⟨.case T bar A, rfl⟩

theorem ArmText.expr (h : ArmText left e as ts) (hus : Text .arm us) :
    Text .expr (ts ++ (us ++ [.symbol .kwEnd])) := by
  obtain ⟨ls, bar, ws, hcase, has, rfl⟩ := h
  obtain ⟨A, rfl⟩ := hus
  have harms := has.text (m := .arms) (fun T U => ⟨.moreArms T U, rfl⟩) ⟨.lastArm A, rfl⟩
  simpa using hcase.expr bar harms

theorem Frame.Reads.expr {frame : Frame} (h : frame.Reads ts) :
    ∃ after, ∀ us, Text .expr us → Text .expr (ts ++ (us ++ after)) := by
  cases frame with
  | lambda ps =>
    obtain ⟨x, xs, -, rfl⟩ := h
    refine ⟨[], ?_⟩
    rintro _ ⟨T, rfl⟩
    exact ⟨.lambda x xs T, by simp⟩
  | clause rec cs name ps =>
    obtain ⟨ws, hclause, rfl⟩ := h
    refine ⟨[.symbol .kwIn, .ident "x"], fun us hus => ?_⟩
    simpa using hclause.expr ⟨.noParam, rfl⟩ hus
  | body rec cs =>
    obtain ⟨ws, ⟨C, rfl, -⟩, rfl⟩ := h
    refine ⟨[], ?_⟩
    rintro _ ⟨T, rfl⟩
    exact ⟨.letIn rec C T, by simp⟩
  | test =>
    obtain rfl := h
    refine ⟨[.symbol .kwThen, .ident "x", .symbol .kwElse, .ident "x"], ?_⟩
    rintro _ ⟨T, rfl⟩
    exact ⟨.cond T anything anything, by simp [tokens_anything]⟩
  | yes test =>
    obtain ⟨ws, ⟨C, rfl, -⟩, rfl⟩ := h
    refine ⟨[.symbol .kwElse, .ident "x"], ?_⟩
    rintro _ ⟨T, rfl⟩
    exact ⟨.cond C T anything, by simp [tokens_anything]⟩
  | no test yes =>
    obtain ⟨ws, xs, ⟨C, rfl, -⟩, ⟨Y, rfl, -⟩, rfl⟩ := h
    refine ⟨[], ?_⟩
    rintro _ ⟨T, rfl⟩
    exact ⟨.cond C Y T, by simp⟩
  | paren left =>
    obtain ⟨ws, hl, rfl⟩ := h
    refine ⟨[.symbol .rparen], ?_⟩
    rintro _ ⟨T, rfl⟩
    simpa using hl.expr ⟨.paren T, rfl⟩
  | elem left es =>
    obtain ⟨ls, ws, hl, hes, rfl⟩ := h
    refine ⟨[.symbol .rbracket], ?_⟩
    rintro _ ⟨T, rfl⟩
    obtain ⟨E, hE⟩ := hes.text (m := .elems) (fun T U => ⟨.moreElems T U, rfl⟩) ⟨.lastElem T, rfl⟩
    simpa [hE] using hl.expr ⟨.brackets E, rfl⟩
  | scrutinee left =>
    obtain ⟨ls, hl, rfl⟩ := h
    refine ⟨[.symbol .kwOf, .symbol .underscore, .symbol .arrow, .ident "x", .symbol .kwEnd], ?_⟩
    rintro _ ⟨T, rfl⟩
    have hcase := hl.expr ⟨.case T false (.lastArm (.arm (.ofAtomPattern .wild) anything)), rfl⟩
    simpa [tokens_anything, optional] using hcase
  | arm left e as p =>
    obtain ⟨ls, ws, harm, ⟨P, rfl, -⟩, rfl⟩ := h
    refine ⟨[.symbol .kwEnd], ?_⟩
    rintro _ ⟨T, rfl⟩
    simpa using harm.expr ⟨.arm P T, rfl⟩

theorem Series.hole (hs : Series Frame.Reads stack us) (h : Hole g .expr ts) :
    Hole g .expr (ts ++ us) := by
  induction hs with
  | nil => rwa [List.append_nil]
  | cons init last ih =>
    obtain ⟨after, hafter⟩ := last.expr
    rw [← List.append_assoc]
    exact ih.inner after hafter

theorem Before.hole (h : Before g done stack us ws) : Hole g .expr (us ++ ws) := by
  refine h.constructs.hole ?_
  cases g with
  | expr =>
    obtain rfl := h.keeps
    obtain rfl := h.statements.eq_nil
    refine ⟨[], ?_⟩
    rintro _ ⟨T, rfl⟩
    exact ⟨T, (List.append_nil _).symm⟩
  | statement =>
    obtain rfl := h.keeps
    obtain rfl := h.statements.eq_nil
    refine ⟨[], ?_⟩
    rintro _ ⟨T, rfl⟩
    exact ⟨.statement (.evalDecl T) false, by simp [optional]⟩
  | program =>
    refine ⟨[.symbol .semi], ?_⟩
    rintro _ ⟨T, rfl⟩
    exact h.statements.text (m := .program) (fun D P => ⟨.moreDecls D P, rfl⟩)
      ⟨.moreDecls (.evalDecl T) .noDecl, by simp⟩

end Constructs

section Patterns

variable {site : PatternSite} {within : List PatternFrame} {heads : List Pattern}

/-- An atomic pattern can stand where a pattern is due, and a `::` chain where it may be one. -/
theorem PatternText.hole (h : PatternText site within heads us) (hts : Hole g .expr ts) :
    Hole g .atomPattern (ts ++ us) ∧ (Chains site within → Hole g .pattern (ts ++ us)) := by
  have hatom : ∀ {xs}, Hole g .pattern xs → Hole g .atomPattern xs := fun h =>
    h.of_forall fun _ ⟨P, hP⟩ => ⟨.ofAtomPattern P, hP⟩
  induction h with
  | @site us hsite =>
    cases site with
    | param rec cs name ps =>
      refine ⟨hts.inner [.symbol .assign, .ident "x", .symbol .kwIn, .ident "x"] ?_, fun hc => ?_⟩
      · rintro _ ⟨P, rfl⟩
        simpa using hsite.expr ⟨.moreParams P .noParam, rfl⟩ ⟨anything, tokens_anything⟩
      · obtain ⟨_, _, _, harm⟩ := hc rfl
        cases harm
    | arm left e as =>
      have hpattern : Hole g .pattern (ts ++ us) := by
        refine hts.inner [.symbol .arrow, .ident "x", .symbol .kwEnd] ?_
        rintro _ ⟨P, rfl⟩
        simpa [tokens_anything] using hsite.expr ⟨.arm P anything, rfl⟩
      exact ⟨hatom hpattern, fun _ => hpattern⟩
  | @head within heads p us xs h hc hp ih =>
    obtain ⟨H, rfl, -⟩ := hp
    have hpattern : Hole g .pattern (ts ++ (us ++ (H.tokens ++ [.symbol .colons]))) := by
      rw [← List.append_assoc]
      refine (ih.2 hc).inner [] ?_
      rintro _ ⟨P, rfl⟩
      exact ⟨.patternCons H P, by simp⟩
    exact ⟨hatom hpattern, fun _ => hpattern⟩
  | @paren within heads us h ih =>
    have hpattern : Hole g .pattern (ts ++ (us ++ [.symbol .lparen])) := by
      rw [← List.append_assoc]
      refine ih.1.inner [.symbol .rparen] ?_
      rintro _ ⟨P, rfl⟩
      exact ⟨.patternParen P, by simp⟩
    exact ⟨hatom hpattern, fun _ => hpattern⟩
  | @elem within heads ps us xs h hps ih =>
    have hpattern : Hole g .pattern (ts ++ (us ++ .symbol .lbracket :: xs)) := by
      rw [← List.append_assoc]
      refine ih.1.inner [.symbol .rbracket] ?_
      rintro _ ⟨P, rfl⟩
      obtain ⟨E, hE⟩ := hps.text (m := .patternElems) (fun T U => ⟨.morePatterns T U, rfl⟩)
        ⟨.lastPattern P, rfl⟩
      exact ⟨.patternBrackets E, by simp [hE]⟩
    exact ⟨hatom hpattern, fun _ => hpattern⟩

end Patterns

section States

variable {st st' : State} {focus : Focus} {digits : String}

theorem Focus.Reads.viable (h : focus.Reads us) (hfault : focus.fault? = none)
    (hts : Hole g .expr ts) : g.Viable (ts ++ us) := by
  cases focus with
  | expr =>
    obtain rfl := h
    exact hts.fill ⟨anything, rfl⟩
  | elem left es =>
    have hframe : (Frame.elem left es).Reads us := h
    obtain ⟨after, hafter⟩ := hframe.expr
    exact hts.fill (hafter _ ⟨anything, rfl⟩)
  | operand left => exact hts.fill (Pending.Reads.expr h ⟨.var "x", rfl⟩)
  | operator left v =>
    obtain ⟨ls, xs, hl, hv, rfl⟩ := h
    cases v with
    | error f => cases hfault
    | ok e =>
      refine hts.fill (r := []) ?_
      rw [List.append_nil]
      exact hl.expr (hv e rfl).text
  | lambda ps =>
    obtain rfl := h
    refine hts.fill (r := [.ident "x", .symbol .arrow, .ident "x"]) ?_
    cases ps with
    | nil => exact ⟨.lambda "x" [] anything, rfl⟩
    | cons p ps => exact ⟨.lambda p (ps ++ ["x"]) anything, by simp [tokens_anything]⟩
  | afterLet =>
    obtain rfl := h
    exact hts.fill ⟨.letIn false (.lastClause (.clause "x" .noParam anything)) anything, rfl⟩
  | clauseName rec cs => exact hts.fill (LetText.expr h ⟨.clause "x" .noParam anything, rfl⟩)
  | firstArm left e =>
    exact hts.fill (CaseText.expr h false ⟨.lastArm (.arm (.ofAtomPattern .wild) anything), rfl⟩)
  | pattern site within heads | patternElem site within heads ps =>
    obtain ⟨rest, hrest⟩ := (PatternText.hole h hts).1
    exact ⟨_, hrest _ ⟨.wild, rfl⟩⟩
  | patternEnd site within heads v =>
    obtain ⟨ps, xs, hp, hv, rfl⟩ := h
    cases v with
    | error f => cases hfault
    | ok p =>
      rw [← List.append_assoc]
      refine (hp.hole hts).1.fill (r := []) ?_
      rw [List.append_nil]
      exact (hv p rfl).text
  | ended d => exact h.elim

theorem State.Reads.viable (h : st.Reads g ts) (hfault : st.focus.fault? = none)
    (hended : ∀ d, st.focus = .ended d → g.start = .statement) : g.Viable ts := by
  cases h with
  | ended h =>
    refine ⟨[], ?_⟩
    rw [List.append_nil, Goal.Sentence, hended _ rfl]
    exact h.text
  | inside hb hfocus =>
    rw [← List.append_assoc]
    exact hfocus.viable hfault hb.hole

theorem Focus.Reads.number (h : focus.Reads us) (hts : Hole g .expr ts) {done : List Decl}
    {stack : List Frame} (hshift : shift g ⟨done, stack, focus⟩ (.number digits) = some (.ok st')) :
    g.Viable (ts ++ us ++ [.number digits]) := by
  have hatom : ∀ {xs}, Hole g .atom xs → g.Viable (xs ++ [.number digits]) := fun h =>
    h.fill (r := []) ⟨.number digits, rfl⟩
  have hpattern : ∀ {xs}, Hole g .atomPattern xs → g.Viable (xs ++ [.number digits]) := fun h =>
    h.fill (r := []) ⟨.patternNumber digits, rfl⟩
  have hexpr : ∀ {xs}, Hole g .expr xs → g.Viable (xs ++ [.number digits]) := fun h =>
    hatom (h.of_forall fun _ ⟨T, hT⟩ =>
      ⟨.ofOr (.ofAnd (.ofCmp (.ofCons (.ofAdd (.ofMul (.ofApp (.ofAtom T))))))), hT⟩)
  cases focus with
  | expr =>
    obtain rfl := h
    rw [List.append_nil]
    exact hexpr hts
  | elem left es =>
    have hframe : (Frame.elem left es).Reads us := h
    obtain ⟨after, hafter⟩ := hframe.expr
    exact hexpr (hts.inner after hafter)
  | operand left =>
    exact hatom (hts.inner [] fun xs hxs => by rw [List.append_nil]; exact Pending.Reads.expr h hxs)
  | operator left v =>
    obtain ⟨ls, xs, hl, hv, rfl⟩ := h
    obtain ⟨e, rfl, -⟩ := map_eq_ok.mp (Option.some.inj hshift)
    exact hatom (hts.inner [] fun ys hys => by
      rw [List.append_nil]
      exact (hl.apply (hv e rfl)).expr hys)
  | lambda ps => cases ps <;> cases hshift
  | afterLet | clauseName | ended => cases hshift
  | firstArm left e =>
    have harm : ArmText left e [] us := ⟨us, false, [], h, .nil, (List.append_nil _).symm⟩
    have hsite : PatternText (.arm left e []) [] [] us := .site harm
    exact hpattern (hsite.hole hts).1
  | pattern site within heads | patternElem site within heads ps =>
    exact hpattern (PatternText.hole h hts).1
  | patternEnd site within heads v =>
    obtain ⟨ls, xs, hp, hv, rfl⟩ := h
    obtain ⟨k, hk, hst⟩ := Option.map_eq_some_iff.mp hshift
    obtain ⟨p, rfl, -⟩ := bind_eq_ok.mp hst
    -- only among parameters does a pattern follow another
    cases site with
    | arm left e as => rcases within with _ | ⟨_ | _, within⟩ <;> cases hk
    | param rec cs name ps =>
      cases within with
      | cons frame within => cases frame <;> cases hk
      | nil =>
        have hsite : PatternText (.param rec cs name (ps ++ [p])) [] [] (ls ++ xs) :=
          .site (hp.of_param.2.param (hv p rfl))
        exact hpattern (hsite.hole hts).1

theorem shift_viable {t : Token} (hst : st.Reads g ts) (h : shift g st t = some (.ok st')) :
    g.Viable (ts ++ [t]) := by
  obtain ⟨hfault, hended⟩ := shift_follows h
  cases hf : st'.focus.fault? with
  | none => exact (shift_reads h hst).viable hf hended
  | some f =>
    obtain ⟨digits, rfl, -⟩ := hfault f hf
    cases hst with
    | ended => cases h
    | inside hb hfocus =>
      rw [← List.append_assoc]
      exact hfocus.number hb.hole h

/-- What has been read is the beginning of a sentence. -/
theorem viable_of_run (h : run g .start ts = some st) : g.Viable ts := by
  obtain rfl | ⟨init, t, rfl⟩ := ts.eq_nil_or_concat
  · exact reads_start.viable rfl nofun
  · rw [List.concat_eq_append] at h ⊢
    obtain ⟨st₁, hrun, hshift⟩ := run_concat.mp h
    exact shift_viable (run_reads hrun reads_start) hshift

end States

end LetML

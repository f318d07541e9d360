import LetML.Proofs.ParserSoundness

namespace LetML

variable {α : Type} {g : Goal α} {st st' : State} {done : List Decl} {stack stack' : List Frame}
  {left : Pending} {t : Token} {ts us : List Token} {f : Fault} {e : Expr} {digits : String}

def Focus.fault? : Focus → Option Fault
  | operator _ (.error f) | patternEnd _ _ _ (.error f) => some f
  | _ => none

def OutOfRange (t : Token) (f : Fault) : Prop := ∃ digits, t = .number digits ∧ readInt digits = .error f

theorem outOfRange_of_map {β : Type} {h : Int64 → β} (hf : (readInt digits).map h = .error f) :
    OutOfRange (.number digits) f := by
  refine ⟨digits, rfl, ?_⟩
  cases hread : readInt digits with
  | ok i =>
    rw [hread] at hf
    cases hf
  | error f' =>
    rw [hread] at hf
    cases hf
    rfl

theorem fault?_operator {left : Pending} {v : Except Fault Expr}
    (h : (Focus.operator left v).fault? = some f) : v = .error f := by
  cases v with
  | ok e => cases h
  | error f' =>
    cases h
    rfl

theorem fault?_patternEnd {site : PatternSite} {within : List PatternFrame} {heads : List Pattern}
    {v : Except Fault Pattern} (h : (Focus.patternEnd site within heads v).fault? = some f) :
    v = .error f := by
  cases v with
  | ok p => cases h
  | error f' =>
    cases h
    rfl

/-- What a token leads to, unless it ends a statement: a fault is that of a number. -/
def Leads (t : Token) (focus : Focus) : Prop :=
  (∀ f, focus.fault? = some f → OutOfRange t f) ∧ ∀ d, focus ≠ .ended d

theorem leads_expr : Leads t .expr := by
  constructor
  · intro f h
    cases h
  · intro d h
    cases h

theorem operandStart_leads {k : List Frame → Pending → List Frame × Focus}
    (hk : operandStart t = some k) : Leads t (k stack left).2 := by
  cases t with
  | number digits =>
    cases hk
    exact ⟨fun f hf => outOfRange_of_map (fault?_operator hf), nofun⟩
  | ident x =>
    cases hk
    exact ⟨nofun, nofun⟩
  | symbol s => cases s <;> cases hk <;> exact ⟨nofun, nofun⟩

theorem exprStart_leads {k : List Frame → List Frame × Focus} (hk : exprStart t = some k) :
    Leads t (k stack).2 := by
  have hoperand : (operandStart t).map (fun k stack => k stack .nothing) = some k →
      Leads t (k stack).2 := by
    intro h
    obtain ⟨k', hk', rfl⟩ := Option.map_eq_some_iff.mp h
    exact operandStart_leads hk'
  cases t with
  | number | ident => exact hoperand hk
  | symbol s =>
    cases s
    case backslash | kwLet | kwIf =>
      cases hk
      exact ⟨nofun, nofun⟩
    all_goals exact hoperand hk

theorem patternStart_leads {site : PatternSite} {within : List PatternFrame} {heads : List Pattern}
    {k : PatternSite → List PatternFrame → List Pattern → Focus} (hk : patternStart t = some k) :
    Leads t (k site within heads) := by
  cases t with
  | number digits =>
    cases hk
    exact ⟨fun f hf => outOfRange_of_map (fault?_patternEnd hf), nofun⟩
  | ident x =>
    cases hk
    exact ⟨nofun, nofun⟩
  | symbol s => cases s <;> cases hk <;> exact ⟨nofun, nofun⟩

theorem paramShift_leads {rec : Bool} {cs : List Clause} {name : String} {ps : List Pattern}
    {k : List Pattern → List Frame → List Frame × Focus} (hk : paramShift rec cs name t = some k) :
    Leads t (k ps stack).2 := by
  rw [paramShift] at hk
  split at hk
  · cases hk
    exact leads_expr
  · obtain ⟨k', hk', rfl⟩ := Option.map_eq_some_iff.mp hk
    exact patternStart_leads hk'

theorem patternEndShift_leads {site : PatternSite} {within : List PatternFrame}
    {heads : List Pattern} {p : Pattern} {k : Pattern → List Frame → List Frame × Focus}
    (hk : patternEndShift site within heads t = some k) : Leads t (k p stack).2 := by
  unfold patternEndShift at hk
  split at hk
  case h_1 =>
    obtain ⟨k', hk', rfl⟩ := Option.map_eq_some_iff.mp hk
    exact paramShift_leads hk'
  all_goals cases hk <;> exact ⟨nofun, nofun⟩

theorem frameShift_leads {frame : Frame} {s : Symbol}
    {k : Expr → List Frame → List Frame × Focus} (hk : frameShift frame s = some k) :
    Leads t (k e stack).2 := by
  cases frame <;> cases s <;> cases hk <;> exact ⟨nofun, nofun⟩

/-- What a token leads to: a fault is that of a number, and only a statement ends. -/
def Follows (g : Goal α) (t : Token) (focus : Focus) : Prop :=
  (∀ f, focus.fault? = some f → OutOfRange t f) ∧ ∀ d, focus = .ended d → g.start = .statement

theorem Leads.follows {focus : Focus} (h : Leads t focus) : Follows g t focus :=
  ⟨h.1, fun d hd => (h.2 d hd).elim⟩

theorem closeShift_follows {v : Except Fault Expr}
    (h : closeShift g done stack v t = some (.ok st')) : Follows g t st'.focus := by
  unfold closeShift at h
  split at h
  case h_1 =>
    obtain ⟨k, hk, h⟩ := Option.bind_eq_some_iff.mp h
    obtain ⟨r, -, h⟩ := Option.bind_eq_some_iff.mp h
    obtain ⟨d, -, rfl⟩ := map_eq_ok.mp (Option.some.inj h)
    cases g with
    | expr => cases hk
    | statement =>
      cases hk
      exact ⟨nofun, fun _ _ => rfl⟩
    | program =>
      cases hk
      exact ⟨nofun, nofun⟩
  case h_2 =>
    obtain ⟨k, hk, h⟩ := Option.map_eq_some_iff.mp h
    obtain ⟨e, -, rfl⟩ := map_eq_ok.mp h
    exact (frameShift_leads hk).follows
  case h_3 => cases h

theorem operatorShift_follows {v : Except Fault Expr}
    (h : operatorShift g done stack left v t = some (.ok st')) : Follows g t st'.focus := by
  unfold operatorShift at h
  split at h
  case h_1 k hk =>
    obtain ⟨e, -, rfl⟩ := map_eq_ok.mp (Option.some.inj h)
    exact (operandStart_leads hk).follows
  case h_2 =>
    split at h
    case h_1 =>
      obtain ⟨e, -, rfl⟩ := map_eq_ok.mp (Option.some.inj h)
      exact ⟨nofun, nofun⟩
    case h_2 => exact closeShift_follows h
  case h_3 => cases h

theorem shift_follows (h : shift g st t = some (.ok st')) : Follows g t st'.focus := by
  have hmap : ∀ {β : Type} {o : Option β} {k : β → State},
      (o.map fun b => (.ok (k b) : Except Fault State)) = some (.ok st') →
      ∃ b, o = some b ∧ k b = st' := by
    intro β o k h
    obtain ⟨b, hb, heq⟩ := Option.map_eq_some_iff.mp h
    exact ⟨b, hb, Except.ok.inj heq⟩
  unfold shift at h
  dsimp only at h
  split at h
  case h_1 =>
    obtain ⟨k, hk, rfl⟩ := hmap h
    exact (exprStart_leads hk).follows
  case h_3 =>
    obtain ⟨k, hk, rfl⟩ := hmap h
    exact (exprStart_leads hk).follows
  case h_4 =>
    obtain ⟨k, hk, rfl⟩ := hmap h
    exact (operandStart_leads hk).follows
  case h_5 => exact operatorShift_follows h
  case h_12 | h_14 | h_16 =>
    obtain ⟨k, hk, rfl⟩ := hmap h
    exact (patternStart_leads hk).follows
  case h_13 =>
    obtain ⟨k, hk, rfl⟩ := hmap h
    exact (paramShift_leads hk).follows
  case h_17 =>
    obtain ⟨k, hk, h⟩ := Option.map_eq_some_iff.mp h
    obtain ⟨p, -, heq⟩ := bind_eq_ok.mp h
    cases heq
    exact (patternEndShift_leads hk).follows
  all_goals cases h <;> exact ⟨nofun, nofun⟩

/-- What stands after a definition: `in`, or what can end a statement where there are statements. -/
def Goal.EndsDefinition (g : Goal α) : List Token → Prop
  | [] => g.start = .statement
  | t :: _ => t = .symbol .kwIn ∨ t = .symbol .semi ∧ g.start ≠ .expr

/-- No definition in a text fails to define something. -/
def Definable (g : Goal α) (ts : List Token) : Prop :=
  ∀ before rec xs cs after,
    ts = before ++ (.symbol .kwLet :: optional rec .kwRec ++ xs ++ after) → Derives .clauses xs cs →
    g.EndsDefinition after → ∃ d, Clause.desugar cs = .ok d

section Definitions

variable {before after xs : List Token}

theorem Series.of_mem {β : Type} {R : β → List Token → Prop} {v : β} {vs : List β}
    (h : Series R vs ts) (hv : v ∈ vs) :
    ∃ before us after, R v us ∧ ts = before ++ (us ++ after) := by
  induction h with
  | nil => cases hv
  | @cons w ws xs ys init last ih =>
    obtain rfl | hv := List.mem_cons.mp hv
    · exact ⟨xs, ys, [], last, by rw [List.append_nil]⟩
    · obtain ⟨before, us, after, hus, rfl⟩ := ih hv
      exact ⟨before, us, after ++ ys, hus, by simp⟩

theorem body_mem_of_settle (h : (settle stack (.ok e)).2 = .error f) :
    ∃ rec cs ce, .body rec cs ∈ stack ∧ Clause.desugar cs = .error ce := by
  induction stack generalizing e with
  | nil => cases h
  | cons frame stack ih =>
    cases frame with
    | lambda ps =>
      obtain ⟨rec, cs, ce, hmem, hce⟩ := ih h
      exact ⟨rec, cs, ce, List.mem_cons_of_mem _ hmem, hce⟩
    | no test yes =>
      obtain ⟨rec, cs, ce, hmem, hce⟩ := ih h
      exact ⟨rec, cs, ce, List.mem_cons_of_mem _ hmem, hce⟩
    | body rec cs =>
      cases hcs : Clause.desugar cs with
      | error ce => exact ⟨rec, cs, ce, List.mem_cons_self, hcs⟩
      | ok d =>
        rw [settle, Except.bind, letExpr, hcs] at h
        obtain ⟨rec', cs', ce, hmem, hce⟩ := ih h
        exact ⟨rec', cs', ce, List.mem_cons_of_mem _ hmem, hce⟩
    | _ => cases h

theorem Definable.settle_ok (hdef : Definable g (before ++ (us ++ after)))
    (hs : Series Frame.Reads stack us) (e : Expr) : ∃ u, (settle stack (.ok e)).2 = .ok u := by
  cases h : (settle stack (.ok e)).2 with
  | ok u => exact ⟨u, rfl⟩
  | error f =>
    obtain ⟨rec, cs, ce, hmem, hce⟩ := body_mem_of_settle h
    obtain ⟨ls, _, rs, ⟨xs, hxs, rfl⟩, rfl⟩ := hs.of_mem hmem
    obtain ⟨d, hd⟩ := hdef (before ++ ls) rec xs cs (.symbol .kwIn :: rs ++ after) (by simp) hxs
      (Or.inl rfl)
    cases hd.symm.trans hce

theorem Definable.decl?_ok (hdef : Definable g (before ++ (us ++ (xs ++ after))))
    (hafter : g.EndsDefinition after) (hs : Series Frame.Reads stack us)
    (he : Derives .expr xs e) {r : Except Fault Decl} (h : decl? stack (.ok e) = some r) :
    ∃ d, r = .ok d := by
  unfold decl? at h
  split at h
  case h_1 => exact ⟨_, (Option.some.inj h).symm⟩
  case h_2 rec cs name ps =>
    cases hs with
    | cons init last =>
      obtain rfl := init.eq_nil
      obtain ⟨vs, hclause, rfl⟩ := last
      obtain ⟨ls, ys, hlet, hc, heq⟩ := hclause.clause he
      obtain ⟨zs, hcs, heq'⟩ := hlet.clauses hc
      obtain ⟨d, hd⟩ := hdef before rec zs _ after (by
        rw [← heq', ← heq]
        simp) hcs hafter
      cases h
      exact ⟨.define rec d.1 d.2, by simp [Except.bind, LetML.letDecl, hd]⟩
  case h_3 => cases h

theorem Definable.closeShift_ne_error (hdef : Definable g (before ++ (us ++ (xs ++ t :: after))))
    (hs : Series Frame.Reads stack us) (he : Derives .expr xs e) :
    closeShift g done stack (.ok e) t ≠ some (.error f) := by
  intro h
  obtain ⟨u, hu⟩ := hdef.settle_ok hs e
  obtain ⟨stack', hsettle⟩ : ∃ stack', settle stack (.ok e) = (stack', .ok u) :=
    ⟨_, Prod.ext rfl hu⟩
  obtain ⟨us', xs', hs', hu', heq⟩ := settle_reads hsettle hs (yields_ok he)
  unfold closeShift at h
  rw [hsettle] at h
  split at h
  case h_1 heq' =>
    cases heq'
    obtain ⟨k, hk, h⟩ := Option.bind_eq_some_iff.mp h
    have hstart : g.start ≠ .expr := by
      cases g with
      | expr => cases hk
      | statement | program => nofun
    obtain ⟨r, hr, h⟩ := Option.bind_eq_some_iff.mp h
    rw [← List.append_assoc us, heq, List.append_assoc] at hdef
    obtain ⟨d, rfl⟩ := hdef.decl?_ok (Or.inr ⟨rfl, hstart⟩) hs' (hu' u rfl) hr
    cases h
  case h_2 heq' =>
    cases heq'
    obtain ⟨k, -, h⟩ := Option.map_eq_some_iff.mp h
    cases h
  case h_3 => cases h

/-- A fault is one that waited for the next token, or an expression ends with it. -/
theorem shift_error (h : shift g st t = some (.error f)) : st.focus.fault?.isSome = true ∨
    ∃ left e, st.focus = .operator left (.ok e) ∧
      closeShift g st.done st.stack (.ok (left.complete e)) t = some (.error f) := by
  have hmap : ∀ {β : Type} {o : Option β} {k : β → State},
      (o.map fun b => (.ok (k b) : Except Fault State)) ≠ some (.error f) := by
    rintro β (_ | b) k h <;> cases h
  unfold shift at h
  dsimp only at h
  split at h
  case h_5 =>
    rename_i left v hfocus
    cases v with
    | error f' => exact Or.inl (by rw [hfocus]; rfl)
    | ok e =>
      refine Or.inr ⟨left, e, hfocus, ?_⟩
      unfold operatorShift at h
      split at h
      case h_1 => cases h
      case h_2 =>
        split at h
        case h_1 => cases h
        case h_2 => exact h
      case h_3 => cases h
  case h_17 =>
    rename_i v hfocus
    cases v with
    | error f' => exact Or.inl (by rw [hfocus]; rfl)
    | ok p =>
      obtain ⟨k, -, h⟩ := Option.map_eq_some_iff.mp h
      cases h
  all_goals first | cases h | exact (hmap h).elim

theorem Definable.shift_ne_error (hdef : Definable g (ts ++ t :: after)) (hst : st.Reads g ts)
    (hfault : st.focus.fault? = none) : shift g st t ≠ some (.error f) := by
  intro h
  obtain hsome | ⟨left, e, hfocus, hclose⟩ := shift_error h
  · rw [hfault] at hsome
    cases hsome
  · cases hst with
    | ended => cases hfocus
    | inside hb hreads =>
      obtain rfl := hfocus
      obtain ⟨ls, xs, hl, hv, rfl⟩ := hreads
      rw [List.append_assoc, List.append_assoc] at hdef
      exact hdef.closeShift_ne_error hb.constructs (hl.complete (hv e rfl)) hclose

theorem Definable.settled_ok (hdef : Definable g ts)
    (hst : State.Reads g ⟨done, stack, .operator left (.ok e)⟩ ts) :
    ∃ stack' u, settle stack (.ok (left.complete e)) = (stack', .ok u) := by
  cases hst with
  | inside hb hreads =>
    obtain ⟨u, hu⟩ := hdef.settle_ok hb.constructs (left.complete e)
    exact ⟨_, u, Prod.ext rfl hu⟩

theorem Definable.finish_ne_error (hdef : Definable g ts) (hst : st.Reads g ts)
    (hfault : st.focus.fault? = none) : finish g st ≠ some (.error f) := by
  intro h
  obtain ⟨done, stack, focus⟩ := st
  cases g with
  | expr =>
    cases focus
    case operator left v =>
      cases v with
      | error f' => cases hfault
      | ok e =>
        obtain ⟨stack', u, hsettle⟩ := hdef.settled_ok hst
        rw [finish] at h
        dsimp only [Except.map] at h
        rw [hsettle] at h
        cases stack' <;> cases h
    all_goals cases h
  | statement =>
    cases focus
    case operator left v =>
      cases v with
      | error f' => cases hfault
      | ok e =>
        obtain ⟨stack', u, hsettle⟩ := hdef.settled_ok hst
        obtain ⟨us, ws, hs, hu, rfl⟩ := hst.settled (fun _ hds => hds) hsettle
        rw [finish] at h
        dsimp only [Except.map] at h
        rw [hsettle] at h
        rw [← List.append_nil ws, ← List.nil_append (us ++ _)] at hdef
        obtain ⟨d, hd⟩ := hdef.decl?_ok rfl hs (hu u rfl) h
        cases hd
    all_goals cases h
  | program => cases stack <;> cases focus <;> cases h

end Definitions

end LetML

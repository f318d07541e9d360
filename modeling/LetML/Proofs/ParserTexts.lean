import LetML.Proofs.Derivation
import LetML.Proofs.ParserRun

namespace LetML

variable {ts us : List Token}

/-- The texts of some parts one after the other, the last part first. -/
inductive Series {β : Type} (R : β → List Token → Prop) : List β → List Token → Prop where
  | nil : Series R [] []
  | cons {v : β} {vs : List β} {us ts : List Token} (init : Series R vs us) (last : R v ts) :
    Series R (v :: vs) (us ++ ts)

/-- The text of a part, then the tokens that separate it from the next. -/
def Followed (n : Nonterminal) (sep : List Token) (v : n.Meaning) (ts : List Token) : Prop :=
  ∃ us, Derives n us v ∧ ts = us ++ sep

def AddedTo (l : Expr × BinOp) (ts : List Token) : Prop :=
  ∃ (a : Addition) (us : List Token), Derives .add us l.1 ∧ l.2 = a.op ∧
    ts = us ++ [.symbol a.symbol]

def ComparedTo (l : Expr × BinOp) (ts : List Token) : Prop :=
  ∃ (q : Comparison) (us : List Token), Derives .cons us l.1 ∧ l.2 = q.op ∧
    ts = us ++ [.symbol q.symbol]

namespace Series

variable {β : Type} {R : β → List Token → Prop}

theorem eq_nil (h : Series R [] ts) : ts = [] := by
  cases h
  rfl

theorem single {v : β} (h : R v ts) : Series R [v] ts := cons nil h

theorem concat {v : β} {vs : List β} (h : Series R vs.reverse us) (hv : R v ts) :
    Series R (vs ++ [v]).reverse (us ++ ts) := by
  rw [List.reverse_append, List.reverse_singleton, List.singleton_append]
  exact cons h hv

/-- Parts are put in front of what follows them from the last to the first. -/
theorem fold {n : Nonterminal} {sep : List Token} {vs : List n.Meaning} {f : β → n.Meaning → β}
    (h : Series (Followed n sep) vs ts) (P : List Token → β → Prop)
    (hf : ∀ {us ws v x}, Derives n us v → P ws x → P (us ++ (sep ++ ws)) (f x v)) {x : β}
    (hx : P us x) : P (ts ++ us) (vs.foldl f x) := by
  induction h generalizing us x with
  | nil => exact hx
  | cons init last ih =>
    obtain ⟨ws, hv, rfl⟩ := last
    rw [List.append_assoc, List.append_assoc]
    exact ih (hf hv hx)

theorem sequence {n : Nonterminal} {sep : List Token} {vs xs : List n.Meaning}
    (h : Series (Followed n sep) vs.reverse ts) (P : List Token → List n.Meaning → Prop)
    (hf : ∀ {us ws v xs}, Derives n us v → P ws xs → P (us ++ (sep ++ ws)) (v :: xs))
    (hxs : P us xs) : P (ts ++ us) (vs ++ xs) := by
  have hfold := h.fold (f := fun xs v => v :: xs) P hf hxs
  rwa [List.foldl_flip_cons_eq_append, List.map_id', List.reverse_reverse] at hfold

theorem whole {n : Nonterminal} {sep : List Token} {vs : List n.Meaning}
    (h : Series (Followed n sep) vs.reverse ts) (P : List Token → List n.Meaning → Prop)
    (hf : ∀ {us ws v xs}, Derives n us v → P ws xs → P (us ++ (sep ++ ws)) (v :: xs))
    (hnil : P [] []) : P ts vs := by
  have hall := h.sequence P hf hnil
  rwa [List.append_nil, List.append_nil] at hall

theorem of_option {o : Option β} (h : Series R o.toList ts) :
    o = none ∧ ts = [] ∨ ∃ v, o = some v ∧ R v ts := by
  cases o with
  | none => exact Or.inl ⟨rfl, h.eq_nil⟩
  | some v =>
    cases h with
    | cons init last =>
      obtain rfl := init.eq_nil
      exact Or.inr ⟨v, rfl, last⟩

end Series

/-- The texts of the operands that wait, from the loosest operator to the tightest. -/
structure Pending.Texts (p : Pending) (o n c h s m f : List Token) : Prop where
  ors : Series (Followed .and [.symbol .orOr]) p.ors o
  ands : Series (Followed .cmp [.symbol .andAnd]) p.ands n
  comparison : Series ComparedTo p.comparison.toList c
  heads : Series (Followed .add [.symbol .colons]) p.heads h
  sum : Series AddedTo p.sum.toList s
  factor : Series (Followed .mul [.symbol .star]) p.factor.toList m
  fn : Series (Followed .app []) p.fn.toList f

def Pending.Reads (p : Pending) (ts : List Token) : Prop :=
  ∃ o n c h s m f, p.Texts o n c h s m f ∧ ts = o ++ (n ++ (c ++ (h ++ (s ++ (m ++ f)))))

namespace Pending

variable {p : Pending} {e : Expr}

theorem texts_nothing : nothing.Texts [] [] [] [] [] [] [] :=
  ⟨.nil, .nil, .nil, .nil, .nil, .nil, .nil⟩

theorem reads_nothing : nothing.Reads [] := ⟨_, _, _, _, _, _, _, texts_nothing, rfl⟩

namespace Texts

variable {o n c h s m f : List Token}

theorem application (H : p.Texts o n c h s m f) (he : Derives .atom us e) :
    Derives .app (f ++ us) (p.application e) := by
  rw [Pending.application]
  obtain ⟨hp, rfl⟩ | ⟨l, hp, ws, hl, rfl⟩ := H.fn.of_option
  · rw [hp]
    exact he.ofAtom
  · rw [hp, List.append_nil]
    exact hl.app he

theorem multiplied (H : p.Texts o n c h s m f) (he : Derives .atom us e) :
    Derives .mul (m ++ (f ++ us)) (p.multiplied e) := by
  have happ := H.application he
  rw [Pending.multiplied]
  obtain ⟨hp, rfl⟩ | ⟨l, hp, ws, hl, rfl⟩ := H.factor.of_option
  · rw [hp]
    exact happ.ofApp
  · rw [hp, List.append_assoc]
    exact hl.mul happ

theorem added (H : p.Texts o n c h s m f) (he : Derives .atom us e) :
    Derives .add (s ++ (m ++ (f ++ us))) (p.added e) := by
  have hmul := H.multiplied he
  rw [Pending.added]
  obtain ⟨hp, rfl⟩ | ⟨⟨l, op⟩, hp, a, ws, hl, rfl, rfl⟩ := H.sum.of_option
  · rw [hp]
    exact hmul.ofMul
  · rw [hp, List.append_assoc]
    exact hl.add hmul

theorem listed (H : p.Texts o n c h s m f) (he : Derives .atom us e) :
    Derives .cons (h ++ (s ++ (m ++ (f ++ us)))) (p.listed e) :=
  H.heads.fold (Derives .cons) (fun hh ht => hh.cons ht) (H.added he).ofAdd

theorem compared (H : p.Texts o n c h s m f) (he : Derives .atom us e) :
    Derives .cmp (c ++ (h ++ (s ++ (m ++ (f ++ us))))) (p.compared e) := by
  have hlist := H.listed he
  rw [Pending.compared]
  obtain ⟨hp, rfl⟩ | ⟨⟨l, op⟩, hp, q, ws, hl, rfl, rfl⟩ := H.comparison.of_option
  · rw [hp]
    exact hlist.ofCons
  · rw [hp, List.append_assoc]
    exact hl.cmp hlist

theorem conjoined (H : p.Texts o n c h s m f) (he : Derives .atom us e) :
    Derives .and (n ++ (c ++ (h ++ (s ++ (m ++ (f ++ us)))))) (p.conjoined e) :=
  H.ands.fold (Derives .and) (fun hl hr => hl.and hr) (H.compared he).ofCmp

theorem complete (H : p.Texts o n c h s m f) (he : Derives .atom us e) :
    Derives .or (o ++ (n ++ (c ++ (h ++ (s ++ (m ++ (f ++ us))))))) (p.complete e) :=
  H.ors.fold (Derives .or) (fun hl hr => hl.or hr) (H.conjoined he).ofAnd

end Texts

theorem Reads.complete (hp : p.Reads ts) (he : Derives .atom us e) :
    Derives .expr (ts ++ us) (p.complete e) := by
  obtain ⟨o, n, c, h, s, m, f, H, rfl⟩ := hp
  simpa only [List.append_assoc] using (H.complete he).ofOr

theorem Reads.apply (hp : p.Reads ts) (he : Derives .atom us e) :
    (p.apply e).Reads (ts ++ us) := by
  obtain ⟨o, n, c, h, s, m, f, H, rfl⟩ := hp
  refine ⟨o, n, c, h, s, m, f ++ us, { H with fn := ?_ }, by simp only [List.append_assoc]⟩
  exact .single ⟨_, H.application he, (List.append_nil _).symm⟩

theorem Reads.addWith (hp : p.Reads ts) (he : Derives .atom us e) (a : Addition)
    {k : Expr → Pending} (hk : p.addWith a.op = some k) : (k e).Reads (ts ++ (us ++ [.symbol a.symbol])) := by
  obtain ⟨o, n, c, h, s, m, f, H, rfl⟩ := hp
  cases hk
  refine ⟨o, n, c, h, s ++ (m ++ (f ++ us)) ++ [.symbol a.symbol], [], [],
    { H with sum := ?_, factor := .nil, fn := .nil }, by simp⟩
  exact .single ⟨a, _, H.added he, rfl, rfl⟩

theorem Reads.compareWith (hp : p.Reads ts) (he : Derives .atom us e) (q : Comparison)
    {k : Expr → Pending} (hk : p.compareWith q.op = some k) :
    (k e).Reads (ts ++ (us ++ [.symbol q.symbol])) := by
  obtain ⟨o, n, c, h, s, m, f, H, rfl⟩ := hp
  rw [Pending.compareWith] at hk
  split at hk
  · cases hk
  · cases hk
    have hnone : p.comparison = none := by simpa using ‹¬p.comparison.isSome = true›
    obtain rfl : c = [] := by
      have hc := H.comparison
      rw [hnone] at hc
      exact hc.eq_nil
    refine ⟨o, n, h ++ (s ++ (m ++ (f ++ us))) ++ [.symbol q.symbol], [], [], [], [],
      ⟨H.ors, H.ands, ?_, .nil, .nil, .nil, .nil⟩, by simp⟩
    exact .single ⟨q, _, H.listed he, rfl, rfl⟩

theorem Reads.operator (hp : p.Reads ts) (he : Derives .atom us e) {s : Symbol}
    {k : Expr → Pending} (hk : p.operator? s = some k) :
    (k e).Reads (ts ++ (us ++ [.symbol s])) := by
  cases s
  case plus => exact hp.addWith he .plus hk
  case minus => exact hp.addWith he .minus hk
  case eq => exact hp.compareWith he .eq hk
  case ne => exact hp.compareWith he .ne hk
  case lt => exact hp.compareWith he .lt hk
  case le => exact hp.compareWith he .le hk
  case gt => exact hp.compareWith he .gt hk
  case ge => exact hp.compareWith he .ge hk
  case star =>
    obtain ⟨o, n, c, h, s, m, f, H, rfl⟩ := hp
    cases hk
    refine ⟨o, n, c, h, s, m ++ (f ++ us) ++ [.symbol .star], [],
      { H with factor := ?_, fn := .nil }, by simp⟩
    exact .single ⟨_, H.multiplied he, rfl⟩
  case colons =>
    obtain ⟨o, n, c, h, s, m, f, H, rfl⟩ := hp
    cases hk
    refine ⟨o, n, c, h ++ (s ++ (m ++ (f ++ us)) ++ [.symbol .colons]), [], [], [],
      ⟨H.ors, H.ands, H.comparison, ?_, .nil, .nil, .nil⟩, by simp⟩
    exact .cons H.heads ⟨_, H.added he, rfl⟩
  case andAnd =>
    obtain ⟨o, n, c, h, s, m, f, H, rfl⟩ := hp
    cases hk
    refine ⟨o, n ++ (c ++ (h ++ (s ++ (m ++ (f ++ us)))) ++ [.symbol .andAnd]), [], [], [], [], [],
      ⟨H.ors, ?_, .nil, .nil, .nil, .nil, .nil⟩, by simp⟩
    exact .cons H.ands ⟨_, H.compared he, rfl⟩
  case orOr =>
    obtain ⟨o, n, c, h, s, m, f, H, rfl⟩ := hp
    cases hk
    refine ⟨o ++ (n ++ (c ++ (h ++ (s ++ (m ++ (f ++ us))))) ++ [.symbol .orOr]), [], [], [], [],
      [], [], ⟨?_, .nil, .nil, .nil, .nil, .nil, .nil⟩, by simp⟩
    exact .cons H.ors ⟨_, H.conjoined he, rfl⟩
  all_goals cases hk

end Pending

/-- The text of a definition up to the name of a clause. -/
def LetText (rec : Bool) (cs : List Clause) (ts : List Token) : Prop :=
  ∃ us, Series (Followed .clause [.symbol .bar]) cs.reverse us ∧
    ts = .symbol .kwLet :: (optional rec .kwRec ++ us)

/-- The text of a definition up to the body of a clause, without the equals sign. -/
def ClauseText (rec : Bool) (cs : List Clause) (name : String) (ps : List Pattern)
    (ts : List Token) : Prop :=
  ∃ us ws, LetText rec cs us ∧ Series (Followed .atomPattern []) ps.reverse ws ∧
    ts = us ++ (.ident name :: ws)

def CaseText (left : Pending) (e : Expr) (ts : List Token) : Prop :=
  ∃ us ws, left.Reads us ∧ Derives .expr ws e ∧
    ts = us ++ (.symbol .kwCase :: (ws ++ [.symbol .kwOf]))

def ArmText (left : Pending) (e : Expr) (as : List (Pattern × Expr)) (ts : List Token) : Prop :=
  ∃ us bar ws, CaseText left e us ∧ Series (Followed .arm [.symbol .bar]) as.reverse ws ∧
    ts = us ++ (optional bar .bar ++ ws)

/-- The text of a construct up to the expression inside it. -/
def Frame.Reads : Frame → List Token → Prop
  | lambda ps, ts => ∃ x xs, ps = x :: xs ∧
    ts = .symbol .backslash :: .ident x :: xs.map .ident ++ [.symbol .arrow]
  | clause rec cs name ps, ts => ∃ us, ClauseText rec cs name ps us ∧ ts = us ++ [.symbol .assign]
  | body rec cs, ts => ∃ us, Derives .clauses us cs ∧
    ts = .symbol .kwLet :: optional rec .kwRec ++ us ++ [.symbol .kwIn]
  | test, ts => ts = [.symbol .kwIf]
  | yes u, ts => ∃ us, Derives .expr us u ∧ ts = .symbol .kwIf :: us ++ [.symbol .kwThen]
  | no u v, ts => ∃ us ws, Derives .expr us u ∧ Derives .expr ws v ∧
    ts = .symbol .kwIf :: us ++ .symbol .kwThen :: ws ++ [.symbol .kwElse]
  | paren left, ts => ∃ us, left.Reads us ∧ ts = us ++ [.symbol .lparen]
  | elem left es, ts => ∃ us ws, left.Reads us ∧
    Series (Followed .expr [.symbol .comma]) es.reverse ws ∧ ts = us ++ .symbol .lbracket :: ws
  | scrutinee left, ts => ∃ us, left.Reads us ∧ ts = us ++ [.symbol .kwCase]
  | arm left e as p, ts => ∃ us ws, ArmText left e as us ∧ Derives .pattern ws p ∧
    ts = us ++ (ws ++ [.symbol .arrow])

def PatternSite.Reads : PatternSite → List Token → Prop
  | param rec cs name ps => ClauseText rec cs name ps
  | arm left e as => ArmText left e as

/-- The text up to a pattern, from the expression that it is part of. -/
inductive PatternText (site : PatternSite) :
    List PatternFrame → List Pattern → List Token → Prop where
  | site {ts : List Token} (h : site.Reads ts) : PatternText site [] [] ts
  | head {within : List PatternFrame} {heads : List Pattern} {p : Pattern} {ts us : List Token}
    (h : PatternText site within heads ts) (hc : Chains site within)
    (hp : Derives .atomPattern us p) :
    PatternText site within (p :: heads) (ts ++ (us ++ [.symbol .colons]))
  | paren {within : List PatternFrame} {heads : List Pattern} {ts : List Token}
    (h : PatternText site within heads ts) :
    PatternText site (.paren heads :: within) [] (ts ++ [.symbol .lparen])
  | elem {within : List PatternFrame} {heads ps : List Pattern} {ts us : List Token}
    (h : PatternText site within heads ts)
    (hps : Series (Followed .pattern [.symbol .comma]) ps.reverse us) :
    PatternText site (.elem heads ps :: within) [] (ts ++ .symbol .lbracket :: us)

/-- A text has the meaning that was found for it, if no fault was. -/
def Yields (n : Nonterminal) (v : Except Fault n.Meaning) (ts : List Token) : Prop :=
  ∀ u, v = .ok u → Derives n ts u

def Focus.Reads : Focus → List Token → Prop
  | expr, ts => ts = []
  | elem left es, ts => (Frame.elem left es).Reads ts
  | operand left, ts => left.Reads ts
  | operator left v, ts => ∃ us ws, left.Reads us ∧ Yields .atom v ws ∧ ts = us ++ ws
  | lambda ps, ts => ts = .symbol .backslash :: ps.map .ident
  | afterLet, ts => ts = [.symbol .kwLet]
  | clauseName rec cs, ts => LetText rec cs ts
  | firstArm left e, ts => CaseText left e ts
  | pattern site within heads, ts => PatternText site within heads ts
  | patternElem site within heads ps, ts => PatternText site (.elem heads ps :: within) [] ts
  | patternEnd site within heads v, ts => ∃ us ws, PatternText site within heads us ∧
    Yields .atomPattern v ws ∧ ts = us ++ ws
  -- nothing follows a statement that has ended, so no construct is open around it
  | ended _, _ => False

def Inside (r : List Frame × Focus) (ts : List Token) : Prop :=
  ∃ us ws, Series Frame.Reads r.1 us ∧ r.2.Reads ws ∧ ts = us ++ ws

theorem yields_ok {n : Nonterminal} {v : n.Meaning} (h : Derives n ts v) : Yields n (.ok v) ts := by
  intro u hu
  cases hu
  exact h

theorem Yields.map {n k : Nonterminal} {v : Except Fault n.Meaning} {f : n.Meaning → k.Meaning}
    (hv : Yields n v ts) (hf : ∀ {u}, Derives n ts u → Derives k us (f u)) :
    Yields k (v.map f) us := by
  intro w hw
  obtain ⟨u, hu, rfl⟩ := map_eq_ok.mp hw
  exact hf (hv u hu)

theorem Yields.bind {n k : Nonterminal} {v : Except Fault n.Meaning}
    {f : n.Meaning → Except Fault k.Meaning} (hv : Yields n v ts)
    (hf : ∀ {u w}, Derives n ts u → f u = .ok w → Derives k us w) : Yields k (v.bind f) us := by
  intro w hw
  obtain ⟨u, hu, hw⟩ := bind_eq_ok.mp hw
  exact hf (hv u hu) hw

theorem yields_readInt {n : Nonterminal} {digits : String} {f : Int64 → n.Meaning}
    (h : ∀ {i}, readInt digits = .ok i → Derives n ts (f i)) :
    Yields n ((readInt digits).map f) ts := by
  intro u hu
  obtain ⟨i, hi, rfl⟩ := map_eq_ok.mp hu
  exact h hi

end LetML

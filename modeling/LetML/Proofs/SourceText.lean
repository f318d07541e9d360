import LetML.Proofs.Spelling

namespace LetML

variable {ts us : List Token}

/-- A literal that can be written: no text is read as a negative number. -/
def Lit.Legible : Lit → Prop
  | int n => 0 ≤ n.toInt
  | bool _ => True

/-- A pattern whose names and literals can be written. -/
def Pattern.Legible : Pattern → Prop
  | var x => IsName x
  | wild | nil => True
  | lit l => l.Legible
  | cons p q => p.Legible ∧ q.Legible

namespace Expr

mutual

/-- An expression whose names and literals can be written, in which every list has an element and
every case an arm. -/
def Legible : Expr → Prop
  | lit l => l.Legible
  | var x => IsName x
  | abs x b => IsName x ∧ b.Legible
  | app f a => f.Legible ∧ a.Legible
  | letIn x v b | letRec x v b => IsName x ∧ v.Legible ∧ b.Legible
  | cond c t e => c.Legible ∧ t.Legible ∧ e.Legible
  | bin _ l r => l.Legible ∧ r.Legible
  | nil => True
  | cons h t => h.Legible ∧ t.Legible
  | list es => es ≠ [] ∧ LegibleElems es
  | case s arms => s.Legible ∧ arms ≠ [] ∧ LegibleArms arms

def LegibleElems : List Expr → Prop
  | [] => True
  | e :: es => e.Legible ∧ LegibleElems es

def LegibleArms : List (Pattern × Expr) → Prop
  | [] => True
  | (p, e) :: arms => p.Legible ∧ e.Legible ∧ LegibleArms arms

end

end Expr

theorem Lit.spells (l : Lit) (h : l.Legible) : ∃ t, Spells l.text [t] ∧
    Derives .atom [t] (.lit l) ∧ Derives .atomPattern [t] (.lit l) := by
  cases l with
  | int n =>
    have hread := readInt_repr h
    exact ⟨_, spells_number h, .number hread, .patternNumber hread⟩
  | bool b =>
    obtain ⟨y, htext, htruth⟩ : ∃ y : Symbol, (bool b).text = y.spelling ∧ bool? y = some b := by
      cases b
      · exact ⟨.kwFalse, by decide, rfl⟩
      · exact ⟨.kwTrue, by decide, rfl⟩
    exact ⟨_, htext ▸ spells_symbol y, .truth htruth, .patternTruth htruth⟩

theorem spells_brackets : Spells "[]" [.symbol .lbracket, .symbol .rbracket] := by
  have heq : "[]" = "[" ++ "" ++ "]" := by decide
  exact heq ▸ spells_empty.brackets

namespace Pattern

/-- A text is read as tokens that derive the pattern, as an atom unless it is a `::` chain. -/
structure Spelled (p : Pattern) (ts : List Token) : Prop where
  spells : Spells p.text ts
  pattern : Derives .pattern ts p
  atom : p.isCons = false → Derives .atomPattern ts p

theorem spelled_atom {p : Pattern} (hs : Spells p.text ts) (h : Derives .atomPattern ts p) :
    p.Spelled ts := ⟨hs, .ofAtomPattern h, fun _ => h⟩

theorem Spelled.head {p : Pattern} (h : p.Spelled ts) :
    ∃ us, Spells (if p.isCons then "(" ++ p.text ++ ")" else p.text) us ∧
      Derives .atomPattern us p := by
  cases hcons : p.isCons with
  | true => exact ⟨_, h.spells.paren, .patternParen h.pattern⟩
  | false => exact ⟨ts, h.spells, h.atom hcons⟩

theorem spelled : (p : Pattern) → p.Legible → ∃ ts, p.Spelled ts
  | var x, h => ⟨_, spelled_atom (IsName.spells h) (.patternVar x)⟩
  | wild, _ => by
    have heq : wild.text = Symbol.underscore.spelling := by decide
    exact ⟨_, spelled_atom (heq ▸ spells_symbol .underscore) .wild⟩
  | lit l, h => by
    obtain ⟨_, hs, -, hatom⟩ := l.spells h
    exact ⟨_, spelled_atom hs hatom⟩
  | nil, _ => ⟨_, spelled_atom spells_brackets (.patternBrackets .noPattern)⟩
  | cons p q, h => by
    obtain ⟨_, hp⟩ := spelled p h.1
    obtain ⟨_, hq⟩ := spelled q h.2
    obtain ⟨_, hhead, hatom⟩ := hp.head
    exact ⟨_, hhead.join (y := .colons) (by decide) hq.spells, .patternCons hatom hq.pattern, nofun⟩

end Pattern

namespace Expr

/-- The text of an expression is read as tokens that derive it, as tight a level as its form has. -/
structure Spelled (e : Expr) (ts : List Token) : Prop where
  spells : Spells e.source ts
  expr : Derives .expr ts e
  atom : e.isAtomic = true → Derives .atom ts e
  app : e.isApp = true → Derives .app ts e
  cons : e.isCons = true → Derives .cons ts e

variable {e f a : Expr} {x : String}

theorem spelled_atom (hs : Spells e.source ts) (h : Derives .atom ts e) : e.Spelled ts where
  spells := hs
  expr := h.ofAtomExpr
  atom _ := h
  app _ := h.ofAtom
  cons _ := h.ofAtom.ofApp.ofMul.ofAdd

theorem spelled_open (hs : Spells e.source ts) (h : Derives .expr ts e)
    (hform : e.isAtomic = false ∧ e.isApp = false ∧ e.isCons = false) : e.Spelled ts where
  spells := hs
  expr := h
  atom hatom := nomatch hform.1.symm.trans hatom
  app happ := nomatch hform.2.1.symm.trans happ
  cons hcons := nomatch hform.2.2.symm.trans hcons

/-- In parentheses or without them, an operand is read at the level it stands at. -/
theorem Spelled.operand (h : e.Spelled ts) {D : List Token → Prop} {bare : Bool}
    (hbare : bare = true → D ts) (hparen : ∀ us, Derives .atom us e → D us) :
    ∃ us, Spells (parenUnless bare e.source) us ∧ D us := by
  cases bare with
  | true => exact ⟨ts, h.spells, hbare rfl⟩
  | false => exact ⟨_, h.spells.paren, hparen _ (.paren h.expr)⟩

theorem Spelled.atomic (h : e.Spelled ts) :
    ∃ us, Spells (parenUnless e.isAtomic e.source) us ∧ Derives .atom us e :=
  h.operand h.atom fun _ h => h

theorem Spelled.function (h : f.Spelled ts) :
    ∃ us, Spells (parenUnless (f.isAtomic || f.isApp) f.source) us ∧ Derives .app us f :=
  h.operand (fun hbare => (Bool.or_eq_true_iff.mp hbare).elim (fun hf => .ofAtom (h.atom hf)) h.app)
    fun _ h => h.ofAtom

theorem Spelled.tail (h : e.Spelled ts) :
    ∃ us, Spells (parenUnless (e.isAtomic || e.isCons) e.source) us ∧ Derives .cons us e :=
  h.operand
    (fun hbare => (Bool.or_eq_true_iff.mp hbare).elim
      (fun he => (h.atom he).ofAtom.ofApp.ofMul.ofAdd) h.cons)
    fun _ h => h.ofAtom.ofApp.ofMul.ofAdd

theorem derives_bin (op : BinOp) {l r : Expr} (hl : Derives .atom ts l) (hr : Derives .atom us r) :
    ∃ y : Symbol, op.symbol = y.spelling ∧ Derives .expr (ts ++ .symbol y :: us) (.bin op l r) := by
  have hl := hl.ofAtom
  have hr := hr.ofAtom
  have hcompare : ∀ q : Comparison, Derives .expr (ts ++ .symbol q.symbol :: us) (.bin q.op l r) :=
    fun q => (Derives.cmp hl.ofApp.ofMul.ofAdd hr.ofApp.ofMul.ofAdd).ofCmp.ofAnd.ofOr
  have hadd : ∀ a : Addition, Derives .expr (ts ++ .symbol a.symbol :: us) (.bin a.op l r) :=
    fun a => (Derives.add hl.ofApp.ofMul hr.ofApp).ofAdd.ofCons.ofCmp.ofAnd.ofOr
  cases op with
  | add => exact ⟨_, by decide, hadd .plus⟩
  | sub => exact ⟨_, by decide, hadd .minus⟩
  | mul => exact ⟨.star, by decide, (hl.ofApp.mul hr).ofMul.ofAdd.ofCons.ofCmp.ofAnd.ofOr⟩
  | eq => exact ⟨_, by decide, hcompare .eq⟩
  | ne => exact ⟨_, by decide, hcompare .ne⟩
  | lt => exact ⟨_, by decide, hcompare .lt⟩
  | le => exact ⟨_, by decide, hcompare .le⟩
  | gt => exact ⟨_, by decide, hcompare .gt⟩
  | ge => exact ⟨_, by decide, hcompare .ge⟩
  | and =>
    exact ⟨.andAnd, by decide,
      (hl.ofApp.ofMul.ofAdd.ofCons.and hr.ofApp.ofMul.ofAdd.ofCons.ofCmp).ofAnd.ofOr⟩
  | or =>
    exact ⟨.orOr, by decide,
      (hl.ofApp.ofMul.ofAdd.ofCons.ofCmp.or hr.ofApp.ofMul.ofAdd.ofCons.ofCmp.ofAnd).ofOr⟩

theorem spelled_abs {b : Expr} (hx : IsName x) (hb : b.Spelled ts) : ∃ us, (abs x b).Spelled us :=
  ⟨_, spelled_open (hx.spells.backslash.join (y := .arrow) (by decide) hb.spells)
    (@Derives.lambda _ _ x [] hb.expr) ⟨rfl, rfl, rfl⟩⟩

theorem spelled_app (hf : f.Spelled ts) (ha : a.Spelled us) : ∃ ws, (app f a).Spelled ws := by
  obtain ⟨_, hfs, hfd⟩ := hf.function
  obtain ⟨_, has, had⟩ := ha.atomic
  have happ := hfd.app had
  exact ⟨_, hfs.blank has, happ.ofApp.ofMul.ofAdd.ofCons.ofCmp.ofAnd.ofOr, nofun, fun _ => happ,
    nofun⟩

theorem derives_clause {v : Expr} (hv : Derives .expr ts v) :
    Derives .clauses (.ident x :: .symbol .assign :: ts) [⟨x, [], v⟩] :=
  .lastClause (.clause .noParam hv)

theorem spelled_letIn {v b : Expr} (hx : IsName x) (hv : v.Spelled ts) (hb : b.Spelled us) :
    ∃ ws, (letIn x v b).Spelled ws :=
  ⟨_, spelled_open
    (((hx.spells.lead (y := .kwLet) (by decide)).join (y := .assign) (by decide) hv.spells).join
      (y := .kwIn) (by decide) hb.spells)
    (@Derives.letIn _ _ _ _ false _ (derives_clause hv.expr) hb.expr rfl) ⟨rfl, rfl, rfl⟩⟩

theorem spelled_letRec {v b : Expr} (hx : IsName x) (hv : v.Spelled ts) (hb : b.Spelled us) :
    ∃ ws, (letRec x v b).Spelled ws := by
  have hlead : Spells ("let rec " ++ x) [.symbol .kwLet, .symbol .kwRec, .ident x] := by
    have hwords : "let rec " = "let " ++ "rec " := by decide
    rw [hwords, String.append_assoc]
    exact (hx.spells.lead (y := .kwRec) (by decide)).lead (by decide)
  exact ⟨_, spelled_open
    ((hlead.join (y := .assign) (by decide) hv.spells).join (y := .kwIn) (by decide) hb.spells)
    (@Derives.letIn _ _ _ _ true _ (derives_clause hv.expr) hb.expr rfl) ⟨rfl, rfl, rfl⟩⟩

theorem spelled_cond {c t n : Expr} {ws : List Token} (hc : c.Spelled ts) (ht : t.Spelled us)
    (hn : n.Spelled ws) : ∃ vs, (cond c t n).Spelled vs :=
  ⟨_, spelled_open
    (((hc.spells.lead (y := .kwIf) (by decide)).join (y := .kwThen) (by decide) ht.spells).join
      (y := .kwElse) (by decide) hn.spells)
    (hc.expr.cond ht.expr hn.expr) ⟨rfl, rfl, rfl⟩⟩

theorem spelled_bin (op : BinOp) {l r : Expr} (hl : l.Spelled ts) (hr : r.Spelled us) :
    ∃ ws, (bin op l r).Spelled ws := by
  obtain ⟨_, hls, hld⟩ := hl.atomic
  obtain ⟨_, hrs, hrd⟩ := hr.atomic
  obtain ⟨y, hop, hd⟩ := derives_bin op hld hrd
  have h := (hls.blank (spells_symbol y)).blank hrs
  rw [← hop, List.append_assoc] at h
  exact ⟨_, spelled_open h hd ⟨rfl, rfl, rfl⟩⟩

theorem spelled_cons {h t : Expr} (hh : h.Spelled ts) (ht : t.Spelled us) :
    ∃ ws, (cons h t).Spelled ws := by
  obtain ⟨_, hhs, hhd⟩ := hh.atomic
  obtain ⟨_, hts, htd⟩ := ht.tail
  have hcons := hhd.ofAtom.ofApp.ofMul.cons htd
  exact ⟨_, hhs.join (y := .colons) (by decide) hts, hcons.ofCons.ofCmp.ofAnd.ofOr, nofun, nofun,
    fun _ => hcons⟩

theorem source_list (es : List Expr) :
    (list es).source = "[" ++ ", ".intercalate (es.map source) ++ "]" := by
  have helems : ∀ b, renderElems b es = es.map (render b) := by
    intro b
    induction es with
    | nil => rfl
    | cons e es ih => rw [renderElems, ih, List.map_cons]
  rw [source, render, helems]
  rfl

theorem spelled_list {es : List Expr} (hes : es ≠ [])
    (h : Spells (", ".intercalate (es.map source)) ts) (hd : Derives .elems ts es) :
    ∃ us, (list es).Spelled us := by
  have hbrackets : bracketed es = list es := by
    cases es with
    | nil => exact (hes rfl).elim
    | cons => rfl
  refine ⟨_, spelled_atom ?_ (hbrackets ▸ hd.brackets)⟩
  rw [source_list]
  exact h.brackets

def armSource (arm : Pattern × Expr) : String := arm.1.text ++ " -> " ++ arm.2.source

theorem source_case (e : Expr) (arms : List (Pattern × Expr)) : (case e arms).source =
    "case " ++ e.source ++ " of " ++ " | ".intercalate (arms.map armSource) ++ " end" := by
  have harms : ∀ b, renderArms b arms = arms.map (fun a => a.1.text ++ " -> " ++ a.2.render b) := by
    intro b
    induction arms with
    | nil => rfl
    | cons arm arms ih => rw [renderArms, ih, List.map_cons]
  rw [source, render, harms]
  rfl

theorem spelled_case {arms : List (Pattern × Expr)} (he : e.Spelled ts)
    (h : Spells (" | ".intercalate (arms.map armSource)) us) (hd : Derives .arms us arms) :
    ∃ ws, (case e arms).Spelled ws := by
  have hlead : Spells ("case " ++ e.source) (.symbol .kwCase :: ts) :=
    he.spells.lead (by decide)
  refine ⟨_, spelled_atom ?_ (he.expr.case false hd)⟩
  rw [source_case]
  have hcase := (hlead.join (w := " of ") (y := .kwOf) (by decide) h).trail (w := " end") (y := .kwEnd)
    (by decide)
  simpa [optional] using hcase

mutual

theorem spelled : (e : Expr) → e.Legible → ∃ ts, e.Spelled ts
  | lit l, h => by
    obtain ⟨_, hs, hatom, -⟩ := l.spells h
    exact ⟨_, spelled_atom hs hatom⟩
  | var x, h => ⟨_, spelled_atom (IsName.spells h) (.var x)⟩
  | abs _ b, h => by
    obtain ⟨_, hb⟩ := spelled b h.2
    exact spelled_abs h.1 hb
  | app f a, h => by
    obtain ⟨_, hf⟩ := spelled f h.1
    obtain ⟨_, ha⟩ := spelled a h.2
    exact spelled_app hf ha
  | letIn _ v b, h => by
    obtain ⟨_, hv⟩ := spelled v h.2.1
    obtain ⟨_, hb⟩ := spelled b h.2.2
    exact spelled_letIn h.1 hv hb
  | letRec _ v b, h => by
    obtain ⟨_, hv⟩ := spelled v h.2.1
    obtain ⟨_, hb⟩ := spelled b h.2.2
    exact spelled_letRec h.1 hv hb
  | cond c t n, h => by
    obtain ⟨_, hc⟩ := spelled c h.1
    obtain ⟨_, ht⟩ := spelled t h.2.1
    obtain ⟨_, hn⟩ := spelled n h.2.2
    exact spelled_cond hc ht hn
  | bin op l r, h => by
    obtain ⟨_, hl⟩ := spelled l h.1
    obtain ⟨_, hr⟩ := spelled r h.2
    exact spelled_bin op hl hr
  | nil, _ => ⟨_, spelled_atom spells_brackets (.brackets .noElem)⟩
  | cons a b, h => by
    obtain ⟨_, ha⟩ := spelled a h.1
    obtain ⟨_, hb⟩ := spelled b h.2
    exact spelled_cons ha hb
  | list es, h => by
    obtain ⟨_, hs, hd⟩ := spelled_elems es h.1 h.2
    exact spelled_list h.1 hs hd
  | case e arms, h => by
    obtain ⟨_, he⟩ := spelled e h.1
    obtain ⟨_, hs, hd⟩ := spelled_arms arms h.2.1 h.2.2
    exact spelled_case he hs hd

theorem spelled_elems : (es : List Expr) → es ≠ [] → LegibleElems es →
    ∃ ts, Spells (", ".intercalate (es.map source)) ts ∧ Derives .elems ts es
  | [], hne, _ => (hne rfl).elim
  | [e], _, h => by
    obtain ⟨_, he⟩ := spelled e h.1
    refine ⟨_, ?_, .lastElem he.expr⟩
    rw [List.map_singleton, String.intercalate_singleton]
    exact he.spells
  | e :: e' :: es, _, h => by
    obtain ⟨_, he⟩ := spelled e h.1
    obtain ⟨_, hs, hd⟩ := spelled_elems (e' :: es) (List.cons_ne_nil e' es) h.2
    refine ⟨_, ?_, .moreElems he.expr hd⟩
    rw [List.map_cons, List.map_cons, String.intercalate_cons_cons]
    exact he.spells.comma hs

theorem spelled_arms : (arms : List (Pattern × Expr)) → arms ≠ [] → LegibleArms arms →
    ∃ ts, Spells (" | ".intercalate (arms.map armSource)) ts ∧ Derives .arms ts arms
  | [], hne, _ => (hne rfl).elim
  | [(p, e)], _, h => by
    obtain ⟨_, hp⟩ := p.spelled h.1
    obtain ⟨_, he⟩ := spelled e h.2.1
    refine ⟨_, ?_, .lastArm (.arm hp.pattern he.expr)⟩
    rw [List.map_singleton, String.intercalate_singleton]
    exact hp.spells.join (by decide) he.spells
  | (p, e) :: arm :: arms, _, h => by
    obtain ⟨_, hp⟩ := p.spelled h.1
    obtain ⟨_, he⟩ := spelled e h.2.1
    obtain ⟨_, hs, hd⟩ := spelled_arms (arm :: arms) (List.cons_ne_nil arm arms) h.2.2
    refine ⟨_, ?_, .moreArms (.arm hp.pattern he.expr) hd⟩
    rw [List.map_cons, List.map_cons, String.intercalate_cons_cons]
    exact (hp.spells.join (by decide) he.spells).join (by decide) hs

end

end Expr

/-- The text with a backslash for every lambda and an arrow for every dot. -/
def withArrows (s : String) : String :=
  String.ofList <| s.toList.flatMap fun c =>
    if c = 'λ' then ['\\'] else if c = '.' then [' ', '-', '>', ' '] else [c]

@[simp] theorem withArrows_append (s t : String) :
    withArrows (s ++ t) = withArrows s ++ withArrows t := by
  simp [withArrows, String.ofList_append]

theorem withArrows_of_plain {s : String} (h : ∀ c ∈ s.toList, c ≠ 'λ' ∧ c ≠ '.') :
    withArrows s = s := by
  have hplain : ∀ cs : List Char, (∀ c ∈ cs, c ≠ 'λ' ∧ c ≠ '.') → cs.flatMap (fun c =>
      if c = 'λ' then ['\\'] else if c = '.' then [' ', '-', '>', ' '] else [c]) = cs := by
    intro cs hcs
    induction cs with
    | nil => rfl
    | cons c cs ih =>
      obtain ⟨hc, hcs⟩ := List.forall_mem_cons.mp hcs
      rw [List.flatMap_cons, if_neg hc.1, if_neg hc.2, ih hcs]
      rfl
  rw [withArrows, hplain _ h, String.ofList_toList]

theorem IsName.withArrows_eq {x : String} (hx : IsName x) : withArrows x = x := by
  refine withArrows_of_plain (fun c hc => ?_)
  have hrest := hx.isIdentRest c hc
  constructor
  all_goals
    rintro rfl
    exact absurd hrest (by decide)

theorem Lit.withArrows_text {l : Lit} (h : l.Legible) : withArrows l.text = l.text := by
  cases l with
  | int n =>
    refine withArrows_of_plain (fun c hc => ?_)
    have hdigit := isDecimal_of_mem_repr h hc
    constructor
    all_goals
      rintro rfl
      exact absurd hdigit (by decide)
  | bool b => cases b <;> decide

theorem Pattern.withArrows_text {p : Pattern} (h : p.Legible) : withArrows p.text = p.text := by
  induction p with
  | var x => exact IsName.withArrows_eq h
  | wild | nil => decide
  | lit l => exact Lit.withArrows_text h
  | cons p q ihp ihq =>
    have hword : withArrows " :: " = " :: " ∧ withArrows "(" = "(" ∧ withArrows ")" = ")" := by decide
    simp only [Pattern.text, withArrows_append, ihq h.2, hword]
    split
    · rw [withArrows_append, withArrows_append, ihp h.1, hword.2.1, hword.2.2]
    · rw [ihp h.1]

namespace Expr

theorem withArrows_words : ∀ w ∈ ["(", ")", "[", "]", "[]", " ", ", ", " | ", " :: ", " -> ", "let ",
    "let rec ", " = ", " in ", "if ", " then ", " else ", "case ", " of ", " end"],
    withArrows w = w := by decide

theorem withArrows_parenUnless (bare : Bool) (s : String) :
    withArrows (parenUnless bare s) = parenUnless bare (withArrows s) := by
  cases bare <;> simp [parenUnless, withArrows_words]

theorem withArrows_operator (op : BinOp) : withArrows op.symbol = op.symbol := by
  cases op <;> decide

theorem withArrows_binder {x : String} (hx : IsName x) :
    withArrows ("λ" ++ x ++ ".") = "\\" ++ x ++ " -> " := by
  have hends : withArrows "λ" = "\\" ∧ withArrows "." = " -> " := by decide
  rw [withArrows_append, withArrows_append, hx.withArrows_eq, hends.1, hends.2]

theorem withArrows_intercalate {sep : String} (hsep : withArrows sep = sep) (l : List String) :
    withArrows (sep.intercalate l) = sep.intercalate (l.map withArrows) := by
  induction l with
  | nil => rfl
  | cons s l ih =>
    cases l with
    | nil => simp
    | cons t l =>
      rw [List.map_cons] at ih
      rw [String.intercalate_cons_cons, withArrows_append, withArrows_append, hsep, ih, List.map_cons,
        List.map_cons, String.intercalate_cons_cons]

mutual

theorem withArrows_render : (e : Expr) → e.Legible →
    withArrows (e.render fun x => "λ" ++ x ++ ".") = e.render fun x => "\\" ++ x ++ " -> "
  | lit _, h => Lit.withArrows_text h
  | var _, h => IsName.withArrows_eq h
  | abs x b, h => by
    rw [render, render, withArrows_append, withArrows_binder h.1, withArrows_render b h.2]
  | app f a, h => by
    simp [render, withArrows_parenUnless, withArrows_words, withArrows_render f h.1,
      withArrows_render a h.2]
  | letIn x v b, h | letRec x v b, h => by
    simp [render, withArrows_words, IsName.withArrows_eq h.1, withArrows_render v h.2.1,
      withArrows_render b h.2.2]
  | cond c t n, h => by
    simp [render, withArrows_words, withArrows_render c h.1, withArrows_render t h.2.1,
      withArrows_render n h.2.2]
  | bin op l r, h => by
    simp [render, withArrows_parenUnless, withArrows_words, withArrows_operator,
      withArrows_render l h.1, withArrows_render r h.2]
  | nil, _ => by
    simp [render, withArrows_words]
  | cons a b, h => by
    simp [render, withArrows_parenUnless, withArrows_words, withArrows_render a h.1,
      withArrows_render b h.2]
  | list es, h => by
    simp [render, withArrows_words, withArrows_intercalate, withArrows_renderElems es h.2]
  | case e arms, h => by
    simp [render, withArrows_words, withArrows_intercalate, withArrows_render e h.1,
      withArrows_renderArms arms h.2.2]

theorem withArrows_renderElems : (es : List Expr) → LegibleElems es →
    (renderElems (fun x => "λ" ++ x ++ ".") es).map withArrows =
      renderElems (fun x => "\\" ++ x ++ " -> ") es
  | [], _ => rfl
  | e :: es, h => by
    rw [renderElems, renderElems, List.map_cons, withArrows_render e h.1,
      withArrows_renderElems es h.2]

theorem withArrows_renderArms : (arms : List (Pattern × Expr)) → LegibleArms arms →
    (renderArms (fun x => "λ" ++ x ++ ".") arms).map withArrows =
      renderArms (fun x => "\\" ++ x ++ " -> ") arms
  | [], _ => rfl
  | (p, e) :: arms, h => by
    simp [renderArms, withArrows_words, Pattern.withArrows_text h.1, withArrows_render e h.2.1,
      withArrows_renderArms arms h.2.2]

end

theorem withArrows_text {e : Expr} (h : e.Legible) : withArrows e.text = e.source :=
  withArrows_render e h

theorem parse_source {e : Expr} (h : e.Legible) : parse .expr e.source = .ok e := by
  obtain ⟨ts, hts⟩ := spelled e h
  exact parse_eq_ok.mpr ⟨ts, hts.spells.lex?_eq, hts.expr⟩

/-- What is printed is read back, so that two expressions with the same text are the same. -/
theorem parse_text {e : Expr} (h : e.Legible) :
    withArrows e.text = e.source ∧ parse .expr (withArrows e.text) = .ok e ∧
      ∀ f : Expr, f.Legible → f.text = e.text → f = e := by
  have hsource := withArrows_text h
  refine ⟨hsource, hsource ▸ parse_source h, fun f hf htext => ?_⟩
  have hsame : f.source = e.source := by rw [← withArrows_text hf, htext, hsource]
  exact Except.ok.inj ((parse_source hf).symm.trans (hsame ▸ parse_source h))

/-- A function in a case in an application, with the largest number there is. -/
def nested : Expr :=
  .abs "f" <| .app
    (.case (.cons (.app (.var "f") (.list [.lit (.int 0), .var "x'"])) (.cons (.var "y") .nil))
      [(.cons (.cons (.var "a") .wild) (.lit (.int 9223372036854775807)),
        .letRec "g" (.abs "z" (.var "z")) (.bin .or (.var "a") (.bin .eq (.var "g") .nil))),
       (.wild, .cond (.lit (.bool true)) (.var "f") (.var "y"))])
    (.app (.var "f") (.lit (.bool false)))

theorem parse_text_nested :
    nested.Legible ∧
    nested.text =
      "λf.case (f [0, x']) :: y :: [] of (a :: _) :: 9223372036854775807 -> let rec g = λz.z in " ++
        "a || (g == []) | _ -> if true then f else y end (f false)" ∧
    parse .expr ("\\f -> case (f [0, x']) :: y :: [] of (a :: _) :: 9223372036854775807 -> " ++
      "let rec g = \\z -> z in a || (g == []) | _ -> if true then f else y end (f false)") =
        .ok nested := by
  have hname : ∀ x ∈ ["f", "x'", "y", "a", "g", "z"], IsName x := by decide +kernel
  have hlegible : nested.Legible := by
    simp [nested, Legible, LegibleElems, LegibleArms, Lit.Legible, Pattern.Legible, hname]
  obtain ⟨hsource, hparse, -⟩ := parse_text hlegible
  have hwords : nested.source = "\\f -> case (f [0, x']) :: y :: [] of (a :: _) :: 9223372036854775807 -> " ++
      "let rec g = \\z -> z in a || (g == []) | _ -> if true then f else y end (f false)" := by
    decide +kernel
  rw [hsource, hwords] at hparse
  exact ⟨hlegible, by decide +kernel, hparse⟩

end Expr

end LetML

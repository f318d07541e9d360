import LetML.Proofs.Normalize
import LetML.Token.Lexer

namespace LetML

variable {xs ys rest rest' : List Char}

theorem eq_of_append_eq {p : Char → Bool} (hx : ∀ c ∈ xs, p c = true) (hy : ∀ c ∈ ys, p c = true)
    (hr : ∀ c ∈ rest.head?, p c = false) (hr' : ∀ c ∈ rest'.head?, p c = false)
    (h : xs ++ rest = ys ++ rest') : xs = ys ∧ rest = rest' := by
  induction xs generalizing ys with
  | nil =>
    cases ys with
    | nil => exact ⟨rfl, h⟩
    | cons y ys =>
      obtain rfl : rest = y :: (ys ++ rest') := h
      cases (hr y rfl).symm.trans (hy y List.mem_cons_self)
  | cons x xs ih =>
    cases ys with
    | nil =>
      obtain rfl : x :: (xs ++ rest) = rest' := h
      cases (hr' x rfl).symm.trans (hx x List.mem_cons_self)
    | cons y ys =>
      obtain ⟨rfl, htail⟩ := List.cons.inj h
      obtain ⟨rfl, hrest⟩ := ih (fun c hc => hx c (List.mem_cons_of_mem _ hc))
        (fun c hc => hy c (List.mem_cons_of_mem _ hc)) htail
      exact ⟨rfl, hrest⟩

theorem eq_of_append_cons_eq {c : Char} (hr : c ∉ rest) (hr' : c ∉ rest')
    (h : xs ++ c :: rest = ys ++ c :: rest') : rest = rest' := by
  obtain ⟨zs, -, hz⟩ | ⟨zs, -, hz⟩ := List.append_eq_append_iff.mp h
  all_goals cases zs with
    | nil => simp_all
    | cons z zs => simp_all

/-- A small letter and digits after it. -/
def IsWord (s : String) : Prop :=
  ∃ c ds, s.toList = c :: ds ∧ isIdentStart c = true ∧ ∀ d ∈ ds, d.isDigit = true

namespace Ty

/-- A text that starts with no digit, so that a word before it has ended. -/
def Apart (cs : List Char) : Prop := ∀ c ∈ cs.head?, c.isDigit = false

/-- A text that goes on with no arrow either, so that a type before it has ended. -/
def Closes (cs : List Char) : Prop := ∀ c ∈ cs.head?, c.isDigit = false ∧ c ≠ ' '

theorem closes_bracket {c : Char} (hc : c = ')' ∨ c = ']') : Closes (c :: rest) := by
  intro d hd
  obtain rfl := Option.some.inj hd
  obtain rfl | rfl := hc <;> decide

theorem Closes.apart (h : Closes rest) : Apart rest := fun c hc => (h c hc).1

theorem apart_blank : Apart (' ' :: rest) := by
  intro c hc
  obtain rfl := Option.some.inj hc
  decide

theorem not_closes_blank : ¬Closes (' ' :: rest) := fun h => (h ' ' rfl).2 rfl

variable {name : Nat → String} {t t' a b : Ty}

def operand (name : Nat → String) (t : Ty) : List Char :=
  if t.isArrow then '(' :: ((t.render name).toList ++ [')']) else (t.render name).toList

theorem operand_arrow (a b : Ty) :
    operand name (arrow a b) = '(' :: (((arrow a b).render name).toList ++ [')']) := rfl

theorem operand_list (a : Ty) :
    operand name (list a) = '[' :: ((a.render name).toList ++ [']']) := by
  simp [operand, isArrow, render]

theorem toList_render_of_not_isArrow (h : t.isArrow = false) :
    (t.render name).toList = operand name t := by
  rw [operand, h]
  rfl

theorem toList_render_arrow (a b : Ty) : ((arrow a b).render name).toList =
    operand name a ++ ' ' :: '-' :: '>' :: ' ' :: (b.render name).toList := by
  rw [render, operand]
  split <;> simp

/-- The text of a type is not the text of another one, whatever comes after them. -/
def Readable (name : Nat → String) (t : Ty) : Prop :=
  ∀ t' rest rest', Closes rest → Closes rest' →
    (t.render name).toList ++ rest = (t'.render name).toList ++ rest' → t = t' ∧ rest = rest'

def ReadableOperand (name : Nat → String) (t : Ty) : Prop :=
  ∀ t' rest rest', Apart rest → Apart rest' →
    operand name t ++ rest = operand name t' ++ rest' → t = t' ∧ rest = rest'

def mark : Ty → Char
  | var _ => 'a'
  | int => 'I'
  | bool => 'B'
  | arrow _ _ => '('
  | list _ => '['

variable (hname : ∀ v, IsWord (name v))
include hname

theorem operand_head (t : Ty) : ∃ c cs, operand name t = c :: cs ∧
    (if isIdentStart c then 'a' else c) = t.mark := by
  cases t with
  | var v =>
    obtain ⟨c, ds, hw, hc, -⟩ := hname v
    exact ⟨c, ds, hw, if_pos hc⟩
  | int => exact ⟨'I', ['n', 't'], by simp [operand, isArrow, render], rfl⟩
  | bool => exact ⟨'B', ['o', 'o', 'l'], by simp [operand, isArrow, render], rfl⟩
  | arrow a b => exact ⟨_, _, operand_arrow a b, rfl⟩
  | list a => exact ⟨_, _, operand_list a, rfl⟩

theorem mark_eq (h : operand name t ++ rest = operand name t' ++ rest') : t.mark = t'.mark := by
  obtain ⟨c, cs, hop, hc⟩ := operand_head hname t
  obtain ⟨c', cs', hop', hc'⟩ := operand_head hname t'
  rw [hop, hop'] at h
  rw [← hc, ← hc', (List.cons.inj h).1]

theorem readableOperand_var (hinj : Function.Injective name) (v : Nat) :
    ReadableOperand name (var v) := by
  intro t' rest rest' hr hr' h
  have hmark := mark_eq hname h
  cases t' with
  | var u =>
    obtain ⟨c, ds, hv, -, hds⟩ := hname v
    obtain ⟨c', ds', hu, -, hds'⟩ := hname u
    have hwords : c :: (ds ++ rest) = c' :: (ds' ++ rest') := by
      simpa [operand, isArrow, render, hv, hu] using h
    obtain ⟨rfl, htail⟩ := List.cons.inj hwords
    obtain ⟨rfl, hrest⟩ := eq_of_append_eq hds hds' hr hr' htail
    have hvu : name v = name u := String.toList_inj.mp (hv.trans hu.symm)
    rw [hinj hvu]
    exact ⟨rfl, hrest⟩
  | int | bool | arrow | list => simp [mark] at hmark

theorem readableOperand_int : ReadableOperand name int := by
  intro t' rest rest' _ _ h
  have hmark := mark_eq hname h
  cases t' with
  | int => exact ⟨rfl, List.append_cancel_left h⟩
  | var | bool | arrow | list => simp [mark] at hmark

theorem readableOperand_bool : ReadableOperand name bool := by
  intro t' rest rest' _ _ h
  have hmark := mark_eq hname h
  cases t' with
  | bool => exact ⟨rfl, List.append_cancel_left h⟩
  | var | int | arrow | list => simp [mark] at hmark

theorem readableOperand_list (ha : Readable name a) : ReadableOperand name (list a) := by
  intro t' rest rest' _ _ h
  have hmark := mark_eq hname h
  cases t' with
  | list a' =>
    simp only [operand_list, List.cons_append, List.append_assoc, List.cons.injEq, true_and] at h
    obtain ⟨rfl, hrest⟩ := ha a' _ _ (closes_bracket (Or.inr rfl)) (closes_bracket (Or.inr rfl)) h
    exact ⟨rfl, (List.cons.inj hrest).2⟩
  | var | int | bool | arrow => simp [mark] at hmark

theorem readableOperand_arrow (hab : Readable name (arrow a b)) :
    ReadableOperand name (arrow a b) := by
  intro t' rest rest' _ _ h
  have hmark := mark_eq hname h
  cases t' with
  | arrow a' b' =>
    simp only [operand_arrow, List.cons_append, List.append_assoc, List.cons.injEq, true_and] at h
    obtain ⟨hty, hrest⟩ := hab _ _ _ (closes_bracket (Or.inl rfl)) (closes_bracket (Or.inl rfl)) h
    exact ⟨hty, (List.cons.inj hrest).2⟩
  | var | int | bool | list => simp [mark] at hmark

omit hname

/-- An operand that an arrow follows is none that ends a type. -/
theorem ReadableOperand.not_arrow (ht : ReadableOperand name t) (hr : Closes rest)
    {cs : List Char} : operand name t ++ rest ≠ operand name a ++ ' ' :: cs := by
  intro h
  obtain ⟨-, rfl⟩ := ht a _ _ hr.apart apart_blank h
  exact not_closes_blank hr

theorem ReadableOperand.not_arrow' (ht : ReadableOperand name t) (hr : Closes rest)
    {cs : List Char} : operand name t ++ ' ' :: cs ≠ operand name a ++ rest := by
  intro h
  obtain ⟨-, rfl⟩ := ht a _ _ apart_blank hr.apart h
  exact not_closes_blank hr

theorem readable_of_not_isArrow (hna : t.isArrow = false) (ht : ReadableOperand name t) :
    Readable name t := by
  intro t' rest rest' hr hr' h
  rw [toList_render_of_not_isArrow hna] at h
  by_cases ht' : t'.isArrow = false
  · rw [toList_render_of_not_isArrow ht'] at h
    exact ht t' _ _ hr.apart hr'.apart h
  · cases t' with
    | arrow a' b' =>
      rw [toList_render_arrow, List.append_assoc] at h
      exact (ht.not_arrow hr h).elim
    | var | int | bool | list => exact (ht' rfl).elim

theorem readable_arrow (ha : ReadableOperand name a) (hb : Readable name b) :
    Readable name (arrow a b) := by
  intro t' rest rest' hr hr' h
  rw [toList_render_arrow, List.append_assoc] at h
  by_cases ht' : t'.isArrow = false
  · rw [toList_render_of_not_isArrow ht'] at h
    exact (ha.not_arrow' hr' h).elim
  · cases t' with
    | arrow a' b' =>
      simp only [toList_render_arrow, List.append_assoc, List.cons_append] at h
      obtain ⟨rfl, harrow⟩ := ha a' _ _ apart_blank apart_blank h
      simp only [List.cons.injEq, true_and] at harrow
      obtain ⟨rfl, hrest⟩ := hb b' _ _ hr hr' harrow
      exact ⟨rfl, hrest⟩
    | var | int | bool | list => exact (ht' rfl).elim

/-- Types with variables that are written by different words are written differently. -/
theorem readable (hname : ∀ v, IsWord (name v)) (hinj : Function.Injective name) (t : Ty) :
    Readable name t ∧ ReadableOperand name t := by
  induction t with
  | var v =>
    have h := readableOperand_var hname hinj v
    exact ⟨readable_of_not_isArrow rfl h, h⟩
  | int => exact ⟨readable_of_not_isArrow rfl (readableOperand_int hname), readableOperand_int hname⟩
  | bool => exact ⟨readable_of_not_isArrow rfl (readableOperand_bool hname), readableOperand_bool hname⟩
  | arrow a b iha ihb =>
    have h := readable_arrow iha.2 ihb.1
    exact ⟨h, readableOperand_arrow hname h⟩
  | list a ih =>
    have h := readableOperand_list hname ih.1
    exact ⟨readable_of_not_isArrow rfl h, h⟩

theorem render_injective (hname : ∀ v, IsWord (name v)) (hinj : Function.Injective name) :
    Function.Injective (render name) := by
  intro t t' h
  have hnil : Closes [] := fun c hc => nomatch hc
  have happ : (t.render name).toList ++ [] = (t'.render name).toList ++ [] := by rw [h]
  exact ((readable hname hinj t).1 t' _ _ hnil hnil happ).1

theorem render_congr {name' : Nat → String} (h : ∀ v ∈ t.leaves, name v = name' v) :
    t.render name = t.render name' := by
  induction t with
  | var v => exact h v List.mem_cons_self
  | int | bool => rfl
  | arrow a b iha ihb =>
    rw [render, render, iha (fun v hv => h v (List.mem_append_left _ hv)),
      ihb (fun v hv => h v (List.mem_append_right _ hv))]
  | list a ih => rw [render, render, ih h]

theorem isArrow_rename (f : Nat → Nat) (t : Ty) : (t.rename f).isArrow = t.isArrow := by
  cases t <;> rfl

theorem render_rename (f : Nat → Nat) (t : Ty) : (t.rename f).render name = t.render (name ∘ f) := by
  induction t with
  | var v => rfl
  | int | bool => rfl
  | arrow a b iha ihb => rw [rename, render, render, iha, ihb, isArrow_rename]
  | list a ih => rw [rename, render, render, ih]

theorem dot_not_mem_render (hname : ∀ v, IsWord (name v)) (t : Ty) :
    '.' ∉ (t.render name).toList := by
  induction t with
  | var v =>
    obtain ⟨c, ds, hw, hc, hds⟩ := hname v
    rw [render, hw, List.mem_cons, not_or]
    exact ⟨fun h => by simp [← h, isIdentStart] at hc, fun h => by simpa using hds _ h⟩
  | int | bool => simp [render]
  | arrow a b iha ihb =>
    rw [render]
    split <;> simp [iha, ihb]
  | list a ih => simp [render, ih]

end Ty

namespace Scheme

def letterDigits (i : Nat) : List Char := if i < 26 then [] else Nat.toDigits 10 (i / 26)

theorem toList_letterName (i : Nat) :
    (letterName i).toList = Char.ofNat ('a'.toNat + i % 26) :: letterDigits i := by
  rw [letterName, letterDigits]
  split <;> simp

theorem isWord_letterName (i : Nat) : IsWord (letterName i) := by
  have hletter : ∀ r : Fin 26, isIdentStart (Char.ofNat ('a'.toNat + r)) = true := by decide
  refine ⟨_, _, toList_letterName i, hletter ⟨i % 26, Nat.mod_lt _ (by decide)⟩, fun d hd => ?_⟩
  rw [letterDigits] at hd
  split at hd
  · cases hd
  · exact Nat.isDigit_of_mem_toDigits (by decide) (by decide) hd

theorem letterName_injective : Function.Injective letterName := by
  intro i j h
  have hletter : ∀ r s : Fin 26,
      Char.ofNat ('a'.toNat + r) = Char.ofNat ('a'.toNat + s) → r = s := by decide
  have htext := congrArg String.toList h
  rw [toList_letterName, toList_letterName] at htext
  obtain ⟨hfirst, hdigits⟩ := List.cons.inj htext
  have hmod : i % 26 = j % 26 := congrArg Fin.val
    (hletter ⟨i % 26, Nat.mod_lt _ (by decide)⟩ ⟨j % 26, Nat.mod_lt _ (by decide)⟩ hfirst)
  have hdiv : i / 26 = j / 26 := by
    simp only [letterDigits] at hdigits
    split at hdigits <;> split at hdigits
    · omega
    · exact (Nat.toDigits_ne_nil hdigits.symm).elim
    · exact (Nat.toDigits_ne_nil hdigits).elim
    · rw [← Nat.ofDigitChars_ten_toDigits (n := i / 26), hdigits, Nat.ofDigitChars_ten_toDigits]
  omega

variable {σ τ : Scheme}

theorem idxOf?_map {f : Nat → Nat} {v : Nat} {l : List Nat} (hf : ∀ u ∈ l, f u = f v → u = v) :
    (l.map f).idxOf? (f v) = l.idxOf? v := by
  induction l with
  | nil => rfl
  | cons u l ih =>
    obtain ⟨hu, hl⟩ := List.forall_mem_cons.mp hf
    have huv : (f u == f v) = (u == v) := by
      rw [Bool.eq_iff_iff, beq_iff_eq, beq_iff_eq]
      exact ⟨hu, congrArg f⟩
    rw [List.map_cons, List.idxOf?_cons, List.idxOf?_cons, ih hl, huv]

theorem Renaming.nameAmong_eq {k : Nat → Nat} (h : σ.Renaming τ k) {v : Nat}
    (hv : v ∈ σ.ty.leaves) : nameAmong τ.bound (k v) = nameAmong σ.bound v := by
  have hidx : τ.bound.idxOf? (k v) = σ.bound.idxOf? v := by
    rw [h.bound_eq]
    exact idxOf?_map fun u hu huv => h.inj (mem_bound.mp hu).1 hv huv
  rw [nameAmong, nameAmong, hidx]
  split
  · rfl
  · rename_i hnone
    have hq : v ∉ σ.vars := fun hq => List.idxOf?_eq_none_iff.mp hnone (mem_bound.mpr ⟨hv, hq⟩)
    rw [h.free_eq v ⟨hv, hq⟩]

theorem Renaming.text_eq {k : Nat → Nat} (h : σ.Renaming τ k) : τ.text = σ.text := by
  have hbody : τ.ty.render (nameAmong τ.bound) = σ.ty.render (nameAmong σ.bound) := by
    rw [h.ty_eq, Ty.render_rename]
    exact Ty.render_congr fun v hv => h.nameAmong_eq hv
  have hnames : τ.bound.map (nameAmong τ.bound) = σ.bound.map (nameAmong σ.bound) := by
    conv => lhs; arg 2; rw [h.bound_eq]
    rw [List.map_map]
    exact List.map_congr_left fun v hv => h.nameAmong_eq (mem_bound.mp hv).1
  have hempty : τ.bound.isEmpty = σ.bound.isEmpty := by rw [h.bound_eq, List.isEmpty_map]
  simp only [text, hbody, hnames, hempty]

theorem text_normalize (σ : Scheme) : σ.normalize.text = σ.text := σ.renaming_normalize.text_eq

theorem normalize_of_closed (hσ : σ.Closed) : σ.normalize = ⟨σ.normalize.ty.vars, σ.normalize.ty⟩ := by
  rw [← bound_of_closed (closed_normalize.mpr hσ), bound_normalize]

theorem normalize_vars_of_closed (hσ : σ.Closed) :
    σ.normalize.vars = List.range σ.bound.length := by
  change leastOutside σ.unbound σ.bound.length = _
  rw [hσ]
  simp [leastOutside]

theorem render_normalize_of_closed (hσ : σ.Closed) :
    σ.normalize.ty.render (nameAmong σ.normalize.bound) = σ.normalize.ty.render letterName := by
  refine Ty.render_congr fun v hv => ?_
  have hmem : v ∈ σ.normalize.vars := by
    rw [normalize_of_closed hσ]
    exact Ty.mem_vars.mpr hv
  rw [normalize_vars_of_closed hσ, List.mem_range] at hmem
  have hidx : (List.range σ.bound.length).idxOf? v = some v :=
    List.idxOf?_eq_some_iff.mpr ⟨by simpa using hmem, by simp, by simp; omega⟩
  rw [nameAmong, bound_normalize, normalize_vars_of_closed hσ, hidx]

theorem text_of_closed (hσ : σ.Closed) : σ.text = σ.normalize.ty.render letterName ∨
    ∃ cs, σ.text.toList = cs ++ '.' :: ' ' :: (σ.normalize.ty.render letterName).toList := by
  rw [← text_normalize, ← render_normalize_of_closed hσ, text]
  split
  · exact Or.inl rfl
  · let names := " ".intercalate (σ.normalize.bound.map (nameAmong σ.normalize.bound))
    exact Or.inr ⟨("forall " ++ names).toList, by simp [names]⟩

/-- The text of a closed scheme determines the scheme but for the names of its bound variables. -/
theorem text_eq_iff (hσ : σ.Closed) (hτ : τ.Closed) :
    σ.text = τ.text ↔ σ.normalize = τ.normalize := by
  refine ⟨fun h => ?_, fun h => by rw [← text_normalize, h, text_normalize]⟩
  have hdot := Ty.dot_not_mem_render isWord_letterName
  have hbody : σ.normalize.ty.render letterName = τ.normalize.ty.render letterName := by
    obtain hs | ⟨cs, hs⟩ := text_of_closed hσ <;> obtain ht | ⟨ds, ht⟩ := text_of_closed hτ
    · rw [← hs, ← ht, h]
    -- a text with quantifiers has a dot, and one without them has none
    · refine (hdot σ.normalize.ty ?_).elim
      rw [← hs, h, ht]
      simp
    · refine (hdot τ.normalize.ty ?_).elim
      rw [← ht, ← h, hs]
      simp
    · rw [h, ht] at hs
      have hrest := eq_of_append_cons_eq (by simp [hdot]) (by simp [hdot]) hs
      exact String.toList_inj.mp (List.cons.inj hrest).2.symm
  have hty := Ty.render_injective isWord_letterName letterName_injective hbody
  rw [normalize_of_closed hσ, normalize_of_closed hτ, hty]

/-- The order of quantifiers does not show, and parentheses do. -/
theorem text_eq_iff_reordered :
    let σ : Scheme := ⟨[8, 3, 8], .arrow (.list (.var 3)) (.arrow (.var 8) (.var 3))⟩
    let τ : Scheme := ⟨[0, 1], .arrow (.list (.var 1)) (.arrow (.var 0) (.var 1))⟩
    let ρ : Scheme := ⟨[0, 1], .arrow (.arrow (.list (.var 1)) (.var 0)) (.var 1)⟩
    σ.Closed ∧ τ.Closed ∧ ρ.Closed ∧ σ.text = τ.text ∧ σ.text ≠ ρ.text :=
  ⟨by decide, by decide, by decide, (text_eq_iff (by decide) (by decide)).mpr (by decide),
    mt (text_eq_iff (by decide) (by decide)).mp (by decide)⟩

end Scheme

end LetML

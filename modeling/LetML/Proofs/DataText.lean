import LetML.Proofs.Computation
import LetML.Proofs.SourceText

namespace LetML

namespace Value

/-- Numbers that are not negative, truth values, and lists of such data, of one kind or of several. -/
inductive IsData : Value → Prop
  | int {n : Int64} : 0 ≤ n.toInt → IsData (int n)
  | bool (b : Bool) : IsData (bool b)
  | ofList {vs : List Value} : (∀ v ∈ vs, IsData v) → IsData (ofList vs)

mutual

def literal : Value → Expr
  | int n => .lit (.int n)
  | bool b => .lit (.bool b)
  | cons h t => .list (h.literal :: t.literals)
  | nil | closure _ _ _ => .nil

def literals : Value → List Expr
  | cons h t => h.literal :: t.literals
  | _ => []

end

open LetML.Computation

variable {v w : Value} {vs : List Value} {ρ : Env} {store : Store}

theorem ofList_cons (v : Value) (vs : List Value) : ofList (v :: vs) = cons v (ofList vs) := rfl

theorem literals_ofList (vs : List Value) : (ofList vs).literals = vs.map literal := by
  induction vs with
  | nil => simp only [ofList, List.foldr_nil, literals, List.map_nil]
  | cons v vs ih => rw [ofList_cons, literals, ih, List.map_cons]

theorem literal_ofList (vs : List Value) : (ofList vs).literal = bracketed (vs.map literal) := by
  cases vs with
  | nil => simp only [ofList, List.foldr_nil, literal, List.map_nil, bracketed]
  | cons v vs =>
    rw [ofList_cons, literal, literals_ofList, List.map_cons, bracketed]
    exact List.cons_ne_nil _ _

theorem text_append_restText (v : Value) (vs : List Value) :
    v.text ++ (ofList vs).restText = ", ".intercalate ((v :: vs).map text) := by
  induction vs generalizing v with
  | nil => simp [ofList, restText]
  | cons w vs ih =>
    rw [ofList_cons, restText, String.append_assoc, ih, ← String.append_assoc, List.map_cons,
      List.map_cons, List.map_cons, String.intercalate_cons_cons]

theorem text_ofList (vs : List Value) :
    (ofList vs).text = "[" ++ ", ".intercalate (vs.map text) ++ "]" := by
  cases vs with
  | nil => simp [ofList, text]
  | cons v vs => rw [ofList_cons, text, ← text_append_restText, ← String.append_assoc]

theorem dataEq_ofList (h : ∀ v ∈ vs, v.dataEq v = true) : (ofList vs).dataEq (ofList vs) = true := by
  induction vs with
  | nil => rfl
  | cons v vs ih =>
    obtain ⟨hv, hvs⟩ := List.forall_mem_cons.mp h
    rw [ofList_cons, dataEq, hv, ih hvs, Bool.and_self]

theorem source_bracketed (es : List Expr) :
    (bracketed es).source = "[" ++ ", ".intercalate (es.map Expr.source) ++ "]" := by
  cases es with
  | nil => simp [bracketed, Expr.source, Expr.render]
  | cons e es => exact Expr.source_list (e :: es)

theorem legible_bracketed {es : List Expr} (h : ∀ e ∈ es, e.Legible) : (bracketed es).Legible := by
  have helems : ∀ {es : List Expr}, (∀ e ∈ es, e.Legible) → Expr.LegibleElems es := by
    intro es h
    induction es with
    | nil => simp [Expr.LegibleElems]
    | cons e es ih =>
      rw [Expr.LegibleElems]
      exact (List.forall_mem_cons.mp h).imp_right ih
  cases es with
  | nil => simp [bracketed, Expr.Legible]
  | cons e es =>
    rw [bracketed, Expr.Legible]
    · exact ⟨List.cons_ne_nil e es, helems h⟩
    · exact List.cons_ne_nil _ _

namespace IsData

theorem legible (h : v.IsData) : v.literal.Legible := by
  induction h with
  | int hn => exact hn
  | bool b => trivial
  | ofList _ ih =>
    rw [literal_ofList]
    refine legible_bracketed (fun e he => ?_)
    obtain ⟨v, hv, rfl⟩ := List.mem_map.mp he
    exact ih v hv

theorem source_literal (h : v.IsData) : v.literal.source = v.text := by
  induction h with
  | int | bool => simp [literal, Expr.source, Expr.render, text, scalarText, Lit.text]
  | @ofList vs _ ih =>
    have hmap : (vs.map literal).map Expr.source = vs.map text := by
      rw [List.map_map]
      exact List.map_congr_left ih
    rw [literal_ofList, source_bracketed, hmap, text_ofList]

theorem dataEq_self (h : v.IsData) : v.dataEq v = true := by
  induction h with
  | int | bool => simp [dataEq]
  | ofList _ ih => exact dataEq_ofList ih

theorem agree_literal (h : v.IsData) : Agree store (evaluation ρ v.literal) (pure v) := by
  induction h with
  | int | bool => exact agree_lit _
  | @ofList vs _ ih =>
    rw [literal_ofList]
    cases vs with
    | nil => exact agree_nil
    | cons v vs =>
      exact agree_list_pure (List.forall₂_map_left_iff.mpr (List.forall₂_same.mpr ih))

theorem evaluates_literal (h : v.IsData) {r : Except RuntimeError Value} {store' : Store} :
    Evaluates ρ v.literal store r store' ↔ r = .ok v ∧ store' = store :=
  h.agree_literal.ends_iff.trans (ends_ofResult (r := .ok v))

end IsData

/-- Data that is printed is read back: its text is that of an expression, whose value, in whatever
environment, is the data. No two data have the same text. -/
theorem text_reads_back (h : v.IsData) :
    (∃ e, parse .expr v.text = .ok e ∧ ∀ ρ store r store',
      Evaluates ρ e store r store' ↔ r = .ok v ∧ store' = store) ∧
    v.dataEq v = true ∧ ∀ w, w.IsData → w.text = v.text → w = v := by
  have hparse : ∀ {w : Value}, w.IsData → parse .expr w.text = .ok w.literal := fun hw =>
    hw.source_literal ▸ Expr.parse_source hw.legible
  refine ⟨⟨v.literal, hparse h, fun ρ store r store' => h.evaluates_literal⟩, h.dataEq_self,
    fun w hw htext => ?_⟩
  have hliteral : w.literal = v.literal :=
    Except.ok.inj ((hparse hw).symm.trans (htext ▸ hparse h))
  have hsame : Evaluates .empty v.literal .empty (.ok w) .empty :=
    hliteral ▸ hw.evaluates_literal.mpr ⟨rfl, rfl⟩
  exact Except.ok.inj (h.evaluates_literal.mp hsame).1

/-- Lists of several kinds in a list, with the largest number there is. -/
def mixed : Value :=
  .ofList [.ofList [.int 1, .bool true, .ofList []], .int 9223372036854775807, .ofList [.ofList []]]

theorem text_reads_back_mixed :
    mixed.IsData ∧ mixed.text = "[[1, true, []], 9223372036854775807, [[]]]" ∧
      ∃ e, parse .expr "[[1, true, []], 9223372036854775807, [[]]]" = .ok e ∧
        ∀ ρ store, Evaluates ρ e store (.ok mixed) store := by
  have hnil : IsData (ofList []) := .ofList (fun _ hv => nomatch hv)
  have hmixed : mixed.IsData := by
    refine .ofList (fun v hv => ?_)
    simp only [List.mem_cons, List.not_mem_nil, or_false] at hv
    rcases hv with rfl | rfl | rfl
    · refine .ofList (fun v hv => ?_)
      simp only [List.mem_cons, List.not_mem_nil, or_false] at hv
      rcases hv with rfl | rfl | rfl
      · exact .int (by decide)
      · exact .bool true
      · exact hnil
    · exact .int (by decide)
    · exact .ofList (fun v hv => List.mem_singleton.mp hv ▸ hnil)
  have htext : mixed.text = "[[1, true, []], 9223372036854775807, [[]]]" := by decide +kernel
  obtain ⟨e, hparse, heval⟩ := (text_reads_back hmixed).1
  exact ⟨hmixed, htext, e, htext ▸ hparse, fun ρ store => (heval ρ store _ _).mpr ⟨rfl, rfl⟩⟩

end Value

end LetML

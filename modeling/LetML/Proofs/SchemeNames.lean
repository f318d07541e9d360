import LetML.Proofs.SchemeText

namespace LetML

namespace Scheme

variable {σ : Scheme} {i v w : Nat}

theorem letterName_eq_rawName_iff : letterName i = Ty.rawName w ↔ 0 < w ∧ i = 26 * w + 19 := by
  have hletter : ∀ r : Fin 26, Char.ofNat ('a'.toNat + r) = 't' ↔ r.val = 19 := by decide
  have hfirst : Char.ofNat ('a'.toNat + i % 26) = 't' ↔ i % 26 = 19 :=
    hletter ⟨i % 26, Nat.mod_lt _ (by decide)⟩
  have hdigits : letterDigits i = Nat.toDigits 10 w ↔ 26 ≤ i ∧ i / 26 = w := by
    rw [letterDigits]
    split
    · exact iff_of_false (fun h => Nat.toDigits_ne_nil h.symm) (by omega)
    · refine ⟨fun h => ⟨by omega, ?_⟩, fun h => by rw [h.2]⟩
      rw [← Nat.ofDigitChars_ten_toDigits (n := i / 26), h, Nat.ofDigitChars_ten_toDigits]
  rw [← String.toList_inj, toList_letterName, Ty.rawName, String.toList_append, Nat.toList_repr]
  change _ = 't' :: Nat.toDigits 10 w ↔ _
  rw [List.cons.injEq, hfirst, hdigits]
  omega

theorem nameAmong_getElem (hi : i < σ.bound.length) :
    nameAmong σ.bound σ.bound[i] = letterName i := by
  have hidx : σ.bound.idxOf? σ.bound[i] = some i :=
    List.idxOf?_eq_some_iff.mpr ⟨hi, rfl, fun j hj h => by
      rw [σ.nodup_bound.getElem_inj_iff] at h
      omega⟩
  rw [nameAmong, hidx]

theorem map_nameAmong_bound (σ : Scheme) :
    σ.bound.map (nameAmong σ.bound) = (List.range σ.bound.length).map letterName := by
  refine List.ext_getElem (by simp) fun i hi _ => ?_
  rw [List.getElem_map, List.getElem_map, List.getElem_range]
  exact nameAmong_getElem (by simpa using hi)

theorem nameAmong_of_free (hw : σ.Free w) : nameAmong σ.bound w = Ty.rawName w := by
  have hidx : σ.bound.idxOf? w = none :=
    List.idxOf?_eq_none_iff.mpr fun h => hw.2 (mem_bound.mp h).2
  rw [nameAmong, hidx]

/-- No two bound variables have the same name, and one is named as a free one only where there are
enough of them to come to the letter `t`. -/
theorem bound_names_apart (σ : Scheme) :
    (σ.bound.map (nameAmong σ.bound)).Nodup ∧
    (∀ w, σ.Free w → nameAmong σ.bound w = Ty.rawName w) ∧
    ((∀ v ∈ σ.bound, ∀ w, σ.Free w → nameAmong σ.bound v ≠ Ty.rawName w) ↔
      ∀ w, σ.Free w → w = 0 ∨ σ.bound.length ≤ 26 * w + 19) := by
  refine ⟨?_, fun w => nameAmong_of_free, fun h w hw => ?_, fun h v hv w hw heq => ?_⟩
  · rw [map_nameAmong_bound]
    exact List.nodup_range.map letterName_injective
  · refine Nat.eq_zero_or_pos w |>.imp_right fun hpos => Nat.le_of_not_lt fun hlt => ?_
    refine h _ (List.getElem_mem hlt) w hw ?_
    rw [nameAmong_getElem hlt]
    exact letterName_eq_rawName_iff.mpr ⟨hpos, rfl⟩
  · obtain ⟨i, hi, rfl⟩ := List.getElem_of_mem hv
    rw [nameAmong_getElem hi] at heq
    obtain ⟨hpos, rfl⟩ := letterName_eq_rawName_iff.mp heq
    obtain rfl | hle := h w hw
    · exact Nat.lt_irrefl 0 hpos
    · exact Nat.not_lt.mpr hle hi

/-- A function type of the variables from `t2` to `t47`, which are bound, and the free `t1`. -/
def crowded : Scheme :=
  ⟨List.range' 2 46, (List.range' 2 46).foldr (fun v t => .arrow (.var v) t) (.var 1)⟩

theorem bound_name_crowded :
    47 ∈ crowded.bound ∧ crowded.Free 1 ∧ nameAmong crowded.bound 47 = Ty.rawName 1 := by
  have hlast : crowded.bound[45]? = some 47 := by decide +kernel
  have hfree : crowded.Free 1 := mem_unbound.mp (by decide +kernel)
  obtain ⟨hlt, hget⟩ := List.getElem?_eq_some_iff.mp hlast
  refine ⟨List.mem_of_getElem? hlast, hfree, ?_⟩
  rw [← hget, nameAmong_getElem hlt]
  exact letterName_eq_rawName_iff.mpr ⟨Nat.one_pos, rfl⟩

end Scheme

end LetML

import Mathlib.Data.List.Nodup

/-!
Lists of records searched by an optional key.
-/

namespace YkUtil.Lib

/-- When no key occurs twice, a key determines its record. -/
theorem eq_of_key_nodup {α κ : Type*} {key : α → Option κ} {records : List α}
    (h : (records.filterMap key).Nodup) {a b : α} {k : κ}
    (ha : a ∈ records) (hb : b ∈ records) (hka : key a = some k) (hkb : key b = some k) :
    a = b := by
  induction records with
  | nil => cases ha
  | cons first rest ih =>
      have hrest : (rest.filterMap key).Nodup := by
        cases hf : key first with
        | none => simpa [hf] using h
        | some k' =>
            rw [List.filterMap_cons_some hf] at h
            exact h.of_cons
      have hnot {c : α} (hc : c ∈ rest) (hkc : key c = some k) : key first ≠ some k := by
        intro hf
        rw [List.filterMap_cons_some hf, List.nodup_cons] at h
        exact h.1 (List.mem_filterMap.mpr ⟨c, hc, hkc⟩)
      rcases List.mem_cons.mp ha with hfirst | hlater
      · rcases List.mem_cons.mp hb with hfirst' | hlater'
        · rw [hfirst, hfirst']
        · exact absurd (hfirst ▸ hka) (hnot hlater' hkb)
      · rcases List.mem_cons.mp hb with hfirst' | hlater'
        · exact absurd (hfirst' ▸ hkb) (hnot hlater hka)
        · exact ih hrest hlater hlater'

end YkUtil.Lib

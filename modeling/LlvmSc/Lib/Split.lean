import Mathlib.Data.List.Basic

/-!
# Splitting at a separator

What `List.splitOn` cuts a list into: the number of the fields, that no field contains the
separator, when the fields of one list begin those of another one, and the fields of lists that are
joined with the separator.
-/

namespace List

variable {α : Type*} [DecidableEq α] {d : α} {s t p : List α} {ls l r : List (List α)}

theorem length_splitOn : (s.splitOn d).length = s.count d + 1 := by
  induction s with
  | nil => rfl
  | cons c s ih =>
    rw [splitOn_cons_eq_if_modifyHead, count_cons]
    split
    · simp [ih]
    · simp [ih]

theorem notMem_of_mem_splitOn (h : p ∈ s.splitOn d) : d ∉ p := by
  induction s generalizing p with
  | nil =>
    rw [splitOn_nil, mem_singleton] at h
    simp [h]
  | cons c s ih =>
    obtain ⟨q, qs, hs⟩ := exists_cons_of_ne_nil (splitOn_ne_nil d s)
    rw [splitOn_cons_eq_if_modifyHead, hs] at h
    rw [hs] at ih
    split at h
    · rcases mem_cons.1 h with rfl | h
      · exact not_mem_nil
      · exact ih h
    · next hc =>
      rw [modifyHead_cons] at h
      rcases mem_cons.1 h with rfl | h
      · have hq := ih mem_cons_self
        rw [beq_iff_eq] at hc
        simp [Ne.symm hc, hq]
      · exact ih (mem_cons_of_mem q h)

theorem splitOn_inj : s.splitOn d = t.splitOn d ↔ s = t := by
  constructor
  · intro h
    have hs : [d].intercalate (s.splitOn d) = s := intercalate_splitOn d
    rw [← hs, h, intercalate_splitOn]
  · rintro rfl
    rfl

omit [DecidableEq α] in
theorem intercalate_append (hl : l ≠ []) (hr : r ≠ []) :
    [d].intercalate (l ++ r) = [d].intercalate l ++ d :: [d].intercalate r := by
  induction l with
  | nil => exact absurd rfl hl
  | cons a l ih =>
    cases l with
    | nil =>
      obtain ⟨b, r, rfl⟩ := exists_cons_of_ne_nil hr
      simp [intercalate_cons_cons]
    | cons a' l =>
      have htail := ih (cons_ne_nil _ _)
      rw [cons_append] at htail
      simp only [cons_append, intercalate_cons_cons, htail, append_assoc]

/-- A list with a separator behind it is where its fields end: no field is cut. -/
theorem splitOn_append_iff : (∃ r, r ≠ [] ∧ s.splitOn d = t.splitOn d ++ r) ↔ t ++ [d] <+: s := by
  constructor
  · intro ⟨r, hr, heq⟩
    refine ⟨[d].intercalate r, ?_⟩
    calc t ++ [d] ++ [d].intercalate r
        = [d].intercalate (t.splitOn d) ++ d :: [d].intercalate r := by
          rw [intercalate_splitOn, append_assoc, singleton_append]
      _ = [d].intercalate (s.splitOn d) := by
          rw [heq, intercalate_append (splitOn_ne_nil d t) hr]
      _ = s := intercalate_splitOn d
  · intro ⟨u, hu⟩
    refine ⟨u.splitOn d, splitOn_ne_nil d u, ?_⟩
    rw [← hu, append_assoc, singleton_append, splitOn_append_cons_self]

/-- Joining with the separator and splitting at it again splits every list. -/
theorem splitOn_intercalate_eq_flatMap (h : ls ≠ []) :
    ([d].intercalate ls).splitOn d = ls.flatMap fun p => p.splitOn d := by
  induction ls with
  | nil => exact absurd rfl h
  | cons p ls ih =>
    cases ls with
    | nil => simp
    | cons q ls =>
      have htail := ih (cons_ne_nil q ls)
      rw [intercalate_cons_cons, append_assoc, singleton_append, splitOn_append_cons_self, htail]
      rfl

theorem flatMap_splitOn_eq_self (h : ∀ p ∈ ls, d ∉ p) : (ls.flatMap fun p => p.splitOn d) = ls := by
  induction ls with
  | nil => rfl
  | cons p ls ih =>
    have hp := h p mem_cons_self
    have hls := ih fun q hq => h q (mem_cons_of_mem p hq)
    rw [flatMap_cons, splitOn_eq_singleton hp, hls, singleton_append]

end List

import Mathlib.Data.List.DropRight

/-!
# Dropping at both ends

`dropWhile` and `rdropWhile` with one predicate commute, and neither of them changes which element
is the first one, or the last one, that does not satisfy it. What both leave is characterized by
`rdropWhile_dropWhile_eq_iff`.
-/

namespace List

variable {α : Type*} {p : α → Bool} {l m : List α}

theorem rdropWhile_cons (a : α) (l : List α) : (a :: l).rdropWhile p =
    if l.rdropWhile p = [] then [a].dropWhile p else a :: l.rdropWhile p := by
  simp only [rdropWhile, reverse_cons, dropWhile_append, isEmpty_iff, reverse_eq_nil_iff]
  split
  · rw [dropWhile_cons]
    split
    · rfl
    · rfl
  · rw [reverse_append]
    rfl

theorem rdropWhile_dropWhile_comm (p : α → Bool) (l : List α) :
    (l.dropWhile p).rdropWhile p = (l.rdropWhile p).dropWhile p := by
  induction l with
  | nil => rfl
  | cons a l ih =>
    rw [rdropWhile_cons]
    cases ha : p a with
    | true =>
      rw [dropWhile_cons_of_pos ha, ih]
      split
      next hnil => simp [hnil, ha]
      next => rw [dropWhile_cons_of_pos ha]
    | false =>
      rw [dropWhile_cons_of_neg (by simp [ha]), rdropWhile_cons]
      split
      next => simp [ha]
      next => rw [dropWhile_cons_of_neg (by simp [ha])]

/-- What is dropped in front does not count for the search from the front. -/
theorem find?_append_of_forall (h : ∀ a ∈ l, p a = true) :
    (l ++ m).find? (fun a => !p a) = m.find? fun a => !p a := by
  have hnone : l.find? (fun a => !p a) = none := by
    rw [find?_eq_none]
    intro a ha
    simp [h a ha]
  rw [find?_append, hnone, Option.none_or]

theorem find?_append_of_forall_right (h : ∀ a ∈ m, p a = true) :
    (l ++ m).find? (fun a => !p a) = l.find? fun a => !p a := by
  have hnone : m.find? (fun a => !p a) = none := by
    rw [find?_eq_none]
    intro a ha
    simp [h a ha]
  rw [find?_append, hnone, Option.or_none]

theorem find?_dropWhile (p : α → Bool) (l : List α) :
    (l.dropWhile p).find? (fun a => !p a) = l.find? fun a => !p a := by
  have htake : ∀ a ∈ l.takeWhile p, p a = true := fun a ha => mem_takeWhile_imp ha
  have hfind := find?_append_of_forall (m := l.dropWhile p) htake
  rwa [takeWhile_append_dropWhile, eq_comm] at hfind

theorem find?_rdropWhile (p : α → Bool) (l : List α) :
    (l.rdropWhile p).find? (fun a => !p a) = l.find? fun a => !p a := by
  have htake : ∀ a ∈ l.rtakeWhile p, p a = true := fun a ha => mem_rtakeWhile_imp ha
  have hfind := find?_append_of_forall_right (l := l.rdropWhile p) htake
  rwa [rdropWhile_append_rtakeWhile, eq_comm] at hfind

theorem drop_length_takeWhile (p : α → Bool) (l : List α) :
    l.drop (l.takeWhile p).length = l.dropWhile p := by
  have happ : (l.takeWhile p ++ l.dropWhile p).drop (l.takeWhile p).length = l.dropWhile p :=
    drop_left
  rwa [takeWhile_append_dropWhile] at happ

theorem take_length_sub_takeWhile_reverse (p : α → Bool) (l : List α) :
    l.take (l.length - (l.reverse.takeWhile p).length) = l.rdropWhile p := by
  have hrev := congrArg reverse (drop_length_takeWhile p l.reverse)
  rwa [drop_reverse, reverse_reverse] at hrev

theorem reverse_rdropWhile (p : α → Bool) (l : List α) :
    (l.rdropWhile p).reverse = l.reverse.dropWhile p := by
  rw [rdropWhile, reverse_reverse]

/-- Dropping at both ends leaves what is between elements that satisfy the predicate, if it neither
starts nor ends with one. -/
theorem rdropWhile_dropWhile_eq_iff : (l.dropWhile p).rdropWhile p = m ↔
    ∃ pre post, l = pre ++ m ++ post ∧ (∀ a ∈ pre ++ post, p a = true) ∧
      m.dropWhile p = m ∧ m.rdropWhile p = m := by
  constructor
  · rintro rfl
    refine ⟨l.takeWhile p, (l.dropWhile p).rtakeWhile p, ?_, fun a ha => ?_, ?_, ?_⟩
    · rw [append_assoc, rdropWhile_append_rtakeWhile, takeWhile_append_dropWhile]
    · rcases mem_append.1 ha with ha | ha
      · exact mem_takeWhile_imp ha
      · exact mem_rtakeWhile_imp ha
    · rw [← rdropWhile_dropWhile_comm, dropWhile_idempotent]
    · exact rdropWhile_idempotent ..
  · rintro ⟨pre, post, rfl, h, hfront, hback⟩
    have hpre (a) (ha : a ∈ pre) : p a = true := h a (mem_append_left _ ha)
    have hpost (a) (ha : a ∈ post.reverse) : p a = true :=
      h a (mem_append_right _ (mem_reverse.1 ha))
    have hdrop : (m ++ post).rdropWhile p = m := by
      rw [rdropWhile, reverse_append, dropWhile_append_of_pos hpost]
      exact hback
    rw [append_assoc, dropWhile_append_of_pos hpre, rdropWhile_dropWhile_comm, hdrop, hfront]

end List

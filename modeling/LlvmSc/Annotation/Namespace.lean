import LlvmSc.Annotation.Text

/-!
# Namespaces

`in_namespace` is the strict prefix order on the parts: the namespaces of an annotation are what
`get_namespace` leaves of it, step by step. `get_namespace` of an annotation without parts has no
answer, since its iterator is moved before the first part.
-/

namespace LlvmSc.Annotation

variable {a b ns : Annotation}

/-- `get_namespace` -/
def getNamespace (a : Annotation) : Option Annotation :=
  if a.parts = [] then none else some (a.ofRange 0 (a.size - 1))

/-- What `k` calls of `get_namespace` lead to. -/
def namespaceAt (a : Annotation) : Nat → Option Annotation
  | 0 => some a
  | k + 1 => (a.namespaceAt k).bind getNamespace

/-- `std::equal(first1, last1, first2)`; without an answer if the second range ends before. -/
def equal : List StringRef → List StringRef → Option Bool
  | [], _ => some true
  | _ :: _, [] => none
  | p :: ps, q :: qs => if p = q then equal ps qs else some false

/-! ## The comparison -/

theorem equal_eq {ps qs : List StringRef} (h : ps.length ≤ qs.length) :
    equal ps qs = some (ps.isPrefixOf qs) := by
  induction ps generalizing qs with
  | nil => rfl
  | cons p ps ih =>
    cases qs with
    | nil => simp at h
    | cons q qs =>
      rw [equal, List.isPrefixOf_cons_cons]
      split
      next hpq => simp [hpq, ih (Nat.le_of_succ_le_succ h)]
      next hpq => simp [hpq]

/-- Behind the test of the sizes, the comparison stays in the parts of the annotation. -/
theorem inNamespace_eq_equal (a ns : Annotation) :
    (if ns.size < a.size then equal ns.parts a.parts else some false) = some (a.inNamespace ns) := by
  rw [inNamespace]
  split
  next hlt => simp [equal_eq (Nat.le_of_lt hlt), hlt]
  next hle => simp [hle]

/-! ## Namespaces as prefixes -/

theorem getNamespace_eq (h : a.parts ≠ []) : a.getNamespace = some ⟨a.parts.take (a.size - 1)⟩ := by
  rw [getNamespace, if_neg h]
  rfl

theorem namespaceAt_eq (h : k ≤ a.size) : a.namespaceAt k = some ⟨a.parts.take (a.size - k)⟩ := by
  induction k with
  | zero =>
    rw [namespaceAt, Nat.sub_zero, size, List.take_length]
  | succ k ih =>
    have hk := ih (Nat.le_of_succ_le h)
    have hlen : (a.parts.take (a.size - k)).length = a.size - k :=
      List.length_take_of_le (Nat.sub_le _ _)
    have hne : a.parts.take (a.size - k) ≠ [] := by
      rw [← List.length_pos_iff, hlen]
      omega
    rw [namespaceAt, hk, Option.bind_some, getNamespace_eq hne, size, hlen, List.take_take,
      Nat.min_eq_left (Nat.sub_le _ _), Nat.sub_sub]

/-- The namespaces of an annotation are what `get_namespace` leaves of it. -/
theorem inNamespace_iff_namespaceAt :
    a.inNamespace ns = true ↔ ∃ k, 1 ≤ k ∧ k ≤ a.size ∧ a.namespaceAt k = some ns := by
  rw [inNamespace_eq_true]
  constructor
  · rintro ⟨r, hr, hparts⟩
    have hpos := List.length_pos_iff.2 hr
    have hsize : a.size = ns.size + r.length := by rw [size, hparts, List.length_append, size]
    refine ⟨r.length, hpos, by omega, ?_⟩
    have hkeep : a.size - r.length = ns.parts.length := by rw [hsize, Nat.add_sub_cancel, size]
    rw [namespaceAt_eq (by omega), hkeep, hparts, List.take_left]
  · rintro ⟨k, hpos, hle, hk⟩
    rw [namespaceAt_eq hle, Option.some.injEq] at hk
    refine ⟨a.parts.drop (a.size - k), ?_, ?_⟩
    · rw [← List.length_pos_iff, List.length_drop]
      have hsize : a.size = a.parts.length := rfl
      omega
    · rw [← hk, List.take_append_drop]

theorem inNamespace_irrefl (a : Annotation) : a.inNamespace a = false := by
  simp [inNamespace]

theorem inNamespace_trans (h : a.inNamespace b = true) (h' : b.inNamespace ns = true) :
    a.inNamespace ns = true := by
  obtain ⟨r, hr, ha⟩ := inNamespace_eq_true.1 h
  obtain ⟨r', _, hb⟩ := inNamespace_eq_true.1 h'
  refine inNamespace_eq_true.2 ⟨r' ++ r, by simp [hr], ?_⟩
  rw [ha, hb, List.append_assoc]

/-- The shorter one of two prefixes is a prefix of the other one. -/
theorem inNamespace_of_prefix (h : b.parts <+: ns.parts) : b = ns ∨ ns.inNamespace b = true := by
  obtain ⟨r, hr⟩ := h
  rcases eq_or_ne r [] with rfl | hne
  · left
    rw [List.append_nil] at hr
    exact congrArg mk hr
  · exact .inr (inNamespace_eq_true.2 ⟨r, hne, hr.symm⟩)

theorem inNamespace_total (hb : a.inNamespace b = true) (hns : a.inNamespace ns = true) :
    b = ns ∨ b.inNamespace ns = true ∨ ns.inNamespace b = true := by
  obtain ⟨r, _, hbr⟩ := inNamespace_eq_true.1 hb
  obtain ⟨r', _, hnsr⟩ := inNamespace_eq_true.1 hns
  rcases List.prefix_or_prefix_of_prefix ⟨r, hbr.symm⟩ ⟨r', hnsr.symm⟩ with h | h
  · rcases inNamespace_of_prefix h with heq | hin
    · exact .inl heq
    · exact .inr (.inr hin)
  · rcases inNamespace_of_prefix h with heq | hin
    · exact .inl heq.symm
    · exact .inr (.inl hin)

/-- The namespaces of an annotation are what `get_namespace` leaves of it, and `in_namespace` is a
strict order in which they are a chain. -/
theorem inNamespace_order :
    (∀ a ns : Annotation, a.inNamespace ns = true ↔
      ∃ k, 1 ≤ k ∧ k ≤ a.size ∧ a.namespaceAt k = some ns) ∧
    (∀ a : Annotation, a.inNamespace a = false) ∧
    (∀ a b c : Annotation, a.inNamespace b = true → b.inNamespace c = true →
      a.inNamespace c = true) ∧
    ∀ a b c : Annotation, a.inNamespace b = true → a.inNamespace c = true →
      b = c ∨ b.inNamespace c = true ∨ c.inNamespace b = true :=
  ⟨fun _ _ => inNamespace_iff_namespaceAt, inNamespace_irrefl, fun _ _ _ => inNamespace_trans,
    fun _ _ _ => inNamespace_total⟩

end LlvmSc.Annotation

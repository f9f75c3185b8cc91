import Mathlib.Order.Lattice
import Mathlib.Order.Defs.Unbundled
import Mathlib.Data.List.Basic

/-!
# First least elements and stable sorting

`List.FirstLeast lt l i x`: the first of the least elements of `l` is `x`, at position `i`. It is
found by a pass over the list that keeps the best element so far (`FirstLeast.append`). A list that
is sorted by a key is determined by its classes of equal keys (`List.eq_of_classes`), so that the
classes one after the other are a stable sort (`List.flatMap_classes`).
-/

theorem IsStrictWeakOrder.cotrans {lt : α → α → Prop} [IsStrictWeakOrder α lt] {a c : α}
    (h : lt a c) (b : α) : lt a b ∨ lt b c := by
  by_contra hcon
  obtain ⟨hab, hbc⟩ := not_or.1 hcon
  have hba : ¬ lt b a := fun hba => hbc (IsTrans.trans b a c hba h)
  have hcb : ¬ lt c b := fun hcb => hab (IsTrans.trans a c b h hcb)
  exact (IsStrictWeakOrder.incomp_trans a b c ⟨hab, hba⟩ ⟨hbc, hcb⟩).1 h

namespace List

/-! ## The first least element -/

structure FirstLeast (lt : α → α → Prop) (l : List α) (i : Nat) (x : α) : Prop where
  value : l[i]? = some x
  least : ∀ y ∈ l, ¬ lt y x
  first : ∀ j < i, ∀ y, l[j]? = some y → lt x y

namespace FirstLeast

variable {lt : α → α → Prop} [IsStrictWeakOrder α lt] {l : List α} {i : Nat} {x y : α}

theorem singleton (x : α) : FirstLeast lt [x] 0 x where
  value := rfl
  least y hy := by
    cases mem_singleton.1 hy
    exact Std.Irrefl.irrefl x
  first j hj := absurd hj (Nat.not_lt_zero j)

omit [IsStrictWeakOrder α lt] in
theorem lt_length (h : FirstLeast lt l i x) : i < l.length := (getElem?_eq_some_iff.1 h.value).1

omit [IsStrictWeakOrder α lt] in
theorem unique (h : FirstLeast lt l i x) (h' : FirstLeast lt l i' x') : i = i' ∧ x = x' := by
  have hle {i i' : Nat} {x x' : α} (h : FirstLeast lt l i x) (h' : FirstLeast lt l i' x') :
      i ≤ i' :=
    Nat.le_of_not_lt fun hlt => h'.least x (mem_of_getElem? h.value) (h.first i' hlt x' h'.value)
  have hi := Nat.le_antisymm (hle h h') (hle h' h)
  subst hi
  exact ⟨rfl, Option.some.inj (h.value.symm.trans h'.value)⟩

/-- One turn of the pass. -/
theorem append [DecidableRel lt] (h : FirstLeast lt l i x) (y : α) :
    if lt y x then FirstLeast lt (l ++ [y]) l.length y else FirstLeast lt (l ++ [y]) i x := by
  split
  next hlt =>
    refine ⟨by simp, fun z hz hzy => ?_, fun j hj z hz => ?_⟩
    · cases mem_append.1 hz with
      | inl hz => exact h.least z hz (IsTrans.trans z y x hzy hlt)
      | inr hz => exact Std.Irrefl.irrefl y (mem_singleton.1 hz ▸ hzy)
    · rw [getElem?_append_left hj] at hz
      exact (IsStrictWeakOrder.cotrans hlt z).resolve_right (h.least z (mem_of_getElem? hz))
  next hlt =>
    refine ⟨?_, fun z hz => ?_, fun j hj z hz => ?_⟩
    · rw [getElem?_append_left h.lt_length]
      exact h.value
    · cases mem_append.1 hz with
      | inl hz => exact h.least z hz
      | inr hz => exact mem_singleton.1 hz ▸ hlt
    · rw [getElem?_append_left (Nat.lt_trans hj h.lt_length)] at hz
      exact h.first j hj z hz

end FirstLeast

/-! ## Stable sorting -/

section
variable {κ : Type} [LinearOrder κ] {key : α → κ} {l l' xs : List α}

theorem mem_iff_of_classes (h : ∀ k, l.filter (key · = k) = l'.filter (key · = k)) (x : α) :
    x ∈ l ↔ x ∈ l' := by
  have hx := congrArg (x ∈ ·) (h (key x))
  simpa using hx

/-- A list that is sorted by a key is determined by its classes. -/
theorem eq_of_classes (key : α → κ) (h : l.Pairwise (key · ≤ key ·))
    (h' : l'.Pairwise (key · ≤ key ·))
    (hclass : ∀ k, l.filter (key · = k) = l'.filter (key · = k)) : l = l' := by
  have hmem := mem_iff_of_classes hclass
  induction l generalizing l' with
  | nil =>
    cases l' with
    | nil => rfl
    | cons y l' => exact absurd ((hmem y).2 mem_cons_self) not_mem_nil
  | cons x l ih =>
    cases l' with
    | nil => exact absurd ((hmem x).1 mem_cons_self) not_mem_nil
    | cons y l' =>
      obtain ⟨hx, h⟩ := pairwise_cons.1 h
      obtain ⟨hy, h'⟩ := pairwise_cons.1 h'
      -- both heads have the least key, and are the first ones that have it
      have hxy : key x ≤ key y := by
        cases mem_cons.1 ((hmem y).2 mem_cons_self) with
        | inl heq => exact heq ▸ le_rfl
        | inr hmem => exact hx y hmem
      have hyx : key y ≤ key x := by
        cases mem_cons.1 ((hmem x).1 mem_cons_self) with
        | inl heq => exact heq ▸ le_rfl
        | inr hmem => exact hy x hmem
      have hkey := le_antisymm hxy hyx
      have hhead := hclass (key x)
      rw [filter_cons_of_pos (by simp), filter_cons_of_pos (by simp [hkey])] at hhead
      have hheads := (cons.inj hhead).1
      have hclass' (k : κ) : l.filter (key · = k) = l'.filter (key · = k) := by
        have hk := hclass k
        by_cases hxk : key x = k
        · rw [filter_cons_of_pos (by simp [hxk]), filter_cons_of_pos (by simp [← hkey, hxk])] at hk
          exact (cons.inj hk).2
        · rwa [filter_cons_of_neg (by simp [hxk]), filter_cons_of_neg (by simp [← hkey, hxk])] at hk
      rw [hheads, ih h h' hclass' (mem_iff_of_classes hclass')]

/-- The order of the keys, as `mergeSort` takes it. -/
abbrev keyLe (key : α → κ) (a b : α) : Bool := decide (key a ≤ key b)

theorem keyLe_trans (a b c : α) (hab : keyLe key a b = true) (hbc : keyLe key b c = true) :
    keyLe key a c = true :=
  decide_eq_true (le_trans (of_decide_eq_true hab) (of_decide_eq_true hbc))

theorem keyLe_total (a b : α) : (keyLe key a b || keyLe key b a) = true := by
  simpa using le_total (key a) (key b)

theorem filter_mergeSort (k : κ) :
    (xs.mergeSort (keyLe key)).filter (key · = k) = xs.filter (key · = k) := by
  have hsorted : (xs.filter (key · = k)).Pairwise fun a b => keyLe key a b = true := by
    refine pairwise_of_forall_mem_list fun a ha b hb => ?_
    have ha := of_decide_eq_true (mem_filter.1 ha).2
    have hb := of_decide_eq_true (mem_filter.1 hb).2
    simp [ha, hb]
  have hsub := (sublist_mergeSort keyLe_trans keyLe_total hsorted filter_sublist).filter (key · = k)
  rw [filter_filter, filter_congr (q := (key · = k)) (by simp)] at hsub
  refine (hsub.eq_of_length ?_).symm
  exact ((mergeSort_perm xs (keyLe key)).filter _).length_eq.symm

/-- Of the classes of different keys, the elements with one key are its class. -/
theorem filter_flatMap_classes {ks : List κ} (hks : ks.Nodup) (k : κ) :
    (ks.flatMap fun j => xs.filter (key · = j)).filter (key · = k) =
      if k ∈ ks then xs.filter (key · = k) else [] := by
  induction ks with
  | nil => rfl
  | cons j ks ih =>
    obtain ⟨hj, hks⟩ := nodup_cons.1 hks
    rw [flatMap_cons, filter_append, ih hks]
    by_cases hjk : j = k
    · subst hjk
      simp [hj, filter_filter]
    · have hnone : (xs.filter (key · = j)).filter (key · = k) = [] := by
        rw [filter_eq_nil_iff]
        intro x hx
        have hxj := of_decide_eq_true (mem_filter.1 hx).2
        simp [hxj, hjk]
      simp [hnone, Ne.symm hjk]

/-- The classes one after the other, by increasing keys, are a stable sort. -/
theorem flatMap_classes {ks : List κ} (hks : ks.Pairwise (· < ·)) (hxs : ∀ x ∈ xs, key x ∈ ks) :
    (ks.flatMap fun k => xs.filter (key · = k)) = xs.mergeSort (keyLe key) := by
  have hkey {k : κ} {x : α} (hx : x ∈ xs.filter (key · = k)) : key x = k :=
    of_decide_eq_true (mem_filter.1 hx).2
  refine eq_of_classes key ?_ ?_ fun k => ?_
  · refine pairwise_flatMap.2 ⟨fun k _ => ?_, hks.imp fun {j k} hjk x hx y hy => ?_⟩
    · exact pairwise_of_forall_mem_list fun x hx y hy => by rw [hkey hx, hkey hy]
    · rw [hkey hx, hkey hy]
      exact hjk.le
  · exact (pairwise_mergeSort keyLe_trans keyLe_total xs).imp fun h => of_decide_eq_true h
  · rw [filter_mergeSort, filter_flatMap_classes (hks.imp fun h => h.ne)]
    split
    next => rfl
    next hk =>
      refine (filter_eq_nil_iff.2 fun x hx => ?_).symm
      have hne : key x ≠ k := fun heq => hk (heq ▸ hxs x hx)
      simp [hne]

end
end List

import Mathlib.Algebra.Group.Basic
import Mathlib.Data.Finset.Dedup
import Mathlib.Data.Finset.Insert
import Mathlib.Order.RelClasses
import LlvmSc.Lib.Order
import LlvmSc.Query.Search

/-!
# Queries over all elements

`size`, `forall`, `fold`, `sum`, `freezeAs` and `unstableUnique` visit every element of a pipeline
(`visits_yield`); `minOr`, `maxOr`, `min` and `max` do so with a second iterator that stays at the
best element so far, and find the first of the least or greatest ones (`extrema_yield`).
-/

namespace List

theorem foldl_insert_empty [DecidableEq α] (xs : List α) :
    xs.foldl (fun set x => insert x set) (∅ : Finset α) = xs.toFinset := by
  have hmem (set : Finset α) (y : α) :
      y ∈ xs.foldl (fun set x => insert x set) set ↔ y ∈ xs ∨ y ∈ set := by
    induction xs generalizing set with
    | nil => simp
    | cons x xs ih => simp [ih, or_assoc, or_left_comm]
  ext y
  simp [hmem]

end List

namespace LlvmSc

/-! ## Loops of the standard library -/

/-- One turn of the loop of `std::distance`. -/
def distanceStep (O : RangeOps ρ α) (last : O.Iterator) :
    O.Iterator × Int → M (O.Iterator × Int ⊕ Int)
  | (first, n) => do
    if ← O.eq first last then pure (.inr n) else do
      pure (.inl (← O.incr first, n + 1))

/-- `std::distance( first, last )` of forward iterators -/
def distance (O : RangeOps ρ α) (first last : O.Iterator) : M Int :=
  Comp.loop (distanceStep O last) (first, 0)

/-- One turn of the loop of `std::min_element`, with the comparison `comp` of the elements at
`first` and at `result`. -/
def extremumStep (O : RangeOps ρ α) (comp : α → α → Bool) (last : O.Iterator) :
    O.Iterator × O.Iterator → M (O.Iterator × O.Iterator ⊕ O.Iterator)
  | (first, result) => do
    let first ← O.incr first
    if ← O.eq first last then pure (.inr result) else do
      let (first, x) ← O.deref first
      let (result, y) ← O.deref result
      pure (.inl (first, if comp x.val y.val then first else result))

def extremum (O : RangeOps ρ α) (comp : α → α → Bool) (first last : O.Iterator) : M O.Iterator := do
  if ← O.eq first last then pure first else Comp.loop (extremumStep O comp last) (first, first)

section
variable (O : RangeOps ρ α) (lt : α → α → Prop) [DecidableRel lt]

/-- `std::min_element( first, last )`: `*first < *result` -/
def minElement : O.Iterator → O.Iterator → M O.Iterator := extremum O fun x y => decide (lt x y)

/-- `std::max_element( first, last )`: `*result < *first` -/
def maxElement : O.Iterator → O.Iterator → M O.Iterator := extremum O fun x y => decide (lt y x)

end

namespace Query

section
variable (R : RangeOps ρ α) (this : Ref (Query ρ))

def size : M Int := do
  let first ← (ops R).begin this
  let last ← (ops R).end_ this
  distance (ops R) first last

/-- `fn` may change what it has captured, but not the elements. -/
def forall_ (fn : σ → α → σ) (s : σ) : M σ := do
  let first ← R.begin (this.field 0 range)
  let last ← R.end_ (this.field 0 range)
  forLoop R fn first last s

/-- `std::accumulate( begin(), end(), init, op )` -/
def fold (init : σ) (op : σ → α → σ) : M σ := do
  let first ← (ops R).begin this
  let last ← (ops R).end_ this
  forLoop (ops R) op first last init

def sum [Zero α] [Add α] : M α := fold R this 0 (· + ·)

/-- `freezeAs< std::vector >()`: the constructor counts the elements before it copies them. -/
def freezeAs : M (List α) := do
  let first ← R.begin (this.field 0 range)
  let last ← R.end_ (this.field 0 range)
  let _ ← distance R first last
  copy R first last []

/-- The `std::unordered_set` of the elements, whose order is not specified -/
def unstableUnique [DecidableEq α] : M (Query (Finset α)) := do
  let first ← (ops R).begin this
  let last ← (ops R).end_ this
  pure ⟨← forLoop (ops R) (fun set x => insert x set) first last ∅⟩

/-- `minOr` and `maxOr`, by the function that finds the element -/
def bestOr (find : (ops R).Iterator → (ops R).Iterator → M (ops R).Iterator) (x : α) : M α := do
  let first ← (ops R).begin this
  let last ← (ops R).end_ this
  let it ← find first last
  if ← (ops R).eq it (← (ops R).end_ this) then pure x else do
    let (_, y) ← (ops R).deref it
    pure y.val

/-- `min` and `max` -/
def best (find : (ops R).Iterator → (ops R).Iterator → M (ops R).Iterator) : M α := do
  let first ← (ops R).begin this
  let last ← (ops R).end_ this
  let it ← find first last
  let (_, y) ← (ops R).deref it
  pure y.val

variable (lt : α → α → Prop) [DecidableRel lt]

def minOr (x : α) : M α := bestOr R this (minElement (ops R) lt) x

def maxOr (x : α) : M α := bestOr R this (maxElement (ops R) lt) x

def min : M α := best R this (minElement (ops R) lt)

def max : M α := best R this (maxElement (ops R) lt)

end

end Query

namespace RangeSpec.Sound

variable {O : RangeOps ρ α} {S : RangeSpec O} {this : Ref ρ} {first last : O.Iterator} {w : World}

theorem distance_ens (h : S.Sound) (hav : Old avoid w.next)
    (hat : S.At this ⟨avoid, w.next⟩ 0 first)
    (hlast : ∀ s, S.At this s (S.elems this.val).length last) :
    (distance O first last).Ensures
      (fun n w' => w.next ≤ w'.next ∧ n = (S.elems this.val).length) w := by
  refine Comp.wp_loop (fun k t w' => ∃ m : Nat, k = (S.elems this.val).length - m ∧
    w.next ≤ w'.next ∧ S.At this ⟨avoid, w'.next⟩ m t.1 ∧ t.2 = (m : Int)) ?_
    ⟨0, rfl, Nat.le_refl _, hat, rfl⟩
  rintro k ⟨it, n⟩ w₁ ⟨m, rfl, hw₁, hat, rfl⟩
  refine (h.eq_end hat hlast).bind fun b w₂ ⟨hw₂, hb⟩ => ?_
  subst hw₂ hb
  refine Comp.wp_ite (fun hm => ?_) fun hm => ?_
  · exact Comp.wp_pure ⟨hw₁, congrArg Nat.cast hm⟩
  · have hlt : m < (S.elems this.val).length := Nat.lt_of_le_of_ne (h.at_le hat) hm
    refine (h.incr_ens (hav.mono hw₁) hat hlt).bind fun it w₃ ⟨hw₃, hit⟩ => ?_
    refine Comp.wp_pure ⟨_, ?_, m + 1, rfl, hw₁.trans hw₃, hit, rfl⟩
    omega

section
variable (lt : α → α → Prop) [DecidableRel lt] [IsStrictWeakOrder α lt]

/-- A turn of the loop with `first` at position `m` and `result` at the first least of the elements
up to there. -/
theorem extremumStep_ens (h : S.Sound) {result : O.Iterator} (hav : Old avoid w.next)
    (hat : S.At this ⟨avoid, w.next⟩ m first) (hresult : S.At this ⟨avoid, w.next⟩ i result)
    (hlast : ∀ s, S.At this s (S.elems this.val).length last) (hm : m < (S.elems this.val).length)
    (hleast : ((S.elems this.val).take (m + 1)).FirstLeast lt i x) :
    (extremumStep O (fun x y => decide (lt x y)) last (first, result)).Ensures
      (fun r w' => w.next ≤ w'.next ∧
        Sum.elim (fun t => m + 1 < (S.elems this.val).length ∧
            S.At this ⟨avoid, w'.next⟩ (m + 1) t.1 ∧ ∃ j y, S.At this ⟨avoid, w'.next⟩ j t.2 ∧
              ((S.elems this.val).take (m + 1 + 1)).FirstLeast lt j y)
          (fun it => S.At this ⟨avoid, w'.next⟩ i it ∧
            (S.elems this.val).FirstLeast lt i x) r) w := by
  refine (h.incr_ens hav hat hm).bind fun first w₁ ⟨hw₁, hat⟩ => ?_
  have hresult := h.at_mono (.of_le hw₁) hresult
  refine (h.eq_end hat hlast).bind fun b w₂ ⟨hw₂, hb⟩ => ?_
  subst hw₂ hb
  refine Comp.wp_ite (fun hend => ?_) fun hend => ?_
  · rw [hend, List.take_length] at hleast
    exact Comp.wp_pure ⟨hw₁, hresult, hleast⟩
  · have hlt : m + 1 < (S.elems this.val).length := Nat.lt_of_le_of_ne hm hend
    have hi : i < (S.elems this.val).length := by
      have hi := hleast.lt_length
      rw [List.length_take] at hi
      omega
    refine (h.deref_ens (hav.mono hw₁) hat hlt).bind fun r w₃ ⟨hw₃, hr⟩ => ?_
    have hresult := h.at_mono (.of_le hw₃) hresult
    refine (h.deref_ens (hav.mono (hw₁.trans hw₃)) hresult hi).bind fun r' w₄ ⟨hw₄, hr'⟩ => ?_
    have hr := h.denotes_mono (.of_le hw₄) hr
    -- the elements that are compared
    have hx : r'.2.val = x := by
      have hval := hleast.value
      rw [List.getElem?_take_of_lt (by have := hleast.lt_length; simp at this; omega),
        h.denotes_val hr'] at hval
      exact Option.some.inj hval
    have happend := hleast.append r.2.val
    have htake : (S.elems this.val).take (m + 1) ++ [r.2.val] =
        (S.elems this.val).take (m + 1 + 1) := by
      rw [List.take_add_one (i := m + 1), h.denotes_val hr]
      rfl
    rw [htake, ← hx, List.length_take, Nat.min_eq_left hm] at happend
    refine Comp.wp_pure ⟨hw₁.trans (hw₃.trans hw₄), hlt, h.denotes_at hr, ?_⟩
    by_cases hcomp : lt r.2.val r'.2.val
    · rw [if_pos hcomp] at happend
      simp only [hcomp, decide_true, if_true]
      exact ⟨_, _, h.denotes_at hr, happend⟩
    · rw [if_neg hcomp] at happend
      simp only [hcomp, decide_false, Bool.false_eq_true, if_false]
      exact ⟨_, _, h.denotes_at hr', happend⟩

/-- The iterator that is returned is at the first least element, or at the end. -/
theorem extremum_ens (h : S.Sound) (hav : Old avoid w.next)
    (hat : S.At this ⟨avoid, w.next⟩ 0 first)
    (hlast : ∀ s, S.At this s (S.elems this.val).length last) :
    (extremum O (fun x y => decide (lt x y)) first last).Ensures (fun it w' => w.next ≤ w'.next ∧
      (S.elems this.val = [] → S.At this ⟨avoid, w'.next⟩ 0 it) ∧
      (S.elems this.val ≠ [] → ∃ i x, (S.elems this.val).FirstLeast lt i x ∧
        S.At this ⟨avoid, w'.next⟩ i it)) w := by
  refine (h.eq_end hat hlast).bind fun b w₁ ⟨hw₁, hb⟩ => ?_
  subst hw₁ hb
  refine Comp.wp_ite (fun hnil => ?_) fun hnil => ?_
  · have hnil := List.length_eq_zero_iff.1 hnil.symm
    exact Comp.wp_pure ⟨Nat.le_refl _, fun _ => hat, fun hne => absurd hnil hne⟩
  · have hlen : 0 < (S.elems this.val).length := Nat.pos_of_ne_zero (Ne.symm hnil)
    have hne : S.elems this.val ≠ [] := List.length_pos_iff.1 hlen
    have hfirst : ((S.elems this.val).take (0 + 1)).FirstLeast lt 0 (S.elems this.val)[0] := by
      rw [List.take_add_one, List.getElem?_eq_getElem hlen]
      exact .singleton _
    refine Comp.wp_loop (fun k t w' => ∃ m i x, k = (S.elems this.val).length - m ∧
      w₁.next ≤ w'.next ∧ m < (S.elems this.val).length ∧ S.At this ⟨avoid, w'.next⟩ m t.1 ∧
      S.At this ⟨avoid, w'.next⟩ i t.2 ∧
      ((S.elems this.val).take (m + 1)).FirstLeast lt i x) ?_
      ⟨0, 0, _, rfl, Nat.le_refl _, hlen, hat, hat, hfirst⟩
    rintro k ⟨first, result⟩ w₂ ⟨m, i, x, rfl, hw₂, hm, hat, hresult, hleast⟩
    refine (h.extremumStep_ens lt (hav.mono hw₂) hat hresult hlast hm hleast).wp
      fun r w₃ ⟨hw₃, hr⟩ => ?_
    cases r with
    | inl t =>
      obtain ⟨hm', hat', j, y, hj, hleast'⟩ := hr
      refine ⟨_, ?_, m + 1, j, y, rfl, hw₂.trans hw₃, hm', hat', hj, hleast'⟩
      omega
    | inr it =>
      exact ⟨hw₂.trans hw₃, fun hnil => absurd hnil hne, fun _ => ⟨i, x, hr.2, hr.1⟩⟩

end

end RangeSpec.Sound

namespace Query

variable (R : RangeType ρ α) (this : Ref (Query ρ)) (w : World)

/-- A loop over the elements that updates `s`. -/
theorem forLoop_yields (fn : σ → α → σ) (s : σ) :
    ∃ w', (forall_ R.ops this fn s).Yields w (.done ((this.val.elems R).foldl fn s) w') := by
  have h := R.spec_sound
  have hens : (forall_ R.ops this fn s).Ensures
      (fun out _ => out = (this.val.elems R).foldl fn s) w := by
    refine h.traverse_ens fun first last w' hat hlast => ?_
    refine (h.forLoop_ens (RangeSpec.Sound.old_false _) hat hlast).wp fun out _ hout => ?_
    rw [hout, RangeType.spec_elems]
    rfl
  obtain ⟨_, w', hyields, rfl⟩ := hens.yields
  exact ⟨w', hyields⟩

theorem size_ens : (size R.ops this).Ensures (fun n _ => n = (this.val.elems R).length) w := by
  have h := R.spec_sound
  refine h.traverse_ens fun first last w' hat hlast => ?_
  refine (h.distance_ens (RangeSpec.Sound.old_false _) hat hlast).wp fun n _ ⟨_, hn⟩ => ?_
  rw [hn, RangeType.spec_elems]
  rfl

theorem freezeAs_ens : (freezeAs R.ops this).Ensures (fun out _ => out = this.val.elems R) w := by
  have h := R.spec_sound
  refine h.traverse_ens fun first last w' hat hlast => ?_
  refine (h.distance_ens (RangeSpec.Sound.old_false _) hat hlast).bind fun n w'' ⟨hw, _⟩ => ?_
  -- the second pass starts at the same iterator
  have hat := h.at_mono (.of_le hw) hat
  refine (h.copy_ens (RangeSpec.Sound.old_false _) hat hlast).wp fun out _ hout => ?_
  rw [hout, RangeType.spec_elems]
  rfl

theorem unstableUnique_ens [DecidableEq α] : (unstableUnique R.ops this).Ensures
    (fun q _ => q = ⟨(this.val.elems R).toFinset⟩) w := by
  have h := R.query.spec_sound
  refine h.traverse_ens fun first last w' hat hlast => ?_
  refine (h.forLoop_ens (RangeSpec.Sound.old_false _) hat hlast).bind fun set _ hset => ?_
  rw [RangeType.spec_elems] at hset
  exact Comp.wp_pure (congrArg Query.mk (hset.trans (List.foldl_insert_empty _)))

/-- The elements are counted, visited and put into containers once each and in order. -/
theorem visits_yield :
    (∃ w', (size R.ops this).Yields w (.done (this.val.elems R).length w')) ∧
    (∀ (σ : Type) (fn : σ → α → σ) (s : σ),
      (∃ w', (forall_ R.ops this fn s).Yields w (.done ((this.val.elems R).foldl fn s) w')) ∧
      ∃ w', (fold R.ops this s fn).Yields w (.done ((this.val.elems R).foldl fn s) w')) ∧
    (∀ [AddMonoid α], ∃ w', (sum R.ops this).Yields w (.done (this.val.elems R).sum w')) ∧
    (∃ w', (freezeAs R.ops this).Yields w (.done (this.val.elems R) w')) ∧
    ∀ [DecidableEq α], ∃ w', (unstableUnique R.ops this).Yields w
      (.done ⟨(this.val.elems R).toFinset⟩ w') := by
  obtain ⟨_, w₁, hsize, rfl⟩ := (size_ens R this w).yields
  obtain ⟨_, w₂, hfreezeAs, rfl⟩ := (freezeAs_ens R this w).yields
  refine ⟨⟨w₁, hsize⟩, fun σ fn s => ?_, ?_, ⟨w₂, hfreezeAs⟩, ?_⟩
  · exact ⟨forLoop_yields R this w fn s, forLoop_yields R this w fn s⟩
  · intro _
    rw [List.sum_eq_foldl]
    exact forLoop_yields R this w (· + ·) 0
  · intro _
    obtain ⟨_, w₃, hunique, rfl⟩ := (unstableUnique_ens R this w).yields
    exact ⟨w₃, hunique⟩

section
variable (lt : α → α → Prop) [DecidableRel lt] [IsStrictWeakOrder α lt]

/-- `minOr`, if `lt` is `<`, and `maxOr`, if it is `>` -/
theorem bestOr_ens (x : α) :
    (bestOr R.ops this (extremum R.query.ops fun x y => decide (lt x y)) x).Ensures (fun v _ =>
      (this.val.elems R = [] → v = x) ∧
      (this.val.elems R ≠ [] → ∃ i, (this.val.elems R).FirstLeast lt i v)) w := by
  have h := R.query.spec_sound
  refine h.traverse_ens fun first last w₁ hat hlast => ?_
  refine (h.extremum_ens lt (RangeSpec.Sound.old_false _) hat hlast).bind
    fun it w₂ ⟨_, hnil, hleast⟩ => ?_
  by_cases hel : R.query.spec.elems this.val = []
  · refine h.end_ens.bind fun e w₃ ⟨hw₃, he⟩ => ?_
    refine (h.eq_end (hnil hel) he).bind fun b w₄ ⟨_, hb⟩ => ?_
    rw [hel] at hb
    subst hb
    rw [RangeType.spec_elems] at hel
    exact Comp.wp_pure ⟨fun _ => rfl, fun hne => absurd hel hne⟩
  · obtain ⟨i, y, hy, hat⟩ := hleast hel
    have hi := hy.lt_length
    refine h.end_ens.bind fun e w₃ ⟨hw₃, he⟩ => ?_
    refine (h.eq_end hat he).bind fun b w₄ ⟨hw₄, hb⟩ => ?_
    rw [decide_eq_false (Nat.ne_of_lt hi)] at hb
    subst hw₃ hw₄ hb
    refine (h.deref_ens (RangeSpec.Sound.old_false _) hat hi).bind fun r w₄ ⟨_, hr⟩ => ?_
    have hval := hy.value.symm.trans (h.denotes_val hr)
    rw [RangeType.spec_elems] at hel hy
    refine Comp.wp_pure ⟨fun hnil => absurd hnil hel, fun _ => ⟨i, ?_⟩⟩
    exact Option.some.inj hval ▸ hy

/-- `min`, if `lt` is `<`, and `max`, if it is `>` -/
theorem best_wp :
    (best R.ops this (extremum R.query.ops fun x y => decide (lt x y))).wp (fun v _ =>
      ∃ i, (this.val.elems R).FirstLeast lt i v) (fun _ => this.val.elems R = []) w := by
  have h := R.query.spec_sound
  refine Comp.wp_bind ((h.begin_ens (RangeSpec.Sound.old_false _)).wp fun first w₁ ⟨_, hat⟩ => ?_)
  refine h.end_ens.bind fun last w₂ ⟨hw₂, hlast⟩ => ?_
  subst hw₂
  refine (h.extremum_ens lt (RangeSpec.Sound.old_false _) hat hlast).bind
    fun it w₂ ⟨_, hnil, hleast⟩ => ?_
  by_cases hel : R.query.spec.elems this.val = []
  · have hend : R.query.spec.At this ⟨fun _ => False, w₂.next⟩
        (R.query.spec.elems this.val).length it := by
      rw [hel]
      exact hnil hel
    rw [RangeType.spec_elems] at hel
    exact Comp.wp_bind ((h.deref_end hend).imp' (fun _ _ hF => hF.elim) fun _ _ => hel)
  · obtain ⟨i, y, hy, hat⟩ := hleast hel
    refine (h.deref_ens (RangeSpec.Sound.old_false _) hat hy.lt_length).bind fun r w₃ ⟨_, hr⟩ => ?_
    have hval := hy.value.symm.trans (h.denotes_val hr)
    rw [RangeType.spec_elems] at hy
    exact Comp.wp_pure ⟨i, Option.some.inj hval ▸ hy⟩

theorem bestOr_yields (x : α) : ∃ v w',
    (bestOr R.ops this (extremum R.query.ops fun x y => decide (lt x y)) x).Yields w (.done v w') ∧
    (this.val.elems R = [] → v = x) ∧
    (this.val.elems R ≠ [] → ∃ i, (this.val.elems R).FirstLeast lt i v) :=
  (bestOr_ens R this w lt x).yields

/-- On an empty pipeline, `min` and `max` dereference the end. -/
theorem best_yields :
    (this.val.elems R = [] → ∃ e,
      (best R.ops this (extremum R.query.ops fun x y => decide (lt x y))).Yields w (.fault e)) ∧
    (this.val.elems R ≠ [] → ∃ v w',
      (best R.ops this (extremum R.query.ops fun x y => decide (lt x y))).Yields w (.done v w') ∧
      ∃ i, (this.val.elems R).FirstLeast lt i v) := by
  rcases best_wp R this w lt with ⟨v, w', hyields, i, hv⟩ | ⟨e, hyields, hnil⟩
  · refine ⟨fun hnil => ?_, fun _ => ⟨v, w', hyields, i, hv⟩⟩
    exact absurd hv.value (by simp [hnil])
  · exact ⟨fun _ => ⟨e, hyields⟩, fun hne => absurd hnil hne⟩

end

/-- `minOr` and `maxOr` return the first of the least and of the greatest elements of a pipeline, or
their argument if it is empty; `min` and `max` return the same, but are undefined if it is. -/
theorem extrema_yield (R : RangeType ρ α) (this : Ref (Query ρ)) (w : World) (lt : α → α → Prop)
    [DecidableRel lt] [IsStrictWeakOrder α lt] (x : α) :
    (this.val.elems R = [] →
      (∃ w', (minOr R.ops this lt x).Yields w (.done x w')) ∧
      (∃ w', (maxOr R.ops this lt x).Yields w (.done x w')) ∧
      (∃ e, (min R.ops this lt).Yields w (.fault e)) ∧
      ∃ e, (max R.ops this lt).Yields w (.fault e)) ∧
    (this.val.elems R ≠ [] → ∃ i a j b,
      (this.val.elems R).FirstLeast lt i a ∧ (this.val.elems R).FirstLeast (Function.swap lt) j b ∧
      (∃ w', (minOr R.ops this lt x).Yields w (.done a w')) ∧
      (∃ w', (maxOr R.ops this lt x).Yields w (.done b w')) ∧
      (∃ w', (min R.ops this lt).Yields w (.done a w')) ∧
      ∃ w', (max R.ops this lt).Yields w (.done b w')) := by
  obtain ⟨a, w₁, hminOr, hnil, hmin⟩ := bestOr_yields R this w lt x
  obtain ⟨b, w₂, hmaxOr, hnil', hmax⟩ := bestOr_yields R this w (Function.swap lt) x
  obtain ⟨hfault, hbest⟩ := best_yields R this w lt
  obtain ⟨hfault', hbest'⟩ := best_yields R this w (Function.swap lt)
  constructor
  · intro hel
    cases hnil hel
    cases hnil' hel
    exact ⟨⟨w₁, hminOr⟩, ⟨w₂, hmaxOr⟩, hfault hel, hfault' hel⟩
  · intro hel
    obtain ⟨i, ha⟩ := hmin hel
    obtain ⟨j, hb⟩ := hmax hel
    obtain ⟨a', w₃, hmin, i', ha'⟩ := hbest hel
    obtain ⟨b', w₄, hmax, j', hb'⟩ := hbest' hel
    cases (ha.unique ha').2
    cases (hb.unique hb').2
    exact ⟨i, a, j, b, ha, hb, ⟨w₁, hminOr⟩, ⟨w₂, hmaxOr⟩, ⟨w₃, hmin⟩, ⟨w₄, hmax⟩⟩

/-- The first of the two ones of `{ 3, 1, 2, 1 }`. -/
theorem extrema_yield_vector : ∃ i a j b, [3, 1, 2, 1].FirstLeast (· < ·) i a ∧
    [3, 1, 2, 1].FirstLeast (Function.swap (· < ·)) j b ∧
    ∃ w', (min (vectorOps Nat) ⟨⟨0, []⟩, ⟨[3, 1, 2, 1]⟩⟩ (· < ·)).Yields ⟨1, []⟩ (.done a w') := by
  have hweak : IsStrictWeakOrder Nat (· < ·) := isStrictWeakOrder_of_isOrderConnected
  obtain ⟨i, a, j, b, ha, hb, -, -, hmin, -⟩ :=
    (extrema_yield (.vector Nat) ⟨⟨0, []⟩, ⟨[3, 1, 2, 1]⟩⟩ ⟨1, []⟩ (· < ·) 0).2 (by decide)
  exact ⟨i, a, j, b, ha, hb, hmin⟩

end Query
end LlvmSc

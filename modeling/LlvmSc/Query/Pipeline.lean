import LlvmSc.Query.Map
import LlvmSc.Query.Flatten
import LlvmSc.Query.Append

/-!
# Traversal of pipelines

Every range type has a sound `RangeSpec` whose elements are those of the reference semantics, by
induction on the range type. `Query.freeze` then yields them in order.
-/

namespace LlvmSc
namespace RangeType

def spec : (R : RangeType ρ α) → RangeSpec R.ops
  | vector _ => containerSpec Ref.addr id id
  | range α => containerSpec (fun this : Ref (Range α) => this.val.container) Range.elems fun _ => true
  | map R β => Map.spec R.spec β
  | filter R => Filter.spec R.spec
  | flatten R S => Flatten.spec R.spec S.spec
  | append R₁ R₂ => Append.spec R₁.spec R₂.spec
  | query R => Query.spec R.spec

theorem spec_sound (R : RangeType ρ α) : R.spec.Sound := by
  induction R with
  | vector =>
    apply containerSpec_sound
    · intro this this' _
      rfl
    · rfl
  | range =>
    apply containerSpec_sound
    · intro this this' hval
      simp [hval]
    · rfl
  | map R β ih => exact Map.spec_sound ih β
  | filter R ih => exact Filter.spec_sound ih
  | flatten R S ihR ihS => exact Flatten.spec_sound ihR ihS
  | append R₁ R₂ ih₁ ih₂ => exact Append.spec_sound ih₁ ih₂
  | query R ih => exact Query.spec_sound ih

@[simp] theorem spec_elems (R : RangeType ρ α) : R.spec.elems = R.elems := by
  induction R with
  | vector => rfl
  | range => rfl
  | map R β ih =>
    funext r
    change (R.spec.elems r.range).map r.fn = _
    rw [ih, elems]
  | filter R ih =>
    funext r
    change (R.spec.elems r.range).filter r.pred = _
    rw [ih, elems]
  | flatten R S ihR ihS =>
    funext r
    change (R.spec.elems r.range).flatMap S.spec.elems = _
    rw [ihR, ihS, elems]
  | append R₁ R₂ ih₁ ih₂ =>
    funext r
    change R₁.spec.elems r.range1 ++ R₂.spec.elems r.range2 = _
    rw [ih₁, ih₂, elems]
  | query R ih =>
    funext r
    change R.spec.elems r.range = _
    rw [ih, elems]

end RangeType

/-! ## Loops over a range -/

/-- One turn of a loop that ends at `last`. -/
def forStep (O : RangeOps ρ α) (body : β → α → β) (last : O.Iterator) :
    O.Iterator × β → M (O.Iterator × β ⊕ β)
  | (it, acc) => do
    if ← O.eq it last then pure (.inr acc) else do
      let (it, x) ← O.deref it
      pure (.inl (← O.incr it, body acc x.val))

/-- The loop of a body that updates `acc`. -/
def forLoop (O : RangeOps ρ α) (body : β → α → β) (it last : O.Iterator) (acc : β) : M β :=
  Comp.loop (forStep O body last) (it, acc)

/-- One turn of the loop of `std::copy` to a `std::back_inserter`. -/
def copyStep (O : RangeOps ρ α) (last : O.Iterator) :
    O.Iterator × List α → M (O.Iterator × List α ⊕ List α)
  | (first, vec) => do
    if ← O.eq first last then pure (.inr vec) else do
      let (first, x) ← O.deref first
      pure (.inl (← O.incr first, vec ++ [x.val]))

/-- `std::copy( first, last, std::back_inserter( vec ) )` -/
def copy (O : RangeOps ρ α) (first last : O.Iterator) (vec : List α) : M (List α) :=
  Comp.loop (copyStep O last) (first, vec)

theorem copy_eq_forLoop (O : RangeOps ρ α) (first last : O.Iterator) (vec : List α) :
    copy O first last vec = forLoop O (fun vec x => vec ++ [x]) first last vec := by
  have hstep : copyStep O last = forStep O (fun vec x => vec ++ [x]) last := by
    funext ⟨it, vec⟩
    rfl
  rw [copy, hstep, forLoop]

namespace RangeSpec.Sound

variable {O : RangeOps ρ α} {S : RangeSpec O} {body : β → α → β}

/-- A turn of the loop at position `n` runs its body on the `n`-th element, or stops at the end. -/
theorem forStep_ens (h : S.Sound) {this : Ref ρ} {it last : O.Iterator} {acc : β} {w : World}
    (hav : Old avoid w.next) (hat : S.At this ⟨avoid, w.next⟩ n it)
    (hlast : ∀ s, S.At this s (S.elems this.val).length last) :
    (forStep O body last (it, acc)).Ensures (fun r w' => w.next ≤ w'.next ∧
      Sum.elim (fun t => S.At this ⟨avoid, w'.next⟩ (n + 1) t.1 ∧
          ∃ x, (S.elems this.val)[n]? = some x ∧ t.2 = body acc x)
        (fun out => n = (S.elems this.val).length ∧ out = acc) r) w := by
  refine (h.eq_end hat hlast).bind fun b w₁ ⟨hw₁, hb⟩ => ?_
  subst hw₁ hb
  refine Comp.wp_ite (fun hn => ?_) fun hn => ?_
  · exact Comp.wp_pure ⟨Nat.le_refl _, hn, rfl⟩
  · have hlt : n < (S.elems this.val).length := Nat.lt_of_le_of_ne (h.at_le hat) hn
    refine (h.deref_ens hav hat hlt).bind fun r w₂ ⟨hw₂, hr⟩ => ?_
    have hat' := h.denotes_at hr
    refine (h.incr_ens (hav.mono hw₂) hat' hlt).bind fun it w₃ ⟨hw₃, hit⟩ => ?_
    exact Comp.wp_pure ⟨hw₂.trans hw₃, hit, _, h.denotes_val hr, rfl⟩

/-- From position `n`, the loop runs its body on the elements from the `n`-th on, in order. -/
theorem forLoop_ens (h : S.Sound) {this : Ref ρ} {it last : O.Iterator} {acc : β} {w : World}
    (hav : Old avoid w.next) (hat : S.At this ⟨avoid, w.next⟩ n it)
    (hlast : ∀ s, S.At this s (S.elems this.val).length last) :
    (forLoop O body it last acc).Ensures
      (fun out _ => out = ((S.elems this.val).drop n).foldl body acc) w := by
  -- the invariant: what is left to do gives the result; `k` elements are left
  refine Comp.wp_loop (fun k t w' => ∃ m, k = (S.elems this.val).length - m ∧
    w.next ≤ w'.next ∧ S.At this ⟨avoid, w'.next⟩ m t.1 ∧
    ((S.elems this.val).drop m).foldl body t.2 = ((S.elems this.val).drop n).foldl body acc) ?_
    ⟨n, rfl, Nat.le_refl _, hat, rfl⟩
  intro k t w₁ hI
  rcases t with ⟨it, acc'⟩
  rcases hI with ⟨m, rfl, hw₁, hat, hacc⟩
  refine (h.forStep_ens (hav.mono hw₁) hat hlast).wp fun r w₂ ⟨hw₂, hr⟩ => ?_
  cases r with
  | inl t =>
    obtain ⟨hat', x, hx, ht⟩ := hr
    have hlt : m < (S.elems this.val).length := (List.getElem?_eq_some_iff.1 hx).1
    refine ⟨_, ?_, m + 1, rfl, hw₁.trans hw₂, hat', ?_⟩
    · omega
    · have hdrop := List.drop_eq_getElem?_toList_append (l := S.elems this.val) (i := m)
      rw [← hacc, ht, hdrop, hx]
      rfl
  | inr out =>
    obtain ⟨hm, rfl⟩ := hr
    rw [hm, List.drop_length] at hacc
    exact hacc

/-- From position `n`, the loop of `copy` appends the elements from the `n`-th on. -/
theorem copy_ens (h : S.Sound) {this : Ref ρ} {first last : O.Iterator} {vec : List α} {w : World}
    (hav : Old avoid w.next) (hat : S.At this ⟨avoid, w.next⟩ n first)
    (hlast : ∀ s, S.At this s (S.elems this.val).length last) :
    (copy O first last vec).Ensures (fun out _ => out = vec ++ (S.elems this.val).drop n) w := by
  rw [copy_eq_forLoop]
  refine (h.forLoop_ens hav hat hlast).wp fun out _ hout => ?_
  rw [hout, List.foldl_append_eq_append, ← List.flatMap_def, List.flatMap_singleton']

end RangeSpec.Sound

namespace Query

def freeze (R : RangeOps ρ α) (this : Ref (Query ρ)) : M (List α) := do
  let first ← (ops R).begin this
  let last ← (ops R).end_ this
  copy (ops R) first last []

section
variable (R : RangeType ρ α) (q : Query ρ)

/-- The list that a query stands for. -/
abbrev elems : List α := R.query.elems q

@[simp] theorem elems_map (fn : α → β) : (q.map fn).elems (R.map β) = (q.elems R).map fn := rfl

@[simp] theorem elems_filter (pred : α → Bool) :
    (q.filter pred).elems R.filter = (q.elems R).filter pred := rfl

@[simp] theorem elems_flatten (S : RangeType α β) :
    q.flatten.elems (R.flatten S) = (q.elems R).flatMap S.elems := rfl

@[simp] theorem elems_append (R₂ : RangeType ρ₂ α) (r : ρ₂) :
    (q.append r).elems (R.append R₂) = q.elems R ++ R₂.elems r := rfl

@[simp] theorem elems_concatMap (fn : α → κ) (S : RangeType κ β) :
    (q.concatMap fn).elems ((R.map κ).flatten S) =
      (q.elems R).flatMap fun x => S.elems (fn x) := by
  simp [concatMap, List.flatMap_map]

end

theorem freeze_ens (R : RangeType ρ α) (this : Ref (Query ρ)) (w : World) :
    (freeze R.ops this).Ensures (fun out _ => out = this.val.elems R) w := by
  have h := R.query.spec_sound
  have hav : Old (fun _ => False) w.next := fun _ h => h.elim
  refine (h.begin_ens hav).bind fun first w₁ ⟨hw₁, hat⟩ => ?_
  refine h.end_ens.bind fun last w₂ ⟨hw₂, hlast⟩ => ?_
  subst hw₂
  refine (h.copy_ens (hav.mono hw₁) hat hlast).wp fun out _ hout => ?_
  rw [hout, RangeType.spec_elems]
  rfl

/-- `freeze` stops without a fault and returns the list of the reference semantics, for every
pipeline. -/
theorem freeze_yields (R : RangeType ρ α) (this : Ref (Query ρ)) (w : World) :
    ∃ w', (freeze R.ops this).Yields w (.done (this.val.elems R) w') := by
  obtain ⟨out, w', hout, rfl⟩ := (freeze_ens R this w).yields
  exact ⟨w', hout⟩

end Query
end LlvmSc

import LlvmSc.Query.Pipeline
import LlvmSc.Query.Ledger

/-!
# The calls of a pipeline

`freeze` evaluates every element once: by induction on the range type the iterators satisfy the laws
of `CallSpec.Sound`, so the loop of `std::copy` ends with the calls of one evaluation per element.
-/

namespace LlvmSc
namespace RangeType

/-- The calls of one evaluation per element: a stage is called once for each element of the range
below it, and the inner ranges of `flatten` make their own calls, as the objects that they are. -/
def Calls : RangeType ρ α → Ref ρ → Multiset Call → Prop
  | vector _, _, D => D = 0
  | range _, _, D => D = 0
  | map R _, r, D => ∃ E, R.Calls (r.field 0 Map.range) E ∧
      D = E + Call.each r.addr (R.elems r.val.range)
  | filter R, r, D => ∃ E, R.Calls (r.field 0 Filter.range) E ∧
      D = E + Call.each r.addr (R.elems r.val.range)
  | flatten R S, r, D => ∃ E E', R.Calls (r.field 0 Flatten.range) E ∧
      Sums S.Calls (R.elems r.val.range) E' ∧ D = E + E'
  | append R₁ R₂, r, D => ∃ E E', R₁.Calls (r.field 0 Append.range1) E ∧
      R₂.Calls (r.field 1 Append.range2) E' ∧ D = E + E'
  | query R, r, D => R.Calls (r.field 0 Query.range) D

def calls : (R : RangeType ρ α) → CallSpec R.spec
  | vector _ => containerCalls Ref.addr id id
  | range α =>
    containerCalls (fun this : Ref (Range α) => this.val.container) Range.elems fun _ => true
  | map R β => Map.calls R.calls β
  | filter R => Filter.calls R.calls
  | flatten R S => Flatten.calls R.calls S.calls
  | append R₁ R₂ => Append.calls R₁.calls R₂.calls
  | query R => Query.calls R.calls

theorem calls_sound (R : RangeType ρ α) : R.calls.Sound := by
  induction R with
  | vector => exact containerCalls_sound
  | range => exact containerCalls_sound
  | map R β ih => exact Map.calls_sound R.spec_sound ih β
  | filter R ih => exact Filter.calls_sound R.spec_sound ih
  | flatten R S ihR ihS => exact Flatten.calls_sound R.spec_sound S.spec_sound ihR ihS
  | append R₁ R₂ ih₁ ih₂ => exact Append.calls_sound R₁.spec_sound R₂.spec_sound ih₁ ih₂
  | query R ih => exact Query.calls_sound ih

/-- A traversal that has arrived at the end has made the calls of one evaluation per element. -/
theorem total_calls (R : RangeType ρ α) {this : Ref ρ} (H : R.calls.Total this D) :
    R.Calls this D := by
  induction R generalizing D with
  | vector =>
    obtain ⟨s, it, -, hD⟩ := H
    exact hD
  | range =>
    obtain ⟨s, it, -, hD⟩ := H
    exact hD
  | map R β ih =>
    obtain ⟨E, hE, rfl⟩ := Map.calls_total H
    exact ⟨E, ih hE, by rw [spec_elems]⟩
  | filter R ih =>
    obtain ⟨E, hE, rfl⟩ := Filter.calls_total R.spec_sound R.calls_sound H
    exact ⟨E, ih hE, by rw [spec_elems]⟩
  | flatten R S ihR ihS =>
    obtain ⟨E, E', hE, hsums, rfl⟩ := Flatten.calls_total R.spec_sound R.calls_sound H
    rw [spec_elems] at hsums
    exact ⟨E, E', ihR hE, hsums.mono fun _ _ hc => ihS hc, rfl⟩
  | append R₁ R₂ ih₁ ih₂ =>
    obtain ⟨E, E', hE, hE', rfl⟩ := Append.calls_total H
    exact ⟨E, E', ih₁ hE, ih₂ hE', rfl⟩
  | query R ih =>
    obtain ⟨s, it, H⟩ := H
    exact ih ⟨s, it, H⟩

end RangeType

namespace CallSpec.Sound

variable {O : RangeOps ρ α} {S : RangeSpec O} {C : CallSpec S}

/-- From any position, the loop of `std::copy` goes on until the calls of a whole traversal have
been made. -/
theorem copy_calls (hC : C.Sound) (h : S.Sound) {this : Ref ρ} {first last : O.Iterator}
    {vec : List α} {w : World} {D F : Multiset Call} (hav : Old avoid w.next)
    (hw : w.made = D + F) (H : C.Made this ⟨avoid, w.next⟩ n first D)
    (hlast : ∀ s, S.At this s (S.elems this.val).length last) :
    (copy O first last vec).Ensures (fun _ w' => ∃ D, w'.made = D + F ∧ C.Total this D) w := by
  refine Comp.wp_loop (fun k t w' => ∃ m, k = (S.elems this.val).length - m ∧
    Charged w F (C.Made this ⟨avoid, w'.next⟩ m t.1) w') ?_ ⟨n, rfl, Nat.le_refl _, D, hw, H⟩
  intro k t w₁ hI
  obtain ⟨m, rfl, hw₁, D, hmade₁, H⟩ := hI
  have hat := hC.made_at H
  refine (h.eq_end hat hlast).bind fun b w₂ ⟨hw₂, hb⟩ => ?_
  subst hw₂ hb
  refine Comp.wp_ite (fun hm => ?_) fun hm => ?_
  · exact Comp.wp_pure ⟨D, hmade₁, .of_made H hm⟩
  · have hlt : m < (S.elems this.val).length := Nat.lt_of_le_of_ne (h.at_le hat) hm
    refine (hC.deref_calls (hav.mono hw₁) hmade₁ H hlt).bind fun r w₃ ⟨hw₃, D₃, hmade₃, hr⟩ => ?_
    refine (hC.incr_calls (hav.mono (hw₁.trans hw₃)) hmade₃ hr).bind
      fun it w₄ ⟨hw₄, D₄, hmade₄, hit⟩ => ?_
    refine Comp.wp_pure ⟨_, ?_, m + 1, rfl, hw₁.trans (hw₃.trans hw₄), D₄, hmade₄, hit⟩
    omega

end CallSpec.Sound

namespace Query

/-- For every pipeline, the calls that `freeze` makes are those of one evaluation per element. -/
theorem freeze_calls (R : RangeType ρ α) (this : Ref (Query ρ)) (w : World) :
    ∃ w' D, (freeze R.ops this).Yields w (.done (this.val.elems R) w') ∧ R.query.Calls this D ∧
      (w'.calls : Multiset Call) = D + (w.calls : Multiset Call) := by
  have h := R.query.spec_sound
  have hC := R.query.calls_sound
  have hav : Old (fun _ => False) w.next := fun _ h => h.elim
  have hfreeze : (freeze R.ops this).Ensures
      (fun _ w' => ∃ D, w'.made = D + w.made ∧ R.query.calls.Total this D) w := by
    refine (hC.begin_calls hav rfl).bind fun first w₁ ⟨hw₁, D, hmade, hfirst⟩ => ?_
    refine h.end_ens.bind fun last w₂ ⟨hw₂, hlast⟩ => ?_
    subst hw₂
    exact hC.copy_calls h (hav.mono hw₁) hmade hfirst hlast
  obtain ⟨out, w', hyields, rfl, D, hmade, htotal⟩ := ((freeze_ens R this w).and hfreeze).yields
  exact ⟨w', D, hyields, R.query.total_calls htotal, hmade⟩

end Query

end LlvmSc

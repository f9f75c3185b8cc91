import Mathlib.Algebra.Order.Group.Multiset
import LlvmSc.Query.Map
import LlvmSc.Query.Flatten
import LlvmSc.Query.Append

/-!
# The calls behind an iterator

`CallSpec` adds to a `RangeSpec` the calls that a traversal has made when its iterator arrives at a
position (`Made`) and when it has evaluated the element there (`Read`). The laws of
`CallSpec.Sound` pass from a range type to the templates over it. They are stated with the calls
`F` that others have made, so a template can hold two iterators at once.
-/

namespace LlvmSc

/-- The calls made so far, in no order. -/
def World.made (w : World) : Multiset Call := w.calls

theorem World.made_cons {w w' : World} (h : w'.calls = c :: w.calls) : w'.made = {c} + w.made := by
  rw [made, h, ← Multiset.cons_coe, ← Multiset.singleton_add]
  rfl

/-- One call of the stage for each element. -/
def Call.each (stage : Addr) (xs : List α) : Multiset Call := xs.map (Call.mk stage α)

theorem Call.each_take_add_one {stage : Addr} {xs : List α} (h : xs[n]? = some x) :
    Call.each stage (xs.take (n + 1)) = {⟨stage, α, x⟩} + Call.each stage (xs.take n) := by
  rw [each, List.take_add_one, h, List.map_append, ← Multiset.coe_add, add_comm]
  rfl

/-- In `w'` the calls `F` have been made and further ones that satisfy `P`. -/
def Charged (w : World) (F : Multiset Call) (P : Multiset Call → Prop) (w' : World) : Prop :=
  w.next ≤ w'.next ∧ ∃ D, w'.made = D + F ∧ P D

structure CallSpec {O : RangeOps ρ α} (S : RangeSpec O) where
  /-- The iterator has arrived at the position, after these calls. -/
  Made : Ref ρ → Span → Nat → O.Iterator → Multiset Call → Prop
  /-- It has also evaluated the element there. -/
  Read : Ref ρ → Span → Nat → O.Iterator → Ref α → Multiset Call → Prop

namespace CallSpec

variable {O : RangeOps ρ α} {S : RangeSpec O}

/-- The calls of a traversal that has arrived at the end. -/
def Total (C : CallSpec S) (this : Ref ρ) (D : Multiset Call) : Prop :=
  ∃ s it, C.Made this s (S.elems this.val).length it D

theorem Total.of_made {C : CallSpec S} {this : Ref ρ} (H : C.Made this s n it D)
    (hn : n = (S.elems this.val).length) : C.Total this D :=
  ⟨s, it, hn ▸ H⟩

structure Sound (C : CallSpec S) : Prop where
  begin_calls {this w avoid F} : Old avoid w.next → w.made = F → (O.begin this).Ensures
    (fun it w' => Charged w F (C.Made this ⟨avoid, w'.next⟩ 0 it) w') w
  deref_calls {this avoid n it w D F} : Old avoid w.next → w.made = D + F →
    C.Made this ⟨avoid, w.next⟩ n it D → n < (S.elems this.val).length → (O.deref it).Ensures
      (fun r w' => Charged w F (C.Read this ⟨avoid, w'.next⟩ n r.1 r.2) w') w
  incr_calls {this avoid n it x w D F} : Old avoid w.next → w.made = D + F →
    C.Read this ⟨avoid, w.next⟩ n it x D → (O.incr it).Ensures
      (fun it' w' => Charged w F (C.Made this ⟨avoid, w'.next⟩ (n + 1) it') w') w
  made_mono {this s s' n it D} : s.Sub s' → C.Made this s n it D → C.Made this s' n it D
  read_mono {this s s' n it x D} : s.Sub s' → C.Read this s n it x D → C.Read this s' n it x D
  made_at {this s n it D} : C.Made this s n it D → S.At this s n it
  read_denotes {this s n it x D} : C.Read this s n it x D → S.Denotes this s n it x

end CallSpec

/-- A container makes no calls. -/
def containerCalls (addr : Ref ρ → Addr) (elems : ρ → List α) (keep : Bool → Bool) :
    CallSpec (containerSpec addr elems keep) where
  Made this s n it D := (containerSpec addr elems keep).At this s n it ∧ D = 0
  Read this s n it x D := (containerSpec addr elems keep).Denotes this s n it x ∧ D = 0

theorem containerCalls_sound {addr : Ref ρ → Addr} {elems : ρ → List α} {keep : Bool → Bool} :
    (containerCalls addr elems keep).Sound where
  begin_calls _ hw :=
    Comp.wp_pure ⟨Nat.le_refl _, 0, by rw [hw, zero_add], ⟨rfl, Nat.zero_le _⟩, rfl⟩
  deref_calls := by
    intro this avoid n it w D F _ hw H hn
    rcases H with ⟨⟨rfl, -⟩, rfl⟩
    have hx : (elems this.val)[n]? = some (elems this.val)[n] := List.getElem?_eq_getElem hn
    change (ContainerIterator.deref _).Ensures _ _
    rw [ContainerIterator.deref_some hx]
    exact Comp.wp_pure ⟨Nat.le_refl _, 0, hw, ⟨rfl, hx, rfl⟩, rfl⟩
  incr_calls := by
    intro this avoid n it x w D F _ hw H
    rcases H with ⟨⟨rfl, hx, -⟩, rfl⟩
    have hn : n < (elems this.val).length := (List.getElem?_eq_some_iff.1 hx).1
    change (ContainerIterator.incr _).Ensures _ _
    rw [ContainerIterator.incr_lt hn]
    exact Comp.wp_pure ⟨Nat.le_refl _, 0, hw, ⟨rfl, hn⟩, rfl⟩
  made_mono _ H := H
  read_mono _ H := H
  made_at H := H.1
  read_denotes H := H.1

/-! ## `Map` -/

namespace Map

variable {R : RangeOps ρ α} {S : RangeSpec R} {β : Type} {C : CallSpec S}

/-- The iterator has evaluated the element, and called the function for it and those before. -/
inductive Read (C : CallSpec S) (this : Ref (Map ρ α β)) (s : Span) (n : Nat) (i : Iterator R β)
    (y : Ref β) : Multiset Call → Prop
  | intro (spec : (spec S β).Denotes this s n i y) (it : C.Read (this.field 0 range) s n i.it x D) :
    Read C this s n i y (D + Call.each this.addr ((S.elems this.val.range).take (n + 1)))

/-- The iterator has cached nothing, and called the function for the elements before. -/
inductive Made (C : CallSpec S) (this : Ref (Map ρ α β)) (s : Span) (n : Nat) (i : Iterator R β) :
    Multiset Call → Prop
  | intro (map : i.map = this) (current : i.current = none)
    (it : C.Made (this.field 0 range) s n i.it D) :
    Made C this s n i (D + Call.each this.addr ((S.elems this.val.range).take n))

def calls (C : CallSpec S) (β : Type) : CallSpec (spec S β) where
  Made := Made C
  Read := Read C

theorem evaluate_none {i : Iterator R β} (h : i.current = none) :
    evaluate i = (do
      let (it, x) ← R.deref i.it
      called i.map.addr x.val
      let y ← makeShared (i.map.val.fn x.val)
      pure ({ i with it := it, current := some y }, y)) := by
  rw [evaluate, h]

theorem Made.at (hC : C.Sound) {this : Ref (Map ρ α β)} (H : Made C this s n i D) :
    At S this s n i := by
  cases H with
  | intro map current it =>
    refine ⟨map, hC.made_at it, fun y hy => ?_⟩
    cases current.symm.trans hy

/-- Evaluation calls the function once. -/
theorem evaluate_calls (h : S.Sound) (hC : C.Sound) {this : Ref (Map ρ α β)} {i : Iterator R β}
    {w : World} {D F : Multiset Call} (hav : Old avoid w.next) (hw : w.made = D + F)
    (H : Made C this ⟨avoid, w.next⟩ n i D) (hn : n < (S.elems this.val.range).length) :
    (evaluate i).Ensures (fun r w' => ∃ x D', C.Read (this.field 0 range) ⟨avoid, w'.next⟩ n r.1.it x D' ∧
      w'.made = D' + Call.each this.addr ((S.elems this.val.range).take (n + 1)) + F) w := by
  cases H with
  | @intro D map current it =>
    rw [evaluate_none current]
    rw [add_assoc] at hw
    refine (hC.deref_calls hav hw it hn).bind fun r w₁ ⟨_, D', hmade, hr⟩ => ?_
    refine called_ens.bind fun _ w₂ ⟨hnext₂, hcalls₂⟩ => ?_
    refine makeShared_ens.bind fun y w₃ ⟨hnext₃, hcalls₃, _⟩ => ?_
    have hle : w₁.next ≤ w₃.next := by omega
    have hx : (S.elems this.val.range)[n]? = some r.2.val := h.denotes_val (hC.read_denotes hr)
    refine Comp.wp_pure ⟨_, D', hC.read_mono (.of_le hle) hr, ?_⟩
    rw [World.made_cons (hcalls₃.trans hcalls₂), hmade, Call.each_take_add_one hx, map]
    ac_rfl

theorem calls_sound (h : S.Sound) (hC : C.Sound) (β : Type) : (calls C β).Sound where
  begin_calls {this _ _ _} hav hw := by
    refine (hC.begin_calls hav hw).bind fun it w' ⟨hle, D, hmade, H⟩ => ?_
    have hi : Made C this _ 0 { it := it, current := none, map := this } _ := .intro rfl rfl H
    exact Comp.wp_pure ⟨hle, D, hmade, by simpa [calls, Call.each] using hi⟩
  deref_calls {this avoid n i w D F} hav hw H hn := by
    have hlen : ((spec S β).elems this.val).length = (S.elems this.val.range).length :=
      List.length_map _
    refine (((spec_sound h β).deref_ens hav (H.at hC) hn).and
      (evaluate_calls h hC hav hw H (hlen ▸ hn))).wp fun r w' hr => ?_
    obtain ⟨⟨hle, hr⟩, x, D', hread, hmade⟩ := hr
    exact ⟨hle, _, hmade, .intro hr hread⟩
  incr_calls := by
    intro this avoid n i y w D F hav hw H
    cases H with
    | intro hspec it =>
      rw [add_assoc] at hw
      refine (hC.incr_calls hav hw it).bind fun it' w' ⟨hle, D', hmade, H⟩ => ?_
      rw [← add_assoc] at hmade
      exact Comp.wp_pure ⟨hle, _, hmade, .intro hspec.1.map rfl H⟩
  made_mono hs H := by
    cases H with
    | intro map current it => exact .intro map current (hC.made_mono hs it)
  read_mono hs H := by
    cases H with
    | intro hspec it => exact .intro ((spec_sound h β).denotes_mono hs hspec) (hC.read_mono hs it)
  made_at H := H.at hC
  read_denotes H := by
    cases H with
    | intro hspec it => exact hspec

theorem calls_total {this : Ref (Map ρ α β)} (H : (calls C β).Total this D) :
    ∃ E, C.Total (this.field 0 range) E ∧ D = E + Call.each this.addr (S.elems this.val.range) := by
  obtain ⟨s, i, H⟩ := H
  cases H with
  | intro map current it =>
    have hlen : ((spec S β).elems this.val).length = (S.elems this.val.range).length :=
      List.length_map _
    rw [hlen] at it ⊢
    rw [List.take_length]
    exact ⟨_, .of_made it rfl, rfl⟩

end Map

/-! ## `Filter` -/

namespace Filter

variable {R : RangeOps ρ α} {S : RangeSpec R} {C : CallSpec S}

/-- The predicate has been called for the element and those before it in the range below. -/
inductive Read (C : CallSpec S) (this : Ref (Filter ρ α)) (s : Span) (n : Nat) (i : Iterator R)
    (x : Ref α) : Multiset Call → Prop
  | intro (filter : i.filter = this) (it : C.Read (this.field 0 range) s (base S this.val n) i.it x D) :
    Read C this s n i x
      (D + Call.each this.addr ((S.elems this.val.range).take (base S this.val n + 1)))

/-- The loop in `_bump` has evaluated the element where it stops. -/
inductive Made (C : CallSpec S) (this : Ref (Filter ρ α)) (s : Span) (i : Iterator R) :
    Nat → Multiset Call → Prop
  | stop (H : Read C this s n i x D) : Made C this s i n D
  | past (filter : i.filter = this)
    (it : C.Made (this.field 0 range) s (S.elems this.val.range).length i.it D) :
    Made C this s i ((S.elems this.val.range).filter this.val.pred).length
      (D + Call.each this.addr (S.elems this.val.range))

def calls (C : CallSpec S) : CallSpec (spec S) where
  Made this s n i := Made C this s i n
  Read := Read C

theorem Read.denotes (hC : C.Sound) {this : Ref (Filter ρ α)} (H : Read C this s n i x D) :
    (spec S).Denotes this s n i x := by
  cases H with
  | intro filter it => exact ⟨filter, hC.read_denotes it⟩

theorem bump_calls (h : S.Sound) (hC : C.Sound) {this : Ref (Filter ρ α)} {i : Iterator R}
    {w : World} {D F : Multiset Call} (hav : Old avoid w.next) (hf : i.filter = this)
    (H : C.Made (this.field 0 range) ⟨avoid, w.next⟩ j i.it D)
    (hw : w.made = D + Call.each this.addr ((S.elems this.val.range).take j) + F)
    (hn : (S.elems this.val.range).countPBefore this.val.pred j = n) :
    (bump i).Ensures (fun i' w' => Charged w F (Made C this ⟨avoid, w'.next⟩ i' n) w') w := by
  let xs := S.elems this.val.range
  -- at position `j` below, the predicate has been called for the `j` elements before
  refine Comp.wp_loop (fun k i w' => ∃ j D, k = xs.length - j ∧ w.next ≤ w'.next ∧
    i.filter = this ∧ C.Made (this.field 0 range) ⟨avoid, w'.next⟩ j i.it D ∧
    w'.made = D + Call.each this.addr (xs.take j) + F ∧ xs.countPBefore this.val.pred j = n) ?_
    ⟨j, D, rfl, Nat.le_refl _, hf, H, hw, hn⟩
  intro k i w₁ hI
  rcases hI with ⟨j, D, rfl, hw₁, hf, H, hw, hn⟩
  have hat := hC.made_at H
  have hle : j ≤ xs.length := h.at_le hat
  refine (atEnd_ens h hf hat).bind fun b w₂ ⟨hw₂, hb⟩ => ?_
  subst hw₂ hb
  refine Comp.wp_ite (fun hj => ?_) fun hj => ?_
  · subst hj
    rw [List.countPBefore_length, List.countP_eq_length_filter] at hn
    subst hn
    rw [List.take_length] at hw
    exact Comp.wp_pure ⟨hw₁, _, hw, .past hf H⟩
  · have hlt : j < xs.length := Nat.lt_of_le_of_ne hle hj
    rw [add_assoc] at hw
    refine (hC.deref_calls (hav.mono hw₁) hw H hlt).bind fun r w₃ ⟨hw₃, D', hmade₃, hr⟩ => ?_
    refine called_ens.bind fun _ w₄ ⟨hw₄, hcalls₄⟩ => ?_
    have hx : xs[j]? = some r.2.val := h.denotes_val (hC.read_denotes hr)
    have hread := hC.read_mono (.of_le hw₄.ge) hr
    have hmade : w₄.made = D' + Call.each this.addr (xs.take (j + 1)) + F := by
      rw [World.made_cons hcalls₄, hmade₃, Call.each_take_add_one hx, hf]
      ac_rfl
    rw [hf]
    by_cases hp : this.val.pred r.2.val = true
    · rw [if_pos hp]
      have hbase : base S this.val n = j := hn ▸ base_countPBefore hx hp
      refine Comp.wp_pure ⟨by omega, _, hmade, .stop (x := r.2) ?_⟩
      rw [← hbase]
      exact .intro rfl (by rwa [hbase])
    · rw [if_neg hp]
      rw [add_assoc] at hmade
      refine (hC.incr_calls (hav.mono (by omega)) hmade hread).bind
        fun it w₅ ⟨hw₅, D'', hmade₅, hit⟩ => ?_
      rw [← add_assoc] at hmade₅
      refine Comp.wp_pure ⟨_, ?_, j + 1, D'', rfl, by omega, rfl, hit, hmade₅, ?_⟩
      · omega
      · simp [List.countPBefore_add_one hx, hp, hn]

theorem calls_sound (h : S.Sound) (hC : C.Sound) : (calls C).Sound where
  begin_calls {this w avoid F} hav hw := by
    refine (hC.begin_calls hav hw).bind fun it w' ⟨hle, D, hmade, H⟩ => ?_
    refine (bump_calls (F := F) h hC (hav.mono hle) rfl H ?_ (by simp)).wp
      fun i w'' ⟨hle', hi⟩ => ⟨hle.trans hle', hi⟩
    simpa [Call.each] using hmade
  deref_calls {this avoid n i w D F} hav hw H hn := by
    cases H with
    | @stop _ x _ H =>
      refine ((spec_sound h).deref_denotes (H.denotes hC)).wp fun r w' ⟨hw', hr⟩ => ?_
      subst hw' hr
      exact ⟨Nat.le_refl _, D, hw, H⟩
    | past => exact absurd hn (Nat.lt_irrefl _)
  incr_calls := by
    intro this avoid n i x w D F hav hw H
    cases H with
    | intro hf it =>
      have hval := h.denotes_val (hC.read_denotes it)
      obtain ⟨hcount, hp⟩ := countPBefore_base hval
      rw [add_assoc] at hw
      refine (hC.incr_calls hav hw it).bind fun it' w' ⟨hle, D', hmade, H⟩ => ?_
      rw [← add_assoc] at hmade
      refine (bump_calls (i := { i with it := it' }) h hC (hav.mono hle) hf H hmade ?_).wp
        fun i' w'' ⟨hle', hi⟩ => ⟨hle.trans hle', hi⟩
      have hx : (S.elems this.val.range)[base S this.val n]? = some x.val := hval
      simp [List.countPBefore_add_one hx, hp, hcount]
  made_mono hs H := by
    cases H with
    | stop H =>
      cases H with
      | intro filter it => exact .stop (.intro filter (hC.read_mono hs it))
    | past filter it => exact .past filter (hC.made_mono hs it)
  read_mono hs H := by
    cases H with
    | intro filter it => exact .intro filter (hC.read_mono hs it)
  made_at H := by
    cases H with
    | stop H => exact (spec_sound h).denotes_at (H.denotes hC)
    | past filter it => exact ⟨filter, Nat.le_refl _, by rw [base_length]; exact hC.made_at it⟩
  read_denotes H := H.denotes hC

theorem calls_total (h : S.Sound) (hC : C.Sound) {this : Ref (Filter ρ α)}
    (H : (calls C).Total this D) :
    ∃ E, C.Total (this.field 0 range) E ∧ D = E + Call.each this.addr (S.elems this.val.range) := by
  obtain ⟨s, i, H⟩ := H
  generalize hn : ((spec S).elems this.val).length = n at H
  cases H with
  | stop H =>
    have hlt := (List.getElem?_eq_some_iff.1 ((spec_sound h).denotes_val (H.denotes hC))).1
    exact absurd hn (Nat.ne_of_gt hlt)
  | past filter it => exact ⟨_, .of_made it rfl, rfl⟩

end Filter

/-! ## `Query` -/

def Query.calls {R : RangeOps ρ α} {S : RangeSpec R} (C : CallSpec S) : CallSpec (spec S) where
  Made this := C.Made (this.field 0 range)
  Read this := C.Read (this.field 0 range)

theorem Query.calls_sound {R : RangeOps ρ α} {S : RangeSpec R} {C : CallSpec S} (hC : C.Sound) :
    (calls C).Sound where
  begin_calls := hC.begin_calls
  deref_calls := hC.deref_calls
  incr_calls := hC.incr_calls
  made_mono := hC.made_mono
  read_mono := hC.read_mono
  made_at := hC.made_at
  read_denotes := hC.read_denotes

/-! ## `Append` -/

namespace Append

variable {R₁ : RangeOps ρ₁ α} {R₂ : RangeOps ρ₂ α} {S₁ : RangeSpec R₁} {S₂ : RangeSpec R₂}

section
variable (C₁ : CallSpec S₁) (C₂ : CallSpec S₂)

inductive Made (this : Ref (Append ρ₁ ρ₂)) (s : Span) (i : Iterator R₁ R₂) :
    Nat → Multiset Call → Prop
  | first (append : i.append = this) (it1 : i.it1 = some a) (it2 : i.it2 = some b)
    (lt : n < (S₁.elems this.val.range1).length) (made1 : C₁.Made (this.field 0 range1) s n a D₁)
    (made2 : C₂.Made (this.field 1 range2) s 0 b D₂) : Made this s i n (D₁ + D₂)
  | second (append : i.append = this) (it1 : i.it1 = none) (it2 : i.it2 = some b)
    (total : C₁.Total (this.field 0 range1) D₁) (made2 : C₂.Made (this.field 1 range2) s k b D₂) :
    Made this s i ((S₁.elems this.val.range1).length + k) (D₁ + D₂)

inductive Read (this : Ref (Append ρ₁ ρ₂)) (s : Span) (i : Iterator R₁ R₂) (x : Ref α) :
    Nat → Multiset Call → Prop
  | first (append : i.append = this) (it1 : i.it1 = some a) (it2 : i.it2 = some b)
    (read1 : C₁.Read (this.field 0 range1) s n a x D₁)
    (made2 : C₂.Made (this.field 1 range2) s 0 b D₂) : Read this s i x n (D₁ + D₂)
  | second (append : i.append = this) (it1 : i.it1 = none) (it2 : i.it2 = some b)
    (total : C₁.Total (this.field 0 range1) D₁) (read2 : C₂.Read (this.field 1 range2) s k b x D₂) :
    Read this s i x ((S₁.elems this.val.range1).length + k) (D₁ + D₂)

def calls : CallSpec (spec S₁ S₂) where
  Made this s n i := Made C₁ C₂ this s i n
  Read this s n i x := Read C₁ C₂ this s i x n

end

variable {C₁ : CallSpec S₁} {C₂ : CallSpec S₂} {this : Ref (Append ρ₁ ρ₂)}

section
variable (hC₁ : C₁.Sound) (hC₂ : C₂.Sound)
include hC₁ hC₂

theorem Read.denotes (H : Read C₁ C₂ this s i x n D) : Denotes S₁ S₂ this s n i x := by
  cases H with
  | first h i1 i2 r1 m2 => exact .first h i1 i2 (hC₁.read_denotes r1) (hC₂.made_at m2)
  | second h i1 i2 _ r2 => exact .second h i1 i2 (hC₂.read_denotes r2)

theorem deref_calls {i : Iterator R₁ R₂} {w : World} {D F : Multiset Call} (hav : Old avoid w.next)
    (hw : w.made = D + F) (H : Made C₁ C₂ this ⟨avoid, w.next⟩ i n D)
    (hn : n < (S₁.elems this.val.range1 ++ S₂.elems this.val.range2).length) : i.deref.Ensures
      (fun r w' => Charged w F (Read C₁ C₂ this ⟨avoid, w'.next⟩ r.1 r.2 n) w') w := by
  cases H with
  | first h i1 i2 lt m1 m2 =>
    rw [deref_first i1]
    rw [add_assoc] at hw
    refine (hC₁.deref_calls hav hw m1 lt).bind fun r w' ⟨hle, D', hmade, hr⟩ => ?_
    rw [← add_assoc] at hmade
    exact Comp.wp_pure ⟨hle, _, hmade, .first h rfl i2 hr (hC₂.made_mono (.of_le hle) m2)⟩
  | @second b D₁ k D₂ h i1 i2 total m2 =>
    rw [deref_second i1 i2]
    rw [List.length_append, Nat.add_lt_add_iff_left] at hn
    rw [add_comm D₁, add_assoc] at hw
    refine (hC₂.deref_calls hav hw m2 hn).bind fun r w' ⟨hle, D', hmade, hr⟩ => ?_
    rw [← add_assoc, add_comm D'] at hmade
    exact Comp.wp_pure ⟨hle, _, hmade, .second h i1 rfl total hr⟩

end

section
variable (h₁ : S₁.Sound) (h₂ : S₂.Sound) (hC₁ : C₁.Sound) (hC₂ : C₂.Sound)
include h₁ h₂ hC₁ hC₂

omit h₂ in
theorem begin_calls {w : World} {F : Multiset Call} (hav : Old avoid w.next) (hw : w.made = F) :
    ((ops R₁ R₂).begin this).Ensures
      (fun i w' => Charged w F (Made C₁ C₂ this ⟨avoid, w'.next⟩ i 0) w') w := by
  refine (hC₁.begin_calls hav hw).bind fun a w₁ ⟨hw₁, D₁, hmade₁, ha⟩ => ?_
  refine (hC₂.begin_calls (hav.mono hw₁) hmade₁).bind fun b w₂ ⟨hw₂, D₂, hmade₂, hb⟩ => ?_
  have hmade : w₂.made = D₁ + D₂ + F := by
    rw [hmade₂]
    ac_rfl
  refine h₁.end_ens.bind fun e w₃ ⟨hw₃, he⟩ => ?_
  subst hw₃
  refine (h₁.eq_end (hC₁.made_at ha) he).bind fun v w₄ ⟨hw₄, hv⟩ => ?_
  subst hw₄ hv
  refine Comp.wp_ite (fun h0 : 0 = (S₁.elems this.val.range1).length => ?_)
    fun h0 : ¬ 0 = (S₁.elems this.val.range1).length => ?_
  · have htotal : C₁.Total (this.field 0 range1) D₁ := .of_made ha h0
    have hi : Made C₁ C₂ this _ { it1 := none, it2 := some b, append := this }
        ((S₁.elems this.val.range1).length + 0) _ := .second rfl rfl rfl htotal hb
    exact Comp.wp_pure ⟨hw₁.trans hw₂, _, hmade, by rwa [← h0] at hi⟩
  · exact Comp.wp_pure ⟨hw₁.trans hw₂, _, hmade,
      .first rfl rfl rfl (Nat.pos_of_ne_zero (Ne.symm h0)) (hC₁.made_mono (.of_le hw₂) ha) hb⟩

theorem incr_calls {i : Iterator R₁ R₂} {w : World} {D F : Multiset Call} (hav : Old avoid w.next)
    (hw : w.made = D + F) (H : Read C₁ C₂ this ⟨avoid, w.next⟩ i x n D) : i.incr.Ensures
      (fun i' w' => Charged w F (Made C₁ C₂ this ⟨avoid, w'.next⟩ i' (n + 1)) w') w := by
  cases H with
  | @first a b _ D₁ D₂ h i1 i2 r1 m2 =>
    subst h
    have hlt : n < (S₁.elems i.append.val.range1).length :=
      (List.getElem?_eq_some_iff.1 (h₁.denotes_val (hC₁.read_denotes r1))).1
    rw [incr_first i1]
    rw [add_assoc] at hw
    refine (hC₁.incr_calls hav hw r1).bind fun a w₁ ⟨hw₁, D', hmade, ha⟩ => ?_
    rw [← add_assoc] at hmade
    refine h₁.end_ens.bind fun e w₂ ⟨hw₂, he⟩ => ?_
    subst hw₂
    refine (h₁.eq_end (hC₁.made_at ha) he).bind fun v w₃ ⟨hw₃, hv⟩ => ?_
    subst hw₃ hv
    have hb := hC₂.made_mono (.of_le hw₁) m2
    refine Comp.wp_ite (fun hlast : n + 1 = (S₁.elems i.append.val.range1).length => ?_)
      fun hlast : ¬ n + 1 = (S₁.elems i.append.val.range1).length => ?_
    · have htotal : C₁.Total (i.append.field 0 range1) D' := .of_made ha hlast
      have hi : Made C₁ C₂ i.append _ { i with it1 := none }
          ((S₁.elems i.append.val.range1).length + 0) _ := .second rfl rfl i2 htotal hb
      exact Comp.wp_pure ⟨hw₁, _, hmade, hlast ▸ hi⟩
    · exact Comp.wp_pure
        ⟨hw₁, _, hmade, .first rfl rfl i2 (Nat.lt_of_le_of_ne hlt hlast) ha hb⟩
  | @second b D₁ k D₂ h i1 i2 total r2 =>
    subst h
    have hlt : k < (S₂.elems i.append.val.range2).length :=
      (List.getElem?_eq_some_iff.1 (h₂.denotes_val (hC₂.read_denotes r2))).1
    rw [incr_second i1 i2]
    refine h₂.end_ens.bind fun e w₁ ⟨hw₁, he⟩ => ?_
    subst hw₁
    refine (h₂.eq_end (h₂.denotes_at (hC₂.read_denotes r2)) he).bind fun v w₂ ⟨hw₂, hv⟩ => ?_
    subst hw₂ hv
    refine Comp.wp_ite (fun hend => absurd hend (Nat.ne_of_lt hlt)) fun _ => ?_
    rw [add_comm D₁, add_assoc] at hw
    refine (hC₂.incr_calls hav hw r2).bind fun b w₃ ⟨hw₃, D', hmade, hb⟩ => ?_
    rw [← add_assoc, add_comm D'] at hmade
    have hi : Made C₁ C₂ i.append _ { i with it2 := some b }
        ((S₁.elems i.append.val.range1).length + (k + 1)) _ := .second rfl i1 rfl total hb
    exact Comp.wp_pure ⟨hw₃, _, hmade, hi⟩

theorem calls_sound : (calls C₁ C₂).Sound where
  begin_calls := begin_calls h₁ hC₁ hC₂
  deref_calls := deref_calls hC₁ hC₂
  incr_calls := incr_calls h₁ h₂ hC₁ hC₂
  made_mono hs H := by
    cases H with
    | first h i1 i2 lt m1 m2 =>
      exact .first h i1 i2 lt (hC₁.made_mono hs m1) (hC₂.made_mono hs m2)
    | second h i1 i2 total m2 => exact .second h i1 i2 total (hC₂.made_mono hs m2)
  read_mono hs H := by
    cases H with
    | first h i1 i2 r1 m2 => exact .first h i1 i2 (hC₁.read_mono hs r1) (hC₂.made_mono hs m2)
    | second h i1 i2 total r2 => exact .second h i1 i2 total (hC₂.read_mono hs r2)
  made_at H := by
    cases H with
    | first h i1 i2 lt m1 m2 => exact .first h i1 i2 lt (hC₁.made_at m1) (hC₂.made_at m2)
    | second h i1 i2 _ m2 => exact .second h i1 i2 (hC₂.made_at m2)
  read_denotes H := H.denotes hC₁ hC₂

end

theorem calls_total (H : (calls C₁ C₂).Total this D) : ∃ E E', C₁.Total (this.field 0 range1) E ∧
    C₂.Total (this.field 1 range2) E' ∧ D = E + E' := by
  obtain ⟨s, i, H⟩ := H
  have hlen : ((spec S₁ S₂).elems this.val).length =
      (S₁.elems this.val.range1).length + (S₂.elems this.val.range2).length := List.length_append
  generalize hn : ((spec S₁ S₂).elems this.val).length = n at H
  cases H with
  | first _ _ _ lt => omega
  | second _ _ _ total m2 =>
    exact ⟨_, _, total, .of_made m2 (Nat.add_left_cancel (hn.symm.trans hlen)), rfl⟩

end Append

/-! ## `Flatten` -/

/-- The calls that `P` gives for some objects with these values, together. -/
inductive Sums (P : Ref κ → Multiset Call → Prop) : List κ → Multiset Call → Prop
  | nil : Sums P [] 0
  | concat (init : Sums P cs D) (last : P c E) : Sums P (cs ++ [c.val]) (D + E)

theorem Sums.mono {P Q : Ref κ → Multiset Call → Prop} (H : Sums P cs D)
    (h : ∀ c E, P c E → Q c E) : Sums Q cs D := by
  induction H with
  | nil => exact .nil
  | concat _ last ih => exact .concat ih (h _ _ last)

namespace Flatten

variable {R : RangeOps ρ κ} {S : RangeOps κ α} {SR : RangeSpec R} {SS : RangeSpec S}

section
variable (CR : CallSpec SR) (CS : CallSpec SS)

/-- The iterator stands in the `j`-th inner range, where the calls of `_sub` satisfy `P`; the
inner ranges before it are done. -/
inductive Inside (this : Ref (Flatten ρ)) (s : Span) (j : Nat) (c : Ref κ)
    (P : S.Iterator → Multiset Call → Prop) (i : Iterator R S) : Multiset Call → Prop
  | intro (flatten : i.flatten = this) (it : CR.Read (this.field 0 range) s j i.it c D)
    (done : Sums CS.Total ((SR.elems this.val.range).take j) D') (hsub : i.sub = some sub)
    (sub : P sub E) : Inside this s j c P i (D + D' + E)

/-- All inner ranges are done. -/
inductive Past (this : Ref (Flatten ρ)) (s : Span) (i : Iterator R S) : Multiset Call → Prop
  | intro (at_end : Cursor SR SS this s (SR.elems this.val.range).length 0 i)
    (it : CR.Made (this.field 0 range) s (SR.elems this.val.range).length i.it D)
    (done : Sums CS.Total (SR.elems this.val.range) D') : Past this s i (D + D')

inductive Made (this : Ref (Flatten ρ)) (s : Span) (i : Iterator R S) : Nat → Multiset Call → Prop
  | inside (H : Inside CR CS this s j c (CS.Made c s k) i D) (hk : k < (SS.elems c.val).length) :
    Made this s i (List.flatOffset SS.elems (SR.elems this.val.range) j + k) D
  | past (H : Past CR CS this s i D) :
    Made this s i ((SR.elems this.val.range).flatMap SS.elems).length D

inductive Read (this : Ref (Flatten ρ)) (s : Span) (i : Iterator R S) (x : Ref α) :
    Nat → Multiset Call → Prop
  | intro (H : Inside CR CS this s j c (fun sub => CS.Read c s k sub x) i D) :
    Read this s i x (List.flatOffset SS.elems (SR.elems this.val.range) j + k) D

def calls : CallSpec (spec SR SS) where
  Made this s n i := Made CR CS this s i n
  Read this s n i x := Read CR CS this s i x n

end

variable {CR : CallSpec SR} {CS : CallSpec SS} {this : Ref (Flatten ρ)}

theorem Inside.mono (hCR : CR.Sound) {s s' : Span} (hs : s.Sub s')
    {P Q : S.Iterator → Multiset Call → Prop} (hPQ : ∀ sub E, P sub E → Q sub E)
    (H : Inside CR CS this s j c P i D) : Inside CR CS this s' j c Q i D := by
  cases H with
  | intro hf it done hsub sub => exact .intro hf (hCR.read_mono hs it) done hsub (hPQ _ _ sub)

theorem Inside.cursor (hCR : CR.Sound) (hCS : CS.Sound)
    (H : Inside CR CS this s j c (CS.Made c s k) i D) : Cursor SR SS this s j k i := by
  cases H with
  | intro hf it _ hsub sub => exact .inside hf (hCR.read_denotes it) hsub (hCS.made_at sub)

theorem enter_calls (hCR : CR.Sound) (hCS : CS.Sound) {i : Iterator R S} {w : World}
    {D E F : Multiset Call} (hav : Old avoid w.next) (hw : w.made = D + E + F)
    (hf : i.flatten = this) (H : CR.Made (this.field 0 range) ⟨avoid, w.next⟩ j i.it D)
    (done : Sums CS.Total ((SR.elems this.val.range).take j) E)
    (hj : j < (SR.elems this.val.range).length) :
    i.enter.Ensures (fun i' w' => Charged w F (fun D => ∃ c,
      Inside CR CS this ⟨avoid, w'.next⟩ j c (CS.Made c ⟨avoid, w'.next⟩ 0) i' D) w') w := by
  rw [add_assoc] at hw
  refine (hCR.deref_calls hav hw H hj).bind fun r w₁ ⟨hw₁, D₁, hmade₁, hr⟩ => ?_
  refine (hCS.begin_calls (hav.mono hw₁) hmade₁).bind fun sub w₂ ⟨hw₂, D₂, hmade₂, hsub⟩ => ?_
  have hmade : w₂.made = D₁ + E + D₂ + F := by
    rw [hmade₂]
    ac_rfl
  exact Comp.wp_pure ⟨hw₁.trans hw₂, _, hmade, r.2,
    .intro hf (hCR.read_mono (.of_le hw₂) hr) done rfl hsub⟩

/-- A turn of the loop in `_bump` whose inner range is done goes on to the next one, or to the
end. -/
theorem leave_calls (hR : SR.Sound) (hCR : CR.Sound) (hCS : CS.Sound) {i : Iterator R S} {w : World}
    {D E F : Multiset Call} (hav : Old avoid w.next) (hw : w.made = D + E + F)
    (hf : i.flatten = this) (H : CR.Read (this.field 0 range) ⟨avoid, w.next⟩ j i.it c D)
    (done : Sums CS.Total ((SR.elems this.val.range).take (j + 1)) E)
    (hsub : ∀ sub, i.sub = some sub → ∃ c s, SS.At c s (SS.elems c.val).length sub) :
    (do
      let i := { i with it := ← R.incr i.it }
      if ← i.atEnd then pure (.inl i) else do
        pure (.inl (← i.enter)) : M (Iterator R S ⊕ Iterator R S)).Ensures
      (fun r w' => ∃ i', r = .inl i' ∧ Charged w F (fun D =>
        (∃ c, Inside CR CS this ⟨avoid, w'.next⟩ (j + 1) c (CS.Made c ⟨avoid, w'.next⟩ 0) i' D) ∨
        (j + 1 = (SR.elems this.val.range).length ∧ Past CR CS this ⟨avoid, w'.next⟩ i' D)) w') w := by
  have hj := (Cursor.lt_length hR (hCR.read_denotes H)).2
  rw [add_assoc] at hw
  refine (hCR.incr_calls hav hw H).bind fun it w₁ ⟨hw₁, D₁, hmade₁, hit⟩ => ?_
  rw [← add_assoc] at hmade₁
  have hat := hCR.made_at hit
  refine (atEnd_ens hR (i := { i with it := it }) hf hat).bind fun b w₂ ⟨hw₂, hb⟩ => ?_
  subst hw₂ hb
  refine Comp.wp_ite (fun hlast => ?_) fun hlast => ?_
  · rw [hlast] at hat hit
    rw [hlast, List.take_length] at done
    exact Comp.wp_pure ⟨_, rfl, hw₁, _, hmade₁, .inr ⟨hlast, .intro (.past hf hat hsub) hit done⟩⟩
  · refine (enter_calls (i := { i with it := it }) hCR hCS (hav.mono hw₁) hmade₁ hf hit done
      (Nat.lt_of_le_of_ne hj hlast)).bind fun i' w₃ ⟨hw₃, D₃, hmade₃, c', H'⟩ => ?_
    exact Comp.wp_pure ⟨i', rfl, hw₁.trans hw₃, D₃, hmade₃, .inl ⟨c', H'⟩⟩

section
variable (hR : SR.Sound) (hS : SS.Sound) (hCR : CR.Sound) (hCS : CS.Sound)
include hR hS hCR hCS

theorem bump_calls {i : Iterator R S} {w : World} {D F : Multiset Call} {c : Ref κ}
    (hav : Old avoid w.next) (hw : w.made = D + F)
    (H : Inside CR CS this ⟨avoid, w.next⟩ j c (CS.Made c ⟨avoid, w.next⟩ k) i D)
    (hn : List.flatOffset SS.elems (SR.elems this.val.range) j + k = n) :
    (bump i).Ensures
      (fun i' w' => Charged w F (Made CR CS this ⟨avoid, w'.next⟩ i' n) w') w := by
  let cs := SR.elems this.val.range
  -- the flattened position stays `n`; behind the last inner range there is one turn left
  refine Comp.wp_loop (fun m i w' => Charged w F (fun D =>
      (∃ j c k, m = cs.length - j ∧ List.flatOffset SS.elems cs j + k = n ∧
        Inside CR CS this ⟨avoid, w'.next⟩ j c (CS.Made c ⟨avoid, w'.next⟩ k) i D) ∨
      (m = 0 ∧ (cs.flatMap SS.elems).length = n ∧ Past CR CS this ⟨avoid, w'.next⟩ i D)) w') ?_
    ⟨Nat.le_refl _, D, hw, .inl ⟨j, c, k, rfl, hn, H⟩⟩
  intro m i w₁ hI
  obtain ⟨hw₁, D, hmade₁, hI⟩ := hI
  rcases hI with ⟨j, c, k, rfl, hn, H⟩ | ⟨-, hn, H⟩
  · have hinside := H
    cases H with
    | @intro DR DT sub DS hf it done hsub sub =>
      have hd := hCR.read_denotes it
      have hat := hCS.made_at sub
      obtain ⟨hc, hj⟩ := Cursor.lt_length hR hd
      refine bumpStep_inside hR hS hf hd hsub hat (fun hlt => ?_) fun hk => ?_
      · exact ⟨hw₁, _, hmade₁, hn ▸ .inside hinside hlt⟩
      · have hdone := Sums.concat done (CallSpec.Total.of_made sub hk)
        have htake : cs.take (j + 1) = cs.take j ++ [c.val] := by
          rw [List.take_add_one, hc]
          rfl
        have hoff : List.flatOffset SS.elems cs (j + 1) = n := by
          rw [List.flatOffset_add_one hc, ← hk, hn]
        rw [← htake] at hdone
        rw [add_assoc DR] at hmade₁
        refine (leave_calls hR hCR hCS (hav.mono hw₁) hmade₁ hf it hdone ?_).wp ?_
        · intro sub' hsub'
          obtain rfl := Option.some.inj (hsub.symm.trans hsub')
          exact ⟨c, _, hk ▸ hat⟩
        · intro r w₂ hr
          obtain ⟨i', rfl, hw₂, D₂, hmade₂, hI⟩ := hr
          have hlt : j < cs.length := hj
          rcases hI with ⟨c', H⟩ | ⟨hlast, H⟩
          · exact ⟨_, by omega, hw₁.trans hw₂, D₂, hmade₂, .inl ⟨j + 1, c', 0, rfl, hoff, H⟩⟩
          · have hlen : (cs.flatMap SS.elems).length = n := by
              rw [← List.flatOffset_length, ← hoff, hlast]
            exact ⟨0, by omega, hw₁.trans hw₂, D₂, hmade₂, .inr ⟨rfl, hlen, H⟩⟩
  · have hpast := H
    cases H with
    | intro hcur it done =>
      refine bumpStep_past hR hcur.flatten (hcur.it hR) ?_
      exact ⟨hw₁, _, hmade₁, hn ▸ .past hpast⟩

theorem construct_calls {it : R.Iterator} {w : World} {D F : Multiset Call}
    (hav : Old avoid w.next) (hw : w.made = D + F)
    (H : CR.Made (this.field 0 range) ⟨avoid, w.next⟩ 0 it D) :
    (construct it this : M (Iterator R S)).Ensures
      (fun i w' => Charged w F (Made CR CS this ⟨avoid, w'.next⟩ i 0) w') w := by
  have hat := hCR.made_at H
  refine (atEnd_ens hR rfl hat).bind fun b w₁ ⟨hw₁, hb⟩ => ?_
  subst hw₁ hb
  refine Comp.wp_ite (fun hj => ?_) fun hj => ?_
  · have hlen : (SR.elems this.val.range).length = 0 := hj.symm
    have hnil := List.eq_nil_of_length_eq_zero hlen
    have hpast : Past CR CS this ⟨avoid, w₁.next⟩
        { it := it, sub := none, flatten := this } (D + 0) := by
      refine .intro (.past rfl ?_ fun _ h => absurd h (by simp)) ?_ ?_
      · rwa [hlen]
      · rwa [hlen]
      · rw [hnil]
        exact .nil
    have hmade := Made.past hpast
    rw [hnil] at hmade
    exact Comp.wp_pure ⟨Nat.le_refl _, _, by rw [hw, add_zero], hmade⟩
  · have hpos : 0 < (SR.elems this.val.range).length := by
      simpa [Nat.pos_iff_ne_zero] using Ne.symm hj
    rw [← add_zero D] at hw
    refine (enter_calls (i := { it := it, sub := none, flatten := this }) hCR hCS hav hw rfl H .nil
      hpos).bind fun i w₂ ⟨hw₂, D', hmade, c, H⟩ => ?_
    refine (bump_calls hR hS hCR hCS (hav.mono hw₂) hmade H (by simp)).wp
      fun i' w₃ ⟨hw₃, H⟩ => ⟨hw₂.trans hw₃, H⟩

omit hS in
theorem Made.at (H : Made CR CS this s i n D) : At SR SS this s n i := by
  cases H with
  | @inside j c k _ H hk =>
    have hcur := H.cursor hCR hCS
    cases H with
    | intro _ it =>
      have hc := (Cursor.lt_length hR (hCR.read_denotes it)).1
      refine ⟨Nat.le_of_lt (List.flatOffset_add_lt hc hk), ?_⟩
      rwa [locate, List.flatLocate_offset hc hk]
  | past H =>
    cases H with
    | intro hcur => exact ⟨Nat.le_refl _, by rwa [locate_length]⟩

theorem Read.denotes (H : Read CR CS this s i x n D) : Denotes SR SS this s n i x := by
  cases H with
  | @intro j c k _ H =>
    cases H with
    | intro hf it done hsub sub =>
      have hd := hCR.read_denotes it
      have hx := hCS.read_denotes sub
      have hc := (Cursor.lt_length hR hd).1
      have hk := (List.getElem?_eq_some_iff.1 (hS.denotes_val hx)).1
      have hlocate : locate SR SS this.val _ = (j, k) := List.flatLocate_offset hc hk
      refine ⟨Nat.le_of_lt (List.flatOffset_add_lt hc hk), hf, c, _, ?_, hsub, ?_⟩
      · rwa [hlocate]
      · rwa [hlocate]

theorem calls_sound : (calls CR CS).Sound where
  begin_calls hav hw := (hCR.begin_calls hav hw).bind fun _ _ ⟨hle, _, hmade, H⟩ =>
    (construct_calls hR hS hCR hCS (hav.mono hle) hmade H).wp
      fun _ _ ⟨hle', H⟩ => ⟨hle.trans hle', H⟩
  deref_calls {this avoid n i w D F} hav hw H hn := by
    change i.deref.Ensures _ w
    cases H with
    | inside H hk =>
      cases H with
      | @intro DR DT sub DS hf it done hsub sub =>
        rw [Iterator.deref_of_some hsub]
        rw [add_comm (DR + DT), add_assoc] at hw
        refine (hCS.deref_calls hav hw sub hk).bind fun r w' ⟨hle, D', hmade, hr⟩ => ?_
        rw [← add_assoc, add_comm D'] at hmade
        exact Comp.wp_pure ⟨hle, _, hmade,
          .intro (.intro hf (hCR.read_mono (.of_le hle) it) done rfl hr)⟩
    | past => exact absurd hn (Nat.lt_irrefl _)
  incr_calls := by
    intro this avoid n i x w D F hav hw H
    change i.incr.Ensures _ w
    cases H with
    | @intro j c k _ H =>
      cases H with
      | @intro DR DT sub DS hf it done hsub sub =>
        rw [Iterator.incr_of_some hsub]
        rw [add_comm (DR + DT), add_assoc] at hw
        refine (hCS.incr_calls hav hw sub).bind fun sub' w' ⟨hle, D', hmade, hsub'⟩ => ?_
        rw [← add_assoc, add_comm D'] at hmade
        refine (bump_calls (i := { i with sub := some sub' }) hR hS hCR hCS (hav.mono hle) hmade
          (.intro hf (hCR.read_mono (.of_le hle) it) done rfl hsub') rfl).wp
            fun i' w'' ⟨hle', H⟩ => ⟨hle.trans hle', H⟩
  made_mono hs H := by
    cases H with
    | inside H hk => exact .inside (H.mono hCR hs fun _ _ => hCS.made_mono hs) hk
    | past H =>
      cases H with
      | intro hcur it done => exact .past (.intro (hcur.mono hR hS hs) (hCR.made_mono hs it) done)
  read_mono hs H := by
    cases H with
    | intro H => exact .intro (H.mono hCR hs fun _ _ => hCS.read_mono hs)
  made_at H := H.at hR hCR hCS
  read_denotes H := H.denotes hR hS hCR hCS

end

theorem calls_total (hR : SR.Sound) (hCR : CR.Sound) (H : (calls CR CS).Total this D) :
    ∃ E E', CR.Total (this.field 0 range) E ∧ Sums CS.Total (SR.elems this.val.range) E' ∧ D = E + E' := by
  obtain ⟨s, i, H⟩ := H
  generalize hn : ((spec SR SS).elems this.val).length = n at H
  cases H with
  | inside H hk =>
    cases H with
    | intro _ it =>
      have hc := (Cursor.lt_length hR (hCR.read_denotes it)).1
      exact absurd hn (Nat.ne_of_gt (List.flatOffset_add_lt hc hk))
  | past H =>
    cases H with
    | intro _ it done => exact ⟨_, _, .of_made it rfl, done, rfl⟩

end Flatten

end LlvmSc

import LlvmSc.Query.Position

/-!
# Iterators of `Append`

The laws of `RangeSpec.Sound` pass from two range types to `Append` of them; in particular neither
`ASSERT` of `operator++` fails on an iterator that is not at the end.
-/

namespace LlvmSc
namespace Append

variable {R₁ : RangeOps ρ₁ α} {R₂ : RangeOps ρ₂ α}

section
variable (S₁ : RangeSpec R₁) (S₂ : RangeSpec R₂)

/-- The iterator stands in the first range, with the second iterator at the start of the second
range, or it stands in the second range. -/
inductive At (this : Ref (Append ρ₁ ρ₂)) (s : Span) : Nat → Iterator R₁ R₂ → Prop
  | first (append : i.append = this) (it1 : i.it1 = some a) (it2 : i.it2 = some b)
    (lt : n < (S₁.elems this.val.range1).length) (hat1 : S₁.At (this.field 0 range1) s n a)
    (hat2 : S₂.At (this.field 1 range2) s 0 b) : At this s n i
  | second (append : i.append = this) (it1 : i.it1 = none) (it2 : i.it2 = some b)
    (hat2 : S₂.At (this.field 1 range2) s k b) :
    At this s ((S₁.elems this.val.range1).length + k) i

inductive Denotes (this : Ref (Append ρ₁ ρ₂)) (s : Span) :
    Nat → Iterator R₁ R₂ → Ref α → Prop
  | first (append : i.append = this) (it1 : i.it1 = some a) (it2 : i.it2 = some b)
    (den1 : S₁.Denotes (this.field 0 range1) s n a x)
    (hat2 : S₂.At (this.field 1 range2) s 0 b) : Denotes this s n i x
  | second (append : i.append = this) (it1 : i.it1 = none) (it2 : i.it2 = some b)
    (den2 : S₂.Denotes (this.field 1 range2) s k b x) :
    Denotes this s ((S₁.elems this.val.range1).length + k) i x

/-- In the first range the two iterators into the second one are compared as well. -/
def agree (same : Bool) (r : Append ρ₁ ρ₂) (n : Nat) : Bool :=
  if n < (S₁.elems r.range1).length then
    S₁.agree same r.range1 n && S₂.agree same r.range2 0
  else S₂.agree same r.range2 (n - (S₁.elems r.range1).length)

def persist (same : Bool) (r : Append ρ₁ ρ₂) (n : Nat) : Bool :=
  if n < (S₁.elems r.range1).length then S₁.persist same r.range1 n
  else S₂.persist same r.range2 (n - (S₁.elems r.range1).length)

def spec : RangeSpec (ops R₁ R₂) where
  elems r := S₁.elems r.range1 ++ S₂.elems r.range2
  At := At S₁ S₂
  Denotes := Denotes S₁ S₂
  agree := agree S₁ S₂
  persist := persist S₁ S₂

end

variable {S₁ : RangeSpec R₁} {S₂ : RangeSpec R₂} {this : Ref (Append ρ₁ ρ₂)}

theorem deref_first {i : Iterator R₁ R₂} (h : i.it1 = some a) :
    i.deref = (do
      let (a, x) ← R₁.deref a
      pure ({ i with it1 := some a }, x)) := by
  rw [Iterator.deref, h]

theorem deref_second {i : Iterator R₁ R₂} (h : i.it1 = none) (h2 : i.it2 = some b) :
    i.deref = (do
      let (b, x) ← R₂.deref b
      pure ({ i with it2 := some b }, x)) := by
  rw [Iterator.deref, h, h2]

theorem incr_first {i : Iterator R₁ R₂} (h : i.it1 = some a) :
    i.incr = (do
      let a ← R₁.incr a
      if ← R₁.eq a (← R₁.end_ (i.append.field 0 range1)) then pure { i with it1 := none }
      else pure { i with it1 := some a }) := by
  rw [Iterator.incr, h]

theorem incr_second {i : Iterator R₁ R₂} (h : i.it1 = none) (h2 : i.it2 = some b) :
    i.incr = (do
      if ← R₂.eq b (← R₂.end_ (i.append.field 1 range2)) then Comp.raise .assertion
      else pure { i with it2 := some (← R₂.incr b) }) := by
  rw [Iterator.incr, h, h2]

theorem peq_some_ens {eq : ι → ι → M Bool} {a b : Option ι} {i j : ι} {Q : Bool → World → Prop}
    {w : World} (ha : a = some i) (hb : b = some j) (h : (eq i j).Ensures Q w) :
    (peq eq a b).Ensures Q w := by
  rw [ha, hb]
  exact h

/-- Pointers of which at most one is null do not need to be followed. -/
theorem peq_none_ens {eq : ι → ι → M Bool} {a b : Option ι} {w : World}
    (h : a = none ∨ b = none) :
    (peq eq a b).Ensures (fun v w' => w' = w ∧ v = decide (a.isNone = b.isNone)) w := by
  cases a with
  | none => cases b <;> exact Comp.wp_pure ⟨rfl, rfl⟩
  | some i =>
    cases b with
    | none => exact Comp.wp_pure ⟨rfl, rfl⟩
    | some j => simp at h

theorem At.le (h₂ : S₂.Sound) (H : At S₁ S₂ this s n i) :
    n ≤ (S₁.elems this.val.range1 ++ S₂.elems this.val.range2).length := by
  rw [List.length_append]
  cases H with
  | first _ _ _ lt => omega
  | second _ _ _ a2 => exact Nat.add_le_add_left (h₂.at_le a2) _

theorem deref_end (h₂ : S₂.Sound) {i : Iterator R₁ R₂} {w : World}
    (H : At S₁ S₂ this s (S₁.elems this.val.range1 ++ S₂.elems this.val.range2).length i) :
    i.deref.wp (fun _ _ => False) (fun _ => True) w := by
  rw [List.length_append] at H
  generalize hn : (S₁.elems this.val.range1).length + (S₂.elems this.val.range2).length = n at H
  cases H with
  | first _ _ _ lt => omega
  | second _ i1 i2 a2 =>
    rw [deref_second i1 i2]
    rw [← Nat.add_left_cancel hn] at a2
    exact Comp.wp_bind ((h₂.deref_end a2).imp fun _ _ h => h.elim)

section
variable (h₁ : S₁.Sound) (h₂ : S₂.Sound)
include h₁ h₂

theorem At.mono {s s' : Span} (hs : s.Sub s') (H : At S₁ S₂ this s n i) :
    At S₁ S₂ this s' n i := by
  cases H with
  | first h i1 i2 lt a1 a2 => exact .first h i1 i2 lt (h₁.at_mono hs a1) (h₂.at_mono hs a2)
  | second h i1 i2 a2 => exact .second h i1 i2 (h₂.at_mono hs a2)

theorem Denotes.val (H : Denotes S₁ S₂ this s n i x) :
    (S₁.elems this.val.range1 ++ S₂.elems this.val.range2)[n]? = some x.val := by
  cases H with
  | first h i1 i2 d1 a2 =>
    have hx : (S₁.elems this.val.range1)[n]? = some x.val := h₁.denotes_val d1
    rwa [List.getElem?_append_left (List.getElem?_eq_some_iff.1 hx).1]
  | second h i1 i2 d2 =>
    rw [List.getElem?_append_right (Nat.le_add_right _ _), Nat.add_sub_cancel_left]
    exact h₂.denotes_val d2

theorem Denotes.at (H : Denotes S₁ S₂ this s n i x) : At S₁ S₂ this s n i := by
  cases H with
  | first h i1 i2 d1 a2 =>
    exact .first h i1 i2 (List.getElem?_eq_some_iff.1 (h₁.denotes_val d1)).1 (h₁.denotes_at d1) a2
  | second h i1 i2 d2 => exact .second h i1 i2 (h₂.denotes_at d2)

theorem begin_ens {w : World} (hav : Old avoid w.next) : ((ops R₁ R₂).begin this).Ensures
    (fun i w' => w.next ≤ w'.next ∧ At S₁ S₂ this ⟨avoid, w'.next⟩ 0 i) w := by
  refine (h₁.begin_ens hav).bind fun a w₁ ⟨hw₁, ha⟩ => ?_
  refine (h₂.begin_ens (hav.mono hw₁)).bind fun b w₂ ⟨hw₂, hb⟩ => ?_
  refine h₁.end_ens.bind fun e w₃ ⟨hw₃, he⟩ => ?_
  subst hw₃
  refine (h₁.eq_end ha he).bind fun v w₄ ⟨hw₄, hv⟩ => ?_
  subst hw₄ hv
  refine Comp.wp_ite (fun h0 : 0 = (S₁.elems this.val.range1).length => ?_)
    fun h0 : ¬ 0 = (S₁.elems this.val.range1).length => ?_
  · have hat : At S₁ S₂ this _ ((S₁.elems this.val.range1).length + 0)
        { it1 := none, it2 := some b, append := this } := .second rfl rfl rfl hb
    exact Comp.wp_pure ⟨hw₁.trans hw₂, by rwa [← h0] at hat⟩
  · exact Comp.wp_pure ⟨hw₁.trans hw₂,
      .first rfl rfl rfl (Nat.pos_of_ne_zero (Ne.symm h0)) (h₁.at_mono (.of_le hw₂) ha) hb⟩

theorem eq_ens {this' : Ref (Append ρ₁ ρ₂)} {i i' : Iterator R₁ R₂} {w : World}
    (H : At S₁ S₂ this s n i) (H' : At S₁ S₂ this' s' n' i') (hval : this.val = this'.val)
    (hs : s.Apart s') : (i.eq i').Ensures (fun v w' => w' = w ∧
      v = (decide (n = n') && agree S₁ S₂ (decide (this.addr = this'.addr)) this.val n)) w := by
  obtain ⟨addr, r⟩ := this
  obtain ⟨addr', r'⟩ := this'
  cases hval
  cases H with
  | first _ i1 i2 lt a1 a2 =>
    cases H' with
    | first _ i1' i2' lt' a1' a2' =>
      refine (andM_ens (peq_some_ens i1 i1' (h₁.eq_ens a1 a1' rfl hs)) fun _ =>
        peq_some_ens i2 i2' (h₂.eq_ens a2 a2' rfl hs)).wp fun v w' ⟨hw, hv⟩ => ⟨hw, ?_⟩
      rw [hv]
      simp only [agree, if_pos lt]
      simp [Bool.and_assoc]
    | @second _ k' _ _ i1' =>
      refine (andM_ens (y := true) (peq_none_ens (.inr i1')) fun h => ?_).wp
        fun v w' ⟨hw, hv⟩ => ⟨hw, ?_⟩
      · simp [i1, i1'] at h
      · have hne : ¬ n = (S₁.elems r.range1).length + k' := Nat.ne_of_lt (Nat.lt_add_right _ lt)
        rw [hv, decide_eq_false hne]
        simp [i1, i1']
  | @second _ k _ _ i1 i2 a2 =>
    cases H' with
    | first _ i1' _ lt' =>
      refine (andM_ens (y := true) (peq_none_ens (.inl i1)) fun h => ?_).wp
        fun v w' ⟨hw, hv⟩ => ⟨hw, ?_⟩
      · simp [i1, i1'] at h
      · have hne : ¬ (S₁.elems r.range1).length + k = n' :=
          Nat.ne_of_gt (Nat.lt_add_right _ lt')
        rw [hv, decide_eq_false hne]
        simp [i1, i1']
    | second _ i1' i2' a2' =>
      refine (andM_ens (peq_none_ens (.inl i1)) fun _ =>
        peq_some_ens i2 i2' (h₂.eq_ens a2 a2' rfl hs)).wp fun v w' ⟨hw, hv⟩ => ⟨hw, ?_⟩
      have hge : ¬ (S₁.elems r.range1).length + k < (S₁.elems r.range1).length := by omega
      rw [hv, agree, if_neg hge]
      simp [i1, i1']

theorem incr_ens {i : Iterator R₁ R₂} {w : World} (hav : Old avoid w.next)
    (H : At S₁ S₂ this ⟨avoid, w.next⟩ n i)
    (hn : n < (S₁.elems this.val.range1 ++ S₂.elems this.val.range2).length) :
    i.incr.Ensures (fun i' w' => w.next ≤ w'.next ∧ At S₁ S₂ this ⟨avoid, w'.next⟩ (n + 1) i') w := by
  cases H with
  | first h i1 i2 lt a1 a2 =>
    subst h
    rw [incr_first i1]
    refine (h₁.incr_ens hav a1 lt).bind fun a w₁ ⟨hw₁, ha⟩ => ?_
    refine h₁.end_ens.bind fun e w₂ ⟨hw₂, he⟩ => ?_
    subst hw₂
    refine (h₁.eq_end ha he).bind fun v w₃ ⟨hw₃, hv⟩ => ?_
    subst hw₃ hv
    have hb := h₂.at_mono (.of_le hw₁) a2
    refine Comp.wp_ite (fun hlast : n + 1 = (S₁.elems i.append.val.range1).length => ?_)
      fun hlast : ¬ n + 1 = (S₁.elems i.append.val.range1).length => ?_
    · have hat : At S₁ S₂ i.append _ ((S₁.elems i.append.val.range1).length + 0)
          { i with it1 := none } := .second rfl rfl i2 hb
      exact Comp.wp_pure ⟨hw₁, hlast ▸ hat⟩
    · exact Comp.wp_pure ⟨hw₁, .first rfl rfl i2 (Nat.lt_of_le_of_ne lt hlast) ha hb⟩
  | @second _ k _ h i1 i2 a2 =>
    subst h
    rw [List.length_append, Nat.add_lt_add_iff_left] at hn
    rw [incr_second i1 i2]
    refine h₂.end_ens.bind fun e w₁ ⟨hw₁, he⟩ => ?_
    subst hw₁
    refine (h₂.eq_end a2 he).bind fun v w₂ ⟨hw₂, hv⟩ => ?_
    subst hw₂ hv
    refine Comp.wp_ite (fun hend => absurd hend (Nat.ne_of_lt hn)) fun _ => ?_
    refine (h₂.incr_ens hav a2 hn).bind fun b w₃ ⟨hw₃, hb⟩ => ?_
    have hat : At S₁ S₂ i.append _ ((S₁.elems i.append.val.range1).length + (k + 1))
        { i with it2 := some b } := .second rfl i1 rfl hb
    exact Comp.wp_pure ⟨hw₃, hat⟩

theorem denotes_addr {this' : Ref (Append ρ₁ ρ₂)} (H : Denotes S₁ S₂ this s n i x)
    (H' : Denotes S₁ S₂ this' s' n i' x') (hval : this.val = this'.val) (hs : s.Apart s') :
    decide (x.addr = x'.addr) =
      persist S₁ S₂ (decide (this.addr = this'.addr)) this.val n := by
  obtain ⟨addr, r⟩ := this
  obtain ⟨addr', r'⟩ := this'
  cases hval
  cases H with
  | first _ _ _ d1 =>
    have hlt : n < (S₁.elems r.range1).length :=
      (List.getElem?_eq_some_iff.1 (h₁.denotes_val d1)).1
    cases H' with
    | first _ _ _ d1' =>
      rw [h₁.denotes_addr d1 d1' rfl hs, persist, if_pos hlt]
      simp
    | second => exact absurd hlt (Nat.not_lt.2 (Nat.le_add_right _ _))
  | @second _ k _ _ _ _ _ d2 =>
    have hge : ¬ (S₁.elems r.range1).length + k < (S₁.elems r.range1).length := by omega
    rw [persist, if_neg hge, Nat.add_sub_cancel_left]
    generalize hn : (S₁.elems r.range1).length + k = n at H'
    cases H' with
    | first _ _ _ d1' =>
      have := (List.getElem?_eq_some_iff.1 (h₁.denotes_val d1')).1
      exact absurd (hn ▸ this) hge
    | second _ _ _ d2' =>
      rw [← Nat.add_left_cancel hn] at d2'
      rw [h₂.denotes_addr d2 d2' rfl hs]
      simp

theorem spec_sound : (spec S₁ S₂).Sound where
  begin_ens := begin_ens h₁ h₂
  end_ens {this w} := h₂.end_ens.bind fun b w' ⟨hw, hb⟩ => Comp.wp_pure ⟨hw, fun s => by
    have hat : At S₁ S₂ this s _ { it1 := none, it2 := some b, append := this } :=
      .second rfl rfl rfl (hb s)
    exact List.length_append ▸ hat⟩
  eq_ens := eq_ens h₁ h₂
  deref_ens {this avoid n i w} hav H hn := by
    change i.deref.Ensures _ w
    cases H with
    | first h i1 i2 lt a1 a2 =>
      rw [deref_first i1]
      refine (h₁.deref_ens hav a1 lt).bind fun r w' ⟨hw, hr⟩ => ?_
      exact Comp.wp_pure ⟨hw, .first h rfl i2 hr (h₂.at_mono (.of_le hw) a2)⟩
    | second h i1 i2 a2 =>
      rw [deref_second i1 i2]
      rw [spec, List.length_append, Nat.add_lt_add_iff_left] at hn
      refine (h₂.deref_ens hav a2 hn).bind fun r w' ⟨hw, hr⟩ => ?_
      exact Comp.wp_pure ⟨hw, .second h i1 rfl hr⟩
  deref_denotes {this s n i x w} H := by
    change i.deref.Ensures _ w
    cases H with
    | first h i1 i2 d1 a2 =>
      rw [deref_first i1]
      refine (h₁.deref_denotes d1).bind fun r w' ⟨hw, hr⟩ => ?_
      subst hr
      exact Comp.wp_pure ⟨hw, by rw [← i1]; rfl⟩
    | second h i1 i2 d2 =>
      rw [deref_second i1 i2]
      refine (h₂.deref_denotes d2).bind fun r w' ⟨hw, hr⟩ => ?_
      subst hr
      exact Comp.wp_pure ⟨hw, by rw [← i2]; rfl⟩
  deref_end := deref_end h₂
  incr_ens := incr_ens h₁ h₂
  at_mono := At.mono h₁ h₂
  denotes_mono hs H := by
    cases H with
    | first h i1 i2 d1 a2 => exact .first h i1 i2 (h₁.denotes_mono hs d1) (h₂.at_mono hs a2)
    | second h i1 i2 d2 => exact .second h i1 i2 (h₂.denotes_mono hs d2)
  at_le := At.le h₂
  denotes_at := Denotes.at h₁ h₂
  denotes_val := Denotes.val h₁ h₂
  denotes_addr := denotes_addr h₁ h₂
  agree_end r := by
    have hge : ¬ (S₁.elems r.range1 ++ S₂.elems r.range2).length < (S₁.elems r.range1).length := by
      simp
    change agree S₁ S₂ true r (S₁.elems r.range1 ++ S₂.elems r.range2).length = true
    rw [agree, if_neg hge, List.length_append, Nat.add_sub_cancel_left]
    exact h₂.agree_end r.range2

end

end Append
end LlvmSc

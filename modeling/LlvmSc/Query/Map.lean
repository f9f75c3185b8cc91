import LlvmSc.Query.Position

/-!
# Iterators of `Map`, `Filter` and `Query`

The laws of `RangeSpec.Sound` pass from a range type to `Map`, `Filter` and `Query` over it.
-/

namespace LlvmSc

theorem called_ens {stage : Addr} {x : α} {w : World} : (called stage x).Ensures
    (fun _ w' => w'.next = w.next ∧ w'.calls = ⟨stage, α, x⟩ :: w.calls) w :=
  Comp.wp_modifyGet ⟨rfl, rfl⟩

theorem makeShared_ens {v : α} {w : World} : (makeShared v).Ensures
    (fun y w' => w'.next = w.next + 1 ∧ w'.calls = w.calls ∧ y.val = v ∧ y.addr.object = w.next) w :=
  Comp.wp_modifyGet ⟨rfl, rfl, rfl, rfl⟩

namespace Map

variable {R : RangeOps ρ α} {S : RangeSpec R} {β : Type}

/-- The cached value, if there is one, is the value of the element, in an object of the span. -/
structure At (S : RangeSpec R) (this : Ref (Map ρ α β)) (s : Span) (n : Nat) (i : Iterator R β) :
    Prop where
  map : i.map = this
  it : S.At (this.field 0 range) s n i.it
  current : ∀ y, i.current = some y →
    s.Mem y.addr ∧ ((S.elems this.val.range).map this.val.fn)[n]? = some y.val

def spec (S : RangeSpec R) (β : Type) : RangeSpec (ops R β) where
  elems r := (S.elems r.range).map r.fn
  At := At S
  Denotes this s n i y := At S this s n i ∧ i.current = some y
  agree same r n := S.agree same r.range n
  persist _ _ _ := false

theorem At.mono (h : S.Sound) {this : Ref (Map ρ α β)} {s s' : Span} (hs : s.Sub s')
    (H : At S this s n i) : At S this s' n i :=
  ⟨H.map, h.at_mono hs H.it, fun y hy => ⟨hs _ (H.current y hy).1, (H.current y hy).2⟩⟩

/-- An iterator that has cached nothing. -/
theorem At.of_it {this : Ref (Map ρ α β)} {s : Span} {it : R.Iterator}
    (H : S.At (this.field 0 range) s n it) :
    At S this s n { it := it, current := none, map := this } :=
  ⟨rfl, H, fun _ h => absurd h (by simp)⟩

theorem evaluate_ens (h : S.Sound) {this : Ref (Map ρ α β)} {i : Iterator R β} {w : World}
    (hav : Old avoid w.next) (H : At S this ⟨avoid, w.next⟩ n i)
    (hn : n < (S.elems this.val.range).length) :
    (evaluate i).Ensures (fun r w' => w.next ≤ w'.next ∧
      At S this ⟨avoid, w'.next⟩ n r.1 ∧ r.1.current = some r.2) w := by
  unfold evaluate
  split
  next y hy => exact Comp.wp_pure ⟨Nat.le_refl _, H, hy⟩
  next hy =>
    refine (h.deref_ens hav H.it hn).bind fun r w₁ ⟨hw₁, hr⟩ => ?_
    refine called_ens.bind fun _ w₂ ⟨hw₂, _⟩ => ?_
    refine makeShared_ens.bind fun y w₃ ⟨hw₃, _, hval, haddr⟩ => ?_
    have hle : w₁.next ≤ w₃.next := by omega
    refine Comp.wp_pure ⟨by omega, ⟨H.map, h.at_mono (.of_le hle) (h.denotes_at hr), ?_⟩, rfl⟩
    rintro _ ⟨⟩
    refine ⟨Span.mem_new (hav.mono (by omega : w.next ≤ w₂.next)) haddr (by omega), ?_⟩
    have hx : (S.elems this.val.range)[n]? = some r.2.val := h.denotes_val hr
    rw [List.getElem?_map, hx, hval, H.map]
    rfl

theorem spec_sound (h : S.Sound) (β : Type) : (spec S β).Sound where
  begin_ens hav := (h.begin_ens hav).bind fun _ _ ⟨hw, hat⟩ => Comp.wp_pure ⟨hw, .of_it hat⟩
  end_ens := h.end_ens.bind fun _ _ ⟨hw, hat⟩ => Comp.wp_pure ⟨hw, fun s => by
    simpa [spec] using At.of_it (hat s)⟩
  eq_ens H H' hval hs := by
    refine (h.eq_ens H.it H'.it (congrArg range hval) hs).wp fun b w' ⟨hw, hb⟩ => ⟨hw, ?_⟩
    simpa [spec] using hb
  deref_ens hav H hn := evaluate_ens h hav H (by simpa [spec] using hn)
  deref_denotes := by
    intro this s n i y w H
    rcases H with ⟨-, hy⟩
    change (evaluate i).Ensures _ w
    simp only [evaluate, hy]
    exact Comp.wp_pure ⟨rfl, rfl⟩
  deref_end := by
    intro this s i w H
    have hlen : ((spec S β).elems this.val).length = (S.elems this.val.range).length := by
      simp [spec]
    have hit := H.it
    rw [hlen] at hit
    change (evaluate i).wp _ _ w
    unfold evaluate
    split
    next y hy => simpa [spec] using (H.current y hy).2
    next hy => exact Comp.wp_bind ((h.deref_end hit).imp fun _ _ h => h.elim)
  incr_ens hav H hn := by
    refine (h.incr_ens hav H.it (by simpa [spec] using hn)).bind fun it' w' ⟨hw, hat⟩ => ?_
    refine Comp.wp_pure ⟨hw, ?_⟩
    rw [H.map]
    exact .of_it hat
  at_mono hs H := H.mono h hs
  denotes_mono hs H := ⟨H.1.mono h hs, H.2⟩
  at_le H := by simpa [spec] using h.at_le H.it
  denotes_at H := H.1
  denotes_val H := (H.1.current _ H.2).2
  denotes_addr H H' _ hs := by
    simpa [spec] using hs.ne (H.1.current _ H.2).1 (H'.1.current _ H'.2).1
  agree_end r := by simpa [spec] using h.agree_end r.range

end Map

namespace Filter

variable {R : RangeOps ρ α} {S : RangeSpec R}

/-- The `n`-th element that satisfies the predicate is the element at this position below. -/
def base (S : RangeSpec R) (r : Filter ρ α) (n : Nat) : Nat :=
  (S.elems r.range).findIdxNth r.pred n

structure At (S : RangeSpec R) (this : Ref (Filter ρ α)) (s : Span) (n : Nat) (i : Iterator R) :
    Prop where
  filter : i.filter = this
  le : n ≤ ((S.elems this.val.range).filter this.val.pred).length
  it : S.At (this.field 0 range) s (base S this.val n) i.it

structure Denotes (S : RangeSpec R) (this : Ref (Filter ρ α)) (s : Span) (n : Nat) (i : Iterator R)
    (x : Ref α) : Prop where
  filter : i.filter = this
  it : S.Denotes (this.field 0 range) s (base S this.val n) i.it x

def spec (S : RangeSpec R) : RangeSpec (ops R) where
  elems r := (S.elems r.range).filter r.pred
  At := At S
  Denotes := Denotes S
  agree same r n := S.agree same r.range (base S r n)
  persist same r n := S.persist same r.range (base S r n)

theorem base_lt {r : Filter ρ α} (h : n < ((S.elems r.range).filter r.pred).length) :
    base S r n < (S.elems r.range).length := by
  rw [← List.countP_eq_length_filter] at h
  exact List.findIdxNth_lt_length_of_lt_countP h

theorem base_length {r : Filter ρ α} :
    base S r ((S.elems r.range).filter r.pred).length = (S.elems r.range).length := by
  rw [← List.countP_eq_length_filter]
  exact List.findIdxNth_eq_length_of_ge_countP (Nat.le_refl _)

theorem base_inj {r : Filter ρ α} (h : n ≤ ((S.elems r.range).filter r.pred).length)
    (h' : n' ≤ ((S.elems r.range).filter r.pred).length) : base S r n = base S r n' ↔ n = n' := by
  rw [← List.countP_eq_length_filter] at h h'
  rw [base, base, List.findIdxNth_eq_findIdxNth_iff]
  omega

/-- Before position `j` below, where the loop stops, there are as many elements that satisfy the
predicate as the position of the filtered range says. -/
theorem base_countPBefore {r : Filter ρ α} {j : Nat} {x : α} (hx : (S.elems r.range)[j]? = some x)
    (hp : r.pred x = true) : base S r ((S.elems r.range).countPBefore r.pred j) = j := by
  obtain ⟨hj, rfl⟩ := List.getElem?_eq_some_iff.1 hx
  exact List.findIdxNth_countPBefore_of_lt_length_of_pos hp

theorem countPBefore_base {r : Filter ρ α} {x : α} (hx : (S.elems r.range)[base S r n]? = some x) :
    (S.elems r.range).countPBefore r.pred (base S r n) = n ∧ r.pred x = true := by
  obtain ⟨hj, rfl⟩ := List.getElem?_eq_some_iff.1 hx
  refine ⟨?_, List.pos_findIdxNth_getElem⟩
  exact List.countPBefore_findIdxNth_of_lt_countP (List.findIdxNth_lt_length_iff.1 hj)

theorem atEnd_ens (h : S.Sound) {this : Ref (Filter ρ α)} {i : Iterator R} {w : World}
    (hf : i.filter = this) (H : S.At (this.field 0 range) s j i.it) :
    i.atEnd.Ensures (fun b w' => w' = w ∧ b = decide (j = (S.elems this.val.range).length)) w := by
  subst hf
  exact h.atEnd H

theorem bump_ens (h : S.Sound) {this : Ref (Filter ρ α)} {i : Iterator R} {w : World} {j : Nat}
    (hav : Old avoid w.next) (hf : i.filter = this) (H : S.At (this.field 0 range) ⟨avoid, w.next⟩ j i.it)
    (hn : (S.elems this.val.range).countPBefore this.val.pred j = n) :
    (bump i).Ensures (fun i' w' => w.next ≤ w'.next ∧ At S this ⟨avoid, w'.next⟩ n i') w := by
  let xs := S.elems this.val.range
  -- below, the iterator moves on; the number of elements that passed the predicate stays `n`
  refine Comp.wp_loop (fun k i w' => ∃ j, k = xs.length - j ∧ w.next ≤ w'.next ∧ i.filter = this ∧
    S.At (this.field 0 range) ⟨avoid, w'.next⟩ j i.it ∧ xs.countPBefore this.val.pred j = n) ?_
    ⟨j, rfl, Nat.le_refl _, hf, H, hn⟩
  intro k i w₁ hI
  rcases hI with ⟨j, rfl, hw₁, hf, H, hn⟩
  have hle : j ≤ xs.length := h.at_le H
  refine (atEnd_ens h hf H).bind fun b w₂ ⟨hw₂, hb⟩ => ?_
  subst hw₂ hb
  refine Comp.wp_ite (fun hj => ?_) fun hj => ?_
  · subst hj
    rw [List.countPBefore_length, List.countP_eq_length_filter] at hn
    refine Comp.wp_pure ⟨hw₁, hf, hn.ge, ?_⟩
    rwa [← hn, base_length]
  · have hlt : j < xs.length := Nat.lt_of_le_of_ne hle hj
    refine (h.deref_ens (hav.mono hw₁) H hlt).bind fun r w₃ ⟨hw₃, hr⟩ => ?_
    refine called_ens.bind fun _ w₄ ⟨hw₄, _⟩ => ?_
    have hx : xs[j]? = some r.2.val := h.denotes_val hr
    have hat := h.at_mono (.of_le (by omega : w₃.next ≤ w₄.next)) (h.denotes_at hr)
    rw [hf]
    by_cases hp : this.val.pred r.2.val = true
    · rw [if_pos hp]
      refine Comp.wp_pure ⟨by omega, rfl, ?_, ?_⟩
      · rw [← hn, ← List.countP_eq_length_filter]
        exact List.countPBefore_le_countP _
      · rwa [← hn, base_countPBefore hx hp]
    · rw [if_neg hp]
      refine (h.incr_ens (hav.mono (by omega)) hat hlt).bind fun it w₅ ⟨hw₅, hat⟩ => ?_
      refine Comp.wp_pure ⟨_, ?_, j + 1, rfl, by omega, rfl, hat, ?_⟩
      · omega
      · simp [List.countPBefore_add_one hx, hp, hn]

theorem spec_sound (h : S.Sound) : (spec S).Sound where
  begin_ens hav := (h.begin_ens hav).bind fun _ _ ⟨hw, hat⟩ =>
    (bump_ens h (hav.mono hw) rfl hat (by simp)).wp fun _ _ ⟨hw', hat'⟩ => ⟨hw.trans hw', hat'⟩
  end_ens := by
    intro this w
    refine h.end_ens.bind fun it w' ⟨hw, hat⟩ => ?_
    have hstep : (bumpStep ⟨it, this⟩).Ensures
        (fun r w' => w' = w ∧ r = .inr (⟨it, this⟩ : Iterator R)) w := by
      refine (atEnd_ens (i := ⟨it, this⟩) h rfl (hat ⟨fun _ => True, 0⟩)).bind fun b w' ⟨hw, hb⟩ => ?_
      subst hb
      exact Comp.wp_ite (fun _ => Comp.wp_pure ⟨hw, rfl⟩) fun h => absurd rfl h
    obtain ⟨r, w'', hr, rfl, rfl⟩ := hstep.yields
    subst hw
    refine .inl ⟨_, _, hr.loop_done, rfl, fun s => ⟨rfl, Nat.le_refl _, ?_⟩⟩
    have := hat s
    rwa [Ref.field_val, ← base_length] at this
  eq_ens {this this' _ _ n n' _ _ _} H H' hval hs := by
    refine (h.eq_ens H.it H'.it (congrArg range hval) hs).wp fun b w' ⟨hw, hb⟩ => ⟨hw, ?_⟩
    have hle := H'.le
    rw [← hval] at hle
    rw [← hval, Ref.field_val, decide_eq_decide.2 (base_inj H.le hle)] at hb
    simpa [spec] using hb
  deref_ens hav H hn :=
    (h.deref_ens hav H.it (base_lt hn)).bind fun _ _ ⟨hw, hr⟩ => Comp.wp_pure ⟨hw, H.filter, hr⟩
  deref_denotes H := (h.deref_denotes H.it).bind fun _ _ ⟨hw, hr⟩ => by
    subst hr
    exact Comp.wp_pure ⟨hw, rfl⟩
  deref_end H := by
    have hit := H.it
    simp only [spec, base_length] at hit
    exact Comp.wp_bind ((h.deref_end hit).imp fun _ _ h => h.elim)
  incr_ens {this avoid n i w} hav H hn := by
    have hlt := base_lt hn
    obtain ⟨x, hx⟩ : ∃ x, (S.elems this.val.range)[base S this.val n]? = some x :=
      ⟨_, List.getElem?_eq_getElem hlt⟩
    obtain ⟨hcount, hp⟩ := countPBefore_base hx
    refine (h.incr_ens hav H.it hlt).bind fun it w' ⟨hw, hat⟩ => ?_
    refine (bump_ens (i := { i with it := it }) h (hav.mono hw) H.filter hat ?_).wp
      fun _ _ ⟨hw', hat'⟩ => ⟨hw.trans hw', hat'⟩
    simp [List.countPBefore_add_one hx, hp, hcount]
  at_mono hs H := ⟨H.filter, H.le, h.at_mono hs H.it⟩
  denotes_mono hs H := ⟨H.filter, h.denotes_mono hs H.it⟩
  at_le H := H.le
  denotes_at H := ⟨H.filter, by
    have hlt := (List.getElem?_eq_some_iff.1 (h.denotes_val H.it)).1
    rw [← List.countP_eq_length_filter]
    exact Nat.le_of_lt (List.findIdxNth_lt_length_iff.1 hlt), h.denotes_at H.it⟩
  denotes_val H := by
    rw [spec, List.getElem?_filter_eq]
    exact h.denotes_val H.it
  denotes_addr {this this' _ _ _ _ _ _ _} H H' hval hs := by
    have hit := H'.it
    rw [← hval] at hit
    simpa [spec] using h.denotes_addr H.it hit (congrArg range hval) hs
  agree_end r := by
    simp only [spec, base_length]
    exact h.agree_end r.range

end Filter

/-- A `Query` iterates over its range. -/
def Query.spec {R : RangeOps ρ α} (S : RangeSpec R) : RangeSpec (Query.ops R) where
  elems r := S.elems r.range
  At this := S.At (this.field 0 range)
  Denotes this := S.Denotes (this.field 0 range)
  agree same r := S.agree same r.range
  persist same r := S.persist same r.range

theorem Query.spec_sound {R : RangeOps ρ α} {S : RangeSpec R} (h : S.Sound) :
    (Query.spec S).Sound where
  begin_ens := h.begin_ens
  end_ens := h.end_ens
  eq_ens H H' hval hs := by
    refine (h.eq_ens H H' (congrArg range hval) hs).wp fun b w' ⟨hw, hb⟩ => ⟨hw, ?_⟩
    simpa [spec] using hb
  deref_ens := h.deref_ens
  deref_denotes := h.deref_denotes
  deref_end := h.deref_end
  incr_ens := h.incr_ens
  at_mono := h.at_mono
  denotes_mono := h.denotes_mono
  at_le := h.at_le
  denotes_at := h.denotes_at
  denotes_val := h.denotes_val
  denotes_addr H H' hval hs := by
    simpa [spec] using h.denotes_addr H H' (congrArg range hval) hs
  agree_end r := h.agree_end r.range

end LlvmSc

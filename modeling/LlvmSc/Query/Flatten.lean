import LlvmSc.Query.Position

/-!
# Iterators of `Flatten`

The laws of `RangeSpec.Sound` pass from two range types to `Flatten` of the second over the first.
-/

namespace LlvmSc

namespace Flatten

variable {R : RangeOps ρ κ} {S : RangeOps κ α}

section
variable (SR : RangeSpec R) (SS : RangeSpec S)

/-- The inner range of the `n`-th element and its position there. -/
def locate (r : Flatten ρ) (n : Nat) : Nat × Nat :=
  List.flatLocate SS.elems (SR.elems r.range) n

/-- The iterator stands at position `k` of the `j`-th inner range, or past the last one. There,
`_sub` is unassigned or at the end of some range. -/
inductive Cursor (this : Ref (Flatten ρ)) (s : Span) : Nat → Nat → Iterator R S → Prop
  | inside (flatten : i.flatten = this) (it : SR.Denotes (this.field 0 range) s j i.it c)
    (hsub : i.sub = some sub) (sub : SS.At c s k sub) : Cursor this s j k i
  | past (flatten : i.flatten = this)
    (it : SR.At (this.field 0 range) s (SR.elems this.val.range).length i.it)
    (sub : ∀ sub, i.sub = some sub → ∃ c s, SS.At c s (SS.elems c.val).length sub) :
    Cursor this s (SR.elems this.val.range).length 0 i

structure At (this : Ref (Flatten ρ)) (s : Span) (n : Nat) (i : Iterator R S) : Prop where
  le : n ≤ ((SR.elems this.val.range).flatMap SS.elems).length
  cursor : Cursor SR SS this s (locate SR SS this.val n).1 (locate SR SS this.val n).2 i

structure Denotes (this : Ref (Flatten ρ)) (s : Span) (n : Nat) (i : Iterator R S) (x : Ref α) :
    Prop where
  le : n ≤ ((SR.elems this.val.range).flatMap SS.elems).length
  flatten : i.flatten = this
  sub : ∃ c sub, SR.Denotes (this.field 0 range) s (locate SR SS this.val n).1 i.it c ∧
    i.sub = some sub ∧ SS.Denotes c s (locate SR SS this.val n).2 sub x

/-- Inside an inner range, iterators agree if they agree on the inner range, and inside it. -/
def agreeAt (same : Bool) (r : Flatten ρ) (p : Nat × Nat) : Bool :=
  match (SR.elems r.range)[p.1]? with
  | some c => SR.agree same r.range p.1 && SS.agree (SR.persist same r.range p.1) c p.2
  | none => true

def persistAt (same : Bool) (r : Flatten ρ) (p : Nat × Nat) : Bool :=
  match (SR.elems r.range)[p.1]? with
  | some c => SS.persist (SR.persist same r.range p.1) c p.2
  | none => true

def spec : RangeSpec (ops R S) where
  elems r := (SR.elems r.range).flatMap SS.elems
  At := At SR SS
  Denotes := Denotes SR SS
  agree same r n := agreeAt SR SS same r (locate SR SS r n)
  persist same r n := persistAt SR SS same r (locate SR SS r n)

end

variable {SR : RangeSpec R} {SS : RangeSpec S} {this : Ref (Flatten ρ)}

theorem agreeAt_some {r : Flatten ρ} {p : Nat × Nat} (h : (SR.elems r.range)[p.1]? = some c) :
    agreeAt SR SS same r p =
      (SR.agree same r.range p.1 && SS.agree (SR.persist same r.range p.1) c p.2) := by
  rw [agreeAt, h]

theorem locate_length {r : Flatten ρ} :
    locate SR SS r ((SR.elems r.range).flatMap SS.elems).length =
      ((SR.elems r.range).length, 0) :=
  List.flatLocate_length

theorem locate_fst_eq_length {r : Flatten ρ}
    (h : n ≤ ((SR.elems r.range).flatMap SS.elems).length) :
    (locate SR SS r n).1 = (SR.elems r.range).length ↔
      n = ((SR.elems r.range).flatMap SS.elems).length := by
  constructor
  · intro hj
    by_contra hn
    obtain ⟨c, hc, -⟩ := List.flatLocate_spec (Nat.lt_of_le_of_ne h hn)
    exact Nat.ne_of_lt (List.getElem?_eq_some_iff.1 hc).1 hj
  · rintro rfl
    rw [locate_length]

theorem locate_inj {r : Flatten ρ} (h : n ≤ ((SR.elems r.range).flatMap SS.elems).length)
    (h' : n' ≤ ((SR.elems r.range).flatMap SS.elems).length) :
    locate SR SS r n = locate SR SS r n' ↔ n = n' := by
  refine ⟨fun heq => ?_, fun heq => heq ▸ rfl⟩
  by_cases hn : n = ((SR.elems r.range).flatMap SS.elems).length
  · have := (locate_fst_eq_length h).2 hn
    rw [heq] at this
    rw [hn, ← (locate_fst_eq_length h').1 this]
  · have hn' : n' ≠ ((SR.elems r.range).flatMap SS.elems).length := fun hn' =>
      hn ((locate_fst_eq_length h).1 (heq ▸ (locate_fst_eq_length h').2 hn'))
    obtain ⟨_, -, -, he⟩ := List.flatLocate_spec (Nat.lt_of_le_of_ne h hn)
    obtain ⟨_, -, -, he'⟩ := List.flatLocate_spec (Nat.lt_of_le_of_ne h' hn')
    rw [he, he']
    simp only [locate] at heq
    rw [heq]

theorem getSub_some {i : Iterator R S} {sub : S.Iterator} (h : i.sub = some sub) :
    i.getSub = pure sub := by
  simp [Iterator.getSub, h]

theorem getSub_none {i : Iterator R S} (h : i.sub = none) :
    i.getSub = Comp.raise .uninitialised := by
  simp [Iterator.getSub, h]

theorem Iterator.deref_of_some {i : Iterator R S} {sub : S.Iterator} (h : i.sub = some sub) :
    i.deref = (do
      let (s, x) ← S.deref sub
      pure ({ i with sub := some s }, x)) := by
  rw [Iterator.deref, getSub_some h]
  rfl

theorem Iterator.incr_of_some {i : Iterator R S} {sub : S.Iterator} (h : i.sub = some sub) :
    i.incr = (do bump { i with sub := some (← S.incr sub) }) := by
  rw [Iterator.incr, getSub_some h]
  rfl

namespace Cursor

theorem flatten (H : Cursor SR SS this s j k i) : i.flatten = this := by
  cases H with
  | inside h => exact h
  | past h => exact h

theorem it (hR : SR.Sound) (H : Cursor SR SS this s j k i) :
    SR.At (this.field 0 range) s j i.it := by
  cases H with
  | inside _ h => exact hR.denotes_at h
  | past _ h => exact h

theorem mono (hR : SR.Sound) (hS : SS.Sound) {s s' : Span} (hs : s.Sub s')
    (H : Cursor SR SS this s j k i) : Cursor SR SS this s' j k i := by
  cases H with
  | inside h1 h2 h3 h4 => exact .inside h1 (hR.denotes_mono hs h2) h3 (hS.at_mono hs h4)
  | past h1 h2 h3 => exact .past h1 (hR.at_mono hs h2) h3

theorem sub_end (hR : SR.Sound) {s : Span} {i : Iterator R S}
    (H : Cursor SR SS this s (SR.elems this.val.range).length k i) :
    ∀ sub, i.sub = some sub → ∃ c s, SS.At c s (SS.elems c.val).length sub := by
  generalize hj : (SR.elems this.val.range).length = j at H
  cases H with
  | inside _ hd =>
    exact absurd hj (Nat.ne_of_gt (List.getElem?_eq_some_iff.1 (hR.denotes_val hd)).1)
  | past _ _ h => exact h

theorem lt_length (hR : SR.Sound) {s : Span} {it : R.Iterator}
    (h : SR.Denotes (this.field 0 range) s j it c) :
    (SR.elems this.val.range)[j]? = some c.val ∧ j < (SR.elems this.val.range).length :=
  ⟨hR.denotes_val h, (List.getElem?_eq_some_iff.1 (hR.denotes_val h)).1⟩

end Cursor

section
variable (hR : SR.Sound) (hS : SS.Sound)
include hR

theorem atEnd_ens {i : Iterator R S} {w : World} (hf : i.flatten = this)
    (H : SR.At (this.field 0 range) s j i.it) : i.atEnd.Ensures
      (fun b w' => w' = w ∧ b = decide (j = (SR.elems this.val.range).length)) w := by
  subst hf
  exact hR.atEnd H

theorem At.atEnd_ens {i : Iterator R S} {w : World} (H : At SR SS this s n i) :
    i.atEnd.Ensures (fun b w' => w' = w ∧
      b = decide (n = ((SR.elems this.val.range).flatMap SS.elems).length)) w := by
  have := Flatten.atEnd_ens (w := w) hR H.cursor.flatten (H.cursor.it hR)
  rwa [decide_eq_decide.2 (locate_fst_eq_length H.le)] at this

/-- Away from the end the iterator stands inside an inner range. -/
theorem At.exists_sub {i : Iterator R S} (H : At SR SS this s n i)
    (hn : n < ((SR.elems this.val.range).flatMap SS.elems).length) :
    ∃ c sub, SR.Denotes (this.field 0 range) s (locate SR SS this.val n).1 i.it c ∧
      i.sub = some sub ∧ SS.At c s (locate SR SS this.val n).2 sub ∧
      (SR.elems this.val.range)[(locate SR SS this.val n).1]? = some c.val ∧
      (locate SR SS this.val n).2 < (SS.elems c.val).length ∧
      n = List.flatOffset SS.elems (SR.elems this.val.range) (locate SR SS this.val n).1 +
        (locate SR SS this.val n).2 := by
  obtain ⟨c', hc', hk, hoff⟩ := List.flatLocate_spec hn
  have hcur := H.cursor
  generalize hp : locate SR SS this.val n = p at hcur ⊢
  rw [locate] at hp
  rw [hp] at hc' hk hoff
  obtain ⟨j, k⟩ := p
  cases hcur with
  | @inside _ c sub _ _ _ hit hsub hat =>
    obtain rfl : c.val = c' := Option.some.inj ((hR.denotes_val hit).symm.trans hc')
    exact ⟨c, sub, hit, hsub, hat, hc', hk, hoff⟩
  | past => simp at hc'

theorem bumpStep_past {i : Iterator R S} {w : World}
    {Q : Iterator R S ⊕ Iterator R S → World → Prop} {F : Fault → Prop} (hf : i.flatten = this)
    (hit : SR.At (this.field 0 range) s (SR.elems this.val.range).length i.it)
    (hQ : Q (.inr i) w) : (bumpStep i).wp Q F w := by
  refine (atEnd_ens hR hf hit).bind fun b w₁ ⟨hw₁, hb⟩ => ?_
  subst hw₁ hb
  exact Comp.wp_ite (fun _ => Comp.wp_pure hQ) fun h => absurd rfl h

include hS

theorem enter_ens {i : Iterator R S} {w : World} (hav : Old avoid w.next) (hf : i.flatten = this)
    (H : SR.At (this.field 0 range) ⟨avoid, w.next⟩ j i.it)
    (hj : j < (SR.elems this.val.range).length) : i.enter.Ensures (fun i' w' => w.next ≤ w'.next ∧
      Cursor SR SS this ⟨avoid, w'.next⟩ j 0 i') w := by
  refine (hR.deref_ens hav H hj).bind fun r w₁ ⟨hw₁, hr⟩ => ?_
  refine (hS.begin_ens (hav.mono hw₁)).bind fun sub w₂ ⟨hw₂, hsub⟩ => ?_
  exact Comp.wp_pure ⟨hw₁.trans hw₂,
    .inside hf (hR.denotes_mono (.of_le hw₂) hr) rfl hsub⟩

/-- A turn of the loop in an inner range: the loop stops there, or the inner range is done and the
turn goes on with the range below. -/
theorem bumpStep_inside {i : Iterator R S} {sub : S.Iterator} {w : World}
    {Q : Iterator R S ⊕ Iterator R S → World → Prop} {F : Fault → Prop} (hf : i.flatten = this)
    (hd : SR.Denotes (this.field 0 range) s j i.it c) (hsub : i.sub = some sub)
    (hat : SS.At c s k sub) (hstay : k < (SS.elems c.val).length → Q (.inr i) w)
    (hdone : k = (SS.elems c.val).length → (do
      let i := { i with it := ← R.incr i.it }
      if ← i.atEnd then pure (.inl i) else do
        pure (.inl (← i.enter)) : M (Iterator R S ⊕ Iterator R S)).wp Q F w) :
    (bumpStep i).wp Q F w := by
  have hj := (Cursor.lt_length hR hd).2
  refine (atEnd_ens hR hf (hR.denotes_at hd)).bind fun b w₁ ⟨hw₁, hb⟩ => ?_
  subst hw₁ hb
  refine Comp.wp_ite (fun h => absurd h (Nat.ne_of_lt hj)) fun _ => ?_
  rw [getSub_some hsub]
  refine Comp.wp_bind (Comp.wp_pure ?_)
  refine (hR.deref_denotes hd).bind fun r w₂ ⟨hw₂, hr⟩ => ?_
  subst hw₂ hr
  refine hS.end_ens.bind fun e w₃ ⟨hw₃, he⟩ => ?_
  subst hw₃
  refine (hS.eq_end hat he).bind fun b w₄ ⟨hw₄, hb⟩ => ?_
  subst hw₄ hb
  refine Comp.wp_ite hdone fun hk => ?_
  exact Comp.wp_pure (hstay (Nat.lt_of_le_of_ne (hS.at_le hat) hk))

theorem bump_ens {i : Iterator R S} {w : World} (hav : Old avoid w.next)
    (H : Cursor SR SS this ⟨avoid, w.next⟩ j k i)
    (hn : List.flatOffset SS.elems (SR.elems this.val.range) j + k = n) :
    (bump i).Ensures (fun i' w' => w.next ≤ w'.next ∧ At SR SS this ⟨avoid, w'.next⟩ n i') w := by
  let cs := SR.elems this.val.range
  -- each turn goes on to the next inner range; the flattened position stays `n`
  refine Comp.wp_loop (fun m i w' => ∃ j k, m = cs.length - j ∧ w.next ≤ w'.next ∧
    Cursor SR SS this ⟨avoid, w'.next⟩ j k i ∧ List.flatOffset SS.elems cs j + k = n) ?_
    ⟨j, k, rfl, Nat.le_refl _, H, hn⟩
  intro m i w₁ hI
  rcases hI with ⟨j, k, rfl, hw₁, H, hn⟩
  cases H with
  | past hf hit hsub =>
    refine bumpStep_past hR hf hit ⟨hw₁, ?_⟩
    rw [List.flatOffset_length, Nat.add_zero] at hn
    refine ⟨hn.ge, ?_⟩
    rw [← hn, locate_length]
    exact .past hf hit hsub
  | @inside _ c sub _ _ hf hit hsub hat =>
    obtain ⟨hc, hj⟩ := Cursor.lt_length hR hit
    refine bumpStep_inside hR hS hf hit hsub hat (fun hlt => ?_) fun hk => ?_
    · have havc : locate SR SS this.val n = (j, k) := hn ▸ List.flatLocate_offset hc hlt
      refine ⟨hw₁, hn ▸ Nat.le_of_lt (List.flatOffset_add_lt hc hlt), ?_⟩
      rw [havc]
      exact .inside hf hit hsub hat
    · have hoff : List.flatOffset SS.elems cs (j + 1) = n := by
        rw [List.flatOffset_add_one hc, ← hk, hn]
      have hlt : j < cs.length := hj
      refine (hR.incr_ens (hav.mono hw₁) (hR.denotes_at hit) hj).bind fun it w₂ ⟨hw₂, hit⟩ => ?_
      refine (atEnd_ens hR (i := { i with it := it }) hf hit).bind fun b w₃ ⟨hw₃, hb⟩ => ?_
      subst hw₃ hb
      refine Comp.wp_ite (fun hlast => ?_) fun hlast => ?_
      · rw [hlast] at hit hoff
        refine Comp.wp_pure ⟨_, ?_, cs.length, 0, rfl, hw₁.trans hw₂, ?_, hoff⟩
        · omega
        · refine .past hf hit fun sub' hsub' => ?_
          obtain rfl := Option.some.inj (hsub.symm.trans hsub')
          exact ⟨c, _, hk ▸ hat⟩
      · refine (enter_ens hR hS (i := { i with it := it }) (hav.mono (hw₁.trans hw₂)) hf hit
          (Nat.lt_of_le_of_ne hj hlast)).bind fun i' w₄ ⟨hw₄, H⟩ => ?_
        refine Comp.wp_pure ⟨_, ?_, j + 1, 0, rfl, hw₁.trans (hw₂.trans hw₄), H, hoff⟩
        omega

theorem construct_ens {it : R.Iterator} {w : World} (hav : Old avoid w.next)
    (H : SR.At (this.field 0 range) ⟨avoid, w.next⟩ 0 it) :
    (construct it this : M (Iterator R S)).Ensures
      (fun i w' => w.next ≤ w'.next ∧ At SR SS this ⟨avoid, w'.next⟩ 0 i) w := by
  refine (atEnd_ens hR rfl H).bind fun b w₁ ⟨hw₁, hb⟩ => ?_
  subst hw₁ hb
  refine Comp.wp_ite (fun hj => ?_) fun hj => ?_
  · have hnil : SR.elems this.val.range = [] := List.eq_nil_of_length_eq_zero hj.symm
    have havc : locate SR SS this.val 0 = ((SR.elems this.val.range).length, 0) := by
      simp [locate, hnil, List.flatLocate]
    refine Comp.wp_pure ⟨Nat.le_refl _, Nat.zero_le _, ?_⟩
    rw [havc]
    exact .past rfl (hj ▸ H) fun _ h => absurd h (by simp)
  · have hpos : 0 < (SR.elems this.val.range).length := by
      simpa [Nat.pos_iff_ne_zero] using Ne.symm hj
    refine (enter_ens hR hS hav rfl H hpos).bind fun i w₂ h => ?_
    obtain ⟨hw₂, H⟩ := h
    have hoffset : List.flatOffset SS.elems (SR.elems this.val.range) 0 + 0 = 0 := by simp
    refine (bump_ens hR hS (hav.mono hw₂) H hoffset).wp fun i' w₃ h => ?_
    obtain ⟨hw₃, H⟩ := h
    exact ⟨hw₂.trans hw₃, H⟩

theorem Cursor.eq_ens {this' : Ref (Flatten ρ)} {a b : Iterator R S} {w : World}
    (H : Cursor SR SS this s j k a) (H' : Cursor SR SS this' s' j' k' b)
    (hval : this.val = this'.val) (hs : s.Apart s') : (a.eq b).Ensures
      (fun v w' => w' = w ∧ v = (decide ((j, k) = (j', k')) &&
        agreeAt SR SS (decide (this.addr = this'.addr)) this.val (j, k))) w := by
  obtain ⟨addr, r⟩ := this
  obtain ⟨addr', r'⟩ := this'
  cases hval
  have hit := hR.eq_ens (w := w) (H.it hR) (H'.it hR) rfl hs
  have hend := andM_ens (Flatten.atEnd_ens (w := w) hR H.flatten (H.it hR)) fun _ =>
    Flatten.atEnd_ens (w := w) hR H'.flatten (H'.it hR)
  cases H with
  | past =>
    cases H' with
    | past =>
      refine (orM_ens hend (y := true) fun h => absurd h (by simp)).wp fun v w' ⟨hw, hv⟩ => ⟨hw, ?_⟩
      simpa [agreeAt] using hv
    | inside _ hd =>
      have hj := Nat.ne_of_gt (Cursor.lt_length hR hd).2
      refine (orM_ens hend fun _ => andM_ens hit (y := true) fun h => absurd h ?_).wp
        fun v w' ⟨hw, hv⟩ => ⟨hw, ?_⟩
      · simp [hj]
      · simpa [hj, hj.symm] using hv
  | @inside _ c sub _ _ _ hd hsub hat =>
    obtain ⟨hc, hj⟩ := Cursor.lt_length hR hd
    cases H' with
    | past =>
      refine (orM_ens hend fun _ => andM_ens hit (y := true) fun h => absurd h ?_).wp
        fun v w' ⟨hw, hv⟩ => ⟨hw, ?_⟩
      · simp [hj.ne]
      · simpa [hj.ne] using hv
    | @inside _ c' sub' _ _ _ hd' hsub' hat' =>
      let y := decide (k = k') && SS.agree (SR.persist (decide (addr = addr')) r.range j) c.val k
      refine (orM_ens hend fun _ => andM_ens hit (y := y) fun h => ?_).wp
        fun v w' ⟨hw, hv⟩ => ⟨hw, ?_⟩
      · obtain rfl : j = j' := by simpa using (Bool.and_eq_true_iff.1 h).1
        have hcc : c.val = c'.val :=
          Option.some.inj (hc.symm.trans (Cursor.lt_length hR hd').1)
        rw [getSub_some hsub, getSub_some hsub']
        refine Comp.wp_bind (Comp.wp_pure (Comp.wp_bind (Comp.wp_pure ?_)))
        refine (hS.eq_ens hat hat' hcc hs).wp fun v w' ⟨hw, hv⟩ => ⟨hw, ?_⟩
        have haddr := hR.denotes_addr hd hd' rfl hs
        rw [hv, haddr]
        simp [y]
      · have hc' : (SR.elems r.range)[j]? = some c.val := hc
        have hne : j ≠ (SR.elems r.range).length := hj.ne
        rw [hv]
        simp only [agreeAt, hc', Prod.mk.injEq, Bool.decide_and, Ref.field_addr, Ref.field_val,
          Addr.field_inj, and_true, y, hne, decide_false, Bool.false_and, Bool.false_or]
        ac_rfl

end

theorem spec_sound (hR : SR.Sound) (hS : SS.Sound) : (spec SR SS).Sound where
  begin_ens hav := (hR.begin_ens hav).bind fun _ _ ⟨hw, hat⟩ =>
    (construct_ens hR hS (hav.mono hw) hat).wp fun _ _ ⟨hw', H⟩ => ⟨hw.trans hw', H⟩
  end_ens := by
    intro this w
    refine hR.end_ens.bind fun it w' ⟨hw, hat⟩ => ?_
    subst hw
    refine (atEnd_ens hR (i := ⟨it, none, this⟩) rfl (hat ⟨fun _ => True, 0⟩)).bind
      fun b w₁ ⟨hw₁, hb⟩ => ?_
    subst hw₁ hb
    refine Comp.wp_ite (fun _ => ?_) fun h => absurd rfl h
    refine Comp.wp_pure ⟨rfl, fun s => ⟨Nat.le_refl _, ?_⟩⟩
    rw [spec, locate_length]
    exact .past rfl (hat s) fun _ h => absurd h (by simp)
  eq_ens {this this' _ _ n n' _ _ _} H H' hval hs := by
    refine (Cursor.eq_ens hR hS H.cursor H'.cursor hval hs).wp fun v w' ⟨hw, hv⟩ => ⟨hw, ?_⟩
    have hle := H'.le
    rw [← hval] at hle hv
    rw [hv, spec, ← decide_eq_decide.2 (locate_inj H.le hle)]
  deref_ens {this avoid n i w} hav H hn := by
    obtain ⟨c, sub, hd, hsub, hat, hc, hk, -⟩ := H.exists_sub hR hn
    change i.deref.Ensures _ w
    rw [Iterator.deref_of_some hsub]
    refine (hS.deref_ens hav hat hk).bind fun r w' ⟨hw, hr⟩ => ?_
    exact Comp.wp_pure ⟨hw, H.le, H.cursor.flatten, c, r.1, hR.denotes_mono (.of_le hw) hd, rfl, hr⟩
  deref_denotes {this s n i x w} H := by
    obtain ⟨c, sub, hd, hsub, hx⟩ := H.sub
    change i.deref.Ensures _ w
    rw [Iterator.deref_of_some hsub]
    refine (hS.deref_denotes hx).bind fun r w' ⟨hw, hr⟩ => ?_
    subst hr
    exact Comp.wp_pure ⟨hw, by rw [← hsub]; rfl⟩
  deref_end {this s i w} H := by
    have hcur := H.cursor
    rw [spec, locate_length] at hcur
    change i.deref.wp _ _ w
    unfold Iterator.deref
    refine Comp.wp_bind ?_
    cases hi : i.sub with
    | none =>
      rw [getSub_none hi]
      exact Comp.wp_raise trivial
    | some sub =>
      obtain ⟨c, s', hat⟩ := hcur.sub_end hR sub hi
      rw [getSub_some hi]
      exact Comp.wp_pure (Comp.wp_bind ((hS.deref_end hat).imp fun _ _ h => h.elim))
  incr_ens {this avoid n i w} hav H hn := by
    obtain ⟨c, sub, hd, hsub, hat, hc, hk, hoff⟩ := H.exists_sub hR hn
    change i.incr.Ensures _ w
    rw [Iterator.incr_of_some hsub]
    refine (hS.incr_ens hav hat hk).bind fun sub' w' ⟨hw, hat'⟩ => ?_
    have hd' := hR.denotes_mono (.of_le hw) hd
    refine (bump_ens (i := { i with sub := some sub' }) hR hS (hav.mono hw)
      (.inside H.cursor.flatten hd' rfl hat') ?_).wp fun _ _ ⟨hw', H⟩ => ⟨hw.trans hw', H⟩
    omega
  at_mono hs H := ⟨H.le, H.cursor.mono hR hS hs⟩
  denotes_mono hs H := by
    obtain ⟨c, sub, hd, hsub, hx⟩ := H.sub
    exact ⟨H.le, H.flatten, c, sub, hR.denotes_mono hs hd, hsub, hS.denotes_mono hs hx⟩
  at_le H := H.le
  denotes_at H := by
    obtain ⟨c, sub, hd, hsub, hx⟩ := H.sub
    exact ⟨H.le, .inside H.flatten hd hsub (hS.denotes_at hx)⟩
  denotes_val {this s n i x} H := by
    obtain ⟨c, sub, hd, hsub, hx⟩ := H.sub
    obtain ⟨hc, hj⟩ := Cursor.lt_length hR hd
    have hk := (List.getElem?_eq_some_iff.1 (hS.denotes_val hx)).1
    have hlt : n < ((SR.elems this.val.range).flatMap SS.elems).length :=
      Nat.lt_of_le_of_ne H.le fun hn => Nat.ne_of_lt hj ((locate_fst_eq_length H.le).2 hn)
    obtain ⟨_, -, -, hoff⟩ := List.flatLocate_spec hlt
    have hval := List.getElem?_flatMap_offset hc hk
    rw [locate, ← hoff] at hval
    rw [spec, hval]
    exact hS.denotes_val hx
  denotes_addr {this this' s s' n i i' x x'} H H' hval hs := by
    obtain ⟨addr, r⟩ := this
    obtain ⟨addr', r'⟩ := this'
    cases hval
    obtain ⟨c, sub, hd, -, hx⟩ := H.sub
    obtain ⟨c', sub', hd', -, hx'⟩ := H'.sub
    have hc : (SR.elems r.range)[(locate SR SS r n).1]? = some c.val := (Cursor.lt_length hR hd).1
    have hcc : c.val = c'.val := Option.some.inj (hc.symm.trans (Cursor.lt_length hR hd').1)
    have haddr := hR.denotes_addr hd hd' rfl hs
    rw [hS.denotes_addr hx hx' hcc hs, haddr]
    simp [spec, persistAt, hc]
  agree_end r := by
    simp only [spec, locate_length]
    simp [agreeAt]

end Flatten

end LlvmSc

import LlvmSc.Query.Find

/-!
# Short-circuit queries

`all`, `any` and `none`, and what is done with the result of `find`. The predicates of the former
may have a state of their own, so that a theorem can say which elements they are asked about: for
every pipeline, those up to the first one that decides the answer, in order (`decides_yields`).
-/

namespace List

/-- How many elements a search passes, and the state of its predicate then. -/
def passes (pred : σ → α → Bool × σ) (s : σ) : List α → Nat × σ
  | [] => (0, s)
  | x :: xs =>
    if (pred s x).1 then (0, (pred s x).2)
    else ((passes pred (pred s x).2 xs).1 + 1, (passes pred (pred s x).2 xs).2)

variable {pred : σ → α → Bool × σ} {s : σ} {xs : List α}

/-- The predicate `p`, which records what it is asked about. -/
def recording (p : α → Bool) (asked : List α) (x : α) : Bool × List α := (p x, asked ++ [x])

/-- A predicate without a state of its own is asked about the elements up to the first that
satisfies it. -/
theorem passes_recording (p : α → Bool) (asked : List α) :
    xs.passes (recording p) asked = (xs.findIdx p, asked ++ xs.take (xs.findIdx p + 1)) := by
  induction xs generalizing asked with
  | nil => simp [passes]
  | cons x xs ih =>
    cases hp : p x with
    | true => simp [passes, recording, hp, findIdx_cons]
    | false => simp [passes, recording, ih, hp, findIdx_cons]

end List

namespace LlvmSc

variable {σ : Type}

/-! ## `all`, `any` and `none` -/

/-- One turn of the loop of `std::find_if`. -/
def findIfStep (O : RangeOps ρ α) (pred : σ → α → Bool × σ) (last : O.Iterator) :
    O.Iterator × σ → M (O.Iterator × σ ⊕ O.Iterator × σ)
  | (first, s) => do
    if ← O.eq first last then pure (.inr (last, s)) else do
      let (first, x) ← O.deref first
      let (found, s) := pred s x.val
      if found then pure (.inr (first, s)) else do
        pure (.inl (← O.incr first, s))

/-- `std::find_if( first, last, pred )`, and the state of `pred` then -/
def findIf (O : RangeOps ρ α) (first last : O.Iterator) (pred : σ → α → Bool × σ) (s : σ) :
    M (O.Iterator × σ) :=
  Comp.loop (findIfStep O pred last) (first, s)

/-- `std::none_of`: `find_if` arrives at the end. -/
def noneOf (O : RangeOps ρ α) (first last : O.Iterator) (pred : σ → α → Bool × σ) (s : σ) :
    M (Bool × σ) := do
  let (it, s) ← findIf O first last pred s
  pure (← O.eq it last, s)

/-- `std::any_of` -/
def anyOf (O : RangeOps ρ α) (first last : O.Iterator) (pred : σ → α → Bool × σ) (s : σ) :
    M (Bool × σ) := do
  let (b, s) ← noneOf O first last pred s
  pure (!b, s)

/-- `std::all_of`, which is `none_of` of the negation -/
def allOf (O : RangeOps ρ α) (first last : O.Iterator) (pred : σ → α → Bool × σ) (s : σ) :
    M (Bool × σ) :=
  noneOf O first last (fun s x => (!(pred s x).1, (pred s x).2)) s

namespace Query

variable (R : RangeOps ρ α) (this : Ref (Query ρ)) (pred : σ → α → Bool × σ) (s : σ)

def all : M (Bool × σ) := do
  let first ← R.begin (this.field 0 range)
  let last ← R.end_ (this.field 0 range)
  allOf R first last pred s

def any : M (Bool × σ) := do
  let first ← R.begin (this.field 0 range)
  let last ← R.end_ (this.field 0 range)
  anyOf R first last pred s

def none_ : M (Bool × σ) := do
  let first ← R.begin (this.field 0 range)
  let last ← R.end_ (this.field 0 range)
  noneOf R first last pred s

end Query

namespace RangeSpec.Sound

variable {O : RangeOps ρ α} {S : RangeSpec O} {this : Ref ρ} {pred : σ → α → Bool × σ}
  {it last : O.Iterator} {w : World}

theorem old_false (k : Nat) : Old (fun _ => False) k := fun _ h => h.elim

/-- A loop from `begin()` to `end()`. -/
theorem traverse_ens (h : S.Sound) {this : Ref ρ} {k : O.Iterator → O.Iterator → M β}
    {Q : β → World → Prop} {w : World}
    (hk : ∀ first last w', S.At this ⟨fun _ => False, w'.next⟩ 0 first →
      (∀ s, S.At this s (S.elems this.val).length last) → (k first last).Ensures Q w') :
    (do
      let first ← O.begin this
      let last ← O.end_ this
      k first last).Ensures Q w := by
  refine (h.begin_ens (old_false _)).bind fun first w₁ ⟨_, hat⟩ => ?_
  refine h.end_ens.bind fun last w₂ ⟨hw₂, hlast⟩ => ?_
  subst hw₂
  exact hk first last w₂ hat hlast

/-- From position `n`, the search stops behind the elements that it passes. -/
theorem findIf_ens (h : S.Sound) (hav : Old avoid w.next) (hat : S.At this ⟨avoid, w.next⟩ n it)
    (hlast : ∀ s, S.At this s (S.elems this.val).length last) (s : σ) :
    (findIf O it last pred s).Ensures (fun r w' =>
      S.At this ⟨avoid, w'.next⟩ (n + (((S.elems this.val).drop n).passes pred s).1) r.1 ∧
        r.2 = (((S.elems this.val).drop n).passes pred s).2) w := by
  -- what is left to pass from position `m` on ends where the whole search does
  refine Comp.wp_loop (fun k t w' => ∃ m, k = (S.elems this.val).length - m ∧
    w.next ≤ w'.next ∧ S.At this ⟨avoid, w'.next⟩ m t.1 ∧
    m + (((S.elems this.val).drop m).passes pred t.2).1 =
      n + (((S.elems this.val).drop n).passes pred s).1 ∧
    (((S.elems this.val).drop m).passes pred t.2).2 =
      (((S.elems this.val).drop n).passes pred s).2) ?_ ⟨n, rfl, Nat.le_refl _, hat, rfl, rfl⟩
  rintro k ⟨it, s'⟩ w₁ ⟨m, rfl, hw₁, hat, hpos, hstate⟩
  refine (h.eq_end hat hlast).bind fun b w₂ ⟨hw₂, hb⟩ => ?_
  subst hw₂ hb
  refine Comp.wp_ite (fun hm => ?_) fun hm => ?_
  · subst hm
    simp only [List.drop_length, List.passes] at hpos hstate
    exact Comp.wp_pure ⟨hpos ▸ hlast _, hstate⟩
  · have hlt : m < (S.elems this.val).length := Nat.lt_of_le_of_ne (h.at_le hat) hm
    refine (h.deref_ens (hav.mono hw₁) hat hlt).bind fun r w₃ ⟨hw₃, hr⟩ => ?_
    obtain ⟨_, hx⟩ := List.getElem?_eq_some_iff.1 (h.denotes_val hr)
    rw [List.drop_eq_getElem_cons hlt, hx] at hpos hstate
    simp only [List.passes] at hpos hstate
    cases hp : (pred s' r.2.val).1 with
    | true =>
      simp only [hp, if_true, Nat.add_zero] at hpos hstate
      simp only [hp, if_true]
      exact Comp.wp_pure ⟨hpos ▸ h.denotes_at hr, hstate⟩
    | false =>
      simp only [hp, Bool.false_eq_true, if_false] at hpos hstate
      simp only [hp]
      refine (h.incr_ens (hav.mono (hw₁.trans hw₃)) (h.denotes_at hr) hlt).bind
        fun it w₄ ⟨hw₄, hit⟩ => ?_
      refine Comp.wp_pure ⟨_, ?_, m + 1, rfl, hw₁.trans (hw₃.trans hw₄), hit, ?_, hstate⟩
      · omega
      · exact (Nat.succ_add_eq_add_succ m _).trans hpos

theorem noneOf_ens (h : S.Sound) (pred : σ → α → Bool × σ) (hav : Old avoid w.next)
    (hat : S.At this ⟨avoid, w.next⟩ 0 it)
    (hlast : ∀ s, S.At this s (S.elems this.val).length last) (s : σ) :
    (noneOf O it last pred s).Ensures (fun r _ =>
      r = (decide (((S.elems this.val).passes pred s).1 = (S.elems this.val).length),
        ((S.elems this.val).passes pred s).2)) w := by
  refine (h.findIf_ens hav hat hlast s).bind fun r w₁ ⟨hr, hstate⟩ => ?_
  rw [List.drop_zero, Nat.zero_add] at hr
  refine (h.eq_end hr hlast).bind fun b w₂ ⟨_, hb⟩ => ?_
  exact Comp.wp_pure (Prod.ext hb hstate)

end RangeSpec.Sound

namespace Query

section
variable (R : RangeType ρ α) (this : Ref (Query ρ)) (pred : σ → α → Bool × σ) (s : σ) (w : World)

theorem none_ens : (none_ R.ops this pred s).Ensures (fun r _ =>
    r = (decide (((this.val.elems R).passes pred s).1 = (this.val.elems R).length),
      ((this.val.elems R).passes pred s).2)) w := by
  refine R.spec_sound.traverse_ens fun first last w' hat hlast => ?_
  have hnone := R.spec_sound.noneOf_ens pred (RangeSpec.Sound.old_false _) hat hlast s
  rw [RangeType.spec_elems] at hnone
  exact hnone

theorem any_ens : (any R.ops this pred s).Ensures (fun r _ =>
    r = (!decide (((this.val.elems R).passes pred s).1 = (this.val.elems R).length),
      ((this.val.elems R).passes pred s).2)) w := by
  refine R.spec_sound.traverse_ens fun first last w' hat hlast => ?_
  have hnone := R.spec_sound.noneOf_ens pred (RangeSpec.Sound.old_false _) hat hlast s
  rw [RangeType.spec_elems] at hnone
  refine hnone.bind fun r w'' hr => ?_
  subst hr
  exact Comp.wp_pure rfl

end

/-- For every pipeline, `all`, `any` and `none` give the right answer and ask their predicate about
the elements up to the first one that decides it, once each and in order. -/
theorem decides_yields (R : RangeType ρ α) (this : Ref (Query ρ)) (p : α → Bool) (w : World) :
    (∃ w', (any R.ops this (List.recording p) []).Yields w
      (.done ((this.val.elems R).any p,
        (this.val.elems R).take ((this.val.elems R).findIdx p + 1)) w')) ∧
    (∃ w', (none_ R.ops this (List.recording p) []).Yields w
      (.done (!(this.val.elems R).any p,
        (this.val.elems R).take ((this.val.elems R).findIdx p + 1)) w')) ∧
    ∃ w', (all R.ops this (List.recording p) []).Yields w
      (.done ((this.val.elems R).all p,
        (this.val.elems R).take ((this.val.elems R).findIdx (fun x => !p x) + 1)) w') := by
  have hdecide (p : α → Bool) : decide ((this.val.elems R).findIdx p = (this.val.elems R).length) =
      !(this.val.elems R).any p := by
    rw [Bool.eq_iff_iff]
    simp [List.findIdx_eq_length]
  refine ⟨?_, ?_, ?_⟩
  · obtain ⟨r, w', hyields, rfl⟩ := (any_ens R this (List.recording p) [] w).yields
    rw [List.passes_recording, hdecide, Bool.not_not] at hyields
    exact ⟨w', hyields⟩
  · obtain ⟨r, w', hyields, rfl⟩ := (none_ens R this (List.recording p) [] w).yields
    rw [List.passes_recording, hdecide] at hyields
    exact ⟨w', hyields⟩
  · obtain ⟨r, w', hyields, rfl⟩ := (none_ens R this (List.recording fun x => !p x) [] w).yields
    rw [List.passes_recording, hdecide, ← List.all_eq_not_any_not] at hyields
    exact ⟨w', hyields⟩

end Query

/-! ## Results of searches -/

section
variable (O : RangeOps ρ α) (r : FindResult O.Iterator)

def FindResult.getOr (x : α) : M α := do
  if r.found then pure (← r.get O).val else pure x

/-- `Query::FindMapResult` -/
structure FindMapResult (ι α β : Type) where
  find : FindResult ι
  map : α → β

variable {O} in
def FindResult.map (fn : α → β) : FindMapResult O.Iterator α β := ⟨r, fn⟩

variable (m : FindMapResult O.Iterator α β)

def FindMapResult.get : M β := do pure (m.map (← m.find.get O).val)

def FindMapResult.getOr (x : β) : M β := if m.find.found then m.get O else pure x

end

namespace Query

section
variable (R : RangeOps ρ α) (this : Ref (Query ρ))

def empty : M Bool := do
  let first ← (ops R).begin this
  let last ← (ops R).end_ this
  (ops R).eq first last

/-- `begin()` is called once in `empty`, once for `std::next`, and once for the result. -/
def singleton : M (FindResult (ops R).Iterator) := do
  if ← andM (do pure (!(← empty R this))) (do
      let next ← (ops R).incr (← (ops R).begin this)
      (ops R).eq next (← (ops R).end_ this)) then
    pure ⟨← (ops R).begin this, 0, true⟩
  else pure ⟨← (ops R).end_ this, -1, false⟩

end

section
variable (R : RangeType ρ α) (this : Ref (Query ρ)) (w : World)

theorem find_gets (p : α → Bool) : (find R.query.ops this p).Ensures (fun r w' =>
    (r.found = true → ∃ x, (this.val.elems R).find? p = some x ∧ r.Gets R.query.ops x w') ∧
    (r.found = false → (this.val.elems R).find? p = Option.none)) w := by
  have h := R.query.spec_sound
  refine (h.find_ens p (RangeSpec.Sound.old_false _)).wp fun r w' ⟨_, hr⟩ => ?_
  have hfound := h.searched_found hr (.inr (h.agree_end _))
  rw [RangeType.spec_elems] at hfound
  rw [List.find?_eq_getElem?_findIdx]
  constructor
  · intro hf
    obtain ⟨-, x, hx, hgets⟩ := h.searched_gets hr hf w'
    rw [RangeType.spec_elems] at hx
    exact ⟨x, hx, hgets⟩
  · intro hf
    rw [hf] at hfound
    exact List.getElem?_eq_none (Nat.le_of_not_lt fun hlt => Bool.false_ne_true (hfound.2 hlt))

/-- What `getOr` does, with a function that is applied to what is found. -/
theorem getOr_ens (p : α → Bool) (fn : α → β) (y : β) :
    (do
      let r ← find R.query.ops this p
      if r.found then pure (fn (← r.get R.query.ops).val) else pure y : M β).Ensures
      (fun out _ => out = (((this.val.elems R).find? p).map fn).getD y) w := by
  refine (find_gets R this w p).bind fun r w' ⟨hsome, hnone⟩ => ?_
  cases hf : r.found with
  | true =>
    obtain ⟨v, hv, hgets⟩ := hsome hf
    refine hgets.bind fun z w'' hz => Comp.wp_pure ?_
    rw [hv, hz]
    rfl
  | false =>
    rw [hnone hf]
    exact Comp.wp_pure rfl

/-- What is found is returned, or mapped, and otherwise the default is. -/
theorem find_getOr_yields (p : α → Bool) (x : α) (fn : α → β) (y : β) :
    (∃ w', (do let r ← find R.query.ops this p; r.getOr R.query.ops x : M α).Yields w
      (.done (((this.val.elems R).find? p).getD x) w')) ∧
    ∃ w', (do let r ← find R.query.ops this p; (r.map fn).getOr R.query.ops y : M β).Yields w
      (.done ((((this.val.elems R).find? p).map fn).getD y) w') := by
  obtain ⟨z, w', hyields, hz⟩ := (getOr_ens R this w p id x).yields
  obtain ⟨_, w'', hyields', rfl⟩ := (getOr_ens R this w p fn y).yields
  rw [Option.map_id_fun, id] at hz
  subst hz
  exact ⟨⟨w', hyields⟩, ⟨w'', hyields'⟩⟩

theorem empty_ens : (empty R.ops this).Ensures
    (fun b _ => b = decide ((this.val.elems R).length = 0)) w := by
  have h := R.query.spec_sound
  refine h.traverse_ens fun first last w' hat hlast => ?_
  refine (h.eq_end hat hlast).wp fun b w'' ⟨_, hb⟩ => ?_
  simp only [hb, RangeType.spec_elems, eq_comm]

/-- `std::next( begin() ) == end()`, where there is an element -/
theorem next_ens (hlen : 0 < (this.val.elems R).length) :
    (do
      let next ← R.query.ops.incr (← R.query.ops.begin this)
      R.query.ops.eq next (← R.query.ops.end_ this) : M Bool).Ensures
      (fun b _ => b = decide ((this.val.elems R).length = 1)) w := by
  have h := R.query.spec_sound
  have hlt : 0 < (R.query.spec.elems this.val).length := by
    rw [RangeType.spec_elems]
    exact hlen
  refine (h.begin_ens (RangeSpec.Sound.old_false _)).bind fun first w₁ ⟨_, hat⟩ => ?_
  refine (h.incr_ens (RangeSpec.Sound.old_false _) hat hlt).bind fun next w₂ ⟨_, hat⟩ => ?_
  refine (h.atEnd hat).wp fun b w₃ ⟨_, hb⟩ => ?_
  simp only [hb, RangeType.spec_elems, eq_comm]

/-- The condition of `singleton` -/
theorem length_one_ens : (andM (do pure (!(← empty R.ops this))) (do
    let next ← R.query.ops.incr (← R.query.ops.begin this)
    R.query.ops.eq next (← R.query.ops.end_ this))).Ensures
    (fun b _ => b = decide ((this.val.elems R).length = 1)) w := by
  refine Comp.Ensures.bind (R := fun b _ => b = !decide ((this.val.elems R).length = 0))
    ((empty_ens R this w).bind fun b w' hb => Comp.wp_pure (by rw [hb])) fun b w' hb => ?_
  cases hlen : (this.val.elems R).length with
  | zero =>
    simp only [hb, hlen]
    exact Comp.wp_pure (by simp)
  | succ n =>
    simp only [hb, hlen]
    have hnext := next_ens R this w' (by omega)
    rw [hlen] at hnext
    exact hnext

theorem singleton_ens : (singleton R.ops this).Ensures (fun r w' =>
    r.found = decide ((this.val.elems R).length = 1) ∧ (r.pos = if r.found then 0 else -1) ∧
      ∀ x, this.val.elems R = [x] → r.Gets R.query.ops x w') w := by
  have h := R.query.spec_sound
  refine (length_one_ens R this w).bind fun b w' hb => ?_
  cases b with
  | true =>
    have hlen := of_decide_eq_true hb.symm
    refine (h.begin_ens (RangeSpec.Sound.old_false _)).bind fun it w'' ⟨_, hat⟩ => ?_
    refine Comp.wp_pure ⟨hb, rfl, fun x hx => ?_⟩
    have hlt : 0 < (R.query.spec.elems this.val).length := by
      rw [RangeType.spec_elems]
      exact hlen ▸ Nat.one_pos
    refine (h.deref_ens (RangeSpec.Sound.old_false _) hat hlt).bind fun r w₃ ⟨_, hr⟩ => ?_
    have hval := h.denotes_val hr
    rw [RangeType.spec_elems] at hval
    change (this.val.elems R)[0]? = _ at hval
    rw [hx] at hval
    exact Comp.wp_pure (Option.some.inj hval).symm
  | false =>
    refine h.end_ens.bind fun it w'' ⟨_, _⟩ => ?_
    refine Comp.wp_pure ⟨hb, rfl, fun x hx => ?_⟩
    simp [hx] at hb

/-- `singleton` finds the element of a pipeline that has exactly one. -/
theorem singleton_yields : ∃ r w', (singleton R.ops this).Yields w (.done r w') ∧
    (r.found = true ↔ ∃ x, this.val.elems R = [x]) ∧
    (r.pos = if r.found then 0 else -1) ∧
    ∀ x, this.val.elems R = [x] → r.Gets R.query.ops x w' := by
  obtain ⟨r, w', hyields, hfound, hpos, hgets⟩ := (singleton_ens R this w).yields
  refine ⟨r, w', hyields, ?_, hpos, hgets⟩
  rw [hfound, decide_eq_true_iff, List.length_eq_one_iff]

end

end Query
end LlvmSc

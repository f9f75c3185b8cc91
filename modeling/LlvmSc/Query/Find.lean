import LlvmSc.Query.Pipeline

/-!
# `find` and `findBefore`

`findBefore` stops its traversal at an iterator that another traversal has returned. Whether the
two compare equal where they stand at the same position is what `RangeType.agree` computes; where
they do not, the traversal runs past the bound.
-/

namespace List

theorem le_findIdx_step {l : List α} {p : α → Bool} {m : Nat} (hx : l[m]? = some x)
    (hle : m ≤ l.findIdx p) : if p x then l.findIdx p = m else m + 1 ≤ l.findIdx p := by
  obtain ⟨hm, rfl⟩ := getElem?_eq_some_iff.1 hx
  have hlow : ∀ j (hj : j < m), p (l.get ⟨j, hj.trans hm⟩) = false :=
    fun j hj => not_of_lt_findIdx (hj.trans_le hle)
  split
  next hp => exact (findIdx_eq hm).2 ⟨hp, hlow⟩
  next hp =>
    refine Nat.succ_le_of_lt ((lt_findIdx_iff l p m).2 ⟨hm, fun j hj => ?_⟩)
    cases Nat.lt_or_eq_of_le hj with
    | inl hj => exact hlow j hj
    | inr hj => simpa [hj] using hp

/-- Some `p` stands strictly before every `q` iff the first `p` stands before the first `q`. -/
theorem findIdx_lt_findIdx {l : List α} {p q : α → Bool} :
    l.findIdx p < l.findIdx q ↔ ∃ (i : Nat) (x : α), l[i]? = some x ∧ p x = true ∧
      ∀ j ≤ i, ∀ y, l[j]? = some y → q y = false := by
  constructor
  · intro h
    obtain ⟨hi, hq⟩ := (lt_findIdx_iff l q _).1 h
    refine ⟨l.findIdx p, _, getElem?_eq_getElem hi, findIdx_getElem, fun j hj y hy => ?_⟩
    obtain ⟨_, rfl⟩ := getElem?_eq_some_iff.1 hy
    exact hq j hj
  · rintro ⟨i, x, hx, hp, hq⟩
    obtain ⟨hi, rfl⟩ := getElem?_eq_some_iff.1 hx
    have hiq : i < l.findIdx q :=
      (lt_findIdx_iff l q i).2 ⟨hi, fun j hj => hq j hj _ (getElem?_eq_getElem _)⟩
    have hpi : l.findIdx p ≤ i := by
      by_contra h
      simp [not_of_lt_findIdx (Nat.lt_of_not_le h)] at hp
    exact Nat.lt_of_le_of_lt hpi hiq

end List

namespace LlvmSc

/-- `Query::FindResult`. The position counts the elements of a traversal, so it does not overflow
`long`. -/
structure FindResult (ι : Type) where
  iter : ι
  pos : Int
  found : Bool

def FindResult.get (O : RangeOps ρ α) (r : FindResult O.Iterator) : M (Ref α) := do
  let (_, x) ← O.deref r.iter
  pure x

namespace Query

variable (O : RangeOps ρ α) (this : Ref ρ)

/-- One turn of the loop of `find`, which ends with the result. -/
def findStep (pred : α → Bool) (e : O.Iterator) :
    O.Iterator × Int → M (O.Iterator × Int ⊕ FindResult O.Iterator)
  | (i, pos) => do
    if ← O.eq i e then pure (.inr ⟨← O.end_ this, -1, false⟩) else do
      let (i, x) ← O.deref i
      if pred x.val then pure (.inr ⟨i, pos, true⟩) else do
        pure (.inl (← O.incr i, pos + 1))

/-- `find( pred, i, e )` -/
def findFrom (pred : α → Bool) (i e : O.Iterator) : M (FindResult O.Iterator) :=
  Comp.loop (findStep O this pred e) (i, 0)

/-- `find( pred )` -/
def find (pred : α → Bool) : M (FindResult O.Iterator) := do
  let i ← O.begin this
  let e ← O.end_ this
  findFrom O this pred i e

/-- The compiler chooses which argument of `find( what, begin(), find( before ).iter )` is evaluated
first; `beginFirst` is its choice. -/
def findBefore (beginFirst : Bool) (what before : α → Bool) : M (FindResult O.Iterator) :=
  if beginFirst then do
    let i ← O.begin this
    let e ← find O this before
    findFrom O this what i e.iter
  else do
    let e ← find O this before
    let i ← O.begin this
    findFrom O this what i e.iter

end Query

/-- The result of a search for `pred` whose bound is at position `j`. -/
def Searched {O : RangeOps ρ α} (S : RangeSpec O) (this : Ref ρ) (pred : α → Bool) (j : Nat)
    (s : Span) (r : FindResult O.Iterator) : Prop :=
  if r.found then r.pos = (S.elems this.val).findIdx pred ∧
      (S.agree true this.val j = true → (S.elems this.val).findIdx pred < j) ∧
      ∃ x, S.Denotes this s ((S.elems this.val).findIdx pred) r.iter x
  else r.pos = -1 ∧ j ≤ (S.elems this.val).findIdx pred ∧ S.agree true this.val j = true ∧
    ∀ s, S.At this s (S.elems this.val).length r.iter

/-- Nothing stops a search for `pred` whose bound is at position `j`. -/
def Overrun {O : RangeOps ρ α} (S : RangeSpec O) (this : Ref ρ) (pred : α → Bool) (j : Nat) : Prop :=
  (S.elems this.val).findIdx pred = (S.elems this.val).length ∧ S.agree true this.val j = false

namespace RangeSpec.Sound

variable {O : RangeOps ρ α} {S : RangeSpec O} {this : Ref ρ} {pred : α → Bool} {i e : O.Iterator}
  {w : World}

/-- A turn of the loop at position `n`, with the bound at position `j`: the loop stops if `n` is `j`
and the iterators agree there, and dereferences past the end if the elements are used up. -/
theorem findStep_wp (h : S.Sound) (hav : Old avoid w.next) (hat : S.At this ⟨avoid, w.next⟩ n i)
    (he : S.At this s j e) (hs : ∀ k, Span.Apart ⟨avoid, k⟩ s) :
    (Query.findStep O this pred e (i, pos)).wp (fun r w' => w.next ≤ w'.next ∧
      Sum.elim (fun t => S.At this ⟨avoid, w'.next⟩ (n + 1) t.1 ∧ t.2 = pos + 1 ∧
          (n = j → S.agree true this.val j = false) ∧
          ∃ x, (S.elems this.val)[n]? = some x ∧ pred x = false)
        (fun r => if r.found then r.pos = pos ∧ (n = j → S.agree true this.val j = false) ∧
            ∃ x, S.Denotes this ⟨avoid, w'.next⟩ n r.iter x ∧ pred x.val = true
          else r.pos = -1 ∧ n = j ∧ S.agree true this.val j = true ∧
            ∀ s, S.At this s (S.elems this.val).length r.iter) r)
      (fun _ => n = (S.elems this.val).length ∧ (n = j → S.agree true this.val j = false)) w := by
  refine (h.eq_ens hat he rfl (hs _)).bind fun b w₁ ⟨hw₁, hb⟩ => ?_
  subst hw₁
  cases b with
  | true =>
    simp only [decide_true, Bool.true_eq, Bool.and_eq_true, decide_eq_true_eq] at hb
    obtain ⟨rfl, hagree⟩ := hb
    refine h.end_ens.bind fun e' w₂ ⟨hw₂, he'⟩ => ?_
    exact Comp.wp_pure ⟨hw₂ ▸ Nat.le_refl _, rfl, rfl, hagree, he'⟩
  | false =>
    have hgo : n = j → S.agree true this.val j = false := by
      rintro rfl
      simpa using hb
    cases Nat.eq_or_lt_of_le (h.at_le hat) with
    | inl hn =>
      subst hn
      exact Comp.wp_bind ((h.deref_end hat).imp' (fun _ _ hF => hF.elim) fun _ _ => ⟨rfl, hgo⟩)
    | inr hlt =>
      refine (h.deref_ens hav hat hlt).bind fun r w₂ ⟨hw₂, hr⟩ => ?_
      by_cases hp : pred r.2.val = true
      · simp only [hp, if_true]
        exact Comp.wp_pure ⟨hw₂, rfl, hgo, r.2, hr, hp⟩
      · simp only [hp]
        refine (h.incr_ens (hav.mono hw₂) (h.denotes_at hr) hlt).bind fun it w₃ ⟨hw₃, hit⟩ => ?_
        exact Comp.wp_pure ⟨hw₂.trans hw₃, hit, rfl, hgo, _, h.denotes_val hr, by simpa using hp⟩

/-- With the bound at position `j`, the first element that satisfies `pred` is found unless the
loop stops before it. -/
theorem findFrom_wp (h : S.Sound) (hav : Old avoid w.next) (hat : S.At this ⟨avoid, w.next⟩ 0 i)
    (he : S.At this s j e) (hs : ∀ k, Span.Apart ⟨avoid, k⟩ s) :
    (Query.findFrom O this pred i e).wp
      (fun r w' => w.next ≤ w'.next ∧ Searched S this pred j ⟨avoid, w'.next⟩ r)
      (fun _ => Overrun S this pred j) w := by
  have hj := h.at_le he
  have hf : (S.elems this.val).findIdx pred ≤ (S.elems this.val).length := List.findIdx_le_length
  -- no element before position `m` satisfies `pred`, and the loop has not gone past its bound
  refine Comp.wp_loop (fun k t w' => ∃ m : Nat, k = (S.elems this.val).length - m ∧
    w.next ≤ w'.next ∧ S.At this ⟨avoid, w'.next⟩ m t.1 ∧ t.2 = (m : Int) ∧
    m ≤ (S.elems this.val).findIdx pred ∧ (S.agree true this.val j = true → m ≤ j)) ?_
    ⟨0, rfl, Nat.le_refl _, hat, rfl, Nat.zero_le _, fun _ => Nat.zero_le _⟩
  rintro k ⟨it, pos⟩ w₁ ⟨m, rfl, hw₁, hat, rfl, hm, hmj⟩
  have hlt (hgo : m = j → S.agree true this.val j = false) (hagree : S.agree true this.val j = true) :
      m < j := by
    refine Nat.lt_of_le_of_ne (hmj hagree) fun hmj => ?_
    simp [hgo hmj] at hagree
  refine (h.findStep_wp (hav.mono hw₁) hat he hs).imp' ?_ ?_
  · rintro r w₂ ⟨hw₂, hr⟩
    cases r with
    | inl t =>
      obtain ⟨hat', hpos, hgo, x, hx, hp⟩ := hr
      have hm' := (List.getElem?_eq_some_iff.1 hx).1
      have hnext := List.le_findIdx_step hx hm
      simp only [hp, Bool.false_eq_true, if_false] at hnext
      exact ⟨_, by omega, m + 1, rfl, hw₁.trans hw₂, hat', hpos, hnext, hlt hgo⟩
    | inr r =>
      refine ⟨hw₁.trans hw₂, ?_⟩
      simp only [Sum.elim_inr] at hr
      split at hr
      next hfound =>
        obtain ⟨hpos, hgo, x, hx, hp⟩ := hr
        have hfirst := List.le_findIdx_step (h.denotes_val hx) hm
        rw [if_pos hp] at hfirst
        rw [Searched, if_pos hfound, hfirst]
        exact ⟨hpos, hlt hgo, x, hx⟩
      next hfound =>
        obtain ⟨hpos, rfl, hagree, hend⟩ := hr
        rw [Searched, if_neg hfound]
        exact ⟨hpos, hm, hagree, hend⟩
  · rintro _ ⟨rfl, hgo⟩
    refine ⟨Nat.le_antisymm hf hm, ?_⟩
    cases hagree : S.agree true this.val j with
    | false => rfl
    | true => exact absurd (hlt hgo hagree) (Nat.not_lt.2 hj)

/-- The bound `end()` is never overrun. -/
theorem find_ens (h : S.Sound) (pred : α → Bool) (hav : Old avoid w.next) :
    (Query.find O this pred).Ensures (fun r w' => w.next ≤ w'.next ∧
      Searched S this pred (S.elems this.val).length ⟨avoid, w'.next⟩ r) w := by
  refine (h.begin_ens hav).bind fun i w₁ ⟨hw₁, hat⟩ => ?_
  refine h.end_ens.bind fun e w₂ ⟨hw₂, he⟩ => ?_
  subst hw₂
  refine (h.findFrom_wp (s := ⟨fun _ => True, 0⟩) (hav.mono hw₁) hat (he _)
    fun k a _ H => H.1 trivial).imp' ?_ ?_
  · rintro r w₃ ⟨hw₃, hr⟩
    exact ⟨hw₁.trans hw₃, hr⟩
  · rintro _ ⟨-, hagree⟩
    simp [h.agree_end this.val] at hagree

/-- Where the iterator of a result stands. -/
theorem searched_at (h : S.Sound) {r : FindResult O.Iterator}
    (hr : Searched S this pred (S.elems this.val).length s r) :
    S.At this s ((S.elems this.val).findIdx pred) r.iter := by
  rw [Searched] at hr
  split at hr
  · obtain ⟨-, -, x, hx⟩ := hr
    exact h.denotes_at hx
  · obtain ⟨-, hle, -, hat⟩ := hr
    rw [Nat.le_antisymm List.findIdx_le_length hle]
    exact hat s

/-- The bound of `findBefore` is at the first element that satisfies `before`. -/
theorem findBefore_wp (h : S.Sound) (this : Ref ρ) (beginFirst : Bool) (what before : α → Bool) :
    (Query.findBefore O this beginFirst what before).wp
      (fun r _ => ∃ s, Searched S this what ((S.elems this.val).findIdx before) s r)
      (fun _ => Overrun S this what ((S.elems this.val).findIdx before)) w := by
  have hav : Old (fun _ => False) w.next := fun _ h => h.elim
  cases beginFirst with
  | true =>
    refine (h.begin_ens hav).bind fun i w₁ ⟨hw₁, hat⟩ => ?_
    have hav₁ : Old (· < w₁.next) w₁.next := fun _ h => h
    refine (h.find_ens before hav₁).bind fun e w₂ ⟨hw₂, he⟩ => ?_
    -- the identities taken between are those of the other traversal
    have hsub : Span.Sub ⟨fun _ => False, w₁.next⟩
        ⟨fun k => w₁.next ≤ k ∧ k < w₂.next, w₂.next⟩ :=
      fun a H => ⟨fun H' => Nat.not_lt.2 H'.1 H.2, H.2.trans_le hw₂⟩
    refine (h.findFrom_wp (fun _ H => H.2) (h.at_mono hsub hat) (h.searched_at he) ?_).imp
      fun r w₃ ⟨_, hr⟩ => ⟨_, hr⟩
    exact fun k a H H' => H.1 ⟨Nat.le_of_not_lt H'.1, H'.2⟩
  | false =>
    refine (h.find_ens before hav).bind fun e w₁ ⟨hw₁, he⟩ => ?_
    have hav₁ : Old (· < w₁.next) w₁.next := fun _ h => h
    refine (h.begin_ens hav₁).bind fun i w₂ ⟨hw₂, hat⟩ => ?_
    refine (h.findFrom_wp (hav₁.mono hw₂) hat (h.searched_at he) ?_).imp
      fun r w₃ ⟨_, hr⟩ => ⟨_, hr⟩
    exact fun k a H H' => H.1 H'.2

end RangeSpec.Sound
/-! ## When `findBefore` is right -/

/-- `get()` returns the value `x`. -/
def FindResult.Gets (O : RangeOps ρ α) (r : FindResult O.Iterator) (x : α) (w : World) : Prop :=
  (r.get O).Ensures (fun y _ => y.val = x) w

namespace RangeSpec.Sound

variable {O : RangeOps ρ α} {S : RangeSpec O} {this : Ref ρ} {pred : α → Bool}

theorem searched_gets (h : S.Sound) {r : FindResult O.Iterator} (hr : Searched S this pred j s r)
    (hfound : r.found = true) (w : World) : r.pos = (S.elems this.val).findIdx pred ∧
      ∃ x, (S.elems this.val)[(S.elems this.val).findIdx pred]? = some x ∧ r.Gets O x w := by
  rw [Searched, if_pos hfound] at hr
  obtain ⟨hpos, -, x, hx⟩ := hr
  refine ⟨hpos, x.val, h.denotes_val hx, ?_⟩
  refine (h.deref_denotes hx).bind fun y w' ⟨_, hy⟩ => ?_
  subst hy
  exact Comp.wp_pure rfl

/-- An element is found iff one stands before the bound, if the bound stops the search. -/
theorem searched_found (_ : S.Sound) {r : FindResult O.Iterator} (hr : Searched S this pred j s r)
    (hj : (S.elems this.val).findIdx pred < j ∨ S.agree true this.val j = true) :
    r.found = true ↔ (S.elems this.val).findIdx pred < j := by
  rw [Searched] at hr
  split at hr
  next hfound =>
    obtain ⟨-, hlt, -⟩ := hr
    exact ⟨fun _ => hj.elim id hlt, fun _ => hfound⟩
  next hfound =>
    obtain ⟨-, hle, -⟩ := hr
    exact ⟨fun h => absurd h hfound, fun h => absurd h (Nat.not_lt.2 hle)⟩

end RangeSpec.Sound

/-- `agree r n`: the iterators of two traversals of `r` compare equal at position `n`. They do not
if a `flatten` has entered a container there that a function returned during the traversal. -/
def RangeType.agree (R : RangeType ρ α) (r : ρ) (n : Nat) : Bool := R.spec.agree true r n

/-- No `flatten` is part of the pipeline. -/
def RangeType.flattenFree : RangeType ρ α → Bool
  | vector _ | range _ => true
  | map R _ | filter R | query R => R.flattenFree
  | flatten _ _ => false
  | append R₁ R₂ => R₁.flattenFree && R₂.flattenFree

theorem RangeType.agree_of_flattenFree {R : RangeType ρ α} (h : R.flattenFree = true) (r : ρ)
    (n : Nat) : R.agree r n = true := by
  induction R generalizing n with
  | vector | range => rfl
  | map R β ih => exact ih h r.range n
  | filter R ih => exact ih h r.range _
  | query R ih => exact ih h r.range n
  | flatten => cases h
  | append R₁ R₂ ih₁ ih₂ =>
    rw [flattenFree, Bool.and_eq_true] at h
    change Append.agree R₁.spec R₂.spec true r n = true
    rw [Append.agree]
    split
    · rw [Bool.and_eq_true]
      exact ⟨ih₁ h.1 r.range1 n, ih₂ h.2 r.range2 0⟩
    · exact ih₂ h.2 r.range2 _

/-- The containers of a `concatMap` are new in every traversal. -/
theorem RangeType.agree_concatMap {R : RangeType ρ α} {q : Query ρ} {fn : α → List β}
    (h : n < ((q.concatMap fn).elems ((R.map (List β)).flatten (.vector β))).length) :
    ((R.map (List β)).flatten (.vector β)).agree (q.concatMap fn).range n = false := by
  have hlt : n < ((((R.map (List β)).spec.elems (q.map fn).range)).flatMap
      (RangeType.vector β).spec.elems).length := by
    rw [spec_elems, spec_elems]
    exact h
  obtain ⟨c, hc, -⟩ := List.flatLocate_spec hlt
  exact (Flatten.agreeAt_some (r := (q.concatMap fn).range) hc).trans (Bool.and_false _)

namespace Query

/-- What `findBefore( what, before )` is for: to find the first element that satisfies `what`, but
only strictly before the first element that satisfies `before`. -/
def FindsBefore (R : RangeType ρ α) (this : Ref (Query ρ)) (beginFirst : Bool)
    (what before : α → Bool) (w : World) : Prop :=
  ∃ r w', (findBefore R.query.ops this beginFirst what before).Yields w (.done r w') ∧
    (r.found = true ↔ ∃ (i : Nat) (x : α), (this.val.elems R)[i]? = some x ∧ what x = true ∧
      ∀ j ≤ i, ∀ y, (this.val.elems R)[j]? = some y → before y = false) ∧
    (r.found = true → r.pos = (this.val.elems R).findIdx what ∧
      ∃ x, (this.val.elems R)[(this.val.elems R).findIdx what]? = some x ∧
        r.Gets R.query.ops x w') ∧
    ((∀ x ∈ this.val.elems R, before x = false) →
      ∃ r' w'', (find R.query.ops this what).Yields w (.done r' w'') ∧
        r.found = r'.found ∧ r.pos = r'.pos ∧
        (r.found = true → ∃ x, r.Gets R.query.ops x w' ∧ r'.Gets R.query.ops x w''))

section
variable {R : RangeType ρ α} {this : Ref (Query ρ)} {beginFirst : Bool} {what before : α → Bool}
  {w : World}

theorem FindsBefore.of_stop
    (hj : (this.val.elems R).findIdx what < (this.val.elems R).findIdx before ∨
      R.query.agree this.val ((this.val.elems R).findIdx before) = true) :
    FindsBefore R this beginFirst what before w := by
  have h := R.query.spec_sound
  have hel : R.query.spec.elems this.val = this.val.elems R := by rw [RangeType.spec_elems]
  have hspec := h.findBefore_wp (w := w) this beginFirst what before
  rw [hel] at hspec
  rcases hspec with ⟨r, w', hrun, s, hr⟩ | ⟨_, -, hlen, hagree⟩
  · have hfound := h.searched_found hr (by rwa [hel])
    have hgets := h.searched_gets hr
    rw [hel] at hfound hgets
    refine ⟨r, w', hrun, hfound.trans List.findIdx_lt_findIdx, fun hf => hgets hf w', ?_⟩
    intro hnone
    rw [List.findIdx_eq_length.2 hnone, ← hel] at hfound
    have hav : Old (fun _ => False) w.next := fun _ h => h.elim
    obtain ⟨r', w'', hrun', -, hr'⟩ := (h.find_ens what hav).yields
    have hfound' := h.searched_found hr' (.inr (h.agree_end _))
    have hgets' := h.searched_gets hr'
    have heq : r.found = r'.found := Bool.eq_iff_iff.2 (hfound.trans hfound'.symm)
    refine ⟨r', w'', hrun', heq, ?_, fun hf => ?_⟩
    · cases hf : r.found with
      | true => rw [(hgets hf w').1, (hgets' (heq ▸ hf) w'').1, hel]
      | false =>
        rw [Searched, hf] at hr
        rw [Searched, ← heq, hf] at hr'
        exact hr.1.trans hr'.1.symm
    · obtain ⟨-, x, hx, hgx⟩ := hgets hf w'
      obtain ⟨-, x', hx', hgx'⟩ := hgets' (heq ▸ hf) w''
      rw [hel, hx, Option.some.injEq] at hx'
      exact ⟨x, hgx, hx' ▸ hgx'⟩
  · rw [hel] at hlen
    cases hj with
    | inl hlt =>
      have hle : (this.val.elems R).findIdx before ≤ (this.val.elems R).length :=
        List.findIdx_le_length
      omega
    | inr h => exact absurd (h.symm.trans hagree) (by decide)

theorem not_findsBefore
    (hle : (this.val.elems R).findIdx before ≤ (this.val.elems R).findIdx what)
    (hj : R.query.agree this.val ((this.val.elems R).findIdx before) = false) :
    ¬ FindsBefore R this beginFirst what before w := by
  rintro ⟨r, w', hrun, hiff, -⟩
  have h := R.query.spec_sound
  have hel : R.query.spec.elems this.val = this.val.elems R := by rw [RangeType.spec_elems]
  have hspec := h.findBefore_wp (w := w) this beginFirst what before
  rw [hel] at hspec
  rcases hspec with ⟨r', w'', hrun', s, hr⟩ | ⟨_, hrun', -⟩
  · cases hrun.unique hrun'
    rw [← List.findIdx_lt_findIdx] at hiff
    rw [Searched] at hr
    split at hr
    next hfound => exact absurd (hiff.1 hfound) (Nat.not_lt.2 hle)
    next hfound =>
      obtain ⟨-, -, hagree, -⟩ := hr
      exact absurd (hagree.symm.trans hj) (by decide)
  · cases hrun.unique hrun'

end

/-- `findBefore` is right exactly if its traversal has to stop at no element, or finds one before
that, or is stopped there. -/
theorem findsBefore_iff (R : RangeType ρ α) (this : Ref (Query ρ)) (beginFirst : Bool)
    (what before : α → Bool) (w : World) :
    FindsBefore R this beginFirst what before w ↔
      (∀ x ∈ this.val.elems R, before x = false) ∨
      (this.val.elems R).findIdx what < (this.val.elems R).findIdx before ∨
      R.query.agree this.val ((this.val.elems R).findIdx before) = true := by
  constructor
  · intro hfinds
    by_contra hcon
    simp only [not_or, Nat.not_lt, Bool.not_eq_true] at hcon
    obtain ⟨-, hle, hj⟩ := hcon
    exact not_findsBefore hle hj hfinds
  · rintro (hnone | hlt | hj)
    · refine .of_stop (.inr ?_)
      rw [List.findIdx_eq_length.2 hnone]
      have hend := R.query.spec_sound.agree_end this.val
      rwa [RangeType.spec_elems] at hend
    · exact .of_stop (.inl hlt)
    · exact .of_stop (.inr hj)

/-- `owningQuery( std::vector{ 0 } ).concatMap( []( int ) { return std::vector{ 1, 2 }; } )`, where
1 is to stop the search for 2. -/
theorem not_findsBefore_concatMap :
    ¬ FindsBefore (((RangeType.vector Nat).map (List Nat)).flatten (.vector Nat))
      ⟨⟨0, []⟩, concatMap ⟨[0]⟩ fun _ => [1, 2]⟩ true (· == 2) (· == 1) ⟨1, []⟩ :=
  not_findsBefore (by decide) (by decide)

end Query
end LlvmSc

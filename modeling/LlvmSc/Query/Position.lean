import LlvmSc.Query.Range
import LlvmSc.Lib.ListIndex

/-!
# Positions of iterators

`RangeSpec` says what the iterators of a range type stand for: `At this s n it` means that `it` is
an iterator of the object `this` at position `n` of its elements, and that the objects it has
created have their identities in the span `s`; `Denotes` adds that the element has been evaluated.
`RangeSpec.Sound` are the laws of the operations. Two iterators of one object that come from
different traversals create different objects, so at equal positions they need not compare equal:
`agree` computes when they do, and `persist` when an element is the same object in both.
-/

namespace LlvmSc

@[simp] theorem Addr.field_inj {a b : Addr} {i j : Nat} : a.field i = b.field j ↔ a = b ∧ i = j := by
  cases a; cases b; simp [Addr.field]; grind

@[simp] theorem Ref.field_addr (r : Ref ρ) (i : Nat) (f : ρ → α) :
    (r.field i f).addr = r.addr.field i := rfl

@[simp] theorem Ref.field_val (r : Ref ρ) (i : Nat) (f : ρ → α) : (r.field i f).val = f r.val := rfl

/-- The identities below `hi`, except those to avoid. -/
structure Span where
  avoid : Nat → Prop
  hi : Nat

/-- Every identity to avoid is in use already, so new ones can be taken. -/
def Old (avoid : Nat → Prop) (k : Nat) : Prop := ∀ i, avoid i → i < k

theorem Old.mono {avoid : Nat → Prop} (h : Old avoid k) (hk : k ≤ k') : Old avoid k' :=
  fun i hi => (h i hi).trans_le hk

namespace Span

def Mem (s : Span) (a : Addr) : Prop := ¬ s.avoid a.object ∧ a.object < s.hi

def Sub (s s' : Span) : Prop := ∀ a, s.Mem a → s'.Mem a

def Apart (s s' : Span) : Prop := ∀ a, s.Mem a → ¬ s'.Mem a

theorem Apart.ne {s s' : Span} (h : s.Apart s') (H : s.Mem a) (H' : s'.Mem b) : a ≠ b :=
  fun heq => h a H (heq ▸ H')

theorem Apart.symm {s s' : Span} (h : s.Apart s') : s'.Apart s := fun a H H' => h a H' H

theorem Sub.of_le {avoid : Nat → Prop} {k k' : Nat} (h : k ≤ k') : Sub ⟨avoid, k⟩ ⟨avoid, k'⟩ :=
  fun _ H => ⟨H.1, H.2.trans_le h⟩

/-- A new identity. -/
theorem mem_new {avoid : Nat → Prop} {k k' : Nat} (h : Old avoid k) (ha : a.object = k)
    (hk : k < k') : Mem ⟨avoid, k'⟩ a :=
  ⟨fun H => Nat.lt_irrefl _ (ha ▸ h _ H), ha ▸ hk⟩

end Span

/-- What the iterators of a range type stand for. -/
structure RangeSpec (O : RangeOps ρ α) where
  elems : ρ → List α
  At : Ref ρ → Span → Nat → O.Iterator → Prop
  Denotes : Ref ρ → Span → Nat → O.Iterator → Ref α → Prop
  /-- `agree same r n`: iterators of two traversals are equal at position `n`; `same` says whether
  the two traversals are over the same object. -/
  agree : Bool → ρ → Nat → Bool
  /-- `persist same r n`: the `n`-th element is the same object in two traversals. -/
  persist : Bool → ρ → Nat → Bool

namespace RangeSpec

/-- The laws of the operations of a range type. -/
structure Sound {O : RangeOps ρ α} (S : RangeSpec O) : Prop where
  begin_ens {this w avoid} : Old avoid w.next → (O.begin this).Ensures
    (fun it w' => w.next ≤ w'.next ∧ S.At this ⟨avoid, w'.next⟩ 0 it) w
  end_ens {this w} : (O.end_ this).Ensures
    (fun it w' => w' = w ∧ ∀ s, S.At this s (S.elems this.val).length it) w
  eq_ens {this this' s s' n n' it it' w} : S.At this s n it → S.At this' s' n' it' →
    this.val = this'.val → s.Apart s' → (O.eq it it').Ensures
      (fun b w' => w' = w ∧
        b = (decide (n = n') && S.agree (decide (this.addr = this'.addr)) this.val n)) w
  deref_ens {this avoid n it w} : Old avoid w.next → S.At this ⟨avoid, w.next⟩ n it →
    n < (S.elems this.val).length → (O.deref it).Ensures
      (fun r w' => w.next ≤ w'.next ∧ S.Denotes this ⟨avoid, w'.next⟩ n r.1 r.2) w
  deref_denotes {this s n it x w} : S.Denotes this s n it x → (O.deref it).Ensures
    (fun r w' => w' = w ∧ r = (it, x)) w
  deref_end {this s it w} : S.At this s (S.elems this.val).length it →
    (O.deref it).wp (fun _ _ => False) (fun _ => True) w
  incr_ens {this avoid n it w} : Old avoid w.next → S.At this ⟨avoid, w.next⟩ n it →
    n < (S.elems this.val).length → (O.incr it).Ensures
      (fun it' w' => w.next ≤ w'.next ∧ S.At this ⟨avoid, w'.next⟩ (n + 1) it') w
  at_mono {this s s' n it} : s.Sub s' → S.At this s n it → S.At this s' n it
  denotes_mono {this s s' n it x} : s.Sub s' → S.Denotes this s n it x → S.Denotes this s' n it x
  at_le {this s n it} : S.At this s n it → n ≤ (S.elems this.val).length
  denotes_at {this s n it x} : S.Denotes this s n it x → S.At this s n it
  denotes_val {this s n it x} : S.Denotes this s n it x → (S.elems this.val)[n]? = some x.val
  denotes_addr {this this' s s' n it it' x x'} : S.Denotes this s n it x →
    S.Denotes this' s' n it' x' → this.val = this'.val → s.Apart s' →
    decide (x.addr = x'.addr) = S.persist (decide (this.addr = this'.addr)) this.val n
  agree_end (r) : S.agree true r (S.elems r).length = true

variable {O : RangeOps ρ α} {S : RangeSpec O}

/-- Comparison with `end()` of the same object tells whether the iterator is at the end. -/
theorem Sound.eq_end (h : S.Sound) {this : Ref ρ} {s : Span} {n : Nat} {it e : O.Iterator}
    {w : World} (hat : S.At this s n it)
    (he : ∀ s, S.At this s (S.elems this.val).length e) :
    (O.eq it e).Ensures
      (fun b w' => w' = w ∧ b = decide (n = (S.elems this.val).length)) w := by
  refine (h.eq_ens hat (he ⟨fun _ => True, 0⟩) rfl fun a _ H => H.1 trivial).wp ?_
  rintro b w' ⟨rfl, rfl⟩
  refine ⟨rfl, ?_⟩
  by_cases hn : n = (S.elems this.val).length
  · subst hn
    simpa using h.agree_end this.val
  · simp [hn]

/-- `it == end()` -/
theorem Sound.atEnd (h : S.Sound) {this : Ref ρ} {s : Span} {n : Nat} {it : O.Iterator} {w : World}
    (hat : S.At this s n it) :
    (do O.eq it (← O.end_ this) : M Bool).Ensures
      (fun b w' => w' = w ∧ b = decide (n = (S.elems this.val).length)) w :=
  h.end_ens.bind fun _ _ ⟨hw, he⟩ => hw ▸ h.eq_end hat he

end RangeSpec

theorem andM_ens {a b : M Bool} {x y : Bool} {w : World}
    (ha : a.Ensures (fun v w' => w' = w ∧ v = x) w)
    (hb : x = true → b.Ensures (fun v w' => w' = w ∧ v = y) w) :
    (andM a b).Ensures (fun v w' => w' = w ∧ v = (x && y)) w := by
  refine ha.bind fun v w' ⟨hw, hv⟩ => ?_
  subst hw hv
  cases v with
  | false => exact Comp.wp_pure ⟨rfl, rfl⟩
  | true => exact hb rfl

theorem orM_ens {a b : M Bool} {x y : Bool} {w : World}
    (ha : a.Ensures (fun v w' => w' = w ∧ v = x) w)
    (hb : x = false → b.Ensures (fun v w' => w' = w ∧ v = y) w) :
    (orM a b).Ensures (fun v w' => w' = w ∧ v = (x || y)) w := by
  refine ha.bind fun v w' ⟨hw, hv⟩ => ?_
  subst hw hv
  cases v with
  | false => exact hb rfl
  | true => exact Comp.wp_pure ⟨rfl, rfl⟩

/-! ## Containers -/

namespace ContainerIterator

theorem deref_some {i : ContainerIterator α} (h : i.elems[i.pos]? = some x) :
    i.deref = pure (i, ⟨i.container.field i.pos, x⟩) := by
  simp [deref, h]

theorem deref_none {i : ContainerIterator α} (h : i.elems.length ≤ i.pos) :
    i.deref = Comp.raise .derefEnd := by
  simp [deref, h]

theorem incr_lt {i : ContainerIterator α} (h : i.pos < i.elems.length) :
    i.incr = pure { i with pos := i.pos + 1 } := by
  simp [incr, h]

end ContainerIterator

/-- Iterators of a container agree when the container is the same; `keep` computes whether it is
from whether the range object is. -/
def containerSpec (addr : Ref ρ → Addr) (elems : ρ → List α) (keep : Bool → Bool) :
    RangeSpec (containerOps addr elems) where
  elems := elems
  At this _ n it := it = ⟨addr this, elems this.val, n⟩ ∧ n ≤ (elems this.val).length
  Denotes this _ n it x := it = ⟨addr this, elems this.val, n⟩ ∧
    (elems this.val)[n]? = some x.val ∧ x.addr = (addr this).field n
  agree same _ _ := keep same
  persist same _ _ := keep same

theorem containerSpec_sound {addr : Ref ρ → Addr} {elems : ρ → List α} {keep : Bool → Bool}
    (hkeep : ∀ this this' : Ref ρ, this.val = this'.val →
      decide (addr this = addr this') = keep (decide (this.addr = this'.addr)))
    (htrue : keep true = true) : (containerSpec addr elems keep).Sound where
  begin_ens _ := Comp.wp_pure ⟨Nat.le_refl _, rfl, Nat.zero_le _⟩
  end_ens := Comp.wp_pure ⟨rfl, fun _ => ⟨rfl, Nat.le_refl _⟩⟩
  eq_ens := by
    intro this this' s s' n n' it it' w H H' hval _
    rcases H with ⟨rfl, -⟩
    rcases H' with ⟨rfl, -⟩
    refine Comp.wp_pure ⟨rfl, ?_⟩
    rw [hkeep this this' hval, Bool.and_comm]
    rfl
  deref_ens := by
    rintro this avoid n it w - ⟨rfl, -⟩ hn
    have hx : (elems this.val)[n]? = some (elems this.val)[n] := List.getElem?_eq_getElem hn
    change (ContainerIterator.deref _).Ensures _ _
    rw [ContainerIterator.deref_some hx]
    exact Comp.wp_pure ⟨Nat.le_refl _, rfl, hx, rfl⟩
  deref_denotes := by
    rintro this s n it ⟨a, x⟩ w ⟨rfl, hx, rfl⟩
    change (ContainerIterator.deref _).Ensures _ _
    rw [ContainerIterator.deref_some hx]
    exact Comp.wp_pure ⟨rfl, rfl⟩
  deref_end := by
    rintro this s it w ⟨rfl, -⟩
    change (ContainerIterator.deref _).wp _ _ _
    rw [ContainerIterator.deref_none (Nat.le_refl _)]
    exact Comp.wp_raise trivial
  incr_ens := by
    rintro this avoid n it w - ⟨rfl, -⟩ hn
    change (ContainerIterator.incr _).Ensures _ _
    rw [ContainerIterator.incr_lt hn]
    exact Comp.wp_pure ⟨Nat.le_refl _, rfl, hn⟩
  at_mono _ h := h
  denotes_mono _ h := h
  at_le h := h.2
  denotes_at h := ⟨h.1, Nat.le_of_lt (List.getElem?_eq_some_iff.1 h.2.1).1⟩
  denotes_val h := h.2.1
  denotes_addr := by
    rintro this this' s s' n it it' x x' ⟨-, -, hx⟩ ⟨-, -, hx'⟩ hval -
    rw [hx, hx']
    simpa [containerSpec] using hkeep this this' hval
  agree_end _ := htrue

end LlvmSc

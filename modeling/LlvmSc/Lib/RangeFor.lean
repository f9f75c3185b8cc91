import LlvmSc.Lib.Comp

/-!
# The loop over a range

A range-based `for` over any iterators: `Cursor` is what the loop uses of them. The loop returns the
values that its body sees; a fault that leaves the loop comes with those that the body has seen
before. `rangeFor_end`, `rangeFor_next` and `rangeFor_fault` are what one turn of the loop does.
-/

universe u

variable {σ : Type u} {ε ι α β : Type}

namespace Comp

/-- A fault of `c` comes with `a`. -/
def tag (a : α) (c : Comp σ ε β) : Comp σ (α × ε) β := fun n s =>
  match c n s with
  | .done b s' => .done b s'
  | .fault e => .fault (a, e)
  | .timeout => .timeout

theorem Yields.tag {c : Comp σ ε β} (h : c.Yields s (.done b s')) (a : α) :
    (c.tag a).Yields s (.done b s') := by
  obtain ⟨n, h⟩ := h
  refine ⟨n, fun m hm => ?_⟩
  rw [Comp.tag, h m hm]

theorem Yields.tag_fault {c : Comp σ ε β} (h : c.Yields s (.fault e)) (a : α) :
    (c.tag a).Yields s (.fault (a, e)) := by
  obtain ⟨n, h⟩ := h
  refine ⟨n, fun m hm => ?_⟩
  rw [Comp.tag, h m hm]

end Comp

/-- The comparison of an iterator with the end of the range, `operator*` and `operator++`. -/
structure Cursor (σ : Type u) (ε ι α : Type) where
  atEnd : ι → Comp σ ε Bool
  deref : ι → Comp σ ε α
  incr : ι → Comp σ ε ι

namespace Cursor

/-- One turn of the loop, with the values seen so far. -/
def turn (C : Cursor σ ε ι α) (t : ι × List α) : Comp σ (List α × ε) (ι × List α ⊕ List α) := do
  if ← (C.atEnd t.1).tag t.2 then pure (.inr t.2) else do
    let x ← (C.deref t.1).tag t.2
    let it ← (C.incr t.1).tag (t.2 ++ [x])
    pure (.inl (it, t.2 ++ [x]))

/-- The loop from the iterator `it` on, when its body has seen `seen`. -/
def rangeFor (C : Cursor σ ε ι α) (it : ι) (seen : List α) : Comp σ (List α × ε) (List α) :=
  Comp.loop C.turn (it, seen)

variable {C : Cursor σ ε ι α} {it it' : ι} {seen : List α} {x : α} {s s₁ s₂ s₃ : σ}

theorem rangeFor_end (h : (C.atEnd it).Yields s (.done true s₁)) :
    (C.rangeFor it seen).Yields s (.done seen s₁) :=
  Comp.Yields.loop_done ((h.tag seen).bind (Comp.yields_pure _ _))

/-- The body sees the value that the iterator refers to, and the loop goes on. -/
theorem rangeFor_next (hend : (C.atEnd it).Yields s (.done false s₁))
    (hx : (C.deref it).Yields s₁ (.done x s₂)) (hit : (C.incr it).Yields s₂ (.done it' s₃))
    (k : (C.rangeFor it' (seen ++ [x])).Yields s₃ o) : (C.rangeFor it seen).Yields s o := by
  have hturn : (C.turn (it, seen)).Yields s (.done (.inl (it', seen ++ [x])) s₃) := by
    refine (hend.tag seen).bind ((hx.tag seen).bind ?_)
    exact (hit.tag (seen ++ [x])).bind (Comp.yields_pure _ _)
  exact hturn.loop_next k

/-- The increment leaves the loop after its body has seen a value. -/
theorem rangeFor_fault (hend : (C.atEnd it).Yields s (.done false s₁))
    (hx : (C.deref it).Yields s₁ (.done x s₂)) (hit : (C.incr it).Yields s₂ (.fault e)) :
    (C.rangeFor it seen).Yields s (.fault (seen ++ [x], e)) := by
  have hturn : (C.turn (it, seen)).Yields s (.fault (seen ++ [x], e)) := by
    refine (hend.tag seen).bind ((hx.tag seen).bind ?_)
    exact (hit.tag_fault (seen ++ [x])).bind_fault
  exact hturn.loop_fault

end Cursor

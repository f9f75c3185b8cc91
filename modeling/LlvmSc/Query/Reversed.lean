import LlvmSc.Query.Range
import LlvmSc.Lib.RangeFor

/-!
# `reversed`

`reversed` of an rvalue derives a class from the collection that redefines `begin` and `end` as the
inherited `rbegin` and `rend`, and leaves `rbegin` and `rend` as they are. One `reversed` iterates in
reverse order, and so does every `reversed` around it (`iterate_yields`): two of them give back the
order of the collection only where its reverse is the collection itself (`reverses_iff`).
-/

namespace LlvmSc

/-- The class of a collection: a sequence container, or the `struct R` derived from a `Collection`. -/
inductive OwnedClass where
  | container
  | reversed (Collection : OwnedClass)

/-- A collection that is passed as an rvalue. -/
structure Owned (α : Type) where
  cls : OwnedClass
  elems : List α

namespace Owned

/-- `iterator`, or `reverse_iterator` with its `base()`. -/
inductive Iterator where
  | forward (pos : Nat)
  | reverse (base : Nat)
deriving DecidableEq

/-- `rbegin()`, which `R` inherits. -/
def rbegin (elems : List α) : OwnedClass → Iterator
  | .container => .reverse elems.length
  | .reversed Collection => rbegin elems Collection

/-- `rend()`, which `R` inherits. -/
def rend (elems : List α) : OwnedClass → Iterator
  | .container => .reverse 0
  | .reversed Collection => rend elems Collection

def begin (elems : List α) : OwnedClass → Iterator
  | .container => .forward 0
  | .reversed Collection => rbegin elems Collection

def end_ (elems : List α) : OwnedClass → Iterator
  | .container => .forward elems.length
  | .reversed Collection => rend elems Collection

/-- `query::reversed` -/
def reversed (col : Owned α) : Owned α := ⟨.reversed col.cls, col.elems⟩

/-- The element that an iterator refers to. -/
def Iterator.get? (elems : List α) : Iterator → Option α
  | forward pos => elems[pos]?
  | reverse 0 => none
  | reverse (n + 1) => elems[n]?

def Iterator.deref (elems : List α) (it : Iterator) : M α :=
  match it.get? elems with
  | some x => pure x
  | none => Comp.raise .derefEnd

def Iterator.incr (elems : List α) : Iterator → M Iterator
  | forward pos => if pos < elems.length then pure (forward (pos + 1)) else Comp.raise .incrEnd
  | reverse 0 => Comp.raise .incrEnd
  | reverse (n + 1) => pure (reverse n)

/-- What a loop up to `last` uses of the iterators. -/
def cursor (elems : List α) (last : Iterator) : Cursor World Fault Iterator α where
  atEnd it := pure (decide (it = last))
  deref := Iterator.deref elems
  incr := Iterator.incr elems

/-- `for ( auto &x : c )`, with the elements that its body sees. -/
def iterate (c : Owned α) : Comp World (List α × Fault) (List α) :=
  (cursor c.elems (end_ c.elems c.cls)).rangeFor (begin c.elems c.cls) []

section
variable {elems seen : List α} {w : World} {n : Nat}

/-! ## Iteration from a position -/

theorem deref_yields {it : Iterator} {x : α} (h : it.get? elems = some x) :
    (it.deref elems).Yields w (.done x w) := by
  rw [Iterator.deref, h]
  exact Comp.yields_pure x w

theorem forward_yields (hn : n ≤ elems.length) :
    ((cursor elems (.forward elems.length)).rangeFor (.forward n) seen).Yields w
      (.done (seen ++ elems.drop n) w) := by
  induction h : elems.length - n generalizing n seen with
  | zero =>
    have hlen : n = elems.length := by omega
    rw [hlen, List.drop_length, List.append_nil]
    refine Cursor.rangeFor_end ?_
    simpa [cursor] using Comp.yields_pure true w
  | succ k ih =>
    have hlt : n < elems.length := by omega
    have hend : ((cursor elems (.forward elems.length)).atEnd (.forward n)).Yields w
        (.done false w) := by
      have hne : n ≠ elems.length := Nat.ne_of_lt hlt
      simpa [cursor, hne] using Comp.yields_pure false w
    have hderef : (Iterator.deref elems (.forward n)).Yields w (.done elems[n] w) :=
      deref_yields (List.getElem?_eq_getElem hlt)
    have hincr : (Iterator.incr elems (.forward n)).Yields w (.done (.forward (n + 1)) w) := by
      simpa [Iterator.incr, hlt] using Comp.yields_pure (Iterator.forward (n + 1)) w
    refine Cursor.rangeFor_next hend hderef hincr ?_
    have hseen : seen ++ elems.drop n = (seen ++ [elems[n]]) ++ elems.drop (n + 1) := by
      rw [List.drop_eq_getElem_cons hlt, List.append_cons]
    rw [hseen]
    exact ih hlt (by omega)

theorem reverse_yields (hn : n ≤ elems.length) :
    ((cursor elems (.reverse 0)).rangeFor (.reverse n) seen).Yields w
      (.done (seen ++ (elems.take n).reverse) w) := by
  induction n generalizing seen with
  | zero =>
    rw [List.take_zero, List.reverse_nil, List.append_nil]
    refine Cursor.rangeFor_end ?_
    simpa [cursor] using Comp.yields_pure true w
  | succ n ih =>
    have hend : ((cursor elems (.reverse 0)).atEnd (.reverse (n + 1))).Yields w
        (.done false w) := by
      simpa [cursor] using Comp.yields_pure false w
    have hderef : (Iterator.deref elems (.reverse (n + 1))).Yields w (.done elems[n] w) :=
      deref_yields (List.getElem?_eq_getElem hn)
    have hincr : (Iterator.incr elems (.reverse (n + 1))).Yields w (.done (.reverse n) w) :=
      Comp.yields_pure _ w
    refine Cursor.rangeFor_next hend hderef hincr ?_
    have hseen : seen ++ (elems.take (n + 1)).reverse =
        (seen ++ [elems[n]]) ++ (elems.take n).reverse := by
      rw [List.take_succ_eq_append_getElem hn, List.reverse_append, List.append_assoc]
      rfl
    rw [hseen]
    exact ih (Nat.le_of_succ_le hn)

end

/-! ## Nesting -/

section
variable (elems : List α) (cls : OwnedClass)

@[simp] theorem rbegin_eq : rbegin elems cls = .reverse elems.length := by
  induction cls with
  | container => rfl
  | reversed _ ih => rw [rbegin, ih]

@[simp] theorem rend_eq : rend elems cls = .reverse 0 := by
  induction cls with
  | container => rfl
  | reversed _ ih => rw [rend, ih]

end

/-- The order of iteration: it is that of `rbegin` and `rend` under any number of `reversed`. -/
def order (c : Owned α) : List α :=
  match c.cls with
  | .container => c.elems
  | .reversed _ => c.elems.reverse

theorem iterate_yields (c : Owned α) (w : World) : c.iterate.Yields w (.done c.order w) := by
  obtain ⟨cls, elems⟩ := c
  cases cls with
  | container => exact forward_yields (Nat.zero_le _)
  | reversed Collection =>
    rw [iterate, begin, end_, rbegin_eq, rend_eq]
    have horder : order ⟨.reversed Collection, elems⟩ =
        [] ++ (elems.take elems.length).reverse := by
      rw [List.nil_append, List.take_length]
      rfl
    rw [horder]
    exact reverse_yields (Nat.le_refl _)

/-- `reversed` gives the elements in reverse order, and twice in their own order. -/
def Reverses (elems : List α) : Prop := ∀ w,
  (reversed ⟨.container, elems⟩).iterate.Yields w (.done elems.reverse w) ∧
    (reversed (reversed ⟨.container, elems⟩)).iterate.Yields w (.done elems w)

/-- The outer `reversed` finds the `rbegin` and `rend` of the container itself, so that iteration is
right only over a list that is its own reverse. -/
theorem reverses_iff (elems : List α) : Reverses elems ↔ elems.reverse = elems := by
  constructor
  · intro h
    have htwice := iterate_yields (reversed (reversed ⟨.container, elems⟩)) ⟨0, []⟩
    exact (Outcome.done.inj (htwice.unique (h ⟨0, []⟩).2)).1
  · intro h w
    have honce := iterate_yields (reversed ⟨.container, elems⟩) w
    have htwice := iterate_yields (reversed (reversed ⟨.container, elems⟩)) w
    have horder : (reversed (reversed ⟨.container, elems⟩)).order = elems := h
    rw [horder] at htwice
    exact ⟨honce, htwice⟩

/-- The second `reversed` does not undo the first one. -/
theorem not_reverses : ¬ Reverses [1, 2] := by
  intro h
  have htwice := iterate_yields (reversed (reversed ⟨.container, [1, 2]⟩)) ⟨0, []⟩
  have horder := (Outcome.done.inj (htwice.unique (h ⟨0, []⟩).2)).1
  exact absurd horder (by decide)

end Owned

end LlvmSc

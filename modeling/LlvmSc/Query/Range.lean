import LlvmSc.Lib.Comp

/-!
# Ranges and their iterators

The class templates of `query.hpp`. A template argument `Range` is a `RangeOps`, the operations
that the templates call on it; `Map.ops`, `Filter.ops`, `Flatten.ops` and `Append.ops` are the
templates, and `RangeType` lists the types that can be built from them.

References carry the identity of the object they refer to, because iterators of two containers
compare equal only when the containers are the same object. Objects that `std::make_shared`
creates get a new identity from the `World`, which also records the calls of the stages'
functions and predicates.
-/

namespace LlvmSc

/-- The identity of an object: an allocation and the path of the subobject in it. -/
structure Addr where
  object : Nat
  path : List Nat
deriving DecidableEq

def Addr.field (a : Addr) (i : Nat) : Addr := ⟨a.object, i :: a.path⟩

/-- A reference: the identity of an object and its value. -/
structure Ref (α : Type) where
  addr : Addr
  val : α

/-- The `i`-th member of an object. -/
def Ref.field (r : Ref ρ) (i : Nat) (f : ρ → α) : Ref α := ⟨r.addr.field i, f r.val⟩

/-- A call of the function or predicate of the stage at address `stage`. -/
structure Call where
  stage : Addr
  type : Type
  arg : type

/-- The identity that the next allocation gets, and the calls made so far, the last one first. -/
structure World where
  next : Nat
  calls : List Call

inductive Fault where
  /-- `operator*` of a container iterator at the end -/
  | derefEnd
  /-- `operator++` of a container iterator at the end -/
  | incrEnd
  /-- a failed `ASSERT` -/
  | assertion
  /-- use of a null pointer or of an iterator that was never assigned -/
  | uninitialised
deriving DecidableEq

abbrev M := Comp World Fault

/-- `std::make_shared`. -/
def makeShared (v : α) : M (Ref α) :=
  Comp.modifyGet fun w => (⟨⟨w.next, []⟩, v⟩, { w with next := w.next + 1 })

/-- Record a call of the function of a stage. -/
def called (stage : Addr) (x : α) : M Unit :=
  Comp.modifyGet fun w => ((), { w with calls := ⟨stage, α, x⟩ :: w.calls })

/-- `a && b`, where `b` is evaluated only if `a` holds. -/
def andM (a b : M Bool) : M Bool := do if ← a then b else pure false

/-- `a || b`, where `b` is evaluated only if `a` does not hold. -/
def orM (a b : M Bool) : M Bool := do if ← a then pure true else b

/-- What the templates use of a range type `ρ` with elements `α`. `deref` also returns the
iterator, which may have cached what it computed. -/
structure RangeOps (ρ α : Type) where
  Iterator : Type
  begin : Ref ρ → M Iterator
  end_ : Ref ρ → M Iterator
  eq : Iterator → Iterator → M Bool
  deref : Iterator → M (Iterator × Ref α)
  incr : Iterator → M Iterator

/-! ## Containers -/

/-- An iterator of a standard container. -/
structure ContainerIterator (α : Type) where
  container : Addr
  elems : List α
  pos : Nat

namespace ContainerIterator

def eq (a b : ContainerIterator α) : M Bool :=
  pure (decide (a.container = b.container) && decide (a.pos = b.pos))

def deref (i : ContainerIterator α) : M (ContainerIterator α × Ref α) :=
  match i.elems[i.pos]? with
  | some x => pure (i, ⟨i.container.field i.pos, x⟩)
  | none => Comp.raise .derefEnd

def incr (i : ContainerIterator α) : M (ContainerIterator α) :=
  if i.pos < i.elems.length then pure { i with pos := i.pos + 1 } else Comp.raise .incrEnd

end ContainerIterator

/-- Iteration over the container with identity `addr r` and contents `elems r.val`. -/
def containerOps (addr : Ref ρ → Addr) (elems : ρ → List α) : RangeOps ρ α where
  Iterator := ContainerIterator α
  begin this := pure ⟨addr this, elems this.val, 0⟩
  end_ this := pure ⟨addr this, elems this.val, (elems this.val).length⟩
  eq := ContainerIterator.eq
  deref := ContainerIterator.deref
  incr := ContainerIterator.incr

/-- A container that is the range object itself, as in `owningQuery` or an inner range that a
function returned by value. -/
def vectorOps (α : Type) : RangeOps (List α) α := containerOps Ref.addr id

/-- `Range`, made by `range( col )`: the two iterators of a container that outlives it. -/
structure Range (α : Type) where
  container : Addr
  elems : List α

def Range.ops (α : Type) : RangeOps (Range α) α :=
  containerOps (fun this => this.val.container) Range.elems

/-! ## `Map` -/

structure Map (ρ α β : Type) where
  range : ρ
  fn : α → β

namespace Map

structure Iterator (R : RangeOps ρ α) (β : Type) where
  it : R.Iterator
  current : Option (Ref β)
  map : Ref (Map ρ α β)

variable {R : RangeOps ρ α}

/-- `evaluate()`, with the object that `_current` then points to. -/
def evaluate (i : Iterator R β) : M (Iterator R β × Ref β) :=
  match i.current with
  | some y => pure (i, y)
  | none => do
    let (it, x) ← R.deref i.it
    called i.map.addr x.val
    let y ← makeShared (i.map.val.fn x.val)
    pure ({ i with it := it, current := some y }, y)

variable (R) in
def ops (β : Type) : RangeOps (Map ρ α β) β where
  Iterator := Iterator R β
  begin this := do pure { it := ← R.begin (this.field 0 range), current := none, map := this }
  end_ this := do pure { it := ← R.end_ (this.field 0 range), current := none, map := this }
  eq a b := R.eq a.it b.it
  deref := evaluate
  incr i := do pure { i with it := ← R.incr i.it, current := none }

end Map

/-! ## `Filter` -/

structure Filter (ρ α : Type) where
  range : ρ
  pred : α → Bool

namespace Filter

structure Iterator (R : RangeOps ρ α) where
  it : R.Iterator
  filter : Ref (Filter ρ α)

variable {R : RangeOps ρ α}

/-- `end()` -/
def Iterator.atEnd (i : Iterator R) : M Bool := do
  R.eq i.it (← R.end_ (i.filter.field 0 range))

/-- One test of the loop in `_bump`, and its body. -/
def bumpStep (i : Iterator R) : M (Iterator R ⊕ Iterator R) := do
  if ← i.atEnd then pure (.inr i) else do
    let (it, x) ← R.deref i.it
    called i.filter.addr x.val
    if i.filter.val.pred x.val then pure (.inr { i with it := it }) else do
      pure (.inl { i with it := ← R.incr it })

def bump (i : Iterator R) : M (Iterator R) := Comp.loop bumpStep i

variable (R) in
def ops : RangeOps (Filter ρ α) α where
  Iterator := Iterator R
  begin this := do bump { it := ← R.begin (this.field 0 range), filter := this }
  end_ this := do bump { it := ← R.end_ (this.field 0 range), filter := this }
  eq a b := R.eq a.it b.it
  deref i := do
    let (it, x) ← R.deref i.it
    pure ({ i with it := it }, x)
  incr i := do bump { i with it := ← R.incr i.it }

end Filter

/-! ## `Flatten` -/

structure Flatten (ρ : Type) where
  range : ρ

namespace Flatten

/-- `_sub` has no value until it is assigned. -/
structure Iterator (R : RangeOps ρ κ) (S : RangeOps κ α) where
  it : R.Iterator
  sub : Option S.Iterator
  flatten : Ref (Flatten ρ)

variable {R : RangeOps ρ κ} {S : RangeOps κ α}

/-- `end()` -/
def Iterator.atEnd (i : Iterator R S) : M Bool := do
  R.eq i.it (← R.end_ (i.flatten.field 0 range))

/-- A use of `_sub`. -/
def Iterator.getSub (i : Iterator R S) : M S.Iterator :=
  match i.sub with
  | some s => pure s
  | none => Comp.raise .uninitialised

/-- `_sub = _it->begin()` -/
def Iterator.enter (i : Iterator R S) : M (Iterator R S) := do
  let (it, c) ← R.deref i.it
  pure { i with it := it, sub := some (← S.begin c) }

/-- One test of the loop in `_bump`, and its body. -/
def bumpStep (i : Iterator R S) : M (Iterator R S ⊕ Iterator R S) := do
  if ← i.atEnd then pure (.inr i) else do
    let s ← i.getSub
    let (it, c) ← R.deref i.it
    if ← S.eq s (← S.end_ c) then do
      let i := { i with it := ← R.incr it }
      if ← i.atEnd then pure (.inl i) else do
        pure (.inl (← i.enter))
    else pure (.inr { i with it := it })

def bump (i : Iterator R S) : M (Iterator R S) := Comp.loop bumpStep i

/-- The constructor of `Iterator`. -/
def construct (it : R.Iterator) (this : Ref (Flatten ρ)) : M (Iterator R S) := do
  let i : Iterator R S := { it := it, sub := none, flatten := this }
  if ← i.atEnd then pure i else do
    bump (← i.enter)

def Iterator.eq (a b : Iterator R S) : M Bool :=
  orM (andM a.atEnd b.atEnd) (andM (R.eq a.it b.it) do S.eq (← a.getSub) (← b.getSub))

def Iterator.deref (i : Iterator R S) : M (Iterator R S × Ref α) := do
  let (s, x) ← S.deref (← i.getSub)
  pure ({ i with sub := some s }, x)

def Iterator.incr (i : Iterator R S) : M (Iterator R S) := do
  bump { i with sub := some (← S.incr (← i.getSub)) }

variable (R S) in
def ops : RangeOps (Flatten ρ) α where
  Iterator := Iterator R S
  begin this := do construct (← R.begin (this.field 0 range)) this
  end_ this := do construct (← R.end_ (this.field 0 range)) this
  eq := Iterator.eq
  deref := Iterator.deref
  incr := Iterator.incr

end Flatten

/-! ## `Append` -/

structure Append (ρ₁ ρ₂ : Type) where
  range1 : ρ₁
  range2 : ρ₂

namespace Append

/-- The two `unique_ptr`s; an iterator that is copied gets copies of what they point to. -/
structure Iterator (R₁ : RangeOps ρ₁ α) (R₂ : RangeOps ρ₂ α) where
  it1 : Option R₁.Iterator
  it2 : Option R₂.Iterator
  append : Ref (Append ρ₁ ρ₂)

/-- Equality of what two pointers point to; null pointers are equal to each other only. -/
def peq (eq : ι → ι → M Bool) : Option ι → Option ι → M Bool
  | none, none => pure true
  | some a, some b => eq a b
  | _, _ => pure false

variable {R₁ : RangeOps ρ₁ α} {R₂ : RangeOps ρ₂ α}

def Iterator.eq (a b : Iterator R₁ R₂) : M Bool :=
  andM (peq R₁.eq a.it1 b.it1) (peq R₂.eq a.it2 b.it2)

def Iterator.deref (i : Iterator R₁ R₂) : M (Iterator R₁ R₂ × Ref α) :=
  match i.it1, i.it2 with
  | some a, _ => do
    let (a, x) ← R₁.deref a
    pure ({ i with it1 := some a }, x)
  | none, some b => do
    let (b, x) ← R₂.deref b
    pure ({ i with it2 := some b }, x)
  | none, none => Comp.raise .uninitialised

def Iterator.incr (i : Iterator R₁ R₂) : M (Iterator R₁ R₂) :=
  match i.it1, i.it2 with
  | some a, _ => do
    let a ← R₁.incr a
    if ← R₁.eq a (← R₁.end_ (i.append.field 0 range1)) then pure { i with it1 := none }
    else pure { i with it1 := some a }
  | none, some b => do
    if ← R₂.eq b (← R₂.end_ (i.append.field 1 range2)) then Comp.raise .assertion
    else pure { i with it2 := some (← R₂.incr b) }
  | none, none => Comp.raise .assertion

variable (R₁ R₂) in
def ops : RangeOps (Append ρ₁ ρ₂) α where
  Iterator := Iterator R₁ R₂
  begin this := do
    let it1 ← R₁.begin (this.field 0 range1)
    let it2 ← R₂.begin (this.field 1 range2)
    if ← R₁.eq it1 (← R₁.end_ (this.field 0 range1)) then
      pure { it1 := none, it2 := some it2, append := this }
    else pure { it1 := some it1, it2 := some it2, append := this }
  end_ this := do
    pure { it1 := none, it2 := some (← R₂.end_ (this.field 1 range2)), append := this }
  eq := Iterator.eq
  deref := Iterator.deref
  incr := Iterator.incr

end Append

/-! ## `Query` -/

structure Query (ρ : Type) where
  range : ρ

namespace Query

def ops (R : RangeOps ρ α) : RangeOps (Query ρ) α where
  Iterator := R.Iterator
  begin this := R.begin (this.field 0 range)
  end_ this := R.end_ (this.field 0 range)
  eq := R.eq
  deref := R.deref
  incr := R.incr

def map (q : Query ρ) (fn : α → β) : Query (Map ρ α β) := ⟨⟨q.range, fn⟩⟩

def filter (q : Query ρ) (pred : α → Bool) : Query (Filter ρ α) := ⟨⟨q.range, pred⟩⟩

def flatten (q : Query ρ) : Query (Flatten ρ) := ⟨⟨q.range⟩⟩

def append (q : Query ρ₁) (range : ρ₂) : Query (Append ρ₁ ρ₂) := ⟨⟨q.range, range⟩⟩

def concatMap (q : Query ρ) (fn : α → β) : Query (Flatten (Map ρ α β)) := (q.map fn).flatten

end Query

/-! ## Pipelines -/

/-- The range types: `RangeType ρ α` is a way to iterate over objects of type `ρ` whose elements
have type `α`. The elements that `flatten` flattens have a range type of their own, so inner ranges
are containers or pipelines. -/
inductive RangeType : Type → Type → Type 1
  | vector (α : Type) : RangeType (List α) α
  | range (α : Type) : RangeType (Range α) α
  | map (R : RangeType ρ α) (β : Type) : RangeType (Map ρ α β) β
  | filter (R : RangeType ρ α) : RangeType (Filter ρ α) α
  | flatten (R : RangeType ρ κ) (S : RangeType κ α) : RangeType (Flatten ρ) α
  | append (R₁ : RangeType ρ₁ α) (R₂ : RangeType ρ₂ α) : RangeType (Append ρ₁ ρ₂) α
  | query (R : RangeType ρ α) : RangeType (Query ρ) α

namespace RangeType

def ops : RangeType ρ α → RangeOps ρ α
  | vector α => vectorOps α
  | range α => Range.ops α
  | map R β => Map.ops R.ops β
  | filter R => Filter.ops R.ops
  | flatten R S => Flatten.ops R.ops S.ops
  | append R₁ R₂ => Append.ops R₁.ops R₂.ops
  | query R => Query.ops R.ops

/-- The reference semantics: the list that an object of the range type stands for. -/
def elems : RangeType ρ α → ρ → List α
  | vector _, r => r
  | range _, r => r.elems
  | map R _, r => (R.elems r.range).map r.fn
  | filter R, r => (R.elems r.range).filter r.pred
  | flatten R S, r => (R.elems r.range).flatMap S.elems
  | append R₁ R₂, r => R₁.elems r.range1 ++ R₂.elems r.range2
  | query R, r => R.elems r.range

end RangeType

end LlvmSc

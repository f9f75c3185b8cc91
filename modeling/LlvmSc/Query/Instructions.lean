import LlvmSc.Query.Pipeline

/-!
# Queries over LLVM modules

The queries of `query.hpp` for instructions and basic blocks, beside the views of `ranges.hpp`. A
module is a list of functions, a function a list of blocks and a block a list of instructions; each
may be empty. The instructions come in program order, for the pipelines are flattened ranges
(`Lists.elems`). `basicblocks` flattens a function once too often, so it lists instructions.
-/

namespace LlvmSc
namespace Query

variable {I : Type}

abbrev BasicBlock (I : Type) := List I

abbrev Function (I : Type) := List (BasicBlock I)

abbrev LlvmModule (I : Type) := List (Function I)

/-- `query( col )` -/
def query (col : Ref (List α)) : Query (Range α) := ⟨⟨col.addr, col.val⟩⟩

/-- `std::addressof`; a pointer is null or points to an object. -/
def pointer (ref : α) : Option α := some ref

/-- `llvm::dyn_cast` to the class of the objects that satisfy `isa`. -/
def dyncast (isa : α → Bool) (v : Option α) : Option α := v.filter isa

def notnull (v : Option α) : Bool := v.isSome

def pointers (r : Ref (List α)) : Query (Map (Range α) α (Option α)) := (query r).map pointer

/-! ## `instructions` -/

def BasicBlock.instructions (bb : Ref (BasicBlock I)) : Query (Map (Range I) I (Option I)) :=
  pointers bb

def Function.instructions (fn : Ref (Function I)) :
    Query (Map (Flatten (Range (BasicBlock I))) I (Option I)) :=
  (query fn).flatten.map pointer

def LlvmModule.instructions (m : Ref (LlvmModule I)) :
    Query (Map (Flatten (Flatten (Range (Function I)))) I (Option I)) :=
  (query m).flatten.flatten.map pointer

/-- `filter_llvm< T >` over the instructions of a function or a module. -/
def filterLlvm (isa : I → Bool) (insts : Query (Map ρ I (Option I))) :
    Query (Filter (Map (Map ρ I (Option I)) (Option I) (Option I)) (Option I)) :=
  (insts.map (dyncast isa)).filter notnull

def basicblocks (fn : Ref (Function I)) : Query (Flatten (Range (BasicBlock I))) :=
  (query fn).flatten

/-! ## The range types -/

def BasicBlock.range (I : Type) : RangeType (Range I) I := .range I

def Function.range (I : Type) : RangeType (Flatten (Range (BasicBlock I))) I :=
  (RangeType.range (BasicBlock I)).flatten (.vector I)

def LlvmModule.range (I : Type) : RangeType (Flatten (Flatten (Range (Function I)))) I :=
  ((RangeType.range (Function I)).flatten (.vector (BasicBlock I))).flatten (.vector I)

/-- The pointers to the elements. -/
abbrev pointersRange (R : RangeType ρ I) : RangeType (Map ρ I (Option I)) (Option I) :=
  R.map (Option I)

abbrev filterLlvmRange (R : RangeType ρ I) :
    RangeType (Filter (Map (Map ρ I (Option I)) (Option I) (Option I)) (Option I)) (Option I) :=
  ((pointersRange R).map (Option I)).filter

/-! ## What a query lists -/

/-- `freeze` of the query, wherever it is stored, returns `xs`. -/
def Lists (R : RangeType ρ α) (q : Query ρ) (xs : List α) : Prop :=
  ∀ addr w, ∃ w', (freeze R.ops ⟨addr, q⟩).Yields w (.done xs w')

namespace Lists

variable {R : RangeType ρ α} {q : Query ρ} {xs ys : List α}

theorem elems (R : RangeType ρ α) (q : Query ρ) : Lists R q (q.elems R) := by
  intro addr w
  obtain ⟨out, w', hout, rfl⟩ := (freeze_ens R ⟨addr, q⟩ w).yields
  exact ⟨w', hout⟩

theorem unique (h : Lists R q xs) (h' : Lists R q ys) : xs = ys := by
  obtain ⟨w, hw⟩ := h ⟨0, []⟩ ⟨0, []⟩
  obtain ⟨w', hw'⟩ := h' ⟨0, []⟩ ⟨0, []⟩
  cases hw.unique hw'
  rfl

theorem iff_eq : Lists R q xs ↔ xs = q.elems R := by
  constructor
  · exact fun h => h.unique (elems R q)
  · rintro rfl
    exact elems R q

end Lists

/-! ## The views of `ranges.hpp` -/

namespace Views

def pointers (r : List α) : List (Option α) := r.map pointer

/-- `ranges::views::join` -/
def join (r : List (List α)) : List α := r.flatten

def instructionsBlock (bb : BasicBlock I) : List (Option I) := pointers bb

def instructionsFunction (fn : Function I) : List (Option I) := pointers (join fn)

def instructionsModule (m : LlvmModule I) : List (Option I) := pointers (join (join m))

/-- `ranges::views::all` is the identity. -/
def basicblocks (fn : Function I) : List (BasicBlock I) := fn

end Views

theorem Views.instructionsFunction_eq (fn : Function I) :
    instructionsFunction fn = fn.flatMap fun bb => instructionsBlock bb :=
  List.map_flatten.trans List.flatMap_def.symm

theorem Views.instructionsModule_eq (m : LlvmModule I) :
    instructionsModule m = m.flatMap fun fn => instructionsFunction fn := by
  have hjoin : join (join m) = join (m.map join) := List.flatten_flatten
  rw [instructionsModule, hjoin, List.flatMap_def]
  refine List.map_flatten.trans ?_
  rw [List.map_map]
  rfl

/-! ## `instructions` and `filter_llvm` -/

theorem filter_map_dyncast (isa : I → Bool) (vs : List (Option I)) :
    (vs.map (dyncast isa)).filter notnull = vs.filter (Option.any isa) := by
  induction vs with
  | nil => rfl
  | cons v vs ih =>
    rw [List.map_cons, List.filter_cons, List.filter_cons, ih]
    cases v with
    | none => rfl
    | some x => cases hx : isa x <;> simp [dyncast, notnull, hx]

theorem Lists.filterLlvm {R : RangeType ρ I} {q : Query (Map ρ I (Option I))}
    (isa : I → Bool) (h : Lists (pointersRange R) q vs) :
    Lists (filterLlvmRange R) (filterLlvm isa q) (vs.filter (Option.any isa)) := by
  rw [Lists.iff_eq] at h ⊢
  rw [h, ← filter_map_dyncast]
  rfl

/-- The two implementations of `instructions` agree on a function. -/
theorem Function.lists_instructions (fn : Ref (Function I)) :
    Lists (pointersRange (Function.range I)) (Function.instructions fn)
      (Views.instructionsFunction fn.val) := by
  rw [Lists.iff_eq]
  change (fn.val.flatten).map pointer = (fn.val.flatMap id).map pointer
  rw [List.flatMap_id]

/-- The two implementations of `instructions` agree on a module. -/
theorem LlvmModule.lists_instructions (m : Ref (LlvmModule I)) :
    Lists (pointersRange (LlvmModule.range I)) (LlvmModule.instructions m)
      (Views.instructionsModule m.val) := by
  rw [Lists.iff_eq]
  change (m.val.flatten.flatten).map pointer = ((m.val.flatMap id).flatMap id).map pointer
  rw [List.flatMap_id, List.flatMap_id]

/-- The instructions of a module are those of its functions one after the other, the instructions of
a function those of its blocks, and `filter_llvm` lists those of them that are of the class. -/
theorem instructions_lists (isa : I → Bool) :
    (∀ bb : Ref (BasicBlock I), Lists (pointersRange (BasicBlock.range I)) (BasicBlock.instructions bb)
      (bb.val.map pointer)) ∧
    (∀ fn : Ref (Function I), Lists (pointersRange (Function.range I)) (Function.instructions fn)
        (fn.val.flatMap fun bb => bb.map pointer) ∧
      Lists (filterLlvmRange (Function.range I)) (filterLlvm isa (Function.instructions fn))
        ((fn.val.flatMap fun bb => bb.map pointer).filter (Option.any isa))) ∧
    ∀ m : Ref (LlvmModule I), Lists (pointersRange (LlvmModule.range I)) (LlvmModule.instructions m)
        (m.val.flatMap fun fn => fn.flatMap fun bb => bb.map pointer) ∧
      Lists (filterLlvmRange (LlvmModule.range I)) (filterLlvm isa (LlvmModule.instructions m))
        ((m.val.flatMap fun fn => fn.flatMap fun bb => bb.map pointer).filter (Option.any isa)) := by
  refine ⟨fun bb => Lists.elems (pointersRange (BasicBlock.range I)) _, fun fn => ?_, fun m => ?_⟩
  · have h := Function.lists_instructions fn
    rw [Views.instructionsFunction_eq] at h
    exact ⟨h, h.filterLlvm isa⟩
  · have h := LlvmModule.lists_instructions m
    simp only [Views.instructionsModule_eq, Views.instructionsFunction_eq] at h
    exact ⟨h, h.filterLlvm isa⟩

/-! ## `basicblocks` -/

/-- A function is flattened already. -/
theorem lists_basicblocks (fn : Ref (Function I)) :
    Lists (Function.range I) (basicblocks fn) (Views.join fn.val) := by
  rw [Lists.iff_eq]
  exact List.flatMap_id.symm

/-- The classes of what the two implementations of `basicblocks` enumerate. -/
inductive Value (I : Type) where
  | instruction (i : I)
  | basicblock (bb : BasicBlock I)

/-- `basicblocks` enumerates the blocks of the function, as `views::basicblocks` does. -/
def EnumeratesBlocks (fn : Ref (Function I)) : Prop :=
  ∃ xs, Lists (Function.range I) (basicblocks fn) xs ∧
    xs.map Value.instruction = (Views.basicblocks fn.val).map Value.basicblock

/-- It enumerates instructions instead, so it does only where the function has no blocks. -/
theorem enumeratesBlocks_iff (fn : Ref (Function I)) : EnumeratesBlocks fn ↔ fn.val = [] := by
  constructor
  · intro h
    obtain ⟨xs, -, heq⟩ := h
    cases hfn : fn.val with
    | nil => rfl
    | cons bb bbs =>
      rw [hfn] at heq
      cases xs with
      | nil => cases heq
      | cons x xs => cases heq
  · intro h
    refine ⟨_, lists_basicblocks fn, ?_⟩
    rw [h]
    rfl

/-- A block with one instruction. -/
theorem not_enumeratesBlocks : ¬ EnumeratesBlocks (⟨⟨0, []⟩, [[7]]⟩ : Ref (Function Nat)) := by
  intro h
  obtain ⟨xs, -, heq⟩ := h
  cases xs with
  | nil => cases heq
  | cons x xs => cases heq

end Query
end LlvmSc

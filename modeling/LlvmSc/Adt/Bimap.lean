import Mathlib.Data.Finmap
import Mathlib.Data.Set.Insert
import LlvmSc.Lib.Run

/-!
# Bimaps

`adt::bimap` keeps a map in each direction. They stay inverse to each other under `insert`, and under
`erase` unless it is given the first component of one stored pair and the second component of
another one.
-/

namespace LlvmSc

/-- `detail::rmap` -/
abbrev RMap (κ υ : Type) := Finmap fun _ : κ => υ

variable {κ υ A B : Type} [DecidableEq κ] [DecidableEq A] [DecidableEq B]

/-- `std::map::insert`, which keeps a value that is there already, and whether it inserted. -/
def RMap.tryInsert (m : RMap κ υ) (k : κ) (v : υ) : RMap κ υ × Bool :=
  if k ∈ m then (m, false) else (m.insert k v, true)

/-- `std::invalid_argument` -/
structure InvalidArgument where
  what : String
deriving DecidableEq

structure Bimap (A B : Type) where
  left : RMap A B
  right : RMap B A

namespace Bimap

instance : EmptyCollection (Bimap A B) := ⟨⟨∅, ∅⟩⟩

/-- The answer or the exception, and the bimap then. -/
def insert (m : Bimap A B) (a : A) (b : B) : Except InvalidArgument Bool × Bimap A B :=
  let l := m.left.tryInsert a b
  let r := m.right.tryInsert b a
  if l.2 ≠ r.2 then
    (.error ⟨"bimap: Insert would break bijection"⟩,
      if l.2 then ⟨l.1.erase a, r.1⟩ else ⟨l.1, r.1.erase b⟩)
  else (.ok l.2, ⟨l.1, r.1⟩)

def erase (m : Bimap A B) (a : A) (b : B) : Bimap A B :=
  if a ∈ m.left ∧ b ∈ m.right then ⟨m.left.erase a, m.right.erase b⟩ else m

/-- A call of one of the operations that change a bimap. -/
inductive Op (A B : Type) where
  | insert (a : A) (b : B)
  | erase (a : A) (b : B)

/-- The bimap after a call; an exception that `insert` throws is caught by the caller. -/
def step (m : Bimap A B) : Op A B → Bimap A B
  | .insert a b => (m.insert a b).2
  | .erase a b => m.erase a b

/-- The calls as transitions. -/
abbrev Calls (m : Bimap A B) (op : Op A B) (m' : Bimap A B) : Prop := m' = m.step op

/-- The two maps are inverse to each other. -/
def Inverse (m : Bimap A B) : Prop :=
  ∀ a b, m.left.lookup a = some b ↔ m.right.lookup b = some a

/-! ## `insert` -/

section
variable {m : Bimap A B} {a : A} {b : B}

theorem erase_insert_of_notMem {m : RMap κ υ} {k : κ} {v : υ} (h : k ∉ m) :
    (m.insert k v).erase k = m := by
  refine Finmap.ext_lookup fun x => ?_
  by_cases hx : x = k
  · rw [hx, Finmap.lookup_erase, Finmap.lookup_eq_none.2 h]
  · rw [Finmap.lookup_erase_ne hx, Finmap.lookup_insert_of_ne _ hx]

/-- What a call of `insert` does: the keys are free, or both are stored, or one of them is and the
entry for the other one is taken back. -/
theorem insert_cases (m : Bimap A B) (a : A) (b : B) :
    (a ∉ m.left ∧ b ∉ m.right ∧
      m.insert a b = (.ok true, ⟨m.left.insert a b, m.right.insert b a⟩)) ∨
    (a ∈ m.left ∧ b ∈ m.right ∧ m.insert a b = (.ok false, m)) ∨
    (¬ (a ∈ m.left ↔ b ∈ m.right) ∧
      m.insert a b = (.error ⟨"bimap: Insert would break bijection"⟩, m)) := by
  by_cases ha : a ∈ m.left
  · by_cases hb : b ∈ m.right
    · exact .inr (.inl ⟨ha, hb, by simp [insert, RMap.tryInsert, ha, hb]⟩)
    · refine .inr (.inr ⟨by simp [ha, hb], ?_⟩)
      simp [insert, RMap.tryInsert, ha, hb, erase_insert_of_notMem]
  · by_cases hb : b ∈ m.right
    · refine .inr (.inr ⟨by simp [ha, hb], ?_⟩)
      simp [insert, RMap.tryInsert, ha, hb, erase_insert_of_notMem]
    · exact .inl ⟨ha, hb, by simp [insert, RMap.tryInsert, ha, hb]⟩

/-- A call of `insert` inserts if both keys are free, and otherwise changes nothing. -/
theorem insert_snd : (m.insert a b).2 =
    if a ∉ m.left ∧ b ∉ m.right then ⟨m.left.insert a b, m.right.insert b a⟩ else m := by
  rcases m.insert_cases a b with ⟨ha, hb, heq⟩ | ⟨ha, hb, heq⟩ | ⟨hne, heq⟩
  · rw [heq, if_pos ⟨ha, hb⟩]
  · rw [heq, if_neg fun hfree => hfree.1 ha]
  · rw [heq, if_neg fun hfree => hne (iff_of_false hfree.1 hfree.2)]

theorem insert_error (h : (m.insert a b).1 = .error e) : (m.insert a b).2 = m := by
  rcases m.insert_cases a b with ⟨-, -, heq⟩ | ⟨-, -, heq⟩ | ⟨-, heq⟩
  · rw [heq] at h
    cases h
  · rw [heq]
  · rw [heq]

theorem lookup_insert {m : RMap κ υ} {k x : κ} {v : υ} :
    (m.insert k v).lookup x = if x = k then some v else m.lookup x := by
  split
  next h => rw [h, Finmap.lookup_insert]
  next h => rw [Finmap.lookup_insert_of_ne _ h]

theorem lookup_erase {m : RMap κ υ} {k x : κ} :
    (m.erase k).lookup x = if x = k then none else m.lookup x := by
  split
  next h => rw [h, Finmap.lookup_erase]
  next h => rw [Finmap.lookup_erase_ne h]

theorem Inverse.empty : (∅ : Bimap A B).Inverse := by
  intro a b
  change (none : Option B) = some b ↔ (none : Option A) = some a
  simp

theorem Inverse.insert (h : m.Inverse) (a : A) (b : B) : (m.insert a b).2.Inverse := by
  rw [insert_snd]
  split
  next hfree =>
    obtain ⟨ha, hb⟩ := hfree
    intro x y
    have hx : m.left.lookup a ≠ some y := by simp [Finmap.lookup_eq_none.2 ha]
    have hy : m.right.lookup b ≠ some x := by simp [Finmap.lookup_eq_none.2 hb]
    have hxy := h x y
    rw [lookup_insert, lookup_insert]
    by_cases hxa : x = a
    · by_cases hyb : y = b
      · simp [hxa, hyb]
      · have := (h a y).not.1 hx
        simp [hxa, hyb, this, Ne.symm hyb]
    · by_cases hyb : y = b
      · have := (h x b).not.2 hy
        simp [hxa, hyb, this, Ne.symm hxa]
      · simpa [hxa, hyb] using hxy
  next => exact h

/-! ## `erase` -/

/-- A call of `erase` removes the pair if it is stored, and otherwise changes nothing. -/
def ErasesExactly (m : Bimap A B) (a : A) (b : B) : Prop :=
  if m.left.lookup a = some b then m.erase a b = ⟨m.left.erase a, m.right.erase b⟩
  else m.erase a b = m

/-- Both components are stored, but in different pairs. -/
def Crosses (m : Bimap A B) (a : A) (b : B) : Prop :=
  a ∈ m.left ∧ b ∈ m.right ∧ m.left.lookup a ≠ some b

theorem erasesExactly_iff (h : m.Inverse) : m.ErasesExactly a b ↔ ¬ m.Crosses a b := by
  unfold ErasesExactly Crosses erase
  by_cases hab : m.left.lookup a = some b
  · have ha : a ∈ m.left := Finmap.mem_iff.2 ⟨b, hab⟩
    have hb : b ∈ m.right := Finmap.mem_iff.2 ⟨a, (h a b).1 hab⟩
    simp [hab, ha, hb]
  · rw [if_neg hab]
    split
    next hmem =>
      -- both maps lose a key
      have hne : (⟨m.left.erase a, m.right.erase b⟩ : Bimap A B) ≠ m := by
        intro heq
        have hleft : m.left.erase a = m.left := congrArg left heq
        exact Finmap.notMem_erase_self (hleft ▸ hmem.1)
      simp [hne, hmem.1, hmem.2, hab]
    next hmem =>
      have : ¬ (a ∈ m.left ∧ b ∈ m.right ∧ m.left.lookup a ≠ some b) :=
        fun hcross => hmem ⟨hcross.1, hcross.2.1⟩
      simp only [this, not_false_eq_true]

theorem Inverse.erase (h : m.Inverse) (hcross : ¬ m.Crosses a b) : (m.erase a b).Inverse := by
  unfold Bimap.erase
  split
  next hmem =>
    have hab : m.left.lookup a = some b := by
      by_contra hab
      exact hcross ⟨hmem.1, hmem.2, hab⟩
    intro x y
    have hxy := h x y
    rw [lookup_erase, lookup_erase]
    by_cases hxa : x = a
    · by_cases hyb : y = b
      · simp [hxa, hyb]
      · have hay : m.right.lookup y ≠ some a := by
          intro hay
          have := (h a y).2 hay
          rw [hab, Option.some.injEq] at this
          exact hyb this.symm
        simp [hxa, hyb, hay]
    · by_cases hyb : y = b
      · have hxb : m.left.lookup x ≠ some b := by
          intro hxb
          have := (h x b).1 hxb
          rw [(h a b).1 hab, Option.some.injEq] at this
          exact hxa this.symm
        simp [hxa, hyb, hxb]
      · simpa [hxa, hyb] using hxy
  next => exact h

end

/-! ## Runs -/

/-- In every state of the run from the empty bimap the maps are inverse to each other, and every call
of `erase` removes exactly its pair. -/
def Bijective (ops : List (Op A B)) : Prop :=
  (∀ m, Reached Calls ∅ ops m → m.Inverse) ∧
    Along Calls (fun m op => ∀ a b, op = .erase a b → m.ErasesExactly a b) ∅ ops

/-- No call of `erase` is given the components of two stored pairs. -/
abbrev NeverCrosses (ops : List (Op A B)) : Prop :=
  Along Calls (fun m op => ∀ a b, op = .erase a b → ¬ m.Crosses a b) ∅ ops

theorem Inverse.step {m m' : Bimap A B} {op : Op A B} (h : m.Inverse)
    (hop : ∀ a b, op = .erase a b → ¬ m.Crosses a b) (hm : m' = m.step op) : m'.Inverse := by
  subst hm
  cases op with
  | insert a b => exact h.insert a b
  | erase a b => exact h.erase (hop a b rfl)

theorem along_iff (ops : List (Op A B)) :
    Along Calls (fun m op => ∀ a b, op = .erase a b → m.ErasesExactly a b) ∅ ops ↔
      NeverCrosses ops := by
  refine Along.congr (I := Inverse) ?_ (fun m op m' h => h.step) .empty
  intro m op h
  exact forall_congr' fun a => forall_congr' fun b => imp_congr_right fun _ => erasesExactly_iff h

theorem bijective_iff (ops : List (Op A B)) : Bijective ops ↔ NeverCrosses ops := by
  rw [← along_iff]
  constructor
  · exact fun h => h.2
  · intro h
    refine ⟨fun m hm => ?_, h⟩
    exact hm.inv (I := Inverse) (fun _ _ _ h => h.step) ((along_iff ops).1 h) .empty

/-- The components of two stored pairs, given to `erase`. -/
theorem not_bijective : ¬ Bijective [Op.insert 1 2, .insert 3 4, .erase 1 4] := by
  intro h
  have hrun : Run Calls (∅ : Bimap Nat Nat) [.insert 1 2, .insert 3 4] _ := .cons rfl (.cons rfl .nil)
  have hcross := (along_iff _).1 h.2 _ _ [] _ rfl hrun 1 4 rfl
  exact hcross (by unfold Crosses; decide)

/-! ## The set of stored pairs -/

/-- What a bimap is for: a set of pairs, in which no component is to occur twice. -/
def specStep (s : Set (A × B)) : Op A B → Set (A × B)
  | .insert a b => s ∪ {p | p = (a, b) ∧ ∀ q ∈ s, q.1 ≠ a ∧ q.2 ≠ b}
  | .erase a b => s \ {(a, b)}

def pairs (m : Bimap A B) : Set (A × B) := {p | m.left.lookup p.1 = some p.2}

theorem Inverse.free_iff {m : Bimap A B} (h : m.Inverse) :
    (∀ q ∈ m.pairs, q.1 ≠ a ∧ q.2 ≠ b) ↔ a ∉ m.left ∧ b ∉ m.right := by
  constructor
  · intro hq
    constructor
    · intro ha
      obtain ⟨y, hy⟩ := Finmap.mem_iff.1 ha
      exact (hq (a, y) hy).1 rfl
    · intro hb
      obtain ⟨x, hx⟩ := Finmap.mem_iff.1 hb
      exact (hq (x, b) ((h x b).2 hx)).2 rfl
  · rintro ⟨ha, hb⟩ ⟨x, y⟩ hxy
    constructor
    · rintro rfl
      exact ha (Finmap.mem_iff.2 ⟨y, hxy⟩)
    · rintro rfl
      exact hb (Finmap.mem_iff.2 ⟨x, (h x y).1 hxy⟩)

theorem Inverse.pairs_insert {m : Bimap A B} (h : m.Inverse) (a : A) (b : B) :
    (m.insert a b).2.pairs = specStep m.pairs (.insert a b) := by
  rw [insert_snd]
  ext ⟨x, y⟩
  simp only [specStep, h.free_iff, Set.mem_union, Set.mem_ofPred_eq]
  split
  next hfree =>
    have ha : m.left.lookup a = none := Finmap.lookup_eq_none.2 hfree.1
    by_cases hx : x = a
    · simp [pairs, lookup_insert, hx, ha, hfree, eq_comm]
    · simp [pairs, lookup_insert, hx]
  next hfree => simp [hfree]

theorem Inverse.pairs_erase {m : Bimap A B} (h : m.Inverse) (hcross : ¬ m.Crosses a b) :
    (m.erase a b).pairs = specStep m.pairs (.erase a b) := by
  have hexact := (erasesExactly_iff h).2 hcross
  ext ⟨x, y⟩
  unfold ErasesExactly at hexact
  split at hexact
  next hab =>
    rw [hexact]
    by_cases hx : x = a
    · simp [pairs, specStep, lookup_erase, hx, hab, eq_comm]
    · simp [pairs, specStep, lookup_erase, hx]
  next hab =>
    rw [hexact]
    by_cases hx : x = a
    · subst hx
      by_cases hy : y = b
      · simp [pairs, specStep, hy, hab]
      · simp [specStep, hy]
    · simp [specStep, hx]

/-- A run that never crosses refines the set of pairs. -/
theorem pairs_run {ops : List (Op A B)} {m m' : Bimap A B} (h : m.Inverse)
    (hops : Along Calls (fun m op => ∀ a b, op = .erase a b → ¬ m.Crosses a b) m ops)
    (hrun : Run Calls m ops m') : m'.pairs = ops.foldl specStep m.pairs := by
  induction hrun with
  | nil => rfl
  | @cons m op m₁ ops m' hm _ ih =>
    obtain ⟨hop, hrest⟩ := Along.cons_iff.1 hops
    rw [ih (h.step hop hm) (hrest _ hm), List.foldl_cons, hm]
    congr 1
    cases op with
    | insert a b => exact h.pairs_insert a b
    | erase a b => exact h.pairs_erase (hop a b rfl)

end Bimap
end LlvmSc

import Mathlib.Data.List.Perm.Basic
import LlvmSc.Adt.Bimap

/-!
# Inserting into a bimap

`insert` compares whether the two maps took their entries, so it tells a stored pair from a free one
and from one with a single component stored (`answers_iff`), and takes back the only entry that it
has put in when it throws. The constructors insert pair after pair; from a partial bijection they
build the same bimap in any order.
-/

namespace LlvmSc.Bimap

variable {A B : Type} [DecidableEq A] [DecidableEq B] {m : Bimap A B} {a : A} {b : B}

/-- A call of `insert` for each pair; an exception that it throws is caught by the caller. -/
def insertAll (m : Bimap A B) (ps : List (A × B)) : Bimap A B :=
  ps.foldl (fun m p => (m.insert p.1 p.2).2) m

theorem Inverse.insertAll (h : m.Inverse) (ps : List (A × B)) : (m.insertAll ps).Inverse := by
  induction ps generalizing m with
  | nil => exact h
  | cons p ps ih => exact ih (h.insert p.1 p.2)

/-! ## The answer -/

/-- A call of `insert` answers `true` if both components are free and `false` if the pair is stored,
and throws otherwise. -/
def Answers (m : Bimap A B) (a : A) (b : B) : Prop :=
  ((m.insert a b).1 = .ok true ↔ a ∉ m.left ∧ b ∉ m.right) ∧
    ((m.insert a b).1 = .ok false ↔ m.left.lookup a = some b) ∧
    ((m.insert a b).1 = .error ⟨"bimap: Insert would break bijection"⟩ ↔
      ¬ (a ∉ m.left ∧ b ∉ m.right) ∧ m.left.lookup a ≠ some b)

/-- The flags agree on two components that are stored in different pairs. -/
theorem Crosses.insert_fst (h : m.Crosses a b) : (m.insert a b).1 = .ok false := by
  obtain ⟨ha, hb, _⟩ := h
  rcases m.insert_cases a b with ⟨hfree, -, -⟩ | ⟨-, -, heq⟩ | ⟨hne, -⟩
  · exact absurd ha hfree
  · rw [heq]
  · exact absurd (iff_of_true ha hb) hne

theorem Inverse.answers (h : m.Inverse) (hcross : ¬ m.Crosses a b) : m.Answers a b := by
  have hstored (hab : m.left.lookup a = some b) : a ∈ m.left ∧ b ∈ m.right :=
    ⟨Finmap.mem_iff.2 ⟨b, hab⟩, Finmap.mem_iff.2 ⟨a, (h a b).1 hab⟩⟩
  unfold Answers
  rcases m.insert_cases a b with ⟨ha, hb, heq⟩ | ⟨ha, hb, heq⟩ | ⟨hne, heq⟩
  · have hab : m.left.lookup a ≠ some b := fun hab => ha (hstored hab).1
    simp [heq, ha, hb, hab]
  · have hab : m.left.lookup a = some b := by
      by_contra hab
      exact hcross ⟨ha, hb, hab⟩
    simp [heq, ha, hab]
  · have hab : m.left.lookup a ≠ some b :=
      fun hab => hne (iff_of_true (hstored hab).1 (hstored hab).2)
    have hfree : ¬ (a ∉ m.left ∧ b ∉ m.right) := fun hfree => hne (iff_of_false hfree.1 hfree.2)
    simp [heq, hfree, hab]

theorem Inverse.answers_iff (h : m.Inverse) : m.Answers a b ↔ ¬ m.Crosses a b := by
  constructor
  · intro hans hcross
    exact hcross.2.2 (hans.2.1.1 hcross.insert_fst)
  · exact h.answers

/-- After any calls of `insert`, the next one answers as it should if it does not cross. -/
theorem answers_insertAll_iff (ps : List (A × B)) (a : A) (b : B) :
    (insertAll ∅ ps).Answers a b ↔ ¬ (insertAll ∅ ps).Crosses a b :=
  (Inverse.empty.insertAll ps).answers_iff

/-- The components of two stored pairs, given to `insert`. -/
theorem not_answers : ¬ (insertAll ∅ [(1, 2), (3, 4)] : Bimap Nat Nat).Answers 1 4 := by
  intro h
  have hlookup := h.2.1.1 (by decide)
  exact absurd hlookup (by decide)

/-! ## The two maps after a call -/

/-- A call that answers `true` has put one entry in each map; any other leaves both as they were. -/
theorem insert_atomic (m : Bimap A B) (a : A) (b : B) :
    ((m.insert a b).1 = .ok true → a ∉ m.left ∧ b ∉ m.right ∧
      (m.insert a b).2 = ⟨m.left.insert a b, m.right.insert b a⟩) ∧
    ((m.insert a b).1 ≠ .ok true → (m.insert a b).2 = m) := by
  rcases m.insert_cases a b with ⟨ha, hb, heq⟩ | ⟨-, -, heq⟩ | ⟨-, heq⟩
  · simp [heq, ha, hb]
  · simp [heq]
  · simp [heq]

/-! ## Sets of pairs -/

/-- No component occurs in two pairs. -/
def PartialBijection (s : Set (A × B)) : Prop :=
  ∀ p ∈ s, ∀ q ∈ s, p.1 = q.1 ∨ p.2 = q.2 → p = q

theorem Inverse.ext_pairs {m' : Bimap A B} (h : m.Inverse) (h' : m'.Inverse)
    (hpairs : m.pairs = m'.pairs) : m = m' := by
  have hleft (x y) : m.left.lookup x = some y ↔ m'.left.lookup x = some y :=
    Set.ext_iff.1 hpairs (x, y)
  have hright (y x) : m.right.lookup y = some x ↔ m'.right.lookup y = some x := by
    rw [← h x y, ← h' x y]
    exact hleft x y
  obtain ⟨l, r⟩ := m
  obtain ⟨l', r'⟩ := m'
  obtain rfl : l = l' := Finmap.ext_lookup fun x => Option.ext (hleft x)
  obtain rfl : r = r' := Finmap.ext_lookup fun y => Option.ext (hright y)
  rfl

/-- A pair that shares no component with another one is inserted or stored already. -/
theorem Inverse.insert_ok (h : m.Inverse) (hs : PartialBijection (m.pairs ∪ {(a, b)})) :
    ∃ c, (m.insert a b).1 = .ok c ∧ (m.insert a b).2.pairs = m.pairs ∪ {(a, b)} := by
  have hab : (a, b) ∈ m.pairs ∪ {(a, b)} := .inr rfl
  have hshare : ∀ q ∈ m.pairs, q.1 = a ∨ q.2 = b → q = (a, b) :=
    fun q hq => hs q (.inl hq) (a, b) hab
  have hleft (ha : a ∈ m.left) : m.left.lookup a = some b := by
    obtain ⟨y, hy⟩ := Finmap.mem_iff.1 ha
    cases hshare (a, y) hy (.inl rfl)
    exact hy
  have hright (hb : b ∈ m.right) : m.left.lookup a = some b := by
    obtain ⟨x, hx⟩ := Finmap.mem_iff.1 hb
    have hxb := (h x b).2 hx
    cases hshare (x, b) hxb (.inr rfl)
    exact hxb
  rcases m.insert_cases a b with ⟨ha, hb, heq⟩ | ⟨ha, -, heq⟩ | ⟨hne, -⟩
  · refine ⟨true, by rw [heq], ?_⟩
    rw [h.pairs_insert, specStep]
    congr 1
    ext q
    exact and_iff_left (h.free_iff.2 ⟨ha, hb⟩)
  · refine ⟨false, by rw [heq], ?_⟩
    have hstored : (a, b) ∈ m.pairs := hleft ha
    rw [heq, Set.union_singleton, Set.insert_eq_of_mem hstored]
  · refine absurd ⟨fun ha => ?_, fun hb => ?_⟩ hne
    · exact Finmap.mem_iff.2 ⟨a, (h a b).1 (hleft ha)⟩
    · exact Finmap.mem_iff.2 ⟨b, hright hb⟩

/-! ## The constructors -/

/-- The loop of the constructors; an exception that `insert` throws ends it. -/
def insertEach (m : Bimap A B) : List (A × B) → Except InvalidArgument (Bimap A B)
  | [] => .ok m
  | p :: ps =>
    match (m.insert p.1 p.2).1 with
    | .ok _ => (m.insert p.1 p.2).2.insertEach ps
    | .error e => .error e

/-- `bimap(std::initializer_list)` -/
def ofInitializerList (init : List (A × B)) : Except InvalidArgument (Bimap A B) :=
  insertEach ∅ init

/-- `bimap(begin, end)`, given what the iterators run over. -/
def ofRange (range : List (A × B)) : Except InvalidArgument (Bimap A B) :=
  insertEach ∅ range

theorem Inverse.insertEach_ok {ps : List (A × B)} (h : m.Inverse)
    (hs : PartialBijection (m.pairs ∪ {p | p ∈ ps})) :
    ∃ m', m.insertEach ps = .ok m' ∧ m'.Inverse ∧ m'.pairs = m.pairs ∪ {p | p ∈ ps} := by
  induction ps generalizing m with
  | nil => exact ⟨m, rfl, h, by simp⟩
  | cons p ps ih =>
    obtain ⟨a, b⟩ := p
    have hcons : m.pairs ∪ {q | q ∈ (a, b) :: ps} = m.pairs ∪ {(a, b)} ∪ {q | q ∈ ps} := by
      ext q
      simp only [Set.mem_union, Set.mem_ofPred_eq, Set.mem_singleton_iff, List.mem_cons, or_assoc]
    rw [hcons] at hs ⊢
    have hhead : PartialBijection (m.pairs ∪ {(a, b)}) :=
      fun p hp q hq => hs p (.inl hp) q (.inl hq)
    obtain ⟨c, hans, hpairs⟩ := h.insert_ok hhead
    rw [← hpairs] at hs ⊢
    rw [insertEach, hans]
    exact ih (h.insert a b) hs

/-- The bimap that is built from a partial bijection does not depend on the order of its pairs. -/
theorem construct_perm {ps : List (A × B)} (h : PartialBijection {p | p ∈ ps}) :
    ∃ m : Bimap A B,
      (∀ qs, qs.Perm ps → ofInitializerList qs = .ok m ∧ ofRange qs = .ok m) ∧
      ∀ a b, ((a, b) ∈ ps ↔ m.left.lookup a = some b) ∧
        (m.left.lookup a = some b ↔ m.right.lookup b = some a) := by
  have hbuild {qs : List (A × B)} (hqs : qs.Perm ps) :
      ∃ m : Bimap A B, insertEach ∅ qs = .ok m ∧ m.Inverse ∧ m.pairs = {p | p ∈ ps} := by
    have hempty : (∅ : Bimap A B).pairs ∪ {p | p ∈ qs} = {p | p ∈ ps} := by
      ext p
      have hnone : (∅ : Bimap A B).left.lookup p.1 = none := Finmap.lookup_empty _
      simp [pairs, hnone, hqs.mem_iff]
    rw [← hempty] at h ⊢
    exact Inverse.empty.insertEach_ok h
  obtain ⟨m, _, hm, hpairs⟩ := hbuild (.refl ps)
  refine ⟨m, fun qs hqs => ?_, fun a b => ⟨?_, hm a b⟩⟩
  · obtain ⟨m', hrun, hm', hpairs'⟩ := hbuild hqs
    obtain rfl := hm'.ext_pairs hm (hpairs'.trans hpairs.symm)
    exact ⟨hrun, hrun⟩
  · exact (Set.ext_iff.1 hpairs (a, b)).symm

/-- A list with a repetition. -/
theorem construct_perm_repeated : ∃ m : Bimap Nat Nat,
    (∀ qs, qs.Perm [(1, 2), (3, 4), (1, 2)] → ofInitializerList qs = .ok m ∧ ofRange qs = .ok m) ∧
    ∀ a b, ((a, b) ∈ [(1, 2), (3, 4), (1, 2)] ↔ m.left.lookup a = some b) ∧
      (m.left.lookup a = some b ↔ m.right.lookup b = some a) :=
  construct_perm (by simp [PartialBijection])

end LlvmSc.Bimap

import LlvmSc.Adt.Bimap

/-!
# Calls of a bimap and their answers

The calls of `adt::bimap` with what they return or throw. As long as no call is given the components
of two different stored pairs, the answers are those of a set of pairs (`refines`). Behind a call of
`erase` that is given them, the maps still have the same size, so that one of them tells whether
they are inverse to each other (`inverse_iff_left`).
-/

namespace LlvmSc

variable {κ υ A B : Type} [DecidableEq κ] [DecidableEq A] [DecidableEq B]

/-- The `operator[]` of a `const rmap`; without an answer it throws `std::out_of_range`. -/
def RMap.index (m : RMap κ υ) (key : κ) : Option υ := m.lookup key

/-- `std::map::count` -/
def RMap.count (m : RMap κ υ) (key : κ) : Nat := if key ∈ m then 1 else 0

namespace Bimap

/-- A call of one of the operations, of which `operator[]` and `count` take a key of either type. -/
inductive Call (A B : Type) where
  | op (o : Op A B)
  | indexLeft (key : A)
  | indexRight (key : B)
  | countLeft (key : A)
  | countRight (key : B)

inductive Answer (A B : Type) where
  | void
  | bool (c : Bool)
  | right (b : B)
  | left (a : A)
  | size (n : Nat)
  | invalidArgument (e : InvalidArgument)
  | outOfRange

/-- What a call returns or throws, and the bimap then. -/
def exec (m : Bimap A B) : Call A B → Answer A B × Bimap A B
  | .op (.insert a b) =>
    match m.insert a b with
    | (.ok c, m) => (.bool c, m)
    | (.error e, m) => (.invalidArgument e, m)
  | .op (.erase a b) => (.void, m.erase a b)
  | .indexLeft key =>
    match m.left.index key with
    | some b => (.right b, m)
    | none => (.outOfRange, m)
  | .indexRight key =>
    match m.right.index key with
    | some a => (.left a, m)
    | none => (.outOfRange, m)
  | .countLeft key => (.size (m.left.count key), m)
  | .countRight key => (.size (m.right.count key), m)

/-- What the calls return or throw, one after the other. -/
def replies (m : Bimap A B) : List (Call A B) → List (Answer A B)
  | [] => []
  | c :: calls => (m.exec c).1 :: replies (m.exec c).2 calls

/-! ## Sets of pairs -/

/-- What a set of pairs answers to a call, and the set then. -/
inductive Spec (s : Set (A × B)) : Call A B → Answer A B → Set (A × B) → Prop
  | insert_free (h : ∀ q ∈ s, q.1 ≠ a ∧ q.2 ≠ b) :
      Spec s (.op (.insert a b)) (.bool true) (s ∪ {(a, b)})
  | insert_stored (h : (a, b) ∈ s) : Spec s (.op (.insert a b)) (.bool false) s
  | insert_clash (h : (a, b) ∉ s) (hq : q ∈ s) (hshare : q.1 = a ∨ q.2 = b) :
      Spec s (.op (.insert a b))
        (.invalidArgument ⟨"bimap: Insert would break bijection"⟩) s
  | erase : Spec s (.op (.erase a b)) .void (s \ {(a, b)})
  | indexLeft (h : (a, b) ∈ s) : Spec s (.indexLeft a) (.right b) s
  | indexLeft_none (h : ∀ b, (a, b) ∉ s) : Spec s (.indexLeft a) .outOfRange s
  | indexRight (h : (a, b) ∈ s) : Spec s (.indexRight b) (.left a) s
  | indexRight_none (h : ∀ a, (a, b) ∉ s) : Spec s (.indexRight b) .outOfRange s
  | countLeft (h : (a, b) ∈ s) : Spec s (.countLeft a) (.size 1) s
  | countLeft_none (h : ∀ b, (a, b) ∉ s) : Spec s (.countLeft a) (.size 0) s
  | countRight (h : (a, b) ∈ s) : Spec s (.countRight b) (.size 1) s
  | countRight_none (h : ∀ a, (a, b) ∉ s) : Spec s (.countRight b) (.size 0) s

/-- The answers of a set of pairs to calls, one after the other. -/
inductive SpecRun : Set (A × B) → List (Call A B) → List (Answer A B) → Prop
  | nil : SpecRun s [] []
  | cons (h : Spec s c r s') (hs : SpecRun s' calls rs) : SpecRun s (c :: calls) (r :: rs)

/-- The call answers as the set of the stored pairs does, and leaves what is left of it. -/
def Conforms (m : Bimap A B) (c : Call A B) : Prop :=
  Spec m.pairs c (m.exec c).1 (m.exec c).2.pairs

/-- The call is given the components of two stored pairs. -/
def CrossedBy (m : Bimap A B) : Call A B → Prop
  | .op (.insert a b) => m.Crosses a b
  | .op (.erase a b) => m.Crosses a b
  | _ => False

/-! ## A call -/

omit [DecidableEq B] in
theorem lookup_eq_none_iff {m : Bimap A B} {a : A} :
    m.left.lookup a = none ↔ ∀ b, (a, b) ∉ m.pairs :=
  Option.eq_none_iff_forall_ne_some

section
variable {m : Bimap A B} {a : A} {b : B} {c : Call A B}

theorem Inverse.lookup_eq_none_iff (h : m.Inverse) :
    m.right.lookup b = none ↔ ∀ a, (a, b) ∉ m.pairs := by
  refine Option.eq_none_iff_forall_ne_some.trans (forall_congr' fun a => ?_)
  exact (h a b).not.symm

/-- A component that is a key is the component of a pair. -/
theorem Inverse.exists_pair (h : m.Inverse) (hne : ¬ (a ∈ m.left ↔ b ∈ m.right)) :
    ∃ q ∈ m.pairs, q.1 = a ∨ q.2 = b := by
  by_cases ha : a ∈ m.left
  · obtain ⟨y, hy⟩ := Finmap.mem_iff.1 ha
    exact ⟨(a, y), hy, .inl rfl⟩
  · by_cases hb : b ∈ m.right
    · obtain ⟨x, hx⟩ := Finmap.mem_iff.1 hb
      exact ⟨(x, b), (h x b).2 hx, .inr rfl⟩
    · exact absurd (iff_of_false ha hb) hne

theorem Inverse.pairs_insert_free (h : m.Inverse) (ha : a ∉ m.left) (hb : b ∉ m.right) :
    (m.insert a b).2.pairs = m.pairs ∪ {(a, b)} := by
  rw [h.pairs_insert, specStep]
  congr 1
  ext q
  exact and_iff_left (h.free_iff.2 ⟨ha, hb⟩)

theorem Inverse.conforms_insert (h : m.Inverse) :
    m.Conforms (.op (.insert a b)) ↔ ¬ m.Crosses a b := by
  have hstored (hab : (a, b) ∈ m.pairs) : a ∈ m.left ∧ b ∈ m.right :=
    ⟨Finmap.mem_iff.2 ⟨b, hab⟩, Finmap.mem_iff.2 ⟨a, (h a b).1 hab⟩⟩
  rcases m.insert_cases a b with ⟨ha, hb, heq⟩ | ⟨ha, hb, heq⟩ | ⟨hne, heq⟩
  · have hpairs := h.pairs_insert_free ha hb
    rw [heq] at hpairs
    simp only [Conforms, exec, heq, hpairs]
    exact iff_of_true (.insert_free (h.free_iff.2 ⟨ha, hb⟩)) fun hcross => ha hcross.1
  · simp only [Conforms, exec, heq]
    constructor
    · intro hspec hcross
      cases hspec with
      | insert_stored hab => exact hcross.2.2 hab
    · intro hcross
      refine .insert_stored ?_
      by_contra hab
      exact hcross ⟨ha, hb, hab⟩
  · simp only [Conforms, exec, heq]
    obtain ⟨q, hq, hshare⟩ := h.exists_pair hne
    refine iff_of_true (.insert_clash (fun hab => ?_) hq hshare) fun hcross => ?_
    · exact hne (iff_of_true (hstored hab).1 (hstored hab).2)
    · exact hne (iff_of_true hcross.1 hcross.2.1)

theorem Inverse.conforms_erase (h : m.Inverse) :
    m.Conforms (.op (.erase a b)) ↔ ¬ m.Crosses a b := by
  constructor
  · intro hspec hcross
    change Spec m.pairs _ .void (m.erase a b).pairs at hspec
    obtain ⟨y, hy⟩ := Finmap.mem_iff.1 hcross.1
    -- the pair of `a` is lost, and is not the one to be removed
    have hkept : (a, y) ∈ m.pairs \ {(a, b)} := by
      refine ⟨hy, fun heq => hcross.2.2 ?_⟩
      cases heq
      exact hy
    have hpairs : (m.erase a b).pairs = m.pairs \ {(a, b)} := by
      generalize (m.erase a b).pairs = s at hspec
      cases hspec
      rfl
    rw [← hpairs, Bimap.erase, if_pos ⟨hcross.1, hcross.2.1⟩] at hkept
    have hlost : (m.left.erase a).lookup a = some y := hkept
    rw [Finmap.lookup_erase] at hlost
    cases hlost
  · intro hcross
    have hpairs := h.pairs_erase hcross
    change Spec m.pairs _ .void (m.erase a b).pairs
    rw [hpairs]
    exact .erase

theorem conforms_left (key : A) :
    m.Conforms (.indexLeft key) ∧ m.Conforms (.countLeft key) := by
  cases hb : m.left.lookup key with
  | none =>
    have hkey : key ∉ m.left := Finmap.lookup_eq_none.1 hb
    simp only [Conforms, exec, RMap.index, RMap.count, hb, if_neg hkey]
    exact ⟨.indexLeft_none (lookup_eq_none_iff.1 hb), .countLeft_none (lookup_eq_none_iff.1 hb)⟩
  | some b =>
    have hkey : key ∈ m.left := Finmap.mem_iff.2 ⟨b, hb⟩
    simp only [Conforms, exec, RMap.index, RMap.count, hb, if_pos hkey]
    exact ⟨.indexLeft hb, .countLeft hb⟩

theorem Inverse.conforms_right (h : m.Inverse) (key : B) :
    m.Conforms (.indexRight key) ∧ m.Conforms (.countRight key) := by
  cases ha : m.right.lookup key with
  | none =>
    have hkey : key ∉ m.right := Finmap.lookup_eq_none.1 ha
    have hnone := h.lookup_eq_none_iff.1 ha
    simp only [Conforms, exec, RMap.index, RMap.count, ha, if_neg hkey]
    exact ⟨.indexRight_none hnone, .countRight_none hnone⟩
  | some a =>
    have hkey : key ∈ m.right := Finmap.mem_iff.2 ⟨a, ha⟩
    have hpair := (h a key).2 ha
    simp only [Conforms, exec, RMap.index, RMap.count, ha, if_pos hkey]
    exact ⟨.indexRight hpair, .countRight hpair⟩

theorem Inverse.conforms_iff (h : m.Inverse) (c : Call A B) : m.Conforms c ↔ ¬ m.CrossedBy c := by
  cases c with
  | op o =>
    cases o with
    | insert a b => exact h.conforms_insert
    | erase a b => exact h.conforms_erase
  | indexLeft key => exact iff_of_true (conforms_left key).1 id
  | indexRight key => exact iff_of_true (h.conforms_right key).1 id
  | countLeft key => exact iff_of_true (conforms_left key).2 id
  | countRight key => exact iff_of_true (h.conforms_right key).2 id

theorem exec_insert : (m.exec (.op (.insert a b))).2 = (m.insert a b).2 := by
  rw [exec]
  rcases m.insert_cases a b with ⟨-, -, heq⟩ | ⟨-, -, heq⟩ | ⟨-, heq⟩ <;> rw [heq]

theorem Inverse.exec (h : m.Inverse) (hc : ¬ m.CrossedBy c) : (m.exec c).2.Inverse := by
  cases c with
  | op o =>
    cases o with
    | insert a b =>
      rw [exec_insert]
      exact h.insert a b
    | erase a b => exact h.erase hc
  | indexLeft key =>
    rw [Bimap.exec]
    cases m.left.index key <;> exact h
  | indexRight key =>
    rw [Bimap.exec]
    cases m.right.index key <;> exact h
  | countLeft key => exact h
  | countRight key => exact h

/-- A set of pairs that no component is twice in has one answer to a call. -/
theorem Inverse.spec_unique (h : m.Inverse) (hspec : Spec m.pairs c r s)
    (hspec' : Spec m.pairs c r' s') : r = r' ∧ s = s' := by
  have hleft {a : A} {b b' : B} (hb : (a, b) ∈ m.pairs) (hb' : (a, b') ∈ m.pairs) : b = b' :=
    Option.some.inj (hb.symm.trans hb')
  have hright {a a' : A} {b : B} (ha : (a, b) ∈ m.pairs) (ha' : (a', b) ∈ m.pairs) : a = a' :=
    Option.some.inj (((h a b).1 ha).symm.trans ((h a' b).1 ha'))
  cases hspec with
  | insert_free hfree =>
    cases hspec' with
    | insert_free => exact ⟨rfl, rfl⟩
    | insert_stored hab => exact absurd rfl (hfree _ hab).1
    | insert_clash _ hq hshare => exact absurd hshare (not_or.2 (hfree _ hq))
  | insert_stored hab =>
    cases hspec' with
    | insert_free hfree => exact absurd rfl (hfree _ hab).1
    | insert_stored => exact ⟨rfl, rfl⟩
    | insert_clash hab' => exact absurd hab hab'
  | insert_clash hab hq hshare =>
    cases hspec' with
    | insert_free hfree => exact absurd hshare (not_or.2 (hfree _ hq))
    | insert_stored hab' => exact absurd hab' hab
    | insert_clash => exact ⟨rfl, rfl⟩
  | erase =>
    cases hspec'
    exact ⟨rfl, rfl⟩
  | indexLeft hb =>
    cases hspec' with
    | indexLeft hb' => exact ⟨by rw [hleft hb hb'], rfl⟩
    | indexLeft_none hnone => exact absurd hb (hnone _)
  | indexLeft_none hnone =>
    cases hspec' with
    | indexLeft hb => exact absurd hb (hnone _)
    | indexLeft_none => exact ⟨rfl, rfl⟩
  | indexRight ha =>
    cases hspec' with
    | indexRight ha' => exact ⟨by rw [hright ha ha'], rfl⟩
    | indexRight_none hnone => exact absurd ha (hnone _)
  | indexRight_none hnone =>
    cases hspec' with
    | indexRight ha => exact absurd ha (hnone _)
    | indexRight_none => exact ⟨rfl, rfl⟩
  | countLeft hb =>
    cases hspec' with
    | countLeft => exact ⟨rfl, rfl⟩
    | countLeft_none hnone => exact absurd hb (hnone _)
  | countLeft_none hnone =>
    cases hspec' with
    | countLeft hb => exact absurd hb (hnone _)
    | countLeft_none => exact ⟨rfl, rfl⟩
  | countRight ha =>
    cases hspec' with
    | countRight => exact ⟨rfl, rfl⟩
    | countRight_none hnone => exact absurd ha (hnone _)
  | countRight_none hnone =>
    cases hspec' with
    | countRight ha => exact absurd ha (hnone _)
    | countRight_none => exact ⟨rfl, rfl⟩

end

/-! ## Runs -/

/-- The calls as transitions. -/
abbrev Executes (m : Bimap A B) (c : Call A B) (m' : Bimap A B) : Prop := m' = (m.exec c).2

/-- No call is given the components of two stored pairs. -/
abbrev NeverCrossed (m : Bimap A B) (calls : List (Call A B)) : Prop :=
  Along Executes (fun m c => ¬ m.CrossedBy c) m calls

theorem Inverse.executes {m m' : Bimap A B} {c : Call A B} (h : m.Inverse) (hc : ¬ m.CrossedBy c)
    (hm : m' = (m.exec c).2) : m'.Inverse := by
  subst hm
  exact h.exec hc

theorem Inverse.specRun_iff {m : Bimap A B} {calls : List (Call A B)} {rs : List (Answer A B)}
    (h : m.Inverse) (hcalls : m.NeverCrossed calls) :
    SpecRun m.pairs calls rs ↔ rs = m.replies calls := by
  induction calls generalizing m rs with
  | nil =>
    constructor
    · intro hrun
      cases hrun
      rfl
    · rintro rfl
      exact .nil
  | cons c calls ih =>
    obtain ⟨hc, hrest⟩ := Along.cons_iff.1 hcalls
    have hspec := (h.conforms_iff c).2 hc
    have ih := @ih _ (rs.drop 1) (h.exec hc) (hrest _ rfl)
    constructor
    · intro hrun
      cases hrun with
      | cons hhead htail =>
        obtain ⟨rfl, rfl⟩ := h.spec_unique hhead hspec
        rw [replies, ← ih.1 htail]
        rfl
    · rintro rfl
      exact .cons hspec (ih.2 rfl)

/-- The calls from the empty bimap answer as a set of pairs, step by step, exactly if no one is
given the components of two stored pairs, and then there are no other answers of the set. -/
theorem refines (calls : List (Call A B)) :
    (Along Executes Conforms ∅ calls ↔ NeverCrossed ∅ calls) ∧
      (NeverCrossed ∅ calls → ∀ rs, SpecRun ∅ calls rs ↔ rs = replies ∅ calls) := by
  constructor
  · exact Along.congr (I := Inverse) (fun m c h => h.conforms_iff c)
      (fun _ _ _ h => h.executes) .empty
  · intro hcalls rs
    have hempty : (∅ : Bimap A B).pairs = ∅ := by
      ext p
      exact iff_of_false (fun hp => by cases hp) id
    rw [← hempty]
    exact Inverse.empty.specRun_iff hcalls

/-! ## Runs that cross -/

theorem keys_insert {m : RMap κ υ} {k : κ} {v : υ} :
    (m.insert k v).keys = Insert.insert k m.keys := by
  ext x
  rw [Finmap.mem_keys, Finmap.mem_insert, Finset.mem_insert, Finmap.mem_keys]

/-- Every call puts an entry into both maps, takes one from both maps or leaves both as they are. -/
theorem card_step {m : Bimap A B} (h : m.left.keys.card = m.right.keys.card) (op : Op A B) :
    (m.step op).left.keys.card = (m.step op).right.keys.card := by
  cases op with
  | insert a b =>
    rw [step, insert_snd]
    split
    next hfree =>
      have ha : a ∉ m.left.keys := fun ha => hfree.1 (Finmap.mem_keys.1 ha)
      have hb : b ∉ m.right.keys := fun hb => hfree.2 (Finmap.mem_keys.1 hb)
      rw [keys_insert, keys_insert, Finset.card_insert_of_notMem ha,
        Finset.card_insert_of_notMem hb, h]
    next => exact h
  | erase a b =>
    rw [step, erase]
    split
    next hmem =>
      rw [Finmap.keys_erase, Finmap.keys_erase, Finset.card_erase_of_mem (Finmap.mem_keys.2 hmem.1),
        Finset.card_erase_of_mem (Finmap.mem_keys.2 hmem.2), h]
    next => exact h

theorem card_foldl (ops : List (Op A B)) {m : Bimap A B}
    (h : m.left.keys.card = m.right.keys.card) :
    (ops.foldl step m).left.keys.card = (ops.foldl step m).right.keys.card := by
  induction ops generalizing m with
  | nil => exact h
  | cons op ops ih => exact ih (card_step h op)

/-- If one map is no smaller than the other one and its entries, turned round, are entries of it,
then so are those of the other one. -/
theorem lookup_of_card_le {l : RMap A B} {r : RMap B A} (hcard : r.keys.card ≤ l.keys.card)
    (h : ∀ a b, l.lookup a = some b → r.lookup b = some a) {a : A} {b : B}
    (hb : r.lookup b = some a) : l.lookup a = some b := by
  have hsome {a : A} (ha : a ∈ l.keys) : (l.lookup a).isSome :=
    Finmap.lookup_isSome.2 (Finmap.mem_keys.1 ha)
  have hget {a : A} (ha : a ∈ l.keys) : r.lookup ((l.lookup a).get (hsome ha)) = some a :=
    h a _ (Option.some_get _).symm
  obtain ⟨a', ha', rfl⟩ := Finset.surj_on_of_inj_on_of_card_le
    (fun a ha => (l.lookup a).get (hsome ha))
    (fun a ha => Finmap.mem_keys.2 (Finmap.mem_iff.2 ⟨a, hget ha⟩))
    (fun a a' ha ha' heq => Option.some.inj ((hget ha).symm.trans (heq ▸ hget ha')))
    hcard b (Finmap.mem_keys.2 (Finmap.mem_iff.2 ⟨a, hb⟩))
  cases (hget ha').symm.trans hb
  exact (Option.some_get _).symm

section
variable {m : RMap κ υ} {k x : κ} {v y : υ}

theorem of_lookup_insert (h : (m.insert k v).lookup x = some y) :
    (x = k ∧ y = v) ∨ m.lookup x = some y := by
  rw [lookup_insert] at h
  split at h
  next hx => exact .inl ⟨hx, (Option.some.inj h).symm⟩
  next => exact .inr h

theorem of_lookup_erase (h : (m.erase k).lookup x = some y) : m.lookup x = some y := by
  rw [lookup_erase] at h
  split at h
  next => cases h
  next => exact h

end

/-- The entries are pairs that calls of `insert` were given. -/
structure Given (s : Set (A × B)) (m : Bimap A B) : Prop where
  left : ∀ {a b}, m.left.lookup a = some b → (a, b) ∈ s
  right : ∀ {a b}, m.right.lookup b = some a → (a, b) ∈ s

theorem Given.step {m : Bimap A B} {s : Set (A × B)} (h : Given s m) {op : Op A B}
    (hop : ∀ a b, op = .insert a b → (a, b) ∈ s) : Given s (m.step op) := by
  cases op with
  | insert a b =>
    have hab := hop a b rfl
    rw [Bimap.step, insert_snd]
    split
    next =>
      constructor
      · intro x y hxy
        rcases of_lookup_insert hxy with ⟨rfl, rfl⟩ | hxy
        · exact hab
        · exact h.left hxy
      · intro x y hxy
        rcases of_lookup_insert hxy with ⟨rfl, rfl⟩ | hxy
        · exact hab
        · exact h.right hxy
    next => exact h
  | erase a b =>
    rw [Bimap.step, Bimap.erase]
    split
    next => exact ⟨fun hxy => h.left (of_lookup_erase hxy), fun hxy => h.right (of_lookup_erase hxy)⟩
    next => exact h

theorem Given.foldl {m : Bimap A B} {s : Set (A × B)} (h : Given s m) {ops : List (Op A B)}
    (hops : ∀ a b, .insert a b ∈ ops → (a, b) ∈ s) : Given s (ops.foldl Bimap.step m) := by
  induction ops generalizing m with
  | nil => exact h
  | cons op ops ih =>
    have hhead : ∀ a b, op = .insert a b → (a, b) ∈ s := by
      rintro a b rfl
      exact hops a b List.mem_cons_self
    exact ih (h.step hhead) fun a b hmem => hops a b (List.mem_cons_of_mem op hmem)

/-- After any calls the two maps have the same size and their entries were inserted, and they are
inverse to each other already if the entries of one of them are in the other one. -/
theorem inverse_iff_left (ops : List (Op A B)) :
    (ops.foldl step ∅).left.keys.card = (ops.foldl step ∅).right.keys.card ∧
    (∀ a b, (ops.foldl step ∅).left.lookup a = some b ∨
      (ops.foldl step ∅).right.lookup b = some a → .insert a b ∈ ops) ∧
    ((ops.foldl step ∅).Inverse ↔ ∀ a b, (ops.foldl step ∅).left.lookup a = some b →
      (ops.foldl step ∅).right.lookup b = some a) ∧
    ((ops.foldl step ∅).Inverse ↔ ∀ a b, (ops.foldl step ∅).right.lookup b = some a →
      (ops.foldl step ∅).left.lookup a = some b) := by
  have hcard := card_foldl ops (m := (∅ : Bimap A B)) rfl
  have hgiven : Given {p | .insert p.1 p.2 ∈ ops} (ops.foldl step ∅) :=
    Given.foldl ⟨fun hxy => (by cases hxy), fun hxy => (by cases hxy)⟩ fun _ _ hmem => hmem
  refine ⟨hcard, fun a b hab => ?_, ⟨fun h a b => (h a b).1, fun h a b => ⟨h a b, ?_⟩⟩,
    ⟨fun h a b => (h a b).2, fun h a b => ⟨?_, h a b⟩⟩⟩
  · exact hab.elim hgiven.left hgiven.right
  · exact lookup_of_card_le (Nat.le_of_eq hcard.symm) h
  · exact lookup_of_card_le (Nat.le_of_eq hcard) fun b a => h a b

end Bimap
end LlvmSc

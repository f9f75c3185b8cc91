import LlvmSc.Builder.Effect
import LlvmSc.Builder.Failure

/-!
# Void values

`condbr`, `branch` and a `call` of a void function push the instruction they emit, which has no value;
so do a load and a cast that are asked for the type void. In a run in which everything supplied is a
value, `popvalue` hands out values only, exactly if no absent operand is taken from a slot that one of
these actions has pushed (`handsValues_iff`). Which slots these are is known from the actions alone
(`Marks`).
-/

namespace LlvmSc.Builder

variable {V T : Type}

/-- Everything that the action supplies or pushes is a value; the callback of `inspect` may rearrange
the stack, and what it adds to it are values. -/
def Action.Supplies (L : LLVM V T) (a : Action V T) : Prop :=
  (∀ v ∈ a.supplied, L.isVoid v = false) ∧
    ∀ call, a = .inspect call → ∀ s, ∀ v ∈ (call s).stack, v ∈ s.stack ∨ L.isVoid v = false

/-- What `popvalue` hands out for an absent operand is a value. -/
def HandsValues (L : LLVM V T) (s : State V T) (a : Action V T) : Prop :=
  ∀ (i : Nat) v, (a.popped (s.nonVoid L))[i]? = some none →
    (fill s.keepStack (a.popped (s.nonVoid L)) s.stack)[i]? = some v → L.isVoid v = false

/-- The slots of the stack, marked where they have been pushed by `condbr`, `branch`, a `call` of a
void function, or a load or a cast to the type void. -/
structure Marks where
  stack : List Bool
  keepStack : Bool
  /-- `functions.back()` returns a value -/
  nonVoid : Bool

namespace Marks

def init : Marks := ⟨[], false, false⟩

/-- What an action does to the slots. Where the callback of `inspect` leaves something that was in a
marked slot, the slot is marked. -/
def step [DecidableEq V] (L : LLVM V T) (s : State V T) (a : Action V T) (m : Marks) : Marks :=
  match a with
  | .push _ => { m with stack := false :: m.stack }
  | .pop n => { m with stack := m.stack.drop n }
  | .createFunction _ rty _ _ => { m with nonVoid := !L.isVoidTy rty }
  | .function fn => { m with nonVoid := !L.isVoidTy fn.type.returnType }
  | .keepStack => { m with keepStack := true }
  | .inspect call => ⟨(call s).stack.map fun v => decide ((v, true) ∈ s.stack.zip m.stack),
      (call s).keepStack, (call s).nonVoid L⟩
  | .createBlock _ | .setBlock _ | .module_ _ => m
  | a => { m with
      stack := List.replicate (if a.pushes then 1 else 0) (a.pushesVoid L) ++
        m.stack.drop (if m.keepStack then 0 else absent (a.popped m.nonVoid)) }

/-- No absent operand is taken from a marked slot. -/
def Unmarked (m : Marks) (a : Action V T) : Prop :=
  ∀ i : Nat, (a.popped m.nonVoid)[i]? = some none →
    (fill m.keepStack ((a.popped m.nonVoid).map (Option.map fun _ => false)) m.stack)[i]? ≠ some true

end Marks

/-- The slots of a state, marked where they hold no value. -/
def State.marks (L : LLVM V T) (s : State V T) : Marks :=
  ⟨s.stack.map L.isVoid, s.keepStack, s.nonVoid L⟩

/-! ## One action -/

/-- The operands that come from the stack are those of the slots. -/
theorem fill_map {k : Bool} {f : V → β} {g : V → β} {os : List (Option V)} {stack : List V} {i : Nat}
    (h : os[i]? = some none) :
    (fill k (os.map (Option.map g)) (stack.map f))[i]? = ((fill k os stack)[i]?).map f := by
  induction os generalizing stack i with
  | nil => simp at h
  | cons o os ih =>
    cases o with
    | some v =>
      cases i with
      | zero => simp at h
      | succ i => simpa [fill] using ih (by simpa using h)
    | none =>
      cases stack with
      | nil => rfl
      | cons v stack =>
        cases i with
        | zero => rfl
        | succ i =>
          have hi : os[i]? = some none := by simpa using h
          cases k with
          | true => simpa [fill] using @ih (v :: stack) i hi
          | false => simpa [fill] using @ih stack i hi

theorem mem_zip_map {f : V → β} {stack : List V} {v : V} {b : β} :
    (v, b) ∈ stack.zip (stack.map f) ↔ v ∈ stack ∧ f v = b := by
  induction stack with
  | nil => simp
  | cons w stack ih =>
    rw [List.map_cons, List.zip_cons_cons, List.mem_cons, ih, List.mem_cons, Prod.mk.injEq]
    constructor
    · intro h
      rcases h with ⟨rfl, rfl⟩ | ⟨hv, hb⟩
      · exact ⟨.inl rfl, rfl⟩
      · exact ⟨.inr hv, hb⟩
    · intro h
      rcases h with ⟨rfl | hv, hb⟩
      · exact .inl ⟨rfl, hb.symm⟩
      · exact .inr ⟨hv, hb⟩

section
variable {L : LLVM V T} {s s' : State V T} {a : Action V T}

theorem handsValues_iff_unmarked : HandsValues L s a ↔ (s.marks L).Unmarked a := by
  unfold HandsValues Marks.Unmarked State.marks
  refine forall_congr' fun i => ?_
  constructor
  · intro h hi
    rw [fill_map hi]
    intro hsome
    obtain ⟨v, hv, hvoid⟩ := Option.map_eq_some_iff.1 hsome
    cases (h v hi hv).symm.trans hvoid
  · intro h v hi hv
    have hne := h hi
    rw [fill_map hi, hv] at hne
    simpa using hne

variable [DecidableEq T]

omit [DecidableEq T] in
/-- An operand that is a value does not give its type void to what is pushed. -/
theorem Action.isVoid_eq (ha : a.Supplies L) (hP : HandsValues L s a) :
    a.isVoid L s = a.pushesVoid L := by
  cases a with
  | bin op lhs rhs =>
    cases lhs with
    | some v => exact ha.1 v (Action.supplied_operand List.mem_cons_self)
    | none =>
      change s.stack.head?.any L.isVoid = false
      cases hs : s.stack with
      | nil => rfl
      | cons v stack => exact hP 0 v rfl (by rw [hs]; rfl)
  | phi edges =>
    cases edges with
    | nil => rfl
    | cons edge edges => exact ha.1 edge.val List.mem_cons_self
  | _ => rfl

theorem marks_emits (hL : L.Typed) (ha : a.Supplies L) (hP : HandsValues L s a)
    (hemits : a.emits = true) (h : apply L a s = .ok () s') :
    s'.marks L = { s.marks L with
      stack := List.replicate (if a.pushes then 1 else 0) (a.pushesVoid L) ++
        (s.marks L).stack.drop (s.used (absent (a.popped (s.nonVoid L)))) } := by
  obtain ⟨is, vars, pushed, rfl, hlen, hpushed⟩ := apply_effect hemits h
  have hmarks : pushed.map L.isVoid =
      List.replicate (if a.pushes then 1 else 0) (a.pushesVoid L) := by
    rw [List.eq_replicate_iff, List.length_map, hlen]
    refine ⟨rfl, fun b hb => ?_⟩
    obtain ⟨v, hv, rfl⟩ := List.mem_map.1 hb
    exact (hpushed hL v hv).trans (Action.isVoid_eq ha hP)
  rw [← hmarks]
  simp only [State.marks, List.map_append, List.map_drop]
  rfl

variable [DecidableEq V]

/-- The slots follow the stack as long as values are handed out. -/
theorem marks_step (hL : L.Typed) (ha : a.Supplies L) (hP : HandsValues L s a)
    (h : apply L a s = .ok () s') : s'.marks L = Marks.step L s a (s.marks L) := by
  cases a with
  | inspect call =>
    cases h
    have hmarks : (call s).stack.map L.isVoid = (call s).stack.map fun v =>
        decide ((v, true) ∈ s.stack.zip (s.stack.map L.isVoid)) := by
      refine List.map_congr_left fun v hv => ?_
      rw [Bool.eq_iff_iff, decide_eq_true_iff, mem_zip_map]
      rcases ha.2 call rfl s v hv with hmem | hvoid
      · simp [hmem]
      · simp [hvoid]
    simp only [State.marks, hmarks]
    rfl
  | createBlock name =>
    cases hinsert : (s.blocks.insert name (s.newBlock name)).1 with
    | ok inserted =>
      cases (apply_createBlock_ok hinsert).symm.trans h
      rfl
    | error e => cases (apply_createBlock_error hinsert).symm.trans h
  | setBlock name =>
    cases hs : s.blocks.left.lookup name with
    | none => cases (EStateM.bind_error (blockAt_none hs)).symm.trans h
    | some bb =>
      cases (EStateM.bind_ok (blockAt_some hs)).symm.trans h
      rfl
  | createFunction name rty args vararg =>
    cases h
    rfl
  | function fn =>
    cases h
    rfl
  | module_ m =>
    cases h
    rfl
  | keepStack =>
    cases h
    rfl
  | push val =>
    cases h
    have hval := ha.1 val (List.mem_singleton_self val)
    simp [State.marks, Marks.step, hval]
    rfl
  | pop n =>
    cases popN_ok h
    simp [State.marks, Marks.step]
    rfl
  | _ => exact marks_emits hL ha hP rfl h

/-! ## Runs -/

/-- In a run in which everything supplied is a value, `popvalue` hands out values exactly if no absent
operand is taken from a slot that `condbr`, `branch`, a `call` of a void function, or a load or a cast
to the type void has pushed. -/
theorem handsValues_iff (L : LLVM V T) (hL : L.Typed) (as : List (Action V T))
    (has : ∀ a ∈ as, a.Supplies L) :
    Along (Step L) (HandsValues L) .init as ↔
      Along (Recorded (Step L) (Marks.step L)) (fun p a => p.2.Unmarked a)
        (.init, .init) as := by
  rw [← Along.recorded_iff (f := Marks.step L) (p := (.init, .init))]
  refine Along.congr_of_forall (I := fun p => p.2 = p.1.marks L) ?_ ?_ has rfl
  · intro p a _ hp
    rw [hp]
    exact handsValues_iff_unmarked
  · intro p a p' ha hp hc hstep
    rw [hp] at hc
    rw [hstep.2, hp]
    exact (marks_step hL ha (handsValues_iff_unmarked.2 hc) hstep.1).symm

end

/-- Values as their types; `true` is void. -/
def LLVM.kinds : LLVM Bool Bool where
  getType v := v
  isVoidTy ty := ty
  value _
    | .alloca .. | .fCmp .. | .iCmp .. => false
    | .store .. | .condBr .. | .br _ | .ret _ | .retVoid => true
    | .load ty _ | .phi ty _ => ty
    | .binOp _ lhs _ => lhs
    | .bitCast _ to_ | .zExtOrTrunc _ to_ | .fpToUI _ to_ | .ptrToInt _ to_ | .intToPtr _ to_ => to_
    | .call fn _ => fn.type.returnType
  folds _ := false

theorem LLVM.kinds_typed : LLVM.kinds.Typed := by
  intro site i
  cases i <;> rfl

/-- A branch, and a sum of what is on the stack then. -/
theorem not_handsValues :
    (∀ a ∈ [.push false, .branch ⟨0, "a", none⟩, .bin .add none none], Action.Supplies .kinds a) ∧
      ¬ Along (Step .kinds) (HandsValues .kinds) .init
        [.push false, .branch ⟨0, "a", none⟩, .bin .add none none] := by
  constructor
  · simp [Action.Supplies, Action.supplied, Action.operands, LLVM.isVoid, LLVM.kinds]
  · intro h
    have hrun : Run (Step .kinds) .init [.push false, .branch ⟨0, "a", none⟩] _ :=
      .cons rfl (.cons rfl .nil)
    exact absurd (h _ (.bin .add none none) [] _ rfl hrun 0 true rfl rfl) (by decide)

/-- The sum of two values above the slot of a branch. -/
theorem handsValues_add :
    Along (Step .kinds) (HandsValues .kinds) .init
      [.branch ⟨0, "a", none⟩, .push false, .push false, .bin .add none none] := by
  refine (handsValues_iff .kinds LLVM.kinds_typed _ ?_).2 ?_
  · simp [Action.Supplies, Action.supplied, Action.operands, LLVM.isVoid, LLVM.kinds]
  · have hfree {p : State Bool Bool × Marks} {a : Action Bool Bool} (ha : a.popped p.2.nonVoid = []) :
        p.2.Unmarked a := by
      simp [Marks.Unmarked, ha]
    refine Along.cons_iff.2 ⟨hfree rfl, fun p hp => ?_⟩
    refine Along.cons_iff.2 ⟨hfree rfl, fun q hq => ?_⟩
    refine Along.cons_iff.2 ⟨hfree rfl, fun r hr => ?_⟩
    refine Along.cons_iff.2 ⟨?_, fun _ _ => .nil⟩
    have hmarks : r.2 = ⟨[false, false, true], false, false⟩ := by
      rw [hr.2, hq.2, hp.2]
      rfl
    rw [hmarks]
    intro i hi
    rcases i with _ | _ | i
    · decide
    · decide
    · simp [fill, Action.popped, Action.operands]

end LlvmSc.Builder

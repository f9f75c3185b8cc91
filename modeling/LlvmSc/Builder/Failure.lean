import LlvmSc.Builder.Operand

/-!
# Actions that throw

An action that throws leaves the builder as it was: variables and blocks are looked up before anything
is done. But `create_block` creates its block before the name is inserted into `blocks`, and leaves
it in the last function if the name is taken (`noTrace_iff`).
-/

namespace LlvmSc.Builder

variable {V T : Type}

/-- The fault is an exception. A failed assertion ends the program; without assertions the lookup of
an unbound block throws `std::out_of_range`. -/
def Fault.isException : Fault → Bool
  | .unboundVar | .invalidArgument | .unboundBlock => true
  | _ => false

/-- The module of a block. -/
def BasicBlock.module_ (bb : BasicBlock T) : Option Module := bb.parent.bind Function.parent

/-- What is in a module. -/
def IR.content (L : LLVM V T) (ir : IR V T) (m : Module) :
    List (Function T) × List (BasicBlock T) × List (Option (BasicBlock T) × Inst V T × V) :=
  (ir.functions.filter (·.parent == some m), ir.blocks.filter (·.module_ == some m),
    (ir.insts L).filter fun i => i.1.bind BasicBlock.module_ == some m)

/-- The block that `create_block` creates. -/
def State.newBlock (s : State V T) (name : String) : BasicBlock T :=
  ⟨s.ir.next, name, s.functions.head?⟩

section
variable [DecidableEq T] (L : LLVM V T) (s : State V T) (a : Action V T)

/-- An action returns, or throws and is caught. -/
inductive Attempt : State V T → Prop where
  | returned : apply L a s = .ok () s' → Attempt s'
  | thrown : apply L a s = .error e s' → e.isException = true → Attempt s'

/-- If the action throws, the builder and every module are as before. -/
def NoTrace : Prop :=
  ∀ e s', apply L a s = .error e s' → e.isException = true →
    s' = { s with ir := s'.ir } ∧ ∀ m, s'.ir.content L m = s.ir.content L m

/-- If `blocks` refuses the block of a `create_block`, no module has the function that the block is
in. -/
def BlockUnowned : Prop :=
  ∀ name e, a = .createBlock name → (s.blocks.insert name (s.newBlock name)).1 = .error e →
    s.functions.head?.bind Function.parent = none

end

section
variable {L : LLVM V T} {s s' : State V T} {a : Action V T}

/-! ## Actions that do not throw -/

/-- `m` does not throw. -/
abbrev NoThrow (m : M V T α) : Prop := EStateM.FailsIn (fun e => e.isException = false) m

theorem pop_noThrow : NoThrow (pop : M V T V) := by
  intro s e s' h
  cases hs : s.stack with
  | nil =>
    cases (pop_nil hs).symm.trans h
    rfl
  | cons v stack => cases (pop_cons hs).symm.trans h

theorem back_noThrow : NoThrow (back : M V T V) := by
  intro s e s' h
  cases hs : s.stack with
  | nil =>
    cases (back_nil hs).symm.trans h
    rfl
  | cons v stack => cases (back_cons hs).symm.trans h

theorem popvalue_noThrow (o : Option V) : NoThrow (popvalue o : M V T V) := by
  cases o with
  | some v => exact .pure v
  | none =>
    intro s e s' h
    cases hk : s.keepStack with
    | true => exact back_noThrow s e s' ((popvalue_keep hk).symm.trans h)
    | false => exact pop_noThrow s e s' ((popvalue_pop hk).symm.trans h)

theorem popN_noThrow (n : Nat) : NoThrow (popN n : M V T Unit) := by
  induction n with
  | zero => exact .pure ()
  | succ n ih => exact pop_noThrow.bind fun _ => ih

theorem lastFunction_noThrow : NoThrow (lastFunction : M V T (Function T)) := by
  intro s e s' h
  cases hs : s.functions with
  | nil =>
    cases (lastFunction_nil hs).symm.trans h
    rfl
  | cons fn functions => cases (lastFunction_cons hs).symm.trans h

theorem push_noThrow (v : V) : NoThrow (push v : M V T Unit) := .of_ok fun _ => ⟨_, _, rfl⟩

variable [DecidableEq T]

theorem create_noThrow (site : Site) (b : Build V T) : NoThrow (create L site b) := by
  intro s e s' h
  rcases create_cases L site b with ⟨e', he, herr⟩ | ⟨i, -, hok⟩ | ⟨op, val, -, hok⟩
  · cases (herr s).symm.trans h
    rcases he with rfl | rfl
    · rfl
    · rfl
  · cases (hok s).symm.trans h
  · cases (hok s).symm.trans h

theorem create_push_noThrow (site : Site) (b : Build V T) : NoThrow (create L site b >>= push) :=
  (create_noThrow site b).bind push_noThrow

theorem callArgs_noThrow (before : Nat) (fn : FunctionCallee V T) (args : List (Option V))
    (idx : Nat) : NoThrow (callArgs L before fn idx args) := by
  have hto (idx : Nat) : NoThrow (functionArgumentType fn idx : M V T T) := by
    unfold functionArgumentType
    split
    · exact .pure _
    · exact .throw rfl
  have hcast (idx : Nat) (a : V) (to_ : T) : NoThrow (castArgument L before idx a to_) := by
    unfold castArgument
    split
    · exact create_noThrow _ _
    · exact .pure a
  induction args generalizing idx with
  | nil => exact .pure []
  | cons arg args ih =>
    exact (popvalue_noThrow arg).bind fun a => (hto idx).bind fun to_ =>
      (hcast idx a to_).bind fun a =>
      (ih (idx + 1)).bind fun as => .pure (a :: as)

/-- `load` throws before anything is done. -/
theorem apply_load_throws (h : apply L (.load ty name) s = .error e s')
    (he : e.isException = true) : s' = s := by
  cases hs : s.vars.lookup name with
  | none =>
    cases (EStateM.bind_error (varAt_none hs)).symm.trans h
    rfl
  | some v =>
    have hcreate := (EStateM.bind_ok (varAt_some hs)).symm.trans h
    rw [create_push_noThrow s.site (.load ty v) s e s' hcreate] at he
    cases he

/-- `set_block` throws before anything is done. -/
theorem apply_setBlock_throws (h : apply L (.setBlock name) s = .error e s') : s' = s := by
  cases hs : s.blocks.left.lookup name with
  | none =>
    cases (EStateM.bind_error (blockAt_none hs)).symm.trans h
    rfl
  | some bb => cases (EStateM.bind_ok (blockAt_some hs)).symm.trans h

/-- The state in which `create_block` inserts the name. -/
def State.withBlock (s : State V T) (name : String) : State V T :=
  { s with ir := { s.ir with blocks := s.newBlock name :: s.ir.blocks, next := s.ir.next + 1 } }

theorem blocksInsert_ok {bb : BasicBlock T} (h : (s.blocks.insert name bb).1 = .ok inserted) :
    blocksInsert name bb s = .ok () { s with blocks := (s.blocks.insert name bb).2 } := by
  cases hinsert : s.blocks.insert name bb with
  | mk answer blocks =>
    rw [hinsert] at h
    cases h
    rw [blocksInsert, hinsert]

theorem blocksInsert_error {bb : BasicBlock T} (h : (s.blocks.insert name bb).1 = .error e) :
    blocksInsert name bb s = .error .invalidArgument s := by
  have hsnd := Bimap.insert_error h
  cases hinsert : s.blocks.insert name bb with
  | mk answer blocks =>
    rw [hinsert] at h hsnd
    cases h
    rw [blocksInsert, hinsert]
    simp only at hsnd
    rw [hsnd]

/-- `create_block` enters the new block. -/
theorem apply_createBlock_ok (h : (s.blocks.insert name (s.newBlock name)).1 = .ok inserted) :
    apply L (.createBlock name) s = .ok () { s.withBlock name with
      blocks := (s.blocks.insert name (s.newBlock name)).2
      currentBlock := some (s.newBlock name)
      insertBlock := some (s.newBlock name) } :=
  EStateM.bind_ok (blocksInsert_ok (s := s.withBlock name) h)

/-- `create_block` throws with the new block in place. -/
theorem apply_createBlock_error (h : (s.blocks.insert name (s.newBlock name)).1 = .error e) :
    apply L (.createBlock name) s = .error .invalidArgument (s.withBlock name) := by
  have hrest (f : Unit → M V T Unit) : (blocksInsert name (s.newBlock name) >>= f)
      (s.withBlock name) = .error .invalidArgument (s.withBlock name) :=
    EStateM.bind_error (blocksInsert_error (s := s.withBlock name) h)
  exact hrest _

omit [DecidableEq T] in
/-- The new block is seen in the module of the last function. -/
theorem content_withBlock_iff : (∀ m, (s.withBlock name).ir.content L m = s.ir.content L m) ↔
    s.functions.head?.bind Function.parent = none := by
  constructor
  · intro h
    cases hm : s.functions.head?.bind Function.parent with
    | none => rfl
    | some m =>
      have hblocks := congrArg (fun c => c.2.1.length) (h m)
      have hmodule : (s.newBlock name).module_ = some m := hm
      simp [IR.content, IR.insts, State.withBlock, hmodule] at hblocks
  · intro h m
    have hmodule : (s.newBlock name).module_ = none := h
    simp [IR.content, IR.insts, State.withBlock, hmodule]

theorem applyAt_noThrow {a : Action V T} (before : Nat) (h : ∀ ty name, a ≠ .load ty name)
    (hset : ∀ name, a ≠ .setBlock name) (hcreate : ∀ name, a ≠ .createBlock name) :
    NoThrow (applyAt L before a) := by
  have hpush (b : Build V T) := create_push_noThrow (L := L) ⟨before, none⟩ b
  cases a with
  | alloc ty name =>
    refine (create_noThrow _ _).bind fun var => ?_
    cases name with
    | none => exact push_noThrow var
    | some name =>
      have hvars : NoThrow
          (modify fun s => { s with vars := s.vars.insert name var } : M V T Unit) :=
        .of_ok fun _ => ⟨_, _, rfl⟩
      exact hvars.bind fun _ => push_noThrow var
  | load ty name => exact absurd rfl (h ty name)
  | loadPtr ty from_ => exact (popvalue_noThrow from_).bind fun _ => hpush _
  | store val dst =>
    exact (popvalue_noThrow val).bind fun v => (popvalue_noThrow dst).bind fun d =>
      (create_noThrow _ (.store v d)).bind fun _ => .pure ()
  | bin op lhs rhs =>
    exact (popvalue_noThrow lhs).bind fun _ => (popvalue_noThrow rhs).bind fun _ => hpush _
  | cmp pred lhs rhs =>
    exact (popvalue_noThrow lhs).bind fun _ => (popvalue_noThrow rhs).bind fun _ => hpush _
  | cast op val to_ => exact (popvalue_noThrow val).bind fun _ => hpush _
  | phi edges => exact hpush _
  | condbr cond thenbb elsebb => exact (popvalue_noThrow cond).bind fun _ => hpush _
  | branch dst => exact hpush _
  | call fn args => exact (callArgs_noThrow before fn args 0).bind fun _ => hpush _
  | ret val =>
    refine lastFunction_noThrow.bind fun fn => ?_
    split
    · cases val with
      | none => exact (create_noThrow _ (.ret none)).bind fun _ => .pure ()
      | some v => exact .throw rfl
    · exact (popvalue_noThrow val).bind fun v => (create_noThrow _ (.ret (some v))).bind fun _ =>
        .pure ()
  | inspect call => exact .of_ok fun _ => ⟨_, _, rfl⟩
  | createBlock name => exact absurd rfl (hcreate name)
  | setBlock name => exact absurd rfl (hset name)
  | createFunction name rty args vararg => exact .of_ok fun _ => ⟨_, _, rfl⟩
  | function fn => exact .of_ok fun _ => ⟨_, _, rfl⟩
  | module_ m => exact .of_ok fun _ => ⟨_, _, rfl⟩
  | keepStack => exact .of_ok fun _ => ⟨_, _, rfl⟩
  | push val => exact .of_ok fun _ => ⟨_, _, rfl⟩
  | pop n => exact popN_noThrow n

theorem apply_noThrow {a : Action V T} (h : ∀ ty name, a ≠ .load ty name)
    (hset : ∀ name, a ≠ .setBlock name) (hcreate : ∀ name, a ≠ .createBlock name) :
    NoThrow (apply L a) :=
  fun s => applyAt_noThrow s.ir.created.length h hset hcreate s

/-! ## Runs -/

theorem noTrace_createBlock :
    NoTrace L s (.createBlock name) ↔ BlockUnowned s (.createBlock name) := by
  constructor
  · intro hno name' e heq he
    cases heq
    have hcontent := (hno _ _ (apply_createBlock_error he) rfl).2
    exact content_withBlock_iff.1 hcontent
  · intro hunowned e s' h _
    cases hinsert : (s.blocks.insert name (s.newBlock name)).1 with
    | ok inserted => cases (apply_createBlock_ok hinsert).symm.trans h
    | error e =>
      cases (apply_createBlock_error hinsert).symm.trans h
      exact ⟨rfl, content_withBlock_iff.2 (hunowned name e rfl hinsert)⟩

theorem noTrace_step (a : Action V T) : NoTrace L s a ↔ BlockUnowned s a := by
  cases a with
  | load ty name =>
    refine iff_of_true ?_ fun _ _ h => by cases h
    intro e s' h he
    cases apply_load_throws h he
    exact ⟨rfl, fun _ => rfl⟩
  | setBlock name =>
    refine iff_of_true ?_ fun _ _ h => by cases h
    intro e s' h _
    cases apply_setBlock_throws h
    exact ⟨rfl, fun _ => rfl⟩
  | createBlock name => exact noTrace_createBlock
  | _ =>
    refine iff_of_true ?_ fun _ _ h => by cases h
    intro e s' h he
    cases (apply_noThrow (by simp) (by simp) (by simp) s e s' h).symm.trans he

/-- Along a run in which exceptions are caught, the actions that throw leave no trace exactly if
`blocks` refuses no block of a function in a module. -/
theorem noTrace_iff (L : LLVM V T) (s : State V T) (as : List (Action V T)) :
    Along (Attempt L) (NoTrace L) s as ↔ Along (Attempt L) BlockUnowned s as :=
  Along.congr (I := fun _ => True) (fun _ a _ => noTrace_step a) (fun _ _ _ _ _ _ => trivial) trivial

end

/-- The second block `"a"` of a function in a module. -/
theorem not_noTrace : ¬ Along (Attempt .integers) (NoTrace .integers) .init
    [.module_ 0, .createFunction "f" true [] false, .createBlock "a", .createBlock "a"] := by
  intro h
  have hrun : Run (Attempt .integers) .init
      [.module_ 0, .createFunction "f" true [] false, .createBlock "a"] _ :=
    .cons (.returned rfl) (.cons (.returned rfl) (.cons (.returned rfl) .nil))
  have hcontent := (h _ (.createBlock "a") [] _ rfl hrun .invalidArgument _ rfl rfl).2 0
  exact absurd (congrArg (fun c => c.2.1.length) hcontent) (by decide)

end LlvmSc.Builder

import LlvmSc.Builder.Operand

/-!
# The height of the stack

`Height.run` computes, without values, how many values the actions leave on the stack, and where one
of them finds the stack empty. What is below the values that a run uses does not matter to it
(`run_height`).
-/

namespace LlvmSc.Builder

variable {V T : Type}

namespace Action

/-- The operands that come from the stack if they are absent. -/
def operands : Action V T → List (Option V)
  | .loadPtr _ from_ => [from_]
  | .store val dst => [val, dst]
  | .bin _ lhs rhs | .cmp _ lhs rhs => [lhs, rhs]
  | .cast _ val _ => [val]
  | .condbr cond _ _ => [cond]
  | .call _ args => args
  | .ret val => [val]
  | _ => []

/-- The action pushes a value. -/
def pushes : Action V T → Bool
  | .alloc .. | .load .. | .loadPtr .. | .bin .. | .cmp .. | .cast .. | .phi .. | .condbr ..
  | .branch .. | .call .. | .push .. => true
  | _ => false

def isInspect : Action V T → Bool
  | .inspect _ => true
  | _ => false

end Action

/-- How many operands are absent. -/
def absent (os : List (Option V)) : Nat := os.countP Option.isNone

/-- What is known of a state without its values. -/
structure Height where
  height : Nat
  keepStack : Bool
  /-- `functions.back()` returns non-void -/
  nonVoid : Bool
deriving DecidableEq

namespace Height

def push (h : Height) : Height := { h with height := h.height + 1 }

/-- `n` values less -/
def drop (n : Nat) (h : Height) : Option Height :=
  if n ≤ h.height then some { h with height := h.height - n } else none

/-- `n` absent operands -/
def consume (n : Nat) (h : Height) : Option Height :=
  if h.keepStack then if n = 0 ∨ 0 < h.height then some h else none else h.drop n

/-- What an action takes from the stack. -/
def take (a : Action V T) (h : Height) : Option Height :=
  match a with
  | .pop n => h.drop n
  | .ret _ => if h.nonVoid then h.consume (absent a.operands) else some h
  | _ => h.consume (absent a.operands)

/-- What an action does then. -/
def after (L : LLVM V T) (a : Action V T) (h : Height) : Height :=
  match a with
  | .createFunction _ rty _ _ => { h with nonVoid := !L.isVoidTy rty }
  | .function fn => { h with nonVoid := !L.isVoidTy fn.type.returnType }
  | .keepStack => { h with keepStack := true }
  | _ => if a.pushes then h.push else h

def step (L : LLVM V T) (a : Action V T) (h : Height) : Option Height := (h.take a).map (after L a)

def run (L : LLVM V T) : List (Action V T) → Height → Option Height
  | [], h => some h
  | a :: as, h => (h.step L a).bind (run L as)

theorem drop_drop (m n : Nat) (h : Height) : (h.drop m).bind (drop n) = h.drop (m + n) := by
  unfold drop
  by_cases hm : m ≤ h.height
  · by_cases hn : n ≤ h.height - m
    · have hmn : m + n ≤ h.height := by omega
      simp [hm, hn, hmn, Nat.sub_sub]
    · have hmn : ¬ m + n ≤ h.height := by omega
      simp [hm, hn, hmn]
  · have hmn : ¬ m + n ≤ h.height := by omega
    simp [hm, hmn]

theorem consume_zero (h : Height) : h.consume 0 = some h := by
  unfold consume drop
  split <;> simp

theorem consume_consume (m n : Nat) (h : Height) :
    (h.consume m).bind (consume n) = h.consume (m + n) := by
  cases hk : h.keepStack with
  | true =>
    by_cases hh : 0 < h.height
    · simp [consume, hk, hh]
    · by_cases hm : m = 0
      · simp [consume, hk, hm]
      · simp [consume, hk, hh, hm]
  | false =>
    rw [consume, hk, consume, hk, ← drop_drop]
    cases hm : h.drop m with
    | none => simp
    | some h' =>
      have hk' : h'.keepStack = false := by
        unfold drop at hm
        split at hm
        · cases hm
          exact hk
        · cases hm
      simp [consume, hk']

end Height

def State.height (L : LLVM V T) (s : State V T) : Height where
  height := s.stack.length
  keepStack := s.keepStack
  nonVoid := s.functions.head?.any fun fn => !L.isVoidTy fn.type.returnType

/-! ## The prediction of an empty stack -/

/-- `f` predicts the failures of `m` on an empty stack. -/
abbrev Predicts (L : LLVM V T) (f : Height → Option Height) (m : M V T α) (s : State V T) : Prop :=
  EStateM.Tracks (State.height L) .emptyStack f m s

section
variable {L : LLVM V T} {s : State V T}

theorem push_predicts (v : V) : Predicts L (fun h => some h.push) (push v) s := rfl

theorem pop_predicts : Predicts L (Height.drop 1) pop s := by
  cases hs : s.stack with
  | nil =>
    refine .of_error (pop_nil hs) fun _ => ?_
    simp [Height.drop, State.height, hs]
  | cons v stack =>
    refine .of_ok (pop_cons hs) ?_
    simp [Height.drop, State.height, hs]

theorem popvalue_predicts (o : Option V) :
    Predicts L (Height.consume (absent [o])) (popvalue o) s := by
  cases o with
  | some v =>
    refine (EStateM.Tracks.pure v s).congr ?_
    exact (Height.consume_zero _).symm
  | none =>
    cases hk : s.keepStack with
    | true =>
      refine .of_eq (popvalue_keep hk) ?_
      cases hs : s.stack with
      | nil =>
        refine .of_error (back_nil hs) fun _ => ?_
        simp [Height.consume, State.height, hk, hs, absent]
      | cons v stack =>
        refine .of_ok (back_cons hs) ?_
        simp [Height.consume, State.height, hk, hs]
    | false =>
      refine .of_eq (popvalue_pop hk) (pop_predicts.congr ?_)
      simp [Height.consume, State.height, hk, absent]

theorem popN_predicts (n : Nat) : Predicts L (Height.drop n) (popN n) s := by
  induction n generalizing s with
  | zero =>
    refine (EStateM.Tracks.pure () s).congr ?_
    simp [Height.drop]
  | succ n ih =>
    refine (pop_predicts.bind fun _ s' _ => ih).congr ?_
    rw [Height.drop_drop, Nat.add_comm]

variable [DecidableEq T]

theorem create_predicts (site : Site) (b : Build V T) : Predicts L some (create L site b) s := by
  rcases create_emit L site b with ⟨e, he, herr⟩ | ⟨v, is, hok⟩
  · exact .of_error (herr s) fun heq => absurd heq he
  · exact .of_ok (hok s) rfl

theorem create_push_predicts (site : Site) (b : Build V T) :
    Predicts L (fun h => some h.push) (create L site b >>= push) s :=
  (create_predicts site b).bind fun v _ _ => push_predicts v

omit [DecidableEq T] in
theorem functionArgumentType_predicts (fn : FunctionCallee V T) (idx : Nat) :
    Predicts L some (functionArgumentType fn idx : M V T T) s := by
  rcases functionArgumentType_cases fn idx s with herr | ⟨ty, -, hok⟩
  · exact .of_error herr (by simp)
  · exact .of_ok hok rfl

theorem castArgument_predicts (before idx : Nat) (a : V) (to_ : T) :
    Predicts L some (castArgument L before idx a to_) s := by
  obtain ⟨is, hok⟩ := castArgument_emit (L := L) before idx a to_
  exact .of_ok (hok s) rfl

theorem callArgs_predicts (before : Nat) (fn : FunctionCallee V T) (args : List (Option V))
    (idx : Nat) : Predicts L (Height.consume (absent args)) (callArgs L before fn idx args) s := by
  induction args generalizing s idx with
  | nil =>
    refine (EStateM.Tracks.pure [] s).congr ?_
    exact (Height.consume_zero _).symm
  | cons arg args ih =>
    refine ((popvalue_predicts arg).bind fun a s₁ _ =>
      (functionArgumentType_predicts fn idx).bind fun to_ s₂ _ =>
      (castArgument_predicts before idx a to_).bind fun a s₃ _ =>
      (ih (idx + 1)).bind fun as s₄ _ => .pure (a :: as) s₄).congr ?_
    have habsent : absent (arg :: args) = absent [arg] + absent args := by
      cases arg <;> simp [absent, Nat.add_comm]
    simp only [Option.bind_some, Option.bind_fun_some, habsent, Height.consume_consume]

/-- One operand is taken, and an instruction is created and pushed. -/
theorem unary_predicts (site : Site) (o : Option V) (b : V → Build V T) :
    Predicts L (fun h => (h.consume (absent [o])).map Height.push)
      (do push (← create L site (b (← popvalue o)))) s := by
  refine ((popvalue_predicts o).bind fun v _ _ => create_push_predicts site (b v)).congr ?_
  simp [Option.map_eq_bind]

theorem consume_two (l r : Option V) (h : Height) :
    (h.consume (absent [l])).bind (Height.consume (absent [r])) = h.consume (absent [l, r]) := by
  rw [Height.consume_consume]
  cases l <;> cases r <;> rfl

/-- The same with two operands. -/
theorem binary_predicts (site : Site) (l r : Option V) (b : V → V → Build V T) :
    Predicts L (fun h => (h.consume (absent [l, r])).map Height.push)
      (do
        let l ← popvalue l
        let r ← popvalue r
        push (← create L site (b l r))) s := by
  refine ((popvalue_predicts l).bind fun v _ _ => (popvalue_predicts r).bind fun w _ _ =>
    create_push_predicts site (b v w)).congr ?_
  rw [← Option.bind_assoc, consume_two, Option.map_eq_bind]
  rfl

omit [DecidableEq T] in
theorem varAt_predicts (name : String) : Predicts L some (varAt name : M V T V) s := by
  cases h : s.vars.lookup name with
  | none => exact .of_error (varAt_none h) (by simp)
  | some v => exact .of_ok (varAt_some h) rfl

omit [DecidableEq T] in
theorem blockAt_predicts (name : String) : Predicts L some (blockAt name) s := by
  cases h : s.blocks.left.lookup name with
  | none => exact .of_error (blockAt_none h) (by simp)
  | some bb => exact .of_ok (blockAt_some h) rfl

theorem blocksInsert_predicts (name : String) (bb : BasicBlock T) :
    Predicts L some (blocksInsert name bb) s := by
  cases h : s.blocks.insert name bb with
  | mk answer blocks =>
    cases answer with
    | ok inserted =>
      have hok : blocksInsert name bb s = .ok () { s with blocks := blocks } := by
        rw [blocksInsert, h]
      exact .of_ok hok rfl
    | error e =>
      have herror : blocksInsert name bb s = .error .invalidArgument { s with blocks := blocks } := by
        rw [blocksInsert, h]
      exact .of_error herror (by simp)

omit [DecidableEq T] in
/-- An action that takes nothing. -/
theorem Height.step_of_take (L : LLVM V T) (a : Action V T) (h : Height)
    (ha : h.take a = h.consume 0) : h.step L a = some (h.after L a) := by
  rw [step, ha, consume_zero, Option.map_some]

omit [DecidableEq T] in
/-- An action after which nothing changes but what it took. -/
theorem Height.step_of_after (L : LLVM V T) (a : Action V T) (h : Height)
    (ha : after L a = id) : h.step L a = h.take a := by
  rw [step, ha, Option.map_id]
  rfl

theorem ret_predicts (val : Option V) :
    Predicts L (Height.step L (.ret val)) (apply L (.ret val)) s := by
  cases hs : s.functions with
  | nil => exact .of_error (apply_ret_nil hs) (by simp)
  | cons fn functions =>
    cases hvoid : L.isVoidTy fn.type.returnType with
    | true =>
      cases val with
      | some v => exact .of_error (apply_ret_void_some hs hvoid) (by simp)
      | none =>
        refine .of_ok (apply_ret_void hs hvoid) ?_
        simp [Height.step, Height.take, Height.after, State.height, hs, hvoid, Action.pushes]
    | false =>
      have hnonVoid : (s.height L).nonVoid = true := by simp [State.height, hs, hvoid]
      have hstep : (s.height L).step L (.ret val) = (s.height L).consume (absent [val]) := by
        rw [Height.step_of_after L (.ret val) _ rfl, Height.take, if_pos hnonVoid]
        rfl
      refine .of_eq (apply_ret_value hs hvoid) ?_
      refine ((popvalue_predicts val).bind fun v _ _ => (create_predicts s.site (.ret (some v))).bind
        fun _ _ _ => .pure () _).congr ?_
      rw [hstep]
      simp

/-- One action. -/
theorem apply_predicts {a : Action V T} (ha : a.isInspect = false) :
    Predicts L (Height.step L a) (apply L a) s := by
  let before := s.ir.created.length
  change Predicts L (Height.step L a) (applyAt L before a) s
  cases a with
  | alloc ty name =>
    cases name with
    | none =>
      exact (create_push_predicts _ _).congr (Height.step_of_take L (.alloc ty none) _ rfl).symm
    | some name =>
      refine EStateM.Tracks.congr (f := fun h => (some h).bind fun h => some (Height.push h)) ?_
        (Height.step_of_take L (.alloc ty (some name)) (s.height L) rfl).symm
      exact (create_predicts _ _).bind fun var s₁ _ => .of_ok rfl rfl
  | load ty fromVar =>
    exact ((varAt_predicts fromVar).bind fun p _ _ => create_push_predicts _ (.load ty p)).congr
      (Height.step_of_take L (.load ty fromVar) _ rfl).symm
  | loadPtr ty from_ => exact unary_predicts _ from_ _
  | store val dst =>
    refine ((popvalue_predicts val).bind fun v _ _ => (popvalue_predicts dst).bind fun d _ _ =>
      (create_predicts _ (.store v d)).bind fun _ _ _ => .pure () _).congr ?_
    rw [Height.step_of_after L (.store val dst) _ rfl, ← Option.bind_assoc, consume_two]
    simp [Height.take, Action.operands]
  | bin op lhs rhs => exact binary_predicts _ lhs rhs _
  | cmp pred lhs rhs => exact binary_predicts _ lhs rhs _
  | cast op val to_ => exact unary_predicts _ val _
  | phi edges =>
    exact (create_push_predicts _ _).congr (Height.step_of_take L (.phi edges) _ rfl).symm
  | condbr cond thenbb elsebb => exact unary_predicts _ cond _
  | branch dst =>
    exact (create_push_predicts _ _).congr (Height.step_of_take L (.branch dst) _ rfl).symm
  | call fn args =>
    refine ((callArgs_predicts before fn args 0).bind fun vs _ _ =>
      create_push_predicts _ (.call fn vs)).congr ?_
    simp [Height.step, Height.take, Height.after, Action.operands, Action.pushes, Option.map_eq_bind]
  | ret val => exact ret_predicts val
  | inspect call => cases ha
  | createBlock name =>
    refine EStateM.Tracks.congr
      (f := fun h => (some h).bind fun h => (some h).bind fun h => (some h).bind some) ?_
      (Height.step_of_take L (.createBlock name) (s.height L) rfl).symm
    exact .bind (.of_ok rfl rfl) fun _ _ _ => .bind (.of_ok rfl rfl) fun bb _ _ =>
      (blocksInsert_predicts name bb).bind fun _ _ _ => .of_ok rfl rfl
  | setBlock name =>
    refine EStateM.Tracks.congr (f := fun h => (some h).bind some) ?_
      (Height.step_of_take L (.setBlock name) _ rfl).symm
    exact (blockAt_predicts name).bind fun bb _ _ => .of_ok rfl rfl
  | createFunction name rty args vararg =>
    exact .of_ok rfl (Height.step_of_take L (.createFunction name rty args vararg) _ rfl)
  | function fn => exact .of_ok rfl (Height.step_of_take L (.function fn) _ rfl)
  | module_ m => exact .of_ok rfl (Height.step_of_take L (.module_ m) _ rfl)
  | keepStack => exact .of_ok rfl (Height.step_of_take L .keepStack _ rfl)
  | push val => exact .of_ok rfl (Height.step_of_take L (.push val) _ rfl)
  | pop n =>
    exact (popN_predicts n).congr (Height.step_of_after L (.pop n) _ rfl).symm

theorem run_predicts {as : List (Action V T)} (has : ∀ a ∈ as, a.isInspect = false) :
    Predicts L (Height.run L as) (run L as) s := by
  induction as generalizing s with
  | nil => exact .pure () s
  | cons a as ih =>
    have hstep := apply_predicts (L := L) (s := s) (has a List.mem_cons_self)
    exact hstep.bind fun _ _ _ => ih fun b hb => has b (List.mem_cons_of_mem a hb)

end

/-! ## What is below the stack -/

/-- The state with `p` below its stack. -/
def State.above (p : List V) (s : State V T) : State V T := { s with stack := s.stack ++ p }

/-- `m` does the same on every stack that has `p` below. -/
abbrev Frames (p : List V) (m : M V T α) : Prop :=
  EStateM.Simulates (fun s t : State V T => t = s.above p) m m

section
variable {p : List V}

theorem Frames.intro {m : M V T α}
    (h : ∀ s a s', m s = .ok a s' → m (s.above p) = .ok a (s'.above p)) : Frames p m := by
  rintro s _ rfl a s' hm
  exact ⟨s'.above p, h s a s' hm, rfl⟩

theorem Frames.ok {m : M V T α} (h : Frames p m) (hm : m s = .ok a s') :
    m (s.above p) = .ok a (s'.above p) := by
  obtain ⟨t, ht, rfl⟩ := h rfl a s' hm
  exact ht

theorem push_frames (v : V) : Frames p (push v : M V T Unit) := by
  refine .intro fun s _ _ h => ?_
  cases h
  rfl

theorem above_cons {s : State V T} (hs : s.stack = v :: stack) :
    (s.above p).stack = v :: (stack ++ p) := by
  rw [State.above, hs, List.cons_append]

theorem pop_frames : Frames p (pop : M V T V) := by
  refine .intro fun s v s' h => ?_
  cases hs : s.stack with
  | nil => cases (pop_nil hs).symm.trans h
  | cons w stack =>
    cases (pop_cons hs).symm.trans h
    rw [pop_cons (above_cons hs)]
    rfl

theorem back_frames : Frames p (back : M V T V) := by
  refine .intro fun s v s' h => ?_
  cases hs : s.stack with
  | nil => cases (back_nil hs).symm.trans h
  | cons w stack =>
    cases (back_cons hs).symm.trans h
    rw [back_cons (above_cons hs)]

theorem popvalue_frames (o : Option V) : Frames p (popvalue o : M V T V) := by
  cases o with
  | some v => exact .pure v
  | none =>
    refine .intro fun s v s' h => ?_
    cases hk : s.keepStack with
    | true =>
      rw [popvalue_keep hk] at h
      rw [popvalue_keep (s := s.above p) hk]
      exact back_frames.ok h
    | false =>
      rw [popvalue_pop hk] at h
      rw [popvalue_pop (s := s.above p) hk]
      exact pop_frames.ok h

theorem popN_frames (n : Nat) : Frames p (popN n : M V T Unit) := by
  induction n with
  | zero => exact .pure ()
  | succ n ih => exact pop_frames.bind fun _ => ih

theorem lastFunction_frames : Frames p (lastFunction : M V T (Function T)) := by
  refine .intro fun s fn s' h => ?_
  cases hs : s.functions with
  | nil => cases (lastFunction_nil hs).symm.trans h
  | cons fn' functions =>
    cases (lastFunction_cons hs).symm.trans h
    exact lastFunction_cons (s := s.above p) hs

theorem varAt_frames (name : String) : Frames p (varAt name : M V T V) := by
  refine .intro fun s v s' h => ?_
  cases hs : s.vars.lookup name with
  | none => cases (varAt_none hs).symm.trans h
  | some w =>
    cases (varAt_some hs).symm.trans h
    exact varAt_some (s := s.above p) hs

variable [DecidableEq T] {L : LLVM V T}

theorem create_frames (site : Site) (b : Build V T) : Frames p (create L site b) := by
  refine .intro fun s v s' h => ?_
  rcases create_emit L site b with ⟨e, -, herr⟩ | ⟨w, is, hok⟩
  · rw [herr] at h
    cases h
  · rw [hok] at h ⊢
    cases h
    rfl

theorem create_push_frames (site : Site) (b : Build V T) : Frames p (create L site b >>= push) :=
  (create_frames site b).bind push_frames

omit [DecidableEq T] in
theorem blockAt_frames (name : String) : Frames p (blockAt name : M V T (BasicBlock T)) := by
  refine .intro fun s bb s' h => ?_
  cases hs : s.blocks.left.lookup name with
  | none => cases (blockAt_none hs).symm.trans h
  | some bb' =>
    cases (blockAt_some hs).symm.trans h
    exact blockAt_some (s := s.above p) hs

theorem blocksInsert_frames (name : String) (bb : BasicBlock T) :
    Frames p (blocksInsert name bb : M V T Unit) := by
  refine .intro fun s _ s' h => ?_
  cases hs : s.blocks.insert name bb with
  | mk answer blocks =>
    have habove : (s.above p).blocks.insert name bb = (answer, blocks) := hs
    cases answer with
    | error e =>
      rw [blocksInsert, hs] at h
      cases h
    | ok inserted =>
      rw [blocksInsert, hs] at h
      cases h
      rw [blocksInsert, habove]
      rfl

omit [DecidableEq T] in
/-- A change of the fields other than the stack. -/
theorem modify_frames (f : State V T → State V T) (hf : ∀ s, f (s.above p) = (f s).above p) :
    Frames p (modify f : M V T Unit) := by
  refine .intro fun s _ _ h => ?_
  cases h
  change EStateM.Result.ok () (f (s.above p)) = _
  rw [hf]

omit [DecidableEq T] in
theorem enterBlock_frames (bb : BasicBlock T) :
    Frames p (do setCurrentBlock bb; setInsertPoint bb : M V T Unit) := by
  have hcurrent : Frames p (setCurrentBlock bb : M V T Unit) :=
    modify_frames (fun s => { s with currentBlock := some bb }) fun _ => rfl
  have hinsert : Frames p (setInsertPoint bb : M V T Unit) :=
    modify_frames (fun s => { s with insertBlock := some bb }) fun _ => rfl
  exact hcurrent.bind fun _ => hinsert

theorem callArgs_frames (before : Nat) (fn : FunctionCallee V T) (args : List (Option V))
    (idx : Nat) : Frames p (callArgs L before fn idx args) := by
  induction args generalizing idx with
  | nil => exact .pure []
  | cons arg args ih =>
    have hto : Frames p (functionArgumentType fn idx : M V T T) := by
      unfold functionArgumentType
      cases fn.type.params[idx]? with
      | some ty => exact .pure ty
      | none => exact .throw Fault.paramIndex _
    have hcast (a : V) (to_ : T) : Frames p (castArgument L before idx a to_) := by
      unfold castArgument
      split
      · exact create_frames _ _
      · exact .pure a
    exact (popvalue_frames arg).bind fun a => hto.bind fun to_ => (hcast a to_).bind fun a =>
      (ih (idx + 1)).bind fun as => .pure (a :: as)

theorem applyAt_frames {a : Action V T} (before : Nat) (ha : a.isInspect = false) :
    Frames p (applyAt L before a) := by
  cases a with
  | alloc ty name =>
    refine (create_frames _ _).bind fun var => ?_
    cases name with
    | none => exact push_frames var
    | some name =>
      have hvars : Frames p
          (modify fun s => { s with vars := s.vars.insert name var } : M V T Unit) :=
        modify_frames _ fun _ => rfl
      exact hvars.bind fun _ => push_frames var
  | load ty fromVar => exact (varAt_frames fromVar).bind fun _ => create_push_frames _ _
  | loadPtr ty from_ => exact (popvalue_frames from_).bind fun _ => create_push_frames _ _
  | store val dst =>
    exact (popvalue_frames val).bind fun v => (popvalue_frames dst).bind fun d =>
      (create_frames _ (.store v d)).bind fun _ => .pure ()
  | bin op lhs rhs =>
    exact (popvalue_frames lhs).bind fun _ => (popvalue_frames rhs).bind fun _ =>
      create_push_frames _ _
  | cmp pred lhs rhs =>
    exact (popvalue_frames lhs).bind fun _ => (popvalue_frames rhs).bind fun _ =>
      create_push_frames _ _
  | cast op val to_ => exact (popvalue_frames val).bind fun _ => create_push_frames _ _
  | phi edges => exact create_push_frames _ _
  | condbr cond thenbb elsebb => exact (popvalue_frames cond).bind fun _ => create_push_frames _ _
  | branch dst => exact create_push_frames _ _
  | call fn args => exact (callArgs_frames before fn args 0).bind fun _ => create_push_frames _ _
  | ret val =>
    refine lastFunction_frames.bind fun fn => ?_
    split
    · cases val with
      | none => exact (create_frames _ (.ret none)).bind fun _ => .pure ()
      | some v => exact .throw Fault.voidRetValue _
    · exact (popvalue_frames val).bind fun v => (create_frames _ (.ret (some v))).bind fun _ =>
        .pure ()
  | inspect call => cases ha
  | createBlock name =>
    refine .intro fun s _ s' h => ?_
    let bb : BasicBlock T := ⟨s.ir.next, name, s.functions.head?⟩
    let s₁ : State V T :=
      { s with ir := { s.ir with blocks := bb :: s.ir.blocks, next := s.ir.next + 1 } }
    have hrest : Frames p
        (do blocksInsert name bb; setCurrentBlock bb; setInsertPoint bb : M V T Unit) :=
      (blocksInsert_frames name bb).bind fun _ => enterBlock_frames bb
    exact hrest.ok (s := s₁) h
  | setBlock name => exact (blockAt_frames name).bind fun bb => enterBlock_frames bb
  | createFunction name rty args vararg =>
    refine .intro fun s _ s' h => ?_
    cases h
    rfl
  | function fn =>
    refine .intro fun s _ s' h => ?_
    cases h
    rfl
  | module_ m => exact modify_frames (fun s => { s with module_ := some m }) fun _ => rfl
  | keepStack => exact modify_frames (fun s => { s with keepStack := true }) fun _ => rfl
  | push val => exact push_frames val
  | pop n => exact popN_frames n

theorem apply_frames {a : Action V T} (ha : a.isInspect = false) : Frames p (apply L a) :=
  .intro fun s _ _ h => (applyAt_frames s.ir.created.length ha).ok h

theorem run_frames {as : List (Action V T)} (has : ∀ a ∈ as, a.isInspect = false) :
    Frames p (run L as) := by
  induction as with
  | nil => exact .pure ()
  | cons a as ih =>
    have ha := apply_frames (L := L) (p := p) (has a List.mem_cons_self)
    exact ha.bind fun _ => ih fun b hb => has b (List.mem_cons_of_mem a hb)

/-! ## Runs -/

/-- The checks other than `assert( !stack.empty() )` pass, as far as the run goes. -/
def ChecksPass (L : LLVM V T) (as : List (Action V T)) (s : State V T) : Prop :=
  ∀ e s', run L as s = .error e s' → e = .emptyStack

/-- A run finds the stack empty exactly where its height says so, and if it does not, it does the same
whatever is below its stack. -/
theorem run_height (L : LLVM V T) (as : List (Action V T)) (s : State V T)
    (has : ∀ a ∈ as, a.isInspect = false) (hchecks : ChecksPass L as s) :
    ((∃ s', run L as s = .error .emptyStack s') ↔ (s.height L).run L as = none) ∧
      ∀ s', run L as s = .ok () s' → (s.height L).run L as = some (s'.height L) ∧
        ∀ p, run L as { s with stack := s.stack ++ p } = .ok () { s' with stack := s'.stack ++ p } := by
  have hpredicts := run_predicts (L := L) (s := s) has
  refine ⟨hpredicts.error_iff hchecks, fun s' hrun => ⟨hpredicts.ok hrun, fun p => ?_⟩⟩
  exact (run_frames has).ok hrun

/-- A subtraction of one value and nothing. -/
theorem run_height_sub :
    ∃ s', run .integers [.push 1, .bin .sub none none] .init = .error .emptyStack s' := by
  have hchecks : ChecksPass .integers [.push 1, .bin .sub none none] .init := by
    rintro e s' ⟨⟩
    rfl
  exact (run_height .integers _ .init (by decide) hchecks).1.2 rfl

end

end LlvmSc.Builder

import Mathlib.Data.List.ReduceOption
import LlvmSc.Builder.Call

/-!
# The effect of an action

What a successful action that emits instructions does, said once for all of them (`apply_effect`):
it changes the instructions, the variables and the stack only, takes one slot for each absent operand
unless `keep_stack` is on, and pushes at most one value, of a type that the action determines.
-/

namespace LlvmSc.Builder

variable {V T : Type}

/-- The action emits an instruction. -/
def Action.emits : Action V T → Bool
  | .alloc .. | .load .. | .loadPtr .. | .store .. | .bin .. | .cmp .. | .cast .. | .phi ..
  | .condbr .. | .branch .. | .call .. | .ret _ => true
  | _ => false

/-- `functions.back()` returns a value. -/
def State.nonVoid (L : LLVM V T) (s : State V T) : Bool :=
  s.functions.head?.any fun fn => !L.isVoidTy fn.type.returnType

/-- The operands that `popvalue` is asked for: `ret` has none in a void function, and `call` fails
behind the first argument without a parameter. -/
def Action.popped (a : Action V T) (nonVoid : Bool) : List (Option V) :=
  match a with
  | .ret val => if nonVoid then [val] else []
  | .call fn args => args.take (fn.type.params.length + 1)
  | a => a.operands

/-- The values that come with an action. -/
def Action.supplied : Action V T → List V
  | .phi edges => edges.map PhiEdge.val
  | .call fn args => fn.callee :: args.reduceOption
  | .push val => [val]
  | a => a.operands.reduceOption

theorem Action.supplied_operand {a : Action V T} (h : some v ∈ a.operands) : v ∈ a.supplied := by
  cases a with
  | call fn args => exact List.mem_cons_of_mem _ (List.reduceOption_mem_iff.2 h)
  | phi | push => cases h
  | _ => exact List.reduceOption_mem_iff.2 h

/-! ## Types -/

/-- The value has the type void. -/
def LLVM.isVoid (L : LLVM V T) (v : V) : Bool := L.isVoidTy (L.getType v)

/-- The instruction has the type void. A load, a `phi` and a cast have the type they are made with, an
arithmetic instruction has that of its first operand. -/
def Inst.isVoid (L : LLVM V T) : Inst V T → Bool
  | .alloca .. | .fCmp .. | .iCmp .. => false
  | .store .. | .condBr .. | .br _ | .ret _ | .retVoid => true
  | .load ty _ | .phi ty _ => L.isVoidTy ty
  | .binOp _ lhs _ => L.isVoid lhs
  | .bitCast _ to_ | .zExtOrTrunc _ to_ | .fpToUI _ to_ | .ptrToInt _ to_ | .intToPtr _ to_ =>
    L.isVoidTy to_
  | .call fn _ => L.isVoidTy fn.type.returnType

/-- What a `Create` function returns has the type of the instruction, where it folds constants too. -/
def LLVM.Typed (L : LLVM V T) : Prop := ∀ site i, L.isVoid (L.value site i) = i.isVoid L

def Build.isVoid (L : LLVM V T) : Build V T → Bool
  | .alloc .. | .cmp .. => false
  | .store .. | .condbr .. | .branch _ | .ret _ => true
  | .load ty _ => ty.any L.isVoidTy
  | .bin _ lhs _ => L.isVoid lhs
  | .phi edges => edges.head?.any fun edge => L.isVoid edge.val
  | .cast _ _ to_ => L.isVoidTy to_
  | .call fn _ => L.isVoidTy fn.type.returnType

/-- The action pushes something of the type void, whatever its operands are. -/
def Action.pushesVoid (L : LLVM V T) : Action V T → Bool
  | .condbr .. | .branch _ => true
  | .load ty _ | .loadPtr ty _ => ty.any L.isVoidTy
  | .cast _ _ to_ => L.isVoidTy to_
  | .call fn _ => L.isVoidTy fn.type.returnType
  | _ => false

/-- The action pushes something of the type void. -/
def Action.isVoid (L : LLVM V T) (a : Action V T) (s : State V T) : Bool :=
  match a with
  | .bin _ lhs _ => (lhs.or s.stack.head?).any L.isVoid
  | .phi edges => edges.head?.any fun edge => L.isVoid edge.val
  | a => a.pushesVoid L

/-! ## Slots -/

/-- The slots that `n` absent operands take. -/
def State.used (s : State V T) (n : Nat) : Nat := if s.keepStack then 0 else n

/-- The state after instructions have been emitted and `n` absent operands have been taken. -/
def State.after (s : State V T) (is : List (Inst V T × V)) (n : Nat) : State V T :=
  { s.emit is with stack := s.stack.drop (s.used n) }

/-- A successful run of `m` emits instructions and takes `n` absent operands. -/
def Takes (n : Nat) (m : M V T α) : Prop :=
  ∀ s a s', m s = .ok a s' → ∃ is, s' = s.after is n

section
variable {s s' : State V T} {is js : List (Inst V T × V)} {m n : Nat}

theorem State.after_zero : s.after is 0 = s.emit is := by
  simp [State.after, State.used]
  rfl

theorem State.after_nil : s.after [] 0 = s := State.after_zero

theorem State.after_after : (s.after is m).after js n = s.after (js ++ is) (m + n) := by
  have hdrop : (s.stack.drop (s.used m)).drop (s.used n) = s.stack.drop (s.used (m + n)) := by
    rw [List.drop_drop]
    unfold State.used
    split
    · rfl
    · rfl
  change { (s.emit is).emit js with stack := (s.stack.drop (s.used m)).drop (s.used n) } = _
  rw [hdrop, State.emit_emit]
  rfl

namespace Takes

theorem pure (a : α) : Takes 0 (pure a : M V T α) := by
  intro s b s' h
  cases h
  exact ⟨[], State.after_nil.symm⟩

theorem bind {m : M V T α} {f : α → M V T β} (h : Takes n m) (k : ∀ a, Takes n' (f a)) :
    Takes (n + n') (m >>= f) := by
  intro s b s'' hb
  obtain ⟨a, s', ha, hb⟩ := EStateM.bind_eq_ok.1 hb
  obtain ⟨is, rfl⟩ := h s a s' ha
  obtain ⟨js, rfl⟩ := k a _ b s'' hb
  exact ⟨js ++ is, State.after_after⟩

end Takes

/-- An absent operand is the top of the stack. -/
theorem popvalue_none_ok (h : popvalue none s = .ok v s') :
    s.stack.head? = some v ∧ s' = s.after [] 1 := by
  cases hk : s.keepStack with
  | true =>
    rw [popvalue_keep hk] at h
    cases hs : s.stack with
    | nil => cases (back_nil hs).symm.trans h
    | cons w stack =>
      cases (back_cons hs).symm.trans h
      have hused : s.used 1 = 0 := by simp [State.used, hk]
      refine ⟨rfl, ?_⟩
      rw [State.after, hused]
      rfl
  | false =>
    rw [popvalue_pop hk] at h
    cases hs : s.stack with
    | nil => cases (pop_nil hs).symm.trans h
    | cons w stack =>
      cases (pop_cons hs).symm.trans h
      have hused : s.used 1 = 1 := by simp [State.used, hk]
      refine ⟨rfl, ?_⟩
      rw [State.after, hused, hs]
      rfl

theorem popvalue_value {o : Option V} (h : popvalue o s = .ok v s') :
    o = some v ∨ o = none ∧ s.stack.head? = some v := by
  cases o with
  | some w =>
    cases h
    exact .inl rfl
  | none => exact .inr ⟨rfl, (popvalue_none_ok h).1⟩

theorem popvalue_takes (o : Option V) : Takes (absent [o]) (popvalue o : M V T V) := by
  intro s v s' h
  cases o with
  | some w =>
    cases h
    exact ⟨[], State.after_nil.symm⟩
  | none => exact ⟨[], (popvalue_none_ok h).2⟩

theorem popN_ok (h : popN n s = .ok () s') : s' = { s with stack := s.stack.drop n } := by
  induction n generalizing s with
  | zero =>
    cases h
    rfl
  | succ n ih =>
    obtain ⟨v, s₁, hpop, h⟩ := EStateM.bind_eq_ok.1 h
    cases hs : s.stack with
    | nil => cases (pop_nil hs).symm.trans hpop
    | cons w stack =>
      cases (pop_cons hs).symm.trans hpop
      exact ih h

theorem varAt_takes (name : String) : Takes 0 (varAt name : M V T V) := by
  intro s v s' h
  cases hs : s.vars.lookup name with
  | none => cases (varAt_none hs).symm.trans h
  | some w =>
    cases (varAt_some hs).symm.trans h
    exact ⟨[], State.after_nil.symm⟩

variable [DecidableEq T] {L : LLVM V T}

theorem create_takes (site : Site) (b : Build V T) : Takes 0 (create L site b) := by
  intro s v s' h
  rcases create_emit L site b with ⟨e, -, herr⟩ | ⟨w, is, hok⟩
  · cases (herr s).symm.trans h
  · cases (hok s).symm.trans h
    exact ⟨is, State.after_zero.symm⟩

theorem callArgs_takes (before : Nat) (fn : FunctionCallee V T) (args : List (Option V)) (idx : Nat) :
    Takes (absent args) (callArgs L before fn idx args) := by
  induction args generalizing idx with
  | nil => exact .pure []
  | cons arg args ih =>
    have hto : Takes 0 (functionArgumentType fn idx : M V T T) := by
      intro s ty s' h
      rcases functionArgumentType_cases fn idx s with herr | ⟨ty', -, hok⟩
      · cases herr.symm.trans h
      · cases hok.symm.trans h
        exact ⟨[], State.after_nil.symm⟩
    have hcast (a : V) (to_ : T) : Takes 0 (castArgument L before idx a to_) := by
      intro s v s' h
      obtain ⟨is, hok⟩ := castArgument_emit (L := L) before idx a to_
      cases (hok s).symm.trans h
      exact ⟨is, State.after_zero.symm⟩
    have hargs : Takes (absent [arg] + (0 + (0 + (absent args + 0))))
        (callArgs L before fn idx (arg :: args)) :=
      (popvalue_takes arg).bind fun a => hto.bind fun to_ => (hcast a to_).bind fun a =>
        (ih (idx + 1)).bind fun as => .pure (a :: as)
    have habsent : absent (arg :: args) = absent [arg] + absent args := by
      cases arg <;> simp [absent, Nat.add_comm]
    rw [habsent]
    simpa using hargs

/-! ## Actions -/

/-- What an action that emits instructions does to the state. -/
def Effect (L : LLVM V T) (a : Action V T) (s s' : State V T) : Prop :=
  ∃ is vars pushed, s' = { s.after is (absent (a.popped (s.nonVoid L))) with
      vars := vars
      stack := pushed ++ s.stack.drop (s.used (absent (a.popped (s.nonVoid L)))) } ∧
    pushed.length = (if a.pushes then 1 else 0) ∧
    (L.Typed → ∀ v ∈ pushed, L.isVoid v = a.isVoid L s)

omit [DecidableEq T] in
theorem Build.Makes.isVoid {b : Build V T} {i : Inst V T} (h : b.Makes L i) :
    i.isVoid L = b.isVoid L := by
  cases h <;> rfl

theorem create_isVoid (hL : L.Typed) {b : Build V T} (h : create L site b s = .ok v s') :
    L.isVoid v = b.isVoid L := by
  rcases create_cases L site b with ⟨e, -, herr⟩ | ⟨i, hi, hok⟩ | ⟨op, val, rfl, hok⟩
  · cases (herr s).symm.trans h
  · cases (hok s).symm.trans h
    exact (hL site i).trans hi.isVoid
  · cases (hok s).symm.trans h
    rfl

theorem Effect.of_push {a : Action V T} {b : Build V T}
    (hn : absent (a.popped (s.nonVoid L)) = n) (ha : a.pushes = true)
    (h : (create L site b >>= push) (s.after is n) = .ok () s') (hb : b.isVoid L = a.isVoid L s) :
    Effect L a s s' := by
  obtain ⟨v, s₁, hv, h⟩ := EStateM.bind_eq_ok.1 h
  obtain ⟨js, rfl⟩ := create_takes site b _ v s₁ hv
  cases h
  refine ⟨js ++ is, s.vars, [v], ?_, ?_, ?_⟩
  · rw [hn, State.after_after]
    rfl
  · simp [ha]
  · intro hL w hw
    cases List.mem_singleton.1 hw
    exact (create_isVoid hL hv).trans hb

/-- The same for an action without absent operands. -/
theorem Effect.of_create {a : Action V T} (site : Site) (b : Build V T)
    (hn : absent (a.popped (s.nonVoid L)) = 0) (ha : a.pushes = true)
    (h : (create L site b >>= push) s = .ok () s')
    (hb : b.isVoid L = a.isVoid L s) : Effect L a s s' := by
  rw [← State.after_nil (s := s)] at h
  exact .of_push hn ha h hb

theorem Effect.of_drop {a : Action V T} {b : Build V T}
    (hn : absent (a.popped (s.nonVoid L)) = n) (ha : a.pushes = false)
    (h : (do let _ ← create L site b) (s.after is n) = .ok () s') : Effect L a s s' := by
  obtain ⟨v, s₁, hv, h⟩ := EStateM.bind_eq_ok.1 h
  obtain ⟨js, rfl⟩ := create_takes site b _ v s₁ hv
  cases h
  refine ⟨js ++ is, s.vars, [], ?_, ?_, ?_⟩
  · rw [hn, State.after_after]
    rfl
  · simp [ha]
  · intro _ w hw
    cases hw

omit [DecidableEq T] in
/-- Two operands, and what is left of the action. -/
theorem popvalue_two {l r : Option V} {f : V → V → M V T Unit}
    (h : (do let v ← popvalue l; let w ← popvalue r; f v w) s = .ok () s') :
    ∃ v w is, (l = some v ∨ l = none ∧ s.stack.head? = some v) ∧
      f v w (s.after is (absent [l, r])) = .ok () s' := by
  obtain ⟨v, s₁, hv, h⟩ := EStateM.bind_eq_ok.1 h
  have hl := popvalue_value hv
  obtain ⟨is, rfl⟩ := popvalue_takes l s v s₁ hv
  obtain ⟨w, s₂, hw, h⟩ := EStateM.bind_eq_ok.1 h
  obtain ⟨js, rfl⟩ := popvalue_takes r _ w s₂ hw
  have habsent : absent [l, r] = absent [l] + absent [r] := by
    cases l <;> cases r <;> rfl
  rw [State.after_after, ← habsent] at h
  exact ⟨v, w, js ++ is, hl, h⟩

theorem callArgs_ok {fn : FunctionCallee V T} {args : List (Option V)}
    (h : callArgs L before fn 0 args s = .ok vs s') : args.length ≤ fn.type.params.length := by
  rcases callArgs_cases (L := L) before args 0 s (Nat.zero_le _) with
    ⟨s₁, herr⟩ | ⟨-, s₁, herr⟩ | ⟨hlen, -⟩
  · cases herr.symm.trans h
  · cases herr.symm.trans h
  · rwa [Nat.zero_add] at hlen

theorem ret_effect (h : apply L (.ret val) s = .ok () s') : Effect L (.ret val) s s' := by
  cases hs : s.functions with
  | nil => cases (apply_ret_nil hs).symm.trans h
  | cons fn functions =>
    cases hvoid : L.isVoidTy fn.type.returnType with
    | true =>
      have hpopped : (Action.ret val : Action V T).popped (s.nonVoid L) = [] := by
        simp [Action.popped, State.nonVoid, hs, hvoid]
      cases val with
      | some v => cases (apply_ret_void_some hs hvoid).symm.trans h
      | none =>
        have hret : (do let _ ← create L s.site (.ret none)) (s.after [] 0) = .ok () s' := by
          rw [State.after_nil]
          exact (apply_ret_void hs hvoid).symm.trans h
        exact .of_drop (by rw [hpopped]; rfl) rfl hret
    | false =>
      have hpopped : (Action.ret val : Action V T).popped (s.nonVoid L) = [val] := by
        simp [Action.popped, State.nonVoid, hs, hvoid]
      rw [apply_ret_value hs hvoid] at h
      obtain ⟨v, s₁, hv, h⟩ := EStateM.bind_eq_ok.1 h
      obtain ⟨is, rfl⟩ := popvalue_takes val s v s₁ hv
      exact .of_drop (by rw [hpopped]) rfl h

theorem alloc_effect (h : apply L (.alloc ty (some name)) s = .ok () s') :
    Effect L (.alloc ty (some name)) s s' := by
  cases h
  let var := L.value s.site (.alloca ty (some name))
  let is := [L.made s.site (.alloca ty (some name))]
  have hused : s.used 0 = 0 := by simp [State.used]
  refine ⟨is, s.vars.insert name var, [var], ?_, rfl, ?_⟩
  · change _ = { s.after is 0 with
      vars := s.vars.insert name var, stack := var :: s.stack.drop (s.used 0) }
    rw [State.after_zero, hused]
    rfl
  · intro hL w hw
    cases List.mem_singleton.1 hw
    exact hL _ _

/-- The effect of an action that emits an instruction. -/
theorem apply_effect {a : Action V T} (ha : a.emits = true) (h : apply L a s = .ok () s') :
    Effect L a s s' := by
  cases a with
  | alloc ty name =>
    cases name with
    | none => exact .of_create s.site (.alloc ty none) rfl rfl h rfl
    | some name => exact alloc_effect h
  | load ty fromVar =>
    obtain ⟨p, s₁, hp, h⟩ := EStateM.bind_eq_ok.1 h
    obtain ⟨is, rfl⟩ := varAt_takes fromVar s p s₁ hp
    exact .of_push rfl rfl h rfl
  | loadPtr ty from_ =>
    obtain ⟨p, s₁, hp, h⟩ := EStateM.bind_eq_ok.1 h
    obtain ⟨is, rfl⟩ := popvalue_takes from_ s p s₁ hp
    exact .of_push rfl rfl h rfl
  | store val dst =>
    obtain ⟨v, d, is, -, h⟩ :=
      popvalue_two (f := fun v d => do let _ ← create L s.site (.store v d)) h
    exact .of_drop rfl rfl h
  | bin op lhs rhs =>
    obtain ⟨l, r, is, hl, h⟩ :=
      popvalue_two (f := fun l r => create L s.site (.bin op l r) >>= push) h
    refine .of_push rfl rfl h ?_
    -- the first operand is the one that is given, or the top of the stack
    rcases hl with rfl | ⟨rfl, hhead⟩
    · rfl
    · simp [Build.isVoid, Action.isVoid, hhead]
  | cmp pred lhs rhs =>
    obtain ⟨l, r, is, -, h⟩ :=
      popvalue_two (f := fun l r => create L s.site (.cmp pred l r) >>= push) h
    exact .of_push rfl rfl h rfl
  | cast op val to_ =>
    obtain ⟨v, s₁, hv, h⟩ := EStateM.bind_eq_ok.1 h
    obtain ⟨is, rfl⟩ := popvalue_takes val s v s₁ hv
    exact .of_push rfl rfl h rfl
  | phi edges => exact .of_create s.site (.phi edges) rfl rfl h rfl
  | condbr cond thenbb elsebb =>
    obtain ⟨v, s₁, hv, h⟩ := EStateM.bind_eq_ok.1 h
    obtain ⟨is, rfl⟩ := popvalue_takes cond s v s₁ hv
    exact .of_push rfl rfl h rfl
  | branch dst => exact .of_create s.site (.branch dst) rfl rfl h rfl
  | call fn args =>
    obtain ⟨vs, s₁, hvs, h⟩ := EStateM.bind_eq_ok.1 h
    have htake : args.take (fn.type.params.length + 1) = args :=
      List.take_of_length_le (Nat.le_succ_of_le (callArgs_ok hvs))
    obtain ⟨is, rfl⟩ := callArgs_takes s.ir.created.length fn args 0 s vs s₁ hvs
    exact .of_push (by rw [Action.popped, htake]) rfl h rfl
  | ret val => exact ret_effect h
  | _ => cases ha

end

end LlvmSc.Builder

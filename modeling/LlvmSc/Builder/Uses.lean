import LlvmSc.Builder.Layout

/-!
# Where operands come from

Along a run in which exceptions are caught and the callbacks of `inspect` change nothing, every
operand of an instruction came with one of the actions, is the value of an instruction that was
emitted before it, or has been folded from such values (`defined_run`). The same holds of the values
on the stack and of the variables, which are bound to the last allocation with their name
(`load_run`).
-/

namespace LlvmSc.Builder

variable {V T : Type}

/-- The values that an instruction refers to. -/
def Inst.uses : Inst V T → List V
  | .alloca .. | .br _ | .retVoid => []
  | .load _ ptr => [ptr]
  | .store val ptr => [val, ptr]
  | .binOp _ lhs rhs | .fCmp _ lhs rhs | .iCmp _ lhs rhs => [lhs, rhs]
  | .phi _ incoming => incoming.map PhiEdge.val
  | .bitCast val _ | .zExtOrTrunc val _ | .fpToUI val _ | .ptrToInt val _ | .intToPtr val _ => [val]
  | .condBr cond _ _ => [cond]
  | .call fn args => fn.callee :: args
  | .ret val => [val]

def Build.uses : Build V T → List V
  | .alloc .. | .branch _ | .ret none => []
  | .load _ ptr => [ptr]
  | .store val ptr => [val, ptr]
  | .bin _ lhs rhs | .cmp _ lhs rhs => [lhs, rhs]
  | .phi edges => edges.map PhiEdge.val
  | .cast _ val _ => [val]
  | .condbr cond _ _ => [cond]
  | .call fn args => fn.callee :: args
  | .ret (some val) => [val]

/-- The value has been given, is that of one of the instructions, or has been folded, without an
instruction, from such values. -/
inductive Available (L : LLVM V T) (given : List V)
    (created : List (Option (BasicBlock T) × Inst V T × V)) : V → Prop
  | given : v ∈ given → Available L given created v
  | result : (bb, i, v) ∈ created → L.folds i = false → Available L given created v
  | folded : (bb, i, v) ∈ created → L.folds i = true →
    (∀ w ∈ i.uses, Available L given created w) → Available L given created v

/-- Everything that the builder can use is available, and what an instruction uses was available
before it. -/
structure Defined (L : LLVM V T) (given : List V) (s : State V T) : Prop where
  stack : ∀ v ∈ s.stack, Available L given s.ir.created v
  vars : ∀ name v, s.vars.lookup name = some v → Available L given s.ir.created v
  created : ∀ later i earlier, s.ir.created = later ++ i :: earlier →
    ∀ v ∈ i.2.1.uses, Available L given earlier v

section
variable {L : LLVM V T} {given : List V} {s s' : State V T}

theorem Available.cons {created : List (Option (BasicBlock T) × Inst V T × V)}
    (h : Available L given created v) (i : Option (BasicBlock T) × Inst V T × V) :
    Available L given (i :: created) v := by
  induction h with
  | given h => exact .given h
  | result h hfolds => exact .result (List.mem_cons_of_mem i h) hfolds
  | folded h hfolds _ ih => exact .folded (List.mem_cons_of_mem i h) hfolds ih

/-- What a `Create` function returns for available values. -/
theorem Available.head {created : List (Option (BasicBlock T) × Inst V T × V)} {i : Inst V T}
    (hi : ∀ w ∈ i.uses, Available L given created w) (bb : Option (BasicBlock T)) (v : V) :
    Available L given ((bb, i, v) :: created) v := by
  cases hfolds : L.folds i with
  | false => exact .result List.mem_cons_self hfolds
  | true => exact .folded List.mem_cons_self hfolds fun w hw => (hi w hw).cons _

/-- The instructions are as before. -/
theorem Defined.of_created (h : Defined L given s) (hcreated : s'.ir.created = s.ir.created)
    (hstack : ∀ v ∈ s'.stack, Available L given s.ir.created v)
    (hvars : ∀ name v, s'.vars.lookup name = some v → Available L given s.ir.created v) :
    Defined L given s' where
  stack := by
    rw [hcreated]
    exact hstack
  vars := by
    rw [hcreated]
    exact hvars
  created := by
    rw [hcreated]
    exact h.created

theorem Defined.emit (h : Defined L given s) {i : Inst V T}
    (hi : ∀ v ∈ i.uses, Available L given s.ir.created v) (site : Site) :
    Defined L given (s.emit [L.made site i]) where
  stack v hv := (h.stack v hv).cons _
  vars name v hv := (h.vars name v hv).cons _
  created later j earlier heq := by
    cases later with
    | nil =>
      cases heq
      exact hi
    | cons k later =>
      injection heq with _ heq
      exact h.created later j earlier heq

theorem Defined.init : Defined L given .init where
  stack v hv := by cases hv
  vars name v hv := by cases hv
  created later i earlier heq := by simp [State.init] at heq

/-! ## One action -/

/-- `m` keeps the variables and what is defined, and what it returns is available. -/
abbrev Sources (L : LLVM V T) (given : List V) (vars : RMap String V) (need : List V) (m : M V T α)
    (us : α → List V) : Prop :=
  EStateM.Learns (fun s => Defined L given s ∧ s.vars = vars)
    (fun s => Available L given s.ir.created) need m us

variable {vars : RMap String V} {need : List V}

/-- A computation that changes neither the instructions nor the variables. -/
theorem Sources.of_stack {m : M V T α} {us : α → List V}
    (h : ∀ s a s', Defined L given s → (∀ v ∈ need, Available L given s.ir.created v) →
      m s = .ok a s' → (s'.ir.created = s.ir.created ∧ s'.vars = s.vars ∧
        ∀ v ∈ s'.stack, Available L given s.ir.created v) ∧
        ∀ v ∈ us a, Available L given s.ir.created v) :
    Sources L given vars need m us := by
  rintro s a s' ⟨hs, rfl⟩ hneed ha
  obtain ⟨⟨hcreated, hvars, hstack⟩, hus⟩ := h s a s' hs hneed ha
  have hkept (v : V) (hv : Available L given s.ir.created v) : Available L given s'.ir.created v := by
    rwa [hcreated]
  refine ⟨⟨hs.of_created hcreated hstack ?_, hvars⟩, hkept, fun v hv => hkept v (hus v hv)⟩
  rw [hvars]
  exact hs.vars

theorem popN_sources (n : Nat) : Sources L given vars need (popN n) fun _ => [] := by
  refine .of_stack fun s _ s' hs _ h => ?_
  cases popN_ok h
  exact ⟨⟨rfl, rfl, fun v hv => hs.stack v (List.mem_of_mem_drop hv)⟩, by simp⟩

theorem popvalue_sources {o : Option V} (ho : ∀ v, o = some v → v ∈ given) :
    Sources L given vars need (popvalue o) fun v => [v] := by
  refine .of_stack fun s v s' hs _ h => ?_
  have hv : Available L given s.ir.created v := by
    rcases popvalue_value h with rfl | ⟨-, hhead⟩
    · exact .given (ho v rfl)
    · exact hs.stack v (List.mem_of_mem_head? hhead)
  obtain ⟨is, hs'⟩ := popvalue_takes o s v s' h
  obtain ⟨stack, rfl⟩ := popvalue_ok h
  refine ⟨⟨rfl, rfl, ?_⟩, by simpa using hv⟩
  have hstack : stack = s.stack.drop (s.used (absent [o])) := congrArg State.stack hs'
  intro v hv
  exact hs.stack v (List.mem_of_mem_drop (hstack ▸ hv))

theorem push_sources {v : V} (hv : v ∈ need ∨ v ∈ given) :
    Sources L given vars need (push v) fun _ => [] := by
  refine .of_stack fun s _ s' hs hneed h => ?_
  cases h
  refine ⟨⟨rfl, rfl, fun w hw => ?_⟩, by simp⟩
  cases List.mem_cons.1 hw with
  | inl hw => exact hw ▸ hv.elim (hneed v) .given
  | inr hw => exact hs.stack w hw

theorem varAt_sources (name : String) : Sources L given vars need (varAt name) fun v => [v] := by
  refine .of_stack fun s v s' hs _ h => ?_
  cases hlookup : s.vars.lookup name with
  | none => cases (varAt_none hlookup).symm.trans h
  | some w =>
    cases (varAt_some hlookup).symm.trans h
    refine ⟨⟨rfl, rfl, hs.stack⟩, ?_⟩
    simpa using hs.vars name v hlookup

variable [DecidableEq T]

omit [DecidableEq T] in
theorem Build.Makes.uses {b : Build V T} {i : Inst V T} (h : b.Makes L i) : i.uses = b.uses := by
  cases h <;> rfl

theorem create_sources (site : Site) {b : Build V T} (hb : ∀ v ∈ b.uses, v ∈ need ∨ v ∈ given) :
    Sources L given vars need (create L site b) fun v => [v] := by
  rintro s v s' ⟨hs, rfl⟩ hneed h
  have huses : ∀ v ∈ b.uses, Available L given s.ir.created v := by
    intro v hv
    cases hb v hv with
    | inl hv => exact hneed v hv
    | inr hv => exact .given hv
  rcases create_cases L site b with ⟨e, -, herr⟩ | ⟨i, hi, hok⟩ | ⟨op, val, rfl, hok⟩
  · cases (herr s).symm.trans h
  · cases (hok s).symm.trans h
    rw [← hi.uses] at huses
    refine ⟨⟨hs.emit huses site, rfl⟩, fun w hw => hw.cons _, fun w hw => ?_⟩
    cases List.mem_singleton.1 hw
    exact .head huses s.insertBlock _
  · cases (hok s).symm.trans h
    exact ⟨⟨hs, rfl⟩, fun _ hw => hw, huses⟩

theorem create_push_sources (site : Site) {b : Build V T}
    (hb : ∀ v ∈ b.uses, v ∈ need ∨ v ∈ given) :
    Sources L given vars need (create L site b >>= push) fun _ => [] :=
  (create_sources site hb).bind fun _ => push_sources (.inl List.mem_cons_self)

theorem create_drop_sources (site : Site) {b : Build V T}
    (hb : ∀ v ∈ b.uses, v ∈ need ∨ v ∈ given) :
    Sources L given vars need (do let _ ← create L site b) fun _ => [] :=
  (create_sources site hb).bind fun _ => .pure () _ (by simp)

theorem callArgs_sources (before : Nat) (fn : FunctionCallee V T) {args : List (Option V)}
    (hargs : ∀ v, some v ∈ args → v ∈ given) (idx : Nat) :
    Sources L given vars need (callArgs L before fn idx args) id := by
  induction args generalizing need idx with
  | nil => exact .pure [] id (by simp)
  | cons arg args ih =>
    have harg (v : V) (h : arg = some v) : v ∈ given := hargs v (h ▸ List.mem_cons_self)
    have hrest (v : V) (h : some v ∈ args) : v ∈ given := hargs v (List.mem_cons_of_mem arg h)
    have hto (need : List V) :
        Sources L given vars need (functionArgumentType fn idx : M V T T) fun _ => [] := by
      unfold functionArgumentType
      split
      · exact .pure _ _ (by simp)
      · exact .throw _ _
    have hcast {need : List V} {a : V} (ha : a ∈ need) (to_ : T) :
        Sources L given vars need (castArgument L before idx a to_) fun b => [b] := by
      unfold castArgument
      split
      · exact create_sources _ fun v hv => .inl (List.mem_singleton.1 hv ▸ ha)
      · exact .pure a _ (by simpa using ha)
    refine (popvalue_sources harg).bind fun a => (hto _).bind fun to_ => ?_
    refine (hcast (by simp) to_).bind fun b => (ih hrest (idx + 1)).bind fun bs => ?_
    exact .pure (b :: bs) id (by simp; tauto)

omit [DecidableEq T] in
theorem lastFunction_sources :
    Sources L given vars need (lastFunction : M V T (Function T)) fun _ => [] := by
  refine .of_stack fun s fn s' hs _ h => ?_
  cases hfns : s.functions with
  | nil => cases (lastFunction_nil hfns).symm.trans h
  | cons fn' functions =>
    cases (lastFunction_cons hfns).symm.trans h
    exact ⟨⟨rfl, rfl, hs.stack⟩, by simp⟩

/-- An allocation binds its name. -/
theorem Defined.alloc (h : Defined L given s) (hs : apply L (.alloc ty (some name)) s = .ok () s') :
    Defined L given s' ∧
      s'.vars = s.vars.insert name (L.value s.site (.alloca ty (some name))) := by
  cases hs
  let var := L.value s.site (.alloca ty (some name))
  have huses : ∀ w ∈ (Inst.alloca ty (some name) : Inst V T).uses,
      Available L given s.ir.created w := by
    simp [Inst.uses]
  have hemit := h.emit huses s.site
  have hvar : Available L given (s.emit [L.made s.site (.alloca ty (some name))]).ir.created var :=
    .head huses s.insertBlock var
  refine ⟨hemit.of_created rfl (fun v hv => ?_) (fun name' v hv => ?_), rfl⟩
  · cases List.mem_cons.1 hv with
    | inl hv => exact hv ▸ hvar
    | inr hv => exact hemit.stack v hv
  · change (s.vars.insert name var).lookup name' = some v at hv
    rw [Bimap.lookup_insert] at hv
    split at hv
    · cases hv
      exact hvar
    · exact hemit.vars name' v hv

/-- The name that the action binds. -/
def Action.binds : Action V T → Option String
  | .alloc _ name => name
  | _ => none

/-- Every action uses what it brings and what is there. -/
theorem applyAt_sources {a : Action V T} (before : Nat) (ha : a.OnlyInspects)
    (hbinds : a.binds = none) (hgiven : ∀ v ∈ a.supplied, v ∈ given) :
    Sources L given vars need (applyAt L before a) fun _ => [] := by
  have hop (o : Option V) (ho : o ∈ a.operands) (v : V) (h : o = some v) : v ∈ given :=
    hgiven v (Action.supplied_operand (h ▸ ho))
  cases a with
  | alloc ty name =>
    cases hbinds
    exact create_push_sources _ (by simp [Build.uses])
  | load ty fromVar =>
    exact (varAt_sources fromVar).bind fun v => create_push_sources _ (by simp [Build.uses])
  | loadPtr ty from_ =>
    refine (popvalue_sources (hop from_ List.mem_cons_self)).bind fun v => ?_
    exact create_push_sources _ (by simp [Build.uses])
  | store val dst =>
    refine (popvalue_sources (hop val (by simp [Action.operands]))).bind fun v => ?_
    refine (popvalue_sources (hop dst (by simp [Action.operands]))).bind fun d => ?_
    exact create_drop_sources _ (by simp [Build.uses])
  | bin op lhs rhs =>
    refine (popvalue_sources (hop lhs (by simp [Action.operands]))).bind fun l => ?_
    refine (popvalue_sources (hop rhs (by simp [Action.operands]))).bind fun r => ?_
    exact create_push_sources _ (by simp [Build.uses])
  | cmp pred lhs rhs =>
    refine (popvalue_sources (hop lhs (by simp [Action.operands]))).bind fun l => ?_
    refine (popvalue_sources (hop rhs (by simp [Action.operands]))).bind fun r => ?_
    exact create_push_sources _ (by simp [Build.uses])
  | cast op val to_ =>
    refine (popvalue_sources (hop val (by simp [Action.operands]))).bind fun v => ?_
    exact create_push_sources _ (by simp [Build.uses])
  | phi edges => exact create_push_sources _ fun v hv => .inr (hgiven v hv)
  | condbr cond thenbb elsebb =>
    refine (popvalue_sources (hop cond (by simp [Action.operands]))).bind fun v => ?_
    exact create_push_sources _ (by simp [Build.uses])
  | branch dst => exact create_push_sources _ (by simp [Build.uses])
  | call fn args =>
    refine (callArgs_sources before fn (fun v hv => hop (some v) hv v rfl) 0).bind fun vs => ?_
    refine create_push_sources _ fun v hv => ?_
    cases List.mem_cons.1 hv with
    | inl hv => exact .inr (hgiven v (hv ▸ List.mem_cons_self))
    | inr hv => exact .inl (List.mem_append_left _ hv)
  | ret val =>
    refine lastFunction_sources.bind fun fn => ?_
    split
    · cases val with
      | some v => exact .throw _ _
      | none => exact create_drop_sources _ (by simp [Build.uses])
    · refine (popvalue_sources (hop val (by simp [Action.operands]))).bind fun v => ?_
      exact create_drop_sources _ (by simp [Build.uses])
  | push val => exact push_sources (.inr (hgiven val (List.mem_singleton_self val)))
  | pop n => exact popN_sources n
  | inspect call =>
    refine .of_stack fun s _ s' hs _ h => ?_
    cases h
    rw [ha call rfl s]
    exact ⟨⟨rfl, rfl, hs.stack⟩, by simp⟩
  | createBlock name =>
    refine .of_stack fun s _ s' hs _ h => ?_
    cases hinsert : (s.blocks.insert name (s.newBlock name)).1 with
    | error e => cases (apply_createBlock_error (L := L) hinsert).symm.trans h
    | ok inserted =>
      cases (apply_createBlock_ok (L := L) hinsert).symm.trans h
      exact ⟨⟨rfl, rfl, hs.stack⟩, by simp⟩
  | setBlock name =>
    refine .of_stack fun s _ s' hs _ h => ?_
    obtain ⟨bb, -, rfl⟩ := apply_setBlock_ok (L := L) h
    exact ⟨⟨rfl, rfl, hs.stack⟩, by simp⟩
  | createFunction | function | module_ | keepStack =>
    refine .of_stack fun s _ s' hs _ h => ?_
    cases h
    exact ⟨⟨rfl, rfl, hs.stack⟩, by simp⟩

theorem apply_sources {a : Action V T} (ha : a.OnlyInspects) (hbinds : a.binds = none)
    (hgiven : ∀ v ∈ a.supplied, v ∈ given) :
    Sources L given vars need (apply L a) fun _ => [] :=
  fun s => applyAt_sources s.ir.created.length ha hbinds hgiven s

/-! ## Runs -/

/-- What the name is bound to after an action. -/
def binding (L : LLVM V T) (name : String) (s : State V T) (a : Action V T) (bound : Option V) :
    Option V :=
  match a with
  | .alloc ty (some name') =>
    if name = name' then some (L.value s.site (.alloca ty (some name'))) else bound
  | _ => bound

omit [DecidableEq T] in
theorem binding_of_binds {a : Action V T} (h : a.binds = none) (name : String) (bound : Option V) :
    binding L name s a bound = bound := by
  cases a with
  | alloc ty name' =>
    cases h
    rfl
  | _ => rfl

theorem Defined.returned {a : Action V T} (h : Defined L given s) (ha : a.OnlyInspects)
    (hgiven : ∀ v ∈ a.supplied, v ∈ given) (hs : apply L a s = .ok () s') : Defined L given s' ∧
      ∀ name, s'.vars.lookup name = binding L name s a (s.vars.lookup name) := by
  cases hbinds : a.binds with
  | none =>
    have hsources : Sources L given s.vars [] (apply L a) fun _ => [] :=
      apply_sources ha hbinds hgiven
    obtain ⟨⟨h', hvars⟩, -, -⟩ := hsources s () s' ⟨h, rfl⟩ (by simp) hs
    refine ⟨h', fun name => ?_⟩
    rw [hvars, binding_of_binds hbinds]
  | some name =>
    cases a with
    | alloc ty name' =>
      cases hbinds
      obtain ⟨h', hvars⟩ := h.alloc hs
      refine ⟨h', fun name' => ?_⟩
      rw [hvars, Bimap.lookup_insert]
      rfl
    | _ => cases hbinds

/-- An action that throws does not add instructions, values or variables. -/
theorem Defined.attempt {a : Action V T} (h : Defined L given s) (ha : a.OnlyInspects)
    (hgiven : ∀ v ∈ a.supplied, v ∈ given) (hs : Attempt L s a s') : Defined L given s' ∧
      ∀ name, s'.vars.lookup name = binding L name s a (s.vars.lookup name) := by
  cases hs with
  | returned hs => exact h.returned ha hgiven hs
  | @thrown e _ hs he =>
    cases a with
    | load ty name =>
      cases apply_load_throws hs he
      exact ⟨h, fun _ => rfl⟩
    | setBlock name =>
      cases apply_setBlock_throws hs
      exact ⟨h, fun _ => rfl⟩
    | createBlock name =>
      cases hinsert : (s.blocks.insert name (s.newBlock name)).1 with
      | ok inserted => cases (apply_createBlock_ok hinsert).symm.trans hs
      | error e =>
        cases (apply_createBlock_error hinsert).symm.trans hs
        exact ⟨h.of_created rfl h.stack h.vars, fun _ => rfl⟩
    | _ => cases (apply_noThrow (by simp) (by simp) (by simp) s e s' hs).symm.trans he

theorem Defined.run {as : List (Action V T)} (has : ∀ a ∈ as, a.OnlyInspects)
    (hgiven : ∀ a ∈ as, ∀ v ∈ a.supplied, v ∈ given) (hrun : Run (Attempt L) s as s')
    (h : Defined L given s) : Defined L given s' := by
  induction hrun with
  | nil => exact h
  | @cons s a s' as s'' ha _ ih =>
    have h' := (h.attempt (has a List.mem_cons_self) (hgiven a List.mem_cons_self) ha).1
    exact ih (fun b hb => has b (List.mem_cons_of_mem a hb))
      (fun b hb => hgiven b (List.mem_cons_of_mem a hb)) h'

/-- No instruction uses a value that is neither given by an action, nor the value of an earlier
instruction, nor folded from such values. -/
theorem defined_run (L : LLVM V T) (as : List (Action V T)) (s : State V T)
    (has : ∀ a ∈ as, a.OnlyInspects) (hrun : Run (Attempt L) .init as s) :
    Defined L (as.flatMap Action.supplied) s :=
  Defined.init.run has (fun a ha _ hv => List.mem_flatMap.2 ⟨a, ha, hv⟩) hrun

/-- The record of the bindings is what the variables say. -/
theorem vars_recorded {as : List (Action V T)} {p p' : State V T × Option V}
    (has : ∀ a ∈ as, a.OnlyInspects) (hgiven : ∀ a ∈ as, ∀ v ∈ a.supplied, v ∈ given)
    (hrun : Run (Recorded (Attempt L) (binding L name)) p as p') (h : Defined L given p.1)
    (hp : p.1.vars.lookup name = p.2) : p'.1.vars.lookup name = p'.2 := by
  induction hrun with
  | nil => exact hp
  | @cons p a p' as p'' ha _ ih =>
    obtain ⟨h', hvars⟩ := h.attempt (has a List.mem_cons_self) (hgiven a List.mem_cons_self) ha.1
    refine ih (fun b hb => has b (List.mem_cons_of_mem a hb))
      (fun b hb => hgiven b (List.mem_cons_of_mem a hb)) h' ?_
    rw [hvars, ha.2, hp]

/-- A load by name loads from the last allocation with that name, and throws if there is none. -/
theorem load_run (L : LLVM V T) (as : List (Action V T)) (s : State V T) (bound : Option V) (ty : T)
    (name : String) (has : ∀ a ∈ as, a.OnlyInspects)
    (hrun : Run (Recorded (Attempt L) (binding L name)) (.init, none) as (s, bound)) :
    apply L (.load (some ty) name) s = bound.elim (.error .unboundVar s) fun ptr =>
      .ok () { s.emit [L.made s.site (.load ty ptr)] with
        stack := L.value s.site (.load ty ptr) :: s.stack } := by
  have hgiven : ∀ a ∈ as, ∀ v ∈ a.supplied, v ∈ as.flatMap Action.supplied :=
    fun a ha _ hv => List.mem_flatMap.2 ⟨a, ha, hv⟩
  have hvars : s.vars.lookup name = bound := vars_recorded has hgiven hrun .init rfl
  cases bound with
  | none => exact EStateM.bind_error (varAt_none hvars)
  | some ptr => exact EStateM.bind_ok (varAt_some hvars)

end

/-- The difference of two values that were pushed is folded, and returned. -/
theorem defined_sub : ∃ s : State Int Bool, Run (Attempt .integers) .init
      [.push 5, .push 7, .createFunction "f" false [] false, .bin .sub none none, .ret none] s ∧
    s.ir.created.map Prod.snd = [(.ret 2, 1), (.binOp .sub 7 5, 2)] ∧ Defined .integers [5, 7] s := by
  have hrun : Run (Attempt .integers) .init
      [.push 5, .push 7, .createFunction "f" false [] false, .bin .sub none none, .ret none] _ :=
    .cons (.returned rfl) (.cons (.returned rfl) (.cons (.returned rfl) (.cons (.returned rfl)
      (.cons (.returned rfl) .nil))))
  exact ⟨_, hrun, rfl, defined_run .integers _ _ (by simp [Action.OnlyInspects]) hrun⟩

/-- A second variable `"x"` hides the first one: the load is from 1, not from 0. -/
theorem load_run_twice : ∃ s s' : State Int Bool,
    Run (Recorded (Attempt .integers) (binding .integers "x")) (.init, none)
      [.alloc false (some "x"), .alloc true (some "x")] (s, some 1) ∧
    apply .integers (.load (some false) "x") s = .ok () s' ∧ s.stack = [1, 0] ∧
      s'.ir.created.map Prod.snd =
        [(.load false 1, 1), (.alloca true (some "x"), 1), (.alloca false (some "x"), 0)] := by
  have hrun : Run (Recorded (Attempt .integers) (binding .integers "x")) (.init, none)
      [.alloc false (some "x"), .alloc true (some "x")] (_, some 1) :=
    .cons_recorded (.returned rfl) (.cons_recorded (.returned rfl) .nil)
  have hload := load_run .integers _ _ _ false "x" (by simp [Action.OnlyInspects]) hrun
  exact ⟨_, _, hrun, hload, rfl, rfl⟩

end LlvmSc.Builder

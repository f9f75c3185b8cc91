import LlvmSc.Builder.Blocks

/-!
# The layout of the IR

What a builder has created, whatever the order of its actions: functions and blocks have identities
of their own, a block is in a function that was entered, and every instruction is in a block that is
registered under its name, once there is one. A block that `create_block` has lost stays empty, and
nothing that is there goes away (`wellFormed_run`).
-/

namespace LlvmSc.Builder

variable {V T : Type} [DecidableEq T]

/-- The function that `create_function` creates. -/
def State.newFunction (s : State V T) (name : String) (type : FunctionType T) : Function T :=
  ⟨s.ir.next, name, type, s.module_⟩

/-- The state after `create_function`. -/
def State.withFunction (s : State V T) (fn : Function T) : State V T :=
  { s with
    ir := { s.ir with functions := fn :: s.ir.functions, next := s.ir.next + 1 }
    functions := fn :: s.functions }

/-- The state after `create_block` has entered a new block. -/
def State.withEntered (s : State V T) (name : String) : State V T :=
  { s.withBlock name with
    blocks := ⟨s.blocks.left.insert name (s.newBlock name),
      s.blocks.right.insert (s.newBlock name) name⟩
    currentBlock := some (s.newBlock name)
    insertBlock := some (s.newBlock name) }

/-- What an action that returns, or throws and is caught, does to the state. -/
inductive Change (s : State V T) : State V T → Prop
  | emitted (is vars stack) : Change s { s.emit is with vars := vars, stack := stack }
  | flags (module_ keepStack) : Change s { s with module_ := module_, keepStack := keepStack }
  | pushedFunction (fn) :
    Change s { s with module_ := fn.parent, functions := fn :: s.functions }
  | createdFunction (name type) : Change s (s.withFunction (s.newFunction name type))
  | enteredNew (name) : name ∉ s.blocks.left → Change s (s.withEntered name)
  | refused (name) : Change s (s.withBlock name)
  | entered (name bb) : s.blocks.left.lookup name = some bb →
    Change s { s with currentBlock := some bb, insertBlock := some bb }

/-- The block has a name that resolves to it. -/
def State.Registered (s : State V T) (bb : BasicBlock T) : Prop :=
  s.blocks.left.lookup bb.name = some bb

structure WellFormed (s : State V T) : Prop where
  inverse : s.blocks.Inverse
  olderFunctions : ∀ fn ∈ s.ir.functions, fn.id < s.ir.next
  olderBlocks : ∀ bb ∈ s.ir.blocks, bb.id < s.ir.next
  distinct : (s.ir.functions.map Function.id ++ s.ir.blocks.map BasicBlock.id).Nodup
  functions : ∀ fn ∈ s.ir.functions, fn ∈ s.functions
  parents : ∀ bb ∈ s.ir.blocks, ∀ fn, bb.parent = some fn → fn ∈ s.functions
  registered : ∀ name bb, s.blocks.left.lookup name = some bb → bb ∈ s.ir.blocks ∧ bb.name = name
  current : ∀ bb, s.currentBlock = some bb → s.Registered bb
  inserted : s.insertBlock = s.currentBlock
  located : ∀ i ∈ s.ir.created, ∀ bb, i.1 = some bb → s.Registered bb
  /-- Instructions without a block are older than the first block that was entered. -/
  detached : ∃ inBlocks before, s.ir.created = inBlocks ++ before ∧
    (∀ i ∈ inBlocks, i.1.isSome = true) ∧ (∀ i ∈ before, i.1 = none) ∧
    (s.currentBlock = none → inBlocks = [])

/-- The instructions of a block with their values, the last one first. -/
def State.contents (L : LLVM V T) (s : State V T) (bb : BasicBlock T) : List (Inst V T × V) :=
  ((s.ir.insts L).filter (·.1 = some bb)).map Prod.snd

/-- Everything that is there stays, in its order. -/
structure Grown (s s' : State V T) : Prop where
  functions : s.ir.functions <:+ s'.ir.functions
  blocks : s.ir.blocks <:+ s'.ir.blocks
  created : s.ir.created <:+ s'.ir.created
  resolves : ∀ name bb, s.blocks.left.lookup name = some bb → s'.blocks.left.lookup name = some bb

section
variable {L : LLVM V T} {s s' s'' : State V T} {a : Action V T}

/-! ## What an action does -/

theorem createBlock_change (hnew : s.newBlock name ∉ s.blocks.right)
    (h : Attempt L s (.createBlock name) s') : Change s s' := by
  rcases s.blocks.insert_cases name (s.newBlock name) with
    ⟨hfree, -, hinsert⟩ | ⟨-, hmem, -⟩ | ⟨-, hinsert⟩
  · have happly := apply_createBlock_ok (L := L) (congrArg Prod.fst hinsert)
    rw [hinsert] at happly
    cases h with
    | returned h =>
      cases happly.symm.trans h
      exact .enteredNew name hfree
    | thrown h _ => cases happly.symm.trans h
  · exact absurd hmem hnew
  · have happly := apply_createBlock_error (L := L) (congrArg Prod.fst hinsert)
    cases h with
    | returned h => cases happly.symm.trans h
    | thrown h _ =>
      cases happly.symm.trans h
      exact .refused name

theorem Change.refl : Change s s := .flags s.module_ s.keepStack

/-- `set_block` enters the block that is registered. -/
theorem apply_setBlock_ok (h : apply L (.setBlock name) s = .ok () s') :
    ∃ bb, s.blocks.left.lookup name = some bb ∧
      s' = { s with currentBlock := some bb, insertBlock := some bb } := by
  cases hbb : s.blocks.left.lookup name with
  | none => cases (EStateM.bind_error (blockAt_none hbb)).symm.trans h
  | some bb =>
    cases (EStateM.bind_ok (blockAt_some hbb)).symm.trans h
    exact ⟨bb, rfl, rfl⟩

theorem setBlock_change (h : Attempt L s (.setBlock name) s') : Change s s' := by
  cases h with
  | returned h =>
    obtain ⟨bb, hbb, rfl⟩ := apply_setBlock_ok h
    exact .entered name bb hbb
  | thrown h _ =>
    cases apply_setBlock_throws h
    exact .refl

theorem apply_change (ha : a.OnlyInspects) (hcreate : ∀ name, a ≠ .createBlock name)
    (hset : ∀ name, a ≠ .setBlock name) (h : apply L a s = .ok () s') : Change s s' := by
  cases hemits : a.emits with
  | true =>
    obtain ⟨is, vars, pushed, rfl, -, -⟩ := apply_effect hemits h
    exact .emitted is vars _
  | false =>
    cases a with
    | inspect call =>
      cases h
      rw [ha call rfl s]
      exact .refl
    | createBlock name => exact absurd rfl (hcreate name)
    | setBlock name => exact absurd rfl (hset name)
    | createFunction name rty args vararg =>
      cases h
      exact .createdFunction name ⟨rty, args, vararg⟩
    | function fn =>
      cases h
      exact .pushedFunction fn
    | module_ m =>
      cases h
      exact .flags (some m) s.keepStack
    | keepStack =>
      cases h
      exact .flags s.module_ true
    | push v =>
      cases h
      exact .emitted [] s.vars (v :: s.stack)
    | pop n =>
      cases popN_ok h
      exact .emitted [] s.vars (s.stack.drop n)
    | _ => cases hemits

theorem attempt_change (ha : a.OnlyInspects) (hnew : ∀ name, s.newBlock name ∉ s.blocks.right)
    (h : Attempt L s a s') : Change s s' := by
  by_cases hcreate : ∃ name, a = .createBlock name
  · obtain ⟨name, rfl⟩ := hcreate
    exact createBlock_change (hnew name) h
  by_cases hset : ∃ name, a = .setBlock name
  · obtain ⟨name, rfl⟩ := hset
    exact setBlock_change h
  cases h with
  | returned h => exact apply_change ha (not_exists.1 hcreate) (not_exists.1 hset) h
  | @thrown e _ h he =>
    by_cases hload : ∃ ty name, a = .load ty name
    · obtain ⟨ty, name, rfl⟩ := hload
      cases apply_load_throws h he
      exact .refl
    · have hno : NoThrow (apply L a) :=
        apply_noThrow (fun ty name h => hload ⟨ty, name, h⟩) (not_exists.1 hset)
          (not_exists.1 hcreate)
      cases (hno s e s' h).symm.trans he

/-! ## The invariant -/

theorem WellFormed.init : WellFormed (.init : State V T) where
  inverse := Bimap.Inverse.empty
  olderFunctions fn h := by cases h
  olderBlocks bb h := by cases h
  distinct := .nil
  functions fn h := by cases h
  parents bb h := by cases h
  registered name bb h := by cases h
  current bb h := by cases h
  inserted := rfl
  located i h := by cases h
  detached := ⟨[], [], rfl, by simp, by simp, fun _ => rfl⟩

theorem WellFormed.newBlock_notMem (h : WellFormed s) (name : String) :
    s.newBlock name ∉ s.blocks.right := by
  rw [← Finmap.lookup_eq_none]
  cases hright : s.blocks.right.lookup (s.newBlock name) with
  | none => rfl
  | some name' =>
    have hmem := (h.registered name' _ ((h.inverse _ _).2 hright)).1
    exact absurd (h.olderBlocks _ hmem) (Nat.lt_irrefl _)

theorem WellFormed.emit (h : WellFormed s) (is : List (Inst V T × V)) (vars stack) :
    WellFormed { s.emit is with vars := vars, stack := stack } where
  inverse := h.inverse
  olderFunctions := h.olderFunctions
  olderBlocks := h.olderBlocks
  distinct := h.distinct
  functions := h.functions
  parents := h.parents
  registered := h.registered
  current := h.current
  inserted := h.inserted
  located i hi bb hbb := by
    cases List.mem_append.1 hi with
    | inl hi =>
      obtain ⟨j, -, rfl⟩ := List.mem_map.1 hi
      exact h.current bb (h.inserted ▸ hbb)
    | inr hi => exact h.located i hi bb hbb
  detached := by
    obtain ⟨inBlocks, before, hcreated, hin, hbefore, hnone⟩ := h.detached
    cases hcurrent : s.currentBlock with
    | none =>
      refine ⟨[], is.map (Prod.mk none) ++ before, ?_, by simp, ?_, fun _ => rfl⟩
      · simp [hcreated, hnone hcurrent, h.inserted, hcurrent]
      · intro i hi
        cases List.mem_append.1 hi with
        | inl hi =>
          obtain ⟨j, -, rfl⟩ := List.mem_map.1 hi
          rfl
        | inr hi => exact hbefore i hi
    | some bb =>
      refine ⟨is.map (Prod.mk (some bb)) ++ inBlocks, before, ?_, ?_, hbefore, fun h => ?_⟩
      · simp [hcreated, h.inserted, hcurrent]
      · intro i hi
        cases List.mem_append.1 hi with
        | inl hi =>
          obtain ⟨j, -, rfl⟩ := List.mem_map.1 hi
          rfl
        | inr hi => exact hin i hi
      · cases hcurrent.symm.trans h

theorem WellFormed.createdFunction (h : WellFormed s) (name : String) (type : FunctionType T) :
    WellFormed (s.withFunction (s.newFunction name type)) where
  inverse := h.inverse
  olderFunctions fn hfn := by
    cases List.mem_cons.1 hfn with
    | inl hfn =>
      subst hfn
      exact Nat.lt_succ_self _
    | inr hfn => exact Nat.lt_succ_of_lt (h.olderFunctions fn hfn)
  olderBlocks bb hbb := Nat.lt_succ_of_lt (h.olderBlocks bb hbb)
  distinct := by
    refine List.nodup_cons.2 ⟨fun hmem => ?_, h.distinct⟩
    cases List.mem_append.1 hmem with
    | inl hmem =>
      obtain ⟨fn, hfn, hid⟩ := List.mem_map.1 hmem
      exact absurd (h.olderFunctions fn hfn) (hid ▸ Nat.lt_irrefl _)
    | inr hmem =>
      obtain ⟨bb, hbb, hid⟩ := List.mem_map.1 hmem
      exact absurd (h.olderBlocks bb hbb) (hid ▸ Nat.lt_irrefl _)
  functions fn hfn := by
    cases List.mem_cons.1 hfn with
    | inl hfn => exact hfn ▸ List.mem_cons_self
    | inr hfn => exact List.mem_cons_of_mem _ (h.functions fn hfn)
  parents bb hbb fn hfn := List.mem_cons_of_mem _ (h.parents bb hbb fn hfn)
  registered := h.registered
  current := h.current
  inserted := h.inserted
  located := h.located
  detached := h.detached

theorem WellFormed.withBlock (h : WellFormed s) (name : String) :
    WellFormed (s.withBlock name) where
  inverse := h.inverse
  olderFunctions fn hfn := Nat.lt_succ_of_lt (h.olderFunctions fn hfn)
  olderBlocks bb hbb := by
    cases List.mem_cons.1 hbb with
    | inl hbb => exact hbb ▸ Nat.lt_succ_self _
    | inr hbb => exact Nat.lt_succ_of_lt (h.olderBlocks bb hbb)
  distinct := by
    refine List.nodup_middle.2 (List.nodup_cons.2 ⟨fun hmem => ?_, h.distinct⟩)
    cases List.mem_append.1 hmem with
    | inl hmem =>
      obtain ⟨fn, hfn, hid⟩ := List.mem_map.1 hmem
      exact absurd (h.olderFunctions fn hfn) (hid ▸ Nat.lt_irrefl _)
    | inr hmem =>
      obtain ⟨bb, hbb, hid⟩ := List.mem_map.1 hmem
      exact absurd (h.olderBlocks bb hbb) (hid ▸ Nat.lt_irrefl _)
  functions := h.functions
  parents bb hbb fn hfn := by
    cases List.mem_cons.1 hbb with
    | inl hbb =>
      subst hbb
      exact List.mem_of_mem_head? hfn
    | inr hbb => exact h.parents bb hbb fn hfn
  registered name' bb hbb :=
    let ⟨hmem, hname⟩ := h.registered name' bb hbb
    ⟨List.mem_cons_of_mem _ hmem, hname⟩
  current := h.current
  inserted := h.inserted
  located := h.located
  detached := h.detached

omit [DecidableEq T] in
theorem State.Registered.insert {bb new : BasicBlock T} (h : s.Registered bb)
    (hfree : name ∉ s.blocks.left) :
    (s.blocks.left.insert name new).lookup bb.name = some bb := by
  have hne : bb.name ≠ name := fun heq => hfree (heq ▸ Finmap.mem_of_lookup_eq_some h)
  rw [Finmap.lookup_insert_of_ne _ hne]
  exact h

theorem WellFormed.enteredNew (h : WellFormed s) (hfree : name ∉ s.blocks.left) :
    WellFormed (s.withEntered name) where
  inverse := by
    have hinverse := h.inverse.insert name (s.newBlock name)
    rwa [Bimap.insert_snd, if_pos ⟨hfree, h.newBlock_notMem name⟩] at hinverse
  olderFunctions := (h.withBlock name).olderFunctions
  olderBlocks := (h.withBlock name).olderBlocks
  distinct := (h.withBlock name).distinct
  functions := h.functions
  parents := (h.withBlock name).parents
  registered name' bb hbb := by
    change (s.blocks.left.insert name (s.newBlock name)).lookup name' = some bb at hbb
    rw [Bimap.lookup_insert] at hbb
    split at hbb
    next hname =>
      cases hbb
      exact ⟨List.mem_cons_self, hname.symm⟩
    next => exact (h.withBlock name).registered name' bb hbb
  current bb hbb := by
    cases hbb
    exact Finmap.lookup_insert _
  inserted := rfl
  located i hi bb hbb := (h.located i hi bb hbb).insert hfree
  detached := by
    obtain ⟨inBlocks, before, hcreated, hin, hbefore, -⟩ := h.detached
    exact ⟨inBlocks, before, hcreated, hin, hbefore, fun h => by cases h⟩

theorem WellFormed.entered (h : WellFormed s) {bb : BasicBlock T}
    (hbb : s.blocks.left.lookup name = some bb) :
    WellFormed { s with currentBlock := some bb, insertBlock := some bb } where
  inverse := h.inverse
  olderFunctions := h.olderFunctions
  olderBlocks := h.olderBlocks
  distinct := h.distinct
  functions := h.functions
  parents := h.parents
  registered := h.registered
  current bb' hbb' := by
    cases hbb'
    have hname := (h.registered name bb hbb).2
    subst hname
    exact hbb
  inserted := rfl
  located := h.located
  detached := by
    obtain ⟨inBlocks, before, hcreated, hin, hbefore, -⟩ := h.detached
    exact ⟨inBlocks, before, hcreated, hin, hbefore, fun h => by cases h⟩

theorem WellFormed.step (h : WellFormed s) (hs : Change s s') : WellFormed s' := by
  cases hs with
  | emitted is vars stack => exact h.emit is vars stack
  | flags => exact { h with }
  | pushedFunction fn =>
    exact { h with
      functions := fun fn' hfn' => List.mem_cons_of_mem fn (h.functions fn' hfn')
      parents := fun bb hbb fn' hfn' => List.mem_cons_of_mem fn (h.parents bb hbb fn' hfn') }
  | createdFunction name type => exact h.createdFunction name type
  | enteredNew name hfree => exact h.enteredNew hfree
  | refused name => exact h.withBlock name
  | entered name bb hbb => exact h.entered hbb

/-! ## Nothing goes away -/

omit [DecidableEq T] in
theorem Grown.refl : Grown s s :=
  ⟨List.suffix_rfl, List.suffix_rfl, List.suffix_rfl, fun _ _ h => h⟩

omit [DecidableEq T] in
theorem Grown.trans (h : Grown s s') (h' : Grown s' s'') : Grown s s'' where
  functions := h.functions.trans h'.functions
  blocks := h.blocks.trans h'.blocks
  created := h.created.trans h'.created
  resolves name bb hbb := h'.resolves name bb (h.resolves name bb hbb)

theorem Change.grown (h : Change s s') : Grown s s' := by
  cases h with
  | emitted => exact ⟨List.suffix_rfl, List.suffix_rfl, List.suffix_append _ _, fun _ _ h => h⟩
  | flags | pushedFunction | entered =>
    exact ⟨List.suffix_rfl, List.suffix_rfl, List.suffix_rfl, fun _ _ h => h⟩
  | createdFunction =>
    exact ⟨List.suffix_cons _ _, List.suffix_rfl, List.suffix_rfl, fun _ _ h => h⟩
  | refused => exact ⟨List.suffix_rfl, List.suffix_cons _ _, List.suffix_rfl, fun _ _ h => h⟩
  | enteredNew name hfree =>
    refine ⟨List.suffix_rfl, List.suffix_cons _ _, List.suffix_rfl, fun name' bb hbb => ?_⟩
    have hne : name' ≠ name := fun heq => hfree (heq ▸ Finmap.mem_of_lookup_eq_some hbb)
    exact (Finmap.lookup_insert_of_ne _ hne).trans hbb

theorem Grown.contents (L : LLVM V T) (h : Grown s s') (bb : BasicBlock T) :
    s.contents L bb <:+ s'.contents L bb :=
  ((h.created.filter _).filter _).map _

/-! ## Runs -/

theorem WellFormed.run {as : List (Action V T)} (has : ∀ a ∈ as, a.OnlyInspects)
    (hrun : Run (Attempt L) s as s') (h : WellFormed s) : WellFormed s' ∧ Grown s s' := by
  induction hrun with
  | nil => exact ⟨h, .refl⟩
  | @cons s a s' as s'' ha _ ih =>
    have hchange := attempt_change (has a List.mem_cons_self) h.newBlock_notMem ha
    obtain ⟨h'', hgrown⟩ := ih (fun b hb => has b (List.mem_cons_of_mem a hb)) (h.step hchange)
    exact ⟨h'', hchange.grown.trans hgrown⟩

/-- Every state of every run is well-formed, and what a block contains is only appended to. -/
theorem wellFormed_run (L : LLVM V T) (as : List (Action V T)) (s : State V T)
    (has : ∀ a ∈ as, a.OnlyInspects) (hrun : Run (Attempt L) .init as s) :
    WellFormed s ∧ ∀ bs s', (∀ b ∈ bs, b.OnlyInspects) → Run (Attempt L) s bs s' →
      Grown s s' ∧ ∀ bb, s.contents L bb <:+ s'.contents L bb := by
  obtain ⟨h, -⟩ := WellFormed.init.run has hrun
  refine ⟨h, fun bs s' hbs hrest => ?_⟩
  obtain ⟨-, hgrown⟩ := h.run hbs hrest
  exact ⟨hgrown, hgrown.contents L⟩

end

/-- An instruction before the first block, one in it, and a second block `"a"` that is refused. -/
theorem wellFormed_twice : ∃ s : State Int Bool, Run (Attempt .integers) .init
      [.push 1, .cast .bitcast none true, .createBlock "a", .createBlock "a", .alloc true none] s ∧
    WellFormed s ∧ s.ir.created.map Prod.fst = [some ⟨0, "a", none⟩, none] := by
  have hrun := Run.cons (R := Attempt .integers) (s := .init) (a := .push 1) (.returned rfl) <|
    .cons (a := .cast .bitcast none true) (.returned rfl) <|
    .cons (a := .createBlock "a") (.returned rfl) <|
    .cons (a := .createBlock "a") (.thrown (e := .invalidArgument) rfl rfl) <|
    .cons (a := .alloc true none) (.returned rfl) .nil
  exact ⟨_, hrun, (wellFormed_run .integers _ _ (by simp [Action.OnlyInspects]) hrun).1, rfl⟩

end LlvmSc.Builder

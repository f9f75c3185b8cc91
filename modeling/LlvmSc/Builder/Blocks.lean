import LlvmSc.Builder.Effect
import LlvmSc.Builder.Failure

/-!
# The current block

Along a run in which exceptions are caught and the callbacks of `inspect` change nothing, the two maps
of `blocks`, `current_block` and the insertion point stay in step: the current block is the one whose
name was given to the last successful `create_block` or `set_block`, and names keep their blocks
(`currentBlock_run`).
-/

namespace LlvmSc.Builder

variable {V T : Type} [DecidableEq T]

def block (name : String) : M V T (BasicBlock T) := blockAt name

/-- `blocks[ current_block ]` -/
def currentBlockName : M V T String := fun s =>
  match s.currentBlock.bind s.blocks.right.lookup with
  | none => .error .unboundBlock s
  | some name => .ok name s

/-- The name given to the last successful `create_block` or `set_block`. -/
def entered (L : LLVM V T) (s : State V T) (a : Action V T) (last : Option String) : Option String :=
  match a, apply L a s with
  | .createBlock name, .ok .. | .setBlock name, .ok .. => some name
  | _, _ => last

/-- The callback of `inspect` does not modify the builder. -/
def Action.OnlyInspects (a : Action V T) : Prop := ∀ call, a = .inspect call → ∀ s, call s = s

/-- The block that `name` is resolved to is the current one, and instructions are inserted at its
end. -/
def State.InStep (s : State V T) (name : String) : Prop :=
  ∃ bb, currentBlockName s = .ok name s ∧ block name s = .ok bb s ∧ s.currentBlock = some bb ∧
    s.insertBlock = some bb

/-- The names keep their blocks. -/
def State.Resolves (s s' : State V T) : Prop :=
  ∀ name bb, block name s = .ok bb s → block name s' = .ok bb s'

/-- The maps are inverse to each other, and their blocks are older than the next one. -/
structure BlocksInv (s : State V T) (last : Option String) : Prop where
  inverse : s.blocks.Inverse
  older : ∀ name bb, s.blocks.left.lookup name = some bb → bb.id < s.ir.next
  current : ∀ name, last = some name → ∃ bb, s.blocks.left.lookup name = some bb ∧
    s.currentBlock = some bb ∧ s.insertBlock = some bb
  empty : last = none → s.blocks.left = ∅

section
variable {L : LLVM V T} {s s' : State V T} {a : Action V T} {last : Option String}

/-! ## One action -/

omit [DecidableEq T] in
theorem block_eq_ok : block name s = .ok bb s' ↔ s' = s ∧ s.blocks.left.lookup name = some bb := by
  cases hs : s.blocks.left.lookup name with
  | none =>
    have herr : block name s = .error .unboundBlock s := blockAt_none hs
    simp [herr]
  | some bb' =>
    have hok : block name s = .ok bb' s := blockAt_some hs
    rw [hok]
    constructor
    · intro h
      cases h
      exact ⟨rfl, rfl⟩
    · intro h
      obtain ⟨rfl, heq⟩ := h
      cases heq
      rfl

omit [DecidableEq T] in
theorem resolves_iff : s.Resolves s' ↔
    ∀ name bb, s.blocks.left.lookup name = some bb → s'.blocks.left.lookup name = some bb := by
  simp [State.Resolves, block_eq_ok]

theorem BlocksInv.init : BlocksInv (.init : State V T) none where
  inverse := Bimap.Inverse.empty
  older name bb h := by cases h
  current name h := by cases h
  empty _ := rfl

/-- Everything that the invariant is about is as before, up to new identities. -/
structure BlocksKept (s s' : State V T) : Prop where
  blocks : s'.blocks = s.blocks
  currentBlock : s'.currentBlock = s.currentBlock
  insertBlock : s'.insertBlock = s.insertBlock
  next : s.ir.next ≤ s'.ir.next

omit [DecidableEq T] in
theorem BlocksKept.rfl : BlocksKept s s := ⟨.refl _, .refl _, .refl _, Nat.le_refl _⟩

theorem BlocksInv.kept (h : BlocksInv s last) (hs : BlocksKept s s') : BlocksInv s' last where
  inverse := by
    rw [hs.blocks]
    exact h.inverse
  older name bb hbb := by
    rw [hs.blocks] at hbb
    exact Nat.lt_of_lt_of_le (h.older name bb hbb) hs.next
  current name hname := by
    rw [hs.blocks, hs.currentBlock, hs.insertBlock]
    exact h.current name hname
  empty hnone := by
    rw [hs.blocks]
    exact h.empty hnone

omit [DecidableEq T] in
theorem BlocksKept.resolves (hs : BlocksKept s s') : s.Resolves s' := by
  rw [resolves_iff, hs.blocks]
  exact fun _ _ h => h

/-- Only `create_block` and `set_block` change any of this. -/
theorem apply_kept (ha : a.OnlyInspects) (hcreate : ∀ name, a ≠ .createBlock name)
    (hset : ∀ name, a ≠ .setBlock name) (h : apply L a s = .ok () s') : BlocksKept s s' := by
  cases hemits : a.emits with
  | true =>
    obtain ⟨is, vars, pushed, rfl, -, -⟩ := apply_effect hemits h
    exact ⟨rfl, rfl, rfl, Nat.le_refl _⟩
  | false =>
    cases a with
    | inspect call =>
      cases h
      rw [ha call rfl s]
      exact .rfl
    | createBlock name => exact absurd rfl (hcreate name)
    | setBlock name => exact absurd rfl (hset name)
    | createFunction name rty args vararg =>
      cases h
      exact ⟨rfl, rfl, rfl, Nat.le_succ _⟩
    | pop n =>
      cases popN_ok h
      exact ⟨rfl, rfl, rfl, Nat.le_refl _⟩
    | function | module_ | keepStack | push =>
      cases h
      exact ⟨rfl, rfl, rfl, Nat.le_refl _⟩
    | _ => cases hemits

theorem attempt_kept (ha : a.OnlyInspects) (hcreate : ∀ name, a ≠ .createBlock name)
    (hset : ∀ name, a ≠ .setBlock name) (h : Attempt L s a s') : BlocksKept s s' := by
  cases h with
  | returned h => exact apply_kept ha hcreate hset h
  | @thrown e _ h he =>
    by_cases hload : ∃ ty name, a = .load ty name
    · obtain ⟨ty, name, rfl⟩ := hload
      cases apply_load_throws h he
      exact .rfl
    · have hno : NoThrow (apply L a) :=
        apply_noThrow (fun ty name h => hload ⟨ty, name, h⟩) hset hcreate
      cases (hno s e s' h).symm.trans he

/-- A new block is not registered. -/
theorem BlocksInv.newBlock_notMem (h : BlocksInv s last) : s.newBlock name ∉ s.blocks.right := by
  rw [← Finmap.lookup_eq_none]
  cases hright : s.blocks.right.lookup (s.newBlock name) with
  | none => rfl
  | some name' =>
    have hlt := h.older name' (s.newBlock name) ((h.inverse _ _).2 hright)
    exact absurd hlt (Nat.lt_irrefl _)

theorem BlocksInv.createBlock_ok (h : BlocksInv s last)
    (hinsert : (s.blocks.insert name (s.newBlock name)).1 = .ok inserted)
    (hs : apply L (.createBlock name) s = .ok () s') :
    BlocksInv s' (some name) ∧ s.Resolves s' := by
  have hnew : s.newBlock name ∉ s.blocks.right := h.newBlock_notMem
  have hname : name ∉ s.blocks.left := by
    rcases s.blocks.insert_cases name (s.newBlock name) with ⟨ha, -, -⟩ | ⟨-, hb, -⟩ | ⟨-, heq⟩
    · exact ha
    · exact absurd hb hnew
    · rw [heq] at hinsert
      cases hinsert
  have hblocks : (s.blocks.insert name (s.newBlock name)).2 =
      ⟨s.blocks.left.insert name (s.newBlock name), s.blocks.right.insert (s.newBlock name) name⟩ := by
    rw [Bimap.insert_snd, if_pos ⟨hname, hnew⟩]
  have hinverse := h.inverse.insert name (s.newBlock name)
  cases (apply_createBlock_ok hinsert).symm.trans hs
  rw [hblocks] at hinverse ⊢
  refine ⟨⟨hinverse, ?_, ?_, fun h => by cases h⟩, ?_⟩
  · intro name' bb hbb
    rw [Bimap.lookup_insert] at hbb
    split at hbb
    · cases hbb
      exact Nat.lt_succ_self _
    · exact Nat.lt_succ_of_lt (h.older name' bb hbb)
  · intro name' hname'
    cases hname'
    exact ⟨s.newBlock name, Finmap.lookup_insert _, rfl, rfl⟩
  · rw [resolves_iff]
    intro name' bb hbb
    have hne : name' ≠ name := by
      rintro rfl
      exact hname (Finmap.mem_of_lookup_eq_some hbb)
    rw [Bimap.lookup_insert, if_neg hne]
    exact hbb

theorem BlocksInv.createBlock (h : BlocksInv s last) (hs : Attempt L s (.createBlock name) s') :
    BlocksInv s' (entered L s (.createBlock name) last) ∧ s.Resolves s' := by
  cases hinsert : (s.blocks.insert name (s.newBlock name)).1 with
  | ok inserted =>
    have happly := apply_createBlock_ok (L := L) hinsert
    cases hs with
    | thrown hs _ => cases happly.symm.trans hs
    | returned hs =>
      have hlast : entered L s (.createBlock name) last = some name := by simp [entered, hs]
      rw [hlast]
      exact h.createBlock_ok hinsert hs
  | error e =>
    have happly := apply_createBlock_error (L := L) hinsert
    have hlast : entered L s (.createBlock name) last = last := by simp [entered, happly]
    have hkept : BlocksKept s (s.withBlock name) := ⟨rfl, rfl, rfl, Nat.le_succ _⟩
    cases hs with
    | returned hs => cases happly.symm.trans hs
    | thrown hs _ =>
      cases happly.symm.trans hs
      rw [hlast]
      exact ⟨h.kept hkept, hkept.resolves⟩

theorem BlocksInv.setBlock (h : BlocksInv s last) (hs : Attempt L s (.setBlock name) s') :
    BlocksInv s' (entered L s (.setBlock name) last) ∧ s.Resolves s' := by
  cases hbb : s.blocks.left.lookup name with
  | none =>
    have happly : apply L (.setBlock name) s = .error .unboundBlock s :=
      EStateM.bind_error (blockAt_none hbb)
    have hlast : entered L s (.setBlock name) last = last := by simp [entered, happly]
    cases hs with
    | returned hs => cases happly.symm.trans hs
    | thrown hs _ =>
      cases happly.symm.trans hs
      rw [hlast]
      exact ⟨h, BlocksKept.rfl.resolves⟩
  | some bb =>
    have happly : apply L (.setBlock name) s =
        .ok () { s with currentBlock := some bb, insertBlock := some bb } :=
      EStateM.bind_ok (blockAt_some hbb)
    have hlast : entered L s (.setBlock name) last = some name := by simp [entered, happly]
    cases hs with
    | thrown hs _ => cases happly.symm.trans hs
    | returned hs =>
      cases happly.symm.trans hs
      rw [hlast, resolves_iff]
      refine ⟨⟨h.inverse, h.older, ?_, fun h => by cases h⟩, fun _ _ h => h⟩
      intro name' hname'
      cases hname'
      exact ⟨bb, hbb, rfl, rfl⟩

theorem BlocksInv.step (ha : a.OnlyInspects) (h : BlocksInv s last) (hs : Attempt L s a s') :
    BlocksInv s' (entered L s a last) ∧ s.Resolves s' := by
  cases a with
  | createBlock name => exact h.createBlock hs
  | setBlock name => exact h.setBlock hs
  | _ =>
    have hkept := attempt_kept ha (by simp) (by simp) hs
    exact ⟨h.kept hkept, hkept.resolves⟩

/-! ## Runs -/

theorem BlocksInv.run {p p' : State V T × Option String} {as : List (Action V T)}
    (has : ∀ a ∈ as, a.OnlyInspects) (hrun : Run (Recorded (Attempt L) (entered L)) p as p')
    (h : BlocksInv p.1 p.2) : BlocksInv p'.1 p'.2 ∧ p.1.Resolves p'.1 := by
  induction hrun with
  | nil => exact ⟨h, BlocksKept.rfl.resolves⟩
  | @cons p a p' as p'' hstep _ ih =>
    obtain ⟨h', hresolves⟩ := h.step (has a List.mem_cons_self) hstep.1
    rw [← hstep.2] at h'
    obtain ⟨h'', hresolves'⟩ := ih (fun b hb => has b (List.mem_cons_of_mem a hb)) h'
    rw [resolves_iff] at hresolves hresolves' ⊢
    exact ⟨h'', fun name bb hbb => hresolves' name bb (hresolves name bb hbb)⟩

theorem BlocksInv.inStep {name : String} (h : BlocksInv s (some name)) : s.InStep name := by
  obtain ⟨bb, hleft, hcurrent, hinsert⟩ := h.current name rfl
  have hright := (h.inverse name bb).1 hleft
  refine ⟨bb, ?_, blockAt_some hleft, hcurrent, hinsert⟩
  rw [currentBlockName, hcurrent, Option.bind_some, hright]

/-- Once a name is registered, the current block, its name and the insertion point are those of the
last successful `create_block` or `set_block`; and every name keeps its block in what follows. -/
theorem currentBlock_run (L : LLVM V T) (as : List (Action V T)) (s : State V T)
    (last : Option String) (has : ∀ a ∈ as, a.OnlyInspects)
    (hrun : Run (Recorded (Attempt L) (entered L)) (.init, none) as (s, last)) :
    ((∃ name bb, block name s = .ok bb s) → last ≠ none) ∧
      (∀ name, last = some name → s.InStep name) ∧
      ∀ bs s', (∀ b ∈ bs, b.OnlyInspects) → Run (Attempt L) s bs s' → s.Resolves s' := by
  obtain ⟨h, -⟩ := BlocksInv.run has hrun .init
  refine ⟨?_, ?_, ?_⟩
  · intro hregistered hnone
    obtain ⟨name, bb, hbb⟩ := hregistered
    have hleft := (block_eq_ok.1 hbb).2
    rw [h.empty hnone] at hleft
    cases hleft
  · rintro name rfl
    exact h.inStep
  · intro bs s' hbs hrest
    obtain ⟨last', hrest⟩ := hrest.recorded (f := entered L) last
    exact (BlocksInv.run hbs hrest h).2

end

/-- The second block `"a"` is refused, and the first one stays the current block. -/
theorem currentBlock_twice : ∃ s : State Int Bool, s.InStep "a" ∧
    Run (Recorded (Attempt .integers) (entered .integers)) (.init, none)
      [.createBlock "a", .createBlock "a"] (s, some "a") := by
  have hfirst : Recorded (Attempt .integers) (entered .integers)
      ((.init, none) : State Int Bool × Option String) (.createBlock "a") (_, some "a") :=
    ⟨.returned rfl, rfl⟩
  have hrun := Run.cons hfirst (.cons (show Recorded (Attempt .integers) (entered .integers)
    _ (.createBlock "a") (_, some "a") from ⟨.thrown (e := .invalidArgument) rfl rfl, rfl⟩) .nil)
  refine ⟨_, (currentBlock_run .integers _ _ _ ?_ hrun).2.1 "a" rfl, hrun⟩
  intro a ha call hcall
  rw [hcall] at ha
  simp at ha

end LlvmSc.Builder

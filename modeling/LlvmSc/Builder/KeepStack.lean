import LlvmSc.Builder.Height

/-!
# `keep_stack`

With `keep_stack` on, every absent operand of an action is read from the top of the stack, so that two
of them are the same value; with `keep_stack` off they are the values from the top on. The same
instruction is emitted exactly if these values do not differ where it matters
(`keepsOperands_iff`).
-/

namespace LlvmSc.Builder

variable {V T : Type}

def Action.takesOperands : Action V T → Bool
  | .loadPtr .. | .store .. | .bin .. | .cmp .. | .cast .. | .condbr .. | .call .. | .ret _ => true
  | _ => false

/-- The values of the operands `os`, the absent ones from a stack. -/
def fill (keepStack : Bool) : List (Option V) → List V → List V
  | [], _ => []
  | some v :: os, stack => v :: fill keepStack os stack
  | none :: _, [] => []
  | none :: os, v :: stack => v :: fill keepStack os (if keepStack then v :: stack else stack)

section
variable {k : Bool} {os : List (Option V)} {stack : List V}

theorem absent_some (v : V) (os : List (Option V)) : absent (some v :: os) = absent os := by
  simp [absent]

theorem absent_none (os : List (Option V)) : absent (none :: os) = absent os + 1 := by
  simp [absent]

theorem fill_length (h : absent os ≤ stack.length) : (fill k os stack).length = os.length := by
  induction os generalizing stack with
  | nil => rfl
  | cons o os ih =>
    cases o with
    | some v =>
      rw [absent_some] at h
      rw [fill, List.length_cons, ih h, List.length_cons]
    | none =>
      rw [absent_none] at h
      cases stack with
      | nil => exact absurd h (Nat.not_succ_le_zero _)
      | cons v stack =>
        have hrest : absent os ≤ (if k then v :: stack else stack).length := by
          rw [List.length_cons] at h
          cases k with
          | true => exact Nat.le_of_succ_le h
          | false => exact Nat.le_of_succ_le_succ h
        rw [fill, List.length_cons, ih hrest, List.length_cons]

/-- An absent operand is the top of the stack, or has as many slots above its own as there are absent
operands before it. -/
theorem getElem?_fill (h : absent os ≤ stack.length) (i : Nat) :
    (fill k os stack)[i]? =
      os[i]?.bind fun o => o.or stack[if k then 0 else absent (os.take i)]? := by
  induction os generalizing stack i with
  | nil => rfl
  | cons o os ih =>
    cases o with
    | some v =>
      rw [absent_some] at h
      cases i with
      | zero => rfl
      | succ i => simp only [fill, List.getElem?_cons_succ, List.take_succ_cons, absent_some, ih h]
    | none =>
      rw [absent_none] at h
      cases stack with
      | nil => exact absurd h (Nat.not_succ_le_zero _)
      | cons v stack =>
        rw [List.length_cons] at h
        cases i with
        | zero => simp [fill, absent]
        | succ i =>
          cases k with
          | true =>
            have hrest : absent os ≤ (v :: stack).length := Nat.le_of_succ_le h
            simpa [fill] using ih hrest i
          | false =>
            have hrest : absent os ≤ stack.length := Nat.le_of_succ_le_succ h
            simpa [fill, absent_none] using ih hrest i

end

/-! ## What an action does with its operands -/

/-- Operand `i` of an action, as the instruction gets it. -/
def Action.pass [DecidableEq T] (L : LLVM V T) (before : Nat) : Action V T → Nat → V → V
  | .call fn _, i, v => (fn.type.params[i]?).elim v (castTo L before i v)
  | _, _, v => v

/-- Every absent operand would be passed as the same value from the top of the stack as from its own
slot. -/
def Action.SlotsAgree [DecidableEq T] (L : LLVM V T) (a : Action V T) (s : State V T) : Prop :=
  ∀ i, a.operands[i]? = some none → ∀ v top, s.stack[absent (a.operands.take i)]? = some v →
    s.stack.head? = some top →
      a.pass L s.ir.created.length i v = a.pass L s.ir.created.length i top

section
variable [DecidableEq T] {L : LLVM V T}

theorem slotsAgree_iff {a : Action V T} {s : State V T}
    (h : absent a.operands ≤ s.stack.length) : a.SlotsAgree L s ↔
      (fill true a.operands s.stack).mapIdx (a.pass L s.ir.created.length) =
        (fill false a.operands s.stack).mapIdx (a.pass L s.ir.created.length) := by
  rw [List.ext_getElem?_iff]
  refine forall_congr' fun i => ?_
  rw [List.getElem?_mapIdx, List.getElem?_mapIdx, getElem?_fill h, getElem?_fill h]
  cases ho : a.operands[i]? with
  | none => simp
  | some o =>
    cases o with
    | some v => simp
    | none =>
      have hsome (k : Bool) :
          ∃ v, s.stack[if k then 0 else absent (a.operands.take i)]? = some v := by
        have hi : i < (fill k a.operands s.stack).length := by
          rw [fill_length h]
          exact (List.getElem?_eq_some_iff.1 ho).1
        have hfill := getElem?_fill (k := k) h i
        rw [ho, List.getElem?_eq_getElem hi] at hfill
        exact ⟨_, hfill.symm⟩
      obtain ⟨top, htop⟩ := hsome true
      obtain ⟨v, hv⟩ := hsome false
      simp only [if_true, Bool.false_eq_true, if_false] at htop hv
      rw [← List.head?_eq_getElem?] at htop
      simp [hv, htop, ← List.head?_eq_getElem?, eq_comm]

/-! ## The emitted instruction -/

omit [DecidableEq T] in
/-- One operand, and what is left for the others. -/
theorem popvalue_fill {o : Option V} {os : List (Option V)} {s : State V T}
    (h : absent (o :: os) ≤ s.stack.length) :
    ∃ v stack, popvalue o s = .ok v { s with stack := stack } ∧ absent os ≤ stack.length ∧
      fill s.keepStack (o :: os) s.stack = v :: fill s.keepStack os stack := by
  cases o with
  | some v =>
    rw [absent_some] at h
    exact ⟨v, s.stack, rfl, h, rfl⟩
  | none =>
    rw [absent_none] at h
    cases hs : s.stack with
    | nil =>
      rw [hs] at h
      exact absurd h (Nat.not_succ_le_zero _)
    | cons v stack =>
      rw [hs, List.length_cons] at h
      cases hk : s.keepStack with
      | true =>
        refine ⟨v, v :: stack, ?_, Nat.le_of_succ_le h, rfl⟩
        rw [popvalue_keep hk, back_cons hs, ← hs, ← hk]
      | false =>
        refine ⟨v, stack, ?_, Nat.le_of_succ_le_succ h, rfl⟩
        rw [popvalue_pop hk, pop_cons hs, ← hk]

/-- What follows an instruction that has been created: its value is pushed, or dropped. -/
def Follows (f : V → M V T Unit) : Prop := ∀ v s, ∃ s', f v s = .ok () s' ∧ s'.ir = s.ir

omit [DecidableEq T] in
theorem push_follows : Follows (push : V → M V T Unit) := fun _ _ => ⟨_, rfl, rfl⟩

omit [DecidableEq T] in
theorem pure_follows : Follows (fun _ => pure () : V → M V T Unit) := fun _ s => ⟨s, rfl, rfl⟩

theorem create_follows {f : V → M V T Unit} (hf : Follows f) {site : Site} {b : Build V T}
    (hb : create L site b s = .ok v (s.emit is)) :
    ∃ s', (create L site b >>= f) s = .ok () s' ∧
      s'.ir.created = is.map (Prod.mk s.insertBlock) ++ s.ir.created := by
  obtain ⟨s', hs', hir⟩ := hf v (s.emit is)
  refine ⟨s', (EStateM.bind_ok hb).trans hs', ?_⟩
  rw [hir, State.emit_created]

theorem ChecksPass.apply {a : Action V T} (h : ChecksPass L [a] s) (he : apply L a s = .error e s') :
    e = .emptyStack :=
  h e s' (EStateM.bind_error he)

/-- The action emits the same instruction in both modes. -/
def KeepsOperands (L : LLVM V T) (a : Action V T) (s : State V T) : Prop :=
  ∃ s₁ s₂, apply L a { s with keepStack := true } = .ok () s₁ ∧
    apply L a { s with keepStack := false } = .ok () s₂ ∧ s₁.ir.created.head? = s₂.ir.created.head?

variable {a : Action V T} {s : State V T}

/-- In either mode the operands determine what is emitted. -/
theorem keepsOperands_iff_of {i : Bool → Inst V T} (hlen : absent a.operands ≤ s.stack.length)
    (h : ∀ k, ∃ s', apply L a { s with keepStack := k } = .ok () s' ∧
      s'.ir.created.head? = some (s.insertBlock, L.made s.site (i k)))
    (hi : i true = i false ↔
      (fill true a.operands s.stack).mapIdx (a.pass L s.ir.created.length) =
        (fill false a.operands s.stack).mapIdx (a.pass L s.ir.created.length)) :
    KeepsOperands L a s ↔ a.SlotsAgree L s := by
  obtain ⟨s₁, h₁, hhead₁⟩ := h true
  obtain ⟨s₂, h₂, hhead₂⟩ := h false
  rw [slotsAgree_iff hlen, ← hi]
  constructor
  · rintro ⟨t₁, t₂, ht₁, ht₂, hhead⟩
    cases h₁.symm.trans ht₁
    cases h₂.symm.trans ht₂
    rw [hhead₁, hhead₂] at hhead
    exact (Prod.mk.inj (Prod.mk.inj (Option.some.inj hhead)).2).1
  · intro heq
    refine ⟨s₁, s₂, h₁, h₂, ?_⟩
    rw [hhead₁, hhead₂, heq]

/-- A single operand is the same in both modes. -/
theorem fill_singleton (o : Option V) (stack : List V) :
    fill true [o] stack = fill false [o] stack := by
  cases o with
  | some v => rfl
  | none => cases stack <;> rfl

theorem unary_keeps {o : Option V} {b : V → Build V T} {f : V → M V T Unit} (hf : Follows f)
    (ha : ∀ k, apply L a { s with keepStack := k } =
      (do f (← create L s.site (b (← popvalue o)))) { s with keepStack := k })
    (ho : a.operands = [o]) (hlen : absent a.operands ≤ s.stack.length)
    (hchecks : ∀ k, ChecksPass L [a] { s with keepStack := k }) :
    KeepsOperands L a s ↔ a.SlotsAgree L s := by
  refine iff_of_true ?_ ((slotsAgree_iff hlen).2 (by rw [ho, fill_singleton]))
  rw [ho] at hlen
  have hpop (k : Bool) := popvalue_fill (s := { s with keepStack := k }) hlen
  obtain ⟨v, stack₁, hv, -, hfill₁⟩ := hpop true
  obtain ⟨w, stack₂, hw, -, hfill₂⟩ := hpop false
  have hvw : v = w := by
    have heq := hfill₁.symm.trans ((fill_singleton o s.stack).trans hfill₂)
    cases heq
    rfl
  subst hvw
  rcases create_emit L s.site (b v) with ⟨e, he, herr⟩ | ⟨u, is, hok⟩
  · have happly := (ha true).trans ((EStateM.bind_ok hv).trans (EStateM.bind_error (herr _)))
    exact absurd ((hchecks true).apply happly) he
  · obtain ⟨s₁, hs₁, hcreated₁⟩ :=
      create_follows hf (hok { s with keepStack := true, stack := stack₁ })
    obtain ⟨s₂, hs₂, hcreated₂⟩ :=
      create_follows hf (hok { s with keepStack := false, stack := stack₂ })
    refine ⟨s₁, s₂, (ha true).trans ((EStateM.bind_ok hv).trans hs₁),
      (ha false).trans ((EStateM.bind_ok hw).trans hs₂), ?_⟩
    rw [hcreated₁, hcreated₂]

theorem binary_keeps_iff {l r : Option V} {b : V → V → Build V T} {i : V → V → Inst V T}
    {f : V → M V T Unit} (hf : Follows f)
    (ha : ∀ k, apply L a { s with keepStack := k } = (do
      let v ← popvalue l
      let w ← popvalue r
      f (← create L s.site (b v w))) { s with keepStack := k })
    (hb : ∀ site v w s,
      create L site (b v w) s = .ok (L.value site (i v w)) (s.emit [L.made site (i v w)]))
    (hi : ∀ v w v' w', i v w = i v' w' ↔ v = v' ∧ w = w')
    (ho : a.operands = [l, r]) (hpass : a.pass L s.ir.created.length = fun _ v => v)
    (hlen : absent a.operands ≤ s.stack.length) :
    KeepsOperands L a s ↔ a.SlotsAgree L s := by
  have hrun (k : Bool) : ∃ v w s', fill k [l, r] s.stack = [v, w] ∧
      apply L a { s with keepStack := k } = .ok () s' ∧
      s'.ir.created.head? = some (s.insertBlock, L.made s.site (i v w)) := by
    rw [ho] at hlen
    obtain ⟨v, stack₁, hv, hlen₁, hfill₁⟩ := popvalue_fill (s := { s with keepStack := k }) hlen
    obtain ⟨w, stack₂, hw, -, hfill₂⟩ :=
      popvalue_fill (s := { s with keepStack := k, stack := stack₁ }) hlen₁
    obtain ⟨s', hs', hcreated⟩ :=
      create_follows hf (hb s.site v w { s with keepStack := k, stack := stack₂ })
    refine ⟨v, w, s', ?_, ?_, ?_⟩
    · rw [hfill₁, hfill₂]
      rfl
    · exact (ha k).trans ((EStateM.bind_ok hv).trans ((EStateM.bind_ok hw).trans hs'))
    · rw [hcreated]
      rfl
  choose v w s' hfill happly hhead using hrun
  refine keepsOperands_iff_of (i := fun k => i (v k) (w k)) hlen
    (fun k => ⟨s' k, happly k, hhead k⟩) ?_
  rw [hpass, ho, hfill, hfill, hi]
  simp

/-- The arguments of a call, unless there are more of them than parameters. -/
theorem callArgs_fill {fn : FunctionCallee V T} {args : List (Option V)} (before idx : Nat)
    (h : absent args ≤ s.stack.length) :
    (∃ s', callArgs L before fn idx args s = .error .paramIndex s') ∨
      ∃ s', callArgs L before fn idx args s =
          .ok ((fill s.keepStack args s.stack).mapIdx fun i =>
            (Action.call fn args).pass L before (idx + i)) s' ∧
        s'.insertBlock = s.insertBlock := by
  induction args generalizing s idx with
  | nil => exact .inr ⟨s, rfl, rfl⟩
  | cons arg args ih =>
    obtain ⟨v, stack, hv, hlen, hfill⟩ := popvalue_fill h
    rcases functionArgumentType_cases fn idx { s with stack := stack } with hty | ⟨ty, hparam, hty⟩
    · exact .inl ⟨_, (EStateM.bind_ok hv).trans (EStateM.bind_error hty)⟩
    · obtain ⟨is, hcast⟩ := castArgument_emit (L := L) before idx v ty
      have hcast := hcast { s with stack := stack }
      rcases ih (s := { s with stack := stack }.emit is) (idx + 1) hlen with
        ⟨s', hrest⟩ | ⟨s', hrest, hblock⟩
      · refine .inl ⟨s', (EStateM.bind_ok hv).trans ((EStateM.bind_ok hty).trans ?_)⟩
        exact (EStateM.bind_ok hcast).trans (EStateM.bind_error hrest)
      · have hpass :
            (Action.call fn (arg :: args)).pass L before (idx + 0) v = castTo L before idx v ty := by
          rw [Action.pass, Nat.add_zero, hparam, Option.elim_some]
        have hidx : (fun i => (Action.call fn args).pass L before (idx + 1 + i)) =
            fun i => (Action.call fn (arg :: args)).pass L before (idx + (i + 1)) := by
          funext i
          rw [Nat.add_right_comm, Nat.add_assoc]
          rfl
        refine .inr ⟨s', ?_, hblock⟩
        rw [hfill, List.mapIdx_cons, hpass, ← hidx]
        refine (EStateM.bind_ok hv).trans ((EStateM.bind_ok hty).trans ?_)
        exact (EStateM.bind_ok hcast).trans (EStateM.bind_ok hrest)

theorem call_keeps_iff {fn : FunctionCallee V T} {args : List (Option V)}
    (hlen : absent args ≤ s.stack.length)
    (hchecks : ∀ k, ChecksPass L [.call fn args] { s with keepStack := k }) :
    KeepsOperands L (.call fn args) s ↔ (Action.call fn args).SlotsAgree L s := by
  let passed (k : Bool) : List V :=
    (fill k args s.stack).mapIdx ((Action.call fn args).pass L s.ir.created.length)
  refine keepsOperands_iff_of (i := fun k => .call fn (passed k)) hlen (fun k => ?_) ?_
  · rcases callArgs_fill (L := L) (s := { s with keepStack := k }) s.ir.created.length 0 hlen with
      ⟨s', herr⟩ | ⟨s', hargs, hblock⟩
    · exact absurd ((hchecks k).apply (EStateM.bind_error herr)) (by decide)
    · simp only [Nat.zero_add] at hargs
      have hcreate : create L s.site (.call fn (passed k)) s' =
          .ok _ (s'.emit [L.made s.site (.call fn (passed k))]) := rfl
      obtain ⟨s'', hs'', hcreated⟩ := create_follows push_follows hcreate
      refine ⟨s'', (EStateM.bind_ok hargs).trans hs'', ?_⟩
      rw [hcreated, hblock]
      rfl
  · simp [passed, Action.operands]

theorem ret_keeps_iff {val : Option V} (hlen : absent [val] ≤ s.stack.length)
    (hchecks : ∀ k, ChecksPass L [.ret val] { s with keepStack := k }) :
    KeepsOperands L (.ret val) s ↔ (Action.ret val).SlotsAgree L s := by
  cases hs : s.functions with
  | nil => exact absurd ((hchecks true).apply (apply_ret_nil hs)) (by decide)
  | cons fn functions =>
    cases hvoid : L.isVoidTy fn.type.returnType with
    | true =>
      cases val with
      | some v =>
        exact absurd ((hchecks true).apply (apply_ret_void_some hs hvoid)) (by decide)
      | none =>
        have happly (k : Bool) := apply_ret_void (s := { s with keepStack := k }) hs hvoid
        refine iff_of_true ⟨_, _, happly true, happly false, rfl⟩
          ((slotsAgree_iff (a := .ret none) hlen).2 ?_)
        exact congrArg _ (fill_singleton none s.stack)
    | false =>
      refine unary_keeps (b := fun v => .ret (some v)) pure_follows (fun k => ?_) rfl hlen hchecks
      exact apply_ret_value (s := { s with keepStack := k }) hs hvoid

/-- `keep_stack` changes nothing exactly if it passes the same operands. -/
theorem keepsOperands_iff (L : LLVM V T) (a : Action V T) (s : State V T)
    (ha : a.takesOperands = true) (hlen : absent a.operands ≤ s.stack.length)
    (hchecks : ∀ k, ChecksPass L [a] { s with keepStack := k }) :
    KeepsOperands L a s ↔ a.SlotsAgree L s := by
  cases a with
  | loadPtr ty from_ => exact unary_keeps push_follows (fun _ => rfl) rfl hlen hchecks
  | store val dst =>
    exact binary_keeps_iff (i := .store) pure_follows (fun _ => rfl) (fun _ _ _ _ => rfl) (by simp)
      rfl rfl hlen
  | bin op lhs rhs =>
    exact binary_keeps_iff (i := .binOp op) push_follows (fun _ => rfl) (fun _ _ _ _ => rfl) (by simp)
      rfl rfl hlen
  | cmp pred lhs rhs =>
    cases hpred : pred.isFPPredicate with
    | true =>
      refine binary_keeps_iff (i := .fCmp pred) push_follows (fun _ => rfl) (fun site v w s => ?_)
        (by simp) rfl rfl hlen
      rw [create, if_pos hpred]
      rfl
    | false =>
      refine binary_keeps_iff (i := .iCmp pred) push_follows (fun _ => rfl) (fun site v w s => ?_)
        (by simp) rfl rfl hlen
      rw [create, if_neg (by simp [hpred])]
      rfl
  | cast op val to_ => exact unary_keeps push_follows (fun _ => rfl) rfl hlen hchecks
  | condbr cond thenbb elsebb => exact unary_keeps push_follows (fun _ => rfl) rfl hlen hchecks
  | call fn args => exact call_keeps_iff hlen hchecks
  | ret val => exact ret_keeps_iff hlen hchecks
  | _ => cases ha

end

/-- Two equal values. -/
theorem keepsOperands_sub :
    KeepsOperands .integers (.bin .sub none none) { State.init with stack := [1, 1] } := by
  have hchecks (k : Bool) : ChecksPass .integers [.bin .sub none none]
      { State.init with stack := [1, 1], keepStack := k } := by
    intro e s' h
    cases k with
    | true => cases h
    | false => cases h
  exact (keepsOperands_iff .integers (.bin .sub none none) { State.init with stack := [1, 1] } rfl
    (by decide) hchecks).2 ((slotsAgree_iff (by decide)).2 rfl)

/-- The difference of 2 and 1 becomes that of 2 and 2. -/
theorem not_keepsOperands :
    ¬ KeepsOperands .integers (.bin .sub none none) { State.init with stack := [2, 1] } := by
  rintro ⟨s₁, s₂, h₁, h₂, hhead⟩
  cases h₁
  cases h₂
  exact absurd hhead (by decide)

end LlvmSc.Builder

import LlvmSc.Builder.Operand

/-!
# Expressions on the stack

An expression tree can be evaluated by `create` directly, or by actions that leave the operands on
the stack. Both ways give the same value and the same instructions, because every action takes its
absent operands from the first to the last and the actions of the operands run from the last to the
first.
-/

namespace LlvmSc.Builder

mutual

/-- A load of a variable, or a node over operands. -/
inductive Expr (V T : Type) where
  | load (ty : T) (var : String)
  | bin (op : BinOp) (lhs rhs : Operand V T)
  | cmp (pred : Predicate) (lhs rhs : Operand V T)
  | cast (op : CastOp) (val : Operand V T) (to_ : T)
  | call (fn : FunctionCallee V T) (args : Operands V T)

/-- An explicit value or a subtree. -/
inductive Operand (V T : Type) where
  | value (v : V)
  | expr (e : Expr V T)

inductive Operands (V T : Type) where
  | nil
  | cons (o : Operand V T) (os : Operands V T)

end

section
variable {V T : Type}

/-- The operand of the action of a node: absent if it is a subtree. -/
def Operand.explicit : Operand V T → Option V
  | .value v => some v
  | .expr _ => none

def Operands.explicit : Operands V T → List (Option V)
  | .nil => []
  | .cons o os => o.explicit :: os.explicit

mutual

/-- The actions of the subtrees from the last to the first, and the action of the node. -/
def Expr.actions : Expr V T → List (Action V T)
  | .load ty var => [.load (some ty) var]
  | .bin op lhs rhs => rhs.actions ++ lhs.actions ++ [.bin op lhs.explicit rhs.explicit]
  | .cmp pred lhs rhs => rhs.actions ++ lhs.actions ++ [.cmp pred lhs.explicit rhs.explicit]
  | .cast op val to_ => val.actions ++ [.cast op val.explicit to_]
  | .call fn args => args.actions ++ [.call fn args.explicit]

def Operand.actions : Operand V T → List (Action V T)
  | .value _ => []
  | .expr e => e.actions

def Operands.actions : Operands V T → List (Action V T)
  | .nil => []
  | .cons o os => os.actions ++ o.actions

end

variable [DecidableEq T] (L : LLVM V T)

/-- `create`, as the next action does it. -/
def createNext (b : Build V T) : M V T V := fun s => create L s.site b s

mutual

/-- The value by `create` alone; the stack is not used. -/
def Expr.eval : Expr V T → M V T V
  | .load ty var => do createNext L (.load (some ty) (← varAt var))
  | .bin op lhs rhs => do
    let r ← rhs.eval
    let l ← lhs.eval
    createNext L (.bin op l r)
  | .cmp pred lhs rhs => do
    let r ← rhs.eval
    let l ← lhs.eval
    createNext L (.cmp pred l r)
  | .cast op val to_ => do createNext L (.cast op (← val.eval) to_)
  | .call fn args => do createNext L (.call fn (← args.eval))

def Operand.eval : Operand V T → M V T V
  | .value v => pure v
  | .expr e => e.eval

def Operands.eval : Operands V T → M V T (List V)
  | .nil => pure []
  | .cons o os => do
    let vs ← os.eval
    return (← o.eval) :: vs

end

mutual

/-- The variables are bound, and the calls are of functions with a fixed number of parameters, of the
types of the arguments. -/
def Expr.WellFormed : Expr V T → State V T → Prop
  | .load _ var, s => var ∈ s.vars
  | .bin _ lhs rhs, s | .cmp _ lhs rhs, s =>
    rhs.WellFormed s ∧ ∀ r s', rhs.eval L s = .ok r s' → lhs.WellFormed s'
  | .cast _ val _, s => val.WellFormed s
  | .call fn args, s => args.WellFormed s ∧ fn.type.vararg = false ∧
      ∀ vs s', args.eval L s = .ok vs s' → vs.map L.getType = fn.type.params

def Operand.WellFormed : Operand V T → State V T → Prop
  | .value _, _ => True
  | .expr e, s => e.WellFormed s

def Operands.WellFormed : Operands V T → State V T → Prop
  | .nil, _ => True
  | .cons o os, s => os.WellFormed s ∧ ∀ vs s', os.eval L s = .ok vs s' → o.WellFormed s'

end

end

/-! ## Operands on the stack -/

section
variable {V T : Type}

/-- What the actions of an operand with value `v` leave on the stack. -/
def Operand.slot : Operand V T → V → List V
  | .value _, _ => []
  | .expr _, v => [v]

def Operands.slots : Operands V T → List V → List V
  | .cons o os, v :: vs => o.slot v ++ os.slots vs
  | _, _ => []

variable [DecidableEq T] {L : LLVM V T}

theorem popvalue_operand {o : Operand V T} {s s₀ s₁ : State V T} (hkeep : s.keepStack = false)
    (ho : o.eval L s₀ = .ok v s₁) (hs : s.stack = o.slot v ++ rest) :
    popvalue o.explicit s = .ok v { s with stack := rest } := by
  cases o with
  | value w =>
    cases ho
    have hrest : s.stack = rest := hs
    subst hrest
    rfl
  | expr e => exact (popvalue_pop hkeep).trans (pop_cons hs)

/-- Arguments of the types of the parameters are taken as they are. -/
theorem callArgs_operands {fn : FunctionCallee V T} {os : Operands V T} {s s₀ s₁ : State V T}
    (before : Nat) (hkeep : s.keepStack = false) (hos : os.eval L s₀ = .ok vs s₁)
    (hs : s.stack = os.slots vs ++ rest) (htypes : vs.map L.getType = fn.type.params.drop idx) :
    callArgs L before fn idx os.explicit s = .ok vs { s with stack := rest } := by
  cases os with
  | nil =>
    cases hos
    have hrest : s.stack = rest := hs
    subst hrest
    rfl
  | cons o os =>
    obtain ⟨vs, s₂, htail, hos⟩ := EStateM.bind_eq_ok.1 hos
    obtain ⟨v, s₃, ho, heq⟩ := EStateM.bind_eq_ok.1 hos
    cases heq
    rw [Operands.slots, List.append_assoc] at hs
    have htype : fn.type.params[idx]? = some (L.getType v) := by
      rw [← List.head?_drop, ← htypes]
      rfl
    have hrest : vs.map L.getType = fn.type.params.drop (idx + 1) := by
      rw [← List.tail_drop, ← htypes]
      rfl
    let t : State V T := { s with stack := os.slots vs ++ rest }
    have hargs : callArgs L before fn (idx + 1) os.explicit t = .ok vs { s with stack := rest } :=
      callArgs_operands before hkeep htail rfl hrest
    have hto : functionArgumentType fn idx t = .ok (L.getType v) t := by
      simp only [functionArgumentType, htype]
      rfl
    refine (EStateM.bind_ok (popvalue_operand hkeep ho hs)).trans ?_
    refine (EStateM.bind_ok hto).trans ?_
    have hcast : castArgument L before idx v (L.getType v) t = .ok v t := by
      rw [castArgument, if_neg (by simp)]
      rfl
    exact (EStateM.bind_ok hcast).trans (EStateM.bind_ok hargs)

/-- `create` returns a value. -/
def Creates (L : LLVM V T) (b : Build V T) : Prop :=
  ∀ site, ∃ v is, ∀ s, create L site b s = .ok v (s.emit is)

theorem creates_cmp (pred : Predicate) (lhs rhs : V) : Creates L (.cmp pred lhs rhs) := by
  intro site
  simp only [create]
  split
  · exact ⟨_, [_], fun _ => rfl⟩
  · exact ⟨_, [_], fun _ => rfl⟩

theorem creates_cast (op : CastOp) (val : V) (to_ : T) : Creates L (.cast op val to_) := by
  intro site
  cases op with
  | zfit | fptoui =>
    simp only [create]
    split
    · exact ⟨_, [], fun _ => rfl⟩
    · exact ⟨_, [_], fun _ => rfl⟩
  | bitcast | ptrtoint | inttoptr => exact ⟨_, [_], fun _ => rfl⟩

/-- The actions create what `m` creates, and leave `slots` on any stack. -/
structure Evaluates (L : LLVM V T) (s : State V T) (m : M V T α) (as : List (Action V T)) (a : α)
    (slots : List V) (is : List (Inst V T × V)) : Prop where
  eval : m s = .ok a (s.emit is)
  run : ∀ stack, run L as { s with stack := stack } =
    .ok () { s.emit is with stack := slots ++ stack }

namespace Evaluates

variable {s : State V T} {m : M V T α} {as bs : List (Action V T)} {xs ys : List V}
  {is js : List (Inst V T × V)}

theorem append_run {m' : M V T β} (h : Evaluates L s m as x xs is)
    (h' : Evaluates L (s.emit is) m' bs y ys js) (stack : List V) :
    Builder.run L (as ++ bs) { s with stack := stack } =
      .ok () { s.emit (js ++ is) with stack := ys ++ (xs ++ stack) } := by
  rw [← State.emit_emit]
  exact run_append_ok (h.run stack) (h'.run (xs ++ stack))

/-- A node whose action finds its operands on the stack. -/
theorem create {m : M V T V} {b : Build V T} {a : Action V T} (hb : Creates L b)
    (hm : m s = createNext L b (s.emit is))
    (hrun : ∀ stack, Builder.run L as { s with stack := stack } =
      .ok () { s.emit is with stack := xs ++ stack })
    (happly : ∀ stack, apply L a { s.emit is with stack := xs ++ stack } =
      (do push (← Builder.create L (s.emit is).site b)) { s.emit is with stack := stack }) :
    ∃ v js, Evaluates L s m (as ++ [a]) v [v] js := by
  obtain ⟨v, js, hcreate⟩ := hb (s.emit is).site
  refine ⟨v, js ++ is, ?_, fun stack => run_append_ok (hrun stack) (run_singleton ?_)⟩
  · rw [hm, ← State.emit_emit]
    exact hcreate _
  · rw [happly, ← State.emit_emit]
    exact EStateM.bind_ok (hcreate _)

/-- A node over two operands takes the left one first. -/
theorem binary {lhs rhs : Operand V T} {b : V → V → Build V T} {a : Action V T}
    (hkeep : s.keepStack = false) (hb : Creates L (b l r))
    (ha : ∀ t, apply L a t = (do
      let l ← popvalue lhs.explicit
      let r ← popvalue rhs.explicit
      push (← Builder.create L t.site (b l r))) t)
    (hr : Evaluates L s (rhs.eval L) rhs.actions r (rhs.slot r) is)
    (hl : Evaluates L (s.emit is) (lhs.eval L) lhs.actions l (lhs.slot l) js) :
    ∃ v ks, Evaluates L s (do
      let r ← rhs.eval L
      let l ← lhs.eval L
      createNext L (b l r)) (rhs.actions ++ lhs.actions ++ [a]) v [v] ks := by
  have hrun (stack : List V) := append_run hr hl stack
  simp only [← List.append_assoc] at hrun
  refine create hb ?_ hrun fun stack => ?_
  · rw [← State.emit_emit]
    exact (EStateM.bind_ok hr.eval).trans (EStateM.bind_ok hl.eval)
  · have hpopl := popvalue_operand (s := { s.emit (js ++ is) with
      stack := lhs.slot l ++ rhs.slot r ++ stack }) hkeep hl.eval (List.append_assoc ..)
    have hpopr := popvalue_operand (s := { s.emit (js ++ is) with
      stack := rhs.slot r ++ stack }) hkeep hr.eval rfl
    rw [ha]
    exact (EStateM.bind_ok hpopl).trans (EStateM.bind_ok hpopr)

end Evaluates

mutual

/-- The actions of an expression push its value, by induction on the expression. -/
theorem Expr.run_actions (e : Expr V T) {s : State V T} (hkeep : s.keepStack = false)
    (he : e.WellFormed L s) : ∃ v is, Evaluates L s (e.eval L) e.actions v [v] is :=
  match e with
  | .load ty var => by
    obtain ⟨p, hp⟩ := Finmap.mem_iff.1 he
    have hvar (stack : List V) := varAt_some (s := { s with stack := stack }) hp
    have hrun (stack : List V) : run L [] { s with stack := stack } =
        .ok () { s.emit [] with stack := [] ++ stack } := rfl
    have heval : (Expr.load ty var).eval L s = createNext L (.load (some ty) p) (s.emit []) :=
      EStateM.bind_ok (varAt_some hp)
    refine Evaluates.create (fun _ => ⟨_, [_], fun _ => rfl⟩) heval hrun fun stack => ?_
    exact EStateM.bind_ok (hvar stack)
  | .bin op lhs rhs => by
    obtain ⟨r, is, hr⟩ := rhs.run_actions hkeep he.1
    obtain ⟨l, js, hl⟩ := lhs.run_actions (s := s.emit is) hkeep (he.2 r _ hr.eval)
    exact Evaluates.binary hkeep (fun _ => ⟨_, [_], fun _ => rfl⟩) (fun _ => rfl) hr hl
  | .cmp pred lhs rhs => by
    obtain ⟨r, is, hr⟩ := rhs.run_actions hkeep he.1
    obtain ⟨l, js, hl⟩ := lhs.run_actions (s := s.emit is) hkeep (he.2 r _ hr.eval)
    exact Evaluates.binary hkeep (creates_cmp pred l r) (fun _ => rfl) hr hl
  | .cast op val to_ => by
    obtain ⟨w, is, hw⟩ := val.run_actions hkeep he
    refine Evaluates.create (creates_cast op w to_) (EStateM.bind_ok hw.eval) hw.run fun stack => ?_
    have hpop := popvalue_operand (s := { s.emit is with stack := val.slot w ++ stack }) hkeep hw.eval
      rfl
    exact EStateM.bind_ok hpop
  | .call fn args => by
    obtain ⟨hargs, -, htypes⟩ := he
    obtain ⟨vs, is, hvs⟩ := args.run_actions hkeep hargs
    refine Evaluates.create (b := .call fn vs) (fun _ => ⟨_, [_], fun _ => rfl⟩)
      (EStateM.bind_ok hvs.eval) hvs.run fun stack => ?_
    have hparams : vs.map L.getType = fn.type.params.drop 0 := htypes vs _ hvs.eval
    have hpop := callArgs_operands (s := { s.emit is with stack := args.slots vs ++ stack })
      (s.emit is).ir.created.length hkeep hvs.eval rfl hparams
    exact EStateM.bind_ok hpop

theorem Operand.run_actions (o : Operand V T) {s : State V T} (hkeep : s.keepStack = false)
    (ho : o.WellFormed L s) : ∃ v is, Evaluates L s (o.eval L) o.actions v (o.slot v) is :=
  match o with
  | .value v => ⟨v, [], rfl, fun _ => rfl⟩
  | .expr e => e.run_actions hkeep ho

theorem Operands.run_actions (os : Operands V T) {s : State V T} (hkeep : s.keepStack = false)
    (hos : os.WellFormed L s) : ∃ vs is, Evaluates L s (os.eval L) os.actions vs (os.slots vs) is :=
  match os with
  | .nil => ⟨[], [], rfl, fun _ => rfl⟩
  | .cons o os => by
    obtain ⟨vs, is, hvs⟩ := os.run_actions hkeep hos.1
    obtain ⟨v, js, hv⟩ := o.run_actions (s := s.emit is) hkeep (hos.2 vs _ hvs.eval)
    refine ⟨v :: vs, js ++ is, ?_, fun stack => ?_⟩
    · rw [← State.emit_emit]
      exact (EStateM.bind_ok hvs.eval).trans ((EStateM.bind_ok hv.eval).trans rfl)
    · rw [Operands.slots, List.append_assoc]
      exact hvs.append_run hv stack

end

/-- The actions of an expression leave the stack as it was and its value on top, and create what its
evaluation creates. -/
theorem Expr.run_eval (L : LLVM V T) (e : Expr V T) (s : State V T) (hkeep : s.keepStack = false)
    (he : e.WellFormed L s) : ∃ v s', e.eval L s = .ok v s' ∧ s'.stack = s.stack ∧
      run L e.actions s = .ok () { s' with stack := v :: s.stack } := by
  obtain ⟨v, is, h⟩ := e.run_actions hkeep he
  exact ⟨v, s.emit is, h.eval, rfl, h.run s.stack⟩

end

/-- Five minus the variable `x`, which is 3, on a stack with one value. -/
theorem Expr.run_eval_sub : ∃ s', run .integers [.load (some false) "x", .bin .sub (some 5) none]
    { State.init with vars := Finmap.singleton "x" 3, stack := [7] } = .ok () s' ∧
      s'.stack = [2, 7] := by
  have hx : "x" ∈ (Finmap.singleton "x" 3 : RMap String Int) := (Finmap.mem_singleton "x" "x" 3).2 rfl
  obtain ⟨v, s', hv, -, hrun⟩ := Expr.run_eval .integers
    (.bin .sub (.value 5) (.expr (.load false "x")))
    { State.init with vars := Finmap.singleton "x" 3, stack := [7] } rfl ⟨hx, fun _ _ _ => trivial⟩
  cases hv
  exact ⟨_, hrun, rfl⟩

end LlvmSc.Builder

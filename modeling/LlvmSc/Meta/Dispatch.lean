import LlvmSc.Meta.Basic

/-!
# Cases

The `llvmcase` of `case.hpp` calls the first lambda whose class the value has. `meta::set` and
`meta::get` give it one lambda for each class and then one for every value, and the order of the
former does not matter (`dispatch_iff`).
-/

namespace LlvmSc

/-- A lambda, with the `dyn_cast` to the class of its argument. -/
structure Lambda (What : Type) (M : Type → Type) where
  Arg : Type
  dynCast : What → Option Arg
  call : Arg → M Unit

section
variable {What : Type} {M : Type → Type} [Monad M] {w : What}

def llvmcase (w : What) : List (Lambda What M) → M Bool
  | [] => return false
  | lambda :: lambdas =>
    match lambda.dynCast w with
    | some val => do
      lambda.call val
      return true
    | none => llvmcase w lambdas

/-- The first lambda whose class the value has is called, and no other one. -/
theorem llvmcase_append {pre post : List (Lambda What M)} {lambda : Lambda What M}
    {val : lambda.Arg}
    (hpre : ∀ l ∈ pre, l.dynCast w = none) (hval : lambda.dynCast w = some val) :
    llvmcase w (pre ++ lambda :: post) = do
      lambda.call val
      return true := by
  induction pre with
  | nil => rw [List.nil_append, llvmcase, hval]
  | cons l pre ih =>
    rw [List.cons_append, llvmcase, hpre l List.mem_cons_self]
    exact ih fun l' hl' => hpre l' (List.mem_cons_of_mem l hl')

end

namespace Meta

/-- The classes of the arguments of the lambdas. -/
inductive Class where
  | argument
  | instruction
  | globalVariable
  | function
  | value
deriving DecidableEq

/-- The class that a value is an object of. -/
def Value.classOf : Value → Class
  | .argument _ => .argument
  | .object (.instruction _) => .instruction
  | .object (.globalVariable _) => .globalVariable
  | .object (.function _) => .function
  | .other => .value

def Value.asArgument : Value → Option Argument
  | .argument a => some a
  | _ => none

def Value.asObject : Value → Option Object
  | .object o => some o
  | _ => none

section
variable {M : Type → Type}

/-- A lambda for each class, given what it does with an argument and with an object. -/
def onClass (onArgument : Argument → M Unit) (onObject : Object → M Unit) (onValue : M Unit) :
    Class → Lambda Value M
  | .argument => ⟨Argument, Value.asArgument, onArgument⟩
  | .instruction =>
    ⟨Object, fun v => if v.classOf = .instruction then v.asObject else none, onObject⟩
  | .globalVariable =>
    ⟨Object, fun v => if v.classOf = .globalVariable then v.asObject else none, onObject⟩
  | .function => ⟨Object, fun v => if v.classOf = .function then v.asObject else none, onObject⟩
  | .value => ⟨Value, some, fun _ => onValue⟩

end

/-- `set` with its lambdas in the order of the classes. -/
def setBy (cs : List Class) (s : Store) (v : Value) (t : Tag) (m : String) : Except Fault Store :=
  let onArgument (a : Argument) : StateT Store (Except Fault) Unit := fun s =>
    return ((), ← a.set s m)
  let onObject (o : Object) : StateT Store (Except Fault) Unit := fun s => return ((), o.set s t m)
  return (← (llvmcase v (cs.map (onClass onArgument onObject (throw .unreachable)))).run s).2

/-- `get` with its lambdas in the order of the classes. -/
def getBy (cs : List Class) (s : Store) (v : Value) (t : Tag) : Except Fault (Option String) :=
  let onArgument (a : Argument) : StateT (Option String) (Except Fault) Unit := fun _ =>
    return ((), ← a.get s)
  let onObject (o : Object) : StateT (Option String) (Except Fault) Unit := fun _ =>
    return ((), ← o.get s t)
  return (← (llvmcase v (cs.map (onClass onArgument onObject (throw .unreachable)))).run none).2

/-- The order of the source. -/
def classes : List Class := [.argument, .instruction, .globalVariable, .function, .value]

/-! ## The lambda that is called -/

section
variable {M : Type → Type} {onArgument : Argument → M Unit} {onObject : Object → M Unit}
  {onValue : M Unit} {v : Value} {c : Class} {pre post cs : List Class}

/-- What the lambda for the class of a value does with it. -/
def Value.accept (onArgument : Argument → M Unit) (onObject : Object → M Unit) (onValue : M Unit) :
    Value → M Unit
  | .argument a => onArgument a
  | .object o => onObject o
  | .other => onValue

theorem dynCast_none (hv : v.classOf ≠ c) (hc : c ≠ .value) :
    (onClass onArgument onObject onValue c).dynCast v = none := by
  cases c with
  | argument =>
    cases v with
    | argument a => exact absurd rfl hv
    | object o => rfl
    | other => rfl
  | instruction => exact if_neg hv
  | globalVariable => exact if_neg hv
  | function => exact if_neg hv
  | value => exact absurd rfl hc

theorem dynCast_none_of_notMem (hv : v.classOf ∉ pre) (hvalue : .value ∉ pre) :
    ∀ l ∈ pre.map (onClass onArgument onObject onValue), l.dynCast v = none := by
  intro l hl
  obtain ⟨c, hc, rfl⟩ := List.mem_map.1 hl
  exact dynCast_none (fun heq => hv (heq ▸ hc)) fun heq => hvalue (heq ▸ hc)

variable [Monad M]

theorem llvmcase_class (hv : v.classOf ∉ pre) (hvalue : .value ∉ pre) :
    llvmcase v ((pre ++ v.classOf :: post).map (onClass onArgument onObject onValue)) = do
      v.accept onArgument onObject onValue
      return true := by
  have hpre : ∀ l ∈ pre.map (onClass onArgument onObject onValue), l.dynCast v = none :=
    dynCast_none_of_notMem hv hvalue
  rw [List.map_append, List.map_cons]
  cases v with
  | argument a => exact llvmcase_append hpre rfl
  | object o => cases o <;> exact llvmcase_append hpre rfl
  | other => exact llvmcase_append hpre rfl

theorem llvmcase_value (hv : v.classOf ∉ pre) (hvalue : .value ∉ pre) :
    llvmcase v ((pre ++ .value :: post).map (onClass onArgument onObject onValue)) = do
      onValue
      return true := by
  rw [List.map_append, List.map_cons]
  exact llvmcase_append (dynCast_none_of_notMem hv hvalue) rfl

theorem notMem_of_perm (hcs : (pre ++ c :: post).Perm classes) : c ∉ pre ∧ c ∉ post := by
  have hnodup : (pre ++ c :: post).Nodup := hcs.nodup_iff.2 (by decide)
  have hnotMem := (List.nodup_cons.1 (List.perm_middle.nodup_iff.1 hnodup)).1
  rwa [List.mem_append, not_or] at hnotMem

theorem mem_of_perm (hcs : cs.Perm classes) (c : Class) : c ∈ cs := by
  rw [hcs.mem_iff]
  cases c <;> decide

/-- The lambda for every value comes last, so it is called if there is no other one. -/
theorem llvmcase_perm (hcs : cs.Perm classes) (hlast : cs.getLast? = some .value) :
    llvmcase v (cs.map (onClass onArgument onObject onValue)) = do
      v.accept onArgument onObject onValue
      return true := by
  obtain ⟨cs, rfl⟩ := List.getLast?_eq_some_iff.1 hlast
  have hvalue := (notMem_of_perm hcs).1
  by_cases hv : v.classOf ∈ cs
  · obtain ⟨pre, post, rfl⟩ := List.append_of_mem hv
    rw [List.append_assoc, List.cons_append] at hcs ⊢
    exact llvmcase_class (notMem_of_perm hcs).1 fun hmem => hvalue (List.mem_append_left _ hmem)
  · have hmem := mem_of_perm hcs v.classOf
    rw [List.mem_append, or_iff_right hv, List.mem_singleton] at hmem
    rw [← hmem]
    exact llvmcase_class hv hvalue

end

/-- Some value of the class. -/
def Class.sample : Class → Value
  | .argument => .argument ⟨⟨0, 1⟩, 0⟩
  | .instruction => .object (.instruction 0)
  | .globalVariable => .object (.globalVariable 0)
  | .function => .object (.function ⟨0, 0⟩)
  | .value => .other

theorem Class.classOf_sample (c : Class) : c.sample.classOf = c := by cases c <;> rfl

theorem setBy_eq {cs : List Class} (hcs : cs.Perm classes) (hlast : cs.getLast? = some .value)
    (s : Store) (v : Value) (t : Tag) (m : String) : setBy cs s v t m = set s v t m := by
  rw [setBy, llvmcase_perm hcs hlast]
  cases v with
  | argument a =>
    change (a.set s m >>= fun s => pure ((), s)) >>= (fun p => pure (true, p.2)) >>=
      (fun p => pure p.2) = a.set s m
    cases a.set s m <;> rfl
  | object o => rfl
  | other => rfl

theorem getBy_eq {cs : List Class} (hcs : cs.Perm classes) (hlast : cs.getLast? = some .value)
    (s : Store) (v : Value) (t : Tag) : getBy cs s v t = get s v t := by
  rw [getBy, llvmcase_perm hcs hlast]
  have hread (c : Except Fault (Option String)) :
      (c >>= fun str => pure ((), str)) >>= (fun p => pure (true, p.2)) >>=
        (fun p => pure p.2) = c := by
    cases c <;> rfl
  cases v with
  | argument a => exact hread (a.get s)
  | object o => exact hread (o.get s t)
  | other => rfl

/-- A lambda behind the one for every value is not called. -/
theorem unreachable_of_not_last {cs : List Class} (hcs : cs.Perm classes)
    (hlast : cs.getLast? ≠ some .value) : ∃ c : Class, c ≠ .value ∧
      (∀ s t m, setBy cs s c.sample t m = .error .unreachable) ∧
      ∀ s t, getBy cs s c.sample t = .error .unreachable := by
  obtain ⟨pre, post, rfl⟩ := List.append_of_mem (mem_of_perm hcs .value)
  obtain ⟨hpre, hpost⟩ := notMem_of_perm hcs
  cases post with
  | nil => exact absurd (List.getLast?_concat ..) hlast
  | cons c post =>
    have hne : c ≠ .value := fun heq => hpost (heq ▸ List.mem_cons_self)
    rw [List.append_cons] at hcs
    have hc : c ∉ pre := fun hmem => (notMem_of_perm hcs).1 (List.mem_append_left _ hmem)
    rw [← c.classOf_sample] at hc
    refine ⟨c, hne, fun s t m => ?_, fun s t => ?_⟩
    · rw [setBy, llvmcase_value hc hpre]
      rfl
    · rw [getBy, llvmcase_value hc hpre]
      rfl

/-- `set` and `get` do the same for every order of their lambdas in which the one for every value is
the last one, and for no other order: in each other one some value reaches `__builtin_unreachable`. -/
theorem dispatch_iff {cs : List Class} (hcs : cs.Perm classes) :
    ((∀ s v t m, setBy cs s v t m = set s v t m) ↔ cs.getLast? = some .value) ∧
    ((∀ s v t, getBy cs s v t = get s v t) ↔ cs.getLast? = some .value) ∧
    (cs.getLast? ≠ some .value → ∃ v, v ≠ .other ∧
      (∀ s t m, setBy cs s v t m = .error .unreachable) ∧
      ∀ s t, getBy cs s v t = .error .unreachable) := by
  refine ⟨⟨fun h => ?_, setBy_eq hcs⟩, ⟨fun h => ?_, getBy_eq hcs⟩, fun hlast => ?_⟩
  · by_contra hlast
    obtain ⟨c, hc, hset, -⟩ := unreachable_of_not_last hcs hlast
    have heq := (h (fresh []) c.sample "" "").symm.trans (hset ..)
    cases c with
    | value => exact hc rfl
    | _ => cases heq
  · by_contra hlast
    obtain ⟨c, hc, -, hget⟩ := unreachable_of_not_last hcs hlast
    have heq := (h (fresh []) c.sample "").symm.trans (hget ..)
    cases c with
    | value => exact hc rfl
    | _ => cases heq
  · obtain ⟨c, hc, hset, hget⟩ := unreachable_of_not_last hcs hlast
    refine ⟨c.sample, fun heq => hc ?_, hset, hget⟩
    rw [← c.classOf_sample, heq]
    rfl

/-- The order of the source. -/
theorem dispatch_iff_classes : (∀ s v t m, setBy classes s v t m = set s v t m) ∧
    ∀ s v t, getBy classes s v t = get s v t :=
  have hdispatch := dispatch_iff (.refl classes)
  ⟨hdispatch.1.2 rfl, hdispatch.2.1.2 rfl⟩

end Meta
end LlvmSc

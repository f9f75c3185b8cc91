import LlvmSc.Lib.EState
import LlvmSc.Meta.Basic

/-!
# What a returned text refers to

The reading functions of `meta.cpp` with the buffers that their texts are in. `get_string` and `value`
copy the text of an `MDString` into a local `std::string` and return it as an optional `StringRef`, so
every text that a caller gets refers to a buffer that the callee has released (`released`).
-/

namespace LlvmSc.Meta.Views

inductive Buffer where
  /-- the text of an `MDString`, which lives as long as its context -/
  | interned (text : String)
  /-- the buffer of a `std::string` -/
  | string (id : Nat)

/-- A reference to the whole text of a buffer. -/
structure StringRef where
  data : Buffer

/-- The texts of the strings that are alive, and the number that the next one gets. -/
structure Memory where
  strings : Nat → Option String
  next : Nat

/-- The text that a reference denotes; `none` if its buffer has been released. -/
def Memory.read (mem : Memory) (v : StringRef) : Option String :=
  match v.data with
  | .interned text => some text
  | .string id => mem.strings id

inductive Error where
  | fault (f : Fault)
  | released

abbrev M := EStateM Error Memory

def lift (c : Except Fault α) : M α :=
  match c with
  | .ok a => pure a
  | .error f => throw (.fault f)

/-- The text behind a reference. -/
def StringRef.text (v : StringRef) : M String := do
  match (← getThe Memory).read v with
  | some text => return text
  | none => throw .released

/-- `StringRef::str` -/
def StringRef.str (v : StringRef) : M Nat := do
  let text ← v.text
  modifyGet fun mem =>
    (mem.next, ⟨Function.update mem.strings mem.next (some text), mem.next + 1⟩)

/-- The destructor of a `std::string`. -/
def destroy (res : Nat) : M Unit :=
  modify fun mem => { mem with strings := Function.update mem.strings res none }

/-- `MDString::getString` -/
def getText : Metadata → M StringRef
  | .string text => return ⟨.interned text⟩
  | _ => throw (.fault .badCast)

/-- What `get_string` and `value` do with the text of a node. The copy `res` is converted to the type
of the result by reference, and destroyed when the function returns. -/
def copied (str : Metadata) : M (Option StringRef) := do
  let res ← (← getText str).str
  let view : StringRef := ⟨.string res⟩
  let result := if (← view.text) = "" then none else some view
  destroy res
  return result

def getString (s : Store) (n : Option Metadata) : M (Option StringRef) :=
  match n with
  | none => return none
  | some n => do
    if (← lift (s.operands n)).length = 0 then return none
    copied (← lift (s.getOperand n 0))

/-- `detail::value` -/
def value (s : Store) (n : Option Nat) (idx : Nat) : M (Option StringRef) :=
  match n with
  | none => return none
  | some n => do
    if (← lift (s.operands (.tuple n))).length = 0 then throw (.fault .assertion)
    let op ← lift (s.getOperand (.tuple n) idx)
    copied (← lift (s.getOperand op 0))

/-- `argument::get` -/
def argumentGet (s : Store) (arg : Argument) : M (Option StringRef) :=
  match s.getMetadata (.function arg.parent) Tag.arguments with
  | some n => value s (some n) arg.argNo
  | none => return none

/-- `detail::get` of an object -/
def objectGet (s : Store) (o : Object) (t : Tag) : M (Option StringRef) :=
  value s (s.getMetadata o t) 0

/-- `meta::get` -/
def get (s : Store) (v : Value) (t : Tag) : M (Option StringRef) :=
  match v with
  | .argument a => argumentGet s a
  | .object o => objectGet s o t
  | .other => throw (.fault .unreachable)

/-- A call of one of the functions that return a text. -/
inductive Call where
  | getString (n : Metadata)
  | value (n idx : Nat)
  | argumentGet (arg : Argument)
  | get (v : Value) (t : Tag)

def Call.run (s : Store) : Call → M (Option StringRef)
  | getString n => Views.getString s (some n)
  | value n idx => Views.value s (some n) idx
  | argumentGet arg => Views.argumentGet s arg
  | get v t => Views.get s v t

/-- The operand `idx` of the tuple `n` is a node of the text. -/
def CarriesAt (s : Store) (n idx : Nat) (m : String) : Prop :=
  ∃ op, s.getOperand (.tuple n) idx = .ok op ∧ s.getOperand op 0 = .ok (.string m)

/-- The text is attached to the value. -/
def Carries (s : Store) (m : String) : Value → Tag → Prop
  | .argument a, _ => ∃ n, s.getMetadata (.function a.parent) Tag.arguments = some n ∧
      CarriesAt s n a.argNo m
  | .object o, t => ∃ n, s.getMetadata o t = some n ∧ CarriesAt s n 0 m
  | .other, _ => False

/-- The call is about a node or a value with the text. -/
def Call.Carries (s : Store) (m : String) : Call → Prop
  | getString n => s.getOperand n 0 = .ok (.string m)
  | value n idx => CarriesAt s n idx m
  | argumentGet arg => Views.Carries s m (.argument arg) Tag.arguments
  | get v t => Views.Carries s m v t

/-- The call returns a reference, and behind it the caller reads the text. -/
def Call.Keeps (s : Store) (c : Call) (m : String) (mem : Memory) : Prop :=
  ∃ v mem', c.run s mem = .ok (some v) mem' ∧ mem'.read v = some m

/-- The call returns a reference, and what is behind it has been released. -/
def Call.Dangles (s : Store) (c : Call) (mem : Memory) : Prop :=
  ∃ v mem', c.run s mem = .ok (some v) mem' ∧ mem'.read v = none

section
variable {s : Store} {mem : Memory} {m : String} {n idx : Nat} {op : Metadata}

theorem text_eq {v : StringRef} (h : mem.read v = some m) : v.text mem = .ok m mem := by
  refine (EStateM.bind_ok rfl).trans ?_
  rw [h]
  rfl

theorem str_eq {v : StringRef} (h : mem.read v = some m) : v.str mem = .ok mem.next
    ⟨Function.update mem.strings mem.next (some m), mem.next + 1⟩ :=
  (EStateM.bind_ok (text_eq h)).trans rfl

/-- A text that is not empty is returned as a reference to the copy, which is gone by then. -/
theorem copied_eq (hm : m ≠ "") : copied (.string m) mem = .ok (some ⟨.string mem.next⟩)
    ⟨Function.update mem.strings mem.next none, mem.next + 1⟩ := by
  refine (EStateM.bind_ok (a := (⟨.interned m⟩ : StringRef)) rfl).trans ?_
  refine (EStateM.bind_ok (str_eq rfl)).trans ?_
  have hread : Memory.read ⟨Function.update mem.strings mem.next (some m), mem.next + 1⟩
      ⟨.string mem.next⟩ = some m := Function.update_self ..
  refine (EStateM.bind_ok (text_eq hread)).trans ?_
  rw [if_neg hm]
  refine (EStateM.bind_ok rfl).trans ?_
  change EStateM.Result.ok _ _ = _
  simp only [Function.update_idem]

theorem copied_dangles (hm : m ≠ "") : ∃ v mem', copied (.string m) mem = .ok (some v) mem' ∧
    mem'.read v = none :=
  ⟨_, _, copied_eq hm, Function.update_self ..⟩

theorem operands_of_getOperand {n : Metadata} (h : s.getOperand n idx = .ok op) :
    ∃ ops, s.operands n = .ok ops ∧ ops.length ≠ 0 := by
  obtain ⟨ops, hops, h⟩ := Except.bind_eq_ok.1 h
  refine ⟨ops, hops, fun hlen => ?_⟩
  rw [List.length_eq_zero_iff.mp hlen] at h
  cases h

theorem getString_eq {n : Metadata} (h : s.getOperand n 0 = .ok op) :
    getString s (some n) mem = copied op mem := by
  obtain ⟨ops, hops, hlen⟩ := operands_of_getOperand h
  simp only [getString, hops, h]
  refine (EStateM.bind_ok rfl).trans ?_
  rw [if_neg hlen]
  rfl

theorem value_eq {op' : Metadata} (hop : s.getOperand (.tuple n) idx = .ok op)
    (hop' : s.getOperand op 0 = .ok op') : value s (some n) idx mem = copied op' mem := by
  obtain ⟨ops, hops, hlen⟩ := operands_of_getOperand hop
  simp only [value, hops, hop]
  refine (EStateM.bind_ok rfl).trans ?_
  rw [if_neg hlen]
  refine (EStateM.bind_ok rfl).trans ?_
  rw [hop']
  rfl

theorem value_dangles (h : CarriesAt s n idx m) (hm : m ≠ "") :
    (Call.value n idx).Dangles s mem := by
  obtain ⟨op, hop, hop'⟩ := h
  obtain ⟨v, mem', hv, hread⟩ := copied_dangles hm
  exact ⟨v, mem', (value_eq hop hop').trans hv, hread⟩

theorem get_dangles {v : Value} {t : Tag} (h : Carries s m v t) (hm : m ≠ "") :
    (Call.get v t).Dangles s mem := by
  cases v with
  | argument a =>
    obtain ⟨n, hn, hcarries⟩ := h
    simpa only [Call.Dangles, Call.run, get, argumentGet, hn] using value_dangles hcarries hm
  | object o =>
    obtain ⟨n, hn, hcarries⟩ := h
    simpa only [Call.Dangles, Call.run, get, objectGet, hn] using value_dangles hcarries hm
  | other => exact h.elim

theorem Call.dangles {c : Call} (h : c.Carries s m) (hm : m ≠ "") : c.Dangles s mem := by
  cases c with
  | getString n =>
    obtain ⟨v, mem', hv, hread⟩ := copied_dangles hm
    exact ⟨v, mem', (getString_eq h).trans hv, hread⟩
  | value n idx => exact value_dangles h hm
  | argumentGet arg => exact get_dangles (v := .argument arg) (t := Tag.arguments) h hm
  | get v t => exact get_dangles h hm

theorem Call.Dangles.not_keeps {c : Call} (h : c.Dangles s mem) : ¬ c.Keeps s m mem := by
  intro ⟨v, mem', hv, hread⟩
  obtain ⟨v', mem'', hv', hread'⟩ := h
  cases hv'.symm.trans hv
  cases hread'.symm.trans hread

/-- A call about a text returns a reference through which the caller does not read it: the buffer that
it refers to has been released. -/
theorem released {c : Call} (h : c.Carries s m) (hm : m ≠ "") :
    ¬ c.Keeps s m mem ∧ c.Dangles s mem :=
  ⟨(Call.dangles h hm).not_keeps, Call.dangles h hm⟩

/-- A text that `value` finds is one that the node carries. -/
theorem carriesAt_of_value (h : Meta.value s (some n) idx = .ok (some m)) :
    CarriesAt s n idx m ∧ m ≠ "" := by
  obtain ⟨ops, hops, h⟩ := Except.bind_eq_ok.1 h
  split at h
  · cases h
  · obtain ⟨op, hop, h⟩ := Except.bind_eq_ok.1 h
    obtain ⟨op', hop', h⟩ := Except.bind_eq_ok.1 h
    cases op' with
    | string res =>
      by_cases hres : res = ""
      · simp [hres] at h
      · obtain rfl : res = m := by simpa [hres] using h
        exact ⟨⟨op, hop, hop'⟩, hres⟩
    | node _ => cases h
    | tuple _ => cases h

/-- The texts that the functions find are those that their callers lose. -/
theorem carries_of_get {v : Value} {t : Tag} (h : Meta.get s v t = .ok (some m)) :
    Carries s m v t ∧ m ≠ "" := by
  cases v with
  | argument a =>
    change Argument.get s a = _ at h
    unfold Argument.get at h
    cases hn : s.getMetadata (.function a.parent) Tag.arguments with
    | none =>
      rw [hn] at h
      cases h
    | some n =>
      rw [hn] at h
      obtain ⟨hcarries, hm⟩ := carriesAt_of_value h
      exact ⟨⟨n, hn, hcarries⟩, hm⟩
  | object o =>
    change Meta.value s (s.getMetadata o t) 0 = _ at h
    cases hn : s.getMetadata o t with
    | none =>
      rw [hn] at h
      cases h
    | some n =>
      rw [hn] at h
      obtain ⟨hcarries, hm⟩ := carriesAt_of_value h
      exact ⟨⟨n, hn, hcarries⟩, hm⟩
  | other => cases h

end

/-- An instruction with a text. -/
def Store.sample : Store := Object.set (fresh []) (.instruction 0) "tag" "text"

theorem released_sample :
    ¬ (Call.get (.object (.instruction 0)) "tag").Keeps Store.sample "text" ⟨fun _ => none, 0⟩ :=
  (released (c := .get (.object (.instruction 0)) "tag") ⟨0, rfl, node "text", rfl, rfl⟩
    (by decide)).1

theorem carries_not_keeps :
    (Call.get (.object (.instruction 0)) "tag").Carries Store.sample "text" ∧
      ¬ (Call.get (.object (.instruction 0)) "tag").Keeps Store.sample "text"
        ⟨fun _ => none, 0⟩ := by
  refine ⟨⟨0, rfl, node "text", rfl, rfl⟩, fun ⟨v, mem', hv, hread⟩ => ?_⟩
  have hrun : (Call.get (.object (.instruction 0)) "tag").run Store.sample ⟨fun _ => none, 0⟩ =
      .ok (some ⟨.string 0⟩)
        ⟨Function.update (Function.update (fun _ => none) 0 (some "text")) 0 none, 1⟩ := rfl
  cases hrun.symm.trans hv
  cases hread

end LlvmSc.Meta.Views

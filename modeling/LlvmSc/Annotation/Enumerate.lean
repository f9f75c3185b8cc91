import LlvmSc.Annotation.Basic
import LlvmSc.Transformer
import Mathlib.Data.List.Forall2

/-!
# Enumerating annotations

`annotation::enumerate`, on the constants of a module whose `llvm.global.annotations` has the form
that clang gives it. The operand of a bitcast is the annotated global, but the operand of a global
of type `i8*`, which has no bitcast, is its initializer; and the empty text is no
`ConstantDataArray`, so that `anno` is null. On all other entries the pairs are the annotated values
with their annotations (`enumerate_eq_iff`).
-/

namespace LlvmSc.Annotation

open Transformer

/-- The class of a constant. -/
inductive ValueKind where
  | function | globalVariable | constantExpr | constantArray | constantStruct | constantDataArray
  | constantAggregateZero | other
  deriving DecidableEq, Repr

/-- The static classes that `enumerate` names; `param` is its template parameter `Value`. -/
inductive Class where
  | value | constant | constantArray | constantStruct | globalVariable | constantDataArray | param
  deriving DecidableEq, Repr

/-- The constants `N` of a module. -/
structure Module (N : Type) where
  /-- `getNamedGlobal("llvm.global.annotations")` -/
  annotations : Option N
  kind : N → ValueKind
  operands : N → List (Option N)
  /-- The elements of a `ConstantDataArray`. -/
  data : N → StringRef

namespace Module

variable (m : Module N) (Value : N → Bool)

def isa : Class → N → Bool
  | .value, _ | .constant, _ => true
  | .constantArray, n => m.kind n == .constantArray
  | .constantStruct, n => m.kind n == .constantStruct
  | .globalVariable, n => m.kind n == .globalVariable
  | .constantDataArray, n => m.kind n == .constantDataArray
  | .param, n => Value n

def values : Values Class N where
  operands := m.operands
  isa := m.isa Value
  getOperandClass
    | .value | .param => none
    | .constantArray | .constantStruct => some .constant
    | .constant | .globalVariable | .constantDataArray => some .value

/-- `anno->getAsCString()`: the elements up to the last one. -/
def getAsCString : Option N → Transformer.M StringRef
  | none => throw .nullPointer
  | some n => pure (m.data n).dropLast

/-- The body of the loop; `none` if it yields no pair. -/
def enumerateOp (op : Option N) : Transformer.M (Option (N × Annotation)) := do
  let g := m.values Value
  let cs ← (transformer .value op).cast g .constantStruct
  let val ← g.chain cs [.operand 0, .operand 0, .cast .param]
  match val.freeze with
  | none => return none
  | some val => do
    let anno ← g.chain cs
      [.operand 1, .operand 0, .cast .globalVariable, .operand 0, .cast .constantDataArray]
    return some (val, ofStringRef (← m.getAsCString anno.freeze))

end Module

/-- The loop over the operands of the array. -/
def Module.enumerateOps (m : Module N) (Value : N → Bool) :
    List (Option N) → Transformer.M (List (N × Annotation))
  | [] => return []
  | op :: ops => do
    let pair ← m.enumerateOp Value op
    return pair.toList ++ (← enumerateOps m Value ops)

/-- `enumerate`; the pairs that it yields. -/
def Module.enumerate (m : Module N) (Value : N → Bool) : Transformer.M (List (N × Annotation)) := do
  let arr ← (m.values Value).chain (transformer .globalVariable m.annotations)
    [.operand 0, .cast .constantArray]
  match arr.freeze with
  | none => return []
  | some arr => m.enumerateOps Value (m.operands arr)

/-! ## The form of the annotations -/

/-- An annotated global, and whether the entry refers to it through a bitcast. -/
structure Entry (N : Type) where
  global : N
  text : StringRef
  bitcast : Bool

namespace Module

variable (m : Module N)

/-- What clang annotates. -/
def IsGlobal (n : N) : Prop := m.kind n = .function ∨ m.kind n = .globalVariable

/-- The initializer of a C string; the array of the empty one is all zero. -/
def IsCString (init : N) (text : StringRef) : Prop :=
  0 ∉ text ∧
    (text = [] → m.kind init = .constantAggregateZero) ∧
    (text ≠ [] → m.kind init = .constantDataArray ∧ m.data init = text ++ [0])

/-- A `getelementptr` of the global that holds the text. -/
def IsText (gep : N) (text : StringRef) : Prop :=
  ∃ str idxs init, m.kind gep = .constantExpr ∧ m.operands gep = some str :: idxs ∧
    m.kind str = .globalVariable ∧ m.operands str = [some init] ∧ m.IsCString init text

inductive IsEntry : Option N → Entry N → Prop where
  | bitcast : m.kind cs = .constantStruct → m.operands cs = some expr :: some gep :: fields →
      m.kind expr = .constantExpr → m.operands expr = [some v] → m.IsGlobal v →
      m.IsText gep text → IsEntry (some cs) ⟨v, text, true⟩
  /-- A variable of type `i8` is no `Function`, and its initializer is an `i8` and no global. -/
  | i8 : m.kind cs = .constantStruct → m.operands cs = some v :: some gep :: fields →
      m.kind v = .globalVariable →
      (m.operands v = [] ∨ ∃ init, m.operands v = [some init] ∧ ¬ m.IsGlobal init) →
      m.IsText gep text → IsEntry (some cs) ⟨v, text, false⟩

inductive IsClang : List (Entry N) → Prop where
  | absent : m.annotations = none → IsClang []
  | present : m.annotations = some annos → m.kind annos = .globalVariable →
      m.operands annos = [some arr] → m.kind arr = .constantArray →
      List.Forall₂ m.IsEntry (m.operands arr) es → IsClang es

/-- The pair of an entry. -/
def pair (Value : N → Bool) (e : Entry N) : Option (N × Annotation) :=
  if Value e.global then some (e.global, ofStringRef e.text) else none

/-- The entry gives its pair: the text of a value is not empty, and behind a pointer without a
bitcast neither the global nor its initializer is a value. -/
def Enumerable (Value : N → Bool) (e : Entry N) : Prop :=
  if e.bitcast then Value e.global → e.text ≠ []
  else Value e.global = false ∧ ∃ init, m.operands e.global = [some init] ∧ Value init = false

end Module

section
variable {m : Module N} {Value : N → Bool} {cs p gep v : N} {fields : List (Option N)}

/-! ## An entry -/

/-- The text of an entry; null for the empty one. -/
theorem chain_anno (Value : N → Bool) (hops : m.operands cs = some p :: some gep :: fields)
    (h : m.IsText gep text) : ∃ anno, (m.values Value).chain ⟨.constantStruct, some cs⟩
        [.operand 1, .operand 0, .cast .globalVariable, .operand 0, .cast .constantDataArray] =
          .ok anno ∧
      m.getAsCString anno.freeze = if text = [] then .error .nullPointer else .ok text := by
  obtain ⟨str, idxs, init, -, hgep, hstr, hinit, -, hnil, hcons⟩ := h
  refine ⟨_, Values.chain_ok ?_, ?_⟩
  · simp [Values.inRange_cons, Step.class_, Step.target, Module.values, Module.isa, hops, hgep, hstr,
      hinit]
  · by_cases htext : text = []
    · simp [Values.reach, Step.class_, Step.target, Module.values, Module.isa, hops, hgep, hstr,
        hinit, Module.getAsCString, htext, hnil htext]
      rfl
    · simp [Values.reach, Step.class_, Step.target, Module.values, Module.isa, hops, hgep, hstr,
        hinit, Module.getAsCString, htext, hcons htext]
      rfl

theorem cast_constantStruct (hkind : m.kind cs = .constantStruct) :
    (transformer .value (some cs)).cast (m.values Value) .constantStruct =
      .ok ⟨.constantStruct, some cs⟩ := by
  simp [transformer, LLVMTransformer.cast, LLVMTransformer.apply_some, Values.dynCast, Module.values,
    Module.isa, hkind]
  rfl

/-- The value of an entry is the first operand of what its pointer refers to. -/
theorem enumerateOp_some (hkind : m.kind cs = .constantStruct)
    (hops : m.operands cs = some p :: some gep :: fields) (hp : m.operands p = [some v])
    (h : m.IsText gep text) :
    m.enumerateOp Value (some cs) =
      if Value v then
        if text = [] then .error .nullPointer else .ok (some (v, ofStringRef text))
      else .ok none := by
  have hval : (m.values Value).chain ⟨.constantStruct, some cs⟩ [.operand 0, .operand 0, .cast .param]
      = .ok ⟨.param, if Value v then some v else none⟩ := by
    refine (Values.chain_ok ?_).trans ?_
    · simp [Values.inRange_cons, Step.class_, Step.target, Module.values, hops, hp]
    · cases hv : Value v <;>
        simp [Values.reach, Values.class_, Step.class_, Step.target, Module.values, Module.isa, hops,
          hp, hv]
  obtain ⟨anno, hanno, htext⟩ := chain_anno Value hops h
  rw [Module.enumerateOp, cast_constantStruct hkind]
  simp only [bind, Except.bind, hval, LLVMTransformer.freeze_mk]
  cases hv : Value v with
  | false => rfl
  | true =>
    simp only [if_true, hanno, htext]
    rcases eq_or_ne text [] with hnil | hnil
    · rw [if_pos hnil, if_pos hnil]
    · rw [if_neg hnil, if_neg hnil]
      rfl

theorem enumerateOp_outOfRange (hkind : m.kind cs = .constantStruct)
    (hops : m.operands cs = some p :: some gep :: fields) (hp : m.operands p = []) :
    m.enumerateOp Value (some cs) = .error .outOfRange := by
  have hval : (m.values Value).chain ⟨.constantStruct, some cs⟩ [.operand 0, .operand 0, .cast .param]
      = .error .outOfRange := by
    refine Values.chain_error ?_
    simp [Values.inRange_cons, Step.class_, Step.target, Module.values, hops, hp]
  rw [Module.enumerateOp, cast_constantStruct hkind]
  simp only [bind, Except.bind, hval]

theorem enumerateOp_ok {op : Option N} {e : Entry N} (h : m.IsEntry op e)
    (he : m.Enumerable Value e) : m.enumerateOp Value op = .ok (Module.pair Value e) := by
  cases h with
  | bitcast hkind hops _ hv _ htext =>
    rw [enumerateOp_some hkind hops hv htext, Module.pair]
    split
    · next hval => rw [if_neg (he hval)]
    · rfl
  | i8 hkind hops _ _ htext =>
    obtain ⟨hval, init, hinit, hinit'⟩ := he
    rw [enumerateOp_some hkind hops hinit htext]
    simp [Module.pair, hval, hinit']

/-- An entry that does not give its pair gives none, or one of an initializer. -/
theorem enumerateOp_not {op : Option N} {e : Entry N} (h : m.IsEntry op e)
    (he : ¬ m.Enumerable Value e) (hok : m.enumerateOp Value op = .ok pair) :
    (pair = none ∧ (Module.pair Value e).isSome) ∨ ∃ p, pair = some p ∧ ¬ m.IsGlobal p.1 := by
  cases h with
  | bitcast hkind hops _ hv _ htext =>
    simp only [Module.Enumerable, if_true, not_forall] at he
    obtain ⟨hval, hnil⟩ := he
    rw [enumerateOp_some hkind hops hv htext, if_pos hval, if_pos (not_not.mp hnil)] at hok
    cases hok
  | @i8 cs v gep fields text hkind hops _ hinit htext =>
    rcases hinit with hinit | ⟨init, hinit, hglobal⟩
    · rw [enumerateOp_outOfRange hkind hops hinit] at hok
      cases hok
    · rw [enumerateOp_some hkind hops hinit htext] at hok
      cases hi : Value init with
      | true =>
        rw [if_pos hi] at hok
        split at hok
        · cases hok
        · cases hok
          exact .inr ⟨_, rfl, hglobal⟩
      | false =>
        rw [if_neg (by simp [hi])] at hok
        cases hok
        have hval : Value v ≠ false := fun hval => he ⟨hval, init, hinit, hi⟩
        exact .inl ⟨rfl, by simp [Module.pair, hval]⟩

/-! ## All entries -/

theorem isGlobal_of_isEntry {op : Option N} {e : Entry N} (h : m.IsEntry op e) :
    m.IsGlobal e.global := by
  cases h with
  | bitcast _ _ _ _ hglobal _ => exact hglobal
  | i8 _ _ hkind _ _ => exact .inr hkind

theorem isGlobal_of_mem {ops : List (Option N)} {es : List (Entry N)} {q : N × Annotation}
    (h : List.Forall₂ m.IsEntry ops es) (hq : q ∈ es.filterMap (Module.pair Value)) :
    m.IsGlobal q.1 := by
  obtain ⟨e, he, heq⟩ := List.mem_filterMap.mp hq
  have hglobal : m.IsGlobal e.global := by
    clear hq
    induction h with
    | nil => cases he
    | cons hop _ ih =>
      rcases List.mem_cons.mp he with rfl | he
      · exact isGlobal_of_isEntry hop
      · exact ih he
  rw [Module.pair] at heq
  split at heq
  · cases heq
    exact hglobal
  · cases heq

theorem enumerateOps_ok {ops : List (Option N)} {es : List (Entry N)}
    (h : List.Forall₂ m.IsEntry ops es) (he : ∀ e ∈ es, m.Enumerable Value e) :
    m.enumerateOps Value ops = .ok (es.filterMap (Module.pair Value)) := by
  induction h with
  | nil => rfl
  | @cons op e ops es hop _ ih =>
    have hok := enumerateOp_ok hop (he e List.mem_cons_self)
    have htail := ih fun e' he' => he e' (List.mem_cons_of_mem _ he')
    rw [Module.enumerateOps, hok, List.filterMap_cons]
    simp only [bind, Except.bind, htail]
    cases Module.pair Value e <;> rfl

/-- Pairs of globals only are at most one for each value, and fewer where an entry does not give
its pair. -/
theorem enumerateOps_length {ops : List (Option N)} {es : List (Entry N)}
    (h : List.Forall₂ m.IsEntry ops es) (hok : m.enumerateOps Value ops = .ok pairs)
    (hglobal : ∀ p ∈ pairs, m.IsGlobal p.1) :
    pairs.length ≤ (es.filterMap (Module.pair Value)).length ∧
      (pairs.length = (es.filterMap (Module.pair Value)).length →
        ∀ e ∈ es, m.Enumerable Value e) := by
  induction h generalizing pairs with
  | nil =>
    cases hok
    simp
  | @cons op e ops es hop _ ih =>
    obtain ⟨pair, hpair, hok⟩ := Except.bind_eq_ok.mp hok
    obtain ⟨rest, hrest, hok⟩ := Except.bind_eq_ok.mp hok
    cases hok
    obtain ⟨hle, heq⟩ := ih hrest fun p hp => hglobal p (List.mem_append_right _ hp)
    by_cases he : m.Enumerable Value e
    · cases (enumerateOp_ok hop he).symm.trans hpair
      have hcons : (((e :: es).filterMap (Module.pair Value)).length =
          (Module.pair Value e).toList.length + (es.filterMap (Module.pair Value)).length) := by
        cases hp : Module.pair Value e <;> simp [hp, Nat.add_comm]
      rw [hcons, List.length_append]
      refine ⟨Nat.add_le_add_left hle _, ?_⟩
      intro hlen e' he'
      rcases List.mem_cons.mp he' with rfl | he'
      · exact he
      · exact heq (Nat.add_left_cancel hlen) e' he'
    · rcases enumerateOp_not hop he hpair with ⟨rfl, hsome⟩ | ⟨p, rfl, hp⟩
      · obtain ⟨p, hp⟩ := Option.isSome_iff_exists.mp hsome
        rw [List.filterMap_cons_some hp, List.length_cons]
        simp only [Option.toList_none, List.nil_append]
        exact ⟨Nat.le_succ_of_le hle, fun hlen => absurd hlen (by omega)⟩
      · exact absurd (hglobal p (by simp)) hp

theorem enumerate_none (h : m.annotations = none) : m.enumerate Value = .ok [] := by
  rw [Module.enumerate, h]
  rfl

theorem enumerate_some {annos arr : N} (h : m.annotations = some annos)
    (hops : m.operands annos = [some arr]) (hkind : m.kind arr = .constantArray) :
    m.enumerate Value = m.enumerateOps Value (m.operands arr) := by
  have harr : (m.values Value).chain ⟨.globalVariable, some annos⟩
      [.operand 0, .cast .constantArray] = .ok ⟨.constantArray, some arr⟩ := by
    refine (Values.chain_ok ?_).trans ?_
    · simp [Values.inRange_cons, Step.class_, Step.target, Module.values, hops]
    · simp [Values.reach, Values.class_, Step.class_, Step.target, Module.values, Module.isa, hops,
        hkind]
  rw [Module.enumerate, h, transformer, harr]
  rfl

/-- `enumerate` yields the annotated values with their annotations, in order and without a fault,
exactly if every entry gives its pair. -/
theorem enumerate_eq_iff {es : List (Entry N)} (h : m.IsClang es) :
    m.enumerate Value = .ok (es.filterMap (Module.pair Value)) ↔
      ∀ e ∈ es, m.Enumerable Value e := by
  cases h with
  | absent h => simp [enumerate_none h]
  | present h _ hops hkind hes =>
    rw [enumerate_some h hops hkind]
    constructor
    · intro hok
      exact (enumerateOps_length hes hok fun _ hq => isGlobal_of_mem hes hq).2 rfl
    · exact enumerateOps_ok hes

end

/-! ## Small modules -/

/-- The constants of a small module; `k` is the number of an entry. -/
inductive Node where
  | annos
  | arr
  | entry (k : Nat)
  | expr (k : Nat)
  | global (k : Nat)
  | gep (k : Nat)
  | str (k : Nat)
  | init (k : Nat)
  | other

/-- A module with `n` annotated globals. -/
def sample (n : Nat) (kind : Nat → ValueKind) (text : Nat → StringRef) : Module Node where
  annotations := some .annos
  kind
    | .annos | .str _ => .globalVariable
    | .arr => .constantArray
    | .entry _ => .constantStruct
    | .expr _ | .gep _ => .constantExpr
    | .global k => kind k
    | .init k => if text k = [] then .constantAggregateZero else .constantDataArray
    | .other => .other
  operands
    | .annos => [some .arr]
    | .arr => (List.range n).map fun k => some (.entry k)
    | .entry k => [some (.expr k), some (.gep k), some .other, some .other, some .other]
    | .expr k => [some (.global k)]
    | .gep k => [some (.str k), some .other, some .other]
    | .str k => [some (.init k)]
    | .global _ | .init _ | .other => []
  data
    | .init k => text k ++ [0]
    | _ => []

theorem sample_isClang {n : Nat} {kind : Nat → ValueKind} {text : Nat → StringRef}
    (hkind : ∀ k < n, kind k = .function ∨ kind k = .globalVariable)
    (htext : ∀ k < n, 0 ∉ text k) :
    (sample n kind text).IsClang ((List.range n).map fun k => ⟨.global k, text k, true⟩) := by
  refine .present rfl rfl rfl rfl ?_
  rw [sample, List.forall₂_map_left_iff, List.forall₂_map_right_iff, List.forall₂_same]
  intro k hk
  have hk : k < n := List.mem_range.1 hk
  refine .bitcast rfl rfl rfl rfl (hkind k hk) ⟨_, _, .init k, rfl, rfl, rfl, rfl, htext k hk, ?_, ?_⟩
  · intro hnil
    simp [hnil]
  · intro hcons
    simp [hcons]

/-- The globals are functions, but for the one with number 1. -/
def sampleKind (k : Nat) : ValueKind := if k = 1 then .globalVariable else .function

/-- `Function`, among the globals -/
def isFunction : Node → Bool
  | .global k => sampleKind k == .function
  | _ => false

/-- Functions with the annotations `"a"` and `"c"`, and a variable with `"b"` between them. -/
theorem enumerate_sample :
    (sample 3 sampleKind fun k => [97 + k.toUInt8]).enumerate isFunction =
      .ok [(.global 0, ofStringRef [97]), (.global 2, ofStringRef [99])] :=
  (enumerate_eq_iff (sample_isClang (by decide) (by decide))).mpr (by simp [Module.Enumerable])

/-- A function with the empty annotation. -/
theorem enumerate_sample_nil :
    (sample 1 sampleKind fun _ => []).IsClang [⟨.global 0, [], true⟩] ∧
      (sample 1 sampleKind fun _ => []).enumerate isFunction ≠
        .ok [(.global 0, ofStringRef [])] := by
  refine ⟨sample_isClang (by decide) (by decide), ?_⟩
  intro h
  cases h

end LlvmSc.Annotation

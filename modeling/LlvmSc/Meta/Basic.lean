import Mathlib.Data.List.Basic
import Mathlib.Logic.Function.Basic

/-!
# Metadata

The metadata interface of `meta.cpp`. Instructions, global variables and functions carry a tuple for
each tag. The arguments of a function share one tuple, which the function carries under
`tag::arguments` and which has one operand for each argument, so an argument has a single slot
whatever the tag is.
-/

namespace LlvmSc.Meta

/-- A function, and the number of its arguments. -/
structure Function where
  id : Nat
  argSize : Nat
deriving DecidableEq

structure Argument where
  parent : Function
  argNo : Fin parent.argSize
deriving DecidableEq

/-- What metadata can be attached to. -/
inductive Object where
  | instruction (id : Nat)
  | globalVariable (id : Nat)
  | function (fn : Function)
deriving DecidableEq

inductive Value where
  | argument (arg : Argument)
  | object (o : Object)
  /-- a value of another class -/
  | other
deriving DecidableEq

abbrev Tag := String

namespace Tag

def none : Tag := "sc.meta.none"

def arguments : Tag := "sc.meta.arguments"

end Tag

inductive Metadata where
  /-- an `MDString` -/
  | string (s : String)
  /-- a uniqued node with one operand -/
  | node (op : Metadata)
  /-- a distinct tuple -/
  | tuple (id : Nat)
deriving DecidableEq

inductive Fault where
  | nullPointer
  | outOfRange
  | badCast
  | assertion
  | unreachable
deriving DecidableEq

/-- The operands of the distinct tuples, and the tuple that is attached to an object under a tag. -/
structure Store where
  heap : List (List Metadata)
  attached : Object × Tag → Option Nat

/-- The operands of a node. -/
def Store.operands (s : Store) : Metadata → Except Fault (List Metadata)
  | .string _ => .error .badCast
  | .node op => .ok [op]
  | .tuple id =>
    match s.heap[id]? with
    | some ops => .ok ops
    | .none => .error .nullPointer

def Store.getOperand (s : Store) (n : Metadata) (idx : Nat) : Except Fault Metadata := do
  match (← s.operands n)[idx]? with
  | some op => .ok op
  | .none => .error .outOfRange

/-- `MDTuple::getDistinct` -/
def Store.getDistinct (s : Store) (ops : List Metadata) : Nat × Store :=
  (s.heap.length, { s with heap := s.heap ++ [ops] })

def Store.setMetadata (s : Store) (o : Object) (t : Tag) (n : Nat) : Store :=
  { s with attached := Function.update s.attached (o, t) (some n) }

def Store.getMetadata (s : Store) (o : Object) (t : Tag) : Option Nat := s.attached (o, t)

def Store.replaceOperandWith (s : Store) (n idx : Nat) (op : Metadata) : Except Fault Store :=
  match s.heap[n]? with
  | some ops =>
    if idx < ops.length then .ok { s with heap := s.heap.set n (ops.set idx op) }
    else .error .outOfRange
  | .none => .error .nullPointer

def node (str : String) : Metadata := .node (.string str)

/-- `detail::value`; the string is returned as it is when the function returns. -/
def value (s : Store) (n : Option Nat) (idx : Nat) : Except Fault (Option String) :=
  match n with
  | .none => .ok .none
  | some n => do
    if (← s.operands (.tuple n)).length = 0 then .error .assertion
    let op ← s.getOperand (.tuple n) idx
    match ← s.getOperand op 0 with
    | .string res => .ok (if res = "" then .none else some res)
    | _ => .error .badCast

/-- `detail::function_init` -/
def functionInit (s : Store) (fn : Function) : Store :=
  match s.getMetadata (.function fn) Tag.arguments with
  | some _ => s
  | .none =>
    let (data, s) := s.getDistinct (List.replicate fn.argSize (node Tag.none))
    s.setMetadata (.function fn) Tag.arguments data

namespace Argument

/-- `argument::set` of a node -/
def setNode (s : Store) (arg : Argument) (n : Metadata) : Except Fault Store :=
  let s := functionInit s arg.parent
  match s.getMetadata (.function arg.parent) Tag.arguments with
  | some n' => s.replaceOperandWith n' arg.argNo n
  | .none => .error .nullPointer

def set (s : Store) (arg : Argument) (str : String) : Except Fault Store := setNode s arg (node str)

def get (s : Store) (arg : Argument) : Except Fault (Option String) :=
  match s.getMetadata (.function arg.parent) Tag.arguments with
  | some n => value s (some n) arg.argNo
  | .none => .ok .none

end Argument

/-- `detail::set` of an object -/
def Object.set (s : Store) (o : Object) (t : Tag) (m : String) : Store :=
  let (n, s) := s.getDistinct [node m]
  s.setMetadata o t n

/-- `detail::get` of an object -/
def Object.get (s : Store) (o : Object) (t : Tag) : Except Fault (Option String) :=
  value s (s.getMetadata o t) 0

def set (s : Store) (v : Value) (t : Tag) (m : String) : Except Fault Store :=
  match v with
  | .argument a => a.set s m
  | .object o => .ok (o.set s t m)
  | .other => .error .unreachable

def get (s : Store) (v : Value) (t : Tag) : Except Fault (Option String) :=
  match v with
  | .argument a => a.get s
  | .object o => o.get s t
  | .other => .error .unreachable

/-- The arguments of a call of `set`. -/
structure SetCall where
  val : Value
  tag : Tag
  str : String
deriving DecidableEq

def setAll (s : Store) (calls : List SetCall) : Except Fault Store :=
  calls.foldlM (fun s c => set s c.val c.tag c.str) s

/-- No metadata is attached to anything. -/
def fresh (heap : List (List Metadata)) : Store := ⟨heap, fun _ => .none⟩

end LlvmSc.Meta

import LlvmSc.Adt.Bimap

/-!
# The stack builder

`builder_t` and `stack_builder` of `builder.hpp`, over values `V` and types `T` of LLVM. What the
builder asks LLVM for is collected in `LLVM`. The calls of the `Create` functions are recorded with
the block they insert into and the value they return; where `LLVM.folds` says so, the call returns a
value and inserts nothing.
-/

namespace LlvmSc.Builder

/-- `llvm::Instruction::BinaryOps` -/
inductive BinOp where
  | add | fadd | sub | fsub | mul | fmul | udiv | sdiv | fdiv | urem | srem | frem
  | shl | lshr | ashr | and | or | xor
deriving DecidableEq

/-- `llvm::CmpInst::Predicate` -/
inductive Predicate where
  | fcmpFalse | fcmpOeq | fcmpOgt | fcmpOge | fcmpOlt | fcmpOle | fcmpOne | fcmpOrd
  | fcmpUno | fcmpUeq | fcmpUgt | fcmpUge | fcmpUlt | fcmpUle | fcmpUne | fcmpTrue
  | icmpEq | icmpNe | icmpUgt | icmpUge | icmpUlt | icmpUle
  | icmpSgt | icmpSge | icmpSlt | icmpSle
deriving DecidableEq

def Predicate.isFPPredicate : Predicate → Bool
  | icmpEq | icmpNe | icmpUgt | icmpUge | icmpUlt | icmpUle
  | icmpSgt | icmpSge | icmpSlt | icmpSle => false
  | _ => true

inductive CastOp where
  | bitcast | zfit | fptoui | ptrtoint | inttoptr
deriving DecidableEq

structure FunctionType (T : Type) where
  returnType : T
  params : List T
  vararg : Bool
deriving DecidableEq

/-- A module, by its identity. -/
abbrev Module := Nat

/-- A function, by its identity; its type and its module do not change. -/
structure Function (T : Type) where
  id : Nat
  name : String
  type : FunctionType T
  parent : Option Module
deriving DecidableEq

/-- A block, by its identity, and the function that owns it. -/
structure BasicBlock (T : Type) where
  id : Nat
  name : String
  parent : Option (Function T)
deriving DecidableEq

structure FunctionCallee (V T : Type) where
  type : FunctionType T
  callee : V
deriving DecidableEq

structure PhiEdge (V T : Type) where
  val : V
  from_ : BasicBlock T
deriving DecidableEq

/-- The structures of the namespace `build`. A type that may be the null pointer is an option. -/
inductive Build (V T : Type) where
  | alloc (ty : T) (name : Option String)
  | load (ty : Option T) (ptr : V)
  | store (val ptr : V)
  | bin (op : BinOp) (lhs rhs : V)
  | cmp (pred : Predicate) (lhs rhs : V)
  | phi (edges : List (PhiEdge V T))
  | cast (op : CastOp) (val : V) (to_ : T)
  | condbr (cond : V) (thenbb elsebb : BasicBlock T)
  | branch (dst : BasicBlock T)
  | call (fn : FunctionCallee V T) (args : List V)
  | ret (val : Option V)

/-- An instruction, as the arguments of the `Create` function that makes it. -/
inductive Inst (V T : Type) where
  | alloca (ty : T) (name : Option String)
  | load (ty : T) (ptr : V)
  | store (val ptr : V)
  | binOp (op : BinOp) (lhs rhs : V)
  | fCmp (pred : Predicate) (lhs rhs : V)
  | iCmp (pred : Predicate) (lhs rhs : V)
  | phi (ty : T) (incoming : List (PhiEdge V T))
  | bitCast (val : V) (to_ : T)
  | zExtOrTrunc (val : V) (to_ : T)
  | fpToUI (val : V) (to_ : T)
  | ptrToInt (val : V) (to_ : T)
  | intToPtr (val : V) (to_ : T)
  | condBr (cond : V) (thenbb elsebb : BasicBlock T)
  | br (dst : BasicBlock T)
  | call (fn : FunctionCallee V T) (args : List V)
  | ret (val : V)
  | retVoid
deriving DecidableEq

/-- A call of a `Create` function in a run, by the number of such calls before the action that makes
it and, if it casts an argument of a call, the index of the argument. -/
structure Site where
  before : Nat
  arg : Option Nat
deriving DecidableEq

/-- What the builder uses of LLVM. -/
structure LLVM (V T : Type) where
  getType : V → T
  isVoidTy : T → Bool
  /-- the value that a call of a `Create` function returns -/
  value : Site → Inst V T → V
  /-- No instruction is inserted; the value is a constant, or the operand of a cast to its type. -/
  folds : Inst V T → Bool

/-- What a call of a `Create` function gives. -/
def LLVM.made (L : LLVM V T) (site : Site) (i : Inst V T) : Inst V T × V := (i, L.value site i)

/-- What has been created so far, the last one first. -/
structure IR (V T : Type) where
  functions : List (Function T)
  blocks : List (BasicBlock T)
  /-- the calls of `Create` functions, with the block they insert into and the value they return -/
  created : List (Option (BasicBlock T) × Inst V T × V)
  /-- the next identity -/
  next : Nat

/-- The instructions that have been inserted. -/
def IR.insts (L : LLVM V T) (ir : IR V T) : List (Option (BasicBlock T) × Inst V T × V) :=
  ir.created.filter fun i => !L.folds i.2.1

/-- The fields of `stack_builder`; `functions` and `stack` have their last element first. -/
structure State (V T : Type) where
  ir : IR V T
  /-- the block at whose end the `IRBuilder` inserts -/
  insertBlock : Option (BasicBlock T)
  module_ : Option Module
  vars : RMap String V
  functions : List (Function T)
  blocks : Bimap String (BasicBlock T)
  currentBlock : Option (BasicBlock T)
  keepStack : Bool
  stack : List V

inductive Fault where
  /-- `assert( !stack.empty() )` -/
  | emptyStack
  /-- `std::out_of_range`, thrown by `vars.at` -/
  | unboundVar
  /-- `std::invalid_argument`, thrown by `blocks.insert` -/
  | invalidArgument
  /-- `assert( blocks.count( name ) )` -/
  | unboundBlock
  /-- `functions.back()` without a function -/
  | noFunction
  /-- `assert( !r.val.has_value() )` -/
  | voidRetValue
  /-- `assert( l.ty )` -/
  | nullType
  /-- `assert( !edges.empty() )` -/
  | emptyPhi
  /-- the index of a parameter that the function type does not have -/
  | paramIndex
deriving DecidableEq

/-- A computation on the builder. The state at an exception is kept. -/
abbrev M (V T : Type) := EStateM Fault (State V T)

/-- The structures of the namespace `action`, except `last`, which does not return the builder. An
operand that is absent comes from the stack. -/
inductive Action (V T : Type) where
  | alloc (ty : T) (name : Option String)
  | load (ty : Option T) (fromVar : String)
  | loadPtr (ty : Option T) (from_ : Option V)
  | store (val dst : Option V)
  | bin (op : BinOp) (lhs rhs : Option V)
  | cmp (pred : Predicate) (lhs rhs : Option V)
  | cast (op : CastOp) (val : Option V) (to_ : T)
  | phi (edges : List (PhiEdge V T))
  | condbr (cond : Option V) (thenbb elsebb : BasicBlock T)
  | branch (dst : BasicBlock T)
  | call (fn : FunctionCallee V T) (args : List (Option V))
  | ret (val : Option V)
  | inspect (call : State V T → State V T)
  | createBlock (name : String)
  | setBlock (name : String)
  | createFunction (name : String) (rty : T) (args : List T) (vararg : Bool)
  | function (function : Function T)
  | module_ (module_ : Module)
  | keepStack
  | push (val : V)
  | pop (n : Nat)

section
variable {V T : Type} [DecidableEq T] (L : LLVM V T)

/-! ## `builder_t` -/

/-- A `Create` function. The call is recorded, also if it inserts no instruction (`IR.insts`). -/
def insert (site : Site) (i : Inst V T) : M V T V :=
  modifyGet fun s => (L.value site i,
    { s with ir := { s.ir with created := (s.insertBlock, L.made site i) :: s.ir.created } })

def create (site : Site) : Build V T → M V T V
  | .alloc ty name => insert L site (.alloca ty name)
  | .load ty ptr =>
    match ty with
    | some ty => insert L site (.load ty ptr)
    | none => throw .nullType
  | .store val ptr => insert L site (.store val ptr)
  | .bin op lhs rhs => insert L site (.binOp op lhs rhs)
  | .cmp pred lhs rhs =>
    if pred.isFPPredicate then insert L site (.fCmp pred lhs rhs)
    else insert L site (.iCmp pred lhs rhs)
  | .phi edges =>
    match edges with
    | [] => throw .emptyPhi
    | edge :: _ => insert L site (.phi (L.getType edge.val) edges)
  | .cast .bitcast val to_ => insert L site (.bitCast val to_)
  | .cast .zfit val to_ =>
    if L.getType val = to_ then pure val else insert L site (.zExtOrTrunc val to_)
  | .cast .fptoui val to_ =>
    if L.getType val = to_ then pure val else insert L site (.fpToUI val to_)
  | .cast .ptrtoint val to_ => insert L site (.ptrToInt val to_)
  | .cast .inttoptr val to_ => insert L site (.intToPtr val to_)
  | .condbr cond thenbb elsebb => insert L site (.condBr cond thenbb elsebb)
  | .branch dst => insert L site (.br dst)
  | .call fn args => insert L site (.call fn args)
  | .ret val =>
    match val with
    | some val => insert L site (.ret val)
    | none => insert L site .retVoid

/-- `SetInsertPoint`, at the end of a block -/
def setInsertPoint (bb : BasicBlock T) : M V T Unit :=
  modify fun s => { s with insertBlock := some bb }

/-- `llvm::BasicBlock::Create` -/
def basicBlockCreate (name : String) (parent : Option (Function T)) : M V T (BasicBlock T) :=
  modifyGet fun s =>
    let bb := ⟨s.ir.next, name, parent⟩
    (bb, { s with ir := { s.ir with blocks := bb :: s.ir.blocks, next := s.ir.next + 1 } })

/-- `llvm::Function::Create` -/
def functionCreate (type : FunctionType T) (name : String) : M V T (Function T) :=
  modifyGet fun s =>
    let fn := ⟨s.ir.next, name, type, s.module_⟩
    (fn, { s with ir := { s.ir with functions := fn :: s.ir.functions, next := s.ir.next + 1 } })

/-! ## `stack_builder` -/

/-- `push` of a value -/
def push (v : V) : M V T Unit := modify fun s => { s with stack := v :: s.stack }

/-- `push` of a function -/
def pushFunction (fn : Function T) : M V T Unit :=
  modify fun s => { s with functions := fn :: s.functions }

def pop : M V T V := fun s =>
  match s.stack with
  | [] => .error .emptyStack s
  | v :: stack => .ok v { s with stack := stack }

def back : M V T V := fun s =>
  match s.stack with
  | [] => .error .emptyStack s
  | v :: _ => .ok v s

def popvalue : Option V → M V T V
  | some v => pure v
  | none => do if (← get).keepStack then back else pop

/-- `functions.back()` -/
def lastFunction : M V T (Function T) := fun s =>
  match s.functions with
  | [] => .error .noFunction s
  | fn :: _ => .ok fn s

/-- `vars.at( name )` -/
def varAt (name : String) : M V T V := fun s =>
  match s.vars.lookup name with
  | none => .error .unboundVar s
  | some v => .ok v s

/-- `blocks.insert( name, bb )` -/
def blocksInsert (name : String) (bb : BasicBlock T) : M V T Unit := fun s =>
  match s.blocks.insert name bb with
  | (.ok _, blocks) => .ok () { s with blocks := blocks }
  | (.error _, blocks) => .error .invalidArgument { s with blocks := blocks }

/-- `blocks[ name ]`, with the assertion before it -/
def blockAt (name : String) : M V T (BasicBlock T) := fun s =>
  match s.blocks.left.lookup name with
  | none => .error .unboundBlock s
  | some bb => .ok bb s

def setCurrentBlock (bb : BasicBlock T) : M V T Unit :=
  modify fun s => { s with currentBlock := some bb }

/-- `function_argument_type( callee, idx )` -/
def functionArgumentType (callee : FunctionCallee V T) (idx : Nat) : M V T T :=
  match callee.type.params[idx]? with
  | some ty => pure ty
  | none => throw .paramIndex

/-- The cast of argument `idx` to the type of its parameter. -/
def castArgument (before idx : Nat) (a : V) (to_ : T) : M V T V :=
  if to_ ≠ L.getType a then create L ⟨before, some idx⟩ (.cast .bitcast a to_) else pure a

/-- The loop over the arguments in `apply( action::call )`, from the index `idx` on. -/
def callArgs (before : Nat) (fn : FunctionCallee V T) (idx : Nat) :
    List (Option V) → M V T (List V)
  | [] => pure []
  | arg :: args => do
    let a ← popvalue arg
    let to_ ← functionArgumentType fn idx
    let a ← castArgument L before idx a to_
    return a :: (← callArgs before fn (idx + 1) args)

/-- The loop in `apply( action::pop )`. -/
def popN : Nat → M V T Unit
  | 0 => pure ()
  | n + 1 => do
    let _ ← pop
    popN n

/-- `apply`, with `before` calls of `Create` functions before it -/
def applyAt (before : Nat) : Action V T → M V T Unit
  | .alloc ty name => do
    let var ← create L ⟨before, none⟩ (.alloc ty name)
    if let some name := name then
      modify fun s => { s with vars := s.vars.insert name var }
    push var
  | .load ty fromVar => do push (← create L ⟨before, none⟩ (.load ty (← varAt fromVar)))
  | .loadPtr ty from_ => do push (← create L ⟨before, none⟩ (.load ty (← popvalue from_)))
  | .store val dst => do
    let v ← popvalue val
    let d ← popvalue dst
    let _ ← create L ⟨before, none⟩ (.store v d)
  | .bin op lhs rhs => do
    let l ← popvalue lhs
    let r ← popvalue rhs
    push (← create L ⟨before, none⟩ (.bin op l r))
  | .cmp pred lhs rhs => do
    let l ← popvalue lhs
    let r ← popvalue rhs
    push (← create L ⟨before, none⟩ (.cmp pred l r))
  | .cast op val to_ => do
    let val ← popvalue val
    push (← create L ⟨before, none⟩ (.cast op val to_))
  | .phi edges => do push (← create L ⟨before, none⟩ (.phi edges))
  | .condbr cond thenbb elsebb => do
    let cond ← popvalue cond
    push (← create L ⟨before, none⟩ (.condbr cond thenbb elsebb))
  | .branch dst => do push (← create L ⟨before, none⟩ (.branch dst))
  | .call fn args => do
    let args ← callArgs L before fn 0 args
    push (← create L ⟨before, none⟩ (.call fn args))
  | .ret val => do
    let fn ← lastFunction
    if L.isVoidTy fn.type.returnType then do
      if val.isSome then throw .voidRetValue
      let _ ← create L ⟨before, none⟩ (.ret none)
    else do
      let val ← popvalue val
      let _ ← create L ⟨before, none⟩ (.ret (some val))
  | .inspect call => modify call
  | .createBlock name => do
    let bb ← basicBlockCreate name (← get).functions.head?
    blocksInsert name bb
    setCurrentBlock bb
    setInsertPoint bb
  | .setBlock name => do
    let bb ← blockAt name
    setCurrentBlock bb
    setInsertPoint bb
  | .createFunction name rty args vararg => do
    pushFunction (← functionCreate ⟨rty, args, vararg⟩ name)
  | .function function => do
    modify fun s => { s with module_ := function.parent }
    pushFunction function
  | .module_ m => modify fun s => { s with module_ := some m }
  | .keepStack => modify fun s => { s with keepStack := true }
  | .push val => push val
  | .pop n => popN n

def apply (a : Action V T) : M V T Unit := fun s => applyAt L s.ir.created.length a s

/-- The actions one after the other, by `operator|`. -/
def run : List (Action V T) → M V T Unit
  | [] => pure ()
  | a :: as => do
    apply L a
    run as

/-- `apply( action::last )` -/
def last : M V T V := back

end

/-- A default-constructed builder. -/
def State.init : State V T where
  ir := ⟨[], [], [], 0⟩
  insertBlock := none
  module_ := none
  vars := ∅
  functions := []
  blocks := ⟨∅, ∅⟩
  currentBlock := none
  keepStack := false
  stack := []

end LlvmSc.Builder

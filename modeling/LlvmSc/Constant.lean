import Mathlib.Algebra.Group.Nat.Even

/-!
# Integer constants

The constructors of `constant.cpp` and the literals of `constant.hpp`. Each takes its argument to the
parameter of the constructor for its width, except that `_i64` goes through 32 bits on the way: its
literals are right up to that width only (`denotes_iff`).
-/

namespace LlvmSc

/-- What the code uses of `llvm::ConstantInt`: `get` keeps the low bits of its argument. -/
structure ConstantInt where
  Constant : Type
  get : Nat → UInt64 → Constant
  /-- The value as an unsigned number. -/
  getValue : Constant → Nat
  getValue_get : ∀ width v, getValue (get width v) = v.toNat % 2 ^ width

namespace ConstantInt

variable (C : ConstantInt)

/-! ## Constructors -/

def i8 (v : UInt8) : C.Constant := C.get 8 v.toUInt64

def i16 (v : UInt16) : C.Constant := C.get 16 v.toUInt64

def i32 (v : UInt32) : C.Constant := C.get 32 v.toUInt64

def i64 (v : UInt64) : C.Constant := C.get 64 v

/-! ## `literals` -/

def literalI8 (v : UInt64) : C.Constant := C.i8 v.toUInt8

def literalI16 (v : UInt64) : C.Constant := C.i16 v.toUInt16

def literalI32 (v : UInt64) : C.Constant := C.i32 v.toUInt32

/-- The cast of `_i64` is to `uint32_t`. -/
def literalI64 (v : UInt64) : C.Constant := C.i64 v.toUInt32.toUInt64

/-- The widths that have a literal. -/
inductive Width where
  | i8
  | i16
  | i32
  | i64
deriving DecidableEq

def Width.bits : Width → Nat
  | i8 => 8
  | i16 => 16
  | i32 => 32
  | i64 => 64

/-- The literal `v_iw`. -/
def literal (v : UInt64) : Width → C.Constant
  | .i8 => C.literalI8 v
  | .i16 => C.literalI16 v
  | .i32 => C.literalI32 v
  | .i64 => C.literalI64 v

/-- The constructor `iw` of a number in the range of its parameter. -/
def construct (n : Nat) : Width → C.Constant
  | .i8 => C.i8 (.ofNat n)
  | .i16 => C.i16 (.ofNat n)
  | .i32 => C.i32 (.ofNat n)
  | .i64 => C.i64 (.ofNat n)

/-- The literal is the constructor of the reduced number, and so is its value. -/
def Denotes (w : Width) (v : UInt64) : Prop :=
  C.literal v w = C.construct (v.toNat % 2 ^ w.bits) w ∧
    C.getValue (C.literal v w) = v.toNat % 2 ^ w.bits

variable {C} {w : Width} {v : UInt64}

theorem getValue_construct (w : Width) (n : Nat) :
    C.getValue (C.construct n w) = n % 2 ^ w.bits := by
  cases w with
  | i8 => simp [construct, i8, C.getValue_get, Width.bits]
  | i16 => simp [construct, i16, C.getValue_get, Width.bits]
  | i32 => simp [construct, i32, C.getValue_get, Width.bits]
  | i64 => simp [construct, i64, C.getValue_get, Width.bits]

/-- A literal loses no more bits than its constructor if it does not go through 32 bits. -/
theorem literal_eq (hw : w = .i64 → v.toNat < UInt32.size) :
    C.literal v w = C.construct (v.toNat % 2 ^ w.bits) w := by
  cases w with
  | i8 =>
    have hv : v.toUInt8 = .ofNat (v.toNat % 2 ^ 8) := by
      apply UInt8.toNat_inj.mp
      simp
    exact congrArg C.i8 hv
  | i16 =>
    have hv : v.toUInt16 = .ofNat (v.toNat % 2 ^ 16) := by
      apply UInt16.toNat_inj.mp
      simp
    exact congrArg C.i16 hv
  | i32 =>
    have hv : v.toUInt32 = .ofNat (v.toNat % 2 ^ 32) := by
      apply UInt32.toNat_inj.mp
      simp
    exact congrArg C.i32 hv
  | i64 =>
    have hlt := hw rfl
    have hv : v.toUInt32.toUInt64 = .ofNat (v.toNat % 2 ^ 64) := by
      apply UInt64.toNat_inj.mp
      simp only [UInt32.size] at hlt
      simp
      omega
    exact congrArg C.i64 hv

/-- `_i64` keeps 32 bits. -/
theorem getValue_literalI64 (v : UInt64) :
    C.getValue (C.literalI64 v) = v.toNat % UInt32.size := by
  rw [literalI64, i64, C.getValue_get]
  simp [UInt32.size]
  omega

/-- A literal is right if and only if, at the width 64, it fits into 32 bits. -/
theorem denotes_iff (C : ConstantInt) (w : Width) (v : UInt64) :
    C.Denotes w v ↔ (w = .i64 → v.toNat < UInt32.size) := by
  constructor
  · intro ⟨_, hvalue⟩ hw
    subst hw
    have hlow := (C.getValue_literalI64 v).symm.trans hvalue
    have hv := v.toNat_lt
    simp only [UInt32.size, Width.bits] at hlow ⊢
    omega
  · intro hw
    have heq := literal_eq (C := C) hw
    refine ⟨heq, ?_⟩
    rw [heq, getValue_construct, Nat.mod_mod]

/-- The constants as numbers of their widths. -/
def apInt : ConstantInt where
  Constant := Σ width, BitVec width
  get width v := ⟨width, .ofNat width v.toNat⟩
  getValue c := c.2.toNat
  getValue_get _ _ := BitVec.toNat_ofNat ..

/-- The literal of the first number that needs 33 bits is zero. -/
theorem not_denotes : ¬ apInt.Denotes .i64 4294967296 := by
  intro ⟨_, hvalue⟩
  exact absurd hvalue (by decide)

end ConstantInt

end LlvmSc

import Mathlib.Tactic.Common

/-!
# Sizes of types

`bits` narrows the size in bits that the data layout gives to `unsigned`, and `bytes` rounds it up in
`unsigned` arithmetic. The byte size is right as long as the size in bits and the 7 that is added to it
fit (`keepsSize_iff`).
-/

namespace LlvmSc.Types

/-- `llvm::TypeSize` -/
inductive TypeSize where
  | fixed (size : UInt64)
  | scalable (minimum : UInt64)

/-- `llvm::DataLayout` for types `T`. -/
structure DataLayout (T : Type) where
  getTypeSizeInBits : T → TypeSize

/-- The assertion that the size is not scalable fails with `none`. -/
def TypeSize.getFixedSize : TypeSize → Option UInt64
  | fixed size => some size
  | scalable _ => none

variable {T : Type}

def bits (ty : T) (dl : DataLayout T) : Option UInt32 := do
  let size ← (dl.getTypeSizeInBits ty).getFixedSize
  return size.toUInt32

def bytes (ty : T) (dl : DataLayout T) : Option UInt32 := do
  return ((← bits ty dl) + 7) / 8

/-- The size in bytes of a type of `n` bits. -/
def byteSize (n : UInt64) : Nat := (n.toNat + 7) / 8

/-- Sizes of `n` bits that fit into `unsigned` are computed as they are. -/
def KeepsSize (ty : T) (dl : DataLayout T) (n : UInt64) : Prop :=
  (byteSize n < UInt32.size → ∃ b, bytes ty dl = some b ∧ b.toNat = byteSize n) ∧
    (n.toNat < UInt32.size → ∃ b, bits ty dl = some b ∧ b.toNat = n.toNat)

variable {ty : T} {dl : DataLayout T} {n : UInt64}

theorem bits_eq (h : dl.getTypeSizeInBits ty = .fixed n) : bits ty dl = some n.toUInt32 := by
  rw [bits, h]
  rfl

theorem bytes_eq (h : dl.getTypeSizeInBits ty = .fixed n) :
    bytes ty dl = some ((n.toUInt32 + 7) / 8) := by
  rw [bytes, bits_eq h]
  rfl

theorem toNat_bits (n : UInt64) : n.toUInt32.toNat = n.toNat % UInt32.size := by
  simp [UInt32.size]

/-- The sum wraps around before it is divided. -/
theorem toNat_bytes (n : UInt64) :
    ((n.toUInt32 + 7) / 8).toNat = (n.toNat % UInt32.size + 7) % UInt32.size / 8 := by
  simp [UInt32.size]

/-- The byte size is computed exactly while the size in bits can be rounded up in `unsigned`. -/
theorem toNat_bytes_eq_iff (n : UInt64) :
    ((n.toUInt32 + 7) / 8).toNat = byteSize n ↔ n.toNat + 7 < UInt32.size := by
  rw [toNat_bytes]
  simp only [byteSize, UInt32.size]
  omega

/-- The sizes of a type of fixed size are right if and only if its size in bits rounds up within
`unsigned`, or its size in bytes does not fit anyway. -/
theorem keepsSize_iff (h : dl.getTypeSizeInBits ty = .fixed n) :
    KeepsSize ty dl n ↔ n.toNat + 7 < UInt32.size ∨ UInt32.size ≤ byteSize n := by
  constructor
  · intro ⟨hbytes, _⟩
    rcases Nat.lt_or_ge (byteSize n) UInt32.size with hlt | hge
    · obtain ⟨b, hb, hn⟩ := hbytes hlt
      rw [bytes_eq h] at hb
      cases hb
      exact .inl ((toNat_bytes_eq_iff n).mp hn)
    · exact .inr hge
  · intro hn
    refine ⟨fun hlt => ⟨_, bytes_eq h, ?_⟩, fun hlt => ⟨_, bits_eq h, ?_⟩⟩
    · exact (toNat_bytes_eq_iff n).mpr (hn.resolve_right (Nat.not_le_of_lt hlt))
    · rw [toNat_bits, Nat.mod_eq_of_lt hlt]

/-- A type of 65 bits. -/
theorem keepsSize_sample : KeepsSize () ⟨fun _ => .fixed 65⟩ 65 :=
  (keepsSize_iff rfl).mpr (.inl (by decide))

/-- An array of 512 MiB has no bytes. -/
theorem not_keepsSize : ¬ KeepsSize () ⟨fun _ => .fixed 4294967296⟩ 4294967296 := by
  intro h
  obtain ⟨b, hb, hn⟩ := h.1 (by decide)
  have hzero : bytes () ⟨fun _ => .fixed 4294967296⟩ = some 0 := by decide
  cases hzero.symm.trans hb
  exact absurd hn (by decide)

end LlvmSc.Types

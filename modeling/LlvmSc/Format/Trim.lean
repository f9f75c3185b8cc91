import LlvmSc.Format
import LlvmSc.Lib.DropWhile

/-!
# Trimming

`ltrim`, `rtrim` and `trim` of `format.hpp`. They pass a `char` to `std::isspace`, so a byte from 128
on becomes a negative number, which is outside of the domain unless it is -1, the number of `EOF`.
Such a byte is harmful where a search ends: at the first and at the last byte that is not whitespace.
-/

namespace LlvmSc.Format

/-- The conversion of a `char`, which is signed, to `int`. -/
def charToInt (c : UInt8) : Int := if c.toNat < 128 then c.toNat else c.toNat - 256

/-- `std::isspace`, which is defined for the values of an `unsigned char` and for `EOF`. -/
def isspace (ch : Int) : Option Bool :=
  if -1 ≤ ch ∧ ch ≤ 255 then some (decide (ch = 32 ∨ 9 ≤ ch ∧ ch ≤ 13)) else none

/-- `std::find_if`, with the position at which it stops. -/
def findIf (pred : UInt8 → Option Bool) : List UInt8 → Option Nat
  | [] => some 0
  | c :: s => do
    if ← pred c then return 0
    return (← findIf pred s) + 1

/-- The predicate of the searches. -/
def notSpace (ch : UInt8) : Option Bool := (isspace (charToInt ch)).map not

def ltrim (s : List UInt8) : Option (List UInt8) := do
  let first ← findIf notSpace s
  return s.drop first

/-- The `base()` of a reverse iterator lies as far before the end. -/
def rtrim (s : List UInt8) : Option (List UInt8) := do
  let first ← findIf notSpace s.reverse
  return s.take (s.length - first)

def trim (s : List UInt8) : Option (List UInt8) := do
  let s ← ltrim s
  rtrim s

/-! ## The searches -/

def isWhitespace (c : UInt8) : Bool := decide (c.toNat = 32 ∨ 9 ≤ c.toNat ∧ c.toNat ≤ 13)

/-- As a `char`, the byte is in the domain of `isspace`. -/
def InDomain (c : UInt8) : Prop := c.toNat < 128 ∨ c.toNat = 255

instance (c : UInt8) : Decidable (InDomain c) :=
  inferInstanceAs (Decidable (c.toNat < 128 ∨ c.toNat = 255))

theorem charToInt_of_lt {c : UInt8} (h : c.toNat < 128) : charToInt c = c.toNat := if_pos h

theorem charToInt_of_le {c : UInt8} (h : 128 ≤ c.toNat) : charToInt c = c.toNat - 256 :=
  if_neg (Nat.not_lt.2 h)

theorem notSpace_eq (c : UInt8) :
    notSpace c = if InDomain c then some (!isWhitespace c) else none := by
  have hlt := c.toNat_lt
  rcases Nat.lt_or_ge c.toNat 128 with h | h
  · have hdom : (-1 : Int) ≤ c.toNat ∧ (c.toNat : Int) ≤ 255 := by omega
    have hspace : ((c.toNat : Int) = 32 ∨ 9 ≤ (c.toNat : Int) ∧ (c.toNat : Int) ≤ 13) ↔
        (c.toNat = 32 ∨ 9 ≤ c.toNat ∧ c.toNat ≤ 13) := by omega
    have hin : InDomain c := .inl h
    rw [notSpace, charToInt_of_lt h, isspace, if_pos hdom, if_pos hin, Option.map_some,
      decide_eq_decide.2 hspace, isWhitespace]
  · by_cases heof : c.toNat = 255
    · have hin : InDomain c := .inr heof
      have hspace : isWhitespace c = false := by
        rw [isWhitespace, decide_eq_false_iff_not]
        omega
      rw [notSpace, charToInt_of_le h, heof, if_pos hin, hspace]
      rfl
    · have hdom : ¬ ((-1 : Int) ≤ c.toNat - 256 ∧ (c.toNat : Int) - 256 ≤ 255) := by omega
      have hout : ¬ InDomain c := by
        rintro (hin | hin)
        · omega
        · exact heof hin
      rw [notSpace, charToInt_of_le h, isspace, if_neg hdom, if_neg hout, Option.map_none]

theorem inDomain_of_isWhitespace (h : isWhitespace c = true) : InDomain c := by
  rw [isWhitespace, decide_eq_true_eq] at h
  left
  omega

/-- The first byte that is not whitespace, if there is one, is in the domain of `isspace`. -/
def Readable (s : List UInt8) : Prop := ∀ c, s.find? (fun c => !isWhitespace c) = some c → InDomain c

theorem Readable.cons_of_isWhitespace {s : List UInt8} (h : isWhitespace c = true) :
    Readable (c :: s) ↔ Readable s := by
  unfold Readable
  rw [List.find?_cons_of_neg (by simp [h])]

theorem Readable.cons_of_not {s : List UInt8} (h : isWhitespace c = false) :
    Readable (c :: s) ↔ InDomain c := by
  unfold Readable
  rw [List.find?_cons_of_pos (by simp [h])]
  simp

/-- The search stops at the first byte that is not whitespace, if the predicate is defined there. -/
theorem findIf_eq (s : List UInt8) : (Readable s →
      findIf notSpace s = some (s.takeWhile isWhitespace).length) ∧
    (¬ Readable s → findIf notSpace s = none) := by
  induction s with
  | nil => exact ⟨fun _ => rfl, fun h => absurd (fun c hc => by cases hc) h⟩
  | cons c s ih =>
    rw [findIf, notSpace_eq]
    cases hc : isWhitespace c with
    | true =>
      rw [Readable.cons_of_isWhitespace hc, if_pos (inDomain_of_isWhitespace hc),
        List.takeWhile_cons_of_pos hc]
      constructor
      · intro h
        simp [ih.1 h]
      · intro h
        simp [ih.2 h]
    | false =>
      rw [Readable.cons_of_not hc, List.takeWhile_cons_of_neg (by simp [hc])]
      constructor
      · intro h
        simp [h]
      · intro h
        simp [h]

/-! ## `ltrim`, `rtrim` and `trim` -/

section
variable {s : List UInt8}

theorem ltrim_eq (h : Readable s) : ltrim s = some (s.dropWhile isWhitespace) := by
  rw [ltrim, (findIf_eq s).1 h, ← List.drop_length_takeWhile]
  rfl

theorem ltrim_none (h : ¬ Readable s) : ltrim s = none := by
  rw [ltrim, (findIf_eq s).2 h]
  rfl

theorem rtrim_eq (h : Readable s.reverse) : rtrim s = some (s.rdropWhile isWhitespace) := by
  rw [rtrim, (findIf_eq s.reverse).1 h, ← List.take_length_sub_takeWhile_reverse]
  rfl

theorem rtrim_none (h : ¬ Readable s.reverse) : rtrim s = none := by
  rw [rtrim, (findIf_eq s.reverse).2 h]
  rfl

theorem Readable.dropWhile : Readable (s.dropWhile isWhitespace) ↔ Readable s := by
  rw [Readable, List.find?_dropWhile, Readable]

theorem Readable.rdropWhile : Readable (s.rdropWhile isWhitespace) ↔ Readable s := by
  rw [Readable, List.find?_rdropWhile, Readable]

theorem Readable.reverse_dropWhile :
    Readable (s.dropWhile isWhitespace).reverse ↔ Readable s.reverse := by
  rw [← List.rdropWhile_reverse, Readable.rdropWhile]

theorem Readable.reverse_rdropWhile :
    Readable (s.rdropWhile isWhitespace).reverse ↔ Readable s.reverse := by
  rw [List.reverse_rdropWhile, Readable.dropWhile]

theorem trim_eq (h : Readable s) (h' : Readable s.reverse) :
    trim s = some ((s.dropWhile isWhitespace).rdropWhile isWhitespace) := by
  rw [trim, ltrim_eq h]
  exact rtrim_eq (Readable.reverse_dropWhile.2 h')

end

/-- The searches stay in the domain of `isspace`. `trim` removes the whitespace in front and then the
whitespace behind; trimming again changes nothing, and `ltrim` and `rtrim` commute. -/
def Trims (s : List UInt8) : Prop :=
  ∃ l r t, ltrim s = some l ∧ rtrim s = some r ∧ trim s = some t ∧
    t = (s.dropWhile isWhitespace).rdropWhile isWhitespace ∧
    trim t = some t ∧ rtrim l = some t ∧ ltrim r = some t

/-- A string is trimmed so if its first and its last byte that are not whitespace can be tested. -/
theorem trims_iff (s : List UInt8) : Trims s ↔ Readable s ∧ Readable s.reverse := by
  constructor
  · rintro ⟨l, r, t, hl, hr, _⟩
    constructor
    · by_contra h
      rw [ltrim_none h] at hl
      cases hl
    · by_contra h
      rw [rtrim_none h] at hr
      cases hr
  · rintro ⟨h, h'⟩
    have hcomm := List.rdropWhile_dropWhile_comm isWhitespace s
    have hfront : Readable ((s.dropWhile isWhitespace).rdropWhile isWhitespace) :=
      Readable.rdropWhile.2 (Readable.dropWhile.2 h)
    have hback : Readable ((s.dropWhile isWhitespace).rdropWhile isWhitespace).reverse :=
      Readable.reverse_rdropWhile.2 (Readable.reverse_dropWhile.2 h')
    refine ⟨_, _, _, ltrim_eq h, rtrim_eq h', trim_eq h h', rfl, ?_, ?_, ?_⟩
    · rw [trim_eq hfront hback, hcomm, List.dropWhile_idempotent, ← hcomm,
        List.rdropWhile_idempotent]
    · exact rtrim_eq (Readable.reverse_dropWhile.2 h')
    · rw [ltrim_eq (Readable.rdropWhile.2 h), hcomm]

/-- The byte `0xE9`. -/
theorem not_trims : ¬ Trims [233] := by
  rintro ⟨l, r, t, hl, _⟩
  cases hl

end LlvmSc.Format

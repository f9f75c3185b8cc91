import LlvmSc.Annotation.Basic
import LlvmSc.Lib.Comp
import LlvmSc.Lib.Split

/-!
# The offsets of the constructor

The constructor of an annotation with its two offsets of type `size_t`, on which `find` answers the
largest number if it finds nothing, and `off - oldoff` and `off + 1` wrap around. The offsets are the
ones of `ofStringRefLoop` as long as they lie in the text, and `substr` never starts behind it.
-/

namespace LlvmSc.Annotation.SizeT

open Comp StringRef

/-- `std::string::npos` -/
def npos : UInt64 := -1

/-- A `substr` that starts behind the end of the text, where the one of `StringRef` takes its end. -/
inductive OutOfRange where
  | outOfRange
deriving DecidableEq

/-- `find(c, from)` -/
def find (s : StringRef) (c : UInt8) (start : UInt64) : UInt64 :=
  match s.find c start.toNat with
  | some off => .ofNat off
  | none => npos

/-- `substr(start, n)` -/
def substr (s : StringRef) (start n : UInt64) : Comp Unit OutOfRange StringRef :=
  if start.toNat ≤ s.length then pure ((s.drop start.toNat).take n.toNat) else raise .outOfRange

/-- One turn of the `do … while` loop, with `oldoff` and `_parts`. -/
def turn (anno : StringRef) (t : UInt64 × List StringRef) :
    Comp Unit OutOfRange ((UInt64 × List StringRef) ⊕ List StringRef) := do
  let (oldoff, parts) := t
  let off := find anno dot oldoff
  let part ← substr anno oldoff (off - oldoff)
  pure (if off ≠ npos then .inl (off + 1, parts ++ [part]) else .inr (parts ++ [part]))

/-- `annotation(StringRef)` -/
def construct (anno : StringRef) : Comp Unit OutOfRange Annotation := do
  let parts ← loop (turn anno) (0, [])
  pure ⟨parts⟩

section
variable {s : StringRef} {oldoff : UInt64}

theorem toNat_npos : npos.toNat = UInt64.size - 1 := rfl

theorem turn_yields (parts : List StringRef) (hle : oldoff.toNat ≤ s.length)
    (hoff : find s dot oldoff = off)
    (hpart : (s.drop oldoff.toNat).take (off - oldoff).toNat = part) :
    (turn s (oldoff, parts)).Yields ()
      (.done (if off ≠ npos then .inl (off + 1, parts ++ [part]) else .inr (parts ++ [part])) ()) := by
  have hsub : (substr s oldoff (off - oldoff)).Yields () (.done part ()) := by
    rw [substr, if_pos hle, hpart]
    exact yields_pure _ _
  rw [turn, hoff]
  exact hsub.bind (yields_pure _ _)

/-- The last turn: `npos - oldoff` does not wrap around, and reaches to the end of the text. -/
theorem turn_none (parts : List StringRef) (hs : s.length < UInt64.size)
    (hle : oldoff.toNat ≤ s.length) (h : s.find dot oldoff.toNat = none) :
    (turn s (oldoff, parts)).Yields () (.done (.inr (parts ++ [s.substr oldoff.toNat none])) ()) := by
  have hoff : find s dot oldoff = npos := by rw [find, h]
  have hpos : oldoff ≤ npos := by
    rw [UInt64.le_iff_toNat_le, toNat_npos]
    omega
  have hpart : (s.drop oldoff.toNat).take (npos - oldoff).toNat = s.drop oldoff.toNat := by
    refine List.take_of_length_le ?_
    rw [List.length_drop, UInt64.toNat_sub_of_le _ _ hpos, toNat_npos]
    omega
  have hturn := turn_yields parts hle hoff hpart
  rwa [if_neg (not_not_intro rfl)] at hturn

/-- A turn that finds a dot: neither `off - oldoff` nor `off + 1` wraps around. -/
theorem turn_some (parts : List StringRef) (hs : s.length < UInt64.size)
    (h : s.find dot oldoff.toNat = some off) :
    ∃ oldoff' : UInt64, oldoff'.toNat = off + 1 ∧ oldoff'.toNat ≤ s.length ∧
      (turn s (oldoff, parts)).Yields () (.done
        (.inl (oldoff', parts ++ [s.substr oldoff.toNat (some (off - oldoff.toNat))])) ()) := by
  obtain ⟨hle, hlt⟩ := find_lt h
  have hoff : find s dot oldoff = .ofNat off := by rw [find, h]
  have hnat : (UInt64.ofNat off).toNat = off := UInt64.toNat_ofNat_of_lt (hlt.trans hs)
  have hne : UInt64.ofNat off ≠ npos := by
    intro heq
    rw [heq, toNat_npos] at hnat
    omega
  have hnext : (UInt64.ofNat off + 1).toNat = off + 1 := by
    rw [UInt64.toNat_add, hnat, UInt64.toNat_one]
    exact Nat.mod_eq_of_lt (Nat.lt_of_le_of_lt hlt hs)
  have hpos : oldoff ≤ .ofNat off := by rwa [UInt64.le_iff_toNat_le, hnat]
  have hsub : (UInt64.ofNat off - oldoff).toNat = off - oldoff.toNat := by
    rw [UInt64.toNat_sub_of_le _ _ hpos, hnat]
  have hpart : (s.drop oldoff.toNat).take (.ofNat off - oldoff : UInt64).toNat =
      s.substr oldoff.toNat (some (off - oldoff.toNat)) := by rw [hsub, StringRef.substr]
  have hturn := turn_yields parts (by omega) hoff hpart
  rw [if_pos hne] at hturn
  have hle' : (UInt64.ofNat off + 1).toNat ≤ s.length := by
    rw [hnext]
    exact hlt
  exact ⟨UInt64.ofNat off + 1, hnext, hle', hturn⟩

/-- The loop on `size_t` is the one on natural numbers. -/
theorem loop_yields (parts : List StringRef) (hs : s.length < UInt64.size)
    (hle : oldoff.toNat ≤ s.length) :
    (loop (turn s) (oldoff, parts)).Yields () (.done (ofStringRefLoop s oldoff.toNat parts) ()) := by
  induction hn : oldoff.toNat, parts using ofStringRefLoop.induct s generalizing oldoff with
  | case1 n parts h =>
    subst hn
    have hloop : ofStringRefLoop s oldoff.toNat parts = parts ++ [s.substr oldoff.toNat none] := by
      rw [ofStringRefLoop]
      split
      · rfl
      · simp_all
    rw [hloop]
    exact (turn_none parts hs hle h).loop_done
  | case2 n parts off h ih =>
    subst hn
    obtain ⟨oldoff', hnat, hle', hturn⟩ := turn_some parts hs h
    have hloop : ofStringRefLoop s oldoff.toNat parts = ofStringRefLoop s (off + 1)
        (parts ++ [s.substr oldoff.toNat (some (off - oldoff.toNat))]) := by
      conv => lhs; rw [ofStringRefLoop]
      split
      · simp_all
      · next off' h' =>
        cases h.symm.trans h'
        rfl
    rw [hloop]
    exact hturn.loop_next (ih hle' hnat)

theorem construct_yields (hs : s.length < UInt64.size) :
    (construct s).Yields () (.done (ofStringRef s) ()) :=
  (loop_yields [] hs (Nat.zero_le _)).bind (yields_pure _ _)

end

theorem parts_fields (s : StringRef) : (ofStringRef s).parts.length = s.count dot + 1 ∧
    (∀ p ∈ (ofStringRef s).parts, dot ∉ p) ∧
    [dot].intercalate (ofStringRef s).parts = s := by
  rw [parts_ofStringRef]
  exact ⟨List.length_splitOn, fun p => List.notMem_of_mem_splitOn, List.intercalate_splitOn dot⟩

/-- The constructor ends without a fault, and cuts the text at every dot. -/
theorem construct_fields {s : StringRef} (hs : s.length < UInt64.size) :
    (construct s).Ensures (fun a _ => a.parts.length = s.count dot + 1 ∧
      (∀ p ∈ a.parts, dot ∉ p) ∧ [dot].intercalate a.parts = s) () :=
  .inl ⟨_, _, construct_yields hs, parts_fields s⟩

/-- The text `".a."`. -/
theorem construct_fields_dots : (construct [dot, 97, dot]).Ensures
    (fun a _ => a.parts.length = 3 ∧ (∀ p ∈ a.parts, dot ∉ p) ∧
      [dot].intercalate a.parts = [dot, 97, dot]) () :=
  construct_fields (by decide)

end LlvmSc.Annotation.SizeT

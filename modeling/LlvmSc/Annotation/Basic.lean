import Mathlib.Data.List.Infix
import LlvmSc.Lib.Split

/-!
# Annotations

The `annotation` of `annotation.hpp`: a dotted text that is cut at every dot. The constructor is
the splitting of the text at the dots (`parts_ofStringRef`), so `in_namespace` asks for the text of
the namespace with a dot behind it. `str` puts no dot behind what is still empty, and so loses the
dots that a text starts with (`str_ofStringRef`).
-/

namespace LlvmSc

abbrev StringRef := List UInt8

namespace StringRef

/-- `find(c, from)`; the answer `npos` is `none`. -/
def find (s : StringRef) (c : UInt8) (start : Nat) : Option Nat :=
  ((s.drop start).findIdx? (· == c)).map (start + ·)

/-- `substr(start, n)`; the count `none` is `npos - start`, which reaches behind the end. -/
def substr (s : StringRef) (start : Nat) : Option Nat → StringRef
  | none => s.drop start
  | some n => (s.drop start).take n

theorem find_lt {s : StringRef} (h : find s c start = some off) :
    start ≤ off ∧ off < s.length := by
  obtain ⟨i, hi, rfl⟩ := Option.map_eq_some_iff.mp h
  have hlt := (List.findIdx?_eq_some_iff_findIdx_eq.mp hi).1
  rw [List.length_drop] at hlt
  exact ⟨Nat.le_add_right _ _, by omega⟩

end StringRef

/-- The byte `'.'`. -/
def dot : UInt8 := 46

structure Annotation where
  parts : List StringRef
  deriving DecidableEq, Repr

namespace Annotation

open StringRef

/-- The `do … while` loop of the constructor, with `_parts` so far. -/
def ofStringRefLoop (anno : StringRef) (oldoff : Nat) (parts : List StringRef) :
    List StringRef :=
  match _h : find anno dot oldoff with
  | none => parts ++ [substr anno oldoff none]
  | some off =>
    ofStringRefLoop anno (off + 1) (parts ++ [substr anno oldoff (some (off - oldoff))])
termination_by anno.length - oldoff
decreasing_by
  have hlt := find_lt _h
  omega

/-- `annotation(StringRef)` -/
def ofStringRef (anno : StringRef) : Annotation := ⟨ofStringRefLoop anno 0 []⟩

def size (a : Annotation) : Nat := a.parts.length

/-- The function that `str` accumulates with. -/
def delim (a b : StringRef) : StringRef := a ++ (if a.length > 0 then [dot] else []) ++ b

def str (a : Annotation) : StringRef := a.parts.foldl delim []

/-- `in_namespace`; `std::equal` runs over the parts of the namespace. -/
def inNamespace (a ns : Annotation) : Bool :=
  decide (ns.size < a.size) && ns.parts.isPrefixOf a.parts

/-! ## The constructor -/

theorem find_none {s : StringRef} (h : find s c start = none) : c ∉ s.drop start := by
  have hnone := List.findIdx?_eq_none_iff.mp (Option.map_eq_none_iff.mp h)
  intro hc
  simpa using hnone c hc

theorem find_some {s : StringRef} (h : find s c start = some off) :
    ∃ a b, s.drop start = a ++ c :: b ∧ c ∉ a ∧ s.drop (off + 1) = b ∧
      substr s start (some (off - start)) = a := by
  obtain ⟨i, hi, rfl⟩ := Option.map_eq_some_iff.mp h
  obtain ⟨hlt, heq, hne⟩ := List.findIdx?_eq_some_iff_getElem.mp hi
  have hc : (s.drop start)[i] = c := by simpa using heq
  refine ⟨(s.drop start).take i, (s.drop start).drop (i + 1), ?_, ?_, ?_, ?_⟩
  · rw [← hc, List.getElem_cons_drop, List.take_append_drop]
  · intro hmem
    obtain ⟨j, hj, hji⟩ := List.mem_take_iff_getElem.mp hmem
    have hlt : j < i := by omega
    exact hne j hlt (by simpa using hji)
  · rw [List.drop_drop, Nat.add_assoc]
  · simp [substr]

theorem ofStringRefLoop_eq (anno : StringRef) (oldoff : Nat) (parts : List StringRef) :
    ofStringRefLoop anno oldoff parts = parts ++ (anno.drop oldoff).splitOn dot := by
  induction oldoff, parts using ofStringRefLoop.induct anno with
  | case1 oldoff parts h =>
    rw [ofStringRefLoop]
    split
    · rw [List.splitOn_eq_singleton (find_none h), substr]
    · simp_all
  | case2 oldoff parts off h ih =>
    obtain ⟨a, b, hab, ha, hb, hsub⟩ := find_some h
    rw [ofStringRefLoop]
    split
    · simp_all
    · next off' h' =>
      cases h.symm.trans h'
      rw [ih, hab, List.splitOn_append_cons_self_of_not_mem ha, hb, hsub]
      simp

@[simp] theorem parts_ofStringRef (s : StringRef) : (ofStringRef s).parts = s.splitOn dot := by
  rw [ofStringRef, ofStringRefLoop_eq, List.nil_append, List.drop_zero]

/-! ## Namespaces -/

theorem inNamespace_eq_true {a ns : Annotation} :
    a.inNamespace ns = true ↔ ∃ r, r ≠ [] ∧ a.parts = ns.parts ++ r := by
  simp only [inNamespace, Bool.and_eq_true, decide_eq_true_eq, List.isPrefixOf_iff_prefix]
  simp only [size]
  constructor
  · intro ⟨hlt, r, hr⟩
    refine ⟨r, ?_, hr.symm⟩
    intro hnil
    rw [← hr, hnil, List.append_nil] at hlt
    exact Nat.lt_irrefl _ hlt
  · intro ⟨r, hr, heq⟩
    have hpos := List.length_pos_iff.mpr hr
    refine ⟨?_, r, heq.symm⟩
    rw [heq, List.length_append]
    omega

/-- `in_namespace` on texts: the text of the namespace and a dot come first. -/
theorem inNamespace_iff (s t : StringRef) :
    (ofStringRef s).inNamespace (ofStringRef t) = true ↔ t ++ [dot] <+: s := by
  rw [inNamespace_eq_true, parts_ofStringRef, parts_ofStringRef, List.splitOn_append_iff]

/-! ## Printing -/

theorem foldl_delim {acc : StringRef} (h : acc ≠ []) (parts : List StringRef) :
    parts.foldl delim acc = [dot].intercalate (acc :: parts) := by
  induction parts generalizing acc with
  | nil => simp
  | cons p parts ih =>
    have hpos := List.length_pos_iff.mpr h
    have hstep : delim acc p = acc ++ [dot] ++ p := by rw [delim, if_pos hpos]
    have hne : acc ++ [dot] ++ p ≠ [] := by simp
    rw [List.foldl_cons, hstep, ih hne, List.intercalate_cons_cons]
    cases parts with
    | nil => simp
    | cons q parts => simp [List.intercalate_cons_cons]

theorem str_ofStringRef (s : StringRef) : (ofStringRef s).str = s.dropWhile (· == dot) := by
  rw [str, parts_ofStringRef]
  induction s with
  | nil => rfl
  | cons c s ih =>
    rcases eq_or_ne c dot with rfl | hc
    · have hsplit : (dot :: s).splitOn dot = [] :: s.splitOn dot :=
        List.splitOn_append_cons_self [] s
      rw [hsplit, List.dropWhile_cons_of_pos (by simp)]
      exact ih
    · have hprint : [dot].intercalate ((c :: s).splitOn dot) = c :: s := List.intercalate_splitOn dot
      have hcons := List.splitOn_cons_eq_if_modifyHead (a := dot) c s
      obtain ⟨p, parts, hp⟩ := List.exists_cons_of_ne_nil (List.splitOn_ne_nil dot s)
      rw [if_neg (by simpa using hc), hp, List.modifyHead_cons] at hcons
      rw [hcons] at hprint ⊢
      rw [List.dropWhile_cons_of_neg (by simpa using hc), List.foldl_cons]
      exact (foldl_delim (List.cons_ne_nil c p) parts).trans hprint

/-- Printing gives the text back unless the text starts with a dot. -/
theorem str_ofStringRef_iff (s : StringRef) :
    (ofStringRef s).str = s ↔ s.head? ≠ some dot := by
  rw [str_ofStringRef]
  cases s with
  | nil => simp
  | cons c s =>
    rcases eq_or_ne c dot with rfl | hc
    · have hlen := (List.dropWhile_suffix (l := s) (· == dot)).length_le
      have hne : s.dropWhile (· == dot) ≠ dot :: s := by
        intro heq
        rw [heq, List.length_cons] at hlen
        omega
      simpa using hne
    · simp [hc]

/-- The text `".x"`. -/
theorem str_ofStringRef_ne : (ofStringRef [dot, 120]).str ≠ [dot, 120] := by
  rw [str_ofStringRef]
  decide

end Annotation

end LlvmSc

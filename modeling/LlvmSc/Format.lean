import Mathlib.Data.List.Basic
import Mathlib.Logic.Function.Iterate

/-!
# Splitting strings

The `split` and `splitter` of `format.hpp`. A `std::string_view` is the list of its bytes. A forward
`splitter` reaches its end after one step for each field; a reverse one keeps the part behind the
last delimiter for ever, unless that part is empty.
-/

namespace LlvmSc.Format

abbrev StringView := List UInt8

namespace StringView

/-- `find`; the answer `npos` is `none`. -/
def find (p : StringView) (d : UInt8) : Option Nat := p.findIdx? (· == d)

/-- `rfind` -/
def rfind (p : StringView) (d : UInt8) : Option Nat :=
  (p.reverse.findIdx? (· == d)).map (p.length - 1 - ·)

def removePrefix (p : StringView) (n : Nat) : StringView := p.drop n

def removeSuffix (p : StringView) (n : Nat) : StringView := p.take (p.length - n)

end StringView

open StringView

def split (p : StringView) (d : UInt8) (reverse : Bool) : StringView × StringView :=
  match if reverse then rfind p d else find p d with
  | none => if reverse then ([], p) else (p, [])
  | some s => (removeSuffix p (p.length - s), removePrefix p (s + 1))

/-- `generator`, with values `α` and states `σ`. -/
structure Generator (σ α : Type) where
  gen : σ → α × σ
  initial : σ

namespace Generator

structure Iterator (σ α : Type) where
  gen : σ → α × σ
  state : σ

/-- `operator++` -/
def Iterator.incr (i : Iterator σ α) : Iterator σ α := { i with state := (i.gen i.state).2 }

/-- `operator*` -/
def Iterator.deref (i : Iterator σ α) : α := (i.gen i.state).1

/-- `operator==` -/
def Iterator.eq [DecidableEq σ] (i o : Iterator σ α) : Bool := decide (i.state = o.state)

def begin (g : Generator σ α) : Iterator σ α := ⟨g.gen, g.initial⟩

def end_ [Inhabited σ] (g : Generator σ α) : Iterator σ α := ⟨g.gen, default⟩

end Generator

def splitter (s : StringView) (d : UInt8) (reverse : Bool) : Generator StringView StringView :=
  ⟨fun s => split s d reverse, s⟩

/-! ## `split` -/

section
variable {p a b : StringView} {d : UInt8}

theorem find_append (h : d ∉ a) : find (a ++ d :: b) d = some a.length := by
  have ha : a.findIdx? (· == d) = none := by
    rw [List.findIdx?_eq_none_iff]
    intro x hx
    have hne : x ≠ d := fun heq => h (heq ▸ hx)
    simpa using hne
  simp [find, List.findIdx?_append, List.findIdx?_cons, ha]

theorem find_eq_none (h : d ∉ p) : find p d = none := by
  rw [find, List.findIdx?_eq_none_iff]
  intro x hx
  have hne : x ≠ d := fun heq => h (heq ▸ hx)
  simpa using hne

theorem rfind_eq (p : StringView) (d : UInt8) :
    rfind p d = (find p.reverse d).map (p.length - 1 - ·) := rfl

theorem rfind_append (h : d ∉ b) : rfind (a ++ d :: b) d = some a.length := by
  have hrev : (a ++ d :: b).reverse = b.reverse ++ d :: a.reverse := by simp
  have hb : d ∉ b.reverse := by simpa using h
  rw [rfind_eq, hrev, find_append hb, Option.map_some, Option.some.injEq]
  simp only [List.length_append, List.length_cons, List.length_reverse]
  omega

theorem rfind_eq_none (h : d ∉ p) : rfind p d = none := by
  have hp : d ∉ p.reverse := by simpa using h
  rw [rfind_eq, find_eq_none hp, Option.map_none]

theorem split_at : removeSuffix (a ++ d :: b) ((a ++ d :: b).length - a.length) = a ∧
    removePrefix (a ++ d :: b) (a.length + 1) = b := by
  constructor
  · have hlen : (a ++ d :: b).length - ((a ++ d :: b).length - a.length) = a.length := by
      simp only [List.length_append, List.length_cons]
      omega
    rw [removeSuffix, hlen, List.take_left]
  · have happ : a ++ d :: b = (a ++ [d]) ++ b := by simp
    have hlen : a.length + 1 = (a ++ [d]).length := by simp
    rw [removePrefix, happ, hlen, List.drop_left]

/-- Forward, the first delimiter splits. -/
theorem split_append (h : d ∉ a) : split (a ++ d :: b) d false = (a, b) := by
  have hsplit : split (a ++ d :: b) d false =
      (removeSuffix (a ++ d :: b) ((a ++ d :: b).length - a.length),
        removePrefix (a ++ d :: b) (a.length + 1)) := by
    simp only [split, find_append h, Bool.false_eq_true, if_false]
  rw [hsplit, split_at.1, split_at.2]

/-- In reverse, the last delimiter splits. -/
theorem split_reverse_append (h : d ∉ b) : split (a ++ d :: b) d true = (a, b) := by
  have hsplit : split (a ++ d :: b) d true =
      (removeSuffix (a ++ d :: b) ((a ++ d :: b).length - a.length),
        removePrefix (a ++ d :: b) (a.length + 1)) := by
    simp only [split, rfind_append h, if_true]
  rw [hsplit, split_at.1, split_at.2]

theorem split_not_mem (h : d ∉ p) : split p d false = (p, []) := by
  simp [split, find_eq_none h]

theorem split_reverse_not_mem (h : d ∉ p) : split p d true = ([], p) := by
  simp [split, rfind_eq_none h]

theorem exists_split (h : d ∈ p) : ∃ a b, p = a ++ d :: b ∧ d ∉ a :=
  List.eq_append_cons_of_mem h

theorem exists_split_reverse (h : d ∈ p) : ∃ a b, p = a ++ d :: b ∧ d ∉ b := by
  obtain ⟨b, a, hp, hb⟩ := exists_split (List.mem_reverse.2 h)
  refine ⟨a.reverse, b.reverse, ?_, by simpa using hb⟩
  rw [← List.reverse_reverse p, hp]
  simp

/-- A reverse `split` is a forward one of the reversed string. -/
theorem split_reverse_eq (p : StringView) (d : UInt8) :
    split p d true = ((split p.reverse d false).2.reverse, (split p.reverse d false).1.reverse) := by
  by_cases h : d ∈ p
  · obtain ⟨a, b, rfl, hb⟩ := exists_split_reverse h
    have hrev : (a ++ d :: b).reverse = b.reverse ++ d :: a.reverse := by simp
    have hb' : d ∉ b.reverse := by simpa using hb
    rw [split_reverse_append hb, hrev, split_append hb', List.reverse_reverse, List.reverse_reverse]
  · have h' : d ∉ p.reverse := by simpa using h
    rw [split_reverse_not_mem h, split_not_mem h', List.reverse_reverse, List.reverse_nil]

/-- `split` cuts at the first delimiter, in reverse at the last one. Without one, everything is in
front, in reverse behind. -/
theorem split_spec (p : StringView) (d : UInt8) :
    (d ∈ p → ∃ a b, split p d false = (a, b) ∧ p = a ++ [d] ++ b ∧ d ∉ a) ∧
    (d ∈ p → ∃ a b, split p d true = (a, b) ∧ p = a ++ [d] ++ b ∧ d ∉ b) ∧
    (d ∉ p → split p d false = (p, []) ∧ split p d true = ([], p)) ∧
    split p d true =
      ((split p.reverse d false).2.reverse, (split p.reverse d false).1.reverse) := by
  refine ⟨fun h => ?_, fun h => ?_, fun h => ?_, split_reverse_eq p d⟩
  · obtain ⟨a, b, rfl, ha⟩ := exists_split h
    exact ⟨a, b, split_append ha, by simp, ha⟩
  · obtain ⟨a, b, rfl, hb⟩ := exists_split_reverse h
    exact ⟨a, b, split_reverse_append hb, by simp, hb⟩
  · exact ⟨split_not_mem h, split_reverse_not_mem h⟩

end

/-! ## Iteration of a `splitter` -/

section
variable {d : UInt8} {reverse : Bool}

/-- The iterator of a splitter with state `s`. -/
def iter (d : UInt8) (reverse : Bool) (s : StringView) : Generator.Iterator StringView StringView :=
  (splitter s d reverse).begin

theorem incr_iter (s : StringView) :
    (iter d reverse s).incr = iter d reverse (split s d reverse).2 := rfl

theorem eq_end_iter {s t : StringView} :
    (iter d reverse s).eq (splitter t d reverse).end_ = true ↔ s = [] := by
  change decide (s = []) = true ↔ _
  simp

/-- A step of a forward splitter drops a delimiter, or everything. -/
theorem exists_iterate_eq_nil (s : StringView) :
    ∃ k ≤ s.count d + 1, Generator.Iterator.incr^[k] (iter d false s) = iter d false [] := by
  induction hn : s.count d generalizing s with
  | zero =>
    have hs : d ∉ s := List.count_eq_zero.1 hn
    refine ⟨1, Nat.le_refl _, ?_⟩
    rw [Function.iterate_one, incr_iter, split_not_mem hs]
  | succ n ih =>
    have hs : d ∈ s := List.count_pos_iff.1 (hn ▸ Nat.succ_pos n)
    obtain ⟨a, b, rfl, ha⟩ := exists_split hs
    have hb : b.count d = n := by
      simpa [List.count_eq_zero.2 ha] using hn
    obtain ⟨k, hk, hend⟩ := ih b hb
    refine ⟨k + 1, Nat.succ_le_succ hk, ?_⟩
    rw [Function.iterate_succ_apply, incr_iter, split_append ha]
    exact hend

/-- Without a delimiter, a reverse splitter stays where it is. -/
theorem iterate_reverse_not_mem {s : StringView} (h : d ∉ s) (k : Nat) :
    Generator.Iterator.incr^[k] (iter d true s) = iter d true s := by
  apply Function.iterate_fixed
  rw [incr_iter, split_reverse_not_mem h]

theorem iterate_reverse_append {a b : StringView} (h : d ∉ b) (k : Nat) :
    Generator.Iterator.incr^[k + 1] (iter d true (a ++ d :: b)) = iter d true b := by
  rw [Function.iterate_succ_apply, incr_iter, split_reverse_append h]
  exact iterate_reverse_not_mem h k

/-- The traversal of a splitter reaches its end within as many steps as there are fields. -/
def ReachesEnd (s : StringView) (d : UInt8) (reverse : Bool) : Prop :=
  ∃ k ≤ s.count d + 1, (Generator.Iterator.incr^[k] (splitter s d reverse).begin).eq
    (splitter s d reverse).end_ = true

theorem reachesEnd_forward (s : StringView) (d : UInt8) : ReachesEnd s d false := by
  obtain ⟨k, hk, hend⟩ := exists_iterate_eq_nil (d := d) s
  refine ⟨k, hk, ?_⟩
  change (Generator.Iterator.incr^[k] (iter d false s)).eq _ = true
  rw [hend]
  exact eq_end_iter.2 rfl

/-- A reverse splitter is at its end at once, after one step, or never. -/
theorem reachesEnd_reverse {s : StringView} :
    ReachesEnd s d true ↔ s = [] ∨ s.getLast? = some d := by
  by_cases hs : d ∈ s
  · obtain ⟨a, b, rfl, hb⟩ := exists_split_reverse hs
    have hlast : (a ++ d :: b).getLast? = some d ↔ b = [] := by
      cases b with
      | nil => simp
      | cons x b =>
        have heq : (a ++ d :: x :: b).getLast? = (x :: b).getLast? := by
          simp [List.getLast?_append, List.getLast?_cons]
        rw [heq]
        exact ⟨fun h => absurd (List.mem_of_getLast? h) hb, fun h => absurd h (by simp)⟩
    have hne : a ++ d :: b ≠ [] := by simp
    rw [hlast, or_iff_right hne]
    constructor
    · rintro ⟨k, -, hend⟩
      cases k with
      | zero => exact absurd (eq_end_iter.1 hend) hne
      | succ k =>
        change (Generator.Iterator.incr^[k + 1] (iter d true (a ++ d :: b))).eq _ = true at hend
        rw [iterate_reverse_append hb] at hend
        exact eq_end_iter.1 hend
    · rintro rfl
      refine ⟨0 + 1, by simp, ?_⟩
      change (Generator.Iterator.incr^[0 + 1] (iter d true (a ++ [d]))).eq _ = true
      rw [iterate_reverse_append List.not_mem_nil]
      exact eq_end_iter.2 rfl
  · have hlast : s.getLast? ≠ some d := fun h => hs (List.mem_of_getLast? h)
    rw [or_iff_left hlast]
    constructor
    · rintro ⟨k, -, hend⟩
      change (Generator.Iterator.incr^[k] (iter d true s)).eq _ = true at hend
      rw [iterate_reverse_not_mem hs] at hend
      exact eq_end_iter.1 hend
    · rintro rfl
      exact ⟨0, Nat.zero_le _, eq_end_iter.2 rfl⟩

end

theorem reachesEnd_iff (s : StringView) (d : UInt8) (reverse : Bool) :
    ReachesEnd s d reverse ↔ reverse = false ∨ s = [] ∨ s.getLast? = some d := by
  cases reverse with
  | false => simp [reachesEnd_forward]
  | true =>
    rw [reachesEnd_reverse]
    simp

/-- The string `a` without the delimiter `,`, split in reverse. -/
theorem not_reachesEnd : ¬ ReachesEnd [97] 44 true :=
  fun h => absurd (reachesEnd_reverse.1 h) (by decide)

end LlvmSc.Format

import Mathlib.Data.List.Basic
import Mathlib.Data.Nat.Basic
import Mathlib.Order.Basic
import Mathlib.Tactic.Common

/-!
# Positions in filtered and flattened lists

`List.findIdxNth` gives the position in `xs` of the `n`-th element of `xs.filter p`.
`List.flatLocate f cs n` gives, for the `n`-th element of `cs.flatMap f`, the position of its list
in `cs` and its position in that list; past the last element it gives `(cs.length, 0)`.
-/

namespace List

theorem getElem?_filter_eq (p : α → Bool) (xs : List α) (n : Nat) :
    (xs.filter p)[n]? = xs[xs.findIdxNth p n]? := by
  induction xs generalizing n with
  | nil => simp
  | cons x xs ih =>
    cases hx : p x with
    | false => simp [hx, findIdxNth_cons_of_neg hx, ih]
    | true =>
      cases n with
      | zero => simp [hx]
      | succ n => simp [hx, ih]

theorem countPBefore_add_one {p : α → Bool} {xs : List α} {i : Nat} {x : α} (h : xs[i]? = some x) :
    xs.countPBefore p (i + 1) = xs.countPBefore p i + (if p x then 1 else 0) := by
  have hi : i < xs.length := (List.getElem?_eq_some_iff.1 h).1
  rw [countPBefore_eq_countP_take, countPBefore_eq_countP_take, take_add_one, h, countP_append]
  simp [countP_cons]

/-! ### Flattened lists -/

/-- The position in `cs` of the list that holds the `n`-th element of `cs.flatMap f`, and the
position in that list. -/
def flatLocate (f : κ → List α) : List κ → Nat → Nat × Nat
  | [], _ => (0, 0)
  | c :: cs, n =>
    if n < (f c).length then (0, n)
    else
      let p := flatLocate f cs (n - (f c).length)
      (p.1 + 1, p.2)

/-- The number of elements of `cs.flatMap f` before the `i`-th list. -/
def flatOffset (f : κ → List α) (cs : List κ) (i : Nat) : Nat := ((cs.take i).flatMap f).length

variable {f : κ → List α} {cs : List κ} {i k n : Nat} {c : κ}

@[simp] theorem flatOffset_zero : flatOffset f cs 0 = 0 := by simp [flatOffset]

theorem flatOffset_length : flatOffset f cs cs.length = (cs.flatMap f).length := by
  simp [flatOffset]

theorem flatOffset_add_one (h : cs[i]? = some c) :
    flatOffset f cs (i + 1) = flatOffset f cs i + (f c).length := by
  simp [flatOffset, take_add_one, h]

theorem flatOffset_cons_succ : flatOffset f (c :: cs) (i + 1) = (f c).length + flatOffset f cs i := by
  simp [flatOffset]

theorem flatLocate_offset (h : cs[i]? = some c) (hk : k < (f c).length) :
    flatLocate f cs (flatOffset f cs i + k) = (i, k) := by
  induction cs generalizing i with
  | nil => simp at h
  | cons d cs ih =>
    cases i with
    | zero =>
      obtain rfl : d = c := by simpa using h
      simp [flatLocate, hk]
    | succ i =>
      have hlt : ¬ (f d).length + flatOffset f cs i + k < (f d).length := by omega
      have hsub : (f d).length + flatOffset f cs i + k - (f d).length = flatOffset f cs i + k := by
        omega
      rw [flatOffset_cons_succ, flatLocate, if_neg hlt, hsub, ih (by simpa using h)]

theorem flatLocate_length : flatLocate f cs (cs.flatMap f).length = (cs.length, 0) := by
  induction cs with
  | nil => rfl
  | cons d cs ih =>
    have hlt : ¬ (f d).length + (cs.flatMap f).length < (f d).length := by omega
    have hsub : (f d).length + (cs.flatMap f).length - (f d).length = (cs.flatMap f).length := by
      omega
    rw [flatMap_cons, length_append, flatLocate, if_neg hlt, hsub, ih]
    rfl

theorem flatLocate_spec (h : n < (cs.flatMap f).length) :
    ∃ c, cs[(flatLocate f cs n).1]? = some c ∧ (flatLocate f cs n).2 < (f c).length ∧
      n = flatOffset f cs (flatLocate f cs n).1 + (flatLocate f cs n).2 := by
  induction cs generalizing n with
  | nil => simp at h
  | cons d cs ih =>
    rw [flatMap_cons, length_append] at h
    by_cases hn : n < (f d).length
    · simp [flatLocate, hn]
    · obtain ⟨c, hc, hk, he⟩ := ih (n := n - (f d).length) (by omega)
      rw [flatLocate, if_neg hn]
      refine ⟨c, by simpa using hc, hk, ?_⟩
      dsimp only
      rw [flatOffset_cons_succ]
      omega

theorem getElem?_flatMap_offset (h : cs[i]? = some c) (hk : k < (f c).length) :
    (cs.flatMap f)[flatOffset f cs i + k]? = (f c)[k]? := by
  obtain ⟨hi, rfl⟩ := List.getElem?_eq_some_iff.1 h
  have hsplit : cs = cs.take i ++ cs[i] :: cs.drop (i + 1) := by simp
  have hlen : flatOffset f cs i = ((cs.take i).flatMap f).length := rfl
  calc (cs.flatMap f)[flatOffset f cs i + k]?
      = ((cs.take i).flatMap f ++ (f cs[i] ++ (cs.drop (i + 1)).flatMap f))[flatOffset f cs i + k]? := by
        conv_lhs => rw [hsplit, flatMap_append, flatMap_cons]
        simp [flatOffset]
    _ = (f cs[i] ++ (cs.drop (i + 1)).flatMap f)[k]? := by
        rw [hlen, getElem?_append_right (by omega)]
        simp
    _ = (f cs[i])[k]? := getElem?_append_left hk

theorem flatOffset_add_lt (h : cs[i]? = some c) (hk : k < (f c).length) :
    flatOffset f cs i + k < (cs.flatMap f).length := by
  have hx := getElem?_flatMap_offset h hk
  rw [List.getElem?_eq_getElem hk] at hx
  exact (List.getElem?_eq_some_iff.1 hx).1

end List

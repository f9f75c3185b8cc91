import LlvmSc.Format
import LlvmSc.Lib.RangeFor
import LlvmSc.Lib.Split

/-!
# What a splitter yields

A forward `splitter` yields the fields of its string, without the last one if that is empty: the
empty string that is left then is the end.
-/

namespace LlvmSc.Format

namespace Generator

/-- What a loop uses of the iterators; none of the operations fails. -/
def cursor [DecidableEq σ] (last : Iterator σ α) : Cursor Unit Empty (Iterator σ α) α where
  atEnd it := pure (it.eq last)
  deref it := pure it.deref
  incr it := pure it.incr

/-- The values that a loop over the generator sees. -/
def values [DecidableEq σ] [Inhabited σ] (g : Generator σ α) : Comp Unit (List α × Empty) (List α) :=
  (cursor g.end_).rangeFor g.begin []

end Generator

/-- The fields of the string, without the last one if that is empty. -/
def fieldsButEmptyLast (s : StringView) (d : UInt8) : List StringView :=
  if (s.splitOn d).getLast? = some [] then (s.splitOn d).dropLast else s.splitOn d

section
variable {s a b : StringView} {d : UInt8}

theorem fieldsButEmptyLast_nil : fieldsButEmptyLast [] d = [] := rfl

theorem fieldsButEmptyLast_not_mem (h : d ∉ s) (hs : s ≠ []) : fieldsButEmptyLast s d = [s] := by
  rw [fieldsButEmptyLast, List.splitOn_eq_singleton h]
  simp [hs]

theorem fieldsButEmptyLast_append (h : d ∉ a) :
    fieldsButEmptyLast (a ++ d :: b) d = a :: fieldsButEmptyLast b d := by
  obtain ⟨f, fs, hb⟩ := List.exists_cons_of_ne_nil (List.splitOn_ne_nil d b)
  rw [fieldsButEmptyLast, fieldsButEmptyLast, List.splitOn_append_cons_self_of_not_mem h, hb,
    List.getLast?_cons_cons, List.dropLast_cons_cons]
  split
  · rfl
  · rfl

end

section
variable {s t : StringView} {d : UInt8} {seen : List StringView}

theorem atEnd_yields (s t : StringView) (d : UInt8) :
    ((Generator.cursor (splitter t d false).end_).atEnd (iter d false s)).Yields ()
      (.done (decide (s = [])) ()) :=
  Comp.yields_pure _ ()

theorem values_end : ((Generator.cursor (splitter t d false).end_).rangeFor (iter d false [])
    seen).Yields () (.done seen ()) :=
  Cursor.rangeFor_end (atEnd_yields [] t d)

/-- A turn of the loop sees what `split` puts in front, and goes on with what is behind. -/
theorem values_next (hs : s ≠ [])
    (k : ((Generator.cursor (splitter t d false).end_).rangeFor (iter d false (split s d false).2)
      (seen ++ [(split s d false).1])).Yields () o) :
    ((Generator.cursor (splitter t d false).end_).rangeFor (iter d false s) seen).Yields () o := by
  have hend := atEnd_yields s t d
  rw [decide_eq_false hs] at hend
  exact Cursor.rangeFor_next hend (Comp.yields_pure _ ()) (Comp.yields_pure _ ()) k

theorem values_yields (s t : StringView) (d : UInt8) (seen : List StringView) :
    ((Generator.cursor (splitter t d false).end_).rangeFor (iter d false s) seen).Yields ()
      (.done (seen ++ fieldsButEmptyLast s d) ()) := by
  induction hn : s.count d generalizing s seen with
  | zero =>
    have hd : d ∉ s := List.count_eq_zero.1 hn
    rcases eq_or_ne s [] with rfl | hs
    · rw [fieldsButEmptyLast_nil, List.append_nil]
      exact values_end
    · rw [fieldsButEmptyLast_not_mem hd hs]
      refine values_next hs ?_
      rw [split_not_mem hd]
      exact values_end
  | succ n ih =>
    have hd : d ∈ s := List.count_pos_iff.1 (hn ▸ Nat.succ_pos n)
    obtain ⟨a, b, rfl, ha⟩ := exists_split hd
    have hb : b.count d = n := by
      simpa [List.count_eq_zero.2 ha] using hn
    have hne : a ++ d :: b ≠ [] := by simp
    have hrest := ih b (seen ++ [a]) hb
    rw [List.append_assoc, List.singleton_append] at hrest
    refine values_next hne ?_
    rw [fieldsButEmptyLast_append ha, split_append ha]
    exact hrest

end

/-- A loop over a forward splitter sees the fields in order, without the last one if that is empty. -/
theorem values_splitter (s : StringView) (d : UInt8) :
    (splitter s d false).values.Yields () (.done (fieldsButEmptyLast s d) ()) :=
  values_yields s s d []

end LlvmSc.Format

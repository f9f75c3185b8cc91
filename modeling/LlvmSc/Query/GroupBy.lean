import LlvmSc.Query.Pipeline
import Mathlib.Order.Std

/-!
# `groupBy`

`groupBy` pushes the elements one after the other to the vectors of a map, which it default-inserts on
the way. For every pipeline the map is a stable partition of the elements by their keys
(`groupBy_yields`).
-/

namespace List

/-- The classes of a list that meet it, one after the other, are a permutation of it. -/
theorem flatMap_filter_perm [DecidableEq κ] {fn : α → κ} {ks : List κ} {xs : List α}
    (hks : ks.Nodup) (hxs : ∀ x ∈ xs, fn x ∈ ks) :
    (ks.flatMap fun k => xs.filter (fn · = k)).Perm xs := by
  induction ks generalizing xs with
  | nil =>
    cases xs with
    | nil => exact .nil
    | cons x xs => exact absurd (hxs x mem_cons_self) not_mem_nil
  | cons k ks ih =>
    obtain ⟨hk, hks⟩ := nodup_cons.mp hks
    -- the elements of the other classes are those whose key is not `k`
    have hrest : (ks.flatMap fun j => xs.filter (fn · = j)) =
        ks.flatMap fun j => (xs.filter (fn · ≠ k)).filter (fn · = j) := by
      refine flatMap_congr fun j hj => ?_
      rw [filter_filter]
      refine filter_congr fun x _ => ?_
      have hjk : j ≠ k := fun h => hk (h ▸ hj)
      by_cases hx : fn x = j
      · simp [hx, hjk]
      · simp [hx]
    have hmem : ∀ x ∈ xs.filter (fn · ≠ k), fn x ∈ ks := by
      intro x hx
      obtain ⟨hx, hne⟩ := mem_filter.mp hx
      exact (mem_cons.mp (hxs x hx)).resolve_left (of_decide_eq_true hne)
    rw [flatMap_cons, hrest]
    refine ((ih hks hmem).append_left _).trans ?_
    simpa using filter_append_perm (fn · = k) xs

end List

namespace LlvmSc

variable {κ ρ α : Type} [LinearOrder κ]

/-- `std::map`, ordered by `operator<` of its keys. -/
abbrev StdMap (κ ν : Type) [LinearOrder κ] := Std.TreeMap κ ν

namespace Query

/-- `map[ fn( a ) ].push_back( a )`; `operator[]` inserts an empty vector where there is none. -/
def groupStep (fn : α → κ) (map : StdMap κ (List α)) (a : α) : StdMap κ (List α) :=
  (map.insertIfNew (fn a) []).modify (fn a) (· ++ [a])

def groupBy (R : RangeOps ρ α) (fn : α → κ) (this : Ref (Query ρ)) :
    M (Query (StdMap κ (List α))) := do
  let first ← R.begin (this.field 0 range)
  let last ← R.end_ (this.field 0 range)
  pure ⟨← forLoop R (groupStep fn) first last ∅⟩

/-- What a map of groups is to a list and a key function. -/
structure StablePartition (fn : α → κ) (xs : List α) (map : StdMap κ (List α)) : Prop where
  keys : ∀ k : κ, k ∈ map ↔ ∃ x ∈ xs, fn x = k
  group : ∀ k ∈ map, map[k]? = some (xs.filter (fn · = k))
  nonempty : ∀ k : κ, map[k]? ≠ some []
  perm : (map.toList.flatMap Prod.snd).Perm xs

section
variable {fn : α → κ} {xs : List α} {map : StdMap κ (List α)} {a : α}

/-- The map after the elements `xs`: the groups of the keys that they have. -/
def Groups (fn : α → κ) (xs : List α) (map : StdMap κ (List α)) : Prop :=
  ∀ k : κ, map[k]? = if xs.filter (fn · = k) = [] then none else some (xs.filter (fn · = k))

theorem Groups.nil : Groups fn [] ∅ := fun _ => by simp

theorem Groups.mem_iff (h : Groups fn xs map) {k : κ} :
    k ∈ map ↔ xs.filter (fn · = k) ≠ [] := by
  rw [Std.TreeMap.mem_iff_isSome_getElem?, h k]
  by_cases hxs : xs.filter (fn · = k) = []
  · simp [hxs]
  · simp [hxs]

/-- `map[ k ]` is the group of `k`, which is empty where `operator[]` inserts it. -/
theorem Groups.at_key (h : Groups fn xs map) (k : κ) :
    (map.insertIfNew k [])[k]? = some (xs.filter (fn · = k)) := by
  rw [Std.TreeMap.getElem?_insertIfNew]
  by_cases hk : k ∈ map
  · rw [if_neg fun h => h.2 hk, h k, if_neg (h.mem_iff.mp hk)]
  · have hnil := not_not.mp (mt h.mem_iff.mpr hk)
    rw [if_pos ⟨Std.ReflCmp.compare_self, hk⟩, hnil]

theorem Groups.step (h : Groups fn xs map) (a : α) :
    Groups fn (xs ++ [a]) (groupStep fn map a) := by
  intro k
  rw [groupStep, Std.TreeMap.getElem?_modify, List.filter_append]
  by_cases hk : fn a = k
  · rw [if_pos (Std.LawfulEqCmp.compare_eq_iff_eq.mpr hk), hk, h.at_key k]
    simp [hk]
  · have hne : compare (fn a) k ≠ .eq := mt Std.LawfulEqCmp.compare_eq_iff_eq.mp hk
    rw [if_neg hne, Std.TreeMap.getElem?_insertIfNew, if_neg fun h => hne h.1, h k]
    simp [hk]

theorem Groups.foldl {pre : List α} (h : Groups fn pre map) :
    Groups fn (pre ++ xs) (xs.foldl (groupStep fn) map) := by
  induction xs generalizing pre map with
  | nil => simpa using h
  | cons x xs ih => simpa using ih (h.step x)

theorem Groups.group (h : Groups fn xs map) {k : κ} (hk : k ∈ map) :
    map[k]? = some (xs.filter (fn · = k)) := by
  rw [h k, if_neg (h.mem_iff.mp hk)]

theorem Groups.keys (h : Groups fn xs map) (k : κ) : k ∈ map ↔ ∃ x ∈ xs, fn x = k := by
  simp [h.mem_iff]

theorem Groups.perm (h : Groups fn xs map) : (map.toList.flatMap Prod.snd).Perm xs := by
  have hgroups : map.toList.flatMap Prod.snd =
      (map.toList.map Prod.fst).flatMap fun k => xs.filter (fn · = k) := by
    rw [List.flatMap_map]
    refine List.flatMap_congr fun ⟨k, group⟩ hmem => ?_
    have hgroup := Std.TreeMap.mem_toList_iff_getElem?_eq_some.mp hmem
    have hk : k ∈ map := Std.TreeMap.mem_iff_isSome_getElem?.mpr (by rw [hgroup]; rfl)
    exact Option.some.inj (hgroup.symm.trans (h.group hk))
  rw [hgroups]
  refine List.flatMap_filter_perm ?_ fun x hx => ?_
  · rw [Std.TreeMap.map_fst_toList_eq_keys]
    exact Std.TreeMap.nodup_keys
  · rw [Std.TreeMap.map_fst_toList_eq_keys, Std.TreeMap.mem_keys]
    exact (h.keys _).mpr ⟨x, hx, rfl⟩

theorem Groups.stablePartition (h : Groups fn xs map) : StablePartition fn xs map where
  keys := h.keys
  group _ hk := h.group hk
  nonempty k hk := by
    by_cases hxs : xs.filter (fn · = k) = []
    · rw [h k, if_pos hxs] at hk
      cases hk
    · rw [h k, if_neg hxs] at hk
      exact hxs (Option.some.inj hk)
  perm := h.perm

end

/-- `groupBy` stops without a fault, and its map is a stable partition of the elements by their
keys, for every pipeline and every key function. -/
theorem groupBy_yields (R : RangeType ρ α) (fn : α → κ) (this : Ref (Query ρ)) (w : World) :
    ∃ map w', (groupBy R.ops fn this).Yields w (.done ⟨map⟩ w') ∧
      StablePartition fn (this.val.elems R) map := by
  have h := R.spec_sound
  have hav : Old (fun _ => False) w.next := fun _ h => h.elim
  have hens : (groupBy R.ops fn this).Ensures
      (fun q _ => Groups fn (this.val.elems R) q.range) w := by
    refine (h.begin_ens hav).bind fun first w₁ ⟨hw₁, hat⟩ => ?_
    refine h.end_ens.bind fun last w₂ ⟨hw₂, hlast⟩ => ?_
    subst hw₂
    refine (h.forLoop_ens (hav.mono hw₁) hat hlast).bind fun map w₃ hmap => ?_
    refine Comp.wp_pure ?_
    rw [hmap, RangeType.spec_elems]
    exact Groups.nil.foldl
  obtain ⟨⟨map⟩, w', hyields, hgroups⟩ := hens.yields
  exact ⟨map, w', hyields, hgroups.stablePartition⟩

end Query

end LlvmSc

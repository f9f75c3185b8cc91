import LlvmSc.Lib.Order
import LlvmSc.Query.GroupBy

/-!
# Sorting by groups

`groupBy` puts elements into the groups of a map, and `concatMap` of the groups puts them one after
the other again. For every pipeline this is a stable sort by the key (`sorted_yields`).
-/

namespace LlvmSc

variable {κ ρ α : Type} [LinearOrder κ]

/-- Iteration over the entries of a map. -/
def StdMap.ops (κ ν : Type) [LinearOrder κ] : RangeOps (StdMap κ ν) (κ × ν) :=
  containerOps Ref.addr Std.TreeMap.toList

def StdMap.spec (κ ν : Type) [LinearOrder κ] : RangeSpec (StdMap.ops κ ν) :=
  containerSpec Ref.addr Std.TreeMap.toList id

theorem StdMap.spec_sound : (StdMap.spec κ ν).Sound :=
  containerSpec_sound (fun _ _ _ => rfl) rfl

namespace Query

/-- `query.groupBy( fn ).concatMap( []( auto &group ) { return group.second; } ).freeze()`, where
`addr` is the identity of the query that is frozen. -/
def sorted (R : RangeOps ρ α) (fn : α → κ) (this : Ref (Query ρ)) (addr : Addr) : M (List α) := do
  let groups ← groupBy R fn this
  freeze (Flatten.ops (Map.ops (StdMap.ops κ (List α)) (List α)) (vectorOps α))
    ⟨addr, groups.concatMap Prod.snd⟩

/-- `freeze` of any range. -/
theorem freeze_elems {R : RangeOps ρ α} {S : RangeSpec R} (h : S.Sound) (this : Ref (Query ρ))
    (w : World) : (freeze R this).Ensures (fun out _ => out = S.elems this.val.range) w := by
  have hav : Old (fun _ => False) w.next := fun _ h => h.elim
  refine (h.begin_ens hav).bind fun first w₁ ⟨hw₁, hat⟩ => ?_
  refine h.end_ens.bind fun last w₂ ⟨hw₂, hlast⟩ => ?_
  subst hw₂
  exact h.copy_ens (hav.mono hw₁) hat hlast

/-- The groups of a map, one after the other. -/
theorem StablePartition.flatMap_eq {fn : α → κ} {xs : List α} {map : StdMap κ (List α)}
    (h : StablePartition fn xs map) :
    map.toList.flatMap Prod.snd = xs.mergeSort (List.keyLe fn) := by
  have hgroups : map.toList.flatMap Prod.snd = map.keys.flatMap fun k => xs.filter (fn · = k) := by
    rw [← Std.TreeMap.map_fst_toList_eq_keys, List.flatMap_map]
    refine List.flatMap_congr fun ⟨k, group⟩ hmem => ?_
    have hgroup := Std.TreeMap.mem_toList_iff_getElem?_eq_some.mp hmem
    have hk : k ∈ map := Std.TreeMap.mem_iff_isSome_getElem?.mpr (by rw [hgroup]; rfl)
    exact Option.some.inj (hgroup.symm.trans (h.group k hk))
  have hordered : map.keys.Pairwise (· < ·) :=
    Std.TreeMap.ordered_keys.imp fun hlt => compare_lt_iff_lt.mp hlt
  rw [hgroups]
  refine List.flatMap_classes hordered fun x hx => ?_
  exact Std.TreeMap.mem_keys.mpr ((h.keys (fn x)).mpr ⟨x, hx, rfl⟩)

/-- The groups one after the other are the elements, stably sorted by their keys, for every pipeline
and every key function. -/
theorem sorted_yields (R : RangeType ρ α) (fn : α → κ) (this : Ref (Query ρ)) (addr : Addr)
    (w : World) : ∃ w', (sorted R.ops fn this addr).Yields w
      (.done ((this.val.elems R).mergeSort (List.keyLe fn)) w') := by
  obtain ⟨map, w₁, hgroups, hpartition⟩ := groupBy_yields R fn this w
  have h := Flatten.spec_sound (Map.spec_sound (StdMap.spec_sound (κ := κ) (ν := List α)) (List α))
    (RangeType.vector α).spec_sound
  obtain ⟨out, w₂, hfreeze, rfl⟩ := (freeze_elems h ⟨addr, concatMap ⟨map⟩ Prod.snd⟩ w₁).yields
  refine ⟨w₂, hgroups.bind ?_⟩
  rw [← hpartition.flatMap_eq]
  have helems :
      (Flatten.spec (Map.spec (StdMap.spec κ (List α)) (List α)) (RangeType.vector α).spec).elems
        (concatMap (⟨map⟩ : Query (StdMap κ (List α))) Prod.snd).range =
      map.toList.flatMap Prod.snd := by
    change (map.toList.map Prod.snd).flatMap id = _
    rw [List.flatMap_map]
    rfl
  rw [← helems]
  exact hfreeze

end Query
end LlvmSc

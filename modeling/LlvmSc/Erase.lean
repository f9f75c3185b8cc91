import Mathlib.Data.List.Nodup
import Mathlib.Logic.Function.Basic

/-!
# Deferred erasure

The destructor of `deferred_erase` erases an instruction and calls the deleter. A `std::vector` also
destroys its elements when it grows, after it has copied them to a larger buffer, so
`deferred_erase_vector` erases early as soon as it outgrows its first buffer.
-/

namespace LlvmSc.Erase

variable {ι : Type} [DecidableEq ι]

/-- What happens to an instruction. -/
inductive Event (ι : Type) where
  /-- `inst->eraseFromParent()` -/
  | erased (inst : ι)
  /-- `del( inst )` -/
  | deleted (inst : ι)
deriving DecidableEq

/-- Which instructions have a parent, and what has happened so far. -/
structure World (ι : Type) where
  hasParent : ι → Bool
  log : List (Event ι)

structure DeferredErase (ι : Type) where
  inst : ι

def World.eraseFromParent (w : World ι) (i : ι) : World ι :=
  { hasParent := Function.update w.hasParent i false, log := w.log ++ [.erased i] }

def World.del (w : World ι) (i : ι) : World ι := { w with log := w.log ++ [.deleted i] }

/-- `~deferred_erase` -/
def DeferredErase.destroy (w : World ι) (e : DeferredErase ι) : World ι :=
  (if w.hasParent e.inst then w.eraseFromParent e.inst else w).del e.inst

/-- Destroy the elements of a buffer. -/
def destroyAll (w : World ι) (es : List (DeferredErase ι)) : World ι :=
  es.foldl DeferredErase.destroy w

structure DeferredEraseVector (ι : Type) where
  data : List (DeferredErase ι)
  capacity : Nat

namespace DeferredEraseVector

def empty : DeferredEraseVector ι := ⟨[], 0⟩

/-- `push`: a full vector of capacity `n` moves to a buffer of capacity `grow n`. The elements are
copied, and those in the old buffer are destroyed. -/
def push (grow : Nat → Nat) (s : DeferredEraseVector ι × World ι) (i : ι) :
    DeferredEraseVector ι × World ι :=
  let (v, w) := s
  if v.data.length < v.capacity then ({ v with data := v.data ++ [⟨i⟩] }, w)
  else (⟨v.data ++ [⟨i⟩], grow v.capacity⟩, destroyAll w v.data)

def pushAll (grow : Nat → Nat) (s : DeferredEraseVector ι × World ι) (is : List ι) :
    DeferredEraseVector ι × World ι :=
  is.foldl (push grow) s

/-- `~deferred_erase_vector` -/
def destroy (s : DeferredEraseVector ι × World ι) : World ι := destroyAll s.2 s.1.data

end DeferredEraseVector

open DeferredEraseVector

/-! ## Destruction of a buffer -/

section
variable {w : World ι} {i j : ι} {es : List (DeferredErase ι)}

/-- What the destructor adds to the log. -/
def events (w : World ι) (i : ι) : List (Event ι) :=
  if w.hasParent i then [.erased i, .deleted i] else [.deleted i]

theorem destroy_log (w : World ι) (e : DeferredErase ι) :
    (e.destroy w).log = w.log ++ events w e.inst := by
  unfold DeferredErase.destroy events
  split <;> simp [World.del, World.eraseFromParent]

theorem destroy_hasParent_ne (w : World ι) {e : DeferredErase ι} (h : i ≠ e.inst) :
    (e.destroy w).hasParent i = w.hasParent i := by
  unfold DeferredErase.destroy
  split <;> simp [World.del, World.eraseFromParent, h]

/-- Distinct instructions do not interfere. -/
theorem destroyAll_log {is : List ι} (h : is.Nodup) :
    (destroyAll w (is.map .mk)).log = w.log ++ is.flatMap (events w) := by
  induction is generalizing w with
  | nil => simp [destroyAll]
  | cons i is ih =>
    obtain ⟨hi, his⟩ := List.nodup_cons.1 h
    have hsame : is.flatMap (events (DeferredErase.destroy w ⟨i⟩)) = is.flatMap (events w) := by
      apply List.flatMap_congr
      intro j hj
      have hji : j ≠ i := fun heq => hi (heq ▸ hj)
      unfold events
      rw [destroy_hasParent_ne w (e := ⟨i⟩) hji]
    change (destroyAll (DeferredErase.destroy w ⟨i⟩) (is.map .mk)).log = _
    rw [ih his, hsame, destroy_log, List.flatMap_cons, List.append_assoc]

theorem log_destroyAll : w.log <+: (destroyAll w es).log := by
  induction es generalizing w with
  | nil => exact List.prefix_rfl
  | cons e es ih =>
    have he : w.log <+: (e.destroy w).log := by
      rw [destroy_log]
      exact List.prefix_append ..
    exact he.trans ih

/-- A destruction can be seen in the log. -/
theorem deleted_mem_destroyAll (h : e ∈ es) : .deleted e.inst ∈ (destroyAll w es).log := by
  induction es generalizing w with
  | nil => cases h
  | cons e' es ih =>
    cases List.mem_cons.1 h with
    | inl heq =>
      refine (log_destroyAll (w := e'.destroy w)).subset ?_
      rw [destroy_log, heq]
      unfold events
      split <;> simp
    | inr hmem => exact ih hmem

/-- The events of an instruction, counted over distinct instructions. -/
theorem count_events {is : List ι} {ev : Event ι} (h : is.Nodup) (hi : i ∈ is)
    (hev : ∀ j, j ≠ i → ev ∉ events w j) :
    (is.flatMap (events w)).count ev = (events w i).count ev := by
  induction is with
  | nil => cases hi
  | cons j is ih =>
    obtain ⟨hj, his⟩ := List.nodup_cons.1 h
    rw [List.flatMap_cons, List.count_append]
    cases List.mem_cons.1 hi with
    | inl heq =>
      subst heq
      have hrest : ev ∉ is.flatMap (events w) := by
        rw [List.mem_flatMap]
        rintro ⟨k, hk, hmem⟩
        exact hev k (fun heq => hj (heq ▸ hk)) hmem
      rw [List.count_eq_zero.2 hrest, Nat.add_zero]
    | inr hmem =>
      have hne : j ≠ i := fun heq => hj (heq ▸ hmem)
      rw [List.count_eq_zero.2 (hev j hne), Nat.zero_add, ih his hmem]

theorem count_erased : (events w i).count (.erased i) = if w.hasParent i then 1 else 0 := by
  unfold events
  split <;> simp

theorem count_deleted : (events w i).count (.deleted i) = 1 := by
  unfold events
  split <;> simp

omit [DecidableEq ι] in
theorem notMem_events (h : j ≠ i) : .erased i ∉ events w j ∧ .deleted i ∉ events w j := by
  unfold events
  split <;> simp [h.symm]

end

/-! ## Pushes -/

section
variable {grow : Nat → Nat} {v : DeferredEraseVector ι} {w : World ι} {i : ι} {is : List ι}

theorem push_of_lt (h : v.data.length < v.capacity) :
    push grow (v, w) i = ({ v with data := v.data ++ [⟨i⟩] }, w) := by
  simp [push, h]

theorem push_of_full (h : v.data.length = v.capacity) :
    push grow (v, w) i = (⟨v.data ++ [⟨i⟩], grow v.capacity⟩, destroyAll w v.data) := by
  simp [push, h]

theorem log_push {s : DeferredEraseVector ι × World ι} : s.2.log <+: (push grow s i).2.log := by
  obtain ⟨v, w⟩ := s
  unfold push
  dsimp only
  split
  · exact List.prefix_rfl
  · exact log_destroyAll

theorem log_pushAll {s : DeferredEraseVector ι × World ι} :
    s.2.log <+: (pushAll grow s is).2.log := by
  induction is generalizing s with
  | nil => exact List.prefix_rfl
  | cons i is ih => exact log_push.trans ih

/-- Pushes that fit in the buffer do nothing else. -/
theorem pushAll_of_le (h : v.data.length + is.length ≤ v.capacity) :
    pushAll grow (v, w) is = ({ v with data := v.data ++ is.map .mk }, w) := by
  induction is generalizing v with
  | nil => simp [pushAll]
  | cons i is ih =>
    rw [List.length_cons] at h
    have hlt : v.data.length < v.capacity := by omega
    have hstep : pushAll grow (v, w) (i :: is) = pushAll grow (push grow (v, w) i) is := rfl
    rw [hstep, push_of_lt hlt, ih]
    · simp
    · change (v.data ++ [DeferredErase.mk i]).length + is.length ≤ v.capacity
      rw [List.length_append, List.length_singleton]
      omega

/-- The first buffer takes the first `grow 0` instructions. -/
theorem pushAll_empty_of_le (h : is.length ≤ grow 0) :
    pushAll grow (empty, w) is =
      (⟨is.map .mk, if is = [] then 0 else grow 0⟩, w) := by
  cases is with
  | nil => rfl
  | cons i is =>
    have hpush : push grow (empty, w) i = (⟨[⟨i⟩], grow 0⟩, w) := push_of_full rfl
    change pushAll grow (push grow (empty, w) i) is = _
    rw [hpush, pushAll_of_le]
    · simp
    · change [DeferredErase.mk i].length + is.length ≤ grow 0
      rw [List.length_cons] at h
      rw [List.length_singleton]
      omega

end

/-! ## When erasure is deferred -/

/-- No instruction is erased or deleted while `is` are pushed on an empty vector, and when that is
destroyed, each one that then has a parent is erased once and each one is deleted once. -/
structure Deferred (grow : Nat → Nat) (hasParent : ι → Bool) (is : List ι) : Prop where
  before : ∀ i ∈ is, .erased i ∉ (pushAll grow (empty, ⟨hasParent, []⟩) is).2.log ∧
    .deleted i ∉ (pushAll grow (empty, ⟨hasParent, []⟩) is).2.log
  erased : ∀ i ∈ is, (destroy (pushAll grow (empty, ⟨hasParent, []⟩) is)).log.count (.erased i) =
    if (pushAll grow (empty, ⟨hasParent, []⟩) is).2.hasParent i then 1 else 0
  deleted : ∀ i ∈ is, (destroy (pushAll grow (empty, ⟨hasParent, []⟩) is)).log.count (.deleted i) = 1

section
variable {grow : Nat → Nat} {hasParent : ι → Bool} {is : List ι}

theorem Deferred.of_le (hnodup : is.Nodup) (h : is.length ≤ grow 0) :
    Deferred grow hasParent is := by
  have hpush := pushAll_empty_of_le (w := ⟨hasParent, []⟩) h
  have hlog : (destroy (pushAll grow (empty, ⟨hasParent, []⟩) is)).log =
      is.flatMap (events ⟨hasParent, []⟩) := by
    rw [hpush]
    change (destroyAll _ (is.map .mk)).log = _
    rw [destroyAll_log hnodup, List.nil_append]
  refine ⟨?_, ?_, ?_⟩
  · intro i _
    simp [hpush]
  · intro i hi
    rw [hlog, count_events hnodup hi fun j hj => (notMem_events hj).1, count_erased, hpush]
  · intro i hi
    rw [hlog, count_events hnodup hi fun j hj => (notMem_events hj).2, count_deleted]

/-- The push behind the first `grow 0` destroys them. -/
theorem not_deferred_of_lt (hgrow : 0 < grow 0) (h : grow 0 < is.length) :
    ¬ Deferred grow hasParent is := by
  intro hdef
  obtain ⟨i, rest, hdrop⟩ := List.exists_cons_of_length_pos (l := is.drop (grow 0))
    (by rw [List.length_drop]; omega)
  have his : is = is.take (grow 0) ++ i :: rest := by rw [← hdrop, List.take_append_drop]
  obtain ⟨j, first, hfirst⟩ := List.exists_cons_of_length_pos (l := is.take (grow 0))
    (by rw [List.length_take]; omega)
  have hlen : (is.take (grow 0)).length = grow 0 := by
    rw [List.length_take]
    omega
  have hpush := pushAll_empty_of_le (w := ⟨hasParent, []⟩) (Nat.le_of_eq hlen)
  rw [if_neg (by simp [hfirst])] at hpush
  have hmem : .deleted j ∈ (pushAll grow (empty, ⟨hasParent, []⟩) is).2.log := by
    have hsplit : pushAll grow (empty, ⟨hasParent, []⟩) is = pushAll grow (push grow
        (pushAll grow (empty, ⟨hasParent, []⟩) (is.take (grow 0))) i) rest := by
      conv_lhs => rw [his]
      simp [pushAll]
    rw [hsplit]
    refine log_pushAll.subset ?_
    rw [hpush, push_of_full (by simpa using hlen)]
    exact deleted_mem_destroyAll (e := ⟨j⟩) (by simp [hfirst])
  have hj : j ∈ is := List.mem_of_mem_take (i := grow 0) (by simp [hfirst])
  exact (hdef.before j hj).2 hmem

end

theorem deferred_iff (grow : Nat → Nat) (hgrow : ∀ n, n < grow n) (hasParent : ι → Bool)
    (is : List ι) (hnodup : is.Nodup) : Deferred grow hasParent is ↔ is.length ≤ grow 0 := by
  constructor
  · intro h
    by_contra hlt
    exact not_deferred_of_lt (hgrow 0) (Nat.lt_of_not_le hlt) h
  · exact .of_le hnodup

/-- A buffer that starts with room for `first` elements and doubles. -/
def doubling (first n : Nat) : Nat := max first (2 * n)

theorem lt_doubling {first : Nat} (h : 0 < first) (n : Nat) : n < doubling first n := by
  unfold doubling
  omega

/-- Three instructions, one of them without a parent, in a buffer for four. -/
theorem deferred_doubling : Deferred (doubling 4) (fun i => i ≠ 1) [0, 1, 2] :=
  (deferred_iff (doubling 4) (lt_doubling (by decide)) _ [0, 1, 2] (by decide)).2 (by decide)

theorem not_deferred : ¬ Deferred (doubling 1) (fun _ : Nat => true) [0, 1] :=
  not_deferred_of_lt (by decide) (by decide)

end LlvmSc.Erase

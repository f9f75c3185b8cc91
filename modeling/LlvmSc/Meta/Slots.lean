import Mathlib.Data.List.Induction
import Mathlib.Data.List.OfFn
import LlvmSc.Meta.Basic

/-!
# What metadata stands for

The tuples of different objects and tags are different, so a replaced operand changes the contents of
one of them only (`Tuples`). `Slots` is the interface as a store of texts: one for each object and
tag, and a row of texts for each function some argument of which has been set. `Represents` relates
the tuples to it.
-/

namespace LlvmSc.Meta

/-! ## Distinct tuples -/

/-- What the attached tuples contain; those of different objects and tags are different. -/
structure Tuples (s : Store) (f : Object × Tag → Option (List Metadata)) : Prop where
  content : ∀ k, ((s.attached k).bind fun n => s.heap[n]?) = f k
  live : ∀ {k n}, s.attached k = some n → n < s.heap.length
  distinct : ∀ {k k' n}, s.attached k = some n → s.attached k' = some n → k = k'

namespace Tuples

variable {s : Store} {f : Object × Tag → Option (List Metadata)} {k : Object × Tag}
  {ops : List Metadata}

theorem fresh (heap : List (List Metadata)) : Tuples (fresh heap) fun _ => none where
  content _ := rfl
  live h := by cases h
  distinct h := by cases h

theorem attached_none (h : Tuples s f) (hk : f k = none) : s.attached k = none := by
  cases hn : s.attached k with
  | none => rfl
  | some n =>
    have hcontent := h.content k
    rw [hn, hk, Option.bind_some, List.getElem?_eq_getElem (h.live hn)] at hcontent
    cases hcontent

theorem attached_some (h : Tuples s f) (hk : f k = some ops) :
    ∃ n, s.attached k = some n ∧ s.heap[n]? = some ops :=
  Option.bind_eq_some_iff.1 ((h.content k).trans hk)

/-- The number of a new tuple is the number of no other one. -/
theorem attach (h : Tuples s f) (o : Object) (t : Tag) (ops : List Metadata) :
    Tuples ((s.getDistinct ops).2.setMetadata o t (s.getDistinct ops).1)
      (Function.update f (o, t) (some ops)) where
  content k := by
    simp only [Store.setMetadata, Store.getDistinct, Function.update_apply]
    split
    next => simp
    next =>
      rw [← h.content k]
      cases hn : s.attached k with
      | none => rfl
      | some n => simp only [Option.bind_some, List.getElem?_append_left (h.live hn)]
  live {k n} hn := by
    simp only [Store.setMetadata, Store.getDistinct, Function.update_apply] at hn ⊢
    rw [List.length_append, List.length_singleton]
    split at hn
    next =>
      cases hn
      exact Nat.lt_succ_self _
    next => exact Nat.lt_succ_of_lt (h.live hn)
  distinct {k k' n} hn hn' := by
    simp only [Store.setMetadata, Store.getDistinct, Function.update_apply] at hn hn'
    split at hn
    next hk =>
      split at hn'
      next hk' => rw [hk, hk']
      next =>
        cases hn
        exact absurd (h.live hn') (Nat.lt_irrefl _)
    next =>
      split at hn'
      next =>
        cases hn'
        exact absurd (h.live hn) (Nat.lt_irrefl _)
      next => exact h.distinct hn hn'

theorem replace (h : Tuples s f) (hn : s.attached k = some n) (ops : List Metadata) :
    Tuples { s with heap := s.heap.set n ops } (Function.update f k (some ops)) where
  content k' := by
    rw [Function.update_apply]
    split
    next hk => simp [hk, hn, h.live hn]
    next hk =>
      rw [← h.content k']
      cases hn' : s.attached k' with
      | none => rfl
      | some n' =>
        have hne : n ≠ n' := fun heq => hk (h.distinct hn' (heq ▸ hn))
        simp [List.getElem?_set_ne hne]
  live hn' := by
    rw [List.length_set]
    exact h.live hn'
  distinct := h.distinct

end Tuples

/-! ## Slots -/

structure Slots where
  object : Object × Tag → Option String
  args : (fn : Function) → Option (Fin fn.argSize → String)

namespace Slots

def empty : Slots := ⟨fun _ => .none, fun _ => .none⟩

/-- The texts of the arguments of `fn`, which are `tag::none` until one is set. -/
def row (c : Slots) (fn : Function) : Fin fn.argSize → String := (c.args fn).getD fun _ => Tag.none

def setRow (c : Slots) (fn : Function) (row : Fin fn.argSize → String) : Slots :=
  { c with args := Function.update c.args fn (some row) }

@[simp] theorem setRow_args (c : Slots) (fn : Function) (row : Fin fn.argSize → String) :
    (c.setRow fn row).args fn = some row :=
  Function.update_self ..

theorem setRow_args_ne (c : Slots) {fn fn' : Function} (h : fn' ≠ fn) (row : Fin fn.argSize → String) :
    (c.setRow fn row).args fn' = c.args fn' :=
  Function.update_of_ne h ..

theorem setRow_row_ne (c : Slots) {fn fn' : Function} (h : fn' ≠ fn) (row : Fin fn.argSize → String) :
    (c.setRow fn row).row fn' = c.row fn' :=
  congrArg (Option.getD · _) (c.setRow_args_ne h row)

def set (c : Slots) : Value → Tag → String → Slots
  | .argument a, _, m => c.setRow a.parent (Function.update (c.row a.parent) a.argNo m)
  | .object o, t, m => { c with object := Function.update c.object (o, t) (some m) }
  | .other, _, _ => c

def get (c : Slots) : Value → Tag → Option String
  | .argument a, _ => (c.args a.parent).map fun row => row a.argNo
  | .object o, t => c.object (o, t)
  | .other, _ => .none

/-- The operands of the tuple that stands for a slot or for a row. -/
def content (c : Slots) (k : Object × Tag) : Option (List Metadata) :=
  match k with
  | (.function fn, t) =>
    if t = Tag.arguments then (c.args fn).map fun row => List.ofFn fun i => node (row i)
    else (c.object (.function fn, t)).map fun m => [node m]
  | (o, t) => (c.object (o, t)).map fun m => [node m]

theorem content_arguments (c : Slots) (fn : Function) : c.content (.function fn, Tag.arguments) =
    (c.args fn).map fun row => List.ofFn fun i => node (row i) := by
  simp [content]

theorem content_object (c : Slots) {o : Object} {t : Tag} (ht : t ≠ Tag.arguments) :
    c.content (o, t) = (c.object (o, t)).map fun m => [node m] := by
  cases o <;> simp [content, ht]

theorem content_setRow (c : Slots) (fn : Function) (row : Fin fn.argSize → String) :
    (c.setRow fn row).content = Function.update c.content (.function fn, Tag.arguments)
      (some (List.ofFn fun i => node (row i))) := by
  funext ⟨o, t⟩
  by_cases h : (o, t) = (.function fn, Tag.arguments)
  · cases h
    simp [content_arguments, setRow]
  · rw [Function.update_of_ne h]
    cases o with
    | function fn' =>
      by_cases ht : t = Tag.arguments
      · subst ht
        have hfn : fn' ≠ fn := fun heq => h (heq ▸ rfl)
        simp [content_arguments, setRow, hfn]
      · simp [content_object _ ht, setRow]
    | instruction | globalVariable => rfl

theorem content_set_object (c : Slots) {o : Object} {t : Tag} (ht : t ≠ Tag.arguments) (m : String) :
    (c.set (.object o) t m).content = Function.update c.content (o, t) (some [node m]) := by
  funext ⟨o', t'⟩
  by_cases h : (o', t') = (o, t)
  · cases h
    simp [content_object _ ht, set]
  · rw [Function.update_of_ne h]
    have hobj : (c.set (.object o) t m).object (o', t') = c.object (o', t') :=
      Function.update_of_ne h _ _
    cases o' with
    | function fn =>
      by_cases ht' : t' = Tag.arguments
      · subst ht'
        simp [content_arguments, set]
      · rw [content_object _ ht', content_object _ ht', hobj]
    | instruction | globalVariable => simp [content, hobj]

end Slots

theorem ofFn_update {f : Fin n → α} (i : Fin n) (x : α) :
    List.ofFn (Function.update f i x) = (List.ofFn f).set i x := by
  refine List.ext_getElem (by simp) fun j hj hj' => ?_
  simp [List.getElem_set, Function.update_apply, Fin.ext_iff, eq_comm]

/-- The tuples of the store stand for the texts. -/
def Represents (s : Store) (c : Slots) : Prop := Tuples s c.content

namespace Represents

variable {s : Store} {c : Slots}

theorem fresh (heap : List (List Metadata)) : Represents (fresh heap) .empty := by
  have hcontent : Slots.empty.content = fun _ => none := by
    funext ⟨o, t⟩
    cases o <;> simp [Slots.content, Slots.empty]
  rw [Represents, hcontent]
  exact .fresh heap

theorem of_tuples (h : Tuples s f) (hf : c.content = f) : Represents s c := by
  rw [Represents, hf]
  exact h

theorem attached_args_none (h : Represents s c) (hargs : c.args fn = none) :
    s.attached (.function fn, Tag.arguments) = none := by
  refine h.attached_none ?_
  rw [c.content_arguments, hargs]
  rfl

theorem attached_args_some (h : Represents s c) (hargs : c.args fn = some row) :
    ∃ n, s.attached (.function fn, Tag.arguments) = some n ∧
      s.heap[n]? = some (List.ofFn fun i => node (row i)) := by
  refine h.attached_some ?_
  rw [c.content_arguments, hargs]
  rfl

theorem functionInit (h : Represents s c) (fn : Function) :
    Represents (functionInit s fn) (c.setRow fn (c.row fn)) := by
  unfold Meta.functionInit Store.getMetadata
  cases hargs : c.args fn with
  | none =>
    rw [h.attached_args_none hargs]
    refine .of_tuples (h.attach ..) ?_
    rw [c.content_setRow]
    simp [Slots.row, hargs, List.ofFn_const]
  | some row =>
    obtain ⟨n, hn, hops⟩ := h.attached_args_some hargs
    rw [hn]
    have hrow : c.args fn = some (c.row fn) := by simp [Slots.row, hargs]
    have hsame : c.setRow fn (c.row fn) = c := by
      rw [Slots.setRow, ← hrow, Function.update_eq_self]
    rwa [hsame]

theorem argument_set (h : Represents s c) (a : Argument) (t : Tag) (m : String) :
    ∃ s', Argument.set s a m = .ok s' ∧ Represents s' (c.set (.argument a) t m) := by
  have hinit := h.functionInit a.parent
  obtain ⟨n, hn, hops⟩ := hinit.attached_args_some (Slots.setRow_args ..)
  have hlt : a.argNo < (List.ofFn fun i => node (c.row a.parent i)).length := by simp
  have hset : Argument.set s a m = .ok { Meta.functionInit s a.parent with
      heap := (Meta.functionInit s a.parent).heap.set n
        ((List.ofFn fun i => node (c.row a.parent i)).set a.argNo (node m)) } := by
    unfold Argument.set Argument.setNode Store.getMetadata Store.replaceOperandWith
    simp only [hn, hops, if_pos hlt]
  refine ⟨_, hset, .of_tuples (hinit.replace hn _) ?_⟩
  have hrow : (fun i => node (Function.update (c.row a.parent) a.argNo m i)) =
      Function.update (fun i => node (c.row a.parent i)) a.argNo (node m) :=
    Function.comp_update node _ _ _
  rw [Slots.set, Slots.content_setRow, Slots.content_setRow, Function.update_idem, hrow, ofFn_update]

theorem set (h : Represents s c) {v : Value} {t : Tag} (hv : v ≠ .other) (ht : t ≠ Tag.arguments)
    (m : String) : ∃ s', Meta.set s v t m = .ok s' ∧ Represents s' (c.set v t m) := by
  cases v with
  | argument a => exact h.argument_set a t m
  | object o => exact ⟨_, rfl, .of_tuples (h.attach o t [node m]) (c.content_set_object ht m)⟩
  | other => exact absurd rfl hv

theorem value_eq {s : Store} (hn : s.heap[n]? = some ops) (hidx : ops[idx]? = some (node m)) :
    value s (some n) idx = .ok (if m = "" then .none else some m) := by
  have hlen : ops.length ≠ 0 := by
    intro hlen
    rw [List.length_eq_zero_iff.1 hlen] at hidx
    cases hidx
  simp [value, Store.operands, Store.getOperand, hn, hidx, hlen, node, bind, Except.bind]

/-- A text as `value` returns it. -/
def nonempty (m : String) : Option String := if m = "" then none else some m

theorem get (h : Represents s c) {v : Value} {t : Tag} (hv : v ≠ .other) (ht : t ≠ Tag.arguments) :
    Meta.get s v t = .ok ((c.get v t).bind nonempty) := by
  cases v with
  | argument a =>
    change Argument.get s a = _
    unfold Argument.get Store.getMetadata
    cases hargs : c.args a.parent with
    | none =>
      simp [h.attached_args_none hargs, Slots.get, hargs]
    | some row =>
      obtain ⟨n, hn, hops⟩ := h.attached_args_some hargs
      have hidx : (List.ofFn fun i => node (row i))[a.argNo.val]? = some (node (row a.argNo)) := by
        simp
      simp only [hn, value_eq hops hidx, Slots.get, hargs]
      rfl
  | object o =>
    change value s (s.attached (o, t)) 0 = _
    cases hobj : c.object (o, t) with
    | none =>
      have hnone := h.attached_none (by rw [c.content_object ht, hobj]; rfl)
      simp [hnone, value, Slots.get, hobj]
    | some m =>
      obtain ⟨n, hn, hops⟩ := h.attached_some (by rw [c.content_object ht, hobj]; rfl)
      rw [hn, value_eq hops rfl, Slots.get, hobj]
      rfl
  | other => exact absurd rfl hv

/-- A run of `set` succeeds, and its store represents the run on the slots. -/
theorem setAll {calls : List SetCall} (h : Represents s c)
    (hcalls : ∀ x ∈ calls, x.val ≠ .other ∧ x.tag ≠ Tag.arguments) :
    ∃ s', Meta.setAll s calls = .ok s' ∧
      Represents s' (calls.foldl (fun c x => c.set x.val x.tag x.str) c) := by
  induction calls generalizing s c with
  | nil => exact ⟨s, rfl, h⟩
  | cons x calls ih =>
    obtain ⟨hv, ht⟩ := hcalls x List.mem_cons_self
    obtain ⟨s₁, hs₁, h₁⟩ := h.set hv ht x.str
    obtain ⟨s₂, hs₂, h₂⟩ := ih h₁ fun y hy => hcalls y (List.mem_cons_of_mem x hy)
    refine ⟨s₂, ?_, h₂⟩
    rw [Meta.setAll, List.foldlM_cons, hs₁]
    exact hs₂

end Represents

/-! ## The last call -/

/-- The text of the last call that satisfies `p`. -/
def last (p : SetCall → Bool) (calls : List SetCall) : Option String :=
  (calls.reverse.find? p).map SetCall.str

/-- An argument of `fn`. -/
def Value.isArgumentOf (fn : Function) : Value → Bool
  | .argument a => decide (a.parent = fn)
  | _ => false

section
variable {p : SetCall → Bool} {calls : List SetCall} {x : SetCall}

theorem last_concat : last p (calls ++ [x]) = if p x then some x.str else last p calls := by
  unfold last
  cases h : p x <;> simp [h]

theorem mem_of_last (h : last p calls = some m) : ∃ x ∈ calls, p x = true ∧ x.str = m := by
  obtain ⟨x, hx, rfl⟩ := Option.map_eq_some_iff.1 h
  exact ⟨x, List.mem_reverse.1 (List.mem_of_find?_eq_some hx), List.find?_some hx, rfl⟩

end

namespace Slots

/-- The slots after a run. -/
def setAll (calls : List SetCall) : Slots :=
  calls.foldl (fun c x => c.set x.val x.tag x.str) empty

theorem setAll_concat {calls : List SetCall} {x : SetCall} :
    setAll (calls ++ [x]) = (setAll calls).set x.val x.tag x.str := by
  simp [setAll]

theorem setAll_object (calls : List SetCall) (o : Object) (t : Tag) :
    (setAll calls).object (o, t) = last (fun x => x.val = .object o ∧ x.tag = t) calls := by
  induction calls using List.reverseRecOn with
  | nil => rfl
  | append_singleton calls x ih =>
    rw [setAll_concat, last_concat, ← ih]
    obtain ⟨v, t', m⟩ := x
    cases v with
    | argument a => simp [set, setRow]
    | object o' =>
      by_cases h : o' = o ∧ t' = t
      · obtain ⟨rfl, rfl⟩ := h
        simp [set]
      · have hne : (o, t) ≠ (o', t') := by
          rintro ⟨⟩
          exact h ⟨rfl, rfl⟩
        simp [set, h, Function.update_of_ne hne]
    | other => simp [set]

theorem setAll_row (calls : List SetCall) (fn : Function) (i : Fin fn.argSize) :
    (setAll calls).row fn i = (last (fun x => x.val = .argument ⟨fn, i⟩) calls).getD Tag.none := by
  induction calls using List.reverseRecOn with
  | nil => rfl
  | append_singleton calls x ih =>
    rw [setAll_concat, last_concat]
    obtain ⟨v, t, m⟩ := x
    cases v with
    | argument a =>
      obtain ⟨fn', j⟩ := a
      by_cases hfn : fn' = fn
      · subst hfn
        rw [set, row, setRow_args, Option.getD_some, Function.update_apply, ih]
        by_cases hij : i = j
        · simp [hij]
        · simp [hij, Ne.symm hij]
      · rw [set, setRow_row_ne _ (Ne.symm hfn), ih]
        simp [hfn]
    | object o => simpa [set, row] using ih
    | other => simpa [set, row] using ih

theorem setAll_args (calls : List SetCall) (fn : Function) :
    (setAll calls).args fn =
      if calls.any fun x => x.val.isArgumentOf fn then some ((setAll calls).row fn) else none := by
  induction calls using List.reverseRecOn with
  | nil => rfl
  | append_singleton calls x ih =>
    rw [setAll_concat]
    obtain ⟨v, t, m⟩ := x
    cases v with
    | argument a =>
      by_cases hfn : a.parent = fn
      · subst hfn
        simp [set, row, Value.isArgumentOf]
      · have hrow := setRow_row_ne (setAll calls) (Ne.symm hfn)
          (Function.update ((setAll calls).row a.parent) a.argNo m)
        rw [set, setRow_args_ne _ (Ne.symm hfn), hrow, ih]
        simp [Value.isArgumentOf, hfn]
    | object o =>
      change (setAll calls).args fn = _
      rw [ih]
      simp [Value.isArgumentOf, set, row]
    | other =>
      change (setAll calls).args fn = _
      rw [ih]
      simp [Value.isArgumentOf, set]

/-- The text of an argument is the last one for it, or the placeholder if there is none but one for
another argument of the function. -/
theorem setAll_get_argument (calls : List SetCall) (a : Argument) (t : Tag) :
    (setAll calls).get (.argument a) t = (last (fun x => x.val = .argument a) calls).or
      (if calls.any fun x => x.val.isArgumentOf a.parent then some Tag.none else none) := by
  rw [get, setAll_args]
  cases hlast : last (fun x => x.val = .argument a) calls with
  | none =>
    split
    · rw [Option.map_some, setAll_row, hlast]
      rfl
    · rfl
  | some m =>
    have hany : (calls.any fun x => x.val.isArgumentOf a.parent) = true := by
      obtain ⟨x, hx, hval, -⟩ := mem_of_last hlast
      rw [decide_eq_true_eq] at hval
      exact List.any_eq_true.2 ⟨x, hx, by simp [hval, Value.isArgumentOf]⟩
    rw [if_pos hany, Option.map_some, setAll_row, hlast]
    rfl

end Slots

/-! ## What `get` returns after a run -/

/-- The interface is a store keyed by value and tag: after the calls, `get` returns the text of the
last one for the same value and tag. -/
def Keyed (calls : List SetCall) : Prop :=
  ∀ heap, ∃ s, setAll (fresh heap) calls = .ok s ∧ ∀ v t, v ≠ .other → t ≠ Tag.arguments →
    get s v t = .ok (last (fun x => x.val = v ∧ x.tag = t) calls)

/-- The slot of an argument is read under another tag. -/
theorem not_keyed : ¬ Keyed [⟨.argument ⟨⟨0, 2⟩, 0⟩, "a", "m"⟩] := by
  intro h
  obtain ⟨s, hs, hget⟩ := h []
  have hrun : (setAll (fresh []) [⟨.argument ⟨⟨0, 2⟩, 0⟩, "a", "m"⟩] >>=
      fun s => get s (.argument ⟨⟨0, 2⟩, 0⟩) "b") = .ok (some "m") := by decide
  rw [hs] at hrun
  have hnone := hget (.argument ⟨⟨0, 2⟩, 0⟩) "b" (by decide) (by decide)
  exact absurd (hrun.symm.trans hnone) (by decide)

/-- After the calls, `get` returns the text of the last one for the same object and tag. For an
argument it is the last one for the argument under any tag; if there is none, it is the placeholder
as soon as another argument of the function has a text. -/
theorem get_setAll (heap : List (List Metadata)) (calls : List SetCall)
    (h : ∀ x ∈ calls, x.val ≠ .other ∧ x.tag ≠ Tag.arguments ∧ x.str ≠ "") :
    ∃ s, setAll (fresh heap) calls = .ok s ∧
      (∀ o t, t ≠ Tag.arguments → get s (.object o) t =
        .ok (last (fun x => x.val = .object o ∧ x.tag = t) calls)) ∧
      ∀ a t, t ≠ Tag.arguments → get s (.argument a) t =
        .ok ((last (fun x => x.val = .argument a) calls).or
          (if calls.any fun x => x.val.isArgumentOf a.parent then some Tag.none else none)) := by
  obtain ⟨s, hs, hrep⟩ := (Represents.fresh heap).setAll fun x hx => ⟨(h x hx).1, (h x hx).2.1⟩
  have hne {p m} (hm : last p calls = some m) : Represents.nonempty m = some m := by
    obtain ⟨x, hx, -, rfl⟩ := mem_of_last hm
    exact if_neg (h x hx).2.2
  refine ⟨s, hs, fun o t ht => ?_, fun a t ht => ?_⟩
  · rw [hrep.get (by simp) ht]
    change Except.ok (((Slots.setAll calls).object (o, t)).bind _) = _
    rw [Slots.setAll_object]
    cases hlast : last _ calls with
    | none => rfl
    | some m => rw [Option.bind_some, hne hlast]
  · rw [hrep.get (by simp) ht]
    change Except.ok (((Slots.setAll calls).get (.argument a) t).bind _) = _
    rw [Slots.setAll_get_argument]
    cases hlast : last (fun x => x.val = .argument a) calls with
    | none => split <;> rfl
    | some m => exact congrArg _ (hne hlast)

/-- The other argument of the function gets the placeholder. -/
theorem get_setAll_sibling : ∃ s, setAll (fresh []) [⟨.argument ⟨⟨0, 2⟩, 0⟩, "a", "m"⟩] = .ok s ∧
    get s (.argument ⟨⟨0, 2⟩, 1⟩) "b" = .ok (some Tag.none) := by
  obtain ⟨s, hs, -, hargs⟩ := get_setAll [] [⟨.argument ⟨⟨0, 2⟩, 0⟩, "a", "m"⟩] (by decide)
  exact ⟨s, hs, (hargs ⟨⟨0, 2⟩, 1⟩ "b" (by decide)).trans (by decide)⟩

end LlvmSc.Meta

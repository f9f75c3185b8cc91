import LlvmSc.Meta.Slots

/-!
# The arguments of functions

Runs of `argument::set` and `argument::get` from any store in which no function has a tuple under
`tag::arguments` yet. The calls look at nothing else that is attached, so such a store is as good as
one to which nothing is attached (`Agree`), and the tuples represent rows of texts as before.
-/

namespace LlvmSc.Meta

inductive Argument.Call where
  | set (arg : Argument) (str : String)
  | get (arg : Argument)
deriving DecidableEq

namespace Argument

/-- The store after a call. -/
def step (s : Store) : Call → Except Fault Store
  | .set arg str => set s arg str
  | .get arg => (get s arg).map fun _ => s

def run (s : Store) (calls : List Call) : Except Fault Store := calls.foldlM step s

/-- The calls of `argument::set`, as calls of `set`. -/
def sets (calls : List Call) : List SetCall :=
  calls.filterMap fun
    | .set arg str => some ⟨.argument arg, Tag.none, str⟩
    | .get _ => none

/-- The last text for the argument, unless that is empty. If there is none, it is the placeholder as
soon as another argument of the function has a text. -/
def lastText (calls : List Call) (a : Argument) : Option String :=
  ((last (fun x => x.val = .argument a) (sets calls)).or
    (if (sets calls).any fun x => x.val.isArgumentOf a.parent then some Tag.none else none)).bind
      Represents.nonempty

end Argument

/-- The same tuples, attached to the same functions under `tag::arguments`. -/
structure Agree (s t : Store) : Prop where
  heap : s.heap = t.heap
  attached : ∀ fn, s.getMetadata (.function fn) Tag.arguments = t.getMetadata (.function fn) Tag.arguments

namespace Agree

variable {s t : Store}

theorem functionInit (h : Agree s t) (fn : Function) :
    Agree (functionInit s fn) (functionInit t fn) := by
  unfold Meta.functionInit
  rw [h.attached fn]
  cases t.getMetadata (.function fn) Tag.arguments with
  | some n => exact h
  | none =>
    refine ⟨?_, fun fn' => ?_⟩
    · simp only [Store.setMetadata, Store.getDistinct, h.heap]
    · have hattached := h.attached fn'
      simp only [Store.getMetadata] at hattached
      simp only [Store.getMetadata, Store.setMetadata, Store.getDistinct, Function.update_apply,
        h.heap, hattached]

theorem set (h : Agree s t) {a : Argument} (ht : Argument.set t a m = .ok t') :
    ∃ s', Argument.set s a m = .ok s' ∧ Agree s' t' := by
  have hinit := h.functionInit a.parent
  unfold Argument.set Argument.setNode at ht ⊢
  simp only [hinit.attached a.parent, Store.replaceOperandWith, hinit.heap] at ht ⊢
  cases hn : (Meta.functionInit t a.parent).getMetadata (.function a.parent) Tag.arguments with
  | none => simp [hn] at ht
  | some n =>
    simp only [hn] at ht ⊢
    cases hops : (Meta.functionInit t a.parent).heap[n]? with
    | none => simp [hops] at ht
    | some ops =>
      simp only [hops] at ht ⊢
      split at ht
      · next hlt =>
        cases ht
        exact ⟨{ Meta.functionInit s a.parent with
          heap := (Meta.functionInit t a.parent).heap.set n (ops.set a.argNo (node m)) },
          if_pos hlt, rfl, hinit.attached⟩
      · cases ht

theorem get (h : Agree s t) (a : Argument) : Argument.get s a = Argument.get t a := by
  unfold Argument.get
  rw [h.attached]
  cases t.getMetadata (.function a.parent) Tag.arguments with
  | none => rfl
  | some n => simp only [value, Store.getOperand, Store.operands, h.heap]

end Agree

/-- The tuples of the arguments represent the rows of texts. -/
def Rows (s : Store) (c : Slots) : Prop := ∃ t, Agree s t ∧ Represents t c

namespace Rows

variable {s : Store} {c : Slots}

theorem of_none (h : ∀ fn, s.getMetadata (.function fn) Tag.arguments = none) : Rows s .empty :=
  ⟨fresh s.heap, ⟨rfl, h⟩, .fresh s.heap⟩

theorem set (h : Rows s c) (a : Argument) (t : Tag) (m : String) :
    ∃ s', Argument.set s a m = .ok s' ∧ Rows s' (c.set (.argument a) t m) := by
  obtain ⟨r, hagree, hrep⟩ := h
  obtain ⟨r', hr', hrep'⟩ := hrep.argument_set a t m
  obtain ⟨s', hs', hagree'⟩ := hagree.set hr'
  exact ⟨s', hs', r', hagree', hrep'⟩

theorem get (h : Rows s c) (a : Argument) :
    Argument.get s a = .ok ((c.get (.argument a) Tag.none).bind Represents.nonempty) := by
  obtain ⟨r, hagree, hrep⟩ := h
  rw [hagree.get]
  exact hrep.get (v := .argument a) (t := Tag.none) (by simp) (by decide)

theorem isSome (h : Rows s c) (fn : Function) :
    (s.getMetadata (.function fn) Tag.arguments).isSome = (c.args fn).isSome := by
  obtain ⟨r, hagree, hrep⟩ := h
  rw [hagree.attached]
  cases hargs : c.args fn with
  | none =>
    simp [Store.getMetadata, hrep.attached_args_none hargs]
  | some row =>
    obtain ⟨n, hn, _⟩ := hrep.attached_args_some hargs
    simp [Store.getMetadata, hn]

theorem operands (h : Rows s c) (hn : s.getMetadata (.function fn) Tag.arguments = some n) :
    ∃ row : Fin fn.argSize → String, s.heap[n]? = some (List.ofFn fun i => node (row i)) := by
  obtain ⟨row, hrow⟩ : ∃ row, c.args fn = some row := by
    rw [← Option.isSome_iff_exists, ← h.isSome fn, hn]
    rfl
  obtain ⟨r, hagree, hrep⟩ := h
  obtain ⟨n', hn', hops⟩ := hrep.attached_args_some hrow
  cases hn'.symm.trans ((hagree.attached fn).symm.trans hn)
  exact ⟨row, by rw [hagree.heap, hops]⟩

theorem step (h : Rows s c) (x : Argument.Call) : ∃ s', Argument.step s x = .ok s' ∧
    Rows s' ((Argument.sets [x]).foldl (fun c x => c.set x.val x.tag x.str) c) := by
  cases x with
  | set a m => exact h.set a Tag.none m
  | get a => exact ⟨s, by rw [Argument.step, h.get]; rfl, h⟩

theorem run (h : Rows s c) (calls : List Argument.Call) : ∃ s', Argument.run s calls = .ok s' ∧
    Rows s' ((Argument.sets calls).foldl (fun c x => c.set x.val x.tag x.str) c) := by
  induction calls generalizing s c with
  | nil => exact ⟨s, rfl, h⟩
  | cons x calls ih =>
    obtain ⟨s₁, hs₁, h₁⟩ := h.step x
    obtain ⟨s₂, hs₂, h₂⟩ := ih h₁
    refine ⟨s₂, ?_, ?_⟩
    · rw [Argument.run, List.foldlM_cons, hs₁]
      exact hs₂
    · have hsets : Argument.sets (x :: calls) = Argument.sets [x] ++ Argument.sets calls :=
        List.filterMap_append (l := [x]) ..
      rwa [hsets, List.foldl_append]

end Rows

namespace Argument

/-- After the calls, `get` returns the last text that is not empty, whatever else has been set. -/
def Isolated (calls : List Call) : Prop :=
  ∀ s : Store, (∀ fn, s.getMetadata (.function fn) Tag.arguments = none) →
    ∃ s', run s calls = .ok s' ∧ ∀ a,
      get s' a = .ok (last (fun x => x.val = .argument a ∧ x.str ≠ "") (sets calls))

theorem Isolated.get_eq (h : Isolated calls) {a : Argument} :
    (run (fresh []) calls >>= fun s => get s a) =
      .ok (last (fun x => x.val = .argument a ∧ x.str ≠ "") (sets calls)) := by
  obtain ⟨s, hs, hget⟩ := h (fresh []) fun _ => rfl
  rw [hs]
  exact hget a

/-- An argument that no text has been set for answers the placeholder after a call for its sibling,
and an empty text hides the one before it. -/
theorem not_isolated : ¬ Isolated [.set ⟨⟨0, 2⟩, 0⟩ "m"] ∧
    ¬ Isolated [.set ⟨⟨0, 2⟩, 0⟩ "m", .set ⟨⟨0, 2⟩, 0⟩ ""] := by
  refine ⟨fun h => ?_, fun h => ?_⟩
  · exact absurd (h.get_eq (a := ⟨⟨0, 2⟩, 1⟩)) (by decide)
  · exact absurd (h.get_eq (a := ⟨⟨0, 2⟩, 0⟩)) (by decide)

/-- No call of a run fails. After it a function has a tuple if one of its arguments has been set, the
tuple has a text for each argument, and `get` returns the last one for the argument. -/
theorem run_texts (calls : List Call) {s : Store}
    (h : ∀ fn, s.getMetadata (.function fn) Tag.arguments = none) :
    ∃ s', run s calls = .ok s' ∧
      (∀ fn, (s'.getMetadata (.function fn) Tag.arguments).isSome =
        (sets calls).any fun x => x.val.isArgumentOf fn) ∧
      (∀ fn n, s'.getMetadata (.function fn) Tag.arguments = some n →
        ∃ ops, s'.heap[n]? = some ops ∧ ops.length = fn.argSize ∧ ∀ op ∈ ops, ∃ m, op = node m) ∧
      ∀ a, get s' a = .ok (lastText calls a) := by
  obtain ⟨s', hrun, hrows⟩ := (Rows.of_none h).run calls
  change Rows s' (Slots.setAll (sets calls)) at hrows
  refine ⟨s', hrun, fun fn => ?_, fun fn n hn => ?_, fun a => ?_⟩
  · rw [hrows.isSome, Slots.setAll_args]
    split
    next h => exact h.symm
    next h => exact (Bool.eq_false_iff.2 h).symm
  · obtain ⟨row, hops⟩ := hrows.operands hn
    refine ⟨_, hops, List.length_ofFn, fun op hop => ?_⟩
    obtain ⟨i, rfl⟩ := List.mem_ofFn.1 hop
    exact ⟨row i, rfl⟩
  · rw [hrows.get, Slots.setAll_get_argument, lastText]

/-- An argument that has a text, its sibling, and an argument of another function. -/
theorem run_texts_sibling : ∃ s',
    run (fresh []) [.set ⟨⟨0, 2⟩, 0⟩ "m", .get ⟨⟨1, 1⟩, 0⟩] = .ok s' ∧
      get s' ⟨⟨0, 2⟩, 0⟩ = .ok (some "m") ∧ get s' ⟨⟨0, 2⟩, 1⟩ = .ok (some Tag.none) ∧
      get s' ⟨⟨1, 1⟩, 0⟩ = .ok none := by
  obtain ⟨s', hrun, _, _, hget⟩ :=
    run_texts [.set ⟨⟨0, 2⟩, 0⟩ "m", .get ⟨⟨1, 1⟩, 0⟩] (s := fresh []) fun _ => rfl
  exact ⟨s', hrun, hget ⟨⟨0, 2⟩, 0⟩, hget ⟨⟨0, 2⟩, 1⟩, hget ⟨⟨1, 1⟩, 0⟩⟩

end Argument
end LlvmSc.Meta

import LlvmSc.Meta.Slots

/-!
# The reserved tag

`meta::set` of a function under `tag::arguments` takes the place of the tuple of its arguments with
a tuple that has a single operand. `Texts` is the interface as a store of such tuples, which every
run refines (`setAll_get`). A run fails exactly if it sets an argument other than the first one of a
function after that, and the function under the reserved tag and its first argument are one slot
(`setAll_reserved`).
-/

namespace LlvmSc.Meta

/-- The texts of the operands of the tuple of each object and tag. -/
abbrev Texts := Object × Tag → Option (List String)

namespace Texts

/-- The texts of the tuple that `argument::set` writes to. -/
def row (c : Texts) (fn : Function) : List String :=
  (c (.function fn, Tag.arguments)).getD (List.replicate fn.argSize Tag.none)

def set (c : Texts) (v : Value) (t : Tag) (m : String) : Except Fault Texts :=
  match v with
  | .argument a =>
    if a.argNo < (c.row a.parent).length then
      .ok (Function.update c (.function a.parent, Tag.arguments)
        (some ((c.row a.parent).set a.argNo m)))
    else .error .outOfRange
  | .object o => .ok (Function.update c (o, t) (some [m]))
  | .other => .error .unreachable

/-- The text at position `idx` of the tuple. -/
def read (c : Texts) (k : Object × Tag) (idx : Nat) : Except Fault (Option String) :=
  match c k with
  | none => .ok none
  | some texts =>
    match texts[idx]? with
    | some m => .ok (Represents.nonempty m)
    | none => .error .outOfRange

def get (c : Texts) : Value → Tag → Except Fault (Option String)
  | .argument a, _ => c.read (.function a.parent, Tag.arguments) a.argNo
  | .object o, t => c.read (o, t) 0
  | .other, _ => .error .unreachable

/-- The calls one after the other. -/
def setAll (c : Texts) (calls : List SetCall) : Except Fault Texts :=
  calls.foldlM (fun c x => c.set x.val x.tag x.str) c

end Texts

/-! ## Runs refine the store of texts -/

/-- The store has the tuples of the texts, none of which is empty. -/
structure Holds (s : Store) (c : Texts) : Prop where
  tuples : Tuples s (Option.map (List.map node) ∘ c)
  nonempty : ∀ k, c k ≠ some []

namespace Holds

variable {s : Store} {c c' : Texts}

theorem fresh (heap : List (List Metadata)) : Holds (fresh heap) fun _ => none where
  tuples := ⟨fun _ => rfl, fun h => (by cases h), fun h => (by cases h)⟩
  nonempty _ h := by cases h

theorem functionInit (h : Holds s c) (a : Argument) :
    Holds (functionInit s a.parent)
      (Function.update c (.function a.parent, Tag.arguments) (some (c.row a.parent))) := by
  unfold Meta.functionInit Store.getMetadata
  cases hc : c (.function a.parent, Tag.arguments) with
  | none =>
    have hnone := h.tuples.attached_none (by rw [Function.comp, hc]; rfl)
    have hrow : c.row a.parent = List.replicate a.parent.argSize Tag.none := by
      rw [Texts.row, hc]
      rfl
    rw [hnone, hrow]
    refine ⟨?_, fun k hk => ?_⟩
    · rw [Function.comp_update, Option.map_some, List.map_replicate]
      exact h.tuples.attach ..
    · rw [Function.update_apply] at hk
      split at hk
      next =>
        have hlt := a.argNo.isLt
        rw [Option.some.injEq, List.replicate_eq_nil_iff] at hk
        omega
      next => exact h.nonempty k hk
  | some texts =>
    obtain ⟨n, hn, -⟩ := h.tuples.attached_some (by rw [Function.comp, hc]; rfl)
    have hrow : c (.function a.parent, Tag.arguments) = some (c.row a.parent) := by
      rw [Texts.row, hc]
      rfl
    rw [hn, ← hrow, Function.update_eq_self]
    exact h

/-- `argument::set` replaces an operand of the tuple that `function_init` has made sure of. -/
theorem argument_set (h : Holds s c) (a : Argument) (m : String) :
    if a.argNo < (c.row a.parent).length then ∃ s', Argument.set s a m = .ok s' ∧
      Holds s' (Function.update c (.function a.parent, Tag.arguments)
        (some ((c.row a.parent).set a.argNo m)))
    else Argument.set s a m = .error .outOfRange := by
  have hinit := h.functionInit a
  have hcontent : (Option.map (List.map node) ∘ Function.update c
      (.function a.parent, Tag.arguments) (some (c.row a.parent)))
        (.function a.parent, Tag.arguments) = some ((c.row a.parent).map node) := by
    rw [Function.comp, Function.update_self]
    rfl
  obtain ⟨n, hn, hops⟩ := hinit.tuples.attached_some hcontent
  have hset : Argument.set s a m =
      if a.argNo < (c.row a.parent).length then .ok { Meta.functionInit s a.parent with
        heap := (Meta.functionInit s a.parent).heap.set n
          (((c.row a.parent).map node).set a.argNo (node m)) }
      else .error .outOfRange := by
    unfold Argument.set Argument.setNode Store.getMetadata Store.replaceOperandWith
    simp only [hn, hops, List.length_map]
  rw [hset]
  split
  next hlt =>
    refine ⟨_, rfl, ?_, fun k hk => ?_⟩
    · have hreplace := hinit.tuples.replace hn (((c.row a.parent).map node).set a.argNo (node m))
      rw [Function.comp_update, Function.update_idem] at hreplace
      rw [Function.comp_update, Option.map_some, List.map_set]
      exact hreplace
    · rw [Function.update_apply] at hk
      split at hk
      next =>
        have hlen := congrArg List.length (Option.some.inj hk)
        rw [List.length_set, List.length_nil] at hlen
        omega
      next => exact h.nonempty k hk
  next => rfl

theorem object_set (h : Holds s c) (o : Object) (t : Tag) (m : String) :
    Holds (o.set s t m) (Function.update c (o, t) (some [m])) where
  tuples := by
    rw [Function.comp_update]
    exact h.tuples.attach o t [node m]
  nonempty k hk := by
    rw [Function.update_apply] at hk
    split at hk
    next => cases hk
    next => exact h.nonempty k hk

/-- `set` fails as the store of the texts says, and changes the tuples as it says otherwise. -/
theorem set (h : Holds s c) (v : Value) (t : Tag) (m : String) :
    (∀ c', c.set v t m = .ok c' → ∃ s', Meta.set s v t m = .ok s' ∧ Holds s' c') ∧
      ∀ e, c.set v t m = .error e → Meta.set s v t m = .error e := by
  cases v with
  | argument a =>
    have hset := h.argument_set a m
    rw [Texts.set]
    split
    next hlt =>
      rw [if_pos hlt] at hset
      refine ⟨fun c' hc' => ?_, fun e he => by cases he⟩
      cases hc'
      exact hset
    next hlt =>
      rw [if_neg hlt] at hset
      refine ⟨fun c' hc' => (by cases hc'), fun e he => ?_⟩
      cases he
      exact hset
  | object o =>
    refine ⟨fun c' hc' => ⟨_, rfl, ?_⟩, fun e he => by cases he⟩
    cases hc'
    exact h.object_set o t m
  | other =>
    refine ⟨fun c' hc' => (by cases hc'), fun e he => ?_⟩
    cases he
    rfl

theorem value_eq (h : Holds s c) (k : Object × Tag) (idx : Nat) :
    value s (s.attached k) idx = c.read k idx := by
  unfold Texts.read
  cases hc : c k with
  | none =>
    rw [h.tuples.attached_none (by rw [Function.comp, hc]; rfl)]
    rfl
  | some texts =>
    obtain ⟨n, hn, hops⟩ := h.tuples.attached_some (by rw [Function.comp, hc]; rfl)
    have hne : texts ≠ [] := fun hnil => h.nonempty k (hnil ▸ hc)
    rw [hn]
    cases hidx : texts[idx]? with
    | some m =>
      simp only [hidx]
      exact Represents.value_eq hops (by rw [List.getElem?_map, hidx]; rfl)
    | none => simp [value, Store.operands, Store.getOperand, hops, hne, hidx, bind, Except.bind]

theorem get (h : Holds s c) (v : Value) (t : Tag) : Meta.get s v t = c.get v t := by
  cases v with
  | argument a =>
    rw [Texts.get, ← h.value_eq]
    change Argument.get s a = _
    unfold Argument.get Store.getMetadata
    cases s.attached (.function a.parent, Tag.arguments) <;> rfl
  | object o => exact h.value_eq (o, t) 0
  | other => rfl

/-- The calls of `set`, one after the other; the first one that fails ends the run. -/
theorem setAll (h : Holds s c) (calls : List SetCall) :
    (∀ c', c.setAll calls = .ok c' → ∃ s', Meta.setAll s calls = .ok s' ∧ Holds s' c') ∧
      ∀ e, c.setAll calls = .error e → Meta.setAll s calls = .error e := by
  induction calls generalizing s c with
  | nil =>
    refine ⟨fun c' hc' => ⟨s, rfl, ?_⟩, fun e he => by cases he⟩
    cases hc'
    exact h
  | cons x calls ih =>
    obtain ⟨hok, herr⟩ := h.set x.val x.tag x.str
    rw [Texts.setAll, Meta.setAll, List.foldlM_cons, List.foldlM_cons]
    cases hx : c.set x.val x.tag x.str with
    | ok c₁ =>
      obtain ⟨s₁, hs₁, h₁⟩ := hok c₁ hx
      rw [hs₁]
      exact ih h₁
    | error e =>
      rw [herr e hx]
      refine ⟨fun c' hc' => (by cases hc'), fun e' he => ?_⟩
      cases he
      rfl

end Holds

/-- After every run of `set`, every call of `get` answers as the store of the texts does, and where one
of the calls fails, the other one does with the same fault. The tuples of different objects and tags
are different. -/
theorem setAll_get (heap : List (List Metadata)) (calls : List SetCall) :
    (∀ v t, (setAll (fresh heap) calls >>= fun s => get s v t) =
      Texts.setAll (fun _ => none) calls >>= fun c => c.get v t) ∧
    ∀ s, setAll (fresh heap) calls = .ok s → ∀ k k' n,
      s.attached k = some n → s.attached k' = some n → k = k' := by
  obtain ⟨hok, herr⟩ := (Holds.fresh heap).setAll calls
  cases hc : Texts.setAll (fun _ => none) calls with
  | ok c =>
    obtain ⟨s, hs, h⟩ := hok c hc
    rw [hs]
    refine ⟨h.get, ?_⟩
    rintro _ ⟨⟩ k k' n
    exact h.tuples.distinct
  | error e =>
    rw [herr e hc]
    exact ⟨fun _ _ => rfl, fun s hs => by cases hs⟩

/-! ## Runs -/

/-- The call sets the function under the reserved tag. -/
def SetCall.reserves (fn : Function) (x : SetCall) : Bool :=
  decide (x.val = .object (.function fn) ∧ x.tag = Tag.arguments)

/-- The call sets the function under the reserved tag, or an argument of it. -/
def SetCall.touches (fn : Function) (x : SetCall) : Bool := x.reserves fn || x.val.isArgumentOf fn

/-- The call sets the function under the reserved tag, or its first argument. -/
def SetCall.setsFirst (fn : Function) (x : SetCall) : Bool :=
  x.reserves fn || match x.val with
    | .argument a => decide (a.parent = fn ∧ a.argNo.val = 0)
    | _ => false

/-- The tuple of a function has one operand if the function has been set under the reserved tag, and
its first operand is the text of the last call that sets it. -/
structure Rowed (calls : List SetCall) (c : Texts) : Prop where
  isSome : ∀ fn, (c (.function fn, Tag.arguments)).isSome = calls.any (SetCall.touches fn)
  length : ∀ fn, (c.row fn).length = if calls.any (SetCall.reserves fn) then 1 else fn.argSize
  first : ∀ fn, 0 < fn.argSize →
    (c.row fn)[0]? = some ((last (SetCall.setsFirst fn) calls).getD Tag.none)

theorem Rowed.nil : Rowed [] fun _ => none where
  isSome _ := rfl
  length fn := List.length_replicate
  first fn hpos := by
    change (List.replicate fn.argSize Tag.none)[0]? = _
    rw [List.getElem?_replicate, if_pos hpos]
    rfl

theorem Texts.row_update {c : Texts} {fn : Function} {k : Object × Tag} {texts : List String} :
    Texts.row (Function.update c k (some texts)) fn =
      if (.function fn, Tag.arguments) = k then texts else c.row fn := by
  rw [Texts.row, Function.update_apply]
  split
  next => rfl
  next => rfl

/-- A call for an argument changes the row of its function only. -/
theorem Rowed.argument (h : Rowed calls c) (a : Argument) (t : Tag) (m : String)
    (hlt : a.argNo < (c.row a.parent).length) :
    Rowed (calls ++ [⟨.argument a, t, m⟩]) (Function.update c (.function a.parent, Tag.arguments)
      (some ((c.row a.parent).set a.argNo m))) where
  isSome fn := by
    have hfn := h.isSome fn
    by_cases heq : fn = a.parent
    · simp [heq, SetCall.touches, Value.isArgumentOf]
    · simp [heq, Ne.symm heq, hfn, SetCall.touches, SetCall.reserves, Value.isArgumentOf]
  length fn := by
    have hfn := h.length fn
    rw [Texts.row_update]
    split
    next heq =>
      cases heq
      simpa [SetCall.reserves] using hfn
    next => simpa [SetCall.reserves] using hfn
  first fn hpos := by
    have hfn := h.first fn hpos
    rw [Texts.row_update, last_concat]
    split
    next heq =>
      cases heq
      by_cases hzero : a.argNo.val = 0
      · simp [hzero, SetCall.setsFirst, hzero ▸ hlt]
      · simpa [hzero, SetCall.setsFirst, SetCall.reserves, List.getElem?_set_ne hzero] using hfn
    next hne =>
      have hparent : a.parent ≠ fn := fun heq => hne (by rw [heq])
      simpa [hparent, SetCall.setsFirst, SetCall.reserves] using hfn

theorem SetCall.reserves_object {fn : Function} {o : Object} {t : Tag} {m : String}
    (h : (.function fn, Tag.arguments) ≠ (o, t)) : SetCall.reserves fn ⟨.object o, t, m⟩ = false := by
  refine decide_eq_false fun hot => h ?_
  cases hot.1
  exact congrArg _ hot.2.symm

/-- A call for a function under the reserved tag makes a row of one text. -/
theorem Rowed.object (h : Rowed calls c) (o : Object) (t : Tag) (m : String) :
    Rowed (calls ++ [⟨.object o, t, m⟩]) (Function.update c (o, t) (some [m])) where
  isSome fn := by
    have hfn := h.isSome fn
    by_cases heq : (.function fn, Tag.arguments) = (o, t)
    · cases heq
      simp [SetCall.touches, SetCall.reserves]
    · rw [Function.update_of_ne heq, hfn]
      simp [SetCall.touches, SetCall.reserves_object heq, Value.isArgumentOf]
  length fn := by
    have hfn := h.length fn
    rw [Texts.row_update]
    split
    next heq =>
      cases heq
      simp [SetCall.reserves]
    next heq => simpa [SetCall.reserves_object heq] using hfn
  first fn hpos := by
    have hfn := h.first fn hpos
    rw [Texts.row_update, last_concat]
    split
    next heq =>
      cases heq
      simp [SetCall.setsFirst, SetCall.reserves]
    next heq => simpa [SetCall.setsFirst, SetCall.reserves_object heq] using hfn

theorem Rowed.step (h : Rowed calls c) {x : SetCall} (hx : c.set x.val x.tag x.str = .ok c') :
    Rowed (calls ++ [x]) c' := by
  obtain ⟨v, t, m⟩ := x
  cases v with
  | argument a =>
    rw [Texts.set] at hx
    split at hx
    next hlt =>
      cases hx
      exact h.argument a t m hlt
    next => cases hx
  | object o =>
    cases hx
    exact h.object o t m
  | other => cases hx

/-- A call fails if it sets an argument other than the first one of a function that has been set
under the reserved tag. -/
def FailsAfter (calls : List SetCall) (x : SetCall) : Prop :=
  ∃ a, x.val = .argument a ∧ 1 ≤ a.argNo.val ∧ calls.any (SetCall.reserves a.parent) = true

theorem Rowed.set_cases (h : Rowed calls c) {x : SetCall} (hx : x.val ≠ .other) :
    (FailsAfter calls x ∧ c.set x.val x.tag x.str = .error .outOfRange) ∨
      ¬ FailsAfter calls x ∧ ∃ c', c.set x.val x.tag x.str = .ok c' := by
  obtain ⟨v, t, m⟩ := x
  cases v with
  | argument a =>
    have hlen := h.length a.parent
    have hlt := a.argNo.isLt
    rw [Texts.set]
    split
    next hin =>
      refine .inr ⟨?_, _, rfl⟩
      rintro ⟨_, ⟨⟩, hpos, hany⟩
      rw [hany, if_pos rfl] at hlen
      omega
    next hout =>
      refine .inl ⟨⟨a, rfl, ?_⟩, rfl⟩
      split at hlen
      next hany => exact ⟨by omega, hany⟩
      next => omega
  | object o =>
    refine .inr ⟨?_, _, rfl⟩
    rintro ⟨_, heq, -⟩
    cases heq
  | other => exact absurd rfl hx

/-- A call of the run fails. -/
def Fails (calls : List SetCall) : Prop :=
  ∃ pre x post, calls = pre ++ x :: post ∧ FailsAfter pre x

theorem fails_concat {calls : List SetCall} {x : SetCall} :
    Fails (calls ++ [x]) ↔ Fails calls ∨ FailsAfter calls x := by
  constructor
  · rintro ⟨pre, y, post, heq, hfails⟩
    rcases List.eq_nil_or_concat post with rfl | ⟨post, z, rfl⟩
    · obtain ⟨rfl, hy⟩ := List.append_inj' heq rfl
      cases hy
      exact .inr hfails
    · rw [List.concat_eq_append, ← List.cons_append, ← List.append_assoc] at heq
      exact .inl ⟨pre, y, post, (List.append_inj' heq rfl).1, hfails⟩
  · rintro (⟨pre, y, post, rfl, hfails⟩ | hfails)
    · exact ⟨pre, y, post ++ [x], by simp, hfails⟩
    · exact ⟨calls, x, [], rfl, hfails⟩

/-- A run fails at the first call that fails, or leads to rows as they are described. -/
theorem Texts.setAll_cases (calls : List SetCall) (h : ∀ x ∈ calls, x.val ≠ .other) :
    (Fails calls ∧ Texts.setAll (fun _ => none) calls = .error .outOfRange) ∨
      ¬ Fails calls ∧ ∃ c, Texts.setAll (fun _ => none) calls = .ok c ∧ Rowed calls c := by
  induction calls using List.reverseRecOn with
  | nil =>
    refine .inr ⟨?_, _, rfl, .nil⟩
    rintro ⟨pre, x, post, heq, -⟩
    simp at heq
  | append_singleton calls x ih =>
    have hconcat : Texts.setAll (fun _ => none) (calls ++ [x]) =
        Texts.setAll (fun _ => none) calls >>= fun c => c.set x.val x.tag x.str := by
      rw [Texts.setAll, Texts.setAll, List.foldlM_append]
      simp
    rw [fails_concat, hconcat]
    rcases ih fun y hy => h y (List.mem_append_left _ hy) with
      ⟨hfails, herr⟩ | ⟨hfails, c, hok, hc⟩
    · exact .inl ⟨.inl hfails, by rw [herr]; rfl⟩
    · rw [hok]
      rcases hc.set_cases (h x (by simp)) with ⟨hx, herr⟩ | ⟨hx, c', hc'⟩
      · exact .inl ⟨.inr hx, herr⟩
      · exact .inr ⟨not_or.2 ⟨hfails, hx⟩, c', hc', hc.step hc'⟩

/-- The operand of a function's tuple, if there is a tuple. -/
theorem Rowed.read (h : Rowed calls c) (fn : Function) (idx : Nat) :
    c.read (.function fn, Tag.arguments) idx =
      if calls.any (SetCall.touches fn) then
        match (c.row fn)[idx]? with
        | some m => .ok (Represents.nonempty m)
        | none => .error .outOfRange
      else .ok none := by
  rw [← h.isSome fn, Texts.read, Texts.row]
  cases c (.function fn, Tag.arguments) <;> rfl

/-- A run of `set` fails exactly if it sets an argument other than the first one of a function that
it has set under the reserved tag. After a run that does not fail, the function under the reserved
tag and its first argument have one text, that of the last call for either of them, and the other
arguments of a function that has been set under the reserved tag cannot be read. -/
theorem setAll_reserved (heap : List (List Metadata)) (calls : List SetCall)
    (h : ∀ x ∈ calls, x.val ≠ .other) :
    (Fails calls → setAll (fresh heap) calls = .error .outOfRange) ∧
    (¬ Fails calls → ∃ s, setAll (fresh heap) calls = .ok s ∧
      (∀ fn (hpos : 0 < fn.argSize) t,
        get s (.object (.function fn)) Tag.arguments = get s (.argument ⟨fn, ⟨0, hpos⟩⟩) t ∧
        get s (.argument ⟨fn, ⟨0, hpos⟩⟩) t = .ok (if calls.any (SetCall.touches fn) then
          Represents.nonempty ((last (SetCall.setsFirst fn) calls).getD Tag.none) else none)) ∧
      ∀ a : Argument, ∀ t, 1 ≤ a.argNo.val →
        (get s (.argument a) t = .error .outOfRange ↔
          calls.any (SetCall.reserves a.parent) = true)) := by
  obtain ⟨hruns, hthrows⟩ := (Holds.fresh heap).setAll calls
  rcases Texts.setAll_cases calls h with ⟨hfails, herr⟩ | ⟨hfails, c, hok, hc⟩
  · exact ⟨fun _ => hthrows _ herr, fun hn => absurd hfails hn⟩
  · obtain ⟨s, hok, hs⟩ := hruns c hok
    refine ⟨fun hf => absurd hf hfails, fun _ => ⟨s, hok, ?_, ?_⟩⟩
    · intro fn hpos t
      constructor
      · rw [hs.get, hs.get]
        rfl
      · rw [hs.get, Texts.get, hc.read]
        split
        next => simp only [hc.first fn hpos]
        next => rfl
    · intro a t hpos
      have hlen := hc.length a.parent
      have hlt := a.argNo.isLt
      rw [hs.get, Texts.get, hc.read]
      cases hres : calls.any (SetCall.reserves a.parent) with
      | true =>
        rw [hres, if_pos rfl] at hlen
        have htouch : calls.any (SetCall.touches a.parent) = true := by
          obtain ⟨x, hx, hxr⟩ := List.any_eq_true.1 hres
          exact List.any_eq_true.2 ⟨x, hx, by rw [SetCall.touches, hxr]; rfl⟩
        have hnone : (c.row a.parent)[a.argNo.val]? = none :=
          List.getElem?_eq_none (by omega)
        rw [htouch, hnone]
        exact iff_of_true rfl rfl
      | false =>
        rw [hres, if_neg Bool.false_ne_true] at hlen
        have hin : a.argNo.val < (c.row a.parent).length := by rw [hlen]; exact hlt
        rw [List.getElem?_eq_getElem hin]
        refine iff_of_false (fun heq => ?_) (by simp)
        split at heq
        next => cases heq
        next => cases heq

/-- A function with two arguments that is set under the reserved tag. -/
theorem setAll_reserved_sample : ∃ s,
    setAll (fresh []) [⟨.object (.function ⟨0, 2⟩), Tag.arguments, "m"⟩] = .ok s ∧
      get s (.argument ⟨⟨0, 2⟩, 0⟩) "t" = .ok (some "m") ∧
      get s (.argument ⟨⟨0, 2⟩, 1⟩) "t" = .error .outOfRange := by
  have hreserved := setAll_reserved [] [⟨.object (.function ⟨0, 2⟩), Tag.arguments, "m"⟩]
    (by simp)
  obtain ⟨s, hok, hfirst, hother⟩ := hreserved.2 (by
    rintro ⟨pre, x, post, heq, a, hval, -⟩
    cases pre with
    | nil =>
      cases heq
      cases hval
    | cons _ _ => simp at heq)
  refine ⟨s, hok, (hfirst ⟨0, 2⟩ (by decide) "t").2.trans (by decide), ?_⟩
  exact (hother ⟨⟨0, 2⟩, 1⟩ "t" (by decide)).2 (by decide)

end LlvmSc.Meta

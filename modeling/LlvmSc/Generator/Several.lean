import LlvmSc.Generator.Ownership

/-!
# Several generators at once

A program with any number of generators and iterators, in any order of operations. A coroutine is
resumed through its generator or through any of its iterators, also after the generator has been
moved; its resumptions are counted beside the state. Whatever is done with the other coroutines, a
coroutine is where as many resumptions of it alone lead, and its iterators are usable exactly while
a generator holds it (`several_run`).
-/

namespace LlvmSc.Generator

/-- The coroutine after `n` resumptions. -/
def Body.after (body : Body α ε) (n : Nat) : Coroutine α ε where
  body := ⟨body.yields.drop n, body.uncaught⟩
  done := decide (body.yields.length < n)
  value := (body.yields.take n).getLast?
  exception := if body.yields.length < n then body.uncaught else none

theorem create_eq_after (body : Body α ε) : Coroutine.create body = body.after 0 := by
  simp [Coroutine.create, Body.after]

theorem next_after {body : Body α ε} (h : n ≤ body.yields.length) :
    (body.after n).next = body.after (n + 1) := by
  rcases Nat.lt_or_eq_of_le h with hlt | heq
  · have hdrop : (body.after n).body.yields = body.yields[n] :: body.yields.drop (n + 1) :=
      List.drop_eq_getElem_cons hlt
    have hvalue : (body.yields.take (n + 1)).getLast? = some body.yields[n] := by
      rw [List.take_succ_eq_append_getElem hlt, List.getLast?_concat]
    have hle : ¬ body.yields.length < n + 1 := by omega
    rw [Coroutine.next, hdrop]
    simp [Body.after, hvalue, hle, Nat.not_lt_of_le h]
  · subst heq
    have hdrop : (body.after body.yields.length).body.yields = [] :=
      List.drop_eq_nil_of_le (Nat.le_refl _)
    have htake : body.yields.take (body.yields.length + 1) = body.yields :=
      List.take_of_length_le (Nat.le_succ _)
    rw [Coroutine.next, hdrop]
    simp [Body.after, htake]

section
variable {H α ε : Type} [DecidableEq H] {h : H} {frames frames' : Frames H α ε}

/-- A resumption that returns or throws an exception. -/
theorem of_advance (hadvance : advance h frames = .ok () frames' ∨
    ∃ e, advance h frames = .error (.exception e) frames') :
    (frames h).done = false ∧ frames' = Function.update frames h (frames h).next := by
  cases hd : (frames h).done with
  | true =>
    have hdone := advance_done hd
    rcases hadvance with hok | ⟨e, herr⟩
    · cases hdone.symm.trans hok
    · cases hdone.symm.trans herr
  | false =>
    refine ⟨rfl, ?_⟩
    rcases advance_cases hd with hnext | ⟨e', hnext⟩
    · rcases hadvance with hok | ⟨e, herr⟩
      · cases hnext.symm.trans hok
        rfl
      · cases hnext.symm.trans herr
    · rcases hadvance with hok | ⟨e, herr⟩
      · cases hnext.symm.trans hok
      · cases hnext.symm.trans herr
        rfl

omit [DecidableEq H] in
theorem deref_cases (it : Iterator H) (frames : Frames H α ε) :
    (∃ v, it.deref frames = .ok v frames) ∨ ∃ e, it.deref frames = .error e frames := by
  obtain ⟨coroutine⟩ := it
  cases coroutine with
  | none => exact .inr ⟨.nullHandle, rfl⟩
  | some h =>
    cases hv : (frames h).value with
    | none => exact .inr ⟨.uninitialized, (EStateM.bind_ok rfl).trans (by simp only [hv]; rfl)⟩
    | some v => exact .inl ⟨v, (EStateM.bind_ok rfl).trans (by simp only [hv]; rfl)⟩

end

namespace Several

inductive Error (ε : Type) where
  | generator (e : Generator.Error ε)
  /-- A generator or a coroutine is used that is not alive. -/
  | lifetime

structure State (V α ε : Type) where
  ownership : Ownership.State V
  frames : Frames Nat α ε
  its : List (Iterator Nat)

variable {V α β ε : Type}

/-- No generator is alive; the coroutine that is created as number `h` has the body `bodies h`. -/
def State.init (bodies : Nat → Body α ε) : State V α ε :=
  ⟨.empty, fun h => .create (bodies h), []⟩

abbrev M (V α ε : Type) := EStateM (Error ε) (State V α ε)

def onFrames (m : Generator.M Nat α ε β) : M V α ε β := fun s =>
  match m s.frames with
  | .ok b frames => .ok b { s with frames := frames }
  | .error e frames => .error (.generator e) { s with frames := frames }

inductive Op (V : Type) where
  /-- A step of a special member of `generator`. -/
  | prim (p : Ownership.Prim V)
  | begin (x : V)
  /-- `operator++` of the `k`-th iterator that has been given -/
  | incr (k : Nat)
  /-- `operator*` of the `k`-th iterator that has been given -/
  | deref (k : Nat)
  /-- The comparison of the `k`-th iterator that has been given with `end()`. -/
  | isEnd (k : Nat)

/-- What an operation gives. -/
inductive Answer (α : Type) where
  | nothing
  /-- the value of `operator*` -/
  | value (y : α)
  /-- the value of `it == end()` -/
  | equal (b : Bool)

/-- The `k`-th iterator, whose coroutine is about to be used. -/
def iterator (k : Nat) : M V α ε (Iterator Nat) := do
  let s ← get
  match s.its[k]? with
  | none => throw .lifetime
  | some it =>
    if it.coroutine.all (s.ownership.destroyed · = 0) then return it else throw .lifetime

section
variable [DecidableEq V]

def Op.apply : Op V → M V α ε (Answer α)
  | prim p => do
    let s ← get
    match p.apply s.ownership with
    | none => throw .lifetime
    | some ownership => do
      set { s with ownership := ownership }
      return .nothing
  | begin x => do
    match (← get).ownership.generators (.var x) with
    | none => throw .lifetime
    | some g => do
      let it ← onFrames g.begin
      modify fun s => { s with its := s.its ++ [it] }
      return .nothing
  | incr k => do
    let it ← iterator k
    onFrames it.incr
    return .nothing
  | deref k => do
    let it ← iterator k
    return .value (← onFrames it.deref)
  | isEnd k => do
    let it ← iterator k
    return .equal (it.isEnd (← get).frames)

/-- An operation returns or throws an exception; every other error ends the program. -/
inductive Step (s : State V α ε) (op : Op V) (s' : State V α ε) : Prop where
  | returned (out : Answer α) : op.apply s = .ok out s' → Step s op s'
  | thrown (e : ε) : op.apply s = .error (.generator (.exception e)) s' → Step s op s'

end

/-- The coroutine that an operation resumes. -/
def Op.resumes (s : State V α ε) : Op V → Option Nat
  | prim _ | deref _ | isEnd _ => none
  | begin x => s.ownership.handle (.var x)
  | incr k => s.its[k]?.bind Iterator.coroutine

/-- Counts the resumptions of each coroutine. -/
def count (s : State V α ε) (op : Op V) (n : Nat → Nat) : Nat → Nat :=
  match op.resumes s with
  | none => n
  | some h => Function.update n h (n h + 1)

/-! ## What an operation does -/

theorem created_le [DecidableEq V] {o o' : Ownership.State V} (h : Ownership.Step o p o') :
    o.created ≤ o'.created := by
  cases Ownership.step_effect h with
  | permute _ _ hcreated => exact Nat.le_of_eq hcreated.symm
  | create _ _ _ hcreated => exact hcreated ▸ Nat.le_succ _
  | destroy _ _ _ _ hcreated => exact Nat.le_of_eq hcreated.symm

section
variable {s s' : State V α ε} {m : Generator.M Nat α ε β}

theorem onFrames_ok (h : m s.frames = .ok b frames) :
    onFrames m s = .ok b { s with frames := frames } := by
  rw [onFrames, h]

theorem onFrames_error (h : m s.frames = .error e frames) :
    onFrames m s = .error (.generator e) { s with frames := frames } := by
  rw [onFrames, h]

theorem iterator_ok (hk : s.its[k]? = some it)
    (halive : ∀ h, it.coroutine = some h → s.ownership.destroyed h = 0) :
    iterator k s = .ok it s := by
  refine (EStateM.bind_ok rfl).trans ?_
  have hall : it.coroutine.all (s.ownership.destroyed · = 0) = true := by
    simpa [Option.all_eq_true] using halive
  simp only [hk, hall]
  rfl

theorem iterator_dangling (hk : s.its[k]? = some it) (hh : it.coroutine = some h)
    (hdead : s.ownership.destroyed h ≠ 0) : iterator k s = .error .lifetime s := by
  refine (EStateM.bind_ok rfl).trans ?_
  simp only [hk, hh, Option.all_some, hdead, decide_false]
  rfl

/-- An operation on an iterator uses one that has been given. -/
theorem iterator_cases (k : Nat) : iterator k s = .error .lifetime s ∨
    ∃ it, s.its[k]? = some it ∧ iterator k s = .ok it s := by
  have hlookup : iterator k s = _ := EStateM.bind_ok rfl
  cases hk : s.its[k]? with
  | none => exact .inl (hlookup.trans (by simp only [hk]; rfl))
  | some it =>
    simp only [hk] at hlookup
    split at hlookup
    · exact .inr ⟨it, rfl, hlookup⟩
    · exact .inl hlookup

variable [DecidableEq V] {op : Op V}

theorem Step.of_ok (h : Step s op s') (happly : op.apply s = .ok out s₁) : s' = s₁ := by
  cases h with
  | returned _ h =>
    cases happly.symm.trans h
    rfl
  | thrown _ h => cases happly.symm.trans h

theorem Step.of_error (h : Step s op s') (happly : op.apply s = .error e s₁) :
    s' = s₁ ∧ ∃ x, e = .generator (.exception x) := by
  cases h with
  | returned _ h => cases happly.symm.trans h
  | thrown x h =>
    cases happly.symm.trans h
    exact ⟨rfl, x, rfl⟩

/-- What an operation does that returns or throws an exception. -/
inductive Change (s : State V α ε) (op : Op V) : State V α ε → Prop
  | owned (p ownership) : op.resumes s = none → Ownership.Step s.ownership p ownership →
    Change s op { s with ownership := ownership }
  | unresumed (its) : op.resumes s = none → (∀ it ∈ its, it ∈ s.its ∨ it.coroutine = none) →
    Change s op { s with its := its }
  | resumed (h its) : op.resumes s = some h → (s.frames h).done = false →
    ((∃ p, s.ownership.handle p = some h) ∨ ∃ it ∈ s.its, it.coroutine = some h) →
    (∀ it ∈ its, it ∈ s.its ∨ it.coroutine = some h) →
    Change s op ⟨s.ownership, Function.update s.frames h (s.frames h).next, its⟩

theorem prim_change (h : Step s (.prim p) s') : Change s (.prim p) s' := by
  cases hp : p.apply s.ownership with
  | none =>
    have happly : (Op.prim p).apply s = .error .lifetime s :=
      (EStateM.bind_ok rfl).trans (by simp only [hp]; rfl)
    obtain ⟨-, x, hx⟩ := h.of_error happly
    cases hx
  | some ownership =>
    have happly : (Op.prim p).apply s = .ok .nothing { s with ownership := ownership } :=
      (EStateM.bind_ok rfl).trans (by simp only [hp]; rfl)
    cases h.of_ok happly
    exact .owned p ownership rfl hp

theorem begin_change (h : Step s (.begin x) s') : Change s (.begin x) s' := by
  have hlookup : (Op.begin x).apply s = _ := EStateM.bind_ok rfl
  cases hg : s.ownership.generators (.var x) with
  | none =>
    obtain ⟨-, e, he⟩ := h.of_error (hlookup.trans (by simp only [hg]; rfl))
    cases he
  | some g =>
    simp only [hg] at hlookup
    obtain ⟨coroutine⟩ := g
    cases coroutine with
    | none =>
      have hbegin : Generator.begin ⟨none⟩ s.frames = .ok ⟨none⟩ s.frames := rfl
      cases h.of_ok (hlookup.trans (EStateM.bind_ok (onFrames_ok hbegin)))
      refine .unresumed _ (Ownership.handle_eq hg) fun it hit => ?_
      rcases List.mem_append.1 hit with hit | hit
      · exact .inl hit
      · cases List.mem_singleton.1 hit
        exact .inr rfl
    | some c =>
      have hhandle := Ownership.handle_eq hg
      cases hadvance : advance c s.frames with
      | ok u frames =>
        have hbegin : Generator.begin ⟨some c⟩ s.frames = .ok ⟨some c⟩ frames :=
          EStateM.bind_ok hadvance
        obtain ⟨hd, rfl⟩ := of_advance (.inl hadvance)
        cases h.of_ok (hlookup.trans (EStateM.bind_ok (onFrames_ok hbegin)))
        refine .resumed c _ hhandle hd (.inl ⟨_, hhandle⟩) fun it hit => ?_
        rcases List.mem_append.1 hit with hit | hit
        · exact .inl hit
        · cases List.mem_singleton.1 hit
          exact .inr rfl
      | error e frames =>
        have hbegin : Generator.begin ⟨some c⟩ s.frames = .error e frames :=
          EStateM.bind_error hadvance
        have happly := hlookup.trans (EStateM.bind_error (onFrames_error hbegin))
        obtain ⟨rfl, x, hx⟩ := h.of_error happly
        cases hx
        obtain ⟨hd, rfl⟩ := of_advance (.inr ⟨x, hadvance⟩)
        exact .resumed c _ hhandle hd (.inl ⟨_, hhandle⟩) fun it hit => .inl hit

theorem deref_change (h : Step s (.deref k) s') : Change s (.deref k) s' := by
  have hsame : Change s (.deref k) s := .unresumed s.its rfl fun it hit => .inl hit
  rcases iterator_cases (s := s) k with hit | ⟨it, -, hit⟩
  · obtain ⟨-, e, he⟩ := h.of_error (EStateM.bind_error hit)
    cases he
  · have hlookup : (Op.deref k).apply s = _ := EStateM.bind_ok hit
    rcases deref_cases it s.frames with ⟨v, hv⟩ | ⟨e, he⟩
    · cases h.of_ok (hlookup.trans (EStateM.bind_ok (onFrames_ok hv)))
      exact hsame
    · cases (h.of_error (hlookup.trans (EStateM.bind_error (onFrames_error he)))).1
      exact hsame

theorem incr_change (h : Step s (.incr k) s') : Change s (.incr k) s' := by
  rcases iterator_cases (s := s) k with hit | ⟨⟨coroutine⟩, hk, hit⟩
  · obtain ⟨-, e, he⟩ := h.of_error (EStateM.bind_error hit)
    cases he
  · have hlookup : (Op.incr k).apply s = _ := EStateM.bind_ok hit
    cases coroutine with
    | none =>
      have hnull : Iterator.incr ⟨none⟩ s.frames = .error .nullHandle s.frames := rfl
      obtain ⟨-, e, he⟩ := h.of_error (hlookup.trans (EStateM.bind_error (onFrames_error hnull)))
      cases he
    | some c =>
      have hresumes : (Op.incr k).resumes s = some c := by rw [Op.resumes, hk]; rfl
      have hused : ∃ it ∈ s.its, it.coroutine = some c := ⟨_, List.mem_of_getElem? hk, rfl⟩
      cases hadvance : advance c s.frames with
      | ok u frames =>
        obtain ⟨hd, rfl⟩ := of_advance (.inl hadvance)
        cases h.of_ok (hlookup.trans (EStateM.bind_ok (onFrames_ok hadvance)))
        exact .resumed c _ hresumes hd (.inr hused) fun it hit => .inl hit
      | error e frames =>
        have happly := hlookup.trans (EStateM.bind_error (onFrames_error hadvance))
        obtain ⟨rfl, x, hx⟩ := h.of_error happly
        cases hx
        obtain ⟨hd, rfl⟩ := of_advance (.inr ⟨x, hadvance⟩)
        exact .resumed c _ hresumes hd (.inr hused) fun it hit => .inl hit

theorem isEnd_change (h : Step s (.isEnd k) s') : Change s (.isEnd k) s' := by
  rcases iterator_cases (s := s) k with hit | ⟨it, -, hit⟩
  · obtain ⟨-, e, he⟩ := h.of_error (EStateM.bind_error hit)
    cases he
  · have hlookup : (Op.isEnd k).apply s = _ := EStateM.bind_ok hit
    cases h.of_ok hlookup
    exact .unresumed s.its rfl fun it hit => .inl hit

theorem step_change (h : Step s op s') : Change s op s' := by
  cases op with
  | prim p => exact prim_change h
  | begin x => exact begin_change h
  | incr k => exact incr_change h
  | deref k => exact deref_change h
  | isEnd k => exact isEnd_change h

end

/-! ## Runs -/

/-- Every coroutine is held or destroyed as its ledger says, and is where its own resumptions lead;
iterators have been given for coroutines that have been resumed. -/
structure Inv (bodies : Nat → Body α ε) (s : State V α ε) (n : Nat → Nat) : Prop where
  ledger : ∀ h, Ownership.Ledger s.ownership h
  bound : ∀ h, n h ≤ (bodies h).yields.length + 1
  frame : ∀ h, s.frames h = (bodies h).after (n h)
  its : ∀ it ∈ s.its, ∀ h, it.coroutine = some h → 0 < n h ∧ h < s.ownership.created

section
variable {bodies : Nat → Body α ε} {s s' : State V α ε} {n : Nat → Nat} {op : Op V}

theorem Inv.init (bodies : Nat → Body α ε) :
    Inv bodies (.init bodies : State V α ε) fun _ => 0 where
  ledger := Ownership.Ledger.empty
  bound _ := Nat.zero_le _
  frame h := create_eq_after (bodies h)
  its _ hit := absurd hit List.not_mem_nil

/-- A coroutine that an iterator or a generator refers to has been created. -/
theorem Inv.created (hs : Inv bodies s n)
    (hused : (∃ p, s.ownership.handle p = some h) ∨ ∃ it ∈ s.its, it.coroutine = some h) :
    h < s.ownership.created := by
  rcases hused with ⟨p, hp⟩ | ⟨it, hit, hh⟩
  · cases hs.ledger h with
    | future _ hfree => exact absurd hp (hfree p)
    | held _ hcreated => exact hcreated
    | ended hcreated => exact hcreated
  · exact (hs.its it hit h hh).2

/-- A coroutine that has an iterator is alive as long as a generator holds it. -/
theorem Inv.alive_iff {k : Nat} (hs : Inv bodies s n) (hk : s.its[k]? = some it)
    (hh : it.coroutine = some h) :
    s.ownership.destroyed h = 0 ↔ ∃ p, s.ownership.handle p = some h := by
  obtain ⟨-, hcreated⟩ := hs.its it (List.mem_of_getElem? hk) h hh
  cases hs.ledger h with
  | future hle => omega
  | held p _ honly hdestroyed => exact iff_of_true hdestroyed ⟨p, (honly p).2 rfl⟩
  | ended _ hfree hdestroyed => exact iff_of_false (by omega) fun ⟨p, hp⟩ => hfree p hp

/-- The resumption of one coroutine leaves the others where they are. -/
theorem Inv.resume (hs : Inv bodies s n) (hd : (s.frames h).done = false)
    (hused : (∃ p, s.ownership.handle p = some h) ∨ ∃ it ∈ s.its, it.coroutine = some h)
    {its : List (Iterator Nat)} (hits : ∀ it ∈ its, it ∈ s.its ∨ it.coroutine = some h) :
    Inv bodies ⟨s.ownership, Function.update s.frames h (s.frames h).next, its⟩
      (Function.update n h (n h + 1)) where
  ledger := hs.ledger
  bound h' := by
    rw [Function.update_apply]
    split
    next heq =>
      rw [hs.frame] at hd
      rw [heq]
      exact Nat.succ_le_succ (Nat.le_of_not_lt (of_decide_eq_false hd))
    next => exact hs.bound h'
  frame h' := by
    simp only [Function.update_apply]
    split
    next heq =>
      rw [hs.frame] at hd ⊢
      rw [heq]
      exact next_after (Nat.le_of_not_lt (of_decide_eq_false hd))
    next => exact hs.frame h'
  its it hit h' hh' := by
    rw [Function.update_apply]
    rcases hits it hit with hit | hh
    · obtain ⟨hpos, hcreated⟩ := hs.its it hit h' hh'
      refine ⟨?_, hcreated⟩
      split
      next => exact Nat.succ_pos _
      next => exact hpos
    · cases hh.symm.trans hh'
      rw [if_pos rfl]
      exact ⟨Nat.succ_pos _, hs.created hused⟩

variable [DecidableEq V]

theorem Inv.step (hs : Inv bodies s n) (h : Step s op s') : Inv bodies s' (count s op n) := by
  cases step_change h with
  | owned p ownership hnone hstep =>
    rw [count, hnone]
    refine ⟨Ownership.Ledger.step hs.ledger hstep, hs.bound, hs.frame, fun it hit h hh => ?_⟩
    obtain ⟨hpos, hcreated⟩ := hs.its it hit h hh
    exact ⟨hpos, Nat.lt_of_lt_of_le hcreated (created_le hstep)⟩
  | unresumed its hnone hits =>
    rw [count, hnone]
    refine ⟨hs.ledger, hs.bound, hs.frame, fun it hit h hh => ?_⟩
    rcases hits it hit with hit | hnull
    · exact hs.its it hit h hh
    · cases hnull.symm.trans hh
  | resumed h its hresumes hd hused hits =>
    rw [count, hresumes]
    exact hs.resume hd hused hits

theorem Inv.run {p p' : State V α ε × (Nat → Nat)} {ops : List (Op V)} (hp : Inv bodies p.1 p.2)
    (h : Run (Recorded Step count) p ops p') : Inv bodies p'.1 p'.2 := by
  induction h with
  | nil => exact hp
  | cons hstep _ ih =>
    obtain ⟨hstep, hcount⟩ := hstep
    exact ih (hcount ▸ hp.step hstep)

/-- An iterator is at the end if its coroutine has been resumed more often than it has yields. -/
theorem Inv.isEnd (hs : Inv bodies s n) (hk : s.its[k]? = some it) (hh : it.coroutine = some h)
    (halive : s.ownership.destroyed h = 0) :
    (Op.isEnd k).apply s = .ok (.equal (decide (n h = (bodies h).yields.length + 1))) s := by
  obtain ⟨coroutine⟩ := it
  cases hh
  have hend : Iterator.isEnd ⟨some h⟩ s.frames = decide (n h = (bodies h).yields.length + 1) := by
    have hbound := hs.bound h
    change (s.frames h).done = _
    rw [hs.frame, Body.after]
    exact decide_eq_decide.2 (by omega)
  refine (EStateM.bind_ok (iterator_ok hk ?_)).trans ?_
  · rintro _ ⟨⟩
    exact halive
  · rw [← hend]
    rfl

/-- The iterator of a coroutine that has not ended gives the value of the last resumption. -/
theorem Inv.deref (hs : Inv bodies s n) (hk : s.its[k]? = some it) (hh : it.coroutine = some h)
    (halive : s.ownership.destroyed h = 0) (hend : n h ≠ (bodies h).yields.length + 1) :
    ∃ y, (bodies h).yields[n h - 1]? = some y ∧ (Op.deref k).apply s = .ok (.value y) s := by
  obtain ⟨coroutine⟩ := it
  cases hh
  obtain ⟨hpos, -⟩ := hs.its _ (List.mem_of_getElem? hk) h rfl
  have hbound := hs.bound h
  have hy : (bodies h).yields[n h - 1]? = some (bodies h).yields[n h - 1] :=
    List.getElem?_eq_getElem (by omega)
  have hvalue : (s.frames h).value = some (bodies h).yields[n h - 1] := by
    rw [hs.frame, Body.after, List.getLast?_take, if_neg (by omega), hy]
    rfl
  have hderef : Iterator.deref ⟨some h⟩ s.frames = .ok (bodies h).yields[n h - 1] s.frames :=
    (EStateM.bind_ok rfl).trans (by simp only [hvalue]; rfl)
  refine ⟨_, hy, (EStateM.bind_ok (iterator_ok hk ?_)).trans ?_⟩
  · rintro _ ⟨⟩
    exact halive
  · exact EStateM.bind_ok (onFrames_ok hderef)

/-- In every order of operations, each coroutine is where its own resumptions alone lead. While a
generator holds it, its iterators are at the end once it has been resumed more often than it has
yields, and give the value of the last resumption until then; afterwards they are not usable. -/
theorem several_run (bodies : Nat → Body α ε) (ops : List (Op V)) (s : State V α ε) (n : Nat → Nat)
    (hrun : Run (Recorded Step count) (.init bodies, fun _ => 0) ops (s, n)) :
    (∀ h, s.frames h = (bodies h).after (n h)) ∧
    ∀ k it h, s.its[k]? = some it → it.coroutine = some h →
      ((∃ p, s.ownership.handle p = some h) →
        (Op.isEnd k).apply s = .ok (.equal (decide (n h = (bodies h).yields.length + 1))) s ∧
        (n h ≠ (bodies h).yields.length + 1 →
          ∃ y, (bodies h).yields[n h - 1]? = some y ∧ (Op.deref k).apply s = .ok (.value y) s)) ∧
      ((∀ p, s.ownership.handle p ≠ some h) → (Op.isEnd k).apply s = .error .lifetime s ∧
        (Op.deref k).apply s = .error .lifetime s ∧ (Op.incr k).apply s = .error .lifetime s) := by
  have hs : Inv bodies s n := (Inv.init bodies).run hrun
  refine ⟨hs.frame, fun k it h hk hh => ⟨fun hheld => ?_, fun hfree => ?_⟩⟩
  · have halive := (hs.alive_iff hk hh).2 hheld
    exact ⟨hs.isEnd hk hh halive, hs.deref hk hh halive⟩
  · have hdead : s.ownership.destroyed h ≠ 0 := by
      rw [Ne, hs.alive_iff hk hh]
      exact fun ⟨p, hp⟩ => hfree p hp
    have hit := iterator_dangling hk hh hdead
    exact ⟨EStateM.bind_error hit, EStateM.bind_error hit, EStateM.bind_error hit⟩

end

/-- Two generators in turn; the second one is destroyed, and the first one is moved to its place. -/
theorem several_run_sample : ∃ s : State Bool Nat Unit,
    (Op.isEnd 0).apply s = .ok (.equal false) s ∧ (Op.deref 0).apply s = .ok (.value 8) s ∧
      (Op.isEnd 1).apply s = .error .lifetime s := by
  have hrun : Run (Recorded Step count)
      ((.init fun h => if h = 0 then ⟨[7, 8], none⟩ else ⟨[9], some ()⟩ : State Bool Nat Unit),
        fun _ => 0)
      [.prim (.create (.var false)), .prim (.create (.var true)), .begin false, .begin true, .incr 0,
        .prim (.destroy (.var true)), .prim (.moveConstruct (.var true) (.var false))] _ :=
    .cons_recorded (.returned .nothing rfl) (.cons_recorded (.returned .nothing rfl)
      (.cons_recorded (.returned .nothing rfl) (.cons_recorded (.returned .nothing rfl)
        (.cons_recorded (.returned .nothing rfl) (.cons_recorded (.returned .nothing rfl)
          (.cons_recorded (.returned .nothing rfl) .nil))))))
  obtain ⟨-, hits⟩ := several_run _ _ _ _ hrun
  obtain ⟨hend, hvalue⟩ := (hits 0 _ 0 rfl rfl).1 ⟨.var true, rfl⟩
  obtain ⟨y, hy, hderef⟩ := hvalue (by decide)
  cases hy
  refine ⟨_, hend, hderef, ((hits 1 _ 1 rfl rfl).2 fun p => ?_).1⟩
  cases p with
  | other => exact fun h => by cases h
  | var x =>
    revert x
    decide

end Several
end LlvmSc.Generator

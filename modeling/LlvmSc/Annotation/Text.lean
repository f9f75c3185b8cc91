import LlvmSc.Annotation.Basic
import LlvmSc.Lib.Split

/-!
# Annotations and their texts

`str` joins the parts from the first one on that is not empty (`str_eq`), so parsing undoes it on the
annotations that lose no part. The constructors differ in what they take for a part: the one of a
`StringRef` cuts the text, the variadic one takes every string as it is. So two annotations with the
same text need not be equal, but cutting their parts gives the same fields.
-/

namespace LlvmSc.Annotation

/-! ## The constructors -/

/-- `annotation(parts...)` -/
def ofParts (parts : List StringRef) : Annotation := ⟨parts⟩

/-- `annotation(begin, end)`, on the parts of an annotation from `first` to `last`. -/
def ofRange (a : Annotation) (first last : Nat) : Annotation := ⟨(a.parts.take last).drop first⟩

/-- A text as an argument of a constructor. -/
inductive Arg where
  | charPtr (s : StringRef)
  | stdString (s : StringRef)
  | stringRef (s : StringRef)

/-- The constructor that is selected for a single text: only a `StringRef` is not an exact match for
the variadic one. -/
def ofArg : Arg → Annotation
  | .charPtr s => ofParts [s]
  | .stdString s => ofParts [s]
  | .stringRef s => ofStringRef s

/-! ## What `str` joins -/

theorem str_cons {p : StringRef} (hp : p ≠ []) (parts : List StringRef) :
    str ⟨p :: parts⟩ = [dot].intercalate (p :: parts) := by
  rw [str, List.foldl_cons]
  exact foldl_delim hp parts

theorem str_eq (a : Annotation) : a.str = [dot].intercalate (a.parts.dropWhile List.isEmpty) := by
  obtain ⟨parts⟩ := a
  induction parts with
  | nil => rfl
  | cons p parts ih =>
    cases p with
    | nil =>
      have hdelim : str ⟨[] :: parts⟩ = str ⟨parts⟩ := rfl
      rw [hdelim, ih, List.dropWhile_cons_of_pos rfl]
    | cons c p =>
      rw [List.dropWhile_cons_of_neg (by simp)]
      exact str_cons (List.cons_ne_nil c p) parts

/-- The first part is not empty unless it is the only one. -/
def Led (a : Annotation) : Prop := a.parts = [[]] ∨ a.parts.head? ≠ some []

theorem Led.str_eq {a : Annotation} (h : a.Led) : a.str = [dot].intercalate a.parts := by
  obtain ⟨parts⟩ := a
  rcases h with rfl | h
  · rfl
  · cases parts with
    | nil => rfl
    | cons p parts => exact str_cons (by simpa using h) parts

/-! ## Parsing what is printed -/

/-- The fields of the parts. An annotation without parts has the text of one empty field. -/
def cutParts (a : Annotation) : List StringRef :=
  if a.parts = [] then [[]] else a.parts.flatMap fun p => p.splitOn dot

theorem Led.parts_ofStringRef_str {a : Annotation} (h : a.Led) :
    (ofStringRef a.str).parts = a.cutParts := by
  rw [parts_ofStringRef, h.str_eq, cutParts]
  split
  next hnil => rw [hnil]; rfl
  next hne => exact List.splitOn_intercalate_eq_flatMap hne

theorem cutParts_eq_parts {a : Annotation} (h : ∀ p ∈ a.parts, dot ∉ p) (hne : a.parts ≠ []) :
    a.cutParts = a.parts := by
  rw [cutParts, if_neg hne]
  exact List.flatMap_splitOn_eq_self h

/-- Parsing undoes printing if no part contains a dot, no leading part is lost, and there is one. -/
theorem ofStringRef_str_iff (parts : List StringRef) (h : ∀ p ∈ parts, dot ∉ p) :
    (ofStringRef (ofParts parts).str).parts = parts ↔
      parts ≠ [] ∧ (parts = [[]] ∨ parts.head? ≠ some []) := by
  constructor
  · intro heq
    have hne : parts ≠ [] := by
      rw [← heq, parts_ofStringRef]
      exact List.splitOn_ne_nil _ _
    refine ⟨hne, ?_⟩
    rw [parts_ofStringRef, str_eq, ofParts] at heq
    rcases eq_or_ne (parts.dropWhile List.isEmpty) [] with hnil | hrest
    · left
      rw [← heq, hnil]
      rfl
    · right
      have hdot : ∀ p ∈ parts.dropWhile List.isEmpty, dot ∉ p :=
        fun p hp => h p ((List.dropWhile_suffix _).subset hp)
      rw [List.splitOn_intercalate dot hdot hrest] at heq
      have hhead := List.head?_dropWhile_not List.isEmpty parts
      rw [heq] at hhead
      intro hempty
      simp [hempty] at hhead
  · rintro ⟨hne, hled⟩
    have hparse := Led.parts_ofStringRef_str (a := ofParts parts) hled
    exact hparse.trans (cutParts_eq_parts h hne)

/-- The parts `"a"`, `""`, `"b"` and `""`. -/
theorem ofStringRef_str_iff_empty :
    (ofStringRef (ofParts [[97], [], [98], []]).str).parts = [[97], [], [98], []] :=
  (ofStringRef_str_iff [[97], [], [98], []] (by decide)).2 ⟨by decide, .inr (by decide)⟩

/-! ## Equal texts -/

/-- There is a part, and no part contains a dot. -/
structure Plain (a : Annotation) : Prop where
  ne_nil : a.parts ≠ []
  notMem : ∀ p ∈ a.parts, dot ∉ p

theorem Plain.cutParts_eq {a : Annotation} (h : a.Plain) : a.cutParts = a.parts :=
  cutParts_eq_parts h.notMem h.ne_nil

theorem Led.str_eq_iff {a b : Annotation} (ha : a.Led) (hb : b.Led) :
    a.str = b.str ↔ a.cutParts = b.cutParts := by
  rw [← ha.parts_ofStringRef_str, ← hb.parts_ofStringRef_str, parts_ofStringRef, parts_ofStringRef,
    List.splitOn_inj]

theorem ofParts_eq_ofStringRef_iff (s : StringRef) : ofParts [s] = ofStringRef s ↔ dot ∉ s := by
  constructor
  · intro h
    have hmem : s ∈ s.splitOn dot := by
      rw [← parts_ofStringRef, ← h]
      exact List.mem_singleton_self s
    exact List.notMem_of_mem_splitOn hmem
  · intro h
    have hparts : (ofStringRef s).parts = [s] := by
      rw [parts_ofStringRef, List.splitOn_eq_singleton h]
    exact congrArg mk hparts.symm

/-- A text whose dots are cut by one constructor only, and an annotation without parts. -/
theorem not_eq_iff_str :
    ¬ (ofArg (.charPtr [97, dot, 98]) = ofArg (.stringRef [97, dot, 98]) ↔
      (ofArg (.charPtr [97, dot, 98])).str = (ofArg (.stringRef [97, dot, 98])).str) ∧
    ¬ (ofParts [] = ofParts [[]] ↔ (ofParts []).str = (ofParts [[]]).str) := by
  refine ⟨fun h => ?_, fun h => ?_⟩
  · have hstr : (ofStringRef [97, dot, 98]).str = [97, dot, 98] := by
      rw [str_ofStringRef]
      decide
    have heq := (ofParts_eq_ofStringRef_iff _).1 (h.2 hstr.symm)
    exact absurd heq (by decide)
  · exact absurd (h.2 rfl) (by decide)

/-- Annotations that lose no leading part have the same text if cutting their parts gives the same
fields; so they are equal if no part contains a dot. A text gives the same annotation as a string and
as a `StringRef` if it contains no dot. -/
theorem eq_iff_str :
    (∀ a b : Annotation, a.Led → b.Led → (a.str = b.str ↔ a.cutParts = b.cutParts)) ∧
    (∀ a b : Annotation, a.Led → b.Led → a.Plain → b.Plain → (a = b ↔ a.str = b.str)) ∧
    ∀ s, ofArg (.charPtr s) = ofArg (.stdString s) ∧
      (ofArg (.stdString s) = ofArg (.stringRef s) ↔ dot ∉ s) := by
  refine ⟨fun a b ha hb => ha.str_eq_iff hb, fun a b ha hb ha' hb' => ?_, fun s => ⟨rfl, ?_⟩⟩
  · obtain ⟨p⟩ := a
    obtain ⟨q⟩ := b
    rw [ha.str_eq_iff hb, ha'.cutParts_eq, hb'.cutParts_eq, Annotation.mk.injEq]
  · exact ofParts_eq_ofStringRef_iff s

/-- The parts `"a"` and `"b"`, and the parts `"a.b"` and `"c"`. -/
theorem eq_iff_str_dot :
    ((ofParts [[97], [98]]).str = (ofParts [[97, dot, 98], [99]]).str ↔
      (ofParts [[97], [98]]).cutParts = (ofParts [[97, dot, 98], [99]]).cutParts) ∧
    (ofParts [[97], [98]] = ofParts [[97]] ↔ (ofParts [[97], [98]]).str = (ofParts [[97]]).str) :=
  ⟨eq_iff_str.1 _ _ (.inr (by decide)) (.inr (by decide)),
    eq_iff_str.2.1 _ _ (.inr (by decide)) (.inr (by decide)) ⟨by decide, by decide⟩
      ⟨by decide, by decide⟩⟩

end LlvmSc.Annotation

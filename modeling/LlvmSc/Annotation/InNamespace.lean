import LlvmSc.Annotation.Enumerate
import LlvmSc.Generator.Filter

/-!
# Enumerating a namespace

`annotation::enumerate_in_namespace`: a coroutine over the generator of `enumerate` that yields the
pairs whose annotation is in the namespace.
-/

namespace LlvmSc.Annotation

open Generator

variable {H N : Type} [DecidableEq H]

/-- `for ( auto &ann : enumerate_in_namespace< Value >( ns, m ) )`, where `g` is the generator that
`enumerate< Value >( m )` returns. -/
def rangeForInNamespace (ns : Annotation) (g : Generator H) :
    Comp (Frames H (N × Annotation) Empty) (List (N × Annotation) × Error Empty)
      (List (N × Annotation)) :=
  Filter.rangeFor (fun ann => ann.2.inNamespace ns) g

/-- The entry is about a value, and its text starts with the text of the namespace and a dot. -/
def Entry.InNamespace (Value : N → Bool) (t : StringRef) (e : Entry N) : Bool :=
  Value e.global && (t ++ [dot]).isPrefixOf e.text

variable {m : Module N} {Value : N → Bool}

theorem filter_pairs (t : StringRef) (es : List (Entry N)) :
    (es.filterMap (Module.pair Value)).filter (fun ann => ann.2.inNamespace (ofStringRef t)) =
      (es.filter (Entry.InNamespace Value t)).map fun e => (e.global, ofStringRef e.text) := by
  induction es with
  | nil => rfl
  | cons e es ih =>
    rw [List.filterMap_cons, List.filter_cons]
    cases hv : Value e.global with
    | false => simpa [Module.pair, Entry.InNamespace, hv] using ih
    | true =>
      have hprefix : (ofStringRef e.text).inNamespace (ofStringRef t) =
          (t ++ [dot]).isPrefixOf e.text := by
        rw [Bool.eq_iff_iff, inNamespace_iff, List.isPrefixOf_iff_prefix]
      cases hp : (t ++ [dot]).isPrefixOf e.text <;>
        simp [Module.pair, Entry.InNamespace, hv, hprefix, hp, ih]

/-- If every entry gives its pair, the loop sees the annotated values whose annotation starts with the
text of the namespace and a dot, in the order of the module. -/
theorem rangeForInNamespace_yields {es : List (Entry N)} (hm : m.IsClang es)
    (hes : ∀ e ∈ es, m.Enumerable Value e) (t : StringRef)
    (frames : Frames H (N × Annotation) Empty) (h : H) : ∃ pairs frames',
      m.enumerate Value = .ok pairs ∧
      (rangeForInNamespace (ofStringRef t) ⟨some h⟩).Yields
        (Function.update frames h (.create ⟨pairs, none⟩))
        (.done ((es.filter (Entry.InNamespace Value t)).map fun e => (e.global, ofStringRef e.text))
          frames') := by
  have henumerate := (enumerate_eq_iff hm).2 hes
  obtain ⟨o, ho, hending⟩ := Filter.filter_rangeFor
    (fun ann => ann.2.inNamespace (ofStringRef t)) frames h ⟨es.filterMap (Module.pair Value), none⟩
  cases o with
  | done seen frames' =>
    obtain ⟨rfl, -⟩ := hending
    rw [filter_pairs] at ho
    exact ⟨_, frames', henumerate, ho⟩
  | fault e =>
    obtain ⟨-, e, -, hu⟩ := hending
    cases hu
  | timeout => exact hending.elim

/-- The annotations of a module with two functions in the namespace `"a"`, a variable in it, and a
function that has the annotation `"a"` itself. -/
def sampleText (k : Nat) : StringRef := 97 :: if k = 2 then [] else [dot, 98 + k.toUInt8]

theorem rangeForInNamespace_sample : ∃ pairs frames',
    (sample 4 sampleKind sampleText).enumerate isFunction = .ok pairs ∧
    (rangeForInNamespace (ofStringRef [97]) ⟨some ()⟩).Yields
      (Function.update (fun _ => .create ⟨[], none⟩) () (.create ⟨pairs, none⟩))
      (.done [(.global 0, ofStringRef [97, dot, 98]), (.global 3, ofStringRef [97, dot, 101])]
        frames') :=
  rangeForInNamespace_yields (sample_isClang (by decide) (by decide))
    (by simp [Module.Enumerable, sampleText]) [97] _ ()

end LlvmSc.Annotation

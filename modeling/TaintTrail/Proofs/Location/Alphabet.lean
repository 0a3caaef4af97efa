import Mathlib.Data.Set.Finite.Lattice
import Mathlib.Data.Set.Finite.Lemmas
import Mathlib.Data.Set.Finite.List
import TaintTrail.Flow.Site
import TaintTrail.Proofs.Location.Cut

/-!
# Alphabets of locations

Locations over finitely many frames, types and indices. Moving a location below another one keeps
the alphabet: the only new steps are those where an array decays or is put back, and there the
number of indices grows and shrinks with the depth of the array type. So a location can leave every
finite set only by growing longer.
-/

namespace TaintTrail

/-- How many arrays a type is made of. -/
def Ty.depth : Ty → Nat
  | .array element _ => element.depth + 1
  | _ => 0

/-- The type, its elements if it is an array, and so on. -/
def Ty.elements : Ty → List Ty
  | .array element length => .array element length :: element.elements
  | t => [t]

/-- The type itself counts as the first of its elements. -/
theorem Ty.mem_elements_self (t : Ty) : t ∈ t.elements := by
  cases t <;> simp [elements]

/-- The elements of an element are elements. -/
theorem Ty.element_mem_elements {t element : Ty} {length : Option Nat}
    (h : .array element length ∈ t.elements) : element ∈ t.elements := by
  induction t with
  | array t n ih =>
    simp only [elements, List.mem_cons, Ty.array.injEq] at h ⊢
    obtain ⟨rfl, -⟩ | h := h
    · exact .inr (mem_elements_self element)
    · exact .inr (ih h)
  | _ => simp [elements] at h

/-- What locations are made of. -/
structure Alphabet where
  frames : List Frame
  /-- The types that steps index. -/
  types : List Ty
  indices : List Value
  /-- The number of indices of a step, arrays apart. -/
  width : Nat
  element_mem : ∀ element length, .array element length ∈ types → element ∈ types
  zero_mem : .zero ∈ indices

namespace Alphabet

variable {A : Alphabet}

/-- A step over the alphabet. -/
structure SpellsStep (A : Alphabet) (s : Step) : Prop where
  indexed : s.indexed ∈ A.types
  indices : ∀ v ∈ s.indices, v ∈ A.indices
  length_le : s.indices.length ≤ A.width + s.indexed.depth

/-- A location over the alphabet. -/
structure Spells (A : Alphabet) (l : Location) : Prop where
  frame : l.frame ∈ A.frames
  steps : ∀ s ∈ l.steps, A.SpellsStep s

/-! ## Operations keep the alphabet -/

/-- A frame of the alphabet is a location over it. -/
theorem spells_ofFrame {frame : Frame} (h : frame ∈ A.frames) : A.Spells (.ofFrame frame) :=
  ⟨h, by simp [Location.ofFrame]⟩

/-- Moving a location below another one keeps the alphabet. -/
theorem Spells.rebase {l onto : Location} (hl : A.Spells l) (honto : A.Spells onto) (k : Nat) :
    A.Spells (l.rebase k onto) where
  frame := honto.frame
  steps s hs := by
    obtain hs | hs := List.mem_append.mp hs
    · exact honto.steps s hs
    · exact hl.steps s (List.mem_of_mem_drop hs)

/-- What a call fills through a pointer is over the alphabet of the pointer. -/
theorem Spells.filled {l : Location} (hl : A.Spells l) : A.Spells l.filled := by
  unfold Location.filled
  split
  · split
    · exact ⟨hl.frame, fun s hs => hl.steps s (List.mem_of_mem_dropLast hs)⟩
    · exact hl
  · exact hl

/-- A step that loses the leading zero over an array. -/
theorem SpellsStep.of_inArray {s : Step} {length : Option Nat}
    (h : A.SpellsStep (s.inArray length)) : A.SpellsStep s where
  indexed := A.element_mem s.indexed length h.indexed
  indices v hv := h.indices v (List.mem_cons_of_mem _ hv)
  length_le := by
    have hlength := h.length_le
    simp only [Step.inArray, List.length_cons, Ty.depth] at hlength
    omega

/-- A step that gets a leading zero over an array. -/
theorem SpellsStep.inArray {s : Step} {length : Option Nat} (h : A.SpellsStep s)
    (harray : .array s.indexed length ∈ A.types) : A.SpellsStep (s.inArray length) where
  indexed := harray
  indices v hv := by
    obtain rfl | hv := List.mem_cons.mp hv
    · exact A.zero_mem
    · exact h.indices v hv
  length_le := by
    have hlength := h.length_le
    simp only [Step.inArray, List.length_cons, Ty.depth]
    omega

/-- The steps below another location. -/
theorem Spells.stepsBelow? {l outer : Location} {steps : List Step} (hl : A.Spells l)
    (h : l.stepsBelow? outer = some steps) : ∀ s ∈ steps, A.SpellsStep s := by
  intro s hs
  cases hcontains : outer.contains l with
  | true =>
    rw [Location.stepsBelow?_of_contains hcontains] at h
    obtain rfl := Option.some.inj h
    exact hl.steps s (List.mem_of_mem_drop hs)
  | false =>
    obtain ⟨-, above, t, -, length, rest, -, rfl, -, -, rfl⟩ :=
      (Location.stepsBelow?_eq_some_iff hcontains).mp h
    have hmem : ∀ s ∈ t.inArray length :: rest, A.SpellsStep s :=
      fun s hs => hl.steps s (List.mem_append_right above hs)
    obtain rfl | hs := List.mem_cons.mp hs
    · exact (hmem _ List.mem_cons_self).of_inArray
    · exact hmem s (List.mem_cons_of_mem _ hs)

/-- Putting steps below a location keeps the alphabet, also where two steps become one. -/
theorem Spells.graft {outer : Location} {steps : List Step} (houter : A.Spells outer)
    (hsteps : ∀ s ∈ steps, A.SpellsStep s) : A.Spells (outer.graft steps) := by
  cases habsorbs : outer.absorbs steps with
  | false =>
    rw [Location.graft_of_absorbs_eq_false habsorbs]
    exact ⟨houter.frame, fun s hs => (List.mem_append.mp hs).elim (houter.steps s) (hsteps s)⟩
  | true =>
    cases steps with
    | nil => cases habsorbs
    | cons s rest =>
      obtain ⟨hindices, above, length, houterSteps⟩ :=
        Location.exists_start_indexed_of_absorbs habsorbs
      rw [Location.graft_eq_inArray houterSteps hindices rest]
      have hmem : ∀ t ∈ above ++ [⟨.array s.indexed length, [.zero, .zero]⟩], A.SpellsStep t :=
        houterSteps ▸ houter.steps
      refine ⟨houter.frame, fun t ht => ?_⟩
      obtain ht | ht := List.mem_append.mp ht
      · exact hmem t (List.mem_append_left _ ht)
      obtain rfl | ht := List.mem_cons.mp ht
      · have hstart := hmem _ (List.mem_append_right above List.mem_cons_self)
        exact (hsteps s List.mem_cons_self).inArray hstart.indexed
      · exact hsteps t (List.mem_cons_of_mem _ ht)

/-! ## Locations of bounded length are finitely many -/

/-- Short lists over a finite set are finitely many. -/
theorem finite_lists_le {α : Type} {S : Set α} (hS : S.Finite) (n : Nat) :
    {l : List α | (∀ a ∈ l, a ∈ S) ∧ l.length ≤ n}.Finite := by
  have := hS.to_subtype
  refine ((List.finite_length_le S n).image (List.map Subtype.val)).subset ?_
  rintro l ⟨hl, hn⟩
  exact ⟨l.attachWith (· ∈ S) hl, by simpa using hn, by simp⟩

/-- An alphabet has finitely many steps. -/
theorem finite_spellsStep (A : Alphabet) : {s : Step | A.SpellsStep s}.Finite := by
  have hlists : ∀ t : Ty, {vs : List Value |
      (∀ v ∈ vs, v ∈ {v | v ∈ A.indices}) ∧ vs.length ≤ A.width + t.depth}.Finite :=
    fun t => finite_lists_le (List.finite_toSet A.indices) _
  refine ((List.finite_toSet A.types).biUnion fun t _ => (hlists t).image (Step.mk t)).subset ?_
  rintro ⟨indexed, indices⟩ hs
  exact Set.mem_biUnion hs.indexed ⟨indices, ⟨hs.indices, hs.length_le⟩, rfl⟩

/-- An alphabet has finitely many locations of a bounded length. -/
theorem finite_spells (A : Alphabet) (n : Nat) :
    {l : Location | A.Spells l ∧ l.length ≤ n}.Finite := by
  have hsteps := finite_lists_le (finite_spellsStep A) n
  refine ((List.finite_toSet A.frames).biUnion fun f _ => hsteps.image (Location.mk f)).subset ?_
  rintro ⟨frame, steps⟩ ⟨hl, hn⟩
  refine Set.mem_biUnion hl.frame ⟨steps, ⟨hl.steps, ?_⟩, rfl⟩
  rw [Location.length] at hn
  exact Nat.le_of_succ_le hn

end Alphabet

end TaintTrail

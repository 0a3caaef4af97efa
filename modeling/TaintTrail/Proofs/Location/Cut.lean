import TaintTrail.Proofs.Location.Graft
import TaintTrail.Resolution

/-!
# Cutting and grafting

Memory that a call takes to its callee is cut off below the argument, and what comes back is grafted
onto the argument again. Below a location that points at the first element of an array there are two
kinds of paths: those that go on from there, and those to any element of the array, which are cut as
if they went on from there. Grafting takes every step into the element type for one of the second
kind. So what is grafted and cut again is the same, but for a step that leads to the first element,
where the location points already. What is cut and grafted again is the same only if it was cut the
way it is put back. This module says exactly where that is.
-/

namespace TaintTrail

namespace Location

variable {l outer : Location} {steps : List Step}

/-- Below a location that contains another are the steps behind its own. -/
theorem stepsBelow?_of_contains (h : outer.contains l = true) :
    l.stepsBelow? outer = some (l.steps.drop outer.steps.length) := by
  rw [stepsBelow?, if_pos h]

/-- The steps below a location that does not contain the other one. It points at the start of an
array, and the other one goes into the same array, which may be of another length. -/
theorem stepsBelow?_eq_some_iff (h : outer.contains l = false) :
    l.stepsBelow? outer = some steps ↔
      ∃ (above above' : List Step) (s : Step) (length length' : Option Nat) (rest : List Step),
        outer.steps = above ++ [⟨.array s.indexed length, [.zero, .zero]⟩] ∧
        l = ⟨outer.frame, above' ++ s.inArray length' :: rest⟩ ∧
        above.map Step.decayed = above'.map Step.decayed ∧ s.indices ≠ [] ∧ steps = s :: rest := by
  obtain hnil | ⟨above, start, hconcat⟩ := List.eq_nil_or_concat outer.steps
  · simp [stepsBelow?, h, hnil]
  rw [List.concat_eq_append] at hconcat
  simp only [stepsBelow?, h, hconcat, List.getLast?_concat, List.dropLast_concat,
    Bool.false_eq_true, if_false]
  constructor
  · intro hsteps
    split at hsteps
    · next hstart =>
      simp only [Bool.and_eq_true, decide_eq_true_eq] at hstart
      obtain ⟨⟨hstart, hframe⟩, hbeginning⟩ := hstart
      split at hsteps
      · next element length element' length' first second indices rest hindexed hdrop =>
        split at hsteps
        · next hcond =>
          obtain ⟨rfl, rfl⟩ : element' = element ∧ first = .zero := by
            simpa [Value.isZero] using hcond
          obtain ⟨_, _, rfl⟩ := Step.eq_of_isArrayStart hstart
          cases hindexed
          -- As many steps of `l` as lead to the array agree with those of `outer`.
          refine ⟨above, l.steps.take above.length, ⟨element', second :: indices⟩, length, length',
            rest, rfl, ?_, ?_, by simp, (Option.some.inj hsteps).symm⟩
          · rw [Step.inArray, ← hdrop, List.take_append_drop, ← hframe]
          · have htake := List.prefix_iff_eq_take.mp (Step.isBeginning_iff.mp hbeginning)
            rwa [List.length_map, ← List.map_take] at htake
        · cases hsteps
      · cases hsteps
    · cases hsteps
  · rintro ⟨above', above'', ⟨element, indices⟩, length, length', rest, hsteps, rfl, hdecayed,
      hindices, rfl⟩
    obtain ⟨rfl, hstart⟩ := List.append_inj' hsteps rfl
    obtain rfl := List.singleton_inj.mp hstart
    obtain ⟨first, indices, rfl⟩ := List.exists_cons_of_ne_nil hindices
    have hlength : above.length = above''.length := by
      simpa using congrArg List.length hdecayed
    have hbeginning (ss : List Step) : Step.isBeginning above (above'' ++ ss) = true := by
      rw [Step.isBeginning_iff, List.map_append, hdecayed]
      exact List.prefix_append _ _
    simp [Step.isArrayStart, Value.isZero, hbeginning, hlength, Step.inArray]

/-- A step into the element type goes into the array at whose start the location points. -/
theorem graft_eq_inArray {above : List Step} {s : Step} {length : Option Nat}
    (hsteps : outer.steps = above ++ [⟨.array s.indexed length, [.zero, .zero]⟩])
    (hindices : s.indices ≠ []) (rest : List Step) :
    outer.graft (s :: rest) = ⟨outer.frame, above ++ s.inArray length :: rest⟩ :=
  graft_of_absorbs hsteps ((absorbs_cons_iff hsteps).mpr ⟨rfl, hindices⟩)

/-- Only a step into the element type is taken in. -/
theorem exists_start_indexed_of_absorbs {s : Step} {rest : List Step}
    (h : outer.absorbs (s :: rest) = true) :
    s.indices ≠ [] ∧
      ∃ above length, outer.steps = above ++ [⟨.array s.indexed length, [.zero, .zero]⟩] := by
  obtain ⟨above, element, length, hsteps⟩ := exists_start_of_absorbs h
  obtain ⟨rfl, hindices⟩ := (absorbs_cons_iff hsteps).mp h
  exact ⟨hindices, above, length, hsteps⟩

/-! ## Cutting what was grafted -/

/-- Steps that are put below a location and not taken in are found below it again. -/
theorem stepsBelow?_graft_of_absorbs_eq_false (h : outer.absorbs steps = false) :
    (outer.graft steps).stepsBelow? outer = some steps := by
  have hcontains : outer.contains ⟨outer.frame, outer.steps ++ steps⟩ = true := by
    simp [contains_iff, decayedSteps]
  rw [graft_of_absorbs_eq_false h, stepsBelow?_of_contains hcontains, List.drop_left]

/-- The start of an array contains what is grafted onto it only where that begins at the first
element. -/
theorem stepsBelow?_graft_of_absorbs {s : Step} {rest : List Step}
    (h : outer.absorbs (s :: rest) = true) :
    (outer.graft (s :: rest)).stepsBelow? outer =
      some (if s.indices = [.zero] then rest else s :: rest) := by
  obtain ⟨hindices, above, length, hsteps⟩ := exists_start_indexed_of_absorbs h
  have hgraft := graft_eq_inArray hsteps hindices rest
  have hcontains : outer.contains (outer.graft (s :: rest)) = true ↔ s.indices = [.zero] := by
    rw [hgraft]
    simp [contains, hsteps, Step.isBeginning, Step.inArray, Step.agrees_array_iff,
      eq_comm (b := s.indices)]
  split
  · next hfirst =>
    rw [stepsBelow?_of_contains (hcontains.mpr hfirst), hgraft, hsteps]
    simp
  · next hfirst =>
    rw [stepsBelow?_eq_some_iff (Bool.eq_false_iff.mpr (mt hcontains.mp hfirst))]
    exact ⟨above, above, s, length, length, rest, hsteps, hgraft, rfl, hindices, rfl⟩

/-- Steps behind the first element are left over if the location points at the first element of an
array and the first step leads there once more. -/
theorem pastFirst?_eq_some_iff {rest : List Step} :
    outer.pastFirst? steps = some rest ↔
      ∃ above element length, outer.steps = above ++ [⟨.array element length, [.zero, .zero]⟩] ∧
        steps = ⟨element, [.zero]⟩ :: rest := by
  cases steps with
  | nil => simp [pastFirst?]
  | cons s others =>
    constructor
    · intro h
      obtain ⟨⟨habsorbs, hindices⟩, rfl⟩ :
          (outer.absorbs (s :: others) = true ∧ s.indices = [.zero]) ∧ others = rest := by
        simpa [pastFirst?] using h
      obtain ⟨-, above, length, hsteps⟩ := exists_start_indexed_of_absorbs habsorbs
      exact ⟨above, s.indexed, length, hsteps, by rw [← hindices]⟩
    · rintro ⟨above, element, length, hsteps, heq⟩
      obtain ⟨rfl, rfl⟩ := List.cons.inj heq
      have habsorbs : outer.absorbs (⟨element, [.zero]⟩ :: others) = true :=
        (absorbs_cons_iff hsteps).mpr ⟨rfl, by simp⟩
      simp [pastFirst?, habsorbs]

/-- Steps that are grafted onto a location are below it again, unless the location points at the
start of an array and the first of them leads to the first element from there. Then the others
are. -/
theorem stepsBelow_graft (outer : Location) (steps : List Step) :
    (outer.graft steps).stepsBelow? outer = some ((outer.pastFirst? steps).getD steps) ∧
      ∀ rest, outer.pastFirst? steps = some rest ↔
        ∃ above element length, outer.steps = above ++ [⟨.array element length, [.zero, .zero]⟩] ∧
          steps = ⟨element, [.zero]⟩ :: rest := by
  refine ⟨?_, fun rest => pastFirst?_eq_some_iff⟩
  cases habsorbs : outer.absorbs steps with
  | false =>
    rw [stepsBelow?_graft_of_absorbs_eq_false habsorbs, pastFirst?_of_absorbs_eq_false habsorbs,
      Option.getD_none]
  | true =>
    cases steps with
    | nil => cases habsorbs
    | cons s rest =>
      rw [stepsBelow?_graft_of_absorbs habsorbs]
      by_cases hfirst : s.indices = [.zero] <;> simp [pastFirst?, habsorbs, hfirst]

/-! ## Grafting what was cut -/

/-- What a location contains is put back where it was, if no step is taken in. -/
theorem agrees_graft_of_contains (hcontains : outer.contains l = true)
    (h : outer.absorbs (l.steps.drop outer.steps.length) = false) :
    (outer.graft (l.steps.drop outer.steps.length)).agrees l = true := by
  obtain ⟨hframe, hbeginning⟩ := contains_iff.mp hcontains
  rw [graft_of_absorbs_eq_false h, agrees_iff]
  refine ⟨hframe, ?_⟩
  have happend := List.prefix_iff_eq_append.mp hbeginning
  simpa [decayedSteps] using happend

/-- An element of the array at whose start the location points is put back where it was. -/
theorem agrees_graft_of_contains_eq_false (hcontains : outer.contains l = false)
    (h : l.stepsBelow? outer = some steps) : (outer.graft steps).agrees l = true := by
  obtain ⟨above, above', s, length, length', rest, hsteps, rfl, hdecayed, hindices, rfl⟩ :=
    (stepsBelow?_eq_some_iff hcontains).mp h
  rw [graft_eq_inArray hsteps hindices rest, agrees_iff]
  simp [decayedSteps, hdecayed, Step.decayed_inArray hindices]

/-- What a location contains comes back one step shorter, if a step is taken in. -/
theorem length_graft_of_contains (hcontains : outer.contains l = true)
    (h : outer.absorbs (l.steps.drop outer.steps.length) = true) :
    (outer.graft (l.steps.drop outer.steps.length)).length + 1 = l.length := by
  have hle := length_le_of_contains hcontains
  cases hdrop : l.steps.drop outer.steps.length with
  | nil => simp [hdrop, absorbs] at h
  | cons s rest =>
    obtain ⟨hindices, above, length, hsteps⟩ := exists_start_indexed_of_absorbs (hdrop ▸ h)
    have hlength := congrArg List.length hdrop
    simp only [graft_eq_inArray hsteps hindices rest, hsteps, Location.length, List.length_append,
      List.length_cons, List.length_nil, List.length_drop] at hle hlength ⊢
    omega

end Location

namespace Program

/-- The fourth element of an array is addressed twice, by a pointer at the first element and by the
array. -/
def addressesTwice : Program :=
  constructed "addresses"
    [.define "main" [] .void false, .emit (.alloca (.array (.int 32) (some 4))) .void,
      .emit (.arrayStart (.array (.int 32) (some 4)) (.result 0)) .void,
      .emit (.addressOf (.int 32) (.result 1) [.int 3]) .void,
      .emit (.addressOf (.array (.int 32) (some 4)) (.result 0) [.zero, .int 3]) .void,
      .emit (.ret none) .void]

/-- An element of the array. -/
def addressedElement (index : Int) : Location :=
  ⟨.stack 0, [⟨.array (.int 32) (some 4), [.zero, .int index]⟩]⟩

end Program

namespace Location

open Program (addressesTwice addressedElement)

/-- What was cut off below a location is put back where it was, unless the location contains it and
takes in its first step. Then it comes back one step shorter. -/
theorem agrees_graft_below_iff {l outer : Location} {steps : List Step}
    (h : l.stepsBelow? outer = some steps) :
    ((outer.graft steps).agrees l = true ↔
        outer.contains l = false ∨ outer.absorbs steps = false) ∧
      (outer.contains l = true → outer.absorbs steps = true →
        (outer.graft steps).length + 1 = l.length) := by
  cases hcontains : outer.contains l with
  | false => simp [agrees_graft_of_contains_eq_false hcontains h]
  | true =>
    -- Nothing in the steps tells that they were cut off behind the first element.
    obtain rfl : l.steps.drop outer.steps.length = steps := by
      simpa [stepsBelow?_of_contains hcontains] using h
    cases habsorbs : outer.absorbs (l.steps.drop outer.steps.length) with
    | false => simp [agrees_graft_of_contains hcontains habsorbs]
    | true =>
      have hlength := length_graft_of_contains hcontains habsorbs
      have hagrees : ¬(outer.graft (l.steps.drop outer.steps.length)).agrees l = true := by
        intro hagrees
        have heq := length_eq_of_agrees hagrees
        omega
      simp [hagrees, hlength]

/-- By the array, the element is put back where it was. -/
theorem agrees_graft_below_iff_byArray :
    addressesTwice.locationOf? (.result 1) = some (addressedElement 0) ∧
      addressesTwice.locationOf? (.result 3) = some (addressedElement 3) ∧
      (addressedElement 3).stepsBelow? (addressedElement 0) = some [⟨.int 32, [.int 3]⟩] ∧
      ((addressedElement 0).graft [⟨.int 32, [.int 3]⟩]).agrees (addressedElement 3) = true := by
  have hbelow : (addressedElement 3).stepsBelow? (addressedElement 0) =
      some [⟨.int 32, [.int 3]⟩] := by decide
  refine ⟨by decide +kernel, by decide +kernel, hbelow, ?_⟩
  exact (agrees_graft_below_iff hbelow).1.mpr (.inl (by decide))

/-- By a pointer at the first element, the same steps are cut off, so the element is put back where
it is by the array. The two locations do not agree. -/
theorem agrees_graft_byPointer_eq_false :
    addressesTwice.locationOf? (.result 1) = some (addressedElement 0) ∧
      addressesTwice.locationOf? (.result 2) =
        some ((addressedElement 0).child ⟨.int 32, [.int 3]⟩) ∧
      ((addressedElement 0).child ⟨.int 32, [.int 3]⟩).stepsBelow? (addressedElement 0) =
        some [⟨.int 32, [.int 3]⟩] ∧
      (addressedElement 0).graft [⟨.int 32, [.int 3]⟩] = addressedElement 3 ∧
      (addressedElement 3).agrees ((addressedElement 0).child ⟨.int 32, [.int 3]⟩) = false := by
  decide +kernel

end Location

end TaintTrail

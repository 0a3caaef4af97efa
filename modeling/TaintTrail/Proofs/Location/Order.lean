import Mathlib.Data.List.Infix
import Mathlib.Tactic.TFAE
import TaintTrail.Location

/-!
# The order of locations

Two steps agree exactly if they are the same when decayed. So a location lies inside another one if
the decayed steps of the other are a beginning of its own, and containment has the laws of that
order: it is a preorder, the locations that contain each other are those that agree, and the
locations around a given one form a chain.

A decayed step has lost the zero over one array only. Where the elements are arrays themselves, a
step into an element may decay as well, and then it no longer agrees with the step into the outer
array that leads to the same place. This module says exactly when the two spellings agree.
-/

namespace TaintTrail

/-- No type is an array of itself, by induction on the type. -/
theorem Ty.ne_array_self (t : Ty) (length : Option Nat) : t ≠ .array t length := by
  intro h
  cases h

namespace Step

/-- The other spelling of a step: it starts from an array whose first element is the object that the
step starts from. -/
def inArray (s : Step) (length : Option Nat) : Step :=
  ⟨.array s.indexed length, .zero :: s.indices⟩

/-- The other spelling of a step decays to the step. -/
theorem decayed_inArray {s : Step} (h : s.indices ≠ []) (length : Option Nat) :
    (s.inArray length).decayed = (s.indexed, s.indices) := by
  obtain ⟨first, rest, hindices⟩ := List.exists_cons_of_ne_nil h
  simp [decayed, inArray, Value.isZero, hindices]

/-- A step is as it is when decayed, or it is the other spelling of one. -/
theorem decayed_eq_or (s : Step) :
    s.decayed = (s.indexed, s.indices) ∨ ∃ t length, t.indices ≠ [] ∧ s = inArray t length := by
  unfold decayed
  split
  · next element length first second rest hindexed hindices =>
    split
    · next hzero =>
      obtain rfl : first = .zero := by simpa [Value.isZero] using hzero
      refine .inr ⟨⟨element, second :: rest⟩, length, by simp, ?_⟩
      rw [inArray, ← hindexed, ← hindices]
    · exact .inl rfl
  · exact .inl rfl

/-- The steps that do not decay are those that go into no array from its start. -/
theorem decayed_eq_iff {s : Step} :
    s.decayed = (s.indexed, s.indices) ↔ ¬∃ t length, t.indices ≠ [] ∧ s = inArray t length := by
  constructor
  · rintro h ⟨t, length, ht, rfl⟩
    rw [decayed_inArray ht] at h
    exact Ty.ne_array_self t.indexed length (Prod.mk.inj h).1
  · exact (decayed_eq_or s).resolve_right

/-- Two steps agree if they decay to the same. -/
theorem agrees_iff {s t : Step} : s.agrees t = true ↔ s.decayed = t.decayed := by
  simp only [agrees, Bool.or_eq_true, decide_eq_true_eq, or_iff_right_iff_imp]
  exact congrArg decayed

/-- Every step agrees with itself. -/
@[simp] theorem agrees_self (s : Step) : s.agrees s = true := agrees_iff.mpr rfl

/-- Steps into one type that agree are the same. -/
theorem eq_of_agrees {s t : Step} (h : s.agrees t = true) (hindexed : s.indexed = t.indexed) :
    s = t := by
  have hdecayed := agrees_iff.mp h
  obtain hs | ⟨s', length, hs', rfl⟩ := decayed_eq_or s <;>
    obtain ht | ⟨t', length', ht', rfl⟩ := decayed_eq_or t
  · rw [hs, ht] at hdecayed
    cases s
    cases t
    simpa using hdecayed
  · rw [hs, decayed_inArray ht', hindexed] at hdecayed
    exact absurd (Prod.mk.inj hdecayed).1.symm (Ty.ne_array_self _ _)
  · rw [ht, decayed_inArray hs', ← hindexed] at hdecayed
    exact absurd (Prod.mk.inj hdecayed).1 (Ty.ne_array_self _ _)
  · rw [decayed_inArray hs', decayed_inArray ht'] at hdecayed
    rw [inArray, inArray, ← (Prod.mk.inj hdecayed).2]
    exact congrArg (Step.mk · _) hindexed

/-- The order of beginnings is that of the decayed steps. -/
theorem isBeginning_iff {ss ts : List Step} :
    isBeginning ss ts = true ↔ ss.map decayed <+: ts.map decayed := by
  induction ss generalizing ts with
  | nil => simp [isBeginning]
  | cons s ss ih =>
    cases ts with
    | nil => simp [isBeginning]
    | cons t ts => simp [isBeginning, agrees_iff, ih, List.cons_prefix_cons]

/-- A common beginning does not matter. -/
@[simp] theorem isBeginning_append_left (us ss ts : List Step) :
    isBeginning (us ++ ss) (us ++ ts) = isBeginning ss ts := by
  rw [Bool.eq_iff_iff, isBeginning_iff, isBeginning_iff, List.map_append, List.map_append,
    List.prefix_append_right_inj]

end Step

namespace Location

variable {l l' m m' n : Location}

/-- The steps of a location, decayed. -/
def decayedSteps (l : Location) : List (Ty × List Value) := l.steps.map Step.decayed

/-- A location contains another if its decayed steps are a beginning of the other's, from the same
frame. -/
theorem contains_iff :
    l.contains m = true ↔ l.frame = m.frame ∧ l.decayedSteps <+: m.decayedSteps := by
  simp [contains, decayedSteps, Step.isBeginning_iff]

/-- Two locations agree if their decayed steps are the same, from the same frame. -/
theorem agrees_iff : l.agrees m = true ↔ l.frame = m.frame ∧ l.decayedSteps = m.decayedSteps := by
  have hlength :
      l.steps.length = m.steps.length ↔ l.decayedSteps.length = m.decayedSteps.length := by
    simp [decayedSteps]
  simp only [agrees, Bool.and_eq_true, decide_eq_true_eq, contains_iff, hlength]
  constructor
  · rintro ⟨heq, hframe, hbeginning⟩
    exact ⟨hframe, hbeginning.eq_of_length heq⟩
  · rintro ⟨hframe, hsteps⟩
    exact ⟨congrArg List.length hsteps, hframe, hsteps ▸ List.prefix_rfl⟩

/-! ## Containment is a preorder -/

/-- Every location contains itself. -/
@[simp] theorem contains_self (l : Location) : l.contains l = true :=
  contains_iff.mpr ⟨rfl, List.prefix_rfl⟩

/-- What contains a location contains whatever lies in it. -/
theorem contains_trans (hlm : l.contains m = true) (hmn : m.contains n = true) :
    l.contains n = true := by
  obtain ⟨hframe, hbeginning⟩ := contains_iff.mp hlm
  obtain ⟨hframe', hbeginning'⟩ := contains_iff.mp hmn
  exact contains_iff.mpr ⟨hframe.trans hframe', hbeginning.trans hbeginning'⟩

/-- The locations that contain each other are those that agree. -/
theorem contains_and_contains_iff :
    l.contains m = true ∧ m.contains l = true ↔ l.agrees m = true := by
  rw [contains_iff, contains_iff, agrees_iff]
  constructor
  · rintro ⟨⟨hframe, hbeginning⟩, -, hbeginning'⟩
    exact ⟨hframe, hbeginning.eq_of_length_le hbeginning'.length_le⟩
  · rintro ⟨hframe, hsteps⟩
    rw [hframe, hsteps]
    simp

/-- A location that contains another one is no longer than it. -/
theorem length_le_of_contains (h : l.contains m = true) : l.length ≤ m.length := by
  have hle := (contains_iff.mp h).2.length_le
  simpa [decayedSteps, Location.length] using hle

/-- Locations that agree have the same length. -/
theorem length_eq_of_agrees (h : l.agrees m = true) : l.length = m.length := by
  obtain ⟨hlm, hml⟩ := contains_and_contains_iff.mpr h
  exact Nat.le_antisymm (length_le_of_contains hlm) (length_le_of_contains hml)

/-- Agreement is an equivalence. -/
theorem equivalence_agrees : Equivalence fun l m : Location => l.agrees m = true where
  refl _ := agrees_iff.mpr ⟨rfl, rfl⟩
  symm h := agrees_iff.mpr ((agrees_iff.mp h).imp Eq.symm Eq.symm)
  trans h h' :=
    agrees_iff.mpr ⟨(agrees_iff.mp h).1.trans (agrees_iff.mp h').1,
      (agrees_iff.mp h).2.trans (agrees_iff.mp h').2⟩

/-- Containment does not tell locations that agree apart. -/
theorem contains_congr (hl : l.agrees l' = true) (hm : m.agrees m' = true) :
    l.contains m = l'.contains m' := by
  obtain ⟨hframe, hsteps⟩ := agrees_iff.mp hl
  obtain ⟨hframe', hsteps'⟩ := agrees_iff.mp hm
  rw [Bool.eq_iff_iff, contains_iff, contains_iff, hframe, hsteps, hframe', hsteps']

/-- Whether two locations overlap does not depend on how they are spelled. -/
theorem overlaps_congr (hl : l.agrees l' = true) (hm : m.agrees m' = true) :
    l.overlaps m = l'.overlaps m' := by
  rw [overlaps, overlaps, contains_congr hl hm, contains_congr hm hl]

/-- The locations around a given one form a chain. -/
theorem overlaps_of_contains (hln : l.contains n = true) (hmn : m.contains n = true) :
    l.overlaps m = true := by
  obtain ⟨hframe, hbeginning⟩ := contains_iff.mp hln
  obtain ⟨hframe', hbeginning'⟩ := contains_iff.mp hmn
  rw [overlaps, Bool.or_eq_true, contains_iff, contains_iff]
  obtain h | h := List.prefix_or_prefix_of_prefix hbeginning hbeginning'
  · exact .inl ⟨hframe.trans hframe'.symm, h⟩
  · exact .inr ⟨hframe'.trans hframe.symm, h⟩

end Location

namespace Step

/-- The step to the fourth of the objects from a pointer on. -/
def toFourth : Step := ⟨.struct "S", [.int 3]⟩

/-- The step to an element of a table with four columns, from a pointer at its first row. -/
def toElement (row column : Int) : Step := ⟨.array (.int 32) (some 4), [.int row, .int column]⟩

end Step

namespace Location

open Step (toFourth toElement)

/-- Containment is the order of beginnings on decayed steps below one frame. It is a preorder, and
the locations that contain each other are those that agree. Agreement is an equivalence that neither
containment nor overlap can tell apart. The locations around a given one overlap. -/
theorem contains_preorder_and_chain (l m n : Location) :
    (l.contains m = true ↔
        l.frame = m.frame ∧ l.steps.map Step.decayed <+: m.steps.map Step.decayed) ∧
      l.contains l = true ∧
      (l.contains m = true → m.contains n = true → l.contains n = true) ∧
      (l.contains m = true ∧ m.contains l = true ↔ l.agrees m = true) ∧
      (Equivalence fun l m : Location => l.agrees m = true) ∧
      (l.agrees m = true →
        l.contains n = m.contains n ∧ n.contains l = n.contains m ∧
          l.overlaps n = m.overlaps n ∧ n.overlaps l = n.overlaps m) ∧
      (l.contains n = true → m.contains n = true → l.overlaps m = true) := by
  refine ⟨contains_iff, contains_self l, contains_trans, contains_and_contains_iff,
    equivalence_agrees, fun h => ?_, overlaps_of_contains⟩
  have hn := equivalence_agrees.refl n
  exact ⟨contains_congr h hn, contains_congr hn h, overlaps_congr h hn, overlaps_congr hn h⟩

/-- An element of an array contains itself by its decayed spelling, and this one a field of the
element in an array of unknown length. -/
theorem contains_preorder_and_chain_fourth :
    contains ⟨.stack 0, [toFourth.inArray (some 8)]⟩ ⟨.stack 0, [toFourth]⟩ = true ∧
      contains ⟨.stack 0, [toFourth]⟩
        ⟨.stack 0, [toFourth.inArray none, ⟨.struct "S", [.zero, .int 1]⟩]⟩ = true ∧
      contains ⟨.stack 0, [toFourth.inArray (some 8)]⟩
        ⟨.stack 0, [toFourth.inArray none, ⟨.struct "S", [.zero, .int 1]⟩]⟩ = true ∧
      agrees ⟨.stack 0, [toFourth.inArray (some 8)]⟩ ⟨.stack 0, [toFourth]⟩ = true ∧
      overlaps ⟨.stack 0, [toFourth.inArray (some 8)]⟩ (.ofFrame (.stack 0)) =
        overlaps ⟨.stack 0, [toFourth]⟩ (.ofFrame (.stack 0)) ∧
      overlaps ⟨.stack 0, [toFourth.inArray (some 8)]⟩ ⟨.stack 0, [toFourth]⟩ = true := by
  have hagrees :
      agrees ⟨.stack 0, [toFourth.inArray (some 8)]⟩ ⟨.stack 0, [toFourth]⟩ = true := by decide
  obtain ⟨-, -, htrans, -, -, -, hchain⟩ :=
    contains_preorder_and_chain ⟨.stack 0, [toFourth.inArray (some 8)]⟩ ⟨.stack 0, [toFourth]⟩
      ⟨.stack 0, [toFourth.inArray none, ⟨.struct "S", [.zero, .int 1]⟩]⟩
  obtain ⟨-, -, -, -, -, hcongr, -⟩ :=
    contains_preorder_and_chain ⟨.stack 0, [toFourth.inArray (some 8)]⟩ ⟨.stack 0, [toFourth]⟩
      (.ofFrame (.stack 0))
  have hfield := htrans (by decide) (by decide)
  exact ⟨by decide, by decide, hfield, hagrees, (hcongr hagrees).2.2.1,
    hchain hfield (by decide)⟩

/-! ## Two spellings of an element -/

/-- A step agrees with the one that starts from an array around its object, and so do two locations
that differ in such a step alone, exactly if the step does not go into an array from its start
itself. -/
theorem agrees_inArray_tfae {s : Step} (hs : s.indices ≠ []) (length : Option Nat) (frame : Frame)
    (above below : List Step) :
    [(s.inArray length).agrees s = true,
      s.agrees (s.inArray length) = true,
      agrees ⟨frame, above ++ s.inArray length :: below⟩ ⟨frame, above ++ s :: below⟩ = true,
      agrees ⟨frame, above ++ s :: below⟩ ⟨frame, above ++ s.inArray length :: below⟩ = true,
      ¬∃ (t : Step) (length' : Option Nat), t.indices ≠ [] ∧ s = t.inArray length'].TFAE := by
  tfae_have 1 ↔ 5 := by
    rw [Step.agrees_iff, Step.decayed_inArray hs, eq_comm, Step.decayed_eq_iff]
  tfae_have 1 ↔ 2 := by
    rw [Step.agrees_iff, Step.agrees_iff, eq_comm]
  tfae_have 1 ↔ 3 := by
    simp [Step.agrees_iff, agrees_iff, decayedSteps]
  tfae_have 2 ↔ 4 := by
    simp [Step.agrees_iff, agrees_iff, decayedSteps]
  tfae_finish

/-- An element of the second row has two spellings that agree. -/
theorem agrees_inArray_tfae_secondRow :
    (toElement 1 2).indices ≠ [] ∧
      agrees ⟨.stack 0, [(toElement 1 2).inArray (some 5)]⟩ ⟨.stack 0, [toElement 1 2]⟩ = true := by
  have hindices : (toElement 1 2).indices ≠ [] := by decide
  have hrow : ¬∃ (t : Step) (length : Option Nat),
      t.indices ≠ [] ∧ toElement 1 2 = t.inArray length := by
    rintro ⟨t, length, -, h⟩
    simp [toElement, Step.inArray, Value.zero] at h
  have htfae := agrees_inArray_tfae hindices (some 5) (.stack 0) [] []
  exact ⟨hindices, (htfae.out 2 4).mpr hrow⟩

/-- The two spellings of an element of the first row do not agree. That by the table decays to the
one by the row, but that one decays to a step from the first element of the row. -/
theorem agrees_inArray_firstRow_eq_false :
    (toElement 0 2).indices ≠ [] ∧
      ((toElement 0 2).inArray (some 5)).agrees (toElement 0 2) = false ∧
      (toElement 0 2).agrees ((toElement 0 2).inArray (some 5)) = false ∧
      agrees ⟨.stack 0, [(toElement 0 2).inArray (some 5)]⟩ ⟨.stack 0, [toElement 0 2]⟩ =
        false := by
  decide

end Location

end TaintTrail

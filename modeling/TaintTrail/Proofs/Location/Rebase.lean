import TaintTrail.Proofs.Location.Order

/-!
# Moving locations

What a copy, a store or a return moves is put below another location by its length: as many path
elements are replaced as the old beginning has, whether or not they are spelled as there. Since the
steps that are replaced agree with those of the old beginning, nothing is lost. The locations inside
the one are ordered like their images inside the other, and moving them back gives what was moved,
up to the spelling of the beginning.
-/

namespace TaintTrail

namespace Location

variable {l m source target : Location}

/-- Moving from a source to a target replaces as many steps as the source has. -/
theorem rebase_length_eq (l source target : Location) :
    l.rebase source.length target =
      ⟨target.frame, target.steps ++ l.steps.drop source.steps.length⟩ := by
  have hskip : max source.length 1 - 1 = source.steps.length := by
    rw [length]
    omega
  rw [rebase, hskip]

/-- What was moved below a location lies inside it. -/
theorem contains_rebase (l target : Location) (matched : Nat) :
    target.contains (l.rebase matched target) = true := by
  rw [contains_iff]
  refine ⟨rfl, ?_⟩
  rw [decayedSteps, decayedSteps, rebase, List.map_append]
  exact List.prefix_append _ _

/-- Only the part below the new beginning is moved on. -/
theorem rebase_rebase (l target onto : Location) (matched : Nat) :
    (l.rebase matched target).rebase target.length onto = l.rebase matched onto := by
  rw [rebase_length_eq, rebase, rebase, List.drop_left]

/-- A location inside another one has the steps of that one, up to spelling, and goes on with those
that are not replaced when it is moved. -/
theorem decayedSteps_eq_append (h : source.contains l = true) :
    l.decayedSteps =
      source.decayedSteps ++ (l.steps.drop source.steps.length).map Step.decayed := by
  obtain ⟨-, hbeginning⟩ := contains_iff.mp h
  have happend := List.prefix_iff_eq_append.mp hbeginning
  rw [List.map_drop]
  simpa [decayedSteps] using happend.symm

/-- The decayed steps behind the source come along. -/
theorem decayedSteps_rebase (l source target : Location) :
    (l.rebase source.length target).decayedSteps =
      target.decayedSteps ++ (l.steps.drop source.steps.length).map Step.decayed := by
  rw [rebase_length_eq, decayedSteps, decayedSteps, List.map_append]

/-- Moving locations from inside the same one keeps their order. -/
theorem contains_rebase_rebase (hl : source.contains l = true) (hm : source.contains m = true)
    (target : Location) :
    (l.rebase source.length target).contains (m.rebase source.length target) = l.contains m := by
  have hframe : l.frame = m.frame :=
    (contains_iff.mp hl).1.symm.trans (contains_iff.mp hm).1
  have hmoved : (l.rebase source.length target).frame = (m.rebase source.length target).frame := rfl
  rw [Bool.eq_iff_iff, contains_iff, contains_iff, decayedSteps_rebase, decayedSteps_rebase,
    decayedSteps_eq_append hl, decayedSteps_eq_append hm, List.prefix_append_right_inj,
    List.prefix_append_right_inj]
  simp only [hframe, hmoved, true_and]

/-- Two locations in the source agree after they were moved if they did before. -/
theorem agrees_rebase_rebase (hl : source.contains l = true) (hm : source.contains m = true)
    (target : Location) :
    (l.rebase source.length target).agrees (m.rebase source.length target) = l.agrees m := by
  rw [Bool.eq_iff_iff, ← contains_and_contains_iff, ← contains_and_contains_iff,
    contains_rebase_rebase hl hm, contains_rebase_rebase hm hl]

/-- Two locations in the source overlap after they were moved if they did before. -/
theorem overlaps_rebase_rebase (hl : source.contains l = true) (hm : source.contains m = true)
    (target : Location) :
    (l.rebase source.length target).overlaps (m.rebase source.length target) = l.overlaps m := by
  rw [overlaps, overlaps, contains_rebase_rebase hl hm, contains_rebase_rebase hm hl]

/-- What is moved to where it was stays there. -/
theorem agrees_rebase_self (h : source.contains l = true) :
    (l.rebase source.length source).agrees l = true := by
  rw [agrees_iff, decayedSteps_rebase, ← decayedSteps_eq_append h]
  exact ⟨(contains_iff.mp h).1, rfl⟩

/-- The fourth of the objects from the start of a stack slot on. -/
def fourth : Location := ⟨.stack 0, [Step.toFourth]⟩

/-- A field of it, by the array of these objects. -/
def fieldOfFourth : Location :=
  ⟨.stack 0, [Step.toFourth.inArray (some 8), ⟨.struct "S", [.zero, .int 1]⟩]⟩

/-- Moving locations from inside one location to another one embeds their order, and it can be
undone: moved back, a location agrees with what it was, and moved on, it is where it would have got
at once. -/
theorem rebase_embeds_and_inverts {source l m : Location} (target : Location)
    (hl : source.contains l = true) (hm : source.contains m = true) :
    target.contains (l.rebase source.length target) = true ∧
      (l.rebase source.length target).contains (m.rebase source.length target) = l.contains m ∧
      (l.rebase source.length target).agrees (m.rebase source.length target) = l.agrees m ∧
      (l.rebase source.length target).overlaps (m.rebase source.length target) = l.overlaps m ∧
      ((l.rebase source.length target).rebase target.length source).agrees l = true ∧
      ∀ onto, (l.rebase source.length target).rebase target.length onto =
        l.rebase source.length onto := by
  refine ⟨contains_rebase l target _, contains_rebase_rebase hl hm target,
    agrees_rebase_rebase hl hm target, overlaps_rebase_rebase hl hm target, ?_,
    fun onto => rebase_rebase l target onto _⟩
  rw [rebase_rebase]
  exact agrees_rebase_self hl

/-- The fourth object and its field are moved to a parameter. The field is spelled by the array, so
what comes back is another path to the same place. -/
theorem rebase_embeds_and_inverts_fourth :
    fourth.contains fourth = true ∧ fourth.contains fieldOfFourth = true ∧
      (fieldOfFourth.rebase fourth.length (.ofFrame (.param 0 0))).contains
        (fourth.rebase fourth.length (.ofFrame (.param 0 0))) = false ∧
      (fieldOfFourth.rebase fourth.length (.ofFrame (.param 0 0))).rebase 1 fourth ≠
        fieldOfFourth ∧
      ((fieldOfFourth.rebase fourth.length (.ofFrame (.param 0 0))).rebase 1 fourth).agrees
        fieldOfFourth = true := by
  have hself : fourth.contains fourth = true := by decide
  have hfield : fourth.contains fieldOfFourth = true := by decide
  obtain ⟨-, horder, -, -, hback, -⟩ :=
    rebase_embeds_and_inverts (.ofFrame (.param 0 0)) hfield hself
  have haround : fieldOfFourth.contains fourth = false := by decide
  exact ⟨hself, hfield, horder.trans haround, by decide, hback⟩

end Location

end TaintTrail

import TaintTrail.Flow.Across
import TaintTrail.Flow.Rule
import TaintTrail.Proofs.Location.Order
import TaintTrail.Proofs.Program.WellFormed

/-!
# Steps below a decayed array

A location that points at the first element of an array takes in the first of the steps that are
put below it, if that one goes into the element type. So two paths below it, one of which is a
beginning of the other, can be put there in two ways, and then the order between them may be lost:
the whole of what a parameter points at is the first element alone for a caller that passes an
array, while an element of it is that element of the array. This module says exactly when the order
is kept.
-/

namespace TaintTrail

namespace Step

/-- The step from an array to its first element. -/
theorem eq_of_isArrayStart {s : Step} (h : s.isArrayStart = true) :
    ∃ element length, s = ⟨.array element length, [.zero, .zero]⟩ := by
  obtain ⟨type, indices⟩ := s
  unfold isArrayStart at h
  split at h
  · next element length first second hindexed hindices =>
    obtain rfl : type = _ := hindexed
    obtain rfl : indices = _ := hindices
    obtain ⟨rfl, rfl⟩ : first = .zero ∧ second = .zero := by simpa [Value.isZero] using h
    exact ⟨element, length, rfl⟩
  · cases h

/-- Two steps into an array from its start agree if they have the same indices behind that. -/
theorem agrees_array_iff (element : Ty) (length : Option Nat) {indices indices' : List Value} :
    agrees ⟨.array element length, .zero :: indices⟩ ⟨.array element length, .zero :: indices'⟩ =
      true ↔ indices = indices' := by
  constructor
  · intro h
    have heq := eq_of_agrees h rfl
    cases heq
    rfl
  · rintro rfl
    exact agrees_self _

end Step

namespace Location

/-- Whether a location takes in the first of the steps that are put below it. -/
def absorbs (outer : Location) : List Step → Bool
  | [] => false
  | first :: _ =>
    outer.steps.getLast?.any fun start =>
      start.isArrayStart && start.indexed.element? = some first.indexed && !first.indices.isEmpty

/-- The steps behind one that the location takes in and that leads to the first element, where the
location points already. -/
def pastFirst? (outer : Location) : List Step → Option (List Step)
  | [] => none
  | first :: rest =>
    if outer.absorbs (first :: rest) && first.indices = [.zero] then some rest else none

/-- Steps are put below a location that takes in none of them. -/
theorem graft_of_absorbs_eq_false {outer : Location} {steps : List Step}
    (h : outer.absorbs steps = false) :
    outer.graft steps = ⟨outer.frame, outer.steps ++ steps⟩ := by
  unfold graft
  split
  · next start first rest hlast =>
    rw [if_neg]
    simpa [absorbs, hlast] using h
  · rfl

/-- A location that takes in a step ends at the start of an array. -/
theorem exists_start_of_absorbs {outer : Location} {steps : List Step}
    (h : outer.absorbs steps = true) :
    ∃ above element length, outer.steps = above ++ [⟨.array element length, [.zero, .zero]⟩] := by
  cases steps with
  | nil => cases h
  | cons first rest =>
    obtain hnil | ⟨above, start, hsteps⟩ := List.eq_nil_or_concat outer.steps
    · simp [absorbs, hnil] at h
    · rw [List.concat_eq_append] at hsteps
      have hstart : start.isArrayStart = true := by
        simp only [absorbs, hsteps, List.getLast?_concat, Option.any_some, Bool.and_eq_true] at h
        exact h.1.1
      obtain ⟨element, length, rfl⟩ := Step.eq_of_isArrayStart hstart
      exact ⟨above, element, length, hsteps⟩

section Start

variable {outer : Location} {above : List Step} {element : Ty} {length : Option Nat} {first : Step}
  {rest : List Step}

/-- The steps that are taken in at the start of an array. -/
theorem absorbs_cons_iff
    (hsteps : outer.steps = above ++ [⟨.array element length, [.zero, .zero]⟩]) :
    outer.absorbs (first :: rest) = true ↔ first.indexed = element ∧ first.indices ≠ [] := by
  have hcomm : element = first.indexed ↔ first.indexed = element := eq_comm
  simp [absorbs, hsteps, Step.isArrayStart, Value.isZero, Ty.element?, hcomm]

/-- A step that is taken in replaces the one to the start of the array. -/
theorem graft_of_absorbs
    (hsteps : outer.steps = above ++ [⟨.array element length, [.zero, .zero]⟩])
    (h : outer.absorbs (first :: rest) = true) :
    outer.graft (first :: rest) =
      ⟨outer.frame, above ++ ⟨.array element length, .zero :: first.indices⟩ :: rest⟩ := by
  obtain ⟨helement, hindices⟩ := (absorbs_cons_iff hsteps).mp h
  simp [graft, hsteps, Step.isArrayStart, Value.isZero, Ty.element?, helement, hindices]

end Start

/-- Where nothing is taken in, no step leads to the first element. -/
theorem pastFirst?_of_absorbs_eq_false {outer : Location} {steps : List Step}
    (h : outer.absorbs steps = false) : outer.pastFirst? steps = none := by
  cases steps with
  | nil => rfl
  | cons first rest => simp [pastFirst?, h]

/-- A step that is taken in leads to the first element if zero is its only index. -/
theorem any_pastFirst?_iff {outer : Location} {first : Step} {rest : List Step}
    (h : outer.absorbs (first :: rest) = true) (P : List Step → Bool) :
    (outer.pastFirst? (first :: rest)).any P = true ↔
      first.indices = [.zero] ∧ P rest = true := by
  by_cases hindices : first.indices = [.zero] <;> simp [pastFirst?, h, hindices]

/-- Two paths below a location, the first of which is a beginning of the second, keep that order if
both of them or none is taken in at its first step. If just one is, they keep it only where that
step leads to the first element, and where the order holds without the step. -/
theorem contains_graft_iff {outer : Location} {ss ts : List Step}
    (h : Step.isBeginning ss ts = true) :
    (outer.graft ss).contains (outer.graft ts) = true ↔
      outer.absorbs ss = outer.absorbs ts ∨
        (outer.pastFirst? ss).any (Step.isBeginning · ts) = true ∨
        (outer.pastFirst? ts).any (Step.isBeginning ss ·) = true := by
  cases hss : outer.absorbs ss <;> cases hts : outer.absorbs ts
  · simp [graft_of_absorbs_eq_false hss, graft_of_absorbs_eq_false hts, contains, h]
  · -- Only the second path is taken in, so it has to go on from the first element.
    obtain ⟨above, element, length, hsteps⟩ := exists_start_of_absorbs hts
    cases ts with
    | nil => cases hts
    | cons t ts =>
      rw [pastFirst?_of_absorbs_eq_false hss, graft_of_absorbs_eq_false hss,
        graft_of_absorbs hsteps hts, any_pastFirst?_iff hts]
      simp [contains, hsteps, Step.isBeginning, Step.agrees_array_iff, eq_comm (a := t.indices)]
  · obtain ⟨above, element, length, hsteps⟩ := exists_start_of_absorbs hss
    cases ss with
    | nil => cases hss
    | cons s ss =>
      rw [pastFirst?_of_absorbs_eq_false hts, graft_of_absorbs_eq_false hts,
        graft_of_absorbs hsteps hss, any_pastFirst?_iff hss]
      simp [contains, hsteps, Step.isBeginning, Step.agrees_array_iff]
  · -- Both paths are taken in, and their first steps are the same one.
    obtain ⟨above, element, length, hsteps⟩ := exists_start_of_absorbs hss
    cases ss with
    | nil => cases hss
    | cons s ss =>
      cases ts with
      | nil => cases hts
      | cons t ts =>
        obtain ⟨hagrees, hrest⟩ : s.agrees t = true ∧ Step.isBeginning ss ts = true := by
          simpa [Step.isBeginning] using h
        have hs := (absorbs_cons_iff hsteps).mp hss
        have ht := (absorbs_cons_iff hsteps).mp hts
        obtain rfl := Step.eq_of_agrees hagrees (hs.1.trans ht.1.symm)
        simp [graft_of_absorbs hsteps hss, graft_of_absorbs hsteps hts, contains,
          Step.isBeginning, hrest]

end Location

namespace CallSite

variable {s : CallSite} {exit : ExitSite} {l arg : Location} {index : Nat}

/-- Memory behind a parameter is where the argument points, with the same steps below. -/
theorem memoryBehind_eq (hparam : exit.paramOf? l.frame = some index)
    (harg : s.argLocation? index = some arg) :
    s.memoryBehind exit l = [.memory (arg.graft l.steps)] := by
  simp [memoryBehind, hparam, harg]

/-- Memory below a parameter comes out of a callee as memory behind the argument. -/
theorem mem_leave_of_mem_memoryBehind {d : Fact} (h : d ∈ s.memoryBehind exit l) :
    d ∈ s.leave exit (.memory l) := by
  simp only [leave, Fact.memory, Fact.isZero, Fact.isLocal, Fact.isBranch, Fact.isVarArg,
    Fact.plainLocation?, Fact.location?]
  simp [h]

end CallSite

/-! ## A callee that fills an array -/

namespace Program

/-- A callee fills what its parameter points at with what it gets from the environment, and the
caller passes the start of an array. -/
def fillsArray : Program :=
  constructed "fills"
    [.define "fill" [.pointer (.int 32)] .void false, .emit (.call (.direct "getenv") []) .unknown,
      .emit (.fill (.param 0 0) (.result 0) (.int 16)) .void, .emit (.ret none) .void,
      .define "main" [] .void false, .emit (.alloca (.array (.int 32) (some 4))) .void,
      .emit (.arrayStart (.array (.int 32) (some 4)) (.result 3)) .void,
      .emit (.call (.direct "fill") [.result 4]) .void, .emit (.ret none) .void]

/-- An element of the array of the caller. -/
def filledElement (index : Int) : Location :=
  ⟨.stack 3, [⟨.array (.int 32) (some 4), [.zero, .int index]⟩]⟩

/-- An element of what the parameter points at. -/
def elementBehind (index : Int) : Location := ⟨.param 0 0, [⟨.int 32, [.int index]⟩]⟩

/-- The call. -/
def fillsArrayCall : CallSite :=
  { call := 5
    callee := some 0
    calleeName := some "fill"
    args := [.result 4]
    argLocations := [some (filledElement 0)]
    resultLocation := none
    source := none }

/-- The return of the callee. -/
def fillsArrayExit : ExitSite :=
  { exit := 2, proc := 0, value := none, location := none, spills := [] }

end Program

namespace CallSite

open Program (fillsArray fillsArrayCall fillsArrayExit filledElement elementBehind)

/-- Memory that a callee taints behind a parameter comes back to where the argument points. Of two
such locations, the first of which contains the second, the first one still does so for the caller
exactly if both of them or none start with a step that the argument takes in, or if the one that
does leads back to the first element of the array. -/
theorem contains_behind_param_iff (s : CallSite) (exit : ExitSite) {index : Nat}
    {arg l m : Location} (hparam : exit.paramOf? l.frame = some index)
    (harg : s.argLocation? index = some arg) (hcontains : l.contains m = true) :
    s.memoryBehind exit l = [.memory (arg.graft l.steps)] ∧
      s.memoryBehind exit m = [.memory (arg.graft m.steps)] ∧
      .memory (arg.graft l.steps) ∈ s.leave exit (.memory l) ∧
      .memory (arg.graft m.steps) ∈ s.leave exit (.memory m) ∧
      ((arg.graft l.steps).contains (arg.graft m.steps) = true ↔
        arg.absorbs l.steps = arg.absorbs m.steps ∨
          (arg.pastFirst? l.steps).any (Step.isBeginning · m.steps) = true ∨
          (arg.pastFirst? m.steps).any (Step.isBeginning l.steps ·) = true) := by
  obtain ⟨hframe, hsteps⟩ : l.frame = m.frame ∧ Step.isBeginning l.steps m.steps = true := by
    simpa [Location.contains] using hcontains
  have hl := memoryBehind_eq hparam harg
  have hm := memoryBehind_eq (hframe ▸ hparam) harg
  refine ⟨hl, hm, ?_, ?_, Location.contains_graft_iff hsteps⟩
  · exact mem_leave_of_mem_memoryBehind (by simp [hl])
  · exact mem_leave_of_mem_memoryBehind (by simp [hm])

/-- A part of the third element is inside it also for the caller. -/
theorem contains_behind_param_iff_fillsArray :
    fillsArray.rule? {} 5 = some (.call fillsArrayCall) ∧
      fillsArray.rule? {} 2 = some (.ret fillsArrayExit) ∧
      ((filledElement 0).graft (elementBehind 2).steps).contains
        ((filledElement 0).graft
          ((elementBehind 2).child ⟨.struct "S", [.zero, .int 1]⟩).steps) = true := by
  refine ⟨by decide +kernel, by decide +kernel, ?_⟩
  have hparam : fillsArrayExit.paramOf? (elementBehind 2).frame = some 0 := by decide
  have harg : fillsArrayCall.argLocation? 0 = some (filledElement 0) := by decide
  have hiff := contains_behind_param_iff fillsArrayCall fillsArrayExit hparam harg
    (by decide : (elementBehind 2).contains
      ((elementBehind 2).child ⟨.struct "S", [.zero, .int 1]⟩) = true)
  exact hiff.2.2.2.2.mpr (.inl (by decide))

/-- What the parameter points at contains each of its elements. Tainted as a whole it comes back as
the first element of the array, which does not contain the third one. -/
theorem contains_fillsArray_eq_false :
    fillsArray.rule? {} 5 = some (.call fillsArrayCall) ∧
      fillsArray.rule? {} 2 = some (.ret fillsArrayExit) ∧
      (Location.ofFrame (.param 0 0)).contains (elementBehind 2) = true ∧
      fillsArrayCall.leave fillsArrayExit (.memory (.ofFrame (.param 0 0))) =
        [.memory (filledElement 0)] ∧
      fillsArrayCall.leave fillsArrayExit (.memory (elementBehind 2)) =
        [.memory (filledElement 2)] ∧
      (filledElement 0).contains (filledElement 2) = false := by
  decide +kernel

end CallSite

end TaintTrail

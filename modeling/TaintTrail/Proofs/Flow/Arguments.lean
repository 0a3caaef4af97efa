import TaintTrail.Proofs.Location.Cut

/-!
# Tainted arguments

Whether taint reaches an argument is decided in two places. A defined callee gets the taint that can
be named from one of its parameters, and the result of an undefined one is tainted if the taint
overlaps what an argument points at. Taint that overlaps an argument can be named from the
parameter. The other way round there is an exception: through a pointer at the start of an array all
of the array can be named, but only its first element overlaps what the pointer points at.
-/

namespace TaintTrail

namespace Location

variable {l outer : Location}

/-- The location points at the start of an array, and the other one goes into the same array, which
may be of another length, to something else than its first element. -/
def StartsArrayOf (outer l : Location) : Prop :=
  ∃ (above above' : List Step) (s : Step) (length length' : Option Nat) (rest : List Step),
    outer.steps = above ++ [⟨.array s.indexed length, [.zero, .zero]⟩] ∧
    l = ⟨outer.frame, above' ++ s.inArray length' :: rest⟩ ∧
    above.map Step.decayed = above'.map Step.decayed ∧ s.indices ≠ [] ∧ s.indices ≠ [.zero]

/-- The start of an array contains what lies at the same place only at the first element. -/
theorem contains_inArray_iff {above above' : List Step} {s : Step} {length : Option Nat}
    (hsteps : outer.steps = above ++ [⟨.array s.indexed length, [.zero, .zero]⟩])
    (hdecayed : above.map Step.decayed = above'.map Step.decayed) (hindices : s.indices ≠ [])
    (length' : Option Nat) (rest : List Step) :
    outer.contains ⟨outer.frame, above' ++ s.inArray length' :: rest⟩ = true ↔
      s.indices = [.zero] := by
  have hstart : Step.decayed ⟨.array s.indexed length, [.zero, .zero]⟩ = (s.indexed, [.zero]) := rfl
  rw [contains_iff, decayedSteps, decayedSteps, hsteps]
  simp [hdecayed, hstart, Step.decayed_inArray hindices, eq_comm (b := s.indices)]

/-- What can be named from a location lies inside it or in the array at whose start it points. -/
theorem exists_stepsBelow?_iff :
    (∃ steps, l.stepsBelow? outer = some steps) ↔
      outer.contains l = true ∨ outer.StartsArrayOf l := by
  cases hcontains : outer.contains l with
  | true => simp [stepsBelow?_of_contains hcontains]
  | false =>
    simp only [stepsBelow?_eq_some_iff hcontains, Bool.false_eq_true, false_or]
    constructor
    · rintro ⟨-, above, above', s, length, length', rest, hsteps, rfl, hdecayed, hindices, rfl⟩
      have hfirst := contains_inArray_iff hsteps hdecayed hindices length' rest
      rw [hcontains, Bool.false_eq_true, false_iff] at hfirst
      exact ⟨above, above', s, length, length', rest, hsteps, rfl, hdecayed, hindices, hfirst⟩
    · rintro ⟨above, above', s, length, length', rest, hsteps, rfl, hdecayed, hindices, -⟩
      exact ⟨s :: rest, above, above', s, length, length', rest, hsteps, rfl, hdecayed, hindices,
        rfl⟩

end Location

/-- The fact is about a parameter of the procedure: its value, or memory behind it. -/
def Fact.IsOfParam (d : Fact) (p : Procedure) : Prop :=
  ∃ i < p.params.length, d = .value (.param p.id i) ∨ ∃ steps, d = .memory ⟨.param p.id i, steps⟩

namespace CallSite

variable {s : CallSite} {callee : Procedure} {d d' : Fact} {l arg : Location} {i : Nat}

/-! ## Into a defined callee -/

/-- Taint enters a callee as the value of an argument or as memory behind one. -/
theorem mem_enter_iff (hzero : d.isZero = false) (hlocal : d.isLocal = false) :
    d' ∈ s.enter callee d ↔
      (∃ v i, s.args[i]? = some v ∧ d.isPlainValue v = true ∧ d' ∈ valueInside callee i) ∨
        ∃ l arg i, d.plainLocation? = some l ∧ s.argLocations[i]? = some (some arg) ∧
          d' ∈ memoryInside callee l i arg := by
  simp only [enter, hzero, hlocal, Bool.false_eq_true, if_false, List.mem_append, List.mem_flatMap,
    Prod.exists, List.mem_zipIdx_iff_getElem?, Option.mem_toList]
  constructor
  · rintro (⟨v, i, hv, hmem⟩ | ⟨l, hl, arg?, i, hi, arg, rfl, hmem⟩)
    · split at hmem
      · next hplain => exact .inl ⟨v, i, hv, hplain, hmem⟩
      · cases hmem
    · exact .inr ⟨l, arg, i, hl, hi, hmem⟩
  · rintro (⟨v, i, hv, hplain, hmem⟩ | ⟨l, arg, i, hl, hi, hmem⟩)
    · exact .inl ⟨v, i, hv, by rwa [if_pos hplain]⟩
    · exact .inr ⟨l, hl, some arg, i, hi, arg, rfl, hmem⟩

/-- What tainted memory is for a parameter. -/
theorem mem_memoryInside_iff (hi : i < callee.params.length) :
    d' ∈ memoryInside callee l i arg ↔
      (∃ steps, l.stepsBelow? arg = some steps ∧ d' = .memory ⟨.param callee.id i, steps⟩) ∨
        l.stepsBelow? arg = none ∧ l.contains arg = true ∧
          d' = .memory (.ofFrame (.param callee.id i)) := by
  rw [memoryInside, if_neg (Nat.not_le.mpr hi)]
  cases hsteps : l.stepsBelow? arg with
  | some steps => simp
  | none => cases hcontains : l.contains arg <;> simp

/-- Memory behind an argument with a parameter enters as memory of that parameter. -/
theorem isOfParam_of_mem_memoryInside (hi : i < callee.params.length)
    (h : d' ∈ memoryInside callee l i arg) : d'.IsOfParam callee := by
  obtain ⟨steps, -, rfl⟩ | ⟨-, -, rfl⟩ := (mem_memoryInside_iff hi).mp h
  · exact ⟨i, hi, .inr ⟨steps, rfl⟩⟩
  · exact ⟨i, hi, .inr ⟨[], rfl⟩⟩

/-- Tainted memory gets to a parameter if it overlaps what the argument points at, or lies in the
array at whose start the argument points. -/
theorem exists_mem_memoryInside_iff (hi : i < callee.params.length) :
    (∃ d', d' ∈ memoryInside callee l i arg) ↔
      arg.overlaps l = true ∨ arg.StartsArrayOf l := by
  have hsplit : (∃ d', d' ∈ memoryInside callee l i arg) ↔
      (∃ steps, l.stepsBelow? arg = some steps) ∨ l.contains arg = true := by
    simp only [mem_memoryInside_iff hi]
    cases hsteps : l.stepsBelow? arg <;> simp
  rw [hsplit, Location.exists_stepsBelow?_iff, Location.overlaps, Bool.or_eq_true, or_right_comm]

/-- Memory that a parameter sees gets into the callee. -/
theorem exists_mem_enter_of_memory (hzero : d.isZero = false) (hlocal : d.isLocal = false)
    (hparams : s.argLocations.length ≤ callee.params.length) (hl : d.plainLocation? = some l)
    (harg : some arg ∈ s.argLocations) (h : arg.overlaps l = true ∨ arg.StartsArrayOf l) :
    ∃ d' ∈ s.enter callee d, d'.IsOfParam callee := by
  obtain ⟨i, hi⟩ := List.getElem?_of_mem harg
  have hlt := (List.getElem?_eq_some_iff.mp hi).1.trans_le hparams
  obtain ⟨d', hmem⟩ := (exists_mem_memoryInside_iff hlt).mpr h
  exact ⟨d', (mem_enter_iff hzero hlocal).mpr (.inr ⟨l, arg, i, hl, hi, hmem⟩),
    isOfParam_of_mem_memoryInside hlt hmem⟩

/-! ## Past an undefined callee -/

/-- Taint gets to a call as the value of an argument or as memory that overlaps what one points at.
-/
theorem isReached_iff :
    s.isReached d = true ↔
      (∃ v ∈ s.args, d.isPlainValue v = true) ∨
        ∃ l arg, d.plainLocation? = some l ∧ some arg ∈ s.argLocations ∧
          arg.overlaps l = true := by
  simp only [isReached, Bool.or_eq_true, List.any_eq_true, Option.any_eq_true, List.mem_filterMap,
    id_eq, exists_eq_right, exists_and_left]

/-- Past a call of an undefined procedure that is no source, the result is tainted if an argument
is. -/
theorem pass_of_undefined {m : Program} {config : Config} (hzero : d.isZero = false)
    (hlocal : d.isLocal = false) (hexternals : config.throughExternals = true)
    (hcallee : s.callee = none) (hsource : s.source = none) :
    s.pass m config d = if s.isReached d then [d, .value s.result] else [d] := by
  have hbranch : d.isBranch = false := (Bool.or_eq_false_iff.mp hlocal).1
  simp [pass, hzero, hbranch, hexternals, hcallee, hsource]

end CallSite

/-! ## An array with one tainted element -/

namespace Program

/-- What the environment gives is stored into the third element of an array. The start of the array
is passed to a procedure that is defined and to one that is not. -/
def passesArray : Program :=
  constructed "sums"
    [.define "sum" [.pointer (.int 32)] (.int 32) false, .emit (.load (.param 0 0)) .void,
      .emit (.ret (some (.result 0))) .void, .declare "hash" [.pointer (.int 32)] (.int 32) false,
      .define "main" [] .void false, .emit (.alloca (.array (.int 32) (some 4))) .void,
      .emit (.call (.direct "getenv") []) .unknown,
      .emit (.addressOf (.array (.int 32) (some 4)) (.result 2) [.zero, .int 2]) .void,
      .emit (.store (.result 3) (.result 4)) .void,
      .emit (.arrayStart (.array (.int 32) (some 4)) (.result 2)) .void,
      .emit (.call (.direct "sum") [.result 6]) .void,
      .emit (.call (.direct "hash") [.result 6]) .void, .emit (.ret none) .void]

/-- The procedure that is defined. -/
def passesArraySum : Procedure :=
  { id := 0
    name := "sum"
    params := [⟨"arg0", .pointer (.int 32)⟩]
    result := .int 32
    isVariadic := false
    blocks := #[⟨"entry", [0, 1]⟩] }

/-- An element of the array. -/
def passedElement (index : Int) : Location :=
  ⟨.stack 2, [⟨.array (.int 32) (some 4), [.zero, .int index]⟩]⟩

/-- A call that passes the start of the array. -/
def passesArrayCall (call : Nat) (callee : Option Nat) (name : String) : CallSite :=
  { call := call
    callee := callee
    calleeName := some name
    args := [.result 6]
    argLocations := [some (passedElement 0)]
    resultLocation := none
    source := none }

end Program

namespace CallSite

open Program (passesArray passesArraySum passesArrayCall passedElement)

/-- A plain fact becomes one about a parameter of a callee with enough parameters exactly if it
reaches an argument, or is about memory in an array, elsewhere than at the first element, at whose
start an argument points. Past a call of an undefined procedure the result is tainted exactly if the
fact reaches an argument. -/
theorem exists_mem_enter_iff_isReached_or (s : CallSite) (callee : Procedure) {d : Fact}
    (hlocations : s.argLocations.length = s.args.length)
    (hparams : s.args.length ≤ callee.params.length) (hzero : d.isZero = false)
    (hlocal : d.isLocal = false) :
    ((∃ d' ∈ s.enter callee d, d'.IsOfParam callee) ↔
        s.isReached d = true ∨ ∃ l arg, d.plainLocation? = some l ∧ some arg ∈ s.argLocations ∧
          arg.StartsArrayOf l) ∧
      ∀ (m : Program) (config : Config), config.throughExternals = true → s.callee = none →
        s.source = none →
        s.pass m config d = if s.isReached d then [d, .value s.result] else [d] := by
  have hmemory : s.argLocations.length ≤ callee.params.length := hlocations ▸ hparams
  refine ⟨⟨?_, ?_⟩, fun m config => pass_of_undefined hzero hlocal⟩
  · rintro ⟨d', hmem, -⟩
    obtain ⟨v, i, hi, hplain, -⟩ | ⟨l, arg, i, hl, hi, hmem⟩ := (mem_enter_iff hzero hlocal).mp hmem
    · exact .inl (isReached_iff.mpr (.inl ⟨v, List.mem_of_getElem? hi, hplain⟩))
    · have harg := List.mem_of_getElem? hi
      have hlt := (List.getElem?_eq_some_iff.mp hi).1.trans_le hmemory
      obtain hoverlaps | hstarts := (exists_mem_memoryInside_iff hlt).mp ⟨d', hmem⟩
      · exact .inl (isReached_iff.mpr (.inr ⟨l, arg, hl, harg, hoverlaps⟩))
      · exact .inr ⟨l, arg, hl, harg, hstarts⟩
  · rintro (hreached | ⟨l, arg, hl, harg, hstarts⟩)
    · obtain ⟨v, hv, hplain⟩ | ⟨l, arg, hl, harg, hoverlaps⟩ := isReached_iff.mp hreached
      · obtain ⟨i, hi⟩ := List.getElem?_of_mem hv
        have hlt := (List.getElem?_eq_some_iff.mp hi).1.trans_le hparams
        refine ⟨.value (.param callee.id i), (mem_enter_iff hzero hlocal).mpr (.inl ?_), i, hlt,
          .inl rfl⟩
        exact ⟨v, i, hi, hplain, by simp [valueInside, hlt]⟩
      · exact exists_mem_enter_of_memory hzero hlocal hmemory hl harg (.inl hoverlaps)
    · exact exists_mem_enter_of_memory hzero hlocal hmemory hl harg (.inr hstarts)

/-- If the array is tainted as a whole, the procedure that is defined sees it, and the result of the
other one is tainted. -/
theorem exists_mem_enter_iff_isReached_or_passesArray :
    passesArray.rule? {} 7 = some (.call (passesArrayCall 7 (some 0) "sum")) ∧
      passesArray.rule? {} 8 = some (.call (passesArrayCall 8 none "hash")) ∧
      (∃ d' ∈ (passesArrayCall 8 none "hash").enter passesArraySum (.memory (.ofFrame (.stack 2))),
        d'.IsOfParam passesArraySum) ∧
      (passesArrayCall 8 none "hash").pass passesArray {} (.memory (.ofFrame (.stack 2))) =
        [.memory (.ofFrame (.stack 2)), .value (.result 8)] := by
  have hreached : (passesArrayCall 8 none "hash").isReached (.memory (.ofFrame (.stack 2))) =
      true := by decide
  obtain ⟨hiff, hpass⟩ := exists_mem_enter_iff_isReached_or (passesArrayCall 8 none "hash")
    passesArraySum (d := .memory (.ofFrame (.stack 2))) rfl (by decide) rfl rfl
  refine ⟨by decide +kernel, by decide +kernel, hiff.mpr (.inl hreached), ?_⟩
  rw [hpass passesArray {} rfl rfl rfl, if_pos hreached]
  rfl

/-- If the third element is tainted, the procedure that is defined sees it behind its parameter, but
it does not overlap what the same argument points at, so the result of the other one is not
tainted. -/
theorem pass_passesArray_eq :
    passesArray.rule? {} 7 = some (.call (passesArrayCall 7 (some 0) "sum")) ∧
      passesArray.callTarget? 7 = some passesArraySum ∧
      passesArray.rule? {} 8 = some (.call (passesArrayCall 8 none "hash")) ∧
      (passesArrayCall 7 (some 0) "sum").enter passesArraySum (.memory (passedElement 2)) =
        [.memory ⟨.param 0 0, [⟨.int 32, [.int 2]⟩]⟩] ∧
      (passesArrayCall 8 none "hash").isReached (.memory (passedElement 2)) = false ∧
      (passesArrayCall 8 none "hash").pass passesArray {} (.memory (passedElement 2)) =
        [.memory (passedElement 2)] := by
  decide +kernel

end CallSite

end TaintTrail

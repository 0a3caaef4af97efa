import TaintTrail.Flow.Across
import TaintTrail.Proofs.Flow.Arises
import TaintTrail.Proofs.Location.Rebase
import TaintTrail.Proofs.Program.WellFormed

/-!
# Taint of an object and of its parts

A tainted object says more than a tainted part of it, and past an instruction it should still do so.
A location around the part is inside, or around, whatever else overlaps the part, so no test that a
rule makes can turn out against the object alone. Where a copy moves the part and the object is
around the source, the whole target is tainted.

Storing a pointer is the exception. The taint of what the pointer points at goes with it only if
that lies inside the memory the pointer is known to point at. Taint of an object around it does not
get to the target, and is even lost if the target is around that object. So a store gives less taint
for an object than for its part, unless there is no object around the part or the target lies in it
as well.
-/

namespace TaintTrail

namespace Location

variable {a b l source target landed : Location}

/-- What overlaps a location overlaps those around it. -/
theorem overlaps_of_contains_of_overlaps (hab : a.contains b = true) (h : l.overlaps b = true) :
    l.overlaps a = true := by
  obtain h | h := Bool.or_eq_true_iff.mp h
  · exact overlaps_of_contains h hab
  · exact Bool.or_eq_true_iff.mpr (.inr (contains_trans hab h))

/-- A location that does not contain a part does not contain the object. -/
theorem contains_eq_false_of_contains (hab : a.contains b = true) (h : l.contains b = false) :
    l.contains a = false := by
  rw [Bool.eq_false_iff] at h ⊢
  exact fun ha => h (contains_trans ha hab)

/-- A stored pointer takes taint along only from inside the memory it points at. -/
theorem stored?_eq_some_iff :
    l.stored? source target = some landed ↔
      source.contains l = true ∧ l.rebase source.length target = landed := by
  simp [stored?]

/-- A copy moves taint from inside its source, and taints the whole target for what is around the
source. -/
theorem copied?_eq_some_iff :
    l.copied? source target = some landed ↔
      source.contains l = true ∧ l.rebase source.length target = landed ∨
        source.contains l = false ∧ l.contains source = true ∧ target = landed := by
  cases h : source.contains l <;> cases haround : l.contains source <;> simp [copied?, h, haround]

/-- A copy finds an object around what it finds of a part of it. -/
theorem exists_copied?_of_contains (hab : a.contains b = true)
    (h : b.copied? source target = some landed) :
    ∃ landed', a.copied? source target = some landed' ∧ landed'.contains landed = true := by
  obtain ⟨hb, rfl⟩ | ⟨hb, haround, rfl⟩ := copied?_eq_some_iff.mp h
  · -- The object and the source are around the same part, so one is inside the other.
    cases ha : source.contains a with
    | true =>
      exact ⟨_, copied?_eq_some_iff.mpr (.inl ⟨ha, rfl⟩),
        (contains_rebase_rebase ha hb target).trans hab⟩
    | false =>
      have haround : a.contains source = true := by
        simpa [overlaps, ha] using overlaps_of_contains hb hab
      exact ⟨target, copied?_eq_some_iff.mpr (.inr ⟨ha, haround, rfl⟩), contains_rebase _ _ _⟩
  · have ha := contains_eq_false_of_contains hab hb
    exact ⟨target, copied?_eq_some_iff.mpr (.inr ⟨ha, contains_trans hab haround, rfl⟩),
      contains_self target⟩

/-! ## The object around a part -/

/-- The location with one step less, which is around this one. -/
def enclosing (l : Location) : Location := ⟨l.frame, l.steps.dropLast⟩

/-- The object around a part contains the part. -/
theorem contains_enclosing (l : Location) : l.enclosing.contains l = true := by
  refine contains_iff.mpr ⟨rfl, ?_⟩
  rw [decayedSteps, decayedSteps, enclosing, List.map_dropLast]
  exact List.dropLast_prefix _

/-- A part does not contain the object around it. -/
theorem contains_enclosing_eq_false (h : l.steps ≠ []) : l.contains l.enclosing = false := by
  rw [Bool.eq_false_iff]
  intro hcontains
  have hle := length_le_of_contains hcontains
  have hpos := List.length_pos_iff.mpr h
  simp only [enclosing, length, List.length_dropLast] at hle
  omega

/-- A location around another one that is not inside that one is around the object around it. -/
theorem contains_enclosing_of_contains (h : l.contains source = true)
    (hstrict : source.contains l = false) : l.contains source.enclosing = true := by
  obtain ⟨hframe, hbeginning⟩ := contains_iff.mp h
  have hlt : l.decayedSteps.length < source.decayedSteps.length := by
    refine lt_of_le_of_ne hbeginning.length_le fun heq => ?_
    have hsteps := hbeginning.eq_of_length heq
    exact Bool.eq_false_iff.mp hstrict
      (contains_iff.mpr ⟨hframe.symm, hsteps ▸ List.prefix_rfl⟩)
  refine contains_iff.mpr ⟨hframe, ?_⟩
  have henclosing : source.enclosing.decayedSteps = source.decayedSteps.dropLast :=
    List.map_dropLast ..
  rw [henclosing]
  refine List.prefix_of_prefix_length_le hbeginning (List.dropLast_prefix _) ?_
  rw [List.length_dropLast]
  omega

end Location

/-! ## Taint that covers other taint -/

/-- The values that are tainted there are tainted here, and the memory that is tainted there lies
inside memory that is tainted here. -/
structure Covers (facts others : List Fact) : Prop where
  value : ∀ v, .value v ∈ others → .value v ∈ facts
  memory : ∀ l, .memory l ∈ others → ∃ k, .memory k ∈ facts ∧ k.contains l = true

/-- An object comes out of a flow function with no less taint than any part of it. -/
def RespectsParts (flow : Fact → List Fact) : Prop :=
  ∀ a b : Location, a.contains b = true → Covers (flow (.memory a)) (flow (.memory b))

namespace Fact

/-- Facts about memory are told apart by their locations. -/
theorem memory_inj {l k : Location} : memory l = memory k ↔ l = k := by
  simp [memory]

/-- A tainted value is not tainted memory. -/
theorem value_ne_memory (v : Value) (l : Location) : value v ≠ memory l := by
  simp [value, memory]

/-- Taint of memory is taint of no value. -/
theorem isPlainValue_memory (l : Location) (v : Value) : (memory l).isPlainValue v = false := rfl

end Fact

namespace Rule

variable {a b l k target : Location} {result : Value}
  {moved? : Location → Location → Option Location}

/-- Taint of memory is changed by the rule alone, whatever the instruction and the type of its
result. -/
theorem flow_memory (m : Program) (rule : Rule) (inst : Nat) (type : Ty) (l : Location) :
    rule.flow m inst type (.memory l) = rule.apply (.result inst) (.memory l) := rfl

/-- A location covers what lies inside it. -/
theorem covers_self (hab : a.contains b = true) : Covers [.memory a] [.memory b] where
  value v hv := absurd (List.mem_singleton.mp hv) (Fact.value_ne_memory v b)
  memory l hl := by
    obtain rfl := Fact.memory_inj.mp (List.mem_singleton.mp hl)
    exact ⟨a, List.mem_singleton_self _, hab⟩

/-- A result that is tainted because of the part is tainted because of the object. -/
theorem covers_producing (hab : a.contains b = true) {ifObject ifPart : Bool}
    (h : ifPart = true → ifObject = true) :
    Covers (producing result ifObject (.memory a)) (producing result ifPart (.memory b)) where
  value v hv := by
    obtain heq | ⟨hpart, heq⟩ := mem_producing.mp hv
    · exact absurd heq (Fact.value_ne_memory v b)
    · exact mem_producing.mpr (.inr ⟨h hpart, heq⟩)
  memory l hl := by
    obtain heq | ⟨-, heq⟩ := mem_producing.mp hl
    · obtain rfl := Fact.memory_inj.mp heq
      exact ⟨a, mem_producing.mpr (.inl rfl), hab⟩
    · exact absurd heq.symm (Fact.value_ne_memory result l)

/-- Of a tainted location, what is found again in the target comes out of a write, and the location
itself unless it is overwritten and not found again. -/
theorem memory_mem_overwriting_iff :
    .memory k ∈ overwriting moved? (some target) (.memory l) ↔
      moved? l target = some k ∨
        k = l ∧ (target.contains l = true → (moved? l target).isSome = true) := by
  simp only [overwriting, Fact.plainLocation?_memory]
  cases moved? l target with
  | none => cases target.contains l <;> simp [Fact.memory_inj]
  | some landed => simp [Fact.memory_inj, eq_comm (a := landed), or_comm]

/-- To overwrite memory taints no value. -/
theorem value_notMem_overwriting (v : Value) (target : Option Location) :
    .value v ∉ overwriting moved? target (.memory l) := by
  intro hv
  obtain heq | ⟨_, _, _, -, -, -, heq⟩ := mem_overwriting hv
  · exact Fact.value_ne_memory _ _ heq
  · exact Fact.value_ne_memory _ _ heq

/-- A write keeps the order if what it finds of the part lies in what it finds of the object, or if
it does not find the object but leaves it, around the target. -/
theorem covers_overwriting (hab : a.contains b = true)
    (hmoved : ∀ landed, moved? b target = some landed →
      (∃ landed', moved? a target = some landed' ∧ landed'.contains landed = true) ∨
        target.contains a = false ∧ a.contains landed = true) :
    Covers (overwriting moved? (some target) (.memory a))
      (overwriting moved? (some target) (.memory b)) where
  value v hv := absurd hv (value_notMem_overwriting v (some target))
  memory l hl := by
    obtain hlanded | ⟨rfl, hspared⟩ := memory_mem_overwriting_iff.mp hl
    · obtain ⟨landed', hlanded', hcontains⟩ | ⟨houtside, hcontains⟩ := hmoved l hlanded
      · exact ⟨landed', memory_mem_overwriting_iff.mpr (.inl hlanded'), hcontains⟩
      · exact ⟨a, memory_mem_overwriting_iff.mpr
          (.inr ⟨rfl, fun htarget => absurd htarget (Bool.eq_false_iff.mp houtside)⟩), hcontains⟩
    · refine ⟨a, memory_mem_overwriting_iff.mpr (.inr ⟨rfl, fun htarget => ?_⟩), hab⟩
      -- A write around the object is around the part, so the part is found again.
      obtain ⟨landed, hlanded⟩ :=
        Option.isSome_iff_exists.mp (hspared (Location.contains_trans htarget hab))
      obtain ⟨landed', hlanded', -⟩ | ⟨houtside, -⟩ := hmoved landed hlanded
      · rw [hlanded']
        rfl
      · exact absurd htarget (Bool.eq_false_iff.mp houtside)

/-! ## Rules that do not store -/

/-- A load that reads the part reads the object. -/
theorem covers_load (hab : a.contains b = true) (address : Value) (location : Option Location)
    (givesPointer : Bool) :
    Covers ((Rule.load address location givesPointer).apply result (.memory a))
      ((Rule.load address location givesPointer).apply result (.memory b)) := by
  refine covers_producing hab fun h => ?_
  simp only [Fact.isPlainValue_memory, Fact.plainLocation?_memory, Bool.false_or,
    Option.any_some, Option.any_eq_true, Bool.or_eq_true, Bool.and_eq_true] at h ⊢
  obtain ⟨l, hl, haround | ⟨hvalue, hinside⟩⟩ := h
  · exact ⟨l, hl, .inl (Location.contains_trans hab haround)⟩
  · refine ⟨l, hl, ?_⟩
    obtain hla | hal := Bool.or_eq_true_iff.mp (Location.overlaps_of_contains hinside hab)
    · exact .inr ⟨hvalue, hla⟩
    · exact .inl hal

/-- A merge of values asks only whether the taint overlaps what they point at. -/
theorem covers_phi (hab : a.contains b = true) (values : List Value) (locations : List Location) :
    Covers ((Rule.phi values locations).apply result (.memory a))
      ((Rule.phi values locations).apply result (.memory b)) := by
  refine covers_producing hab fun h => ?_
  simp only [Fact.isPlainValue_memory, Fact.plainLocation?_memory, Option.any_some,
    Bool.or_eq_true, List.any_eq_true] at h ⊢
  obtain ⟨v, -, hv⟩ | ⟨l, hl, hoverlaps⟩ := h
  · cases hv
  · exact .inr ⟨l, hl, Location.overlaps_of_contains_of_overlaps hab hoverlaps⟩

/-- A copy overwrites its target with what it moves. -/
theorem apply_copy_memory (address : Value) (source target : Option Location) (l : Location) :
    (Rule.copy address source target).apply result (.memory l) =
      overwriting (fun l t => source.bind fun s => l.copied? s t) target (.memory l) := rfl

/-- A copy that moves a part moves the object around it as well, or taints the whole target. -/
theorem covers_copy (hab : a.contains b = true) (address : Value)
    (source target : Option Location) :
    Covers ((Rule.copy address source target).apply result (.memory a))
      ((Rule.copy address source target).apply result (.memory b)) := by
  rw [apply_copy_memory, apply_copy_memory]
  cases target with
  | none => exact covers_self hab
  | some target =>
    refine covers_overwriting hab fun landed hlanded => .inl ?_
    cases source with
    | none => cases hlanded
    | some source => exact Location.exists_copied?_of_contains hab hlanded

/-- To fill memory overwrites the part if it overwrites the object. -/
theorem covers_fill (hab : a.contains b = true) (value : Value) (target : Option Location) :
    Covers ((Rule.fill value target).apply result (.memory a))
      ((Rule.fill value target).apply result (.memory b)) := by
  change Covers (overwriting (fun _ _ => none) target (.memory a))
    (overwriting (fun _ _ => none) target (.memory b))
  cases target with
  | none => exact covers_self hab
  | some target => exact covers_overwriting hab fun landed hlanded => by cases hlanded

/-- Rules about regions and cursors have no effect on memory. -/
theorem respectsParts_apply {rule : Rule}
    (hrule : ∀ value source target, rule ≠ .store value source target) (result : Value) :
    RespectsParts (rule.apply result) := by
  intro a b hab
  cases rule with
  | keep | call | ret => exact covers_self hab
  | store value source target => exact absurd rfl (hrule value source target)
  | load address location givesPointer => exact covers_load hab address location givesPointer
  | compute operands =>
    refine covers_producing hab fun h => ?_
    simp [Fact.isPlainValue_memory] at h
  | copy address source target => exact covers_copy hab address source target
  | fill value target => exact covers_fill hab value target
  | phi values locations => exact covers_phi hab values locations
  | branch condition region =>
    cases hlabel : region.endLabel? <;>
      simpa [apply, hlabel, Fact.isPlainValue_memory] using covers_self hab
  | vaStart list => simpa [apply, Fact.memory] using covers_self hab
  | vaArg list | vaEnd list => exact covers_self hab
  | vaCopy source target => simpa [apply, follows, Fact.memory] using covers_self hab

/-! ## Storing a pointer -/

/-- A store overwrites its target with what the stored pointer takes along. -/
theorem apply_store_memory (value : Value) (source target : Option Location) (l : Location) :
    (Rule.store value source target).apply result (.memory l) =
      overwriting (fun l t => source.bind fun s => l.stored? s t) target (.memory l) := rfl

/-- A store keeps the order of an object and its parts unless the pointer points into an object that
does not have the target inside it too. -/
theorem respectsParts_store_iff (value : Value) (source target : Location) (result : Value) :
    RespectsParts ((Rule.store value (some source) (some target)).apply result) ↔
      source.steps = [] ∨
        source.enclosing.contains target = true ∧ target.contains source.enclosing = false := by
  constructor
  · intro hrespects
    by_cases hsteps : source.steps = []
    · exact .inl hsteps
    right
    -- Taint of what the pointer points at is found in the target, that of the object is not.
    have hstrict := Bool.eq_false_iff.mp (Location.contains_enclosing_eq_false hsteps)
    have hnone (landed : Location) : source.enclosing.stored? source target ≠ some landed :=
      fun hlanded => hstrict (Location.stored?_eq_some_iff.mp hlanded).1
    have hpart : .memory target ∈
        (Rule.store value (some source) (some target)).apply result (.memory source) := by
      rw [apply_store_memory, memory_mem_overwriting_iff]
      have hrebase : source.rebase source.length target = target := by
        rw [Location.rebase_length_eq, List.drop_length, List.append_nil]
      exact .inl (Location.stored?_eq_some_iff.mpr ⟨Location.contains_self source, hrebase⟩)
    obtain ⟨k, hk, hcontains⟩ :=
      (hrespects source.enclosing source (Location.contains_enclosing source)).memory target hpart
    rw [apply_store_memory, memory_mem_overwriting_iff] at hk
    obtain hlanded | ⟨rfl, hspared⟩ := hk
    · exact absurd hlanded (hnone k)
    · refine ⟨hcontains, Bool.eq_false_iff.mpr fun htarget => ?_⟩
      obtain ⟨landed, hlanded⟩ := Option.isSome_iff_exists.mp (hspared htarget)
      exact hnone landed hlanded
  · intro h a b hab
    rw [apply_store_memory, apply_store_memory]
    refine covers_overwriting hab fun landed hlanded => ?_
    obtain ⟨hb, rfl⟩ := Location.stored?_eq_some_iff.mp hlanded
    cases ha : source.contains a with
    | true =>
      exact .inl ⟨_, Location.stored?_eq_some_iff.mpr ⟨ha, rfl⟩,
        (Location.contains_rebase_rebase ha hb target).trans hab⟩
    | false =>
      have haround : a.contains source = true := by
        simpa [Location.overlaps, ha] using Location.overlaps_of_contains hb hab
      have henclosing := Location.contains_enclosing_of_contains haround ha
      obtain hsteps | ⟨htarget, houtside⟩ := h
      · -- Nothing is around a whole frame.
        have hframe := (Location.contains_iff.mp haround).1
        simp [Location.contains, hsteps, Step.isBeginning, hframe] at ha
      · refine .inr ⟨Location.contains_eq_false_of_contains henclosing houtside, ?_⟩
        exact Location.contains_trans (Location.contains_trans henclosing htarget)
          (Location.contains_rebase _ _ _)

/-- A store of no pointer, or to an unknown target, is no exception. -/
theorem respectsParts_store_of_eq_none {source target : Option Location}
    (h : source = none ∨ target = none) (value result : Value) :
    RespectsParts ((Rule.store value source target).apply result) := by
  intro a b hab
  rw [apply_store_memory, apply_store_memory]
  obtain rfl | rfl := h
  · cases target with
    | none => exact covers_self hab
    | some target => exact covers_overwriting hab fun landed hlanded => by cases hlanded
  · exact covers_self hab

end Rule

/-! ## Past a call -/

namespace CallSite

/-- Past a call, tainted memory stays, and the result is tainted if the taint gets to an external
callee. -/
theorem pass_memory (m : Program) (config : Config) (s : CallSite) (l : Location) :
    s.pass m config (.memory l) =
      Rule.producing s.result
        (config.throughExternals && s.callee.isNone && s.source.isNone && s.isReached (.memory l))
        (.memory l) := rfl

/-- An argument that gets at a part gets at the object around it. -/
theorem isReached_of_contains {s : CallSite} {a b : Location} (hab : a.contains b = true)
    (h : s.isReached (.memory b) = true) : s.isReached (.memory a) = true := by
  simp only [isReached, Fact.isPlainValue_memory, Fact.plainLocation?_memory, Option.any_some,
    Bool.or_eq_true, List.any_eq_true] at h ⊢
  obtain ⟨v, -, hv⟩ | ⟨l, hl, hoverlaps⟩ := h
  · cases hv
  · exact .inr ⟨l, hl, Location.overlaps_of_contains_of_overlaps hab hoverlaps⟩

/-- A call that is passed is no exception either. -/
theorem respectsParts_pass (m : Program) (config : Config) (s : CallSite) :
    RespectsParts (s.pass m config) := by
  intro a b hab
  rw [pass_memory, pass_memory]
  refine Rule.covers_producing hab fun h => ?_
  simp only [Bool.and_eq_true] at h ⊢
  exact ⟨h.1, isReached_of_contains hab h.2⟩

end CallSite

/-! ## A pointer at a field -/

namespace Program

/-- A record is filled with what the environment gives. The address of one of its fields is stored,
the field is read through it, and then the address is stored into the record itself. -/
def storesField : Program :=
  constructed "field"
    [.layout "Record" false [.int 32, .pointer (.int 8)], .define "main" [] .void false,
      .emit (.alloca (.struct "Record")) .void,
      .emit (.alloca (.pointer (.pointer (.int 8)))) .void,
      .emit (.call (.direct "getenv") []) .void,
      .emit (.fill (.result 0) (.result 2) (.int 16)) .void,
      .emit (.member (.struct "Record") (.result 0) 1) .void,
      .emit (.store (.result 4) (.result 1)) .void, .emit (.load (.result 1)) .void,
      .emit (.load (.result 6)) .void, .emit (.store (.result 4) (.result 0)) .void,
      .emit (.ret none) .void]

/-- The record. -/
def storedRecord : Location := .ofFrame (.stack 0)

/-- The field of the record. -/
def storedField : Location := ⟨.stack 0, [⟨.struct "Record", [.zero, .int 1]⟩]⟩

/-- The slot that the address of the field is stored in. -/
def fieldSlot : Location := .ofFrame (.stack 1)

end Program

open Program (storesField storedRecord storedField fieldSlot)

/-- Within a procedure and past a call, a tainted object taints no less than a tainted part of it,
stores apart. A store of a pointer does so too, unless what the pointer points at is part of an
object that does not have the target inside it as well. -/
theorem respectsParts_flow_and_pass (m : Program) (config : Config) (inst : Nat) (type : Ty) :
    (∀ rule : Rule, (∀ value source target, rule ≠ .store value source target) →
        RespectsParts (rule.flow m inst type)) ∧
      (∀ s : CallSite, RespectsParts (s.pass m config)) ∧
      ∀ value source target, RespectsParts ((Rule.store value source target).flow m inst type) ↔
        ∀ s t, source = some s → target = some t →
          s.steps = [] ∨ s.enclosing.contains t = true ∧ t.contains s.enclosing = false := by
  have hflow (rule : Rule) :
      RespectsParts (rule.flow m inst type) ↔ RespectsParts (rule.apply (.result inst)) := by
    simp only [RespectsParts, Rule.flow_memory]
  refine ⟨fun rule hrule => (hflow rule).mpr (Rule.respectsParts_apply hrule _),
    CallSite.respectsParts_pass m config, fun value source target => ?_⟩
  rw [hflow]
  cases source with
  | none => simpa using Rule.respectsParts_store_of_eq_none (.inl rfl) value (.result inst)
  | some source =>
    cases target with
    | none => simpa using Rule.respectsParts_store_of_eq_none (.inr rfl) value (.result inst)
    | some target => simpa using Rule.respectsParts_store_iff value source target (.result inst)

/-- Where the field is copied to, the tainted record taints memory around what a tainted byte of the
field does. -/
theorem respectsParts_flow_and_pass_storesField :
    storedRecord.contains (storedField.child ⟨.int 8, [.int 3]⟩) = true ∧
      .memory (fieldSlot.child ⟨.int 8, [.int 3]⟩) ∈
        (Rule.copy (.result 4) (some storedField) (some fieldSlot)).flow storesField 5 .void
          (.memory (storedField.child ⟨.int 8, [.int 3]⟩)) ∧
      ∃ k, .memory k ∈
        (Rule.copy (.result 4) (some storedField) (some fieldSlot)).flow storesField 5 .void
          (.memory storedRecord) ∧ k.contains (fieldSlot.child ⟨.int 8, [.int 3]⟩) = true := by
  have hpart : storedRecord.contains (storedField.child ⟨.int 8, [.int 3]⟩) = true := by decide
  have hmoved : .memory (fieldSlot.child ⟨.int 8, [.int 3]⟩) ∈
      (Rule.copy (.result 4) (some storedField) (some fieldSlot)).flow storesField 5 .void
        (.memory (storedField.child ⟨.int 8, [.int 3]⟩)) := by decide +kernel
  obtain ⟨hflow, -, -⟩ := respectsParts_flow_and_pass storesField {} 5 .void
  exact ⟨hpart, hmoved, (hflow _ (by simp) _ _ hpart).memory _ hmoved⟩

namespace Rule

/-- Some taint in the target comes out of the rule for taint of a location. -/
def Carries (rule : Rule) (m : Program) (inst : Nat) (type : Ty) (l target : Location) : Prop :=
  ∃ k, .memory k ∈ rule.flow m inst type (.memory l) ∧ target.contains k = true

/-- Only what is found again in the target comes out in the target. -/
theorem exists_memory_mem_overwriting_iff {moved? : Location → Location → Option Location}
    {l target : Location}
    (hmoved : ∀ landed, moved? l target = some landed → target.contains landed = true) :
    (∃ k, .memory k ∈ overwriting moved? (some target) (.memory l) ∧ target.contains k = true) ↔
      (moved? l target).isSome = true := by
  constructor
  · rintro ⟨k, hk, hcontains⟩
    obtain hlanded | ⟨rfl, hspared⟩ := memory_mem_overwriting_iff.mp hk
    · rw [hlanded]
      rfl
    · exact hspared hcontains
  · intro hsome
    obtain ⟨landed, hlanded⟩ := Option.isSome_iff_exists.mp hsome
    exact ⟨landed, memory_mem_overwriting_iff.mpr (.inl hlanded), hmoved landed hlanded⟩

/-- Storing a pointer carries the taint of a location to the target exactly if the location lies
inside what the pointer points at. Copying from there does so if it is around that as well. -/
theorem store_carries_iff_and_copy_carries_iff (m : Program) (inst : Nat) (type : Ty)
    (value : Value) (source target l : Location) :
    ((Rule.store value (some source) (some target)).Carries m inst type l target ↔
        source.contains l = true) ∧
      ((Rule.copy value (some source) (some target)).Carries m inst type l target ↔
        source.overlaps l = true) := by
  unfold Carries
  rw [flow_memory, flow_memory, apply_store_memory, apply_copy_memory,
    exists_memory_mem_overwriting_iff, exists_memory_mem_overwriting_iff]
  · refine ⟨?_, ?_⟩
    · simp [Location.stored?]
    · cases hinside : source.contains l <;> cases haround : l.contains source <;>
        simp [Location.copied?, Location.overlaps, hinside, haround]
  · intro landed hlanded
    obtain ⟨-, rfl⟩ | ⟨-, -, rfl⟩ := Location.copied?_eq_some_iff.mp hlanded
    · exact Location.contains_rebase _ _ _
    · exact Location.contains_self _
  · intro landed hlanded
    obtain ⟨-, rfl⟩ := Location.stored?_eq_some_iff.mp hlanded
    exact Location.contains_rebase _ _ _

/-- The record around the field is tainted. Its taint stays where it is at the first store and is
lost at the second one, so none of it gets to the target. It does if the field is copied there. -/
theorem flow_storesField_eq :
    storesField.rule? {} 5 = some (.store (.result 4) (some storedField) (some fieldSlot)) ∧
      storesField.rule? {} 8 = some (.store (.result 4) (some storedField) (some storedRecord)) ∧
      storedRecord.contains storedField = true ∧ storedField.overlaps storedRecord = true ∧
      (Rule.store (.result 4) (some storedField) (some fieldSlot)).flow storesField 5 .void
        (.memory storedRecord) = [.memory storedRecord] ∧
      fieldSlot.contains storedRecord = false ∧
      (Rule.store (.result 4) (some storedField) (some storedRecord)).flow storesField 8 .void
        (.memory storedRecord) = [] ∧
      (Rule.copy (.result 4) (some storedField) (some fieldSlot)).flow storesField 5 .void
        (.memory storedRecord) = [.memory storedRecord, .memory fieldSlot] ∧
      (Rule.copy (.result 4) (some storedField) (some storedRecord)).flow storesField 8 .void
        (.memory storedRecord) = [.memory storedRecord, .memory storedRecord] := by
  decide +kernel

end Rule

end TaintTrail

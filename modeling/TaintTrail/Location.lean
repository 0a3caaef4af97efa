import TaintTrail.Ty
import TaintTrail.Value

/-!
# Memory locations

A location is an access path: the frame it starts from, followed by one step for each address
computation applied to it. A location contains another when it is a step-wise beginning of it.

Arrays decay to pointers to their first element, so one element has two spellings: a step into the
array with a leading zero index, and a step into the element type without it. Steps are compared up
to that difference, which also lets arrays of unknown length agree with arrays of known length.
-/

namespace TaintTrail

/-- Where a location starts. -/
inductive Frame where
  /-- The stack slot made by an instruction. -/
  | stack (inst : Nat)
  /-- What a parameter of a procedure points at. -/
  | param (proc index : Nat)
  /-- The variable arguments of a procedure. -/
  | varArgs (proc : Nat)
  deriving DecidableEq, Ord, Hashable, Inhabited, Repr

/-- One address computation: the type that is indexed, and the indices. -/
structure Step where
  /-- The type that the first index counts objects of. -/
  indexed : Ty
  /-- The indices, the one over the base pointer first. -/
  indices : List Value
  deriving DecidableEq, Ord, Hashable, Inhabited, Repr

/-- A frame and the address computations applied to it, the outermost first. -/
structure Location where
  /-- The start of the path. -/
  frame : Frame
  /-- The steps of the path. -/
  steps : List Step
  deriving DecidableEq, Ord, Hashable, Inhabited, Repr

namespace Frame

/-- The frame as it is shown. -/
def render : Frame → String
  | .stack inst => "%" ++ toString inst
  | .param proc index => "%arg" ++ toString proc ++ "." ++ toString index
  | .varArgs proc => "%va" ++ toString proc

/-- The JSON form of a frame. -/
def toJson : Frame → Json
  | .stack inst => .object [("Stack", .nat inst)]
  | .param proc index => .object [("Param", .arr [.nat proc, .nat index])]
  | .varArgs proc => .object [("VarArgs", .nat proc)]

/-- Reads the JSON form of a frame. -/
def ofJson? : Json.Decoder Frame
  | levels + 1, .obj [(some key, j)] =>
    match key with
    | "Stack" => (Json.Decoder.word levels j).map .stack
    | "Param" =>
      (Json.Decoder.pair Json.Decoder.word Json.Decoder.word levels j).map fun (proc, index) =>
        .param proc index
    | "VarArgs" => (Json.Decoder.word levels j).map .varArgs
    | _ => none
  | _, _ => none

end Frame

namespace Step

/-- The spelling of a step without the leading zero index over an array. -/
def decayed (s : Step) : Ty × List Value :=
  match s.indexed, s.indices with
  | .array element _, first :: second :: rest =>
    if first.isZero then (element, second :: rest) else (s.indexed, s.indices)
  | _, _ => (s.indexed, s.indices)

/-- Whether two steps lead to the same part of an object. -/
def agrees (s t : Step) : Bool := s = t || s.decayed = t.decayed

/-- Whether the step goes from an array to its first element. -/
def isArrayStart (s : Step) : Bool :=
  match s.indexed, s.indices with
  | .array _ _, [first, second] => first.isZero && second.isZero
  | _, _ => false

/-- The step as it is shown. -/
def render (s : Step) : String :=
  "[" ++ s.indexed.render ++ ":" ++ ",".intercalate (s.indices.map Value.render) ++ "]"

/-- The JSON form of a step. -/
def toJson (s : Step) : Json :=
  .object [("source_type", s.indexed.toJson), ("indices", .array Value.toJson s.indices)]

/-- Reads the JSON form of a step. -/
def ofJson? : Json.Decoder Step
  | levels + 1, j => do
    let fields ← j.fields? ["source_type", "indices"]
    let indexed ← fields.required "source_type" (Ty.ofJson? levels)
    let indices ← fields.required "indices" (Json.Decoder.list Value.ofJson? levels)
    some ⟨indexed, indices⟩
  | 0, _ => none

/-- Whether the first path is a step-wise beginning of the second. -/
def isBeginning : List Step → List Step → Bool
  | [], _ => true
  | _ :: _, [] => false
  | s :: ss, t :: ts => s.agrees t && isBeginning ss ts

end Step

namespace Location

/-- The location of a whole frame. -/
def ofFrame (frame : Frame) : Location := ⟨frame, []⟩

/-- The number of path elements, the frame included. -/
def length (l : Location) : Nat := l.steps.length + 1

/-- The location reached by one more step. -/
def child (l : Location) (step : Step) : Location := ⟨l.frame, l.steps ++ [step]⟩

/-- Whether the second location lies inside the first. -/
def contains (l m : Location) : Bool := l.frame = m.frame && Step.isBeginning l.steps m.steps

/-- Whether two locations name the same memory. -/
def agrees (l m : Location) : Bool := l.steps.length = m.steps.length && l.contains m

/-- Whether one of two locations lies inside the other. -/
def overlaps (l m : Location) : Bool := l.contains m || m.contains l

/-- Puts another beginning in place of the first `matched` path elements. The frame is always
replaced. -/
def rebase (l : Location) (matched : Nat) (onto : Location) : Location :=
  ⟨onto.frame, onto.steps ++ l.steps.drop (max matched 1 - 1)⟩

/-- The steps from `outer` down to `l`, if `l` lies inside it. An `outer` that points at the first
element of an array stands for the whole array: an element of the array is then reached by a step
into the element type. -/
def stepsBelow? (l outer : Location) : Option (List Step) :=
  if outer.contains l then some (l.steps.drop outer.steps.length)
  else
    match outer.steps.getLast? with
    | none => none
    | some start =>
      let above := outer.steps.dropLast
      if start.isArrayStart && l.frame = outer.frame && Step.isBeginning above l.steps then
        match start.indexed, l.steps.drop above.length with
        | .array element _, ⟨.array element' _, first :: second :: indices⟩ :: rest =>
          if element' = element && first.isZero then some (⟨element, second :: indices⟩ :: rest)
          else none
        | _, _ => none
      else none

/-- Extends a location by steps. When it points at the first element of an array and the first step
goes into the element type, the two become one step into the array. -/
def graft (outer : Location) (steps : List Step) : Location :=
  match outer.steps.getLast?, steps with
  | some start, first :: rest =>
    if start.isArrayStart && start.indexed.element? = some first.indexed
        && !first.indices.isEmpty then
      ⟨outer.frame, outer.steps.dropLast ++ ⟨start.indexed, .zero :: first.indices⟩ :: rest⟩
    else ⟨outer.frame, outer.steps ++ steps⟩
  | _, _ => ⟨outer.frame, outer.steps ++ steps⟩

/-- The location as it is shown. -/
def render (l : Location) : String :=
  l.steps.foldl (fun s step => s ++ "." ++ step.render) l.frame.render

/-- The JSON form of a location. -/
def toJson (l : Location) : Json :=
  .object [("frame", l.frame.toJson), ("steps", .array Step.toJson l.steps)]

/-- Reads the JSON form of a location. -/
def ofJson? : Json.Decoder Location
  | levels + 1, j => do
    let fields ← j.fields? ["frame", "steps"]
    let frame ← fields.required "frame" (Frame.ofJson? levels)
    let steps ← fields.required "steps" (Json.Decoder.list Step.ofJson? levels)
    some ⟨frame, steps⟩
  | 0, _ => none

end Location

end TaintTrail

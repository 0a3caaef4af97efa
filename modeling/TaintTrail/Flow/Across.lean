import TaintTrail.Flow.Site

/-!
# Flow between procedures

A call takes tainted arguments to parameters, and memory that an argument reaches to the same place
below the parameter. A return takes the returned value to the result of the call, and memory below
the returned pointer or below a parameter back to where the caller sees it. Past the call every fact
of the caller goes on, and the calls that are sources taint their results and the memory they fill.
Facts about branches and variable arguments stay in their procedure.
-/

namespace TaintTrail

/-- Whether a fact stays in its procedure. -/
def Fact.isLocal (d : Fact) : Bool := d.isBranch || d.isVarArg

namespace CallSite

/-- The tainted variable argument that the argument at a position is for the callee. -/
def varArgOf (callee : Procedure) (index : Nat) : List Fact :=
  if callee.isVariadic then
    [.varArg (.ofFrame (.varArgs callee.id)) (index - callee.params.length)]
  else []

/-- What a tainted argument at a position is for the callee. -/
def valueInside (callee : Procedure) (index : Nat) : List Fact :=
  if index < callee.params.length then [.value (.param callee.id index)] else varArgOf callee index

/-- What tainted memory is for the callee by the argument at a position. -/
def memoryInside (callee : Procedure) (l : Location) (index : Nat) (arg : Location) : List Fact :=
  let frame := Frame.param callee.id index
  if callee.params.length ≤ index then if arg.overlaps l then varArgOf callee index else []
  else
    match l.stepsBelow? arg with
    | some steps => [.memory ⟨frame, steps⟩]
    | none => if l.contains arg then [.memory (.ofFrame frame)] else []

/-- The facts that a fact of the caller turns into at the entry of the callee. -/
def enter (s : CallSite) (callee : Procedure) (d : Fact) : List Fact :=
  if d.isZero then [d]
  else if d.isLocal then []
  else
    let values := s.args.zipIdx.flatMap fun (arg, i) =>
      if d.isPlainValue arg then valueInside callee i else []
    let memory := d.plainLocation?.toList.flatMap fun l =>
      s.argLocations.zipIdx.flatMap fun (arg, i) => arg.toList.flatMap (memoryInside callee l i)
    values ++ memory

/-- Memory below the returned pointer, as the caller sees it. -/
def memoryReturned (s : CallSite) (l returned : Location) : List Fact :=
  if returned.contains l then
    s.resultLocation.toList.map (fun target => .memory (l.rebase returned.length target))
      ++ (if l.length = returned.length then [.value s.result] else [])
  else []

/-- Memory below a parameter, as the caller sees it. -/
def memoryBehind (s : CallSite) (exit : ExitSite) (l : Location) : List Fact :=
  ((exit.paramOf? l.frame).bind s.argLocation?).toList.map fun arg => .memory (arg.graft l.steps)

/-- The facts that a fact of the callee turns into at the return site. -/
def leave (s : CallSite) (exit : ExitSite) (d : Fact) : List Fact :=
  if d.isZero then [d]
  else if d.isLocal then []
  else
    let values := if exit.value.any d.isPlainValue then [.value s.result] else []
    let memory := d.plainLocation?.toList.flatMap fun l =>
      exit.location.toList.flatMap (s.memoryReturned l) ++ s.memoryBehind exit l
    values ++ memory

/-- The taint that a call brings into the program. -/
def generated (s : CallSite) : List Fact :=
  match s.source with
  | none => []
  | some source =>
    (if source.taintsResult then [.value s.result] else [])
      ++ (source.filledParams.filterMap s.argLocation?).map fun l => .memory l.filled

/-- The facts that a fact of the caller turns into past the call. -/
def pass (m : Program) (config : Config) (s : CallSite) (d : Fact) : List Fact :=
  if d.isZero then d :: s.generated
  else if d.isBranch then
    if m.blockLabel? s.call = d.endLabel then [] else [d, .value s.result]
  else if config.throughExternals && s.callee.isNone && s.source.isNone && s.isReached d then
    [d, .value s.result]
  else [d]

end CallSite

end TaintTrail

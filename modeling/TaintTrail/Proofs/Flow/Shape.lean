import TaintTrail.Proofs.Flow.Vocabulary
import TaintTrail.Proofs.Program.Resolution

/-!
# The shapes of facts

The tags of a fact are independent fields, but only a few combinations of them arise: plain facts
have no tags, a branch goes with the label that ends its region, and only variable arguments have
cursors, which never pass the tainted argument.
-/

namespace TaintTrail

open Program

/-- A fact of one of the shapes that a program can give rise to. -/
inductive Shaped (m : Program) (config : Config) : Fact → Prop
  | zero : Shaped m config .zero
  /-- The result of an instruction is tainted. -/
  | result {n : Nat} : m.hasResult n = true → Shaped m config (.value (.result n))
  /-- A parameter is tainted. -/
  | param {p : Procedure} {i : Nat} : m.procedure? p.id = some p → i < p.params.length →
      Shaped m config (.value (.param p.id i))
  /-- Memory below a stack slot or a parameter is tainted. -/
  | memory {l : Location} : m.IsRoot l.frame → Shaped m config (.memory l)
  /-- A variable argument is tainted. -/
  | varArg {p : Procedure} {i : Nat} : m.procedure? p.id = some p → p.isVariadic = true →
      Shaped m config (.varArg (.ofFrame (.varArgs p.id)) i)
  /-- A cursor goes towards a tainted variable argument. -/
  | cursor {p : Procedure} {i passed : Nat} {list : Location} : m.procedure? p.id = some p →
      p.isVariadic = true → m.IsRoot list.frame → passed ≤ i →
      Shaped m config { Fact.varArg (.ofFrame (.varArgs p.id)) i with
        list := some list, cursor := some passed }
  /-- The region of a conditional branch is open, up to the label computed for the branch. -/
  | branch {n : Nat} {label : String} : m.isConditional n = true →
      m.regionEnd config.mergeLabels n = .ok label → Shaped m config (.branch (.result n) label)

namespace Shaped

variable {m : Program} {config : Config} {d : Fact}

/-- The zero fact says nothing else. -/
theorem eq_zero (h : Shaped m config d) (hzero : d.isZero = true) : d = .zero := by
  cases h with
  | zero => rfl
  | _ => simp [Fact.isZero, Fact.value, Fact.memory, Fact.varArg, Fact.branch] at hzero

/-- A fact that says that a value is tainted says nothing else. -/
theorem eq_value {v : Value} (h : Shaped m config d) (hplain : d.isPlainValue v = true) :
    d = .value v := by
  cases h <;> simp_all [Fact.isPlainValue, Fact.value?, Fact.zero, Fact.value, Fact.memory,
    Fact.varArg, Fact.branch, Fact.isBranch]

/-- A fact that says that memory is tainted says nothing else. -/
theorem eq_memory {l : Location} (h : Shaped m config d) (hplain : d.plainLocation? = some l) :
    d = .memory l := by
  cases h <;> simp_all [Fact.plainLocation?, Fact.location?, Fact.zero, Fact.value, Fact.memory,
    Fact.varArg, Fact.branch, Fact.isBranch, Fact.isVarArg]

/-- A fact about the region of a branch says nothing else. -/
theorem eq_branch (h : Shaped m config d) (hbranch : d.isBranch = true) :
    ∃ n label, d = .branch (.result n) label := by
  cases h with
  | branch => exact ⟨_, _, rfl⟩
  | _ => simp [Fact.isBranch, Fact.zero, Fact.value, Fact.memory, Fact.varArg] at hbranch

/-- A cursor is set for a variable argument that no cursor goes with. -/
theorem started (h : Shaped m config d) (hindex : d.argIndex.isSome = true)
    (hlist : d.list = none) {list : Location} (hroot : m.IsRoot list.frame) :
    Shaped m config { d with list := some list, cursor := some 0 } := by
  cases h with
  | @varArg p i hp hvariadic => exact .cursor hp hvariadic hroot (Nat.zero_le i)
  | _ => simp [Fact.zero, Fact.value, Fact.memory, Fact.branch] at hindex hlist

/-- A cursor that has not come to the tainted argument moves on. -/
theorem advanced (h : Shaped m config d) (hlist : d.list.isSome = true)
    (hlt : d.cursor.getD 0 < d.argIndex.getD 0) :
    Shaped m config { d with cursor := some (d.cursor.getD 0 + 1) } := by
  cases h with
  | cursor hp hvariadic hroot => exact .cursor hp hvariadic hroot hlt
  | _ => simp [Fact.zero, Fact.value, Fact.memory, Fact.branch, Fact.varArg] at hlist

/-- A cursor is copied. -/
theorem copied (h : Shaped m config d) (hlist : d.list.isSome = true) {list : Location}
    (hroot : m.IsRoot list.frame) : Shaped m config { d with list := some list } := by
  cases h with
  | cursor hp hvariadic _ hle => exact .cursor hp hvariadic hroot hle
  | _ => simp [Fact.zero, Fact.value, Fact.memory, Fact.branch, Fact.varArg] at hlist

/-- No fact has to skip a return. -/
theorem returnSkip_eq_none (h : Shaped m config d) : d.returnSkip = none := by
  cases h <;> rfl

end Shaped

namespace Location

/-- Putting steps below a location keeps its frame. -/
theorem frame_graft (l : Location) (steps : List Step) : (l.graft steps).frame = l.frame := by
  unfold graft
  split
  · split <;> rfl
  · rfl

/-- What a call fills through a pointer has the frame of the pointer. -/
theorem frame_filled (l : Location) : l.filled.frame = l.frame := by
  unfold filled
  split
  · split <;> rfl
  · rfl

end Location

namespace Program

variable {m : Program} {config : Config}

/-- Instructions point into stack slots and at parameters. -/
theorem PointsAt.isRoot {n : Nat} {l : Location} (h : m.PointsAt n l) : m.IsRoot l.frame := by
  obtain ⟨-, v, -, -, hl⟩ := h
  exact isRoot_of_locationOf? hl

/-- What arises from a shaped fact is shaped. -/
theorem WellFormed.shaped_of_arises (hm : m.WellFormed) {t : Transfer Nat} {d d' : Fact}
    (hlink : m.supergraph.Has t) (h : Arises m config t d d') (hd : Shaped m config d) :
    Shaped m config d' := by
  cases h with
  | zero | kept | passed => exact hd
  | computed _ hresult => exact .result hresult
  | written _ hrule htarget => exact .memory (pointsAt_of_written hrule htarget).isRoot
  | moved _ _ hrule htarget =>
    have hroot := (pointsAt_of_written hrule htarget).isRoot
    exact .memory hroot
  | opened hrule =>
    obtain ⟨hconditional, hend⟩ := hm.region_of_rule? hrule
    exact .branch hconditional hend
  | started hrule _ hindex hlist => exact hd.started hindex hlist (pointsAt_of_vaStart hrule).isRoot
  | advanced _ hlist hlt => exact hd.advanced hlist hlt
  | copied hrule _ hlist => exact hd.copied hlist (pointsAt_of_vaCopy hrule).isRoot
  | param _ hcallee hi => exact .param (hm.procedure?_of_callTarget? hcallee).1 hi
  | varArg _ _ hcallee hvariadic =>
    exact .varArg (hm.procedure?_of_callTarget? hcallee).1 hvariadic
  | below | around => exact .memory trivial
  | returned =>
    obtain ⟨site, -, hrule, -⟩ := hm.outcomes_ret_of_has config hlink
    exact .result (hasResult_of_rule? hrule rfl)
  | landed _ _ hrule htarget =>
    obtain ⟨n, hpoints, -⟩ := hm.exists_pointsAt_of_resultLocation hrule htarget
    have hroot := hpoints.isRoot
    exact .memory hroot
  | outParam _ hrule harg =>
    refine .memory ?_
    rw [Location.frame_graft]
    exact (pointsAt_of_argLocation? hrule harg).isRoot
  | result hrule => exact .result (hasResult_of_rule? hrule rfl)
  | filled hrule _ harg =>
    refine .memory ?_
    rw [Location.frame_filled]
    exact (pointsAt_of_argLocation? hrule harg).isRoot

/-- The facts of entailed path edges are shaped. -/
theorem WellFormed.shaped_of_entailed (hm : m.WellFormed) {e : PathEdge Nat Fact}
    (he : Entailed (m.taintProblem config) m.supergraph (m.outcomes config) e) :
    Shaped m config e.source ∧ Shaped m config e.fact := by
  refine he.forall_facts .zero (fun n d hseed => ?_) fun t d d' hlink hd h => ?_
  · exact eq_zero_of_mem_seeds hseed ▸ .zero
  · exact hm.shaped_of_arises hlink (hm.arises hlink h) hd

end Program

end TaintTrail

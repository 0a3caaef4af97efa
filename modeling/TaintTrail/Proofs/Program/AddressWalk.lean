import Mathlib.Data.List.Perm.Subperm
import Mathlib.Logic.Relation
import TaintTrail.Proofs.Program.Resolution

/-!
# The walk back without a limit

An address is followed back through address computations, loads and conversions between pointers,
one instruction at a time, until a stack slot, a parameter, a conversion from or to a union or
anything else is reached. Nothing in a program keeps the instructions from using each other in a
circle, and then this walk goes on forever. The walk that runs has a limit instead, one more than
there are instructions. A walk that ends passes each instruction at most once, and one that passes
more instructions than there are comes to one of them twice. So the limit changes nothing but to
stop the walks that go round in a circle.
-/

namespace TaintTrail

/-- Whether the result of an operation is an address that can be followed back. -/
def Operation.isFollowed : Operation → Bool
  | .alloca _ => true
  | .addressOf _ _ _ => true
  | .load _ => true
  | .cast conversion _ => conversion.keepsAddress
  | _ => false

namespace Resolution

/-- What is found from there by more steps. -/
def extend : Resolution → List Step → Resolution
  | .resolved l, steps => .resolved ⟨l.frame, l.steps ++ steps⟩
  | .imprecise above, steps => .imprecise (above ++ steps)
  | .unresolved, _ => .unresolved

/-- No more steps lead to the same place. -/
@[simp] theorem extend_nil (r : Resolution) : r.extend [] = r := by
  cases r <;> simp [extend]

/-- Steps may be added a few at a time. -/
theorem extend_append (r : Resolution) (steps steps' : List Step) :
    r.extend (steps ++ steps') = (r.extend steps).extend steps' := by
  cases r <;> simp [extend]

/-- More steps lead from the location, if there is one. -/
theorem location?_extend (r : Resolution) (steps : List Step) :
    (r.extend steps).location? = r.location?.map fun l => ⟨l.frame, l.steps ++ steps⟩ := by
  cases r <;> rfl

end Resolution

namespace Program

/-- An address is followed back to what it was computed from, by the steps that lie between. -/
inductive StepsBack (m : Program) : Value → List Step → Value → Prop
  | addressOf {id : Nat} {indexed : Ty} {base : Value} {indices : List Value}
      (hop : m.operation? id = some (.addressOf indexed base indices)) :
      StepsBack m (.result id) [⟨indexed, indices⟩] base
  | load {id : Nat} {address : Value} (hop : m.operation? id = some (.load address)) :
      StepsBack m (.result id) [] address
  | cast {id : Nat} {conversion : Conversion} {value : Value}
      (hop : m.operation? id = some (.cast conversion value))
      (hkeeps : conversion.keepsAddress = true)
      (hunion :
        (pointsAtUnion (m.typeOf value) || pointsAtUnion (m.typeOf (.result id))) = false) :
      StepsBack m (.result id) [] value

/-- An operand that is not followed back, with what it points at. -/
inductive EndsAt (m : Program) : Value → Resolution → Prop
  | param (proc index : Nat) :
      EndsAt m (.param proc index) (.resolved (.ofFrame (.param proc index)))
  | slot {id : Nat} {allocated : Ty} (hop : m.operation? id = some (.alloca allocated)) :
      EndsAt m (.result id) (.resolved (.ofFrame (.stack id)))
  | union {id : Nat} {conversion : Conversion} {value : Value}
      (hop : m.operation? id = some (.cast conversion value))
      (hkeeps : conversion.keepsAddress = true)
      (hunion :
        (pointsAtUnion (m.typeOf value) || pointsAtUnion (m.typeOf (.result id))) = true) :
      EndsAt m (.result id) (.imprecise [])
  | operation {id : Nat} {op : Operation} (hop : m.operation? id = some op)
      (hfollowed : op.isFollowed = false) : EndsAt m (.result id) .unresolved
  | dangling {id : Nat} (hop : m.operation? id = none) : EndsAt m (.result id) .unresolved
  | constant {v : Value} (hv : v.isConstant = true) : EndsAt m v .unresolved

/-- The walk back from an operand ends, with what the operand points at. -/
inductive Arrives (m : Program) : Value → Resolution → Prop
  | here {v : Value} {r : Resolution} (h : m.EndsAt v r) : Arrives m v r
  | back {v w : Value} {steps : List Step} {r : Resolution} (hstep : m.StepsBack v steps w)
      (hw : Arrives m w r) : Arrives m v (r.extend steps)

/-- An address is followed back to an operand at once. -/
def GoesBackTo (m : Program) (v w : Value) : Prop := ∃ steps, m.StepsBack v steps w

/-- The walk back from an operand comes to one that it comes back to. -/
def Circles (m : Program) (v : Value) : Prop :=
  ∃ w, Relation.ReflTransGen m.GoesBackTo v w ∧ Relation.TransGen m.GoesBackTo w w

end Program

/-! ## One step -/

namespace Origin

/-- What an operand of this origin points at, if it is not followed back. -/
def resolution? : Origin → Option Resolution
  | .frame f => some (.resolved (.ofFrame f))
  | .union => some (.imprecise [])
  | .elsewhere => some .unresolved
  | _ => none

/-- The operand that one of this origin is followed back to, with the steps that lie between. -/
def before? : Origin → Option (List Step × Value)
  | .step s base => some ([s], base)
  | .through v => some ([], v)
  | _ => none

end Origin

namespace Program

variable {m : Program} {v w : Value} {r : Resolution} {steps : List Step}

/-- What an operation belongs to has the type of its result. -/
theorem exists_inst_of_operation? {id : Nat} {op : Operation} (h : m.operation? id = some op) :
    ∃ inst, m.inst? id = some inst ∧ inst.operation = op ∧ m.typeOf (.result id) = inst.type := by
  obtain ⟨inst, hinst, hop⟩ := Option.map_eq_some_iff.mp h
  exact ⟨inst, hinst, hop, by simp [typeOf, hinst]⟩

/-- The walk stops at an operand that is not followed back. -/
theorem EndsAt.resolution?_origin (h : m.EndsAt v r) : (m.origin v).resolution? = some r := by
  cases h with
  | param => rfl
  | slot hop =>
    obtain ⟨inst, hinst, hop, -⟩ := exists_inst_of_operation? hop
    simp [origin, hinst, hop, Origin.resolution?]
  | union hop hkeeps hunion =>
    obtain ⟨inst, hinst, hop, htype⟩ := exists_inst_of_operation? hop
    rw [htype] at hunion
    simp only [origin, hinst, hop, hkeeps, hunion, if_true, Origin.resolution?]
  | operation hop hfollowed =>
    obtain ⟨inst, hinst, rfl, -⟩ := exists_inst_of_operation? hop
    cases hop' : inst.operation with
    | alloca | addressOf | load => simp [hop', Operation.isFollowed] at hfollowed
    | cast conversion value =>
      have hkeeps : conversion.keepsAddress = false := by
        simpa [hop', Operation.isFollowed] using hfollowed
      simp [origin, hinst, hop', hkeeps, Origin.resolution?]
    | _ => simp [origin, hinst, hop', Origin.resolution?]
  | dangling hop =>
    have hinst := Option.map_eq_none_iff.mp hop
    simp [origin, hinst, Origin.resolution?]
  | constant hv =>
    cases v with
    | result | param => cases hv
    | _ => rfl

/-- The walk takes the steps that lead back. -/
theorem StepsBack.before?_origin (h : m.StepsBack v steps w) :
    (m.origin v).before? = some (steps, w) := by
  cases h with
  | addressOf hop | load hop =>
    obtain ⟨inst, hinst, hop, -⟩ := exists_inst_of_operation? hop
    simp [origin, hinst, hop, Origin.before?]
  | cast hop hkeeps hunion =>
    obtain ⟨inst, hinst, hop, htype⟩ := exists_inst_of_operation? hop
    rw [htype] at hunion
    simp only [origin, hinst, hop, hkeeps, hunion, if_true, Bool.false_eq_true, if_false,
      Origin.before?]

/-- The walk ends at an operand or goes on. -/
theorem endsAt_or_stepsBack (m : Program) (v : Value) :
    (∃ r, m.EndsAt v r) ∨ ∃ steps w, m.StepsBack v steps w := by
  cases v with
  | param proc index => exact .inl ⟨_, .param proc index⟩
  | result id =>
    cases hop : m.operation? id with
    | none => exact .inl ⟨_, .dangling hop⟩
    | some op =>
      cases op with
      | alloca allocated => exact .inl ⟨_, .slot hop⟩
      | addressOf indexed base indices => exact .inr ⟨_, _, .addressOf hop⟩
      | load address => exact .inr ⟨_, _, .load hop⟩
      | cast conversion value =>
        cases hkeeps : conversion.keepsAddress with
        | false => exact .inl ⟨_, .operation hop hkeeps⟩
        | true =>
          cases hunion :
              pointsAtUnion (m.typeOf value) || pointsAtUnion (m.typeOf (.result id)) with
          | false => exact .inr ⟨_, _, .cast hop hkeeps hunion⟩
          | true => exact .inl ⟨_, .union hop hkeeps hunion⟩
      | _ => exact .inl ⟨_, .operation hop rfl⟩
  | _ => exact .inl ⟨_, .constant rfl⟩

/-- The walk does not go on from where it ends. -/
theorem EndsAt.not_goesBackTo (h : m.EndsAt v r) : ¬m.GoesBackTo v w := by
  rintro ⟨steps, hstep⟩
  have hends := h.resolution?_origin
  have hback := hstep.before?_origin
  cases horigin : m.origin v <;>
    simp [horigin, Origin.resolution?, Origin.before?] at hends hback

/-- An address goes back to at most one operand. -/
theorem GoesBackTo.unique {w' : Value} (h : m.GoesBackTo v w) (h' : m.GoesBackTo v w') :
    w = w' := by
  obtain ⟨steps, hstep⟩ := h
  obtain ⟨steps', hstep'⟩ := h'
  have heq := hstep.before?_origin.symm.trans hstep'.before?_origin
  exact (Prod.mk.inj (Option.some.inj heq)).2

/-- Only the results of instructions are followed back. -/
theorem GoesBackTo.mem_results (h : m.GoesBackTo v w) :
    v ∈ (List.range m.instructions.size).map Value.result := by
  have hmem {id : Nat} {op : Operation} (hop : m.operation? id = some op) :
      Value.result id ∈ (List.range m.instructions.size).map Value.result := by
    obtain ⟨inst, hinst, -⟩ := exists_inst_of_operation? hop
    obtain ⟨hlt, -⟩ := Array.getElem?_eq_some_iff.mp hinst
    exact List.mem_map_of_mem (List.mem_range.mpr hlt)
  obtain ⟨steps, hstep⟩ := h
  cases hstep with
  | addressOf hop | load hop => exact hmem hop
  | cast hop _ _ => exact hmem hop

/-- A walk that ends has found what its last operand points at, with the steps on the way. -/
theorem walk_of_endsAt (h : m.EndsAt v r) (n : Nat) (steps : List Step) :
    m.walk (n + 1) steps v = r.extend steps := by
  have hends := h.resolution?_origin
  rw [walk]
  cases horigin : m.origin v <;> rw [horigin] at hends <;> cases hends <;> rfl

/-- A walk goes on from the operand before, with one instruction less to pass. -/
theorem walk_of_stepsBack (h : m.StepsBack v steps w) (n : Nat) (below : List Step) :
    m.walk (n + 1) below v = m.walk n (steps ++ below) w := by
  have hback := h.before?_origin
  rw [walk]
  cases horigin : m.origin v <;> rw [horigin] at hback <;> cases hback <;> rfl

/-! ## Circles -/

/-- A circle that lies ahead of an operand still lies ahead after one step. -/
theorem Circles.of_goesBackTo (h : m.Circles v) (hback : m.GoesBackTo v w) : m.Circles w := by
  obtain ⟨u, hreaches, hcircle⟩ := h
  obtain rfl | ⟨w', hback', hreaches'⟩ := Relation.ReflTransGen.cases_head hreaches
  · obtain ⟨w', hback', hreaches'⟩ := Relation.TransGen.head'_iff.mp hcircle
    obtain rfl := hback.unique hback'
    exact ⟨v, hreaches', hcircle⟩
  · obtain rfl := hback.unique hback'
    exact ⟨u, hreaches', hcircle⟩

/-- A walk that ends does not go round in a circle. -/
theorem Arrives.not_circles (h : m.Arrives v r) : ¬m.Circles v := by
  induction h with
  | here hends =>
    rintro ⟨u, hreaches, hcircle⟩
    obtain rfl | ⟨w, hback, -⟩ := Relation.ReflTransGen.cases_head hreaches
    · obtain ⟨w, hback, -⟩ := Relation.TransGen.head'_iff.mp hcircle
      exact hends.not_goesBackTo hback
    · exact hends.not_goesBackTo hback
  | back hstep _ ih => exact fun hcircles => ih (hcircles.of_goesBackTo ⟨_, hstep⟩)

/-- More instructions in a row than there are include one twice. -/
theorem circles_of_size_lt_length {visited : List Value}
    (horder : visited.Pairwise (Relation.TransGen m.GoesBackTo))
    (hvisited : ∀ u ∈ visited, Relation.ReflTransGen m.GoesBackTo v u ∧ ∃ w, m.GoesBackTo u w)
    (hlength : m.instructions.size < visited.length) : m.Circles v := by
  by_contra hcircles
  have hnodup : visited.Nodup := by
    refine horder.imp_of_mem fun {u u'} hu _ hreaches heq => hcircles ?_
    subst heq
    exact ⟨u, (hvisited u hu).1, hreaches⟩
  have hsubset : visited ⊆ (List.range m.instructions.size).map Value.result := by
    intro u hu
    obtain ⟨w, hback⟩ := (hvisited u hu).2
    exact hback.mem_results
  have hle := (hnodup.subperm hsubset).length_le
  simp only [List.length_map, List.length_range] at hle
  omega

/-! ## The limit -/

/-- Up to its limit, the walk ends as it does without one, or it passes as many instructions as the
limit allows. -/
theorem walk_eq_or_exists_visited (m : Program) (n : Nat) (steps : List Step) (v : Value) :
    (∃ r, m.Arrives v r ∧ m.walk n steps v = r.extend steps) ∨
      m.walk n steps v = .unresolved ∧ ∃ visited : List Value, visited.length = n ∧
        visited.Pairwise (Relation.TransGen m.GoesBackTo) ∧
        ∀ u ∈ visited, Relation.ReflTransGen m.GoesBackTo v u ∧ ∃ w, m.GoesBackTo u w := by
  induction n generalizing steps v with
  | zero => exact .inr ⟨rfl, [], rfl, .nil, by simp⟩
  | succ n ih =>
    obtain ⟨r, hends⟩ | ⟨between, w, hstep⟩ := m.endsAt_or_stepsBack v
    · exact .inl ⟨r, .here hends, walk_of_endsAt hends n steps⟩
    · have hback : m.GoesBackTo v w := ⟨between, hstep⟩
      rw [walk_of_stepsBack hstep]
      obtain ⟨r, hw, hwalk⟩ | ⟨hwalk, visited, hlength, horder, hvisited⟩ := ih (between ++ steps) w
      · exact .inl ⟨_, .back hstep hw, hwalk.trans (r.extend_append between steps)⟩
      · refine .inr ⟨hwalk, v :: visited, by simp [hlength], ?_, ?_⟩
        · exact .cons (fun u hu => .head' hback (hvisited u hu).1) horder
        · intro u hu
          obtain rfl | hu := List.mem_cons.mp hu
          · exact ⟨.refl, w, hback⟩
          · exact ⟨.head hback (hvisited u hu).1, (hvisited u hu).2⟩

/-- The limit is never reached but by a walk that goes round in a circle. -/
theorem arrives_resolve_or_circles (m : Program) (v : Value) :
    m.Arrives v (m.resolve v) ∨ m.resolve v = .unresolved ∧ m.Circles v := by
  obtain ⟨r, harrives, hwalk⟩ | ⟨hwalk, visited, hlength, horder, hvisited⟩ :=
    m.walk_eq_or_exists_visited (m.instructions.size + 1) [] v
  · left
    rw [resolve, hwalk, Resolution.extend_nil]
    exact harrives
  · exact .inr ⟨hwalk, circles_of_size_lt_length horder hvisited (by omega)⟩

/-- A walk ends with one result. -/
theorem Arrives.unique {r' : Resolution} (h : m.Arrives v r) (h' : m.Arrives v r') : r = r' := by
  induction h generalizing r' with
  | here hends =>
    cases h' with
    | here hends' =>
      exact Option.some.inj (hends.resolution?_origin.symm.trans hends'.resolution?_origin)
    | back hstep _ => exact absurd ⟨_, hstep⟩ hends.not_goesBackTo
  | back hstep _ ih =>
    cases h' with
    | here hends => exact absurd ⟨_, hstep⟩ hends.not_goesBackTo
    | back hstep' hw =>
      have heq := hstep.before?_origin.symm.trans hstep'.before?_origin
      obtain ⟨rfl, rfl⟩ := Prod.mk.inj (Option.some.inj heq)
      rw [ih hw]

/-- The walk with a limit finds what the walk without one arrives at. -/
theorem Arrives.resolve_eq (h : m.Arrives v r) : m.resolve v = r := by
  obtain harrives | ⟨-, hcircles⟩ := m.arrives_resolve_or_circles v
  · exact harrives.unique h
  · exact absurd hcircles h.not_circles

/-- The walk with a limit finds nothing where the walk without one goes round in a circle. -/
theorem Circles.resolve_eq (h : m.Circles v) : m.resolve v = .unresolved := by
  obtain harrives | ⟨hresolve, -⟩ := m.arrives_resolve_or_circles v
  · exact absurd h harrives.not_circles
  · exact hresolve

/-- An address points where what it was computed from does, further by the steps between. -/
theorem StepsBack.resolve_eq (h : m.StepsBack v steps w) :
    m.resolve v = (m.resolve w).extend steps := by
  obtain harrives | ⟨hresolve, u, hreaches, hcircle⟩ := m.arrives_resolve_or_circles w
  · exact (Arrives.back h harrives).resolve_eq
  · have hcircles : m.Circles v := ⟨u, .head ⟨steps, h⟩ hreaches, hcircle⟩
    rw [hresolve, hcircles.resolve_eq]
    rfl

/-- An address has the location that it was computed from, with the steps that lie between. -/
theorem StepsBack.locationOf?_eq (h : m.StepsBack v steps w) :
    m.locationOf? v = (m.locationOf? w).map fun l => ⟨l.frame, l.steps ++ steps⟩ := by
  rw [locationOf?, locationOf?, h.resolve_eq, Resolution.location?_extend]

/-- A walk either arrives or goes round in a circle. -/
theorem circles_iff : m.Circles v ↔ ¬∃ r, m.Arrives v r := by
  constructor
  · rintro hcircles ⟨r, harrives⟩
    exact harrives.not_circles hcircles
  · intro hnone
    obtain harrives | ⟨-, hcircles⟩ := m.arrives_resolve_or_circles v
    · exact absurd ⟨_, harrives⟩ hnone
    · exact hcircles

/-- A load, an address computation and a conversion, which lead from the last instruction over all
the others to a parameter. -/
def chained : Program :=
  { name := "chained"
    instructions := #[
      ⟨0, 0, 0, .load (.param 0 0), .pointer (.struct "S"), none⟩,
      ⟨1, 0, 0, .addressOf (.struct "S") (.result 0) [.zero, .int 1], .pointer (.int 32), none⟩,
      ⟨2, 0, 0, .cast .bitcast (.result 1), .pointer (.int 8), none⟩] }

/-- A load and a conversion, each of which uses the other. -/
def circular : Program :=
  { name := "circular"
    instructions := #[
      ⟨0, 0, 0, .load (.result 1), .pointer (.int 8), none⟩,
      ⟨1, 0, 0, .cast .bitcast (.result 0), .pointer (.pointer (.int 8)), none⟩] }

/-- What an operand points at is what the walk without a limit ends with, and the operand is not
resolved if that walk goes round in a circle, which it does if it never ends. So a load and a
conversion of pointers point where their operand does, and an address computation one step
further. -/
theorem resolve_eq_iff_arrives_or_circles (m : Program) :
    (∀ v r, m.resolve v = r ↔ m.Arrives v r ∨ r = .unresolved ∧ m.Circles v) ∧
      (∀ v, m.Circles v ↔ ¬∃ r, m.Arrives v r) ∧
      (∀ id address, m.operation? id = some (.load address) →
        m.locationOf? (.result id) = m.locationOf? address) ∧
      (∀ id conversion value, m.operation? id = some (.cast conversion value) →
        conversion.keepsAddress = true →
        (pointsAtUnion (m.typeOf value) || pointsAtUnion (m.typeOf (.result id))) = false →
        m.locationOf? (.result id) = m.locationOf? value) ∧
      ∀ id indexed base indices, m.operation? id = some (.addressOf indexed base indices) →
        m.locationOf? (.result id) = (m.locationOf? base).map (·.child ⟨indexed, indices⟩) := by
  refine ⟨fun v r => ⟨?_, ?_⟩, fun v => circles_iff, fun id address hop => ?_,
    fun id conversion value hop hkeeps hunion => ?_, fun id indexed base indices hop => ?_⟩
  · rintro rfl
    exact m.arrives_resolve_or_circles v
  · rintro (harrives | ⟨rfl, hcircles⟩)
    · exact harrives.resolve_eq
    · exact hcircles.resolve_eq
  · simpa using (StepsBack.load hop).locationOf?_eq
  · simpa using (StepsBack.cast hop hkeeps hunion).locationOf?_eq
  · exact (StepsBack.addressOf hop).locationOf?_eq

/-- The walk that passes every instruction is not cut short, and the one that goes round in a circle
is stopped. -/
theorem resolve_eq_iff_arrives_or_circles_chained :
    chained.locationOf? (.result 2) =
        some ⟨.param 0 0, [⟨.struct "S", [.zero, .int 1]⟩]⟩ ∧
      circular.Circles (.result 0) ∧ circular.resolve (.result 0) = .unresolved := by
  obtain ⟨-, -, hload, hcast, hstep⟩ := resolve_eq_iff_arrives_or_circles chained
  obtain ⟨hresolve, -⟩ := resolve_eq_iff_arrives_or_circles circular
  have hcircles : circular.Circles (.result 0) := by
    have hthere : circular.GoesBackTo (.result 0) (.result 1) := ⟨[], .load rfl⟩
    have hback : circular.GoesBackTo (.result 1) (.result 0) := ⟨[], .cast rfl rfl rfl⟩
    exact ⟨.result 0, .refl, .tail (.single hthere) hback⟩
  refine ⟨?_, hcircles, (hresolve _ _).mpr (.inr ⟨rfl, hcircles⟩)⟩
  rw [hcast 2 .bitcast (.result 1) rfl rfl rfl, hstep 1 _ _ _ rfl, hload 0 _ rfl]
  decide

end Program

end TaintTrail

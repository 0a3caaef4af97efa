import TaintTrail.Resolution

/-!
# Where addresses come from

The walk back from an operand passes from each instruction to one of its own operands and ends at a
parameter or at an instruction that makes a stack slot. So what instructions pass on to their
operands holds of the value at which the walk ends.
-/

namespace TaintTrail

/-- Whether a value is neither computed by an instruction nor passed to a procedure. -/
def Value.isConstant : Value → Bool
  | .result _ | .param _ _ => false
  | _ => true

/-- Where the memory that an operand points at can start: at a stack slot that an instruction makes,
or at whatever parameter the operand names. -/
def Program.IsRoot (m : Program) : Frame → Prop
  | .stack id => ∃ allocated, m.operation? id = some (.alloca allocated)
  | .param _ _ => True
  | .varArgs _ => False

namespace Program

variable {m : Program}

/-- The walk goes on from an operand to another one. -/
def WalksTo (m : Program) (v base : Value) : Prop :=
  (∃ s, m.origin v = .step s base) ∨ m.origin v = .through base

/-- The walk goes on to an operand of the instruction that computed the value. -/
theorem WalksTo.exists_inst {v base : Value} (h : m.WalksTo v base) :
    ∃ id inst, v = .result id ∧ m.inst? id = some inst ∧ base ∈ inst.operation.operands := by
  cases v with
  | result id =>
    refine ⟨id, ?_⟩
    unfold WalksTo origin at h
    cases hinst : m.inst? id with
    | none => simp [hinst] at h
    | some inst =>
      refine ⟨inst, rfl, rfl, ?_⟩
      simp only [hinst] at h
      cases hop : inst.operation with
      | addressOf indexed base' indices =>
        obtain rfl : base' = base := by simpa [hop] using h
        exact List.mem_cons_self
      | load address =>
        obtain rfl : address = base := by simpa [hop] using h
        exact List.mem_cons_self
      | cast conversion value =>
        simp only [hop] at h
        split at h
        · split at h
          · simp at h
          · obtain rfl : value = base := by simpa using h
            exact List.mem_cons_self
        · simp at h
      | _ => simp [hop] at h
  | _ => simp [WalksTo, origin] at h

/-- The walk ends at parameters and at instructions that make stack slots. -/
theorem origin_eq_frame_cases {v : Value} {f : Frame} (h : m.origin v = .frame f) :
    (∃ proc index, v = .param proc index ∧ f = .param proc index) ∨
      ∃ id allocated, v = .result id ∧ f = .stack id ∧
        m.operation? id = some (.alloca allocated) := by
  cases v with
  | param proc index =>
    obtain rfl : Frame.param proc index = f := by simpa [origin] using h
    exact .inl ⟨proc, index, rfl, rfl⟩
  | result id =>
    refine .inr ⟨id, ?_⟩
    unfold origin at h
    cases hinst : m.inst? id with
    | none => simp [hinst] at h
    | some inst =>
      simp only [hinst] at h
      cases hop : inst.operation with
      | alloca allocated =>
        obtain rfl : Frame.stack id = f := by simpa [hop] using h
        exact ⟨allocated, rfl, rfl, by simp [operation?, hinst, hop]⟩
      | cast conversion value =>
        simp only [hop] at h
        split at h
        · split at h <;> simp at h
        · simp at h
      | _ => simp [hop] at h
  | _ => simp [origin] at h

/-- What holds of an operand and is passed on along the walk holds where the walk ends. -/
theorem exists_frame_of_walk {P : Value → Prop}
    (hpass : ∀ v base, P v → m.WalksTo v base → P base) {k : Nat} {steps : List Step} {v : Value}
    {l : Location} (hv : P v) (h : m.walk k steps v = .resolved l) :
    ∃ v', P v' ∧ m.origin v' = .frame l.frame := by
  fun_induction walk m k steps v with
  | case1 => simp at h
  | case2 k steps v f horigin =>
    obtain rfl := Resolution.resolved.inj h
    exact ⟨v, hv, horigin⟩
  | case3 k steps v s base horigin ih => exact ih (hpass v base hv (.inl ⟨s, horigin⟩)) h
  | case4 k steps v base horigin ih => exact ih (hpass v base hv (.inr horigin)) h
  | case5 => simp at h
  | case6 => simp at h

/-- What holds of an operand and is passed on along the walk holds of the value whose frame the
operand points into. -/
theorem exists_frame_of_locationOf? {P : Value → Prop}
    (hpass : ∀ v base, P v → m.WalksTo v base → P base) {v : Value} {l : Location} (hv : P v)
    (h : m.locationOf? v = some l) : ∃ v', P v' ∧ m.origin v' = .frame l.frame := by
  unfold locationOf? Resolution.location? at h
  split at h
  · next hresolve =>
    obtain rfl := Option.some.inj h
    exact exists_frame_of_walk hpass hv hresolve
  · simp at h

/-- Operands point into stack slots and at parameters. -/
theorem isRoot_of_locationOf? {v : Value} {l : Location} (h : m.locationOf? v = some l) :
    m.IsRoot l.frame := by
  obtain ⟨v', -, horigin⟩ :=
    exists_frame_of_locationOf? (P := fun _ => True) (fun _ _ _ _ => trivial) trivial h
  obtain ⟨proc, index, -, hframe⟩ | ⟨id, allocated, -, hframe, hop⟩ := origin_eq_frame_cases horigin
  · rw [hframe]
    trivial
  · rw [hframe]
    exact ⟨allocated, hop⟩

end Program

end TaintTrail

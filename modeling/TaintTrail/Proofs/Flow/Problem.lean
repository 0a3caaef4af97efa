import TaintTrail.Flow.Problem
import TaintTrail.Proofs.Tabulation.Fixpoint

/-!
# The taint problem while nothing is given up

The flow functions of the taint problem depend on the store only through the procedures that were
given up. While there are none, a flow function is that of its transfer alone, and giving up a
procedure is the only thing that disturbs the others.
-/

namespace TaintTrail

namespace Program

/-- The flow function of a transfer while no procedure is given up. -/
def flowOf (m : Program) (config : Config) (t : Transfer Nat) : Flow :=
  Flow.ofTransfer m (m.rules config) {} t

/-- What applying the flow function of a transfer to a fact comes to while no procedure is given
up. -/
def effectOf (m : Program) (config : Config) (t : Transfer Nat) (d : Fact) : Effect :=
  (m.flowOf config t).apply m config d

/-- The facts that a fact turns into along a transfer while no procedure is given up. -/
def outcomes (m : Program) (config : Config) (t : Transfer Nat) (d : Fact) : List Fact :=
  (m.effectOf config t d).facts

/-- Following a transfer with a fact gives up a procedure. -/
def GivesUp (m : Program) (config : Config) (t : Transfer Nat) (d : Fact) : Prop :=
  (m.effectOf config t d).aborts ≠ none

end Program

/-- Where no procedure was given up, no instruction is aborted. -/
@[simp] theorem Findings.isAborted_eq_false {f : Findings} (h : f.aborted = []) (m : Program)
    (id : Nat) : f.isAborted m id = false := by
  simp [isAborted, h]

/-- A map in which a value was put is not empty. -/
theorem Sorted.put_ne_nil {κ β : Type} [Ord κ] (key : κ) (value : β) (map : List (κ × β)) :
    Sorted.put key value map ≠ [] := by
  cases map with
  | nil => simp [put, alter]
  | cons pair rest =>
    unfold put alter
    cases compare key pair.1 <;> simp

/-- Taking note of an effect leaves no procedure given up exactly if there was none and the effect
gives up none. -/
theorem Findings.note_aborted_eq_nil_iff (f : Findings) (m : Program) (e : Effect) :
    (f.note m e).aborted = [] ↔ f.aborted = [] ∧ e.aborts = none := by
  unfold note
  cases e.aborts with
  | none => simp
  | some abort => simp [Sorted.put_ne_nil]

namespace Flow

variable (m : Program) (rules : Array (Option Rule))

/-- While no procedure is given up, the findings do not matter. -/
theorem ofTransfer_eq_of_aborted_eq_nil {f : Findings} (h : f.aborted = []) (t : Transfer Nat) :
    ofTransfer m rules f t = ofTransfer m rules {} t := by
  cases t <;> simp [ofTransfer, h]

/-- The findings can only stop a flow function. -/
theorem ofTransfer_eq_kill_or (f : Findings) (t : Transfer Nat) :
    ofTransfer m rules f t = .kill ∨ ofTransfer m rules f t = ofTransfer m rules {} t := by
  cases t <;> simp only [ofTransfer] <;> split <;> simp

end Flow

/-- Nothing but the zero fact holds at the start. -/
theorem Program.eq_zero_of_mem_seeds {m : Program} {config : Config} {n : Nat} {d : Fact}
    (h : (n, d) ∈ (m.taintProblem config).seeds) : d = .zero := by
  obtain ⟨start, -, heq⟩ := List.mem_map.mp h
  exact (Prod.mk.inj heq).2.symm

/-- The taint problem is steady: its store matters only through the procedures given up. -/
theorem Program.taintProblem_steady (m : Program) (config : Config) :
    (m.taintProblem config).Steady (m.outcomes config) (fun f => f.aborted = [])
      (m.GivesUp config) where
  flow_subset t d f d' hd' := by
    obtain hkill | hsame := Flow.ofTransfer_eq_kill_or m (m.rules config) f t
    · simp [taintProblem, hkill, Flow.apply] at hd'
    · simp only [taintProblem, hsame] at hd'
      exact hd'
  flow_eq t d f hf := by
    simp only [taintProblem, Flow.ofTransfer_eq_of_aborted_eq_nil m _ hf]
    rfl
  quiet_iff t d f := by
    simp only [taintProblem, Findings.note_aborted_eq_nil_iff, GivesUp, not_not]
    refine and_congr_right fun hf => ?_
    rw [Flow.ofTransfer_eq_of_aborted_eq_nil m _ hf]
    rfl

end TaintTrail

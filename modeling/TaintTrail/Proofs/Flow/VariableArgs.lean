import Mathlib.Data.List.Induction
import Mathlib.Logic.Function.Basic
import TaintTrail.Proofs.Location.Order
import TaintTrail.Proofs.Supergraph.OfProgram
import TaintTrail.Flow.Within

/-!
# Taking variable arguments

A tainted variable argument is known by its position. Every list that is opened gets a companion of
that fact with a cursor of its own, which moves on as arguments are taken, until the tainted one is.
Beside it stands a machine that knows nothing of taint: it keeps for every open list how many
arguments have been taken from it. This file shows that the companions keep pace with the machine
through any sequence of instructions that use lists as they may be used.
-/

namespace TaintTrail

/-- What an instruction does with variable argument lists. -/
inductive ListOp (ι : Type) where
  /-- The list is opened before its first argument. -/
  | start (list : ι)
  /-- The next argument of the list is taken. -/
  | take (list : ι)
  /-- The target is opened where the source stands. -/
  | copy (target source : ι)
  /-- The list is closed. -/
  | finish (list : ι)
  deriving DecidableEq, Repr

namespace ListOp

variable {ι κ : Type}

/-- The lists that an operation is about. -/
@[simp] def lists : ListOp ι → List ι
  | .start list | .take list | .finish list => [list]
  | .copy target source => [target, source]

/-- The operation on lists of other names. -/
def map (name : ι → κ) : ListOp ι → ListOp κ
  | .start list => .start (name list)
  | .take list => .take (name list)
  | .copy target source => .copy (name target) (name source)
  | .finish list => .finish (name list)

/-- Carries out an operation, given how many arguments have been taken from each open list. Only
lists that are not open may be opened, and only open ones used otherwise. -/
def exec [DecidableEq ι] (taken : ι → Option Nat) : ListOp ι → Option (ι → Option Nat)
  | .start list =>
    match taken list with
    | none => some (Function.update taken list (some 0))
    | some _ => none
  | .take list => (taken list).map fun k => Function.update taken list (some (k + 1))
  | .copy target source =>
    match taken target, taken source with
    | none, some k => some (Function.update taken target (some k))
    | _, _ => none
  | .finish list => (taken list).map fun _ => Function.update taken list none

/-- The rule of the instruction with an operation on lists at known locations. -/
def rule : ListOp Location → Rule
  | .start list => .vaStart (some list)
  | .take list => .vaArg (some list)
  | .copy target source => .vaCopy (some source) (some target)
  | .finish list => .vaEnd (some list)

end ListOp

/-- What an operation does with lists, if the operands that point to them have locations. -/
def Operation.listOp? (locationOf? : Value → Option Location) : Operation → Option (ListOp Location)
  | .vaStart list => (locationOf? list).map .start
  | .vaArg list => (locationOf? list).map .take
  | .vaCopy target source =>
    (locationOf? target).bind fun t => (locationOf? source).map fun s => .copy t s
  | .vaEnd list => (locationOf? list).map .finish
  | _ => none

namespace Program

variable {ι : Type} [DecidableEq ι]

/-- What the instruction at a position does with lists. -/
def listOp? (m : Program) (n : Nat) : Option (ListOp Location) :=
  (m.operation? n).bind (·.listOp? m.locationOf?)

/-- The locations through which instructions use lists. -/
def listsOf (m : Program) (ns : List Nat) : List Location :=
  ns.flatMap fun n => (m.listOp? n).toList.flatMap ListOp.lists

/-- How many arguments have been taken from each open list after some instructions, if each of them
is about lists and uses them as it may. -/
def taken? (m : Program) (name : Location → ι) (ns : List Nat) : Option (ι → Option Nat) :=
  ns.foldlM (fun taken n => (m.listOp? n).bind fun op => (op.map name).exec taken) fun _ => none

/-- The instruction at a position takes, somewhere in a sequence of instructions, the argument with
a given number. -/
def Takes (m : Program) (name : Location → ι) (ns : List Nat) (r i : Nat) : Prop :=
  ∃ before after taken list, ns = before ++ r :: after ∧ m.taken? name before = some taken ∧
    m.listOp? r = some (.take list) ∧ taken (name list) = some i

/-- The facts that facts turn into when the instruction at a position runs in a procedure. -/
def factsAfter (m : Program) (config : Config) (p : Procedure) (facts : List Fact) (n : Nat) :
    List Fact :=
  match m.inst? n with
  | none => facts
  | some inst => facts.flatMap ((Rule.ofInstruction m config p inst).flow m n inst.type)

end Program

namespace Fact

/-- The companion of a tainted variable argument that goes with a list. -/
def companion (base : Location) (i : Nat) (list : Location) (cursor : Nat) : Fact :=
  { varArg base i with list := some list, cursor := some cursor }

/-- Tainted values are told apart as facts. -/
@[simp] theorem value_inj {v w : Value} : value v = value w ↔ v = w := by simp [value]

/-- A tainted value is not a tainted variable argument. -/
@[simp] theorem value_ne_varArg {v : Value} {base : Location} {i : Nat} :
    value v ≠ varArg base i := by
  simp [value, varArg]

/-- A tainted value is not a companion. -/
@[simp] theorem value_ne_companion {v : Value} {base list : Location} {i cursor : Nat} :
    value v ≠ companion base i list cursor := by
  simp [value, companion]

end Fact

/-! ## What the rules do to a tainted argument, its companions and values -/

namespace ListOp

section Flow

variable {m : Program} {base tracked : Location} {i n cursor : Nat} {type : Ty} {v : Value}

/-- Tainted values stay tainted whatever is done with lists. -/
@[simp] theorem flow_value (op : ListOp Location) :
    op.rule.flow m n type (.value v) = [.value v] := by
  cases op <;> rfl

/-- A tainted argument stays as it is. Opening a list adds the companion of the list. -/
@[simp] theorem flow_varArg (op : ListOp Location) :
    op.rule.flow m n type (.varArg base i) =
      match op with
      | .start list => [.varArg base i, .companion base i list 0]
      | _ => [.varArg base i] := by
  cases op <;> rfl

/-- What each operation does to a companion. One on another list leaves it alone. -/
@[simp] theorem flow_companion (op : ListOp Location) :
    op.rule.flow m n type (.companion base i tracked cursor) =
      match op with
      | .start _ => [.companion base i tracked cursor]
      | .take list =>
        if tracked.overlaps list then
          if cursor = i then [.value (.result n)]
          else if cursor < i then [.companion base i tracked (cursor + 1)]
          else []
        else [.companion base i tracked cursor]
      | .copy target source =>
        if tracked.overlaps source then
          [.companion base i tracked cursor, .companion base i target cursor]
        else [.companion base i tracked cursor]
      | .finish list =>
        if tracked.overlaps list then [] else [.companion base i tracked cursor] := by
  cases op <;> rfl

end Flow

section Exec

variable {ι : Type} [DecidableEq ι] {taken taken' : ι → Option Nat} {list target source : ι}

/-- A list is opened if it is not open, with nothing taken from it. -/
@[simp] theorem exec_start :
    (start list).exec taken = some taken' ↔
      taken list = none ∧ Function.update taken list (some 0) = taken' := by
  rw [exec]
  cases taken list <;> simp

/-- An argument is taken from a list if it is open. -/
@[simp] theorem exec_take :
    (take list).exec taken = some taken' ↔
      ∃ k, taken list = some k ∧ Function.update taken list (some (k + 1)) = taken' := by
  simp [exec]

/-- A list is copied to one that is not open, with what has been taken from it. -/
@[simp] theorem exec_copy :
    (copy target source).exec taken = some taken' ↔
      taken target = none ∧
        ∃ k, taken source = some k ∧ Function.update taken target (some k) = taken' := by
  rw [exec]
  cases taken target <;> cases taken source <;> simp

/-- A list is closed if it is open. -/
@[simp] theorem exec_finish :
    (finish list).exec taken = some taken' ↔
      ∃ k, taken list = some k ∧ Function.update taken list none = taken' := by
  simp [exec]

end Exec

end ListOp

/-! ## The companions keep pace with the machine -/

section Pace

variable {ι : Type} {m : Program} {name : Location → ι} {lists : List Location} {base : Location}
  {i n : Nat} {taken taken' : ι → Option Nat} {op : ListOp Location} {type : Ty} {facts : List Fact}

/-- Of the locations through which lists are used, two overlap exactly if they are of one list. -/
def TellsApart (name : Location → ι) (lists : List Location) : Prop :=
  ∀ l ∈ lists, ∀ l' ∈ lists, (l.overlaps l' = true ↔ name l = name l')

/-- Whether two locations overlap is decided by the names of their lists. -/
theorem TellsApart.overlaps_eq [DecidableEq ι] (h : TellsApart name lists) {l l' : Location}
    (hl : l ∈ lists) (hl' : l' ∈ lists) : l.overlaps l' = decide (name l = name l') := by
  rw [Bool.eq_iff_iff, decide_eq_true_iff]
  exact h l hl l' hl'

/-- Locations that do not overlap one another are locations of different lists. -/
theorem tellsApart_id (h : ∀ l ∈ lists, ∀ l' ∈ lists, l ≠ l' → l.overlaps l' = false) :
    TellsApart id lists := by
  intro l hl l' hl'
  by_cases heq : l = l'
  · simp [heq, Location.overlaps]
  · simp [heq, h l hl l' hl' heq]

/-- The facts that may stand beside a state of the machine: the tainted argument, values, and
companions that have not passed the argument, each with the cursor that its list has. -/
inductive KeepsPace (name : Location → ι) (lists : List Location) (base : Location) (i : Nat)
    (taken : ι → Option Nat) : Fact → Prop
  | argument : KeepsPace name lists base i taken (.varArg base i)
  | value (v : Value) : KeepsPace name lists base i taken (.value v)
  | companion {list : Location} {cursor : Nat} (hlist : list ∈ lists) (hle : cursor ≤ i)
      (htaken : taken (name list) = some cursor) :
      KeepsPace name lists base i taken (.companion base i list cursor)

/-- The facts beside a state of the machine. Every open list that has not passed the tainted
argument has its companion. -/
structure InStep (name : Location → ι) (lists : List Location) (base : Location) (i : Nat)
    (taken : ι → Option Nat) (facts : List Fact) : Prop where
  argument_mem : .varArg base i ∈ facts
  keepsPace : ∀ d ∈ facts, KeepsPace name lists base i taken d
  companion_mem : ∀ k cursor, taken k = some cursor → cursor ≤ i →
    ∃ list ∈ lists, name list = k ∧ .companion base i list cursor ∈ facts

/-- Before any list is open, the tainted argument stands alone. -/
theorem inStep_start : InStep name lists base i (fun _ => none) [.varArg base i] where
  argument_mem := by simp
  keepsPace d hd := by
    obtain rfl : d = .varArg base i := by simpa using hd
    exact .argument
  companion_mem k cursor h := by simp at h

variable [DecidableEq ι] (hname : TellsApart name lists) (hop : ∀ l ∈ op.lists, l ∈ lists)
  (hexec : (op.map name).exec taken = some taken')

include hname hop hexec

/-- What becomes of a companion in one step keeps pace with the machine, one case for each
operation. -/
theorem keepsPace_of_mem_flow_companion {tracked : Location} {cursor : Nat}
    (htracked : tracked ∈ lists) (hle : cursor ≤ i) (htaken : taken (name tracked) = some cursor)
    {d : Fact} (hd : d ∈ op.rule.flow m n type (.companion base i tracked cursor)) :
    KeepsPace name lists base i taken' d := by
  cases op with
  | start list =>
    obtain ⟨hclosed, rfl⟩ := ListOp.exec_start.mp hexec
    have hne : name tracked ≠ name list := fun h => by simp [← h, htaken] at hclosed
    obtain rfl : d = .companion base i tracked cursor := by simpa using hd
    exact .companion htracked hle (by simpa [hne] using htaken)
  | take list =>
    obtain ⟨k, hk, rfl⟩ := ListOp.exec_take.mp hexec
    have hoverlaps := hname.overlaps_eq htracked (hop list (by simp))
    by_cases hsame : name tracked = name list
    · obtain rfl : k = cursor := by simpa [← hsame, htaken] using hk.symm
      rcases Nat.eq_or_lt_of_le hle with rfl | hlt
      · obtain rfl : d = .value (.result n) := by simpa [hoverlaps, hsame] using hd
        exact .value _
      · obtain rfl : d = .companion base i tracked (k + 1) := by
          simpa [hoverlaps, hsame, hlt, Nat.ne_of_lt hlt] using hd
        exact .companion htracked hlt (by simp [hsame])
    · obtain rfl : d = .companion base i tracked cursor := by simpa [hoverlaps, hsame] using hd
      exact .companion htracked hle (by simpa [hsame] using htaken)
  | copy target source =>
    obtain ⟨hclosed, k, hk, rfl⟩ := ListOp.exec_copy.mp hexec
    have hoverlaps := hname.overlaps_eq htracked (hop source (by simp))
    have hne : name tracked ≠ name target := fun h => by simp [← h, htaken] at hclosed
    have hkept : KeepsPace name lists base i (Function.update taken (name target) (some k))
        (.companion base i tracked cursor) :=
      .companion htracked hle (by simpa [hne] using htaken)
    by_cases hsame : name tracked = name source
    · obtain rfl : k = cursor := by simpa [← hsame, htaken] using hk.symm
      obtain rfl | rfl : d = .companion base i tracked k ∨ d = .companion base i target k := by
        simpa [hoverlaps, hsame] using hd
      · exact hkept
      · exact .companion (hop target (by simp)) hle (by simp)
    · obtain rfl : d = .companion base i tracked cursor := by simpa [hoverlaps, hsame] using hd
      exact hkept
  | finish list =>
    obtain ⟨k, -, rfl⟩ := ListOp.exec_finish.mp hexec
    have hoverlaps := hname.overlaps_eq htracked (hop list (by simp))
    obtain ⟨hne, rfl⟩ : name tracked ≠ name list ∧ d = .companion base i tracked cursor := by
      simpa [hoverlaps] using hd
    exact .companion htracked hle (by simpa [hne] using htaken)

/-- What a fact that keeps pace with the machine turns into at an instruction keeps pace with the
machine after its operation. -/
theorem KeepsPace.of_mem_flow {d d' : Fact} (h : KeepsPace name lists base i taken d)
    (hd' : d' ∈ op.rule.flow m n type d) : KeepsPace name lists base i taken' d' := by
  cases h with
  | argument =>
    cases op with
    | start list =>
      obtain ⟨-, rfl⟩ := ListOp.exec_start.mp hexec
      obtain rfl | rfl : d' = .varArg base i ∨ d' = .companion base i list 0 := by simpa using hd'
      · exact .argument
      · exact .companion (hop list (by simp)) (Nat.zero_le i) (by simp)
    | _ =>
      obtain rfl : d' = .varArg base i := by simpa using hd'
      exact .argument
  | value v =>
    obtain rfl : d' = .value v := by simpa using hd'
    exact .value v
  | companion htracked hle htaken =>
    exact keepsPace_of_mem_flow_companion hname hop hexec htracked hle htaken hd'

/-- A list that is open after an operation, and has not passed the tainted argument, has its
companion among the facts after it. -/
theorem InStep.exists_companion (h : InStep name lists base i taken facts) {k : ι} {cursor : Nat}
    (hk : taken' k = some cursor) (hle : cursor ≤ i) :
    ∃ list ∈ lists, name list = k ∧
      .companion base i list cursor ∈ facts.flatMap (op.rule.flow m n type) := by
  cases op with
  | start list =>
    obtain ⟨-, rfl⟩ := ListOp.exec_start.mp hexec
    by_cases hsame : k = name list
    · obtain rfl : cursor = 0 := by simpa [hsame] using hk.symm
      refine ⟨list, hop list (by simp), hsame.symm, ?_⟩
      exact List.mem_flatMap.mpr ⟨_, h.argument_mem, by simp⟩
    · obtain ⟨tracked, htracked, hk', hmem⟩ :=
        h.companion_mem k cursor (by simpa [hsame] using hk) hle
      exact ⟨tracked, htracked, hk', List.mem_flatMap.mpr ⟨_, hmem, by simp⟩⟩
  | take list =>
    obtain ⟨j, hj, rfl⟩ := ListOp.exec_take.mp hexec
    by_cases hsame : k = name list
    · obtain rfl : cursor = j + 1 := by simpa [hsame] using hk.symm
      have hlt : j < i := by omega
      obtain ⟨tracked, htracked, hname', hmem⟩ := h.companion_mem _ j hj (by omega)
      have hoverlaps := hname.overlaps_eq htracked (hop list (by simp))
      refine ⟨tracked, htracked, hname'.trans hsame.symm, List.mem_flatMap.mpr ⟨_, hmem, ?_⟩⟩
      simp [hoverlaps, hname', hlt, Nat.ne_of_lt hlt]
    · obtain ⟨tracked, htracked, rfl, hmem⟩ :=
        h.companion_mem k cursor (by simpa [hsame] using hk) hle
      have hoverlaps := hname.overlaps_eq htracked (hop list (by simp))
      refine ⟨tracked, htracked, rfl, List.mem_flatMap.mpr ⟨_, hmem, ?_⟩⟩
      simp [hoverlaps, hsame]
  | copy target source =>
    obtain ⟨-, j, hj, rfl⟩ := ListOp.exec_copy.mp hexec
    by_cases hsame : k = name target
    · obtain rfl : cursor = j := by simpa [hsame] using hk.symm
      obtain ⟨tracked, htracked, hname', hmem⟩ := h.companion_mem _ cursor hj hle
      have hoverlaps := hname.overlaps_eq htracked (hop source (by simp))
      refine ⟨target, hop target (by simp), hsame.symm, List.mem_flatMap.mpr ⟨_, hmem, ?_⟩⟩
      simp [hoverlaps, hname']
    · obtain ⟨tracked, htracked, hk', hmem⟩ :=
        h.companion_mem k cursor (by simpa [hsame] using hk) hle
      refine ⟨tracked, htracked, hk', List.mem_flatMap.mpr ⟨_, hmem, ?_⟩⟩
      by_cases hoverlaps : tracked.overlaps source <;> simp [hoverlaps]
  | finish list =>
    obtain ⟨j, -, rfl⟩ := ListOp.exec_finish.mp hexec
    have hsame : k ≠ name list := by
      rintro rfl
      simp at hk
    obtain ⟨tracked, htracked, rfl, hmem⟩ :=
      h.companion_mem k cursor (by simpa [hsame] using hk) hle
    have hoverlaps := hname.overlaps_eq htracked (hop list (by simp))
    refine ⟨tracked, htracked, rfl, List.mem_flatMap.mpr ⟨_, hmem, ?_⟩⟩
    simp [hoverlaps, hsame]

/-- An operation leaves the facts in step with the machine. -/
theorem InStep.step (h : InStep name lists base i taken facts) :
    InStep name lists base i taken' (facts.flatMap (op.rule.flow m n type)) where
  argument_mem := by
    refine List.mem_flatMap.mpr ⟨_, h.argument_mem, ?_⟩
    cases op <;> simp
  keepsPace d' hd' := by
    obtain ⟨d, hd, hflow⟩ := List.mem_flatMap.mp hd'
    exact (h.keepsPace d hd).of_mem_flow hname hop hexec hflow
  companion_mem k cursor hk hle := h.exists_companion hname hop hexec hk hle

omit hexec in
/-- An instruction taints its result exactly if it takes the tainted argument. -/
theorem InStep.value_mem_iff (h : InStep name lists base i taken facts) {v : Value} :
    .value v ∈ facts.flatMap (op.rule.flow m n type) ↔
      .value v ∈ facts ∨
        v = .result n ∧ ∃ list, op = .take list ∧ taken (name list) = some i := by
  constructor
  · intro hv
    obtain ⟨d, hd, hflow⟩ := List.mem_flatMap.mp hv
    cases h.keepsPace d hd with
    | argument => cases op <;> simp at hflow
    | value w =>
      obtain rfl : v = w := by simpa using hflow
      exact .inl hd
    | @companion tracked cursor htracked hle htaken =>
      cases op with
      | take list =>
        have hoverlaps := hname.overlaps_eq htracked (hop list (by simp))
        obtain ⟨hsame, rfl, rfl⟩ : name tracked = name list ∧ cursor = i ∧ v = .result n := by
          grind [ListOp.flow_companion, Fact.value_inj, Fact.value_ne_companion]
        exact .inr ⟨rfl, list, rfl, hsame ▸ htaken⟩
      | copy target source => by_cases h : tracked.overlaps source <;> simp [h] at hflow
      | _ => simp at hflow
  · rintro (hv | ⟨rfl, list, rfl, htaken⟩)
    · exact List.mem_flatMap.mpr ⟨_, hv, by simp⟩
    · obtain ⟨tracked, htracked, hname', hmem⟩ := h.companion_mem _ i htaken (Nat.le_refl i)
      have hoverlaps := hname.overlaps_eq htracked (hop list (by simp))
      exact List.mem_flatMap.mpr ⟨_, hmem, by simp [hoverlaps, hname']⟩

end Pace

/-! ## Sequences of instructions -/

section Sequences

variable {ι : Type} [DecidableEq ι] {m : Program} {name : Location → ι} {ns : List Nat} {n : Nat}
  {taken : ι → Option Nat} {op : ListOp Location}

/-- The machine carries out the last operation after the others. -/
theorem taken?_append_singleton :
    m.taken? name (ns ++ [n]) =
      (m.taken? name ns).bind fun taken =>
        (m.listOp? n).bind fun op => (op.map name).exec taken := by
  simp [Program.taken?, List.foldlM_append]

/-- What the last of some instructions takes depends on what was taken before. -/
theorem takes_append_singleton (htaken : m.taken? name ns = some taken) {r i : Nat} :
    m.Takes name (ns ++ [n]) r i ↔
      m.Takes name ns r i ∨
        r = n ∧ ∃ list, m.listOp? n = some (.take list) ∧ taken (name list) = some i := by
  constructor
  · rintro ⟨before, after, taken', list, hns, hbefore, hop, hi⟩
    rcases List.eq_nil_or_concat after with rfl | ⟨after, last, rfl⟩
    · obtain ⟨rfl, rfl⟩ : ns = before ∧ n = r := by simpa using hns
      obtain rfl : taken = taken' := Option.some.inj (htaken.symm.trans hbefore)
      exact .inr ⟨rfl, list, hop, hi⟩
    · obtain ⟨rfl, rfl⟩ : ns = before ++ r :: after ∧ n = last := by
        have hns' : ns ++ [n] = (before ++ r :: after) ++ [last] := by simpa using hns
        simpa using List.append_inj' hns' rfl
      exact .inl ⟨before, after, taken', list, rfl, hbefore, hop, hi⟩
  · rintro (⟨before, after, taken', list, rfl, hbefore, hop, hi⟩ | ⟨rfl, list, hop, hi⟩)
    · exact ⟨before, after ++ [n], taken', list, by simp, hbefore, hop, hi⟩
    · exact ⟨ns, [], taken, list, rfl, htaken, hop, hi⟩

/-- An instruction that is about lists has the rule of its operation. -/
theorem ofInstruction_eq_rule (config : Config) (p : Procedure) {inst : Instruction}
    (hop : inst.operation.listOp? m.locationOf? = some op) :
    Rule.ofInstruction m config p inst = op.rule := by
  cases hkind : inst.operation with
  | vaStart list | vaArg list | vaEnd list =>
    rw [hkind] at hop
    obtain ⟨l, hl, rfl⟩ := Option.map_eq_some_iff.mp hop
    simp [Rule.ofInstruction, hkind, hl, ListOp.rule]
  | vaCopy target source =>
    rw [hkind] at hop
    obtain ⟨t, ht, hsource⟩ := Option.bind_eq_some_iff.mp hop
    obtain ⟨s, hs, rfl⟩ := Option.map_eq_some_iff.mp hsource
    simp [Rule.ofInstruction, hkind, ht, hs, ListOp.rule]
  | _ => simp [hkind, Operation.listOp?] at hop

/-- An operation on lists turns each fact into others by its rule. -/
theorem exists_factsAfter_eq (config : Config) (p : Procedure) (hop : m.listOp? n = some op) :
    ∃ type, ∀ facts, m.factsAfter config p facts n = facts.flatMap (op.rule.flow m n type) := by
  obtain ⟨operation, hoperation, hop⟩ := Option.bind_eq_some_iff.mp hop
  obtain ⟨inst, hinst, rfl⟩ := Program.operation?_eq_some.mp hoperation
  have hrule := ofInstruction_eq_rule config p hop
  exact ⟨inst.type, fun facts => by simp [Program.factsAfter, hinst, hrule]⟩

/-- The last operation uses its own lists besides those of the others. -/
theorem listsOf_append_singleton :
    m.listsOf (ns ++ [n]) = m.listsOf ns ++ (m.listOp? n).toList.flatMap ListOp.lists := by
  simp [Program.listsOf]

variable (config : Config) (p : Procedure) {lists : List Location} (hname : TellsApart name lists)
  (base : Location) (i : Nat)

include hname

/-- The facts stay in step with the machine through any instructions that use the lists as they may,
and the results that are tainted are those of the instructions that took the tainted argument. -/
theorem inStep_factsAfter (hlists : ∀ l ∈ m.listsOf ns, l ∈ lists)
    (htaken : m.taken? name ns = some taken) :
    InStep name lists base i taken (ns.foldl (m.factsAfter config p) [.varArg base i]) ∧
      ∀ r, .value (.result r) ∈ ns.foldl (m.factsAfter config p) [.varArg base i] ↔
        m.Takes name ns r i := by
  induction ns using List.reverseRecOn generalizing taken with
  | nil =>
    obtain rfl : (fun _ => none) = taken := by simpa [Program.taken?] using htaken
    refine ⟨inStep_start, fun r => ?_⟩
    simp [Program.Takes]
  | append_singleton ns n ih =>
    rw [taken?_append_singleton] at htaken
    obtain ⟨before, hbefore, hstep⟩ := Option.bind_eq_some_iff.mp htaken
    obtain ⟨op, hop, hexec⟩ := Option.bind_eq_some_iff.mp hstep
    rw [listsOf_append_singleton, hop] at hlists
    obtain ⟨hinStep, hvalues⟩ := ih (fun l hl => hlists l (by simp [hl])) hbefore
    obtain ⟨type, hfacts⟩ := exists_factsAfter_eq config p hop
    have hoplists : ∀ l ∈ op.lists, l ∈ lists := fun l hl =>
      hlists l (List.mem_append_right _ (by simpa using hl))
    simp only [List.foldl_append, List.foldl_cons, List.foldl_nil, hfacts]
    refine ⟨hinStep.step hname hoplists hexec, fun r => ?_⟩
    rw [hinStep.value_mem_iff hname hoplists, hvalues, takes_append_singleton hbefore, hop]
    simp

end Sequences

/-- A variable argument is taken exactly where it stands. Through any sequence of instructions that
open, read, copy and close lists as they may be used, a tainted argument with a given number taints
the result of an instruction exactly if that instruction takes, at one of its places in the
sequence, the argument with that number. The lists may be used through several locations if those
overlap exactly when they are of one list. -/
theorem value_mem_factsAfter_iff_takes {ι : Type} [DecidableEq ι] (m : Program) (config : Config)
    (p : Procedure) (name : Location → ι) {ns : List Nat}
    (hname : TellsApart name (m.listsOf ns)) (hused : (m.taken? name ns).isSome)
    (base : Location) (i r : Nat) :
    .value (.result r) ∈ ns.foldl (m.factsAfter config p) [.varArg base i] ↔
      m.Takes name ns r i := by
  obtain ⟨taken, htaken⟩ := Option.isSome_iff_exists.mp hused
  exact (inStep_factsAfter config p hname base i (fun _ hl => hl) htaken).2 r

/-- A procedure with two lists, which copies the first to the second. -/
def Program.twoLists : Program :=
  constructed "lists"
    [.define "sum" [.int 32] .void true, .emit (.alloca (.int 64)) .void,
      .emit (.alloca (.int 64)) .void, .emit (.vaStart (.result 0)) .void,
      .emit (.vaArg (.result 0)) (.int 32), .emit (.vaCopy (.result 1) (.result 0)) .void,
      .emit (.vaArg (.result 1)) (.int 32), .emit (.vaEnd (.result 0)) .void,
      .emit (.vaEnd (.result 1)) .void, .emit (.ret none) .void]

/-- Reads the first list, copies it, reads both, and opens and reads the first once more. -/
def Program.twoListsUse : List Nat := [2, 3, 4, 5, 3, 6, 2, 3]

/-- The second argument is what is taken from the copy, and what the instruction that reads the
first list takes at the second of its three places. -/
theorem value_mem_factsAfter_iff_takes_twoLists :
    TellsApart id (Program.twoLists.listsOf Program.twoListsUse) ∧
      (Program.twoLists.taken? id Program.twoListsUse).isSome ∧
      Program.twoLists.Takes id Program.twoListsUse 3 1 ∧
      Program.twoLists.Takes id Program.twoListsUse 5 1 ∧
      ¬Program.twoLists.Takes id Program.twoListsUse 5 0 := by
  have hname : TellsApart id (Program.twoLists.listsOf Program.twoListsUse) :=
    tellsApart_id (by decide +kernel)
  have hused : (Program.twoLists.taken? id Program.twoListsUse).isSome := by decide +kernel
  have hiff := value_mem_factsAfter_iff_takes Program.twoLists {} default id hname hused
    (.ofFrame (.varArgs 0))
  refine ⟨hname, hused, (hiff 1 3).mp ?_, (hiff 1 5).mp ?_, mt (hiff 0 5).mpr ?_⟩ <;> decide +kernel

end TaintTrail

import Mathlib.Data.Nat.PSub
import TaintTrail.Proofs.Brackets
import TaintTrail.Proofs.Program.WellFormed
import TaintTrail.Region

/-!
# Regions as brackets

The search for the end of a region matches brackets. A merge block closes a region and a block that
ends in a conditional branch opens one, and a block that does both closes one before it opens the
next. The region of a branch that is not closed by one of its alternatives ends at the first closing
bracket without a match from the earliest alternative on.
-/

namespace TaintTrail

namespace Program

variable {m : Program} {kinds : List String} {p : Procedure} {label : String}

/-- The brackets of a block. -/
def bracketsOf (m : Program) (kinds : List String) (b : Block) : List (Bracket × Block) :=
  (if isMergeLabel kinds b.label then [(.closing, b)] else [])
    ++ (if m.endsConditional b then [(.opening, b)] else [])

/-- The brackets of blocks, in order. -/
def brackets (m : Program) (kinds : List String) (blocks : List Block) : List (Bracket × Block) :=
  blocks.flatMap (m.bracketsOf kinds)

/-- The search for the end of a region with a counter that does not go below zero. There is no
answer if it would have to. -/
def closingLabelChecked? (m : Program) (kinds : List String) (depth : Nat) :
    List Block → Option (Option String)
  | [] => some none
  | b :: rest =>
    (if isMergeLabel kinds b.label then depth.ppred else some depth).bind fun depth' =>
      if depth' = 0 then some (some b.label)
      else closingLabelChecked? m kinds (if m.endsConditional b then depth' + 1 else depth') rest

/-- With a region open, the counter never has to go below zero. -/
theorem closingLabelChecked?_eq (m : Program) (kinds : List String) (depth : Nat)
    (blocks : List Block) :
    m.closingLabelChecked? kinds (depth + 1) blocks =
      some (m.closingLabel? kinds (depth + 1) blocks) := by
  induction blocks generalizing depth with
  | nil => rfl
  | cons b rest ih =>
    rw [closingLabelChecked?, closingLabel?]
    cases hmerge : isMergeLabel kinds b.label with
    | false => cases hends : m.endsConditional b <;> simp [ih]
    | true =>
      cases depth with
      | zero => simp
      | succ depth => cases hends : m.endsConditional b <;> simp [ih]

/-- The search for the end of a region is one for a closing bracket. -/
theorem closingLabel?_eq (m : Program) (kinds : List String) (depth : Nat) (blocks : List Block) :
    m.closingLabel? kinds (depth + 1) blocks =
      (Bracket.firstUnmatched? depth (m.brackets kinds blocks)).map (·.label) := by
  induction blocks generalizing depth with
  | nil => rfl
  | cons b rest ih =>
    have hbrackets : m.brackets kinds (b :: rest) =
        m.bracketsOf kinds b ++ m.brackets kinds rest := rfl
    rw [hbrackets, bracketsOf, closingLabel?]
    cases hmerge : isMergeLabel kinds b.label with
    | false => cases hends : m.endsConditional b <;> simp [ih, Bracket.firstUnmatched?]
    | true =>
      cases depth with
      | zero => simp [Bracket.firstUnmatched?]
      | succ depth => cases hends : m.endsConditional b <;> simp [ih, Bracket.firstUnmatched?]

/-! ## What the search gives -/

/-- The closing brackets are the merge blocks. -/
theorem closing_mem_brackets_iff {blocks : List Block} {b : Block} :
    (.closing, b) ∈ m.brackets kinds blocks ↔ b ∈ blocks ∧ isMergeLabel kinds b.label = true := by
  have hof (b' : Block) : (.closing, b) ∈ m.bracketsOf kinds b' ↔
      b' = b ∧ isMergeLabel kinds b.label = true := by
    simp only [bracketsOf, List.mem_append, List.mem_ite_nil_right, List.mem_singleton,
      Prod.mk.injEq, reduceCtorEq, false_and, and_false, or_false, true_and]
    constructor
    · rintro ⟨hmerge, rfl⟩
      exact ⟨rfl, hmerge⟩
    · rintro ⟨rfl, hmerge⟩
      exact ⟨hmerge, rfl⟩
  simp [brackets, hof]

/-- The end that the search finds is a merge block among those that are read. -/
theorem exists_of_closingLabel?_eq_some {first : Nat}
    (h : m.closingLabel? kinds 1 (p.blocks.toList.drop first) = some label) :
    ∃ i b, first ≤ i ∧ p.blocks[i]? = some b ∧ b.label = label ∧
      isMergeLabel kinds b.label = true := by
  rw [closingLabel?_eq] at h
  obtain ⟨b, hfound, rfl⟩ := Option.map_eq_some_iff.mp h
  obtain ⟨k, hget, -⟩ := Bracket.firstUnmatched?_eq_some_iff.mp hfound
  obtain ⟨hmem, hmerge⟩ := closing_mem_brackets_iff.mp (List.mem_of_getElem? hget)
  obtain ⟨i, hi⟩ := List.getElem?_of_mem hmem
  rw [List.getElem?_drop, Array.getElem?_toList] at hi
  exact ⟨first + i, b, Nat.le_add_right first i, hi, rfl, hmerge⟩

/-- The end that an alternative of a branch gives is a merge block. -/
theorem exists_of_mergeTarget?_eq_some {targets : List Nat}
    (h : mergeTarget? p kinds targets = some label) :
    ∃ i b, i ∈ targets ∧ p.blocks[i]? = some b ∧ b.label = label ∧
      isMergeLabel kinds b.label = true := by
  obtain ⟨b, hfind, hlabel⟩ := Option.map_eq_some_iff.mp h
  have hmerge := List.find?_some hfind
  obtain ⟨i, hi, hb⟩ := List.mem_filterMap.mp (List.mem_of_find?_eq_some hfind)
  exact ⟨i, b, hi, hb, hlabel, hmerge⟩

/-- No merge target is found if no block that is reached is a merge block. -/
theorem mergeTarget?_eq_none_iff {targets : List Nat} :
    mergeTarget? p kinds targets = none ↔
      ∀ i ∈ targets, ∀ b, p.blocks[i]? = some b → isMergeLabel kinds b.label = false := by
  simp only [mergeTarget?, Option.map_eq_none_iff, List.find?_eq_none, List.mem_filterMap,
    Bool.not_eq_true]
  constructor
  · exact fun h i hi b hb => h b ⟨i, hi, hb⟩
  · rintro h b ⟨i, hi, hb⟩
    exact h i hi b hb

end Program

/-- A conditional branch has an earliest alternative. -/
theorem Operation.exists_min?_successors {op : Operation} (h : op.isConditional = true) :
    ∃ first, op.successors.min? = some first := by
  refine Option.isSome_iff_exists.mp (List.isSome_min?_of_ne_nil ?_)
  cases op with
  | branch => simp [successors]
  | switch => simp [successors]
  | _ => cases h

namespace Program

section Branch

variable {m : Program} {branch first : Nat} {inst : Instruction} {p : Procedure}
  (hinst : m.inst? branch = some inst) (hproc : m.procedure? inst.proc = some p)
  (hconditional : inst.operation.isConditional = true)
  (hfirst : inst.operation.successors.min? = some first)

include hinst hproc hconditional hfirst

/-- The two ways in which the region of a conditional branch can end. -/
theorem regionEnd_eq (kinds : List String) :
    m.regionEnd kinds branch =
      ((mergeTarget? p kinds inst.operation.successors).or
        (m.closingLabel? kinds 1 (p.blocks.toList.drop first))).elim
        (.error (.noMergeBlock p.name ((p.blocks[inst.block]?.map (·.label)).getD "") branch))
        .ok := by
  simp only [regionEnd, hinst, hproc, hconditional, hfirst, if_true, Option.bind_some]
  cases (mergeTarget? p kinds inst.operation.successors).or
    (m.closingLabel? kinds 1 (p.blocks.toList.drop first)) <;> rfl

/-- The end of a region is a merge block from the earliest alternative on. -/
theorem exists_of_regionEnd_eq_ok {kinds : List String} {label : String}
    (h : m.regionEnd kinds branch = .ok label) :
    ∃ i b, first ≤ i ∧ p.blocks[i]? = some b ∧ b.label = label ∧
      isMergeLabel kinds b.label = true := by
  rw [regionEnd_eq hinst hproc hconditional hfirst] at h
  cases htarget : mergeTarget? p kinds inst.operation.successors with
  | some target =>
    obtain rfl : target = label := by simpa [htarget] using h
    obtain ⟨i, b, hi, hb⟩ := exists_of_mergeTarget?_eq_some htarget
    exact ⟨i, b, (List.min?_eq_some_iff.mp hfirst).2 i hi, hb⟩
  | none =>
    cases hclosing : m.closingLabel? kinds 1 (p.blocks.toList.drop first) with
    | none => simp [htarget, hclosing] at h
    | some closing =>
      obtain rfl : closing = label := by simpa [htarget, hclosing] using h
      exact exists_of_closingLabel?_eq_some hclosing

section Search

variable {kinds : List String}
  (hnone : ∀ i ∈ inst.operation.successors, ∀ b, p.blocks[i]? = some b →
    isMergeLabel kinds b.label = false)

include hnone

/-- Where no alternative is a merge block, the search decides. -/
theorem regionEnd_eq_of_forall :
    m.regionEnd kinds branch =
      (Bracket.firstUnmatched? 0 (m.brackets kinds (p.blocks.toList.drop first))).elim
        (.error (.noMergeBlock p.name ((p.blocks[inst.block]?.map (·.label)).getD "") branch))
        fun b => .ok b.label := by
  rw [regionEnd_eq hinst hproc hconditional hfirst, mergeTarget?_eq_none_iff.mpr hnone,
    Option.none_or, closingLabel?_eq, Option.elim_map]
  rfl

/-- Unless a merge block follows the branch at once, its region ends at the first merge block
without a match. -/
theorem regionEnd_eq_ok_iff_of_forall {label : String} :
    m.regionEnd kinds branch = .ok label ↔
      ∃ b, Bracket.firstUnmatched? 0 (m.brackets kinds (p.blocks.toList.drop first)) = some b ∧
        b.label = label := by
  rw [regionEnd_eq_of_forall hinst hproc hconditional hfirst hnone]
  cases Bracket.firstUnmatched? 0 (m.brackets kinds (p.blocks.toList.drop first)) <;> simp

/-- Under the same condition its region has no end if every merge block behind it has a match. -/
theorem regionEnd_eq_error_iff_of_forall :
    m.regionEnd kinds branch =
        .error (.noMergeBlock p.name ((p.blocks[inst.block]?.map (·.label)).getD "") branch) ↔
      Bracket.firstUnmatched? 0 (m.brackets kinds (p.blocks.toList.drop first)) = none := by
  rw [regionEnd_eq_of_forall hinst hproc hconditional hfirst hnone]
  cases Bracket.firstUnmatched? 0 (m.brackets kinds (p.blocks.toList.drop first)) <;> simp

end Search

end Branch

/-- A branch with another one in its second alternative. -/
def nestedBranches : Program :=
  constructed "nested"
    [.define "f" [.int 1, .int 1] .void false, .block "entry", .block "if.then", .block "if.else",
      .block "if.then2", .block "if.end", .block "if.end3", .positionAt 0,
      .emit (.branch (.param 0 0) 1 2) .void, .positionAt 1, .emit (.jump 5) .void, .positionAt 2,
      .emit (.branch (.param 0 1) 3 4) .void, .positionAt 3, .emit (.jump 4) .void, .positionAt 4,
      .emit (.jump 5) .void, .positionAt 5, .emit (.ret none) .void]

/-- The procedure with the two branches. -/
def nestedProcedure : Procedure :=
  { id := 0
    name := "f"
    params := [⟨"arg0", .int 1⟩, ⟨"arg1", .int 1⟩]
    result := .void
    isVariadic := false
    blocks := #[⟨"entry", [0]⟩, ⟨"if.then", [1]⟩, ⟨"if.else", [2]⟩, ⟨"if.then2", [3]⟩,
      ⟨"if.end", [4]⟩, ⟨"if.end3", [5]⟩] }

/-- If no alternative of a conditional branch is a merge block, its region ends at the block with
the first closing bracket without a match from the earliest alternative on, and it has no end
exactly if there is no such bracket. In any case an end is a merge block of the same procedure from
the earliest alternative on, and the counter of open regions does not go below zero. -/
theorem regionEnd_eq_ok_iff_isFirstUnmatched (m : Program) (kinds : List String) {branch : Nat}
    {inst : Instruction} {p : Procedure} (hinst : m.inst? branch = some inst)
    (hproc : m.procedure? inst.proc = some p)
    (hconditional : inst.operation.isConditional = true) :
    ∃ first, inst.operation.successors.min? = some first ∧
      ((∀ i ∈ inst.operation.successors, ∀ b, p.blocks[i]? = some b →
          isMergeLabel kinds b.label = false) →
        (∀ label, m.regionEnd kinds branch = .ok label ↔
          ∃ k b, Bracket.IsFirstUnmatched
              ((m.brackets kinds (p.blocks.toList.drop first)).map (·.1)) k ∧
            (m.brackets kinds (p.blocks.toList.drop first))[k]? = some (.closing, b) ∧
            b.label = label) ∧
        (m.regionEnd kinds branch =
            .error (.noMergeBlock p.name ((p.blocks[inst.block]?.map (·.label)).getD "") branch) ↔
          ∀ k, ¬Bracket.IsFirstUnmatched
            ((m.brackets kinds (p.blocks.toList.drop first)).map (·.1)) k)) ∧
      (∀ label, m.regionEnd kinds branch = .ok label →
        ∃ i b, first ≤ i ∧ p.blocks[i]? = some b ∧ b.label = label ∧
          isMergeLabel kinds b.label = true) ∧
      m.closingLabelChecked? kinds 1 (p.blocks.toList.drop first) =
        some (m.closingLabel? kinds 1 (p.blocks.toList.drop first)) := by
  obtain ⟨first, hfirst⟩ := Operation.exists_min?_successors hconditional
  refine ⟨first, hfirst, fun hnone => ⟨fun label => ?_, ?_⟩,
    fun label => exists_of_regionEnd_eq_ok hinst hproc hconditional hfirst,
    m.closingLabelChecked?_eq kinds 0 _⟩
  · rw [regionEnd_eq_ok_iff_of_forall hinst hproc hconditional hfirst hnone]
    simp only [Bracket.firstUnmatched?_eq_some_iff_isFirstUnmatched]
    constructor
    · rintro ⟨b, ⟨k, hk, hget⟩, hlabel⟩
      exact ⟨k, b, hk, hget, hlabel⟩
    · rintro ⟨k, b, hk, hget, hlabel⟩
      exact ⟨b, ⟨k, hk, hget⟩, hlabel⟩
  · rw [regionEnd_eq_error_iff_of_forall hinst hproc hconditional hfirst hnone,
      Bracket.firstUnmatched?_eq_none_iff_isFirstUnmatched]

/-- From the first alternative of the outer branch on, the inner branch opens a region, the first
block labelled as an end closes it, and the second one has no match. With other labels there is no
closing bracket. -/
theorem regionEnd_eq_ok_iff_isFirstUnmatched_nestedBranches :
    nestedBranches.inst? 0 = some ⟨0, 0, 0, .branch (.param 0 0) 1 2, .void, none⟩ ∧
      nestedBranches.procedure? 0 = some nestedProcedure ∧
      (nestedBranches.brackets ["end"] (nestedProcedure.blocks.toList.drop 1)).map (·.1) =
        [.opening, .closing, .closing] ∧
      nestedBranches.regionEnd ["end"] 0 = .ok "if.end3" ∧
      nestedBranches.regionEnd ["epilog"] 0 = .error (.noMergeBlock "f" "entry" 0) := by
  have hinst : nestedBranches.inst? 0 =
      some ⟨0, 0, 0, .branch (.param 0 0) 1 2, .void, none⟩ := by decide +kernel
  have hproc : nestedBranches.procedure? 0 = some nestedProcedure := by decide +kernel
  refine ⟨hinst, hproc, by decide +kernel, ?_, ?_⟩
  · obtain ⟨first, hfirst, hsearch, -⟩ :=
      regionEnd_eq_ok_iff_isFirstUnmatched nestedBranches ["end"] hinst hproc rfl
    obtain rfl : 1 = first := Option.some.inj hfirst
    have hnone : ∀ i ∈ [1, 2], ∀ b, nestedProcedure.blocks[i]? = some b →
        isMergeLabel ["end"] b.label = false := mergeTarget?_eq_none_iff.mp (by decide +kernel)
    exact ((hsearch hnone).1 "if.end3").mpr
      ⟨2, ⟨"if.end3", [5]⟩, by decide +kernel, by decide +kernel, rfl⟩
  · obtain ⟨first, hfirst, hsearch, -⟩ :=
      regionEnd_eq_ok_iff_isFirstUnmatched nestedBranches ["epilog"] hinst hproc rfl
    obtain rfl : 1 = first := Option.some.inj hfirst
    have hnone : ∀ i ∈ [1, 2], ∀ b, nestedProcedure.blocks[i]? = some b →
        isMergeLabel ["epilog"] b.label = false := mergeTarget?_eq_none_iff.mp (by decide +kernel)
    have hbrackets : nestedBranches.brackets ["epilog"] (nestedProcedure.blocks.toList.drop 1) =
        [(.opening, ⟨"if.else", [2]⟩)] := by decide +kernel
    refine (hsearch hnone).2.mpr fun k hk => ?_
    have hcloses := hk.closes
    rw [hbrackets] at hcloses
    simp [List.getElem?_singleton] at hcloses

end Program

end TaintTrail

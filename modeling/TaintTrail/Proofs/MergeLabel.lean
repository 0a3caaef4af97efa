import Mathlib.Data.List.TakeWhile
import TaintTrail.Region

/-!
# How labels are written

A label such as `for.body.if.end12` is written as a qualifier, a kind and a number, one after the
other. Nothing separates the kind from the number, and a qualifier may hold dots and digits of its
own, so a text can be cut into such parts in several places. Two rules leave one of them: a kind
does not end in a digit, and it is a whole component between dots. A label is then read from its
end, the digits first and then what stands behind the last dot, and the labels of merge blocks are
those that can be written with a kind of merge blocks.
-/

namespace TaintTrail

variable {label qualifier kind number : String}

/-- A label is written as a qualifier, a kind and a number, one after the other. -/
structure WrittenAs (label qualifier kind number : String) : Prop where
  eq_append : label = qualifier ++ kind ++ number
  /-- The qualifier ends before a component, if there is one at all. -/
  qualifier_ends : qualifier = "" ∨ qualifier.toList.getLast? = some '.'
  kind_ne_empty : kind ≠ ""
  /-- The kind is a single component. -/
  dot_notMem_kind : '.' ∉ kind.toList
  /-- The kind leaves the digits behind it to the number. -/
  kind_ends : ∀ c, kind.toList.getLast? = some c → c.isDigit = false
  isDigit_of_mem_number : ∀ c ∈ number.toList, c.isDigit = true

/-- The digits at the end of a label. -/
def labelNumber (label : String) : String :=
  String.ofList (label.toList.reverse.takeWhile Char.isDigit).reverse

/-- What a label has before its last component. -/
def labelQualifier (label : String) : String :=
  String.ofList
    ((label.toList.reverse.dropWhile Char.isDigit).dropWhile (· ≠ '.')).reverse

/-! ## Reading a label -/

/-- Nothing of a label is lost. -/
theorem labelQualifier_append_labelKind_append_labelNumber (label : String) :
    labelQualifier label ++ labelKind label ++ labelNumber label = label := by
  rw [← String.toList_inj, labelQualifier, labelKind, labelNumber]
  simp only [String.toList_append, String.toList_ofList, ← List.reverse_append,
    List.takeWhile_append_dropWhile, List.reverse_reverse]

/-- A qualifier is empty or ends with a dot. -/
theorem labelQualifier_eq_empty_or (label : String) :
    labelQualifier label = "" ∨ (labelQualifier label).toList.getLast? = some '.' := by
  have hhead := List.head?_dropWhile_not (· ≠ '.') (label.toList.reverse.dropWhile Char.isDigit)
  rw [labelQualifier, String.ofList_eq_empty_iff, String.toList_ofList, List.getLast?_reverse,
    List.reverse_eq_nil_iff]
  cases hrest : (label.toList.reverse.dropWhile Char.isDigit).dropWhile (· ≠ '.') with
  | nil => exact .inl rfl
  | cons c rest =>
    rw [hrest] at hhead
    have hdot : c = '.' := by simpa using hhead
    exact .inr (by rw [hdot, List.head?_cons])

/-- The kind of a label is what stands behind the last dot. -/
theorem dot_notMem_labelKind (label : String) : '.' ∉ (labelKind label).toList := by
  rw [labelKind, String.toList_ofList, List.mem_reverse]
  intro hmem
  simpa using List.mem_takeWhile_imp hmem

/-- The kind does not end in a digit: where it is not empty, it ends where the digits begin. -/
theorem isDigit_eq_false_of_getLast?_labelKind {c : Char}
    (h : (labelKind label).toList.getLast? = some c) : c.isDigit = false := by
  have hhead := List.head?_dropWhile_not Char.isDigit label.toList.reverse
  rw [labelKind, String.toList_ofList, List.getLast?_reverse, List.head?_takeWhile,
    Option.filter_eq_some_iff] at h
  rw [h.1] at hhead
  exact hhead

/-- The number of a label has only digits. -/
theorem isDigit_of_mem_labelNumber {c : Char} (h : c ∈ (labelNumber label).toList) :
    c.isDigit = true := by
  rw [labelNumber, String.toList_ofList, List.mem_reverse] at h
  exact List.mem_takeWhile_imp h

/-- A label is written with the parts that are read from it. -/
theorem writtenAs_labelKind (h : labelKind label ≠ "") :
    WrittenAs label (labelQualifier label) (labelKind label) (labelNumber label) where
  eq_append := (labelQualifier_append_labelKind_append_labelNumber label).symm
  qualifier_ends := labelQualifier_eq_empty_or label
  kind_ne_empty := h
  dot_notMem_kind := dot_notMem_labelKind label
  kind_ends _ := isDigit_eq_false_of_getLast?_labelKind
  isDigit_of_mem_number _ := isDigit_of_mem_labelNumber

/-! ## Reading back what was written -/

namespace WrittenAs

/-- The digits at the end of a label are its number. -/
theorem dropWhile_isDigit (h : WrittenAs label qualifier kind number) :
    label.toList.reverse.dropWhile Char.isDigit =
      kind.toList.reverse ++ qualifier.toList.reverse := by
  have hreverse : label.toList.reverse =
      number.toList.reverse ++ (kind.toList.reverse ++ qualifier.toList.reverse) := by
    simp [h.eq_append]
  rw [hreverse, List.dropWhile_append_of_pos (by simpa using h.isDigit_of_mem_number)]
  cases hkind : kind.toList.reverse with
  | nil => exact absurd (by simpa using hkind) h.kind_ne_empty
  | cons c rest =>
    have hlast : kind.toList.getLast? = some c := by
      rw [← List.head?_reverse, hkind, List.head?_cons]
    exact List.dropWhile_cons_of_neg (by simp [h.kind_ends c hlast])

/-- The kind of a label is the one that it is written with. -/
theorem labelKind_eq (h : WrittenAs label qualifier kind number) : labelKind label = kind := by
  have hqualifier : qualifier.toList.reverse.takeWhile (· ≠ '.') = [] := by
    obtain rfl | hdot := h.qualifier_ends
    · rfl
    · rw [← List.head?_reverse] at hdot
      obtain ⟨rest, hrest⟩ := List.head?_eq_some_iff.mp hdot
      simp [hrest]
  have hkind : ∀ c ∈ kind.toList.reverse, decide (c ≠ '.') = true := by
    intro c hc
    rw [decide_eq_true_eq]
    rintro rfl
    exact h.dot_notMem_kind (List.mem_reverse.mp hc)
  rw [labelKind, h.dropWhile_isDigit, List.takeWhile_append_of_pos hkind, hqualifier,
    List.append_nil, List.reverse_reverse, String.ofList_toList]

end WrittenAs

/-- A label is written with one kind, which is not empty. -/
theorem exists_writtenAs_iff :
    (∃ qualifier number, WrittenAs label qualifier kind number) ↔
      kind ≠ "" ∧ kind = labelKind label := by
  constructor
  · rintro ⟨qualifier, number, h⟩
    exact ⟨h.kind_ne_empty, h.labelKind_eq.symm⟩
  · rintro ⟨hne, rfl⟩
    exact ⟨_, _, writtenAs_labelKind hne⟩

/-- The labels of merge blocks are those that can be written with a kind of merge blocks, behind
nothing or a qualifier that ends in a dot and before a number, which may be empty. -/
theorem isMergeLabel_iff_exists_writtenAs (kinds : List String) (label : String) :
    isMergeLabel kinds label = true ↔
      ∃ qualifier kind number, kind ∈ kinds ∧ WrittenAs label qualifier kind number := by
  have hkinds : isMergeLabel kinds label = true ↔
      ∃ kind ∈ kinds, kind ≠ "" ∧ kind = labelKind label := by
    simp [isMergeLabel]
  rw [hkinds]
  constructor
  · rintro ⟨kind, hmem, hkind⟩
    obtain ⟨qualifier, number, h⟩ := exists_writtenAs_iff.mpr hkind
    exact ⟨qualifier, kind, number, hmem, h⟩
  · rintro ⟨qualifier, kind, number, hmem, h⟩
    exact ⟨kind, hmem, exists_writtenAs_iff.mp ⟨qualifier, number, h⟩⟩

-- A dot before the number leaves an empty component, and a kind with a dot or with a digit at its
-- end is not found.
example : isMergeLabel ["end"] "for.2.end12" = true ∧ isMergeLabel ["end", ""] "if.end.12" = false ∧
    isMergeLabel ["if.end", "end1"] "if.end1" = false := by
  decide

end TaintTrail

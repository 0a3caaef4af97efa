import TaintTrail.Proofs.Json.Reader
import TaintTrail.Proofs.Yaml.Layout
import TaintTrail.Yaml.Decoder

/-!
# Decoding written nodes

Texts, numbers, truth values, sequences and records are written as simple nodes, from which they are
decoded as what they are. Simple nodes have no aliases, so they are what they stand for.
-/

namespace TaintTrail.Yaml

/-! ## Numbers -/

/-- The digits are the ten characters from 48 on. -/
theorem toNat_of_isDigit {c : Char} (h : c.isDigit) : 48 ≤ c.toNat ∧ c.toNat ≤ 57 := by
  simpa [Char.isDigit, UInt32.le_iff_toNat_le] using h

/-- No digit has a meaning of its own at the start of a scalar. -/
theorem isIndicator_eq_false_of_isDigit {c : Char} (h : c.isDigit) : isIndicator c = false := by
  rw [← Bool.not_eq_true]
  intro hindicator
  have hgrave : c.toNat ≠ 0x60 := by
    have hrange := toNat_of_isDigit h
    omega
  simp [isIndicator, isFlowIndicator, Json.ne_of_isDigit h, hgrave] at hindicator

/-- Digits separate no key from a value and no scalar from a comment. -/
theorem hasNoSeparator_of_isDigit {cs : List Char} (h : ∀ c ∈ cs, c.isDigit) (afterBlank : Bool) :
    hasNoSeparator afterBlank cs := by
  induction cs generalizing afterBlank with
  | nil => rfl
  | cons c cs ih =>
    rw [List.forall_mem_cons] at h
    simp [hasNoSeparator, Json.ne_of_isDigit h.1, ih h.2]

/-- Digits are read back when they are written plainly. -/
theorem isPlainShape_of_isDigit {cs : List Char} (hne : cs ≠ []) (h : ∀ c ∈ cs, c.isDigit) :
    isPlainShape cs := by
  have hshown : cs.all isShown := List.all_eq_true.mpr fun c hc => by
    have hrange := toNat_of_isDigit (h c hc)
    exact isShown_of_ascii (by omega) (by omega)
  have hlast : cs.getLast? ≠ some ' ' := fun hspace =>
    absurd (h ' ' (List.mem_of_getLast? hspace)) (by decide)
  have hseparator := hasNoSeparator_of_isDigit h true
  obtain ⟨c, cs, rfl⟩ := List.exists_cons_of_ne_nil hne
  have hc := h c List.mem_cons_self
  have hstart : startsPlainly (c :: cs) := by
    simp [startsPlainly, Json.ne_of_isDigit hc, isIndicator_eq_false_of_isDigit hc]
  have hmark : startsLikeMark (c :: cs) = false := by
    unfold startsLikeMark
    split
    · next heq => exact absurd (List.cons.inj heq).1 (Json.ne_of_isDigit hc rfl)
    · next heq => exact absurd (List.cons.inj heq).1 (Json.ne_of_isDigit hc rfl)
    · rfl
  simp [isPlainShape, hshown, hstart, hmark, hlast, hseparator]

namespace Core

/-- The value of a decimal digit is its distance from zero. -/
theorem digit?_of_isDigit {c : Char} (h : c.isDigit) :
    digit? 10 c = some (c.toNat - '0'.toNat) := by
  have hrange := toNat_of_isDigit h
  have hle : '0' ≤ c ∧ c ≤ '9' := by
    simpa [Char.le_def, UInt32.le_iff_toNat_le] using hrange
  have hlt : c.toNat - 48 < 10 := by omega
  simp [digit?, hle, hlt]

/-- The value of digits is collected from left to right, by induction on them. -/
theorem foldlM_digit? {cs : List Char} (h : ∀ c ∈ cs, c.isDigit) (value : Nat) :
    cs.foldlM (fun value c => (digit? 10 c).map (10 * value + ·)) value =
      some (Nat.ofDigitChars 10 cs value) := by
  induction cs generalizing value with
  | nil => rfl
  | cons c cs ih =>
    rw [List.forall_mem_cons] at h
    simp only [List.foldlM_cons, digit?_of_isDigit h.1, Option.map_some, Option.bind_eq_bind,
      Option.bind_some, ih h.2, Nat.ofDigitChars_cons]

/-- A number is read from its decimal digits. -/
theorem nat?_toString (n : Nat) : nat? (toString n) = some n := by
  have hdigits : ∀ c ∈ Nat.toDigits 10 n, c.isDigit := fun c hc =>
    Nat.isDigit_of_mem_toDigits (by decide) (by decide) hc
  have hlist : (toString n).toList = Nat.toDigits 10 n := by
    rw [Nat.toString_eq_ofList_toDigits, String.toList_ofList]
  have hzero : hasLeadingZero (Nat.toDigits 10 n) = false := by
    unfold hasLeadingZero
    split
    · next heq =>
      obtain rfl := Json.eq_zero_of_head?_toDigits (by rw [heq]; rfl : _ = some '0')
      simp at heq
    · rfl
  have hvalue : digits? 10 (Nat.toDigits 10 n) = some n := by
    rw [digits?, foldlM_digit? hdigits, Nat.ofDigitChars_ten_toDigits]
    exact Nat.toDigits_ne_nil
  have hother : ∀ d rest, d.isDigit = false → Nat.toDigits 10 n ≠ d :: rest := by
    intro d rest hd heq
    exact absurd (hdigits d (by simp [heq])) (by simp [hd])
  have hbase : ∀ d rest, d.isDigit = false → Nat.toDigits 10 n ≠ '0' :: d :: rest := by
    intro d rest hd heq
    exact absurd (hdigits d (by simp [heq])) (by simp [hd])
  have hunsigned : unsigned? (Nat.toDigits 10 n) = some n := by
    unfold unsigned?
    split
    · next heq => exact absurd heq (hbase _ _ rfl)
    · next heq => exact absurd heq (hbase _ _ rfl)
    · next heq => exact absurd heq (hbase _ _ rfl)
    · simp [hzero, hvalue]
  unfold nat?
  rw [hlist]
  split
  · next heq => exact absurd heq (hother _ _ rfl)
  · exact hunsigned

/-- A truth value is read from its keyword. -/
theorem bool?_toString (b : Bool) : bool? (toString b) = some b := by
  cases b <;> decide

end Core

/-! ## Simple nodes -/

/-- Items are simple if each of them is. -/
theorem simpleItems_iff {items : List Node} :
    simpleItems items ↔ ∀ item ∈ items, item.isSimple := by
  induction items with
  | nil => simp [simpleItems]
  | cons item items ih => simp [simpleItems, ih]

/-- Entries are simple if each key and each value is. -/
theorem simpleEntries_iff {entries : List (Node × Node)} :
    simpleEntries entries ↔ ∀ entry ∈ entries, entry.1.isSimpleKey ∧ entry.2.isSimple := by
  induction entries with
  | nil => simp [simpleEntries]
  | cons entry entries ih => simp [simpleEntries, ih, and_assoc]

namespace Node

/-- A plain scalar is simple if its text is read back from it. -/
theorem isSimple_plain {text : String} : (plain text).isSimple ↔ isPlainShape text.toList := by
  simp [isSimple, plain, Style.suits]

/-- A simple key is a simple node. -/
theorem isSimple_of_isSimpleKey {key : Node} (h : key.isSimpleKey) : key.isSimple := by
  obtain ⟨text, rfl, hshape, -⟩ := exists_of_isSimpleKey h
  exact isSimple_plain.mpr hshape

/-- A text on one line is written as a simple node. -/
theorem isSimple_text {text : String} (h : text.toList.all (!isBreak ·)) :
    (Node.text text).isSimple := by
  simp [Node.text, isSimple, Style.suits_ofText h]

/-- A written number is simple. -/
theorem isSimple_nat (n : Nat) : (Node.plain (toString n)).isSimple := by
  rw [isSimple_plain, Nat.toString_eq_ofList_toDigits, String.toList_ofList]
  exact isPlainShape_of_isDigit Nat.toDigits_ne_nil fun c hc =>
    Nat.isDigit_of_mem_toDigits (by decide) (by decide) hc

/-- A written truth value is simple. -/
theorem isSimple_bool (b : Bool) : (Node.plain (toString b)).isSimple := by
  cases b <;> decide

/-- A written list is simple if its written elements are. -/
theorem isSimple_sequence_map {α : Type} {write : α → Node} {xs : List α} :
    (Node.sequence (xs.map write)).isSimple ↔ ∀ x ∈ xs, (write x).isSimple := by
  rw [isSimple, simpleItems_iff, List.forall_mem_map]

/-- A written record is simple if its names are simple keys and its fields are simple. -/
theorem isSimple_record {fields : List (String × Node)} :
    (Node.record fields).isSimple ↔
      ∀ field ∈ fields, (plain field.1).isSimpleKey ∧ field.2.isSimple := by
  rw [record, isSimple, simpleEntries_iff, List.forall_mem_map]

/-- No aliases are followed in a simple node. -/
theorem followedAliases_eq_zero {node : Node} (h : node.isSimple) (anchors : Anchors) (n : Nat) :
    node.followedAliases anchors n = 0 := by
  induction n generalizing node with
  | zero => rfl
  | succ n ih =>
    cases node with
    | scalar _ _ _ => rfl
    | sequence items =>
      rw [isSimple, simpleItems_iff] at h
      change 0 + (items.map (followedAliases anchors n)).sum = 0
      rw [Nat.zero_add, List.sum_eq_zero_iff_forall_eq_nat, List.forall_mem_map]
      exact fun item hitem => ih (h item hitem)
    | mapping entries =>
      rw [isSimple, simpleEntries_iff] at h
      change 0 + (entries.map fun entry =>
        followedAliases anchors n entry.1 + followedAliases anchors n entry.2).sum = 0
      rw [Nat.zero_add, List.sum_eq_zero_iff_forall_eq_nat, List.forall_mem_map]
      intro entry hentry
      rw [ih (isSimple_of_isSimpleKey (h entry hentry).1), ih (h entry hentry).2]
    | anchored _ _ => simp [isSimple] at h
    | «alias» _ => simp [isSimple] at h

/-- A simple node has no aliases, so it repeats nothing. -/
theorem isRepetitive_eq_false {node : Node} (h : node.isSimple) (depth : Nat) :
    node.isRepetitive depth = false := by
  simp [isRepetitive, followedAliases_eq_zero h]

/-! ## Decoding -/

variable (anchors : Anchors)

/-- A text is decoded from how it is written. -/
theorem text?_text (text : String) : (Node.text text).text? anchors = some text := rfl

/-- A truth value is decoded from how it is written. -/
theorem bool?_plain (b : Bool) : (Node.plain (toString b)).bool? anchors = some b := by
  rw [bool?, plainText?]
  exact Core.bool?_toString b

/-- A number below the bound is decoded from how it is written. -/
theorem natBelow?_plain {bound n : Nat} (h : n < bound) :
    (Node.plain (toString n)).natBelow? bound anchors = some n := by
  have htext : (Node.plain (toString n)).plainText? anchors Tag.int = some (toString n) := rfl
  rw [natBelow?, htext, Option.bind_some, Core.nat?_toString]
  simp [h]

/-- A list is decoded from how it is written if its elements are. -/
theorem items?_sequence_map {α : Type} {read : Anchors → Node → Option α} {write : α → Node}
    {xs : List α} (h : ∀ x ∈ xs, read anchors (write x) = some x) :
    (Node.sequence (xs.map write)).items? read anchors = some xs := by
  have hitems : (xs.map write).mapM (read anchors) = some xs := by
    induction xs with
    | nil => rfl
    | cons x xs ih =>
      rw [List.forall_mem_cons] at h
      simp [h.1, ih h.2]
  exact hitems

/-- A record has the fields that it was written from. -/
theorem fields?_record {fields : List (String × Node)} {names : List String}
    (hnames : ∀ field ∈ fields, field.1 ∈ names) (hnodup : (fields.map (·.1)).Nodup) :
    (Node.record fields).fields? names anchors = some fields := by
  have hentries : (Node.record fields).entries? anchors = some fields := by
    simp only [record, entries?, resolve]
    clear hnames hnodup
    induction fields with
    | nil => rfl
    | cons field fields ih =>
      rw [List.map_cons, List.mapM_cons, ih]
      rfl
  have hkeys : (fields.map (·.1)).all (· ∈ names) := by simpa using hnames
  simp [fields?, hentries, hnodup, hkeys]

end Node

end TaintTrail.Yaml

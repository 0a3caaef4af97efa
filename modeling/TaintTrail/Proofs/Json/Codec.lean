import TaintTrail.Json.Decoder
import TaintTrail.Proofs.Json.Reader

/-!
# Decoders that read what an encoder writes

A decoder of a type belongs to an encoder of it if it reads a written value back as that value, and
only then, when the numbers of the value are in range and its written form is not nested deeper than
the decoder may go. Whatever it reads, from any form that it accepts, can in turn be written and
read again within the same number of levels. The law passes from the parts of a value to the whole:
to lists, pairs, absent values and the fields of records.
-/

namespace TaintTrail.Json

/-! ## Nesting and exactness of written values -/

section Written

variable {α : Type} {encode : α → Json} {n : Nat}

/-- The nesting of items is bounded exactly if that of each of them is. -/
theorem nestingItems_le_iff {items : List Json} :
    nestingItems items ≤ n ↔ ∀ j ∈ items, j.nesting ≤ n := by
  induction items with
  | nil => simp [nestingItems]
  | cons j items ih => rw [nestingItems, Nat.max_le, ih, List.forall_mem_cons]

/-- The nesting of members is bounded exactly if that of each value is. -/
theorem nestingMembers_le_iff {members : List (Option String × Json)} :
    nestingMembers members ≤ n ↔ ∀ member ∈ members, member.2.nesting ≤ n := by
  induction members with
  | nil => simp [nestingMembers]
  | cons member members ih =>
    obtain ⟨key, j⟩ := member
    rw [nestingMembers, Nat.max_le, ih, List.forall_mem_cons]

/-- A text is not nested. -/
@[simp] theorem nesting_text (s : String) : (text s).nesting = 0 := rfl

/-- A natural number is not nested. -/
@[simp] theorem nesting_nat (n : Nat) : (nat n).nesting = 0 := rfl

/-- The value `null` is not nested. -/
@[simp] theorem nesting_null : nesting .null = 0 := rfl

/-- A truth value is not nested. -/
@[simp] theorem nesting_bool (b : Bool) : nesting (.bool b) = 0 := rfl

/-- A number is not nested. -/
@[simp] theorem nesting_int (n : Int) : nesting (.int n) = 0 := rfl

/-- An array is one level deeper than its items. -/
@[simp] theorem nesting_arr_le_succ {items : List Json} :
    nesting (.arr items) ≤ n + 1 ↔ ∀ j ∈ items, j.nesting ≤ n := by
  rw [nesting, Nat.add_le_add_iff_right, nestingItems_le_iff]

/-- An object is one level deeper than its values. -/
@[simp] theorem nesting_obj_le_succ {members : List (Option String × Json)} :
    nesting (.obj members) ≤ n + 1 ↔ ∀ member ∈ members, member.2.nesting ≤ n := by
  rw [nesting, Nat.add_le_add_iff_right, nestingMembers_le_iff]

/-- A written list is one level deeper than what its elements are written as. -/
@[simp] theorem nesting_array_le_succ {xs : List α} :
    (array encode xs).nesting ≤ n + 1 ↔ ∀ x ∈ xs, (encode x).nesting ≤ n := by
  simp [array]

/-- A written record is one level deeper than its members. -/
@[simp] theorem nesting_object_le_succ {members : List (String × Json)} :
    (object members).nesting ≤ n + 1 ↔ ∀ member ∈ members, member.2.nesting ≤ n := by
  rw [object, nesting_obj_le_succ, List.forall_mem_map]

/-- A written record takes a level of its own. -/
@[simp] theorem nesting_object_ne_zero {members : List (String × Json)} :
    (object members).nesting ≠ 0 :=
  Nat.succ_ne_zero _

/-- An absent value is not nested, and one that is there is as deep as its written form. -/
theorem nesting_option_le_iff {value : Option α} :
    (option encode value).nesting ≤ n ↔ ∀ a ∈ value, (encode a).nesting ≤ n := by
  cases value <;> simp [option]

/-- Items are exact if each of them is. -/
theorem exactItems_iff {items : List Json} : exactItems items ↔ ∀ j ∈ items, j.isExact := by
  induction items with
  | nil => simp [exactItems]
  | cons j items ih => simp [exactItems, ih]

/-- Members are exact if the value of each of them is. -/
theorem exactMembers_iff {members : List (Option String × Json)} :
    exactMembers members ↔ ∀ member ∈ members, member.2.isExact := by
  induction members with
  | nil => simp [exactMembers]
  | cons member members ih =>
    obtain ⟨key, j⟩ := member
    simp [exactMembers, ih]

/-- A text is exact, since it has no numbers. -/
@[simp] theorem isExact_text (s : String) : (text s).isExact := rfl

/-- Natural numbers are exact. -/
@[simp] theorem isExact_nat (n : Nat) : (nat n).isExact := rfl

/-- The value `null` is exact. -/
@[simp] theorem isExact_null : isExact .null := rfl

/-- Truth values are exact. -/
@[simp] theorem isExact_bool (b : Bool) : isExact (.bool b) := rfl

/-- Whole numbers are exact. -/
@[simp] theorem isExact_int (n : Int) : isExact (.int n) := rfl

/-- An array is exact if its items are. -/
@[simp] theorem isExact_arr {items : List Json} :
    isExact (.arr items) ↔ ∀ j ∈ items, j.isExact := by
  rw [isExact, exactItems_iff]

/-- A written list is exact if its written elements are. -/
@[simp] theorem isExact_array {xs : List α} :
    (array encode xs).isExact ↔ ∀ x ∈ xs, (encode x).isExact := by
  simp [array]

/-- A written record is exact if its members are. -/
@[simp] theorem isExact_object {members : List (String × Json)} :
    (object members).isExact ↔ ∀ member ∈ members, member.2.isExact := by
  rw [object, isExact, exactMembers_iff]
  exact List.forall_mem_map

end Written

/-! ## The law -/

section Law

variable {α β : Type}

/-- A decoder reads the written form of a value as that value, if the value fits and its form is not
nested deeper than the decoder may go, and not at all otherwise. -/
def ReadsBack (decode : Decoder α) (encode : α → Json) (fits : α → Bool) (a : α) : Prop :=
  ∀ levels b, decode levels (encode a) = some b ↔ a = b ∧ fits a ∧ (encode a).nesting ≤ levels

/-- A decoder reads back what an encoder writes, and what it reads fits. -/
structure Codec (decode : Decoder α) (encode : α → Json) (fits : α → Bool) : Prop where
  isExact : ∀ a, (encode a).isExact
  readsBack : ∀ a, ReadsBack decode encode fits a
  of_decode : ∀ {levels j a}, decode levels j = some a → fits a ∧ (encode a).nesting ≤ levels

variable {decode : Decoder α} {encode : α → Json} {fits : α → Bool} {levels : Nat} {a : α} {b : β}

/-- A function of a value that reads back is computed from its written form. -/
theorem ReadsBack.map_eq_some_iff (h : ReadsBack decode encode fits a) {f : α → β} :
    (decode levels (encode a)).map f = some b ↔
      f a = b ∧ fits a ∧ (encode a).nesting ≤ levels := by
  simp only [Option.map_eq_some_iff, h _ _]
  grind

/-- A value that reads back may be read first, and what depends on it after that. -/
theorem ReadsBack.bind_eq_some_iff (h : ReadsBack decode encode fits a) {f : α → Option β} :
    (decode levels (encode a)).bind f = some b ↔
      f a = some b ∧ fits a ∧ (encode a).nesting ≤ levels := by
  simp only [Option.bind_eq_some_iff, h _ _]
  grind

/-- The same for a type whose values all read back. -/
theorem Codec.map_eq_some_iff (codec : Codec decode encode fits) {f : α → β} :
    (decode levels (encode a)).map f = some b ↔
      f a = b ∧ fits a ∧ (encode a).nesting ≤ levels :=
  (codec.readsBack a).map_eq_some_iff

/-- What depends on a value is computed from its written form, if that can be read. -/
theorem Codec.bind_eq_some_iff (codec : Codec decode encode fits) {f : α → Option β} :
    (decode levels (encode a)).bind f = some b ↔
      f a = some b ∧ fits a ∧ (encode a).nesting ≤ levels :=
  (codec.readsBack a).bind_eq_some_iff

/-- What is computed from a value that was read comes from one that fits. -/
theorem Codec.of_map (codec : Codec decode encode fits) {f : α → β} {j : Json}
    (h : (decode levels j).map f = some b) :
    ∃ a, b = f a ∧ fits a ∧ (encode a).nesting ≤ levels := by
  obtain ⟨a, ha, rfl⟩ := Option.map_eq_some_iff.mp h
  exact ⟨a, rfl, codec.of_decode ha⟩

end Law

section Scalars

/-- Truth values read back. -/
theorem boolCodec : Codec Decoder.bool .bool fun _ => true where
  isExact b := rfl
  readsBack b levels c := by simp [Decoder.bool]
  of_decode := by simp

/-- Texts read back. -/
theorem stringCodec : Codec Decoder.string text fun _ => true where
  isExact s := rfl
  readsBack s levels t := by simp [Decoder.string, text, nesting]
  of_decode := by simp

/-- Numbers below a bound read back, and no others are read. -/
theorem natCodec (bound : Nat) : Codec (Decoder.natBelow bound) nat fun n => n < bound where
  isExact n := rfl
  readsBack n levels m := by
    change (if n < bound then some n else none) = some m ↔ _
    simp [and_comm]
  of_decode := by
    intro levels j n h
    unfold Decoder.natBelow at h
    split at h
    · obtain ⟨hbound, heq⟩ := Option.ite_none_right_eq_some.mp h
      obtain rfl := Option.some.inj heq
      simpa using hbound
    · exact absurd h (by simp)

/-- Whether a number has at most 32 bits. -/
def isWord (n : Nat) : Bool := n < Nat.pow 2 32

/-- Whether a number has at most 64 bits. -/
def isDoubleWord (n : Nat) : Bool := n < Nat.pow 2 64

/-- Whether a number has at most 64 bits, one of them for the sign. -/
def isSigned (n : Int) : Bool := -Int.pow 2 63 ≤ n ∧ n < Int.pow 2 63

/-- Numbers of at most 32 bits read back. -/
theorem wordCodec : Codec Decoder.word nat isWord := natCodec _

/-- Numbers of at most 64 bits read back. -/
theorem doubleWordCodec : Codec Decoder.doubleWord nat isDoubleWord := natCodec _

/-- Signed numbers of at most 64 bits read back. -/
theorem signedCodec : Codec Decoder.signed .int isSigned where
  isExact n := rfl
  readsBack n levels m := by
    change (if -Int.pow 2 63 ≤ n ∧ n < Int.pow 2 63 then some n else none) = some m ↔ _
    simp only [Option.ite_none_right_eq_some, Option.some.injEq, isSigned, decide_eq_true_eq,
      nesting_int, Nat.zero_le, and_true]
    rw [and_comm]
  of_decode := by
    intro levels j n h
    unfold Decoder.signed at h
    split at h
    · obtain ⟨hbounds, heq⟩ := Option.ite_none_right_eq_some.mp h
      obtain rfl := Option.some.inj heq
      simpa [isSigned] using hbounds
    · exact absurd h (by simp)

/-- What is read by its name is one of the values that have names. -/
theorem exists_mem_of_oneOf? {α : Type} {values : List (String × α)} {levels : Nat} {j : Json}
    {a : α} (h : oneOf? values levels j = some a) : ∃ name, (name, a) ∈ values := by
  have hmem : ∀ name, values.lookup name = some a → ∃ name, (name, a) ∈ values := by
    intro name hname
    obtain ⟨before, after, heq, -⟩ := List.lookup_eq_some_iff.mp hname
    exact ⟨name, by simp [heq]⟩
  unfold oneOf? at h
  split at h
  · exact hmem _ h
  · exact hmem _ h
  · exact absurd h (by simp)

/-- Names that stand for values. -/
theorem oneOfCodec {α : Type} {values : List (String × α)} {encode : α → Json}
    (h : ∀ a, ∃ name, encode a = text name ∧ values.lookup name = some a) :
    Codec (oneOf? values) encode fun _ => true where
  isExact a := by
    obtain ⟨name, hname, -⟩ := h a
    simp [hname]
  readsBack a levels b := by
    obtain ⟨name, hname, hlookup⟩ := h a
    simp [hname, text, oneOf?, hlookup, nesting]
  of_decode := by
    intro levels j a _
    obtain ⟨name, hname, -⟩ := h a
    simp [hname]

end Scalars

section Sequences

variable {α β : Type} {read : β → Option α} {write : α → β} {P : α → Prop}

/-- Reading the written elements of a list gives the list back if each element is read back. -/
theorem mapM_map_eq_some_iff (h : ∀ a b, read (write a) = some b ↔ a = b ∧ P a) {xs ys : List α} :
    (xs.map write).mapM read = some ys ↔ xs = ys ∧ ∀ x ∈ xs, P x := by
  induction xs generalizing ys with
  | nil => simp
  | cons x xs ih =>
    simp only [List.map_cons, List.mapM_cons, Option.bind_eq_bind, Option.bind_eq_some_iff, h, ih,
      Option.pure_def, Option.some.injEq, List.forall_mem_cons]
    grind

/-- What holds of whatever is read holds of all elements of a list that was read. -/
theorem forall_of_mapM_eq_some (h : ∀ b a, read b = some a → P a) {bs : List β} {xs : List α}
    (hread : bs.mapM read = some xs) : ∀ x ∈ xs, P x := by
  induction bs generalizing xs with
  | nil =>
    obtain rfl : xs = [] := by simpa using hread.symm
    simp
  | cons b bs ih =>
    simp only [List.mapM_cons, Option.bind_eq_bind, Option.bind_eq_some_iff, Option.pure_def,
      Option.some.injEq] at hread
    obtain ⟨x, hx, xs, hxs, rfl⟩ := hread
    exact List.forall_mem_cons.mpr ⟨h b x hx, ih hxs⟩

end Sequences

/-- A field that may be missing or `null` is one that is absent by default. -/
theorem Fields.optional_eq_withDefault {α : Type} (fields : Fields) (name : String)
    (decode : Decoder α) (levels : Nat) :
    fields.optional name (decode levels) =
      fields.withDefault name none (Decoder.option decode levels) := by
  unfold Fields.optional Fields.withDefault
  cases fields.get? name with
  | none => rfl
  | some j => cases j <;> rfl

namespace Codec

variable {α β : Type} {decode : Decoder α} {encode : α → Json} {fits : α → Bool}
  {decode' : Decoder β} {encode' : β → Json} {fits' : β → Bool}

/-- If elements read back, lists of them do. -/
theorem list (codec : Codec decode encode fits) :
    Codec (Decoder.list decode) (array encode) fun xs => xs.all fits where
  isExact xs := isExact_array.mpr fun x _ => codec.isExact x
  readsBack xs levels ys := by
    cases levels with
    | zero => simp [Decoder.list, array, nesting]
    | succ levels =>
      rw [array, Decoder.list, mapM_map_eq_some_iff fun x => codec.readsBack x levels]
      simp [forall_and]
  of_decode := by
    intro levels j xs h
    unfold Decoder.list at h
    split at h
    · have hitems := forall_of_mapM_eq_some (fun _ _ => codec.of_decode) h
      simpa [forall_and] using hitems
    · exact absurd h (by simp)

/-- If values read back, tables from names to them do. -/
theorem dictionary (codec : Codec decode encode fits) :
    Codec (Decoder.dictionary decode)
      (fun entries => object (entries.map fun (key, a) => (key, encode a)))
      fun entries => entries.all fun (_, a) => fits a where
  isExact entries := by
    rw [isExact_object, List.forall_mem_map]
    exact fun entry _ => codec.isExact entry.2
  readsBack entries levels entries' := by
    cases levels with
    | zero => simp [Decoder.dictionary, object, nesting]
    | succ levels =>
      have hentry : ∀ entry entry' : String × α,
          (do some (← some entry.1, ← decode levels (encode entry.2))) = some entry' ↔
            entry = entry' ∧ fits entry.2 ∧ (encode entry.2).nesting ≤ levels := by
        intro entry entry'
        simp only [Option.bind_eq_bind, Option.bind_some, Option.bind_eq_some_iff,
          codec.readsBack _ _ _]
        grind
      rw [nesting_object_le_succ, List.forall_mem_map]
      simp only [object, Decoder.dictionary, List.map_map]
      refine (mapM_map_eq_some_iff hentry).trans ?_
      simp [forall_and]
  of_decode := by
    intro levels j entries h
    unfold Decoder.dictionary at h
    split at h
    · next levels members =>
      have hentries : ∀ entry ∈ entries, fits entry.2 ∧ (encode entry.2).nesting ≤ levels := by
        refine forall_of_mapM_eq_some ?_ h
        rintro ⟨key, j⟩ entry hentry
        simp only [Option.bind_eq_bind, Option.bind_eq_some_iff, Option.some.injEq] at hentry
        obtain ⟨name, -, a, ha, rfl⟩ := hentry
        exact codec.of_decode ha
      rw [nesting_object_le_succ, List.forall_mem_map, List.all_eq_true]
      exact forall₂_and.mp hentries
    · exact absurd h (by simp)

/-- If two types read back, pairs of them do. -/
theorem pair (codec : Codec decode encode fits) (codec' : Codec decode' encode' fits') :
    Codec (Decoder.pair decode decode') (fun (a, b) => .arr [encode a, encode' b])
      fun (a, b) => fits a && fits' b where
  isExact := fun (a, b) => by simp [codec.isExact, codec'.isExact]
  readsBack := by
    rintro ⟨a, b⟩ levels ⟨c, d⟩
    cases levels with
    | zero => simp [Decoder.pair, nesting]
    | succ levels =>
      simp only [Decoder.pair, Option.bind_eq_bind, Option.bind_eq_some_iff,
        codec.readsBack _ _ _, codec'.readsBack _ _ _, Option.some.injEq, Prod.mk.injEq,
        exists_eq_right_right, Bool.and_eq_true, nesting_arr_le_succ, List.mem_cons,
        List.not_mem_nil, or_false, forall_eq_or_imp, forall_eq]
      grind
  of_decode := by
    rintro levels j ⟨a, b⟩ h
    unfold Decoder.pair at h
    split at h
    · simp only [Option.bind_eq_bind, Option.bind_eq_some_iff, Option.some.injEq,
        Prod.mk.injEq] at h
      obtain ⟨a, ha, b, hb, rfl, rfl⟩ := h
      simp [codec.of_decode ha, codec'.of_decode hb]
    · exact absurd h (by simp)

/-- If values read back and none is written as `null`, values that may be absent read back. -/
theorem option (codec : Codec decode encode fits) (hnull : ∀ a, encode a ≠ .null) :
    Codec (Decoder.option decode) (Json.option encode) fun value => value.all fits where
  isExact value := by cases value <;> simp [Json.option, codec.isExact]
  readsBack value levels value' := by
    cases value with
    | none => simp [Decoder.option, Json.option]
    | some a =>
      rw [Json.option, Decoder.option, Option.map_eq_some_iff]
      · simp only [codec.readsBack _ _ _, Option.all_some]
        grind
      · exact hnull a
  of_decode := by
    intro levels j value h
    unfold Decoder.option at h
    split at h
    · obtain rfl := Option.some.inj h
      simp [Json.option]
    · obtain ⟨a, ha, rfl⟩ := Option.map_eq_some_iff.mp h
      simpa [Json.option] using codec.of_decode ha

/-- A value that may be absent and is there is read as such. -/
theorem bind_option_eq_some_iff (codec : Codec decode encode fits) (hnull : ∀ a, encode a ≠ .null)
    {levels : Nat} {a : α} {b : β} {f : Option α → Option β} :
    (Decoder.option decode levels (encode a)).bind f = some b ↔
      f (some a) = some b ∧ fits a ∧ (encode a).nesting ≤ levels :=
  ((codec.option hnull).readsBack (some a)).bind_eq_some_iff

/-! ## Fields of records -/

variable {fields : Fields} {name : String} {levels : Nat}

/-- A field that has to be there was read as a value that fits. -/
theorem of_required (codec : Codec decode encode fits) {a : α}
    (h : fields.required name (decode levels) = some a) : fits a ∧ (encode a).nesting ≤ levels := by
  obtain ⟨j, -, hj⟩ := Option.bind_eq_some_iff.mp h
  exact codec.of_decode hj

/-- A field with a default has a value that fits, if the default does. -/
theorem of_withDefault (codec : Codec decode encode fits) {a b : α}
    (hb : fits b ∧ (encode b).nesting ≤ levels)
    (h : fields.withDefault name b (decode levels) = some a) :
    fits a ∧ (encode a).nesting ≤ levels := by
  unfold Fields.withDefault at h
  split at h
  · exact Option.some.inj h ▸ hb
  · exact codec.of_decode h

/-- A field that may be missing is absent or has a value that fits. -/
theorem of_optional (codec : Codec decode encode fits) (hnull : ∀ a, encode a ≠ .null)
    {value : Option α} (h : fields.optional name (decode levels) = some value) :
    value.all fits ∧ (Json.option encode value).nesting ≤ levels := by
  rw [Fields.optional_eq_withDefault] at h
  exact (codec.option hnull).of_withDefault ⟨rfl, Nat.zero_le _⟩ h

end Codec

/-- The members of a record are its fields, if they are known and differ. -/
theorem knownMembers?_map {names : List String} {members : List (String × Json)}
    (hknown : ∀ member ∈ members, member.1 ∈ names) (hnodup : (members.map (·.1)).Nodup) :
    knownMembers? names (members.map fun (key, j) => (some key, j)) = some members := by
  induction members with
  | nil => rfl
  | cons member members ih =>
    obtain ⟨hmember, hmembers⟩ := List.forall_mem_cons.mp hknown
    obtain ⟨hnew, hrest⟩ := List.nodup_cons.mp hnodup
    have hfresh : members.any (·.1 = member.1) = false := by
      simp only [List.any_eq_false, decide_eq_true_eq]
      exact fun other hother heq => hnew (List.mem_map.mpr ⟨other, hother, heq⟩)
    rw [List.map_cons, knownMembers?, ih hmembers hrest]
    simp [hmember, hfresh]

/-- A record with known and different keys has the fields that were written. -/
theorem fields?_object {names : List String} {members : List (String × Json)}
    (hknown : ∀ member ∈ members, member.1 ∈ names) (hnodup : (members.map (·.1)).Nodup) :
    (object members).fields? names = some members :=
  knownMembers?_map hknown hnodup

/-- So does a record under a key of alternatives. -/
theorem payload?_object {names : List String} {members : List (String × Json)}
    (hknown : ∀ member ∈ members, member.1 ∈ names) (hnodup : (members.map (·.1)).Nodup) :
    (object members).payload? names = some members :=
  knownMembers?_map hknown hnodup

end TaintTrail.Json

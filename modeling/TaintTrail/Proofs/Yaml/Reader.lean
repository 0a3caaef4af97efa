import TaintTrail.Proofs.Yaml.Layout
import TaintTrail.Yaml.Reader

/-!
# Reading what was written

A simple document, which is written as its layout says, is read as itself. The reader is at a node
and knows the columns that belong to it; behind the node it is at the next line, in a column that
does not. The main statement is `read?_write`.
-/

namespace TaintTrail.Yaml

/-! ## Words -/

/-- A place where neither an item, a mark, a property, an alias, a flow collection, a block scalar
nor a directive starts. -/
structure Cursor.IsWord (c : Cursor) : Prop where
  isItem : c.isItem = false
  isKeyMark : c.isKeyMark = false
  isAt : c.isAt ['&', '!', '*', '[', '\x7b', '|', '>', '%'] = false

namespace Cursor

variable {isFresh : Bool} {column : Nat} {rest : List Char}

/-- A place that has none of some characters has none of fewer. -/
theorem isAt_eq_false_of_subset {c : Cursor} {cs ds : List Char} (h : c.isAt ds = false)
    (hsubset : ∀ d ∈ cs, d ∈ ds) : c.isAt cs = false := by
  unfold isAt at h ⊢
  cases hrest : c.rest.head? with
  | none => rfl
  | some d =>
    have hd : d ∉ ds := by simpa [hrest] using h
    simpa using fun hmem => hd (hsubset d hmem)

/-- A plain scalar starts at a word. -/
theorem isWord_of_starts (h : Plain.starts false rest) : IsWord ⟨isFresh, column, rest⟩ := by
  match rest with
  | c :: rest =>
    have hgap : c = '-' ∨ c = '?' ∨ c = ':' → atGap rest = false := by
      rintro (rfl | rfl | rfl) <;> simpa [Plain.starts] using h
    have hindicator : c ≠ '-' → c ≠ '?' → c ≠ ':' → isIndicator c = false := by
      intro hdash hquestion hcolon
      simp only [Plain.starts, hdash, hquestion, hcolon, if_false, decide_false, Bool.or_self,
        Bool.false_eq_true, Bool.and_eq_true, Bool.not_eq_true'] at h
      exact h.2
    refine ⟨?_, ?_, ?_⟩
    · unfold Cursor.isItem
      split
      · next heq =>
        obtain ⟨rfl, rfl⟩ := List.cons.inj heq
        simp [hgap (.inl rfl)]
      · rfl
    · unfold Cursor.isKeyMark
      split
      · next heq =>
        obtain ⟨rfl, rfl⟩ := List.cons.inj heq
        exact hgap (.inr (.inl rfl))
      · rfl
    · simp only [Cursor.isAt, List.head?_cons, Option.any_some, decide_eq_false_iff_not]
      intro hmem
      have hc : isIndicator c = false := by
        refine hindicator ?_ ?_ ?_ <;> rintro rfl <;> simp at hmem
      have hall : ∀ d ∈ ['&', '!', '*', '[', '\x7b', '|', '>', '%'], isIndicator d := by
        simp [isIndicator, isFlowIndicator]
      exact absurd (hall c hmem) (by simp [hc])

/-- No anchor and no tag starts at a word. -/
theorem IsWord.isProperty {c : Cursor} (h : c.IsWord) : c.isProperty = false :=
  isAt_eq_false_of_subset h.isAt (by simp)

/-- No alias starts at a word. -/
theorem IsWord.isAlias {c : Cursor} (h : c.IsWord) : c.isAlias = false :=
  isAt_eq_false_of_subset h.isAt (by simp)

/-- A scalar on one line, in any style, is a word. -/
theorem isWord_written {style : Style} {text : String} (h : style.suits text)
    (tail : List Char) : IsWord ⟨isFresh, column, style.written text ++ tail⟩ := by
  cases style with
  | plain => exact isWord_of_starts (Plain.starts_append h tail)
  | singleQuoted =>
    constructor <;>
      simp [Style.written, SingleQuoted.singleQuoted_eq, Cursor.isItem, Cursor.isKeyMark,
        Cursor.isAt]
  | doubleQuoted | literal | folded =>
    constructor <;>
      simp [Style.written, doubleQuoted, Cursor.isItem, Cursor.isKeyMark, Cursor.isAt]

end Cursor

namespace Reading

/-- A reading that was moved to a place is there. -/
@[simp] theorem toCursor_moveTo (r : Reading) (c : Cursor) : (r.moveTo c).toCursor = c := rfl

/-- Only the last of two moves counts. -/
@[simp] theorem moveTo_moveTo (r : Reading) (c d : Cursor) : (r.moveTo c).moveTo d = r.moveTo d :=
  rfl

/-- To skip blanks and comments is to move to where they end. -/
theorem skip_moveTo {c d : Cursor} {inFlow : Bool} (h : c.skip inFlow = some d) (r : Reading) :
    (r.moveTo c).skip inFlow = some (r.moveTo d) := by
  simp [skip, h]

/-- What is read as a key at a word is a scalar on one line with a colon behind it. -/
theorem key?_of_isWord {r : Reading} {inFlow : Bool} {least : Nat} {s : Scanned}
    (h : r.toCursor.IsWord) (hs : scalar inFlow least r.toCursor = some s) :
    r.key? inFlow least =
      if s.isMultiline || s.next.isFresh then none
      else ((r.moveTo s.next).colon? inFlow r).map (s.node, ·) := by
  have hproperties : properties? inFlow 2 {} r = some ({}, r) := by
    simp [properties?, h.isProperty]
  have hattach : Properties.attach {} s.node = s.node := rfl
  simp only [key?, hproperties, Option.bind_eq_bind, Option.bind_some, h.isAlias, hs, hattach,
    Bool.false_eq_true, if_false]
  split
  · rfl
  · cases (r.moveTo s.next).colon? inFlow r <;> rfl

/-- No key ends with its line. -/
theorem colon?_eq_none {r start : Reading} {inFlow : Bool} (h : r.rest.head? = some '\n') :
    r.colon? inFlow start = none := by
  obtain ⟨rest, hrest⟩ := List.head?_eq_some_iff.mp h
  have hblanks : r.skipBlanks.rest = '\n' :: rest := by
    simp [skipBlanks, Cursor.skipBlanks, Cursor.past, hrest, isBlank]
  simp [colon?, hblanks]

/-- A key is read with its colon. -/
theorem key?_of_isPlainShape (r : Reading) {text : String} (h : isPlainShape text.toList)
    (hlength : text.toList.length ≤ maxKeyLength) {tail : List Char} (hgap : atGap tail)
    (isFresh : Bool) (column least : Nat) :
    (r.moveTo ⟨isFresh, column, text.toList ++ ':' :: tail⟩).key? false least =
      some (.plain text, r.moveTo ⟨false, column + text.toList.length + 1, tail⟩) := by
  have hstarts := Plain.starts_append h (':' :: tail)
  have hscan : scalar false least ⟨isFresh, column, text.toList ++ ':' :: tail⟩ =
      some ⟨.plain, text, false, ⟨false, column + text.toList.length, ':' :: tail⟩⟩ := by
    rw [scalar_of_starts hstarts, Plain.scan_of_isPlainShape h (.inr rfl), Plain.scan_colon hgap]
    simp [Scanned.ofReversed]
  rw [key?_of_isWord (Cursor.isWord_of_starts hstarts) hscan]
  have hbound : text.toList.length + (tail.length + 1) ≤ tail.length + 1 + maxKeyLength := by
    omega
  simp [colon?, skipBlanks, Cursor.skipBlanks, Cursor.past, past, isBlank, hgap, hbound,
    Scanned.node, Node.plain]

end Reading

/-! ## Nodes on one line -/

/-- Where a key starts on a fresh line, a mapping is read from its column on. -/
theorem blockNode_mapping {r after : Reading} {least n : Nat} {entries : List (Node × Node)}
    (hword : r.toCursor.IsWord) (hkey : r.isKey false least) (hfresh : r.isFresh)
    (h : blockEntries r.column n [] r = some (entries, after)) (isBelowKey : Bool) :
    blockNode least isBelowKey (n + 1) r = some (.mapping entries, after) := by
  simp [blockNode, hword.isItem, hkey, hfresh, h]

/-- Where a word is no key, a scalar is read. -/
theorem blockNode_scalar {r : Reading} {least : Nat} {s : Scanned} (hword : r.toCursor.IsWord)
    (hkey : r.isKey false least = false) (hs : scalar false least r.toCursor = some s)
    (isBelowKey : Bool) (n : Nat) :
    blockNode least isBelowKey (n + 1) r = some (s.node, r.moveTo s.next) := by
  have hstart := hword.isAt
  simp only [blockNode, hword.isItem, hword.isKeyMark, hkey, hword.isAlias, hword.isProperty, hs,
    Bool.false_eq_true, if_false, Bool.or_self, Option.map_some]
  -- The characters that would start something else are those of `Cursor.IsWord.isAt`.
  split
  · next heq => simp [Cursor.isAt, heq] at hstart
  · next heq => simp [Cursor.isAt, heq] at hstart
  · next heq => simp [Cursor.isAt, heq] at hstart
  · next heq => simp [Cursor.isAt, heq] at hstart
  · rfl

/-- A scalar is read up to the end of its line. -/
theorem exists_blockNode_written {style : Style} {text : String} (h : style.suits text)
    {least next : Nat} {rest : List Char} (hsolid : Solid rest) (hrest : rest = [] ∨ next < least)
    (r : Reading) (isFresh isBelowKey : Bool) (column n : Nat) :
    ∃ after, blockNode least isBelowKey (n + 1)
        (r.moveTo ⟨isFresh, column, style.written text ++ nextLine next rest⟩) =
          some (.scalar style none text, r.moveTo after) ∧
      after.skip false = some ⟨true, next, rest⟩ := by
  obtain ⟨after, hscalar, hskip, hend⟩ := exists_scalar_written h hsolid hrest isFresh column
  have hword : Cursor.IsWord ⟨isFresh, column, style.written text ++ nextLine next rest⟩ :=
    Cursor.isWord_written h _
  -- The line ends behind the scalar, so it is no key.
  have hkey : (r.moveTo ⟨isFresh, column, style.written text ++ nextLine next rest⟩).isKey false
      least = false := by
    rw [Reading.isKey, Reading.key?_of_isWord hword hscalar]
    obtain hfresh | hbreak := hend
    · simp [hfresh]
    · rw [Reading.colon?_eq_none hbreak]
      simp
  have hnode := blockNode_scalar hword hkey hscalar isBelowKey n
  exact ⟨after, hnode, hskip⟩

/-- Empty brackets are read as the sequence without items. -/
theorem blockNode_noItems (r : Reading) (isFresh isBelowKey : Bool) (least column n : Nat)
    (tail : List Char) :
    blockNode least isBelowKey (n + 3) (r.moveTo ⟨isFresh, column, '[' :: ']' :: tail⟩) =
      some (.sequence [], r.moveTo ⟨false, column + 2, tail⟩) := by
  simp [blockNode, flowNode, flowItems, Cursor.isItem, Cursor.isKeyMark, Reading.isKey,
    Reading.key?, Reading.properties?, Cursor.isProperty, Cursor.isAlias, Cursor.isAt, scalar,
    Plain.starts, isIndicator, isFlowIndicator, Cursor.isMark, atMark, Reading.past, Cursor.past,
    Reading.skip, Cursor.skip, Cursor.skipFrom, isBreak]

/-- Empty braces are read as the mapping without entries. -/
theorem blockNode_noEntries (r : Reading) (isFresh isBelowKey : Bool) (least column n : Nat)
    (tail : List Char) :
    blockNode least isBelowKey (n + 3) (r.moveTo ⟨isFresh, column, '\x7b' :: '\x7d' :: tail⟩) =
      some (.mapping [], r.moveTo ⟨false, column + 2, tail⟩) := by
  simp [blockNode, flowNode, flowEntries, Cursor.isItem, Cursor.isKeyMark, Reading.isKey,
    Reading.key?, Reading.properties?, Cursor.isProperty, Cursor.isAlias, Cursor.isAt, scalar,
    Plain.starts, isIndicator, isFlowIndicator, Cursor.isMark, atMark, Reading.past, Cursor.past,
    Reading.skip, Cursor.skip, Cursor.skipFrom, isBreak]

/-! ## Steps -/

/-- A node that starts far enough to the right is there. -/
theorem Reading.isAbsent_eq_false {r : Reading} {least : Nat} (hne : r.rest ≠ [])
    (hpos : 0 < r.column) (hleast : least ≤ r.column) : r.isAbsent least = false := by
  have houtside : ∀ k ≤ r.column, r.isOutside k = false := by
    intro k hk
    simp [Cursor.isOutside, Cursor.isMark, hne, hk, Nat.ne_of_gt hpos]
  unfold isAbsent
  split
  · exact houtside _ (by omega)
  · exact houtside _ hleast

/-- Behind a mark, a node that is there and is no item of an outer sequence is read as a node. -/
theorem blockPart_eq_blockNode {r : Reading} {least n : Nat} {isBelowKey : Bool}
    (hitem : isBelowKey = false ∨ r.isItem = false ∨ r.isFresh = false)
    (habsent : r.isAbsent least = false) :
    blockPart least isBelowKey (n + 1) r = blockNode least isBelowKey n r := by
  rw [blockPart, habsent]
  obtain h | h | h := hitem <;> simp [h]

/-- Behind the dash of an item, the text starts two columns further on, as on a fresh line. -/
theorem Reading.pastMark_dash (r : Reading) {text : List Char} (h : Solid text) (isFresh : Bool)
    (column : Nat) :
    (r.moveTo ⟨isFresh, column, '-' :: ' ' :: text⟩).pastMark =
      some (r.moveTo ⟨true, column + 2, text⟩) := by
  have hskip : Cursor.skip ⟨true, column + 1, ' ' :: text⟩ false =
      some ⟨true, column + 2, text⟩ := by
    have hblank := Cursor.skipFrom_replicate false true (column + 1) 1 text
    rwa [Cursor.skipFrom_of_solid h] at hblank
  simp [pastMark, Cursor.past, hskip]

/-- What follows the last item of a sequence in a column. The items of the value of a key end before
the next key. -/
def EndsItems (isBelowKey : Bool) (column next : Nat) (rest : List Char) : Prop :=
  rest = [] ∨ next < column ∨
    isBelowKey ∧ next = column ∧ Cursor.isItem ⟨true, next, rest⟩ = false

section Items

variable {r : Reading} {column next n : Nat} {text rest : List Char} {item : Node} {after : Cursor}
  (hsolid : Solid text)
  (hpart : blockPart (column + 1) false n (r.moveTo ⟨true, column + 2, text⟩) =
    some (item, r.moveTo after))
include hsolid hpart

/-- One item is read, and another one follows. -/
theorem blockItems_next (hskip : after.skip false = some ⟨true, column, rest⟩)
    (hitem : Cursor.isItem ⟨true, column, rest⟩) (isFresh isBelowKey : Bool) (items : List Node) :
    blockItems column isBelowKey (n + 1) items (r.moveTo ⟨isFresh, column, '-' :: ' ' :: text⟩) =
      blockItems column isBelowKey n (item :: items) (r.moveTo ⟨true, column, rest⟩) := by
  simp [blockItems, r.pastMark_dash hsolid, hpart, Reading.skip_moveTo hskip, hitem]

/-- The last item is read. -/
theorem blockItems_last {isBelowKey : Bool} (hskip : after.skip false = some ⟨true, next, rest⟩)
    (hend : EndsItems isBelowKey column next rest) (isFresh : Bool) (items : List Node) :
    blockItems column isBelowKey (n + 1) items (r.moveTo ⟨isFresh, column, '-' :: ' ' :: text⟩) =
      some ((item :: items).reverse, r.moveTo ⟨true, next, rest⟩) := by
  have hitem : (Cursor.isItem ⟨true, next, rest⟩ && next = column) = false := by
    obtain rfl | hlt | ⟨-, -, hitem⟩ := hend
    · simp [Cursor.isItem]
    · simp [Nat.ne_of_lt hlt]
    · simp [hitem]
  have hout : (Cursor.isOutside ⟨true, next, rest⟩ column || (isBelowKey && next = column)) =
      true := by
    obtain rfl | hlt | ⟨hbelow, heq, -⟩ := hend
    · simp [Cursor.isOutside]
    · simp [Cursor.isOutside, hlt]
    · simp [hbelow, heq]
  simp only [blockItems, r.pastMark_dash hsolid, Option.bind_eq_bind, Option.bind_some, hpart,
    Reading.skip_moveTo hskip]
  exact (if_neg (Bool.eq_false_iff.mp hitem)).trans (if_pos hout)

end Items

/-- An entry is read as its plain key and what is read behind the colon. -/
theorem blockEntry_eq {r after : Reading} {column n : Nat} {text : String} {value : Node}
    {tail : List Char} {start : Cursor} (h : isPlainShape text.toList)
    (hlength : text.toList.length ≤ Reading.maxKeyLength) (hgap : atGap tail)
    (hskip : Cursor.skip ⟨false, column + text.toList.length + 1, tail⟩ false = some start)
    (hpart : blockPart (column + 1) true n (r.moveTo start) = some (value, after))
    (isFresh : Bool) :
    blockEntry column (n + 1) (r.moveTo ⟨isFresh, column, text.toList ++ ':' :: tail⟩) =
      some ((.plain text, value), after) := by
  have hword : Cursor.IsWord ⟨isFresh, column, text.toList ++ ':' :: tail⟩ :=
    Cursor.isWord_of_starts (Plain.starts_append h _)
  simp only [blockEntry, Reading.toCursor_moveTo, hword.isKeyMark, Bool.false_eq_true, if_false,
    Reading.key?_of_isPlainShape r h hlength hgap, Option.bind_eq_bind, Option.bind_some,
    Reading.skip_moveTo hskip, hpart, Option.map_some]

section Entries

variable {r start : Reading} {column next n : Nat} {rest : List Char} {entry : Node × Node}
  {after : Cursor} (hentry : blockEntry column n start = some (entry, r.moveTo after))
include hentry

/-- One entry is read, and another one follows. -/
theorem blockEntries_next (hskip : after.skip false = some ⟨true, column, rest⟩) (hne : rest ≠ [])
    (hmark : atMark rest = false) (entries : List (Node × Node)) :
    blockEntries column (n + 1) entries start =
      blockEntries column n (entry :: entries) (r.moveTo ⟨true, column, rest⟩) := by
  simp [blockEntries, hentry, Reading.skip_moveTo hskip, Cursor.isOutside, Cursor.isMark, hne,
    hmark]

/-- The last entry is read. -/
theorem blockEntries_last (hskip : after.skip false = some ⟨true, next, rest⟩)
    (hend : rest = [] ∨ next < column) (entries : List (Node × Node)) :
    blockEntries column (n + 1) entries start =
      some ((entry :: entries).reverse, r.moveTo ⟨true, next, rest⟩) := by
  have hout : Cursor.isOutside ⟨true, next, rest⟩ column := by
    obtain rfl | hlt := hend
    · simp [Cursor.isOutside]
    · simp [Cursor.isOutside, hlt]
  simp [blockEntries, hentry, Reading.skip_moveTo hskip, hout]

end Entries

/-! ## Runs -/

/-- A node is read where it is written, up to the next line: where a node may start, and behind the
colon of a key. -/
structure Node.IsRead (node : Node) : Prop where
  asNode {least next n : Nat} {rest : List Char} (hsolid : Solid rest)
    (hrest : rest = [] ∨ next < least) (hfuel : 2 * node.eventCount ≤ n) (r : Reading)
    (isBelowKey : Bool) {column : Nat} (hleast : least ≤ column) :
    ∃ after, blockNode least isBelowKey n
        (r.moveTo ⟨true, column, node.before column next rest⟩) = some (node, r.moveTo after) ∧
      after.skip false = some ⟨true, next, rest⟩
  asValue {column next n : Nat} {rest : List Char} (hsolid : Solid rest)
    (hend : EndsItems true column next rest) (hfuel : 2 * node.eventCount < n) (r : Reading)
    {start : Nat} (hstart : column < start) :
    ∃ first after, Cursor.skip
        ⟨false, start, node.behindColon (fun column => node.before column next rest) column⟩ false =
          some first ∧
      blockPart (column + 1) true n (r.moveTo first) = some (node, r.moveTo after) ∧
      after.skip false = some ⟨true, next, rest⟩

/-- The items of a sequence are read where they are written. -/
def ItemsAreRead (items : List Node) : Prop :=
  ∀ ⦃isBelowKey : Bool⦄ ⦃column next n : Nat⦄ ⦃rest : List Char⦄, Solid rest →
    EndsItems isBelowKey column next rest → 2 * eventCountOfItems items + 2 ≤ n →
    ∀ (r : Reading) (isFresh : Bool) (others : List Node),
      blockItems column isBelowKey n others
          (r.moveTo ⟨isFresh, column, itemsBefore column next rest items⟩) =
        some (others.reverse ++ items, r.moveTo ⟨true, next, rest⟩)

/-- The entries of a mapping are read where they are written. -/
def EntriesAreRead (entries : List (Node × Node)) : Prop :=
  ∀ ⦃column next n : Nat⦄ ⦃rest : List Char⦄, Solid rest → (rest = [] ∨ next < column) →
    2 * eventCountOfEntries entries + 1 ≤ n →
    ∀ (r : Reading) (isFresh : Bool) (others : List (Node × Node)),
      blockEntries column n others
          (r.moveTo ⟨isFresh, column, entriesBefore column next rest entries⟩) =
        some (others.reverse ++ entries, r.moveTo ⟨true, next, rest⟩)

/-- What follows the items of a sequence is no part of its last item. -/
theorem EndsItems.eq_nil_or_lt {isBelowKey : Bool} {column next : Nat} {rest : List Char}
    (h : EndsItems isBelowKey column next rest) : rest = [] ∨ next < column + 1 := by
  obtain hrest | hlt | ⟨-, heq, -⟩ := h
  · exact .inl hrest
  · exact .inr (by omega)
  · exact .inr (by omega)

/-- Items start with the dash of an item. -/
theorem isItem_itemsBefore {items : List Node} (h : items ≠ []) (isFresh : Bool)
    (column next : Nat) (rest : List Char) :
    Cursor.isItem ⟨isFresh, column, itemsBefore column next rest items⟩ := by
  match items with
  | [item] | item :: other :: items =>
    simp [itemsBefore, Cursor.isItem, Cursor.isMark, atMark, atGap, isBlank]

/-- Entries start with a word, the first key. -/
theorem isWord_entriesBefore {entries : List (Node × Node)} (h : simpleEntries entries)
    (hne : entries ≠ []) (isFresh : Bool) (column next : Nat) (rest : List Char) :
    Cursor.IsWord ⟨isFresh, column, entriesBefore column next rest entries⟩ := by
  obtain ⟨text, tail, heq, hshape, -⟩ := exists_entriesBefore_eq h hne column next rest
  rw [heq]
  exact Cursor.isWord_of_starts (Plain.starts_append hshape _)

/-- Entries do not start with the mark of a document. -/
theorem atMark_entriesBefore {entries : List (Node × Node)} (h : simpleEntries entries)
    (hne : entries ≠ []) (column next : Nat) (rest : List Char) :
    atMark (entriesBefore column next rest entries) = false := by
  obtain ⟨text, tail, heq, hshape, -⟩ := exists_entriesBefore_eq h hne column next rest
  simp only [isPlainShape, Bool.and_eq_true, Bool.not_eq_true'] at hshape
  rw [heq]
  exact Plain.atMark_append_eq_false hshape.1.1.2 (.inr rfl)

/-- Entries start with a key: the colon is on its line and near enough. -/
theorem isKey_entriesBefore {entries : List (Node × Node)} (h : simpleEntries entries)
    (hne : entries ≠ []) (r : Reading) (isFresh : Bool) (least column next : Nat)
    (rest : List Char) :
    (r.moveTo ⟨isFresh, column, entriesBefore column next rest entries⟩).isKey false least := by
  obtain ⟨text, tail, heq, hshape, hlength, hgap⟩ := exists_entriesBefore_eq h hne column next rest
  rw [heq, Reading.isKey, r.key?_of_isPlainShape hshape hlength hgap]
  rfl

/-- A node on one line is read in any column, also behind a key. -/
theorem Node.isRead_of_line {node : Node} (hsimple : node.isSimple)
    (hcolon : ∀ text column, node.behindColon text column = ' ' :: text column)
    (hread : ∀ {least next n : Nat} {rest : List Char}, Solid rest → (rest = [] ∨ next < least) →
      2 * node.eventCount ≤ n → ∀ (r : Reading) (isFresh isBelowKey : Bool) (column start : Nat),
        ∃ after, blockNode least isBelowKey n
            (r.moveTo ⟨isFresh, start, node.before column next rest⟩) =
              some (node, r.moveTo after) ∧
          after.skip false = some ⟨true, next, rest⟩) : node.IsRead where
  asNode hsolid hrest hfuel r isBelowKey column _ :=
    hread hsolid hrest hfuel r true isBelowKey column column
  asValue {column next n rest} hsolid hend hfuel r start hstart := by
    obtain ⟨m, rfl⟩ : ∃ m, n = m + 1 := ⟨n - 1, by omega⟩
    have hm : 2 * node.eventCount ≤ m := by omega
    obtain ⟨after, hafter, hskip⟩ := hread hsolid hend.eq_nil_or_lt hm r false true column
      (start + 1)
    refine ⟨⟨false, start + 1, node.before column next rest⟩, after, ?_, ?_, hskip⟩
    · have hblank := Cursor.skipFrom_replicate false false start 1 (node.before column next rest)
      rw [Cursor.skipFrom_of_solid (solid_before hsimple column next rest)] at hblank
      rw [hcolon]
      exact hblank
    · rw [blockPart_eq_blockNode (.inr (.inr rfl)), hafter]
      exact Reading.isAbsent_eq_false (before_ne_nil hsimple column next rest) (Nat.succ_pos start)
        (Nat.succ_le_succ (Nat.le_of_lt hstart))

/-- A scalar in a style that suits it is read where it is written. -/
theorem Node.isRead_scalar {style : Style} {text : String} (h : style.suits text) :
    (Node.scalar style none text).IsRead := by
  refine isRead_of_line (by simp [isSimple, h]) (fun _ _ => rfl) ?_
  intro least next n rest hsolid hrest hfuel r isFresh isBelowKey column start
  obtain ⟨m, rfl⟩ : ∃ m, n = m + 1 := ⟨n - 1, by simp only [eventCount] at hfuel; omega⟩
  rw [before]
  exact exists_blockNode_written h hsolid hrest r isFresh isBelowKey start m

/-- The sequence without items is read where it is written. -/
theorem Node.isRead_noItems : (Node.sequence []).IsRead := by
  refine isRead_of_line (by simp [isSimple, simpleItems]) (fun _ _ => rfl) ?_
  intro least next n rest hsolid hrest hfuel r isFresh isBelowKey column start
  obtain ⟨m, rfl⟩ : ∃ m, n = m + 3 := ⟨n - 3, by simp only [eventCount] at hfuel; omega⟩
  rw [before]
  exact ⟨_, blockNode_noItems r isFresh isBelowKey least start m _, Cursor.skip_nextLine hsolid⟩

/-- The mapping without entries is read where it is written. -/
theorem Node.isRead_noEntries : (Node.mapping []).IsRead := by
  refine isRead_of_line (by simp [isSimple, simpleEntries]) (fun _ _ => rfl) ?_
  intro least next n rest hsolid hrest hfuel r isFresh isBelowKey column start
  obtain ⟨m, rfl⟩ : ∃ m, n = m + 3 := ⟨n - 3, by simp only [eventCount] at hfuel; omega⟩
  rw [before]
  exact ⟨_, blockNode_noEntries r isFresh isBelowKey least start m _, Cursor.skip_nextLine hsolid⟩

/-- A sequence is read where it is written if its items are. -/
theorem Node.isRead_sequence {items : List Node} (hne : items ≠ []) (h : ItemsAreRead items) :
    (Node.sequence items).IsRead where
  asNode {least next n rest} hsolid hrest hfuel r isBelowKey column hleast := by
    obtain ⟨item, items, rfl⟩ := List.exists_cons_of_ne_nil hne
    obtain ⟨m, rfl⟩ : ∃ m, n = m + 1 := ⟨n - 1, by simp only [eventCount] at hfuel; omega⟩
    have hend : EndsItems false column next rest := hrest.imp_right fun hlt => .inl (by omega)
    have hm : 2 * eventCountOfItems (item :: items) + 2 ≤ m := by
      simp only [eventCount] at hfuel
      omega
    refine ⟨⟨true, next, rest⟩, ?_, Cursor.skip_of_solid hsolid⟩
    simp [before, blockNode, isItem_itemsBefore hne, h hsolid hend hm]
  asValue {column next n rest} hsolid hend hfuel r start hstart := by
    obtain ⟨item, items, rfl⟩ := List.exists_cons_of_ne_nil hne
    obtain ⟨m, rfl⟩ : ∃ m, n = m + 1 := ⟨n - 1, by omega⟩
    have hm : 2 * eventCountOfItems (item :: items) + 2 ≤ m := by
      simp only [eventCount] at hfuel
      omega
    refine ⟨⟨true, column, itemsBefore column next rest (item :: items)⟩, ⟨true, next, rest⟩, ?_,
      ?_, Cursor.skip_of_solid hsolid⟩
    · rw [behindColon, before]
      exact Cursor.skip_nextLine (solid_itemsBefore hne column next rest)
    · -- The items of the value stand in the column of the key.
      simp [blockPart, isItem_itemsBefore hne, h hsolid hend hm]

/-- A mapping is read from the column of its first key on, if its entries are read. -/
theorem blockNode_entriesBefore {entries : List (Node × Node)} (hsimple : simpleEntries entries)
    (hne : entries ≠ []) (h : EntriesAreRead entries) {least column next n : Nat} {rest : List Char}
    (hsolid : Solid rest) (hrest : rest = [] ∨ next < least)
    (hfuel : 2 * (Node.mapping entries).eventCount ≤ n) (hleast : least ≤ column) (r : Reading)
    (isBelowKey : Bool) :
    blockNode least isBelowKey n
        (r.moveTo ⟨true, column, entriesBefore column next rest entries⟩) =
      some (.mapping entries, r.moveTo ⟨true, next, rest⟩) := by
  rw [Node.eventCount] at hfuel
  obtain ⟨m, rfl⟩ : ∃ m, n = m + 1 := ⟨n - 1, by omega⟩
  have hm : 2 * eventCountOfEntries entries + 1 ≤ m := by omega
  exact blockNode_mapping (isWord_entriesBefore hsimple hne true column next rest)
    (isKey_entriesBefore hsimple hne r true least column next rest) rfl
    (h hsolid (hrest.imp_right (Nat.lt_of_lt_of_le · hleast)) hm r true []) isBelowKey

/-- A mapping is read where it is written if its entries are. -/
theorem Node.isRead_mapping {entries : List (Node × Node)} (hsimple : simpleEntries entries)
    (hne : entries ≠ []) (h : EntriesAreRead entries) : (Node.mapping entries).IsRead where
  asNode {least next n rest} hsolid hrest hfuel r isBelowKey column hleast := by
    obtain ⟨entry, entries, rfl⟩ := List.exists_cons_of_ne_nil hne
    rw [before]
    exact ⟨_, blockNode_entriesBefore hsimple hne h hsolid hrest hfuel hleast r isBelowKey,
      Cursor.skip_of_solid hsolid⟩
  asValue {column next n rest} hsolid hend hfuel r start hstart := by
    obtain ⟨entry, entries, rfl⟩ := List.exists_cons_of_ne_nil hne
    obtain ⟨m, rfl⟩ : ∃ m, n = m + 1 := ⟨n - 1, by omega⟩
    have hword := isWord_entriesBefore hsimple hne true (column + 2) next rest
    have htext := entriesBefore_ne_nil hsimple hne (column + 2) next rest
    refine ⟨⟨true, column + 2, entriesBefore (column + 2) next rest (entry :: entries)⟩,
      ⟨true, next, rest⟩, ?_, ?_, Cursor.skip_of_solid hsolid⟩
    · rw [behindColon, before]
      exact Cursor.skip_nextLine (solid_entriesBefore hsimple hne (column + 2) next rest)
    · rw [blockPart_eq_blockNode (.inr (.inl hword.isItem))
        (Reading.isAbsent_eq_false htext (Nat.succ_pos _) (Nat.le_succ _))]
      exact blockNode_entriesBefore hsimple hne h hsolid hend.eq_nil_or_lt
        (Nat.le_of_lt_succ hfuel) (Nat.le_succ _) r true

/-- An item that is read where it is written is read behind its dash. -/
theorem Node.IsRead.blockPart {item : Node} (h : item.IsRead) (hsimple : item.isSimple)
    {column next n : Nat} {rest : List Char} (hsolid : Solid rest)
    (hrest : rest = [] ∨ next < column + 1) (hfuel : 2 * item.eventCount < n) (r : Reading) :
    ∃ after, Yaml.blockPart (column + 1) false n
        (r.moveTo ⟨true, column + 2, item.before (column + 2) next rest⟩) =
          some (item, r.moveTo after) ∧
      after.skip false = some ⟨true, next, rest⟩ := by
  obtain ⟨m, rfl⟩ : ∃ m, n = m + 1 := ⟨n - 1, by omega⟩
  rw [blockPart_eq_blockNode (.inl rfl) (Reading.isAbsent_eq_false
    (before_ne_nil hsimple (column + 2) next rest) (Nat.succ_pos _) (Nat.le_succ _))]
  exact h.asNode hsolid hrest (by omega) r false (Nat.le_succ _)

/-- The last item of a sequence is read, and what follows is left. -/
theorem itemsAreRead_singleton {item : Node} (hsimple : item.isSimple) (h : item.IsRead) :
    ItemsAreRead [item] := by
  intro isBelowKey column next n rest hsolid hend hfuel r isFresh others
  simp only [eventCountOfItems] at hfuel
  obtain ⟨m, rfl⟩ : ∃ m, n = m + 1 := ⟨n - 1, by omega⟩
  have hm : 2 * item.eventCount < m := by omega
  obtain ⟨after, hpart, hskip⟩ := h.blockPart hsimple hsolid hend.eq_nil_or_lt hm r
  rw [itemsBefore, blockItems_last (Node.solid_before hsimple _ _ _) hpart hskip hend]
  simp

/-- An item is read up to the dash of the next one. -/
theorem itemsAreRead_cons {item : Node} {items : List Node} (hsimple : item.isSimple)
    (h : item.IsRead) (hne : items ≠ []) (hitems : ItemsAreRead items) :
    ItemsAreRead (item :: items) := by
  intro isBelowKey column next n rest hsolid hend hfuel r isFresh others
  obtain ⟨other, items, rfl⟩ := List.exists_cons_of_ne_nil hne
  have hpos := Node.eventCount_pos hsimple
  rw [eventCountOfItems] at hfuel
  obtain ⟨m, rfl⟩ : ∃ m, n = m + 1 := ⟨n - 1, by omega⟩
  have hm : 2 * item.eventCount < m := by omega
  have hfuel' : 2 * eventCountOfItems (other :: items) + 2 ≤ m := by omega
  obtain ⟨after, hpart, hskip⟩ := h.blockPart hsimple
    (solid_itemsBefore hne column next rest) (.inr (Nat.lt_succ_self column)) hm r
  rw [itemsBefore, blockItems_next (Node.solid_before hsimple _ _ _) hpart hskip
    (isItem_itemsBefore hne true column next rest), hitems hsolid hend hfuel' r true]
  simp

/-- An entry is read where it is written, up to the next line. -/
theorem Node.IsRead.blockEntry {key value : Node} (h : value.IsRead) (hkey : key.isSimpleKey)
    {column next n : Nat} {rest : List Char} (hsolid : Solid rest)
    (hend : EndsItems true column next rest) (hfuel : 2 * value.eventCount + 1 < n) (r : Reading)
    (isFresh : Bool) :
    ∃ after, Yaml.blockEntry column n (r.moveTo ⟨isFresh, column, key.keyText ++
          ':' :: value.behindColon (fun start => value.before start next rest) column⟩) =
        some ((key, value), r.moveTo after) ∧
      after.skip false = some ⟨true, next, rest⟩ := by
  obtain ⟨text, rfl, hshape, hlength⟩ := exists_of_isSimpleKey hkey
  obtain ⟨m, rfl⟩ : ∃ m, n = m + 1 := ⟨n - 1, by omega⟩
  have hm : 2 * value.eventCount < m := by omega
  have hstart : column < column + text.toList.length + 1 := by omega
  obtain ⟨first, after, hfirst, hpart, hskip⟩ := h.asValue hsolid hend hm r hstart
  exact ⟨after, blockEntry_eq hshape hlength (value.atGap_behindColon _ column) hfirst hpart
    isFresh, hskip⟩

/-- The last entry of a mapping is read, and what follows is left. -/
theorem entriesAreRead_singleton {key value : Node} (hkey : key.isSimpleKey) (h : value.IsRead) :
    EntriesAreRead [(key, value)] := by
  intro column next n rest hsolid hend hfuel r isFresh others
  have hcount := Node.eventCount_of_isSimpleKey hkey
  simp only [eventCountOfEntries, hcount] at hfuel
  obtain ⟨m, rfl⟩ : ∃ m, n = m + 1 := ⟨n - 1, by omega⟩
  have hm : 2 * value.eventCount + 1 < m := by omega
  obtain ⟨after, hentry, hskip⟩ := h.blockEntry hkey hsolid (hend.imp_right .inl) hm r isFresh
  rw [entriesBefore, blockEntries_last hentry hskip hend]
  simp

/-- An entry is read up to the key of the next one. -/
theorem entriesAreRead_cons {key value : Node} {entries : List (Node × Node)}
    (hkey : key.isSimpleKey) (h : value.IsRead) (hsimple : simpleEntries entries)
    (hne : entries ≠ []) (hentries : EntriesAreRead entries) :
    EntriesAreRead ((key, value) :: entries) := by
  intro column next n rest hsolid hend hfuel r isFresh others
  have hcount := Node.eventCount_of_isSimpleKey hkey
  rw [eventCountOfEntries, hcount] at hfuel
  obtain ⟨m, rfl⟩ : ∃ m, n = m + 1 := ⟨n - 1, by omega⟩
  have hm : 2 * value.eventCount + 1 < m := by omega
  have hothers : 2 * eventCountOfEntries entries + 1 ≤ m := by omega
  have hword := isWord_entriesBefore hsimple hne true column next rest
  have htext := entriesBefore_ne_nil hsimple hne column next rest
  obtain ⟨after, hentry, hskip⟩ := h.blockEntry hkey
    (solid_entriesBefore hsimple hne column next rest) (.inr (.inr ⟨rfl, rfl, hword.isItem⟩)) hm r
    isFresh
  obtain ⟨other, entries, rfl⟩ := List.exists_cons_of_ne_nil hne
  rw [entriesBefore, blockEntries_next hentry hskip htext
    (atMark_entriesBefore hsimple hne column next rest), hentries hsolid hend hothers r true]
  simp

mutual

/-- Simple nodes are read where they are written. -/
theorem Node.isRead (node : Node) (h : node.isSimple) : node.IsRead := by
  match node with
  | .scalar style tag text =>
    simp only [Node.isSimple, Bool.and_eq_true, Option.isNone_iff_eq_none] at h
    obtain ⟨rfl, hsuits⟩ := h
    exact Node.isRead_scalar hsuits
  | .sequence [] => exact Node.isRead_noItems
  | .sequence (item :: items) =>
    exact Node.isRead_sequence (List.cons_ne_nil item items)
      (itemsAreRead (item :: items) h (List.cons_ne_nil item items))
  | .mapping [] => exact Node.isRead_noEntries
  | .mapping (entry :: entries) =>
    exact Node.isRead_mapping h (List.cons_ne_nil entry entries)
      (entriesAreRead (entry :: entries) h (List.cons_ne_nil entry entries))

/-- Simple items are read where they are written. -/
theorem itemsAreRead (items : List Node) (h : simpleItems items) (hne : items ≠ []) :
    ItemsAreRead items := by
  match items with
  | [item] =>
    rw [simpleItems, Bool.and_eq_true] at h
    exact itemsAreRead_singleton h.1 (item.isRead h.1)
  | item :: other :: items =>
    rw [simpleItems, Bool.and_eq_true] at h
    exact itemsAreRead_cons h.1 (item.isRead h.1) (List.cons_ne_nil other items)
      (itemsAreRead (other :: items) h.2 (List.cons_ne_nil other items))

/-- Simple entries are read where they are written. -/
theorem entriesAreRead (entries : List (Node × Node)) (h : simpleEntries entries)
    (hne : entries ≠ []) : EntriesAreRead entries := by
  match entries with
  | [(key, value)] =>
    rw [simpleEntries, Bool.and_eq_true, Bool.and_eq_true] at h
    exact entriesAreRead_singleton h.1.1 (value.isRead h.1.2)
  | (key, value) :: other :: entries =>
    rw [simpleEntries, Bool.and_eq_true, Bool.and_eq_true] at h
    exact entriesAreRead_cons h.1.1 (value.isRead h.1.2) h.2 (List.cons_ne_nil other entries)
      (entriesAreRead (other :: entries) h.2 (List.cons_ne_nil other entries))

end

/-! ## Documents -/

/-- Printable characters are kept, and may stand in a document. -/
theorem characters?_of_isPrintable {cs : List Char} (h : ∀ c ∈ cs, isPrintable c) :
    characters? cs = some cs := by
  induction cs with
  | nil => rfl
  | cons c cs ih =>
    rw [List.forall_mem_cons] at h
    have hreturn : c ≠ '\r' := by
      rintro rfl
      exact absurd h.1 (by decide)
    have hbreak : c ≠ '\u0085' := by
      rintro rfl
      exact absurd h.1 (by decide)
    have hallowed : isAllowed c := by
      have hc := h.1
      simp only [isPrintable, isAllowed, Bool.or_eq_true, Bool.and_eq_true, decide_eq_true_eq]
        at hc ⊢
      obtain ((rfl | hc) | hc) | hc := hc
      · exact .inl (.inl (.inl (.inr rfl)))
      · exact .inl (.inl (.inr hc))
      · exact .inl (.inr hc.1)
      · exact .inr hc
    rw [characters?.eq_def]
    split
    · contradiction
    · next heq => exact absurd (List.cons.inj heq).1 hreturn
    · next heq =>
      obtain ⟨rfl, rfl⟩ := List.cons.inj heq
      simp [hreturn, hbreak, hallowed, ih h.2]

/-- No simple node looks like the mark of a document. -/
theorem Node.atMark_before {node : Node} (h : node.isSimple) (column next : Nat)
    (rest : List Char) : atMark (node.before column next rest) = false := by
  match node with
  | .scalar style tag text =>
    simp only [isSimple, Bool.and_eq_true] at h
    rw [before]
    cases style with
    | plain =>
      have hshape : isPlainShape text.toList := h.2
      simp only [isPlainShape, Bool.and_eq_true, Bool.not_eq_true'] at hshape
      exact Plain.atMark_append_eq_false hshape.1.1.2 (.inl rfl)
    | singleQuoted => simp [Style.written, SingleQuoted.singleQuoted_eq, atMark]
    | doubleQuoted | literal | folded => simp [Style.written, doubleQuoted, atMark]
  | .sequence [] | .mapping [] => simp [before, atMark]
  | .sequence [item] | .sequence (item :: other :: items) => simp [before, itemsBefore, atMark]
  | .mapping (entry :: entries) =>
    rw [before]
    exact atMark_entriesBefore h (List.cons_ne_nil entry entries) column next rest

/-- No simple node looks like a directive. -/
theorem Node.isAt_before {node : Node} (h : node.isSimple) (isFresh : Bool) (column next : Nat)
    (rest : List Char) :
    Cursor.isAt ⟨isFresh, column, node.before column next rest⟩ ['%'] = false := by
  match node with
  | .scalar style tag text =>
    simp only [isSimple, Bool.and_eq_true] at h
    rw [before]
    exact Cursor.isAt_eq_false_of_subset (Cursor.isWord_written h.2 _).isAt (by simp)
  | .sequence [] | .mapping [] => simp [before, Cursor.isAt]
  | .sequence [item] | .sequence (item :: other :: items) => simp [before, itemsBefore, Cursor.isAt]
  | .mapping (entry :: entries) =>
    have hword := isWord_entriesBefore h (List.cons_ne_nil entry entries) isFresh column next rest
    rw [before]
    exact Cursor.isAt_eq_false_of_subset hword.isAt (by simp)

/-- The node of a simple document is read up to the end of the text. -/
theorem exists_documentNode {node : Node} (h : node.isSimple) {n : Nat}
    (hfuel : 2 * node.eventCount ≤ n) (r : Reading) :
    ∃ after, documentNode n (r.moveTo ⟨true, 0, node.before 0 0 []⟩) = some (node, r.moveTo after) ∧
      after.skip false = some ⟨true, 0, []⟩ := by
  have hskip : (r.moveTo ⟨true, 0, node.before 0 0 []⟩).skip false =
      some (r.moveTo ⟨true, 0, node.before 0 0 []⟩) :=
    Reading.skip_moveTo (Cursor.skip_of_solid (Node.solid_before h 0 0 [])) r
  have hempty : Solid [] := by simp [Solid]
  obtain ⟨after, hnode, hafter⟩ := (node.isRead h).asNode hempty (.inl rfl) hfuel r false
    (Nat.le_refl 0)
  refine ⟨after, ?_, hafter⟩
  simp [documentNode, hskip, Cursor.isMark, Node.before_ne_nil h, Node.atMark_before h, hnode]

/-- A simple node that is all of a text is read as the document. -/
theorem document?_before {node : Node} (h : node.isSimple) :
    document? (node.before 0 0 []) = some node := by
  have hfuel : 2 * node.eventCount ≤ 8 * (node.before 0 0 []).length + 8 := by
    have hlength := node.eventCount_le_length_before h 0 0 []
    simp only [List.length_nil] at hlength
    omega
  have hskip : Cursor.skip ⟨true, 0, node.before 0 0 []⟩ false =
      some ⟨true, 0, node.before 0 0 []⟩ :=
    Cursor.skip_of_solid (Node.solid_before h 0 0 [])
  have hmark : Cursor.isMark ⟨true, 0, node.before 0 0 []⟩ = false := by
    simp [Cursor.isMark, Node.atMark_before h]
  obtain ⟨after, hnode, hafter⟩ := exists_documentNode h hfuel
    { toCursor := ⟨true, 0, node.before 0 0 []⟩, handles := Directives.allHandles {} }
  have hclosed : isClosed (8 * (node.before 0 0 []).length + 8) after := by
    simp [isClosed, hafter]
  simp only [Reading.moveTo] at hnode
  simp [document?, hskip, Node.isAt_before h, hmark, hnode, hclosed]

/-- The text of a simple document is read as the document. -/
theorem read?_write {node : Node} (h : node.isSimple) : read? node.write = some node := by
  have hprintable : ∀ c ∈ node.before 0 0 [], isPrintable c := fun c hc => by
    simpa using node.isPrintable_of_mem_before h 0 0 [] c hc
  rw [read?, Node.toList_write h, characters?_of_isPrintable hprintable, Option.bind_some,
    document?_before h]

end TaintTrail.Yaml

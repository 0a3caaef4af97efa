import TaintTrail.Proofs.Yaml.Scalar
import TaintTrail.Yaml.Anchor
import TaintTrail.Yaml.Property

/-!
# The layout of written documents

What the text of a document is at each of its nodes, if its scalars are written on one line, its
keys are plain and it has no anchors: the node, and then the next line, from the column where
something follows. The text of a document is that of its lines.
-/

namespace TaintTrail.Yaml

/-! ## Simple documents -/

/-- Whether a node can be written as a key and is read back from that. -/
def Node.isSimpleKey : Node → Bool
  | .scalar .plain none text =>
    isPlainShape text.toList && text.toList.length ≤ Reading.maxKeyLength
  | _ => false

mutual

/-- Whether a node has no anchors and tags, only scalars on one line, and only plain keys. -/
def Node.isSimple : Node → Bool
  | .scalar style tag text => tag.isNone && style.suits text
  | .sequence items => simpleItems items
  | .mapping entries => simpleEntries entries
  | .anchored _ _ => false
  | .alias _ => false

/-- Whether the items of a sequence are simple. -/
def simpleItems : List Node → Bool
  | [] => true
  | item :: rest => item.isSimple && simpleItems rest

/-- Whether the entries of a mapping are simple. -/
def simpleEntries : List (Node × Node) → Bool
  | [] => true
  | (key, value) :: rest => key.isSimpleKey && value.isSimple && simpleEntries rest

end

/-! ## The text at a node -/

/-- What stands behind the colon of a key in a column, if the text of its value is known for each
column where it may start. -/
def Node.behindColon (text : Nat → List Char) (column : Nat) : Node → List Char
  | .sequence (_ :: _) => nextLine column (text column)
  | .mapping (_ :: _) => nextLine (column + 2) (text (column + 2))
  | _ => ' ' :: text column

mutual

/-- A node that starts in a column, and the next line. -/
def Node.before (column next : Nat) (rest : List Char) : Node → List Char
  | .scalar style _ text => style.written text ++ nextLine next rest
  | .sequence [] => '[' :: ']' :: nextLine next rest
  | .sequence (item :: items) => itemsBefore column next rest (item :: items)
  | .mapping [] => '\x7b' :: '\x7d' :: nextLine next rest
  | .mapping (entry :: entries) => entriesBefore column next rest (entry :: entries)
  | .anchored _ _ => []
  | .alias _ => []

/-- Items in a column, and the next line. -/
def itemsBefore (column next : Nat) (rest : List Char) : List Node → List Char
  | [] => rest
  | [item] => '-' :: ' ' :: item.before (column + 2) next rest
  | item :: other :: items =>
    '-' :: ' ' :: item.before (column + 2) column (itemsBefore column next rest (other :: items))

/-- Entries in a column, and the next line. -/
def entriesBefore (column next : Nat) (rest : List Char) : List (Node × Node) → List Char
  | [] => rest
  | [(key, value)] =>
    key.keyText ++ ':' :: value.behindColon (fun start => value.before start next rest) column
  | (key, value) :: other :: entries =>
    let others := entriesBefore column next rest (other :: entries)
    key.keyText ++ ':' :: value.behindColon (fun start => value.before start column others) column

end

/-! ## The lines of a node -/

/-- A line that is not empty, and ends as all but the lines of texts do. -/
structure Line.IsFull (line : Line) : Prop where
  text_ne_nil : line.text ≠ []
  stop_eq : line.stop = '\n'

/-- Lines in a column, and the next line. -/
def linesBefore (column next : Nat) (rest : List Char) : List Line → List Char
  | [] => rest
  | [line] => line.text ++ nextLine next rest
  | line :: other :: lines =>
    line.text ++ nextLine column (linesBefore column next rest (other :: lines))

/-- The first of two groups of lines stands before the second, in the same column. -/
theorem linesBefore_append {lines others : List Line} (h : lines ≠ []) (hothers : others ≠ [])
    (column next : Nat) (rest : List Char) :
    linesBefore column next rest (lines ++ others) =
      linesBefore column column (linesBefore column next rest others) lines := by
  induction lines with
  | nil => contradiction
  | cons line lines ih =>
    cases lines with
    | nil =>
      obtain ⟨other, others, rfl⟩ := List.exists_cons_of_ne_nil hothers
      rfl
    | cons other lines =>
      have hrest := ih (List.cons_ne_nil other lines)
      simp only [List.cons_append, linesBefore] at hrest ⊢
      rw [hrest]

/-- Two spaces at the start of a line move its text two columns on. -/
theorem nextLine_two (column : Nat) (rest : List Char) :
    nextLine column (' ' :: ' ' :: rest) = nextLine (column + 2) rest := by
  simp only [nextLine, List.replicate_succ', List.append_assoc, List.cons_append, List.nil_append]

/-- A full line stays full when it is indented. -/
theorem Line.IsFull.indent {line : Line} (h : line.IsFull) : line.indent.IsFull := by
  have hempty : line.text.isEmpty = false := by simpa using h.text_ne_nil
  simp only [Line.indent, hempty, Bool.false_eq_true, if_false]
  exact ⟨List.cons_ne_nil _ _, h.stop_eq⟩

/-- Only full lines get the two spaces of an indentation. -/
theorem Line.IsFull.text_indent {line : Line} (h : line.IsFull) :
    line.indent.text = ' ' :: ' ' :: line.text := by
  have hempty : line.text.isEmpty = false := by simpa using h.text_ne_nil
  simp only [Line.indent, hempty, Bool.false_eq_true, if_false]

/-- Indented lines are the lines two columns further on. -/
theorem linesBefore_map_indent {lines : List Line} (h : lines ≠ [])
    (hfull : ∀ line ∈ lines, line.IsFull) (column next : Nat) (rest : List Char) :
    linesBefore column next rest (lines.map Line.indent) =
      ' ' :: ' ' :: linesBefore (column + 2) next rest lines := by
  induction lines with
  | nil => contradiction
  | cons line lines ih =>
    have hline : line.IsFull := hfull line List.mem_cons_self
    cases lines with
    | nil =>
      simp only [List.map_cons, List.map_nil, linesBefore, hline.text_indent, List.cons_append]
    | cons other lines =>
      have hrest := ih (List.cons_ne_nil other lines) fun l hl =>
        hfull l (List.mem_cons_of_mem _ hl)
      simp only [List.map_cons, linesBefore, hline.text_indent, List.cons_append] at hrest ⊢
      rw [hrest, nextLine_two]

/-- What stands behind an opening of two columns starts two columns further on. -/
theorem linesBefore_behind {lines : List Line} (h : lines ≠ [])
    (hfull : ∀ line ∈ lines, line.IsFull) (opening : List Char) (column next : Nat)
    (rest : List Char) :
    linesBefore column next rest (behind opening lines) =
      opening ++ linesBefore (column + 2) next rest lines := by
  match lines with
  | [line] => simp [behind, linesBefore]
  | line :: other :: lines =>
    have hrest := linesBefore_map_indent (List.cons_ne_nil other lines)
      (fun l hl => hfull l (List.mem_cons_of_mem _ hl)) column next rest
    simp only [behind, List.map_cons, linesBefore, List.append_assoc] at hrest ⊢
    rw [hrest, nextLine_two]

/-- An opening with something in it makes no line empty. -/
theorem isFull_of_mem_behind {opening : List Char} {lines : List Line} (h : opening ≠ [])
    (hfull : ∀ line ∈ lines, line.IsFull) : ∀ line ∈ behind opening lines, line.IsFull := by
  cases lines with
  | nil => simpa [behind] using ⟨h, rfl⟩
  | cons first lines =>
    rw [List.forall_mem_cons] at hfull
    rw [behind, List.forall_mem_cons]
    refine ⟨⟨by simp [h], hfull.1.stop_eq⟩, ?_⟩
    rintro line hline
    obtain ⟨l, hl, rfl⟩ := List.mem_map.mp hline
    exact (hfull.2 l hl).indent

/-- An opening stands on a line even if nothing is behind it. -/
theorem behind_ne_nil (opening : List Char) (lines : List Line) : behind opening lines ≠ [] := by
  cases lines <;> simp [behind]

/-- No style writes a text it suits as nothing at all: the empty text needs quotes. -/
theorem Style.written_ne_nil {style : Style} {text : String} (h : style.suits text) :
    style.written text ≠ [] := by
  cases style with
  | plain =>
    intro hnil
    simp only [written] at hnil
    simp [suits, hnil, isPlainShape, startsPlainly] at h
  | singleQuoted => simp [written, SingleQuoted.singleQuoted_eq]
  | doubleQuoted | literal | folded => simp [written, Yaml.doubleQuoted]

/-- A simple key is a plain text that is short enough for a key. -/
theorem Node.exists_of_isSimpleKey {key : Node} (h : key.isSimpleKey) :
    ∃ text : String, key = .plain text ∧ isPlainShape text.toList ∧
      text.toList.length ≤ Reading.maxKeyLength := by
  match key with
  | .scalar .plain none text =>
    simp only [isSimpleKey, Bool.and_eq_true, decide_eq_true_eq] at h
    exact ⟨text, rfl, h⟩

/-- The lines of an entry. -/
def linesOfEntry (key value : Node) : List Line :=
  match value with
  | .sequence (_ :: _) => ⟨key.keyText ++ [':'], '\n'⟩ :: value.lines
  | .mapping (_ :: _) => ⟨key.keyText ++ [':'], '\n'⟩ :: value.lines.map Line.indent
  | _ => behind (key.keyText ++ [':', ' ']) value.lines

/-- The lines of entries are those of the first one and then those of the others. -/
theorem entryLines_cons (key value : Node) (entries : List (Node × Node)) :
    entryLines ((key, value) :: entries) = linesOfEntry key value ++ entryLines entries := by
  match value with
  | .scalar _ _ _ | .anchored _ _ | .alias _ | .sequence [] | .mapping [] =>
    simp [entryLines, linesOfEntry]
  | .sequence (item :: items) => simp [entryLines, linesOfEntry, Node.lines]
  | .mapping (entry :: entries) => simp [entryLines, linesOfEntry, Node.lines]

/-- An entry has at least the line of its key. -/
theorem linesOfEntry_ne_nil (key value : Node) : linesOfEntry key value ≠ [] := by
  unfold linesOfEntry
  split <;> simp [behind_ne_nil]

/-- The lines of an entry are full if those of its value are, since the key's line has a colon. -/
theorem isFull_of_mem_linesOfEntry (key : Node) {value : Node}
    (h : ∀ line ∈ value.lines, line.IsFull) : ∀ line ∈ linesOfEntry key value, line.IsFull := by
  unfold linesOfEntry
  split
  · exact List.forall_mem_cons.mpr ⟨⟨by simp, rfl⟩, h⟩
  · refine List.forall_mem_cons.mpr ⟨⟨by simp, rfl⟩, ?_⟩
    rintro line hline
    obtain ⟨l, hl, rfl⟩ := List.mem_map.mp hline
    exact (h l hl).indent
  · exact isFull_of_mem_behind (by simp) h

/-- Items have lines. -/
theorem itemLines_ne_nil {items : List Node} (h : items ≠ []) : itemLines items ≠ [] := by
  obtain ⟨item, items, rfl⟩ := List.exists_cons_of_ne_nil h
  simp [itemLines, behind_ne_nil]

/-- Entries have lines. -/
theorem entryLines_ne_nil {entries : List (Node × Node)} (h : entries ≠ []) :
    entryLines entries ≠ [] := by
  obtain ⟨⟨key, value⟩, entries, rfl⟩ := List.exists_cons_of_ne_nil h
  simp [entryLines_cons, linesOfEntry_ne_nil]

/-- A simple node has lines; an empty collection has that of its brackets. -/
theorem Node.lines_ne_nil {node : Node} (h : node.isSimple) : node.lines ≠ [] := by
  match node with
  | .scalar style tag text =>
    simp only [isSimple, Bool.and_eq_true] at h
    simp [lines, scalarLines_eq h.2]
  | .sequence [] | .mapping [] => simp [lines]
  | .sequence (item :: items) => simpa [lines] using itemLines_ne_nil (List.cons_ne_nil item items)
  | .mapping (entry :: entries) =>
    simpa [lines] using entryLines_ne_nil (List.cons_ne_nil entry entries)

mutual

/-- No line of a simple node is empty, by induction on the node. -/
theorem Node.isFull_of_mem_lines (node : Node) (h : node.isSimple) :
    ∀ line ∈ node.lines, line.IsFull := by
  match node with
  | .scalar style tag text =>
    simp only [Node.isSimple, Bool.and_eq_true] at h
    simpa [Node.lines, scalarLines_eq h.2] using ⟨Style.written_ne_nil h.2, rfl⟩
  | .sequence items =>
    have hitems := isFull_of_mem_itemLines items h
    rw [Node.lines]
    split
    · simpa using ⟨by simp, rfl⟩
    · exact hitems
  | .mapping entries =>
    have hentries := isFull_of_mem_entryLines entries h
    rw [Node.lines]
    split
    · simpa using ⟨by simp, rfl⟩
    · exact hentries

/-- No line of simple items is empty. -/
theorem isFull_of_mem_itemLines (items : List Node) (h : simpleItems items) :
    ∀ line ∈ itemLines items, line.IsFull := by
  match items with
  | [] => simp [itemLines]
  | item :: items =>
    simp only [simpleItems, Bool.and_eq_true] at h
    rw [itemLines, List.forall_mem_append]
    exact ⟨isFull_of_mem_behind (by simp) (item.isFull_of_mem_lines h.1),
      isFull_of_mem_itemLines items h.2⟩

/-- No line of simple entries is empty. -/
theorem isFull_of_mem_entryLines (entries : List (Node × Node)) (h : simpleEntries entries) :
    ∀ line ∈ entryLines entries, line.IsFull := by
  match entries with
  | [] => simp [entryLines]
  | (key, value) :: entries =>
    simp only [simpleEntries, Bool.and_eq_true] at h
    rw [entryLines_cons, List.forall_mem_append]
    exact ⟨isFull_of_mem_linesOfEntry key (value.isFull_of_mem_lines h.1.2),
      isFull_of_mem_entryLines entries h.2⟩

end

/-- The lines of an entry are its key and what stands behind the colon. -/
theorem linesBefore_linesOfEntry (key : Node) {value : Node} (h : value.isSimple)
    (column next : Nat) (rest : List Char) :
    linesBefore column next rest (linesOfEntry key value) =
      key.keyText ++ ':' ::
        value.behindColon (fun start => linesBefore start next rest value.lines) column := by
  have hne : value.lines ≠ [] := Node.lines_ne_nil h
  -- What is written behind the colon is a single line.
  have hinline : ∀ line, value.lines = [line] →
      linesBefore column next rest (behind (key.keyText ++ [':', ' ']) value.lines) =
        key.keyText ++ ':' :: ' ' :: linesBefore column next rest value.lines := by
    intro line hline
    simp [hline, behind, linesBefore]
  match value with
  | .scalar style tag text =>
    simp only [Node.isSimple, Bool.and_eq_true] at h
    exact hinline _ (scalarLines_eq h.2)
  | .sequence [] | .mapping [] => exact hinline _ rfl
  | .sequence (item :: items) =>
    have hlines := linesBefore_append (List.cons_ne_nil (Line.mk (key.keyText ++ [':']) '\n') [])
      hne column next rest
    simpa [linesOfEntry, Node.behindColon, linesBefore] using hlines
  | .mapping (entry :: entries) =>
    have hlines := linesBefore_append (List.cons_ne_nil (Line.mk (key.keyText ++ [':']) '\n') [])
      (by simpa using hne : (Node.mapping (entry :: entries)).lines.map Line.indent ≠ [])
      column next rest
    have hindent := linesBefore_map_indent hne (Node.isFull_of_mem_lines _ h) column next rest
    rw [hindent] at hlines
    simpa [linesOfEntry, Node.behindColon, linesBefore, nextLine_two] using hlines

mutual

/-- The lines of a simple node are its text. -/
theorem Node.linesBefore_lines (node : Node) (h : node.isSimple) (column next : Nat)
    (rest : List Char) :
    linesBefore column next rest node.lines = node.before column next rest := by
  match node with
  | .scalar style tag text =>
    simp only [Node.isSimple, Bool.and_eq_true] at h
    simp [Node.lines, scalarLines_eq h.2, linesBefore, Node.before]
  | .sequence [] | .mapping [] => simp [Node.lines, linesBefore, Node.before]
  | .sequence (item :: items) =>
    simpa [Node.lines, Node.before] using
      linesBefore_itemLines (item :: items) h (List.cons_ne_nil item items) column next rest
  | .mapping (entry :: entries) =>
    simpa [Node.lines, Node.before] using
      linesBefore_entryLines (entry :: entries) h (List.cons_ne_nil entry entries) column next rest

/-- The lines of simple items are their text. -/
theorem linesBefore_itemLines (items : List Node) (h : simpleItems items) (hne : items ≠ [])
    (column next : Nat) (rest : List Char) :
    linesBefore column next rest (itemLines items) = itemsBefore column next rest items := by
  match items with
  | [item] =>
    simp only [simpleItems, Bool.and_eq_true] at h
    rw [itemLines, itemLines, List.append_nil, linesBefore_behind (Node.lines_ne_nil h.1)
      (item.isFull_of_mem_lines h.1), item.linesBefore_lines h.1, itemsBefore]
    rfl
  | item :: other :: items =>
    rw [simpleItems, Bool.and_eq_true] at h
    have hothers := linesBefore_itemLines (other :: items) h.2 (List.cons_ne_nil other items) column
      next rest
    rw [itemLines, linesBefore_append (behind_ne_nil _ _)
      (itemLines_ne_nil (List.cons_ne_nil other items)), hothers,
      linesBefore_behind (Node.lines_ne_nil h.1) (item.isFull_of_mem_lines h.1),
      item.linesBefore_lines h.1, itemsBefore]
    rfl

/-- The lines of simple entries are their text. -/
theorem linesBefore_entryLines (entries : List (Node × Node)) (h : simpleEntries entries)
    (hne : entries ≠ []) (column next : Nat) (rest : List Char) :
    linesBefore column next rest (entryLines entries) = entriesBefore column next rest entries := by
  match entries with
  | [(key, value)] =>
    simp only [simpleEntries, Bool.and_eq_true] at h
    rw [entryLines_cons, entryLines, List.append_nil, linesBefore_linesOfEntry key h.1.2,
      entriesBefore]
    simp only [value.linesBefore_lines h.1.2]
  | (key, value) :: other :: entries =>
    rw [simpleEntries, Bool.and_eq_true, Bool.and_eq_true] at h
    have hothers := linesBefore_entryLines (other :: entries) h.2 (List.cons_ne_nil other entries)
      column next rest
    rw [entryLines_cons, linesBefore_append (linesOfEntry_ne_nil key value)
      (entryLines_ne_nil (List.cons_ne_nil other entries)), hothers,
      linesBefore_linesOfEntry key h.1.2, entriesBefore]
    simp only [value.linesBefore_lines h.1.2]

end

/-- The text of a document is that of its lines from the first column on, with nothing behind them.
-/
theorem flatMap_chars {lines : List Line} (hfull : ∀ line ∈ lines, line.IsFull) :
    lines.flatMap Line.chars = linesBefore 0 0 [] lines := by
  induction lines with
  | nil => rfl
  | cons line lines ih =>
    rw [List.forall_mem_cons] at hfull
    have hrest := ih hfull.2
    cases lines with
    | nil => simp [Line.chars, linesBefore, nextLine, hfull.1.stop_eq]
    | cons other lines =>
      rw [List.flatMap_cons, hrest]
      simp [Line.chars, linesBefore, nextLine, hfull.1.stop_eq]

/-- A document is its node, with nothing behind it. -/
theorem Node.toList_write {node : Node} (h : node.isSimple) :
    node.write.toList = node.before 0 0 [] := by
  rw [write, String.toList_ofList, flatMap_chars (node.isFull_of_mem_lines h),
    node.linesBefore_lines h]

/-! ## The start of a node -/

/-- A shown character that is neither a space nor a hash can start a node. -/
theorem isSolid_of_isShown {c : Char} (h : isShown c) (hspace : c ≠ ' ') (hhash : c ≠ '#') :
    isSolid c := by
  have hblank := not_isBlank_of_isShown h hspace
  have hmark : c ≠ '\ufeff' := by
    rintro rfl
    exact absurd h (by decide)
  simp only [isBlank, Bool.or_eq_false_iff, decide_eq_false_iff_not] at hblank
  simp [isSolid, not_isBreak_of_isShown h, hhash, hspace, hblank.2, hmark]

/-- What starts with a plain scalar starts with a character that is no blank or comment. -/
theorem solid_append_of_isPlainShape {cs : List Char} (h : isPlainShape cs) (tail : List Char) :
    Solid (cs ++ tail) := by
  simp only [isPlainShape, Bool.and_eq_true] at h
  obtain ⟨⟨⟨⟨hshown, hstart⟩, -⟩, -⟩, -⟩ := h
  cases cs with
  | nil => simp [startsPlainly] at hstart
  | cons c cs =>
    have hc : isShown c := (List.all_eq_true.mp hshown) c List.mem_cons_self
    simp only [startsPlainly] at hstart
    have hplain : c ≠ ' ' ∧ c ≠ '#' := by
      constructor <;> rintro rfl <;> simp [isIndicator] at hstart
    rintro d hd
    obtain rfl : c = d := by simpa using hd
    exact isSolid_of_isShown hc hplain.1 hplain.2

/-- So does what starts with a scalar in any of the styles. -/
theorem Style.solid_written_append {style : Style} {text : String} (h : style.suits text)
    (tail : List Char) : Solid (style.written text ++ tail) := by
  cases style with
  | plain => exact solid_append_of_isPlainShape h tail
  | singleQuoted => simp [written, SingleQuoted.singleQuoted_eq, Solid, isSolid, isBreak]
  | doubleQuoted | literal | folded =>
    simp [written, Yaml.doubleQuoted, Solid, isSolid, isBreak]

/-- Items start with a dash. -/
theorem solid_itemsBefore {items : List Node} (h : items ≠ []) (column next : Nat)
    (rest : List Char) : Solid (itemsBefore column next rest items) := by
  match items with
  | [item] | item :: other :: items => simp [itemsBefore, Solid, isSolid, isBreak]

/-- The colon of a key is followed by a blank or the end of its line. -/
theorem Node.atGap_behindColon (value : Node) (text : Nat → List Char) (column : Nat) :
    atGap (value.behindColon text column) := by
  unfold behindColon
  split <;> simp [nextLine, atGap, isBlank, isBreak]

/-- Entries start with a plain key and a colon, behind which is a gap. -/
theorem exists_entriesBefore_eq {entries : List (Node × Node)} (h : simpleEntries entries)
    (hne : entries ≠ []) (column next : Nat) (rest : List Char) :
    ∃ (text : String) (tail : List Char),
      entriesBefore column next rest entries = text.toList ++ ':' :: tail ∧
      isPlainShape text.toList ∧ text.toList.length ≤ Reading.maxKeyLength ∧ atGap tail := by
  match entries with
  | [(key, value)] | (key, value) :: other :: entries =>
    rw [simpleEntries, Bool.and_eq_true, Bool.and_eq_true] at h
    obtain ⟨text, rfl, hshape, hlength⟩ := Node.exists_of_isSimpleKey h.1.1
    exact ⟨text, _, by rw [entriesBefore]; rfl, hshape, hlength, value.atGap_behindColon _ column⟩

/-- Entries are written as some text. -/
theorem entriesBefore_ne_nil {entries : List (Node × Node)} (h : simpleEntries entries)
    (hne : entries ≠ []) (column next : Nat) (rest : List Char) :
    entriesBefore column next rest entries ≠ [] := by
  obtain ⟨text, tail, heq, -⟩ := exists_entriesBefore_eq h hne column next rest
  simp [heq]

/-- Entries start with the text of a key. -/
theorem solid_entriesBefore {entries : List (Node × Node)} (h : simpleEntries entries)
    (hne : entries ≠ []) (column next : Nat) (rest : List Char) :
    Solid (entriesBefore column next rest entries) := by
  obtain ⟨text, tail, heq, hshape, -⟩ := exists_entriesBefore_eq h hne column next rest
  rw [heq]
  exact solid_append_of_isPlainShape hshape _

/-- The text of a simple node starts with the node, with nothing to skip. -/
theorem Node.solid_before {node : Node} (h : node.isSimple) (column next : Nat)
    (rest : List Char) : Solid (node.before column next rest) := by
  match node with
  | .scalar style tag text =>
    simp only [isSimple, Bool.and_eq_true] at h
    rw [before]
    exact Style.solid_written_append h.2 _
  | .sequence [] | .mapping [] => simp [before, Solid, isSolid, isBreak]
  | .sequence (item :: items) =>
    rw [before]
    exact solid_itemsBefore (List.cons_ne_nil item items) column next rest
  | .mapping (entry :: entries) =>
    rw [before]
    exact solid_entriesBefore h (List.cons_ne_nil entry entries) column next rest

/-! ## The characters of a node -/

/-- A line break and an indentation are printable. -/
theorem isPrintable_of_mem_nextLine {column : Nat} {rest : List Char} {c : Char}
    (hc : c ∈ nextLine column rest) : isPrintable c ∨ c ∈ rest := by
  rw [nextLine, List.mem_cons, List.mem_append, List.mem_replicate] at hc
  obtain rfl | ⟨-, rfl⟩ | hc := hc
  · exact .inl (by decide)
  · exact .inl (by decide)
  · exact .inr hc

/-- Shown characters are printable. -/
theorem isPrintable_of_isShown {c : Char} (h : isShown c) : isPrintable c := by
  rw [isShown, Bool.and_eq_true] at h
  exact h.1

/-- What stands behind a colon is printable, apart from the text of the value. -/
theorem Node.mem_behindColon {value : Node} {text : Nat → List Char} {column : Nat} {c : Char}
    (hc : c ∈ value.behindColon text column) : isPrintable c ∨ ∃ start, c ∈ text start := by
  unfold behindColon at hc
  split at hc
  · exact (isPrintable_of_mem_nextLine hc).imp_right fun h => ⟨_, h⟩
  · exact (isPrintable_of_mem_nextLine hc).imp_right fun h => ⟨_, h⟩
  · obtain rfl | hc := List.mem_cons.mp hc
    · exact .inl (by decide)
    · exact .inr ⟨_, hc⟩

/-- What stands in an entry is printable, apart from the text of the value. -/
theorem Node.mem_entry {key value : Node} {text : Nat → List Char} {column : Nat} {c : Char}
    (hkey : key.isSimpleKey) (hc : c ∈ key.keyText ++ ':' :: value.behindColon text column) :
    isPrintable c ∨ ∃ start, c ∈ text start := by
  obtain ⟨name, rfl, hshape, -⟩ := exists_of_isSimpleKey hkey
  simp only [isPlainShape, Bool.and_eq_true] at hshape
  rw [List.mem_append, List.mem_cons] at hc
  obtain hc | rfl | hc := hc
  · exact .inl (isPrintable_of_isShown (List.all_eq_true.mp hshape.1.1.1.1 c hc))
  · exact .inl (by decide)
  · exact mem_behindColon hc

mutual

/-- A simple node is written in printable characters, by induction on the node. -/
theorem Node.isPrintable_of_mem_before (node : Node) (h : node.isSimple) (column next : Nat)
    (rest : List Char) (c : Char) (hc : c ∈ node.before column next rest) :
    isPrintable c ∨ c ∈ rest := by
  match node with
  | .scalar style tag text =>
    simp only [Node.isSimple, Bool.and_eq_true] at h
    rw [Node.before, List.mem_append] at hc
    exact hc.elim (fun hc => .inl (isPrintable_of_isShown (isShown_of_mem_written h.2 hc)))
      isPrintable_of_mem_nextLine
  | .sequence [] | .mapping [] =>
    rw [Node.before, List.mem_cons, List.mem_cons] at hc
    obtain rfl | rfl | hc := hc
    · exact .inl (by decide)
    · exact .inl (by decide)
    · exact isPrintable_of_mem_nextLine hc
  | .sequence (item :: items) =>
    rw [Node.before] at hc
    exact isPrintable_of_mem_itemsBefore (item :: items) h column next rest c hc
  | .mapping (entry :: entries) =>
    rw [Node.before] at hc
    exact isPrintable_of_mem_entriesBefore (entry :: entries) h column next rest c hc

/-- Simple items are written in printable characters. -/
theorem isPrintable_of_mem_itemsBefore (items : List Node) (h : simpleItems items)
    (column next : Nat) (rest : List Char) (c : Char)
    (hc : c ∈ itemsBefore column next rest items) : isPrintable c ∨ c ∈ rest := by
  have hdash : ∀ text, c ∈ '-' :: ' ' :: text → isPrintable c ∨ c ∈ text := by
    intro text htext
    obtain rfl | rfl | htext := (List.mem_cons.mp htext).imp_right List.mem_cons.mp
    · exact .inl (by decide)
    · exact .inl (by decide)
    · exact .inr htext
  match items with
  | [] => exact .inr (by rwa [itemsBefore] at hc)
  | [item] =>
    rw [simpleItems, Bool.and_eq_true] at h
    rw [itemsBefore] at hc
    exact (hdash _ hc).elim .inl (item.isPrintable_of_mem_before h.1 _ _ _ c)
  | item :: other :: items =>
    rw [simpleItems, Bool.and_eq_true] at h
    rw [itemsBefore] at hc
    obtain hc | hc := (hdash _ hc).imp_right (item.isPrintable_of_mem_before h.1 _ _ _ c)
    · exact .inl hc
    · exact hc.elim .inl (isPrintable_of_mem_itemsBefore (other :: items) h.2 _ _ _ c)

/-- Simple entries are written in printable characters. -/
theorem isPrintable_of_mem_entriesBefore (entries : List (Node × Node))
    (h : simpleEntries entries) (column next : Nat) (rest : List Char) (c : Char)
    (hc : c ∈ entriesBefore column next rest entries) : isPrintable c ∨ c ∈ rest := by
  match entries with
  | [] => exact .inr (by rwa [entriesBefore] at hc)
  | [(key, value)] =>
    rw [simpleEntries, Bool.and_eq_true, Bool.and_eq_true] at h
    rw [entriesBefore] at hc
    obtain hc | ⟨start, hc⟩ := Node.mem_entry h.1.1 hc
    · exact .inl hc
    · exact value.isPrintable_of_mem_before h.1.2 _ _ _ c hc
  | (key, value) :: other :: entries =>
    rw [simpleEntries, Bool.and_eq_true, Bool.and_eq_true] at h
    rw [entriesBefore] at hc
    obtain hc | ⟨start, hc⟩ := Node.mem_entry h.1.1 hc
    · exact .inl hc
    · exact (value.isPrintable_of_mem_before h.1.2 _ _ _ c hc).elim .inl
        (isPrintable_of_mem_entriesBefore (other :: entries) h.2 _ _ _ c)

end

/-! ## The length of a node -/

/-- A line break takes a character. -/
theorem length_lt_length_nextLine (column : Nat) (rest : List Char) :
    rest.length < (nextLine column rest).length := by
  simp only [nextLine, List.length_cons, List.length_append, List.length_replicate]
  omega

/-- What stands behind a colon is longer than the text of the value, wherever that starts. -/
theorem Node.exists_length_behindColon (value : Node) (text : Nat → List Char) (column : Nat) :
    ∃ start, (text start).length < (value.behindColon text column).length := by
  unfold behindColon
  split
  · exact ⟨column, length_lt_length_nextLine column (text column)⟩
  · exact ⟨column + 2, length_lt_length_nextLine (column + 2) (text (column + 2))⟩
  · exact ⟨column, by simp⟩

/-- An entry is longer than its key's event and the text of its value, by the colon and what is
behind it. -/
theorem Node.exists_length_entry {key : Node} (h : key.isSimpleKey) (text : Nat → List Char)
    (value : Node) (column : Nat) :
    ∃ start, key.eventCount + (text start).length + 2 ≤
      (key.keyText ++ ':' :: value.behindColon text column).length := by
  obtain ⟨name, rfl, hshape, -⟩ := exists_of_isSimpleKey h
  obtain ⟨start, hvalue⟩ := value.exists_length_behindColon text column
  have hsuits : Style.suits name .plain := hshape
  have hname : 0 < name.toList.length := List.length_pos_iff.mpr (Style.written_ne_nil hsuits)
  refine ⟨start, ?_⟩
  simp only [plain, keyText, eventCount, List.length_append, List.length_cons]
  omega

mutual

/-- A simple node has at most as many events as characters, by induction on the node, so that
the calls the reader may make are enough for it. -/
theorem Node.eventCount_le_length_before (node : Node) (h : node.isSimple) (column next : Nat)
    (rest : List Char) :
    node.eventCount + rest.length ≤ (node.before column next rest).length := by
  match node with
  | .scalar style tag text =>
    have hnext := length_lt_length_nextLine next rest
    simp only [Node.before, Node.eventCount, List.length_append]
    omega
  | .sequence [] | .mapping [] =>
    have hnext := length_lt_length_nextLine next rest
    simp only [Node.before, Node.eventCount, eventCountOfItems, eventCountOfEntries,
      List.length_cons]
    omega
  | .sequence (item :: items) =>
    have hitems := eventCount_le_length_itemsBefore (item :: items) h column next rest
    simp only [Node.before, Node.eventCount, List.length_cons] at hitems ⊢
    omega
  | .mapping (entry :: entries) =>
    have hentries := eventCount_le_length_entriesBefore (entry :: entries) h column next rest
    simp only [Node.before, Node.eventCount, List.length_cons] at hentries ⊢
    omega

/-- Each item has two characters more than it has events, those of its dash. -/
theorem eventCount_le_length_itemsBefore (items : List Node) (h : simpleItems items)
    (column next : Nat) (rest : List Char) :
    eventCountOfItems items + 2 * items.length + rest.length ≤
      (itemsBefore column next rest items).length := by
  match items with
  | [] => simp [eventCountOfItems, itemsBefore]
  | [item] =>
    rw [simpleItems, Bool.and_eq_true] at h
    have hitem := item.eventCount_le_length_before h.1 (column + 2) next rest
    simp only [eventCountOfItems, itemsBefore, List.length_cons, List.length_nil]
    omega
  | item :: other :: items =>
    rw [simpleItems, Bool.and_eq_true] at h
    have hothers := eventCount_le_length_itemsBefore (other :: items) h.2 column next rest
    have hitem := item.eventCount_le_length_before h.1 (column + 2) column
      (itemsBefore column next rest (other :: items))
    rw [eventCountOfItems, itemsBefore]
    simp only [List.length_cons] at hothers ⊢
    omega

/-- Each entry has two characters more than it has events, as counted for one entry. -/
theorem eventCount_le_length_entriesBefore (entries : List (Node × Node))
    (h : simpleEntries entries) (column next : Nat) (rest : List Char) :
    eventCountOfEntries entries + 2 * entries.length + rest.length ≤
      (entriesBefore column next rest entries).length := by
  match entries with
  | [] => simp [eventCountOfEntries, entriesBefore]
  | [(key, value)] =>
    rw [simpleEntries, Bool.and_eq_true, Bool.and_eq_true] at h
    obtain ⟨start, hentry⟩ := Node.exists_length_entry h.1.1
      (fun start => value.before start next rest) value column
    have hvalue := value.eventCount_le_length_before h.1.2 start next rest
    simp only [eventCountOfEntries, entriesBefore, List.length_cons, List.length_nil]
    omega
  | (key, value) :: other :: entries =>
    rw [simpleEntries, Bool.and_eq_true, Bool.and_eq_true] at h
    have hothers := eventCount_le_length_entriesBefore (other :: entries) h.2 column next rest
    obtain ⟨start, hentry⟩ := Node.exists_length_entry h.1.1
      (fun start => value.before start column (entriesBefore column next rest (other :: entries)))
      value column
    have hvalue := value.eventCount_le_length_before h.1.2 start column
      (entriesBefore column next rest (other :: entries))
    rw [eventCountOfEntries, entriesBefore]
    simp only [List.length_cons] at hothers ⊢
    omega

end

/-- A simple key is one event. -/
theorem Node.eventCount_of_isSimpleKey {key : Node} (h : key.isSimpleKey) : key.eventCount = 1 := by
  obtain ⟨text, rfl, -⟩ := exists_of_isSimpleKey h
  rfl

/-- Every simple node has an event. -/
theorem Node.eventCount_pos {node : Node} (h : node.isSimple) : 0 < node.eventCount := by
  match node with
  | .scalar _ _ _ | .sequence _ | .mapping _ => simp [eventCount]

/-- Every simple node is written as some text. -/
theorem Node.before_ne_nil {node : Node} (h : node.isSimple) (column next : Nat)
    (rest : List Char) : node.before column next rest ≠ [] := by
  have hlength := node.eventCount_le_length_before h column next rest
  have hpos := eventCount_pos h
  exact List.ne_nil_of_length_pos (by omega)

end TaintTrail.Yaml

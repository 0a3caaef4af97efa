import TaintTrail.Yaml.Printer
import TaintTrail.Yaml.Scalar

/-!
# Reading scalars that were written

A scalar that is written on one line is read back as the same text in the same style, whatever lines
follow that cannot continue it. A plain scalar is continued by lines that start far enough to the
right, and reading it ends at the next line; reading a quoted scalar ends behind its quote. Both
lead to the same place once blanks are skipped.
-/

namespace TaintTrail.Yaml

/-! ## From one line to the next -/

/-- Whether a character is neither blank nor the end of a line nor the start of a comment. -/
def isSolid (c : Char) : Bool :=
  !isBreak c && c ≠ '#' && c ≠ ' ' && c ≠ '\t' && c ≠ '\ufeff'

/-- A text that is at its end or starts with a solid character. -/
def Solid (rest : List Char) : Prop := ∀ c ∈ rest.head?, isSolid c

/-- The end of a line, and the next line from a column on. -/
def nextLine (column : Nat) (rest : List Char) : List Char :=
  '\n' :: (List.replicate column ' ' ++ rest)

namespace Cursor

/-- Nothing is skipped before a solid character. -/
theorem skipFrom_of_solid {inFlow isFresh : Bool} {column : Nat} {rest : List Char}
    (h : Solid rest) :
    skipFrom inFlow isFresh false column rest = some ⟨isFresh, column, rest⟩ := by
  cases rest with
  | nil => rfl
  | cons c rest =>
    have hc : isSolid c := h c rfl
    simp only [isSolid, Bool.and_eq_true, Bool.not_eq_true', decide_eq_true_eq] at hc
    simp [skipFrom, hc]

/-- Spaces are skipped, and move the column. -/
theorem skipFrom_replicate (inFlow isFresh : Bool) (column count : Nat) (rest : List Char) :
    skipFrom inFlow isFresh false column (List.replicate count ' ' ++ rest) =
      skipFrom inFlow isFresh false (column + count) rest := by
  induction count generalizing column with
  | zero => rfl
  | succ count ih =>
    rw [List.replicate_succ, List.cons_append, skipFrom]
    simp [isBreak, ih, Nat.add_right_comm, Nat.add_assoc]

/-- A cursor at a solid character stays there. -/
theorem skip_of_solid {isFresh inFlow : Bool} {column : Nat} {rest : List Char} (h : Solid rest) :
    skip ⟨isFresh, column, rest⟩ inFlow = some ⟨isFresh, column, rest⟩ :=
  skipFrom_of_solid h

/-- At the end of a line, a cursor moves to the text of the next one, which is fresh. -/
theorem skip_nextLine {isFresh : Bool} {column next : Nat} {rest : List Char} (h : Solid rest) :
    skip ⟨isFresh, column, nextLine next rest⟩ false = some ⟨true, next, rest⟩ := by
  have hbreak : skip ⟨isFresh, column, nextLine next rest⟩ false =
      skipFrom false true false 0 (List.replicate next ' ' ++ rest) := by
    simp [skip, nextLine, skipFrom, isBreak]
  rw [hbreak, skipFrom_replicate, skipFrom_of_solid h, Nat.zero_add]

end Cursor

/-! ## Plain scalars -/

/-- Whether a character stands for itself inside a line. -/
def isShown (c : Char) : Bool := isPrintable c && !isBreak c

/-- Whether a text is read back as it is when it is written plainly, whatever it stands for. -/
def isPlainShape (cs : List Char) : Bool :=
  cs.all isShown && startsPlainly cs && !startsLikeMark cs && cs.getLast? ≠ some ' '
    && hasNoSeparator true cs

/-- What is written plainly is read back as it is. -/
theorem isPlainShape_of_isPlainText {text : String} (h : isPlainText text) :
    isPlainShape text.toList := by
  simp only [isPlainText, Bool.and_eq_true] at h
  obtain ⟨⟨⟨⟨⟨-, hshown⟩, hstart⟩, hmark⟩, hlast⟩, hseparator⟩ := h
  simp only [isPlainShape, Bool.and_eq_true]
  exact ⟨⟨⟨⟨hshown, hstart⟩, hmark⟩, hlast⟩, hseparator⟩

/-- Whether a text starts with a gap depends on its first character only. -/
theorem atGap_append_of_ne_nil {cs : List Char} (h : cs ≠ []) (tail : List Char) :
    atGap (cs ++ tail) = atGap cs := by
  obtain ⟨c, cs, rfl⟩ := List.exists_cons_of_ne_nil h
  rfl

/-- A character that stands for itself does not end the line. -/
theorem not_isBreak_of_isShown {c : Char} (h : isShown c) : isBreak c = false := by
  simp only [isShown, Bool.and_eq_true, Bool.not_eq_true'] at h
  exact h.2

/-- The printable ASCII characters stand for themselves. -/
theorem isShown_of_ascii {c : Char} (hlow : 0x20 ≤ c.toNat) (hhigh : c.toNat ≤ 0x7E) :
    isShown c := by
  have hne : ∀ d : Char, (d.toNat < 0x20 ∨ 0x7E < d.toNat) → c ≠ d := by
    rintro d hd rfl
    omega
  simp [isShown, isPrintable, hlow, hhigh, isBreak, hne '\n' (by decide),
    hne '\u2028' (by decide), hne '\u2029' (by decide)]

/-- The only shown character that is blank is the space. -/
theorem not_isBlank_of_isShown {c : Char} (h : isShown c) (hspace : c ≠ ' ') :
    isBlank c = false := by
  have htab : c ≠ '\t' := by
    rintro rfl
    exact absurd h (by decide)
  simp [isBlank, hspace, htab]

namespace Plain

variable {least column : Nat} {text blanks cs tail : List Char}

/-- A space is kept until it is known whether a word follows. -/
theorem scan_space (rest : List Char) :
    scan false least text (.blanks blanks) false column (' ' :: rest) =
      scan false least text (.blanks (' ' :: blanks)) false (column + 1) rest := by
  simp [scan, isBreak, isBlank, Spacing.addBlank]

/-- A character of a word is taken with the spaces before it. -/
theorem scan_word {c : Char} {rest : List Char} (hbreak : isBreak c = false)
    (hblank : isBlank c = false)
    (hstop : stops false least (.blanks blanks) column c rest = false) :
    scan false least text (.blanks blanks) false column (c :: rest) =
      scan false least (c :: (blanks ++ text)) .none false (column + 1) rest := by
  have hplaced : isMisplaced false c rest = false := by cases rest <;> rfl
  simp [scan, hbreak, hblank, hstop, hplaced, Spacing.isBroken, Spacing.text]

/-- A colon that ends no key in a text alone does not do so in front of other text either. -/
theorem isEnd_append_eq_false {c : Char} (h : (c = ':' && atGap cs) = false) :
    (c = ':' && atGap (cs ++ tail)) = false := by
  cases cs with
  | nil => simp_all [atGap]
  | cons d cs => exact h

/-- Reading goes through shown characters without separators. Blanks are kept apart until the next
word, and at the end there are none. -/
theorem scan_append (hcolumn : 0 < column) (hshown : cs.all isShown)
    (hseparator : hasNoSeparator (!blanks.isEmpty) cs)
    (hlast : (blanks.reverse ++ cs).getLast? ≠ some ' ') (hblanks : ∀ c ∈ blanks, c = ' ') :
    scan false least text (.blanks blanks) false column (cs ++ tail) =
      scan false least (cs.reverse ++ blanks ++ text) .none false (column + cs.length) tail := by
  induction cs generalizing column text blanks with
  | nil =>
    cases blanks with
    | nil => rfl
    | cons c blanks => simp_all
  | cons c cs ih =>
    simp only [List.all_cons, Bool.and_eq_true] at hshown
    simp only [hasNoSeparator, Bool.and_eq_true, Bool.not_eq_true'] at hseparator
    obtain ⟨hc, hcs⟩ := hshown
    obtain ⟨⟨hcolon, hhash⟩, hrest⟩ := hseparator
    have hcount : column + 1 + cs.length = column + (c :: cs).length := by
      simp only [List.length_cons]
      omega
    by_cases hblank : c = ' '
    · subst hblank
      rw [List.cons_append, scan_space, ih (Nat.succ_pos _) hcs (by simpa [isBlank] using hrest)
        (by simpa using hlast) (by simpa using hblanks), hcount]
      simp
    · have hword := not_isBlank_of_isShown hc hblank
      have hstop : stops false least (.blanks blanks) column c (cs ++ tail) = false := by
        simp only [stops, Bool.or_eq_false_iff]
        exact ⟨⟨⟨⟨by simp [Nat.ne_of_gt hcolumn], by simpa [Spacing.isSome] using hhash⟩, rfl⟩,
          isEnd_append_eq_false hcolon⟩, rfl⟩
      rw [List.cons_append, scan_word (not_isBreak_of_isShown hc) hword hstop]
      have hlast' : ([].reverse ++ cs).getLast? ≠ some ' ' := by
        cases cs with
        | nil => simp
        | cons d cs => simpa [List.getLast?_append] using hlast
      have htail : scan false least (c :: (blanks ++ text)) (.blanks []) false (column + 1)
          (cs ++ tail) = _ :=
        ih (Nat.succ_pos _) hcs (by simpa [hword] using hrest) hlast' (by simp)
      rw [Spacing.none, htail, hcount]
      simp [Spacing.none]

/-- What may follow a plain text: the end of the line, or the colon of a key. -/
def Ends (tail : List Char) : Prop := tail.head? = some '\n' ∨ tail.head? = some ':'

/-- A plain text that does not look like the mark of a document is none with what follows it. -/
theorem atMark_append_eq_false (h : startsLikeMark cs = false) (htail : Ends tail) :
    atMark (cs ++ tail) = false := by
  obtain ⟨tail, rfl⟩ | ⟨tail, rfl⟩ : (∃ rest, tail = '\n' :: rest) ∨ ∃ rest, tail = ':' :: rest :=
    htail.imp (fun h => List.head?_eq_some_iff.mp h) fun h => List.head?_eq_some_iff.mp h
  all_goals
    match cs with
    | [] | [c] | [c, d] => simp [atMark]
    | c :: d :: e :: cs =>
      simp only [List.cons_append]
      unfold atMark
      split <;> simp_all [startsLikeMark]

/-- All characters of a plain text are taken. -/
theorem scan_of_isPlainShape (h : isPlainShape cs) (htail : Ends tail) :
    scan false least [] .none false column (cs ++ tail) =
      scan false least cs.reverse .none false (column + cs.length) tail := by
  simp only [isPlainShape, Bool.and_eq_true, Bool.not_eq_true', decide_eq_true_eq] at h
  obtain ⟨⟨⟨⟨hshown, hstart⟩, hmark⟩, hlast⟩, hseparator⟩ := h
  cases cs with
  | nil => simp [startsPlainly] at hstart
  | cons c cs =>
    simp only [List.all_cons, Bool.and_eq_true] at hshown
    simp only [hasNoSeparator, Bool.and_eq_true, Bool.not_eq_true'] at hseparator
    obtain ⟨hc, hcs⟩ := hshown
    obtain ⟨⟨hcolon, -⟩, hrest⟩ := hseparator
    have hspace : c ≠ ' ' := by
      rintro rfl
      simp [startsPlainly] at hstart
    have hword := not_isBlank_of_isShown hc hspace
    have hstop : stops false least (.blanks []) column c (cs ++ tail) = false := by
      simp only [stops, Bool.or_eq_false_iff]
      refine ⟨⟨⟨⟨?_, by simp [Spacing.isSome]⟩, rfl⟩, isEnd_append_eq_false hcolon⟩, rfl⟩
      rw [← List.cons_append, atMark_append_eq_false hmark htail, Bool.and_false]
    have hlast' : ([].reverse ++ cs).getLast? ≠ some ' ' := by
      cases cs with
      | nil => simp
      | cons d cs => simpa using hlast
    have hscan : scan false least [c] (.blanks []) false (column + 1) (cs ++ tail) = _ :=
      scan_append (Nat.succ_pos _) hcs (by simpa [hword] using hrest) hlast' (by simp)
    rw [List.cons_append, Spacing.none, scan_word (not_isBreak_of_isShown hc) hword hstop]
    simp only [List.append_nil, Spacing.none]
    rw [hscan]
    simp [Spacing.none, Nat.add_assoc, Nat.add_comm 1]

/-- The spaces at the start of a line are not part of a scalar. -/
theorem scan_replicate (count : Nat) (rest : List Char) :
    scan false least text (.breaks ['\n']) false column (List.replicate count ' ' ++ rest) =
      scan false least text (.breaks ['\n']) false (column + count) rest := by
  induction count generalizing column with
  | zero => rfl
  | succ count ih =>
    rw [List.replicate_succ, List.cons_append, scan]
    simp [isBreak, isBlank, Spacing.addBlank, ih, Nat.add_right_comm, Nat.add_assoc]

/-- A plain text ends with its line if the next one does not belong to it. -/
theorem scan_nextLine {next : Nat} {rest : List Char} (hsolid : Solid rest)
    (hrest : rest = [] ∨ next < least) :
    scan false least text .none false column (nextLine next rest) =
      some (.ofReversed .plain text false ⟨true, next, rest⟩) := by
  have hbreak : scan false least text .none false column (nextLine next rest) =
      scan false least text (.breaks ['\n']) false 0 (List.replicate next ' ' ++ rest) := by
    simp [nextLine, scan, isBreak, Spacing.addBreak, Spacing.none]
  rw [hbreak, scan_replicate, Nat.zero_add]
  cases rest with
  | nil => rfl
  | cons c rest =>
    have hc : isSolid c := hsolid c rfl
    simp only [isSolid, Bool.and_eq_true, Bool.not_eq_true', decide_eq_true_eq] at hc
    have hleast : next < least := hrest.resolve_left (List.cons_ne_nil _ _)
    simp [scan, hc, isBlank, stops, Spacing.isBroken, hleast]

/-- A plain text ends before the colon of a key. -/
theorem scan_colon {rest : List Char} (h : atGap rest) :
    scan false least text .none false column (':' :: rest) =
      some (.ofReversed .plain text false ⟨false, column, ':' :: rest⟩) := by
  simp [scan, isBreak, isBlank, stops, h, Spacing.isBroken, Spacing.none]

end Plain

/-! ## Quoted scalars -/

namespace SingleQuoted

/-- A character inside single quotes. -/
def double (c : Char) : List Char := if c = '\'' then ['\'', '\''] else [c]

/-- In single quotes a text is written character by character. -/
theorem singleQuoted_eq (text : String) :
    singleQuoted text = '\'' :: (text.toList.flatMap double ++ ['\'']) := rfl

/-- A character in single quotes is read back, a blank as part of the spacing. -/
theorem scan_double {text blanks : List Char} {column : Nat} {c : Char} (hcolumn : 0 < column)
    (hbreak : isBreak c = false) (rest : List Char) :
    scan text (.blanks blanks) false column (double c ++ rest) =
      if isBlank c then scan text (.blanks (c :: blanks)) false (column + (double c).length) rest
      else scan (c :: (blanks ++ text)) .none false (column + (double c).length) rest := by
  by_cases hquote : c = '\''
  · subst hquote
    simp [double, scan, isBlank, Spacing.text]
  · have hpair : ∀ rest', c = '\'' → rest = '\'' :: rest' → False := fun _ h => absurd h hquote
    rw [double, if_neg hquote, List.singleton_append, scan]
    · simp [hquote, hbreak, Nat.ne_of_gt hcolumn, Spacing.addBlank, Spacing.text]
    · exact hpair

/-- A text in single quotes is read back up to the closing quote, by induction on its characters. -/
theorem exists_scan_flatMap_double {cs tail : List Char} {column : Nat} (hcolumn : 0 < column)
    (hbreak : ∀ c ∈ cs, isBreak c = false) (htail : tail.head? ≠ some '\'')
    (text blanks : List Char) :
    ∃ next, scan text (.blanks blanks) false column (cs.flatMap double ++ '\'' :: tail) =
      some (.ofReversed .singleQuoted (cs.reverse ++ (blanks ++ text)) false
        ⟨false, next, tail⟩) := by
  induction cs generalizing column text blanks with
  | nil =>
    refine ⟨column + 1, ?_⟩
    rw [List.flatMap_nil, List.nil_append, scan]
    · simp [Spacing.text]
    · rintro rest - rfl
      exact htail rfl
  | cons c cs ih =>
    obtain ⟨hc, hcs⟩ := List.forall_mem_cons.mp hbreak
    have hpast : 0 < column + (double c).length := by omega
    rw [List.flatMap_cons, List.append_assoc, scan_double hcolumn hc]
    split
    · obtain ⟨next, hnext⟩ := ih hpast hcs text (c :: blanks)
      exact ⟨next, hnext.trans (by simp)⟩
    · obtain ⟨next, hnext⟩ := ih hpast hcs (c :: (blanks ++ text)) []
      exact ⟨next, hnext.trans (by simp)⟩

end SingleQuoted

namespace DoubleQuoted

/-- The value of hexadecimal digits behind others. -/
def valueFrom? (value : Nat) (ds : List Char) : Option Nat :=
  ds.foldlM (fun value c => (hexDigit? c).map (16 * value + ·)) value

/-- The hexadecimal digits of a number have its value, by induction on the number. -/
theorem valueFrom?_toDigits (n : Nat) :
    valueFrom? 0 ((Nat.toDigits 16 n).map Char.toUpper) = some n := by
  have hdigit : ∀ d : Fin 16, hexDigit? (Nat.digitChar d).toUpper = some d.val := by decide
  induction n using Nat.strongRecOn with
  | ind n ih =>
    by_cases hsmall : n < 16
    · rw [Nat.toDigits_of_lt_base hsmall]
      simpa [valueFrom?] using hdigit ⟨n, hsmall⟩
    · have hlast := hdigit ⟨n % 16, Nat.mod_lt _ (by decide)⟩
      have hfront := ih (n / 16) (by omega)
      rw [Nat.toDigits_of_base_le (by decide) (by omega), List.map_append, valueFrom?,
        List.foldlM_append]
      rw [valueFrom?] at hfront
      have hn : 16 * (n / 16) + n % 16 = n := Nat.div_add_mod n 16
      simp [hfront, hlast, hn]

variable {column : Nat}

/-- Digits are read up to the last one, and then they are one character. -/
theorem scan_digits {text ds : List Char} {value n : Nat} {c : Char} (hne : ds ≠ [])
    (hvalue : valueFrom? value ds = some n) (hc : character? n = some c) (rest : List Char) :
    scan text .none (.digits ds.length value) false column (ds ++ rest) =
      scan (c :: text) .none .character false (column + ds.length) rest := by
  induction ds generalizing value column with
  | nil => exact absurd rfl hne
  | cons d ds ih =>
    simp only [valueFrom?, List.foldlM_cons, Option.bind_eq_bind, Option.bind_eq_some_iff,
      Option.map_eq_some_iff] at hvalue
    obtain ⟨_, ⟨digit, hdigit, rfl⟩, hrest⟩ := hvalue
    cases ds with
    | nil =>
      obtain rfl : 16 * value + digit = n := by simpa using hrest
      simp [scan, hdigit, hc]
    | cons e ds =>
      have hleft : ¬(d :: e :: ds).length = 1 := by simp
      have hcount : column + 1 + (e :: ds).length = column + (d :: e :: ds).length := by
        simp only [List.length_cons]
        omega
      rw [List.cons_append, scan]
      simp only [hdigit, Option.bind_eq_bind, Option.bind_some, if_neg hleft]
      exact (ih (List.cons_ne_nil e ds) hrest).trans (by rw [hcount])

/-- A number that fits is written with the given number of digits. -/
theorem length_hexDigits {count n : Nat} (hcount : 0 < count) (hn : n < Nat.pow 16 count) :
    (hexDigits count n).length = count := by
  have hlength := (Nat.length_toDigits_le_iff (by decide) hcount).mpr hn
  simp only [hexDigits, List.length_append, List.length_replicate, List.length_map]
  omega

/-- The zeros in front of the digits do not change the value. -/
theorem valueFrom?_hexDigits (count n : Nat) : valueFrom? 0 (hexDigits count n) = some n := by
  have hzeros : ∀ k ds, valueFrom? 0 (List.replicate k '0' ++ ds) = valueFrom? 0 ds := by
    intro k ds
    induction k with
    | zero => rfl
    | succ k ih => simpa [List.replicate_succ, valueFrom?, hexDigit?] using ih
  rw [hexDigits, hzeros, valueFrom?_toDigits]

/-- Every character is the one with its number. -/
theorem character?_toNat (c : Char) : character? c.toNat = some c := by
  have hvalid : c.toNat.isValidChar := c.valid
  rw [character?, if_pos hvalid, Char.ofNat_toNat]

/-- The three ways to write a character inside double quotes. -/
inductive Escaped (c : Char) : List Char → Prop
  | self (hshown : isShown c) (hquote : c ≠ '"') (hslash : c ≠ '\\') : Escaped c [c]
  | letter {l : Char} (hl : isShown l) (h : escaped? l = some c) (hcount : digitCount? l = none) :
      Escaped c ['\\', l]
  | number {l : Char} {count : Nat} (hl : isShown l) (hcount : digitCount? l = some count)
      (hpos : 0 < count) (hc : c.toNat < Nat.pow 16 count) :
      Escaped c ('\\' :: l :: hexDigits count c.toNat)

/-- Hexadecimal digits stand for themselves. -/
theorem isShown_of_isSome_hexDigit? {c : Char} (h : (hexDigit? c).isSome) : isShown c := by
  have hle : ∀ a b : Char, a ≤ b ↔ a.toNat ≤ b.toNat := fun a b => by
    rw [Char.le_def, UInt32.le_iff_toNat_le]
    rfl
  have hrange : 0x20 ≤ c.toNat ∧ c.toNat ≤ 0x7E := by
    unfold hexDigit? at h
    simp only [Bool.and_eq_true, decide_eq_true_eq, hle, Char.reduceToNat] at h
    split at h
    · omega
    · split at h
      · omega
      · split at h
        · omega
        · exact absurd h (by simp)
  exact isShown_of_ascii hrange.1 hrange.2

/-- What has a value consists of digits. -/
theorem isSome_of_mem_of_valueFrom? {ds : List Char} {value n : Nat}
    (h : valueFrom? value ds = some n) {d : Char} (hd : d ∈ ds) : (hexDigit? d).isSome := by
  induction ds generalizing value with
  | nil => exact absurd hd List.not_mem_nil
  | cons e ds ih =>
    simp only [valueFrom?, List.foldlM_cons, Option.bind_eq_bind, Option.bind_eq_some_iff,
      Option.map_eq_some_iff] at h
    obtain ⟨_, ⟨digit, hdigit, -⟩, hrest⟩ := h
    obtain rfl | hd := List.mem_cons.mp hd
    · simp [hdigit]
    · exact ih hrest hd

/-- However a character is written in double quotes, no line ends there. -/
theorem Escaped.isShown_of_mem {c : Char} {cs : List Char} (h : Escaped c cs) {d : Char}
    (hd : d ∈ cs) : isShown d := by
  cases h with
  | self hshown => rwa [List.mem_singleton.mp hd]
  | letter hl =>
    simp only [List.mem_cons, List.not_mem_nil, or_false] at hd
    obtain rfl | rfl := hd
    · rfl
    · exact hl
  | number hl =>
    simp only [List.mem_cons] at hd
    obtain rfl | rfl | hd := hd
    · rfl
    · exact hl
    · exact isShown_of_isSome_hexDigit?
        (isSome_of_mem_of_valueFrom? (valueFrom?_hexDigits _ _) hd)

/-- The printer writes each character in one of the three ways. -/
theorem escaped_escape (c : Char) : Escaped c (escape c) := by
  have hof : ∀ n, c.toNat = n → c = Char.ofNat n := fun n h => by rw [← h, Char.ofNat_toNat]
  unfold escape
  simp only
  split
  iterate 14
    · next h =>
      obtain rfl := hof _ h
      exact .letter rfl rfl rfl
  · next hnewline _ _ _ _ hquote hslash _ hline hparagraph =>
    split
    · next hprintable =>
      have hne : ∀ d : Char, (c.toNat = d.toNat → False) → c ≠ d := fun d hd h => hd (congrArg _ h)
      refine .self ?_ (hne '"' hquote) (hne '\\' hslash)
      simp [isShown, hprintable, isBreak, hne '\n' hnewline, hne '\u2028' hline,
        hne '\u2029' hparagraph]
    · split
      · exact .number (l := 'x') rfl rfl (by decide) (show c.toNat < 0x100 by omega)
      · split
        · exact .number (l := 'u') rfl rfl (by decide) (show c.toNat < 0x10000 by omega)
        · have hbound : c.toNat < 0x110000 := by
            obtain h | ⟨-, h⟩ := c.valid
            · exact Nat.lt_trans h (by decide)
            · exact h
          exact .number (l := 'U') rfl rfl (by decide) (show c.toNat < 0x100000000 by omega)

/-- The written form of a character leads past it; a space waits for the next word. -/
theorem exists_scan_escaped {c : Char} {cs : List Char} (h : Escaped c cs) (hcolumn : 0 < column)
    (text blanks rest : List Char) :
    ∃ next blanks' text', 0 < next ∧ blanks' ++ text' = c :: (blanks ++ text) ∧
      scan text (.blanks blanks) .character false column (cs ++ rest) =
        scan text' (.blanks blanks') .character false next rest := by
  cases h with
  | self hshown hquote hslash =>
    have hbreak := not_isBreak_of_isShown hshown
    by_cases hblank : isBlank c
    · exact ⟨column + 1, c :: blanks, text, by omega, rfl, by
        simp [scan, hquote, hslash, hbreak, hblank, Spacing.addBlank]⟩
    · exact ⟨column + 1, [], c :: (blanks ++ text), by omega, rfl, by
        simp [scan, hquote, hslash, hbreak, hblank, Nat.ne_of_gt hcolumn, Spacing.text,
          Spacing.none]⟩
  | letter hl hletter hcount =>
    exact ⟨column + 2, [], c :: (blanks ++ text), by omega, rfl, by
      simp [scan, hletter, hcount, not_isBreak_of_isShown hl, Spacing.text, Spacing.none]⟩
  | @number l count hl hcount hpos hc =>
    have hbreak := not_isBreak_of_isShown hl
    have hlength := length_hexDigits hpos hc
    have hne : hexDigits count c.toNat ≠ [] := List.ne_nil_of_length_pos (by omega)
    have hdigits : scan (blanks ++ text) .none (.digits (hexDigits count c.toNat).length 0) false
        (column + 2) (hexDigits count c.toNat ++ rest) = _ :=
      scan_digits hne (valueFrom?_hexDigits count c.toNat) (character?_toNat c) rest
    rw [hlength] at hdigits
    exact ⟨column + 2 + count, [], c :: (blanks ++ text), by omega, rfl, by
      simpa [scan, hcount, hbreak, Spacing.text, Spacing.none] using hdigits⟩

/-- A text in double quotes is read back up to the closing quote, by induction on its characters. -/
theorem exists_scan_flatMap_escape (cs : List Char) (hcolumn : 0 < column)
    (text blanks tail : List Char) :
    ∃ next, scan text (.blanks blanks) .character false column (cs.flatMap escape ++ '"' :: tail) =
      some (.ofReversed .doubleQuoted (cs.reverse ++ (blanks ++ text)) false
        ⟨false, next, tail⟩) := by
  induction cs generalizing column text blanks with
  | nil => exact ⟨column + 1, by simp [scan, Spacing.text]⟩
  | cons c cs ih =>
    obtain ⟨next, blanks', text', hnext, htext, hscan⟩ :=
      exists_scan_escaped (escaped_escape c) hcolumn text blanks (cs.flatMap escape ++ '"' :: tail)
    obtain ⟨last, hlast⟩ := ih hnext text' blanks'
    refine ⟨last, ?_⟩
    rw [List.flatMap_cons, List.append_assoc, hscan, hlast, htext]
    simp

end DoubleQuoted

/-! ## Scalars on one line -/

/-- Whether a text is written on one line in a style and read back from it. -/
def Style.suits (text : String) : Style → Bool
  | .plain => isPlainShape text.toList
  | .singleQuoted => text.toList.all isShown
  | .doubleQuoted => true
  | _ => false

/-- A text as it is written on one line. -/
def Style.written (text : String) : Style → List Char
  | .plain => text.toList
  | .singleQuoted => Yaml.singleQuoted text
  | _ => Yaml.doubleQuoted text

/-- The style of a text on one line suits it. -/
theorem Style.suits_ofText {text : String} (h : text.toList.all (!isBreak ·)) :
    (Style.ofText text).suits text := by
  have hbreak : ∀ c ∈ text.toList, isBreak c = false := by simpa using h
  have hnewline : text.toList.any (· = '\n') = false := by
    rw [List.any_eq_false]
    rintro c hc heq
    obtain rfl : c = '\n' := by simpa using heq
    exact absurd (hbreak _ hc) (by decide)
  unfold Style.ofText
  simp only [hnewline, Bool.false_eq_true, if_false]
  split
  · next hplain => exact isPlainShape_of_isPlainText hplain
  · split
    · next hprintable =>
      have hall := (Bool.and_eq_true_iff.mp hprintable).1
      refine List.all_eq_true.mpr fun c hc => ?_
      simp [isShown, hbreak c hc, List.all_eq_true.mp hall c hc]
    · rfl

/-- A text without line ends is one line. -/
theorem Line.split_of_forall {cs : List Char} (h : ∀ c ∈ cs, isBreak c = false) :
    split cs = [⟨cs, '\n'⟩] := by
  induction cs with
  | nil => rfl
  | cons c cs ih =>
    obtain ⟨hc, hcs⟩ := List.forall_mem_cons.mp h
    simp [split, hc, ih hcs]

/-- To write a quote twice ends no line. -/
theorem isShown_of_mem_double {c d : Char} (hc : isShown c) (h : d ∈ SingleQuoted.double c) :
    isShown d := by
  unfold SingleQuoted.double at h
  split at h
  · obtain rfl : d = '\'' := by simpa using h
    rfl
  · rwa [List.mem_singleton.mp h]

/-- A scalar that is written on one line shows all its characters. -/
theorem isShown_of_mem_written {style : Style} {text : String} (h : style.suits text) {c : Char}
    (hc : c ∈ style.written text) : isShown c := by
  cases style with
  | plain =>
    simp only [Style.suits, isPlainShape, Bool.and_eq_true] at h
    exact List.all_eq_true.mp h.1.1.1.1 c hc
  | singleQuoted =>
    rw [Style.written, SingleQuoted.singleQuoted_eq] at hc
    simp only [List.mem_cons, List.mem_append, List.mem_flatMap, List.not_mem_nil, or_false] at hc
    obtain rfl | ⟨d, hd, hc⟩ | rfl := hc
    · rfl
    · exact isShown_of_mem_double (List.all_eq_true.mp h d hd) hc
    · rfl
  | doubleQuoted =>
    change c ∈ doubleQuoted text at hc
    rw [doubleQuoted] at hc
    simp only [List.mem_cons, List.mem_append, List.mem_flatMap, List.not_mem_nil, or_false] at hc
    obtain rfl | ⟨d, -, hc⟩ | rfl := hc
    · rfl
    · exact (DoubleQuoted.escaped_escape d).isShown_of_mem hc
    · rfl
  | literal | folded => simp [Style.suits] at h

/-- A text is written on one line in a style that suits it. -/
theorem scalarLines_eq {style : Style} {text : String} (h : style.suits text) :
    scalarLines style text = [⟨style.written text, '\n'⟩] := by
  cases style with
  | plain => rfl
  | singleQuoted =>
    exact Line.split_of_forall fun c hc => not_isBreak_of_isShown (isShown_of_mem_written h hc)
  | doubleQuoted => rfl
  | literal | folded => simp [Style.suits] at h

/-- A plain text starts as a plain scalar does. -/
theorem Plain.starts_append {cs : List Char} (h : isPlainShape cs) (tail : List Char) :
    starts false (cs ++ tail) := by
  simp only [isPlainShape, Bool.and_eq_true] at h
  obtain ⟨⟨⟨⟨hshown, hstart⟩, -⟩, -⟩, -⟩ := h
  cases cs with
  | nil => simp [startsPlainly] at hstart
  | cons c cs =>
    have hc : isShown c := List.all_eq_true.mp hshown c List.mem_cons_self
    have hbreak := not_isBreak_of_isShown hc
    simp only [startsPlainly] at hstart
    split at hstart
    · next hmark =>
      -- A mark at the start is followed by a word of the text itself.
      have hne : cs ≠ [] := by
        rintro rfl
        simp [atGap] at hstart
      rw [List.cons_append, starts, atGap_append_of_ne_nil hne]
      simp only [Bool.or_eq_true, decide_eq_true_eq] at hmark
      obtain (rfl | rfl) | rfl := hmark <;> simpa using hstart
    · next hmark =>
      simp only [Bool.or_eq_true, decide_eq_true_eq, not_or, Bool.and_eq_true,
        Bool.not_eq_true'] at hmark hstart
      rw [List.cons_append, starts]
      simp [hmark, hstart, hbreak, not_isBlank_of_isShown hc hstart.1]

/-- What starts as a plain scalar does is read as one. -/
theorem scalar_of_starts {least : Nat} {isFresh : Bool} {column : Nat} {cs : List Char}
    (h : Plain.starts false cs) :
    scalar false least ⟨isFresh, column, cs⟩ = Plain.scan false least [] .none false column cs := by
  unfold scalar
  simp only
  split
  · simp [Plain.starts, isIndicator] at h
  · simp [Plain.starts, isIndicator] at h
  · rw [if_pos h]

/-- A scalar on one line is read back, and behind it the next line comes. -/
theorem exists_scalar_written {style : Style} {text : String} (h : style.suits text)
    {least next : Nat} {rest : List Char} (hsolid : Solid rest) (hrest : rest = [] ∨ next < least)
    (isFresh : Bool) (column : Nat) :
    ∃ after, scalar false least ⟨isFresh, column, style.written text ++ nextLine next rest⟩ =
        some ⟨style, text, false, after⟩ ∧
      after.skip false = some ⟨true, next, rest⟩ ∧
      (after.isFresh ∨ after.rest.head? = some '\n') := by
  cases style with
  | plain =>
    refine ⟨⟨true, next, rest⟩, ?_, Cursor.skip_of_solid hsolid, .inl rfl⟩
    have hscan : Plain.scan false least [] .none false column (text.toList ++ nextLine next rest) =
        some ⟨.plain, text, false, ⟨true, next, rest⟩⟩ := by
      rw [Plain.scan_of_isPlainShape h (.inl rfl), Plain.scan_nextLine hsolid hrest]
      simp [Scanned.ofReversed]
    exact (scalar_of_starts (Plain.starts_append h (nextLine next rest))).trans hscan
  | singleQuoted =>
    have hbreak : ∀ c ∈ text.toList, isBreak c = false := fun c hc =>
      not_isBreak_of_isShown (List.all_eq_true.mp h c hc)
    obtain ⟨last, hlast⟩ := SingleQuoted.exists_scan_flatMap_double (Nat.succ_pos column) hbreak
      (by simp [nextLine] : (nextLine next rest).head? ≠ some '\'') [] []
    refine ⟨⟨false, last, nextLine next rest⟩, ?_, Cursor.skip_nextLine hsolid, .inr rfl⟩
    simpa [scalar, Style.written, SingleQuoted.singleQuoted_eq, Spacing.none, Scanned.ofReversed]
      using hlast
  | doubleQuoted =>
    obtain ⟨last, hlast⟩ := DoubleQuoted.exists_scan_flatMap_escape text.toList
      (Nat.succ_pos column) [] [] (nextLine next rest)
    refine ⟨⟨false, last, nextLine next rest⟩, ?_, Cursor.skip_nextLine hsolid, .inr rfl⟩
    simpa [scalar, Style.written, doubleQuoted, Spacing.none, Scanned.ofReversed] using hlast
  | literal | folded => simp [Style.suits] at h

end TaintTrail.Yaml

import Mathlib.Data.List.TakeWhile
import TaintTrail.Json.Printer
import TaintTrail.Json.Reader

/-!
# Reading what was written

A value whose numbers are all whole is read back from its text as it is. The proof follows the two
stages of reading. The text of a value is cut into the tokens of the value, whatever comes after it
that cannot belong to its last word; the tokens of a value are assembled into it, whatever tokens
come after them.
-/

namespace TaintTrail.Json

mutual

/-- Whether every number in a value is whole. -/
def isExact : Json → Bool
  | .real _ => false
  | .arr items => exactItems items
  | .obj members => exactMembers members
  | _ => true

/-- Whether every number in the items of an array is whole. -/
def exactItems : List Json → Bool
  | [] => true
  | x :: xs => x.isExact && exactItems xs

/-- Whether every number in the members of an object is whole. -/
def exactMembers : List (Option String × Json) → Bool
  | [] => true
  | (_, x) :: xs => x.isExact && exactMembers xs

end

mutual

/-- The tokens of a value. -/
def tokens : Json → List Token
  | .arr items => .openArr :: (itemTokens items ++ [.closeArr])
  | .obj members => .openObj :: (memberTokens members ++ [.closeObj])
  | j => [.leaf j]

/-- The tokens of items with the commas between them. -/
def itemTokens : List Json → List Token
  | [] => []
  | [x] => x.tokens
  | x :: xs => x.tokens ++ .comma :: itemTokens xs

/-- The tokens of members with the commas between them. -/
def memberTokens : List (Option String × Json) → List Token
  | [] => []
  | [(k, x)] => .leaf (.str k) :: .colon :: x.tokens
  | (k, x) :: xs => .leaf (.str k) :: .colon :: (x.tokens ++ .comma :: memberTokens xs)

end

/-! ## Numbers and keywords -/

/-- Whether a character extends a keyword or number. -/
def isInner (c : Char) : Bool := !isBlank c && (punctuation? c).isNone && c ≠ '"'

/-- What may follow a value in a written text: nothing, a comma or the next line. -/
inductive Ends : List Char → Prop
  | nil : Ends []
  | comma (rest : List Char) : Ends (',' :: rest)
  | newline (rest : List Char) : Ends ('\n' :: rest)

/-- A value may be followed by the next line. -/
theorem ends_newline (level : Nat) (rest : List Char) : Ends (newline level ++ rest) := .newline _

/-- A text is cut character by character: each step may complete tokens. -/
theorem tokensFrom?_cons (state : Scan) (c : Char) (rest : List Char) :
    tokensFrom? state (c :: rest) =
      (state.step c).bind fun next => (tokensFrom? next.1 rest).map (next.2 ++ ·) := by
  simp only [tokensFrom?, Option.map_eq_bind, Option.bind_eq_bind, Function.comp_def]

/-- A character that completes no token only changes the state. -/
theorem tokensFrom?_of_step {state next : Scan} {c : Char} (h : state.step c = some (next, []))
    (rest : List Char) : tokensFrom? state (c :: rest) = tokensFrom? next rest := by
  simp [tokensFrom?_cons, h]

/-- Between tokens, a blank is skipped. -/
theorem tokensFrom?_gap_of_isBlank {c : Char} (h : isBlank c) (rest : List Char) :
    tokensFrom? .gap (c :: rest) = tokensFrom? .gap rest :=
  tokensFrom?_of_step (by simp [Scan.step, Scan.begin, h]) rest

/-- Between tokens, the end of a line and the indentation of the next are skipped. -/
theorem tokensFrom?_gap_newline (level : Nat) (rest : List Char) :
    tokensFrom? .gap (newline level ++ rest) = tokensFrom? .gap rest := by
  have hblanks : ∀ n, tokensFrom? .gap (List.replicate n ' ' ++ rest) = tokensFrom? .gap rest := by
    intro n
    induction n with
    | zero => rfl
    | succ n ih => rw [List.replicate_succ, List.cons_append, tokensFrom?_gap_of_isBlank rfl, ih]
  rw [newline, List.cons_append, tokensFrom?_gap_of_isBlank rfl, hblanks]

/-- Between tokens, a punctuation character is a token of its own. -/
theorem tokensFrom?_gap_of_punctuation? {c : Char} {token : Token} (hblank : isBlank c = false)
    (h : punctuation? c = some token) (rest : List Char) :
    tokensFrom? .gap (c :: rest) = (tokensFrom? .gap rest).map (token :: ·) := by
  simp [tokensFrom?_cons, Scan.step, Scan.begin, h, hblank]

/-- Inner characters extend a word, by induction on them. -/
theorem tokensFrom?_word_append {cs : List Char} (h : cs.all isInner) (seen rest : List Char) :
    tokensFrom? (.word seen) (cs ++ rest) = tokensFrom? (.word (cs.reverse ++ seen)) rest := by
  induction cs generalizing seen with
  | nil => rfl
  | cons c cs ih =>
    obtain ⟨hc, hcs⟩ : isInner c = true ∧ cs.all isInner = true := by simpa using h
    have hstep : Scan.step c (.word seen) = some (.word (c :: seen), []) := by
      simp only [isInner, Bool.and_eq_true, Bool.not_eq_true', decide_eq_true_eq] at hc
      simp [Scan.step, hc, Option.isNone_iff_eq_none.mp hc.1.2]
    rw [List.cons_append, tokensFrom?_of_step hstep, ih hcs]
    simp

/-- A word that has a value ends where a value may end. -/
theorem tokensFrom?_word_of_ends {seen rest : List Char} {value : Json}
    (hvalue : literal? seen.reverse = some value) (hrest : Ends rest) :
    tokensFrom? (.word seen) rest = (tokensFrom? .gap rest).map (.leaf value :: ·) := by
  cases hrest with
  | nil => simp [tokensFrom?, hvalue]
  | comma rest => simp [tokensFrom?_cons, hvalue, Scan.step, punctuation?, Function.comp_def]
  | newline rest => simp [tokensFrom?_cons, hvalue, Scan.step, isBlank, Function.comp_def]

/-- A keyword or number is one token, if what follows it ends it. -/
theorem tokensFrom?_gap_literal {cs rest : List Char} {value : Json} (hne : cs ≠ [])
    (hinner : cs.all isInner) (hvalue : literal? cs = some value) (hrest : Ends rest) :
    tokensFrom? .gap (cs ++ rest) = (tokensFrom? .gap rest).map (.leaf value :: ·) := by
  obtain ⟨c, cs, rfl⟩ := List.exists_cons_of_ne_nil hne
  obtain ⟨hc, hcs⟩ : isInner c = true ∧ cs.all isInner = true := by simpa using hinner
  have hbegin : Scan.step c .gap = some (.word [c], []) := by
    simp only [isInner, Bool.and_eq_true, Bool.not_eq_true', decide_eq_true_eq] at hc
    simp [Scan.step, Scan.begin, hc, Option.isNone_iff_eq_none.mp hc.1.2]
  rw [List.cons_append, tokensFrom?_of_step hbegin, tokensFrom?_word_append hcs]
  exact tokensFrom?_word_of_ends (by simpa using hvalue) hrest

/-- No digit is a character that is none. -/
theorem ne_of_isDigit {c d : Char} (hc : c.isDigit) (hd : d.isDigit = false) : c ≠ d := by
  rintro rfl
  simp [hd] at hc

/-- A digit extends a number. -/
theorem isInner_of_isDigit {c : Char} (h : c.isDigit) : isInner c := by
  have hpunctuation : punctuation? c = none := by
    unfold punctuation?
    split <;> first | exact absurd h (by decide) | rfl
  simp [isInner, isBlank, hpunctuation, ne_of_isDigit h]

/-- The digits of a number are one run of digits. -/
theorem digits?_toDigits (n : Nat) :
    digits? (Nat.toDigits 10 n) = some (Nat.toDigits 10 n, []) := by
  have hdigits : ∀ c ∈ Nat.toDigits 10 n, c.isDigit = true :=
    fun c hc => Nat.isDigit_of_mem_toDigits (by decide) (by decide) hc
  have htake : (Nat.toDigits 10 n).takeWhile Char.isDigit = Nat.toDigits 10 n :=
    List.takeWhile_eq_self_iff.mpr hdigits
  have hdrop : (Nat.toDigits 10 n).dropWhile Char.isDigit = [] :=
    List.dropWhile_eq_nil_iff.mpr hdigits
  simp [digits?, htake, hdrop]

/-- Only the number zero starts with the digit zero. -/
theorem eq_zero_of_head?_toDigits {n : Nat} (h : (Nat.toDigits 10 n).head? = some '0') : n = 0 := by
  induction n using Nat.strongRecOn with
  | ind n ih =>
    by_cases hsmall : n < 10
    · rw [Nat.toDigits_of_lt_base hsmall] at h
      simpa using h
    · rw [Nat.toDigits_of_base_le (by decide) (by omega),
        List.head?_append, Option.or_of_isSome (by simp [Nat.toDigits_ne_nil])] at h
      have := ih (n / 10) (by omega) h
      omega

/-- The digits of a number are read as that number. Only the zero with a sign is kept as it is
written. -/
theorem unsigned?_toDigits (negative : Bool) (written : List Char) (n : Nat) :
    unsigned? negative written (Nat.toDigits 10 n) =
      if negative then
        if n = 0 then some (.real (String.ofList written)) else some (.int (-n))
      else some (.int n) := by
  have hlead : ¬((Nat.toDigits 10 n).head? = some '0' ∧ (Nat.toDigits 10 n).length ≠ 1) := by
    rintro ⟨hhead, hlength⟩
    obtain rfl := eq_zero_of_head?_toDigits hhead
    simp at hlength
  simp only [unsigned?, digits?_toDigits, Option.bind_eq_bind, Option.bind_some, if_neg hlead,
    List.isEmpty_nil, if_true, Nat.ofDigitChars_ten_toDigits]

/-- A run of characters that begins with none of their letters is no keyword. -/
theorem literal?_of_isDigit {c : Char} {cs : List Char} (h : c.isDigit) :
    literal? (c :: cs) = unsigned? false (c :: cs) (c :: cs) := by
  have hkeyword : ∀ d ds, d.isDigit = false → c :: cs ≠ d :: ds := fun d ds hd heq =>
    ne_of_isDigit h hd (List.cons.inj heq).1
  rw [literal?, if_neg (hkeyword _ _ rfl), if_neg (hkeyword _ _ rfl), if_neg (hkeyword _ _ rfl)]
  exact fun ds heq => hkeyword '-' ds rfl heq

/-- A written number is read back. -/
theorem literal?_decimal (n : Int) : literal? (decimal n) = some (.int n) := by
  cases n with
  | ofNat n =>
    obtain ⟨c, cs, hcs⟩ := List.exists_cons_of_ne_nil (Nat.toDigits_ne_nil (n := n) (b := 10))
    have hc : c.isDigit := Nat.isDigit_of_mem_toDigits (b := 10) (n := n) (by decide) (by decide)
      (by simp [hcs])
    rw [decimal, hcs, literal?_of_isDigit hc, ← hcs, unsigned?_toDigits]
    rfl
  | negSucc n =>
    have hkeyword : literal? (decimal (.negSucc n)) =
        unsigned? true (decimal (.negSucc n)) (Nat.toDigits 10 (n + 1)) := by
      simp [literal?, decimal]
    rw [hkeyword, unsigned?_toDigits]
    rfl

/-- A written number is one word. -/
theorem all_isInner_decimal (n : Int) : (decimal n).all isInner := by
  have hdigits : ∀ m, (Nat.toDigits 10 m).all isInner := fun m =>
    List.all_eq_true.mpr fun c hc =>
      isInner_of_isDigit (Nat.isDigit_of_mem_toDigits (by decide) (by decide) hc)
  cases n with
  | ofNat n => exact hdigits n
  | negSucc n =>
    rw [decimal, List.all_cons, hdigits]
    rfl

/-- A written number has a character. -/
theorem decimal_ne_nil (n : Int) : decimal n ≠ [] := by
  cases n with
  | ofNat n => exact Nat.toDigits_ne_nil
  | negSucc n => exact List.cons_ne_nil _ _

/-! ## Strings -/

/-- A hexadecimal digit is read back. -/
theorem hexValue?_hexDigit {n : Nat} (h : n < 16) : hexValue? (hexDigit n) = some n := by
  have hall : ∀ m : Fin 16, hexValue? (hexDigit m) = some m.val := by decide
  exact hall ⟨n, h⟩

/-- The written form of a character leads past it, with its code number read. -/
theorem tokensFrom?_inText_escapeChar (codes : List Nat) (c : Char) (rest : List Char) :
    tokensFrom? (.inText codes) (escapeChar c ++ rest) =
      tokensFrom? (.inText (c.toNat :: codes)) rest := by
  unfold escapeChar
  -- The letter escapes compute; what is left are the numeric escapes and the plain characters.
  iterate 7
    split
    · next h =>
      subst h
      exact (tokensFrom?_of_step rfl _).trans (tokensFrom?_of_step rfl _)
  split
  · next h =>
    have hhigh := hexValue?_hexDigit (n := c.toNat / 16) (by omega)
    have hlow := hexValue?_hexDigit (n := c.toNat % 16) (by omega)
    have hcode : c.toNat / 16 * 16 + c.toNat % 16 = c.toNat := by omega
    have hfirst : Scan.step (hexDigit (c.toNat / 16)) (.inHex codes 2 0) =
        some (.inHex codes 1 (c.toNat / 16), []) := by
      simp [Scan.step, hhigh]
    have hsecond : Scan.step (hexDigit (c.toNat % 16)) (.inHex codes 1 (c.toNat / 16)) =
        some (.inText (c.toNat :: codes), []) := by
      simp [Scan.step, hlow, hcode]
    calc tokensFrom? (.inText codes) ('\\' :: 'u' :: '0' :: '0' :: hexDigit (c.toNat / 16) ::
          hexDigit (c.toNat % 16) :: rest)
      _ = tokensFrom? (.inEscape codes) _ := tokensFrom?_of_step rfl _
      _ = tokensFrom? (.inHex codes 4 0) _ := tokensFrom?_of_step rfl _
      _ = tokensFrom? (.inHex codes 3 0) _ := tokensFrom?_of_step rfl _
      _ = tokensFrom? (.inHex codes 2 0) _ := tokensFrom?_of_step rfl _
      _ = tokensFrom? (.inHex codes 1 (c.toNat / 16)) _ := tokensFrom?_of_step hfirst _
      _ = tokensFrom? (.inText (c.toNat :: codes)) rest := tokensFrom?_of_step hsecond _
  · next hquote hslash _ _ _ _ _ hcontrol =>
    exact tokensFrom?_of_step (by simp [Scan.step, hquote, hslash, Nat.not_lt.mp hcontrol]) rest

/-- Inside quotes, each character of a text gives its code, however it is escaped. -/
theorem tokensFrom?_inText_flatMap (cs : List Char) (codes : List Nat) (rest : List Char) :
    tokensFrom? (.inText codes) (cs.flatMap escapeChar ++ rest) =
      tokensFrom? (.inText ((cs.map Char.toNat).reverse ++ codes)) rest := by
  induction cs generalizing codes with
  | nil => rfl
  | cons c cs ih =>
    rw [List.flatMap_cons, List.append_assoc, tokensFrom?_inText_escapeChar, ih]
    simp

/-- No character is half of a surrogate pair, so the code numbers of a text name its characters. -/
theorem charsOfCodes?_map_toNat (cs : List Char) : charsOfCodes? (cs.map Char.toNat) = some cs := by
  induction cs with
  | nil => rfl
  | cons c cs ih =>
    have hvalid : c.toNat < 0xD800 ∨ 0xDFFF < c.toNat := by
      obtain h | ⟨h, -⟩ := c.valid
      · exact .inl h
      · exact .inr h
    have hhigh : isHighSurrogate c.toNat = false := by
      simp only [isHighSurrogate, Bool.and_eq_false_iff, decide_eq_false_iff_not]
      omega
    have hlow : isLowSurrogate c.toNat = false := by
      simp only [isLowSurrogate, Bool.and_eq_false_iff, decide_eq_false_iff_not]
      omega
    rw [List.map_cons, charsOfCodes?.eq_def]
    simp [hhigh, hlow, ih]

/-- A quoted text is one token. -/
theorem tokensFrom?_gap_quote (s : Option String) (rest : List Char) :
    tokensFrom? .gap (quote s ++ rest) = (tokensFrom? .gap rest).map (.leaf (.str s) :: ·) := by
  cases s with
  | none =>
    have hend : Scan.step '"' (.inText [0xD800]) = some (.gap, [.leaf (.str none)]) := rfl
    calc tokensFrom? .gap ('"' :: '\\' :: 'u' :: 'd' :: '8' :: '0' :: '0' :: '"' :: rest)
      _ = tokensFrom? (.inText []) _ := tokensFrom?_of_step rfl _
      _ = tokensFrom? (.inEscape []) _ := tokensFrom?_of_step rfl _
      _ = tokensFrom? (.inHex [] 4 0) _ := tokensFrom?_of_step rfl _
      _ = tokensFrom? (.inHex [] 3 0xD) _ := tokensFrom?_of_step rfl _
      _ = tokensFrom? (.inHex [] 2 0xD8) _ := tokensFrom?_of_step rfl _
      _ = tokensFrom? (.inHex [] 1 0xD80) _ := tokensFrom?_of_step rfl _
      _ = tokensFrom? (.inText [0xD800]) ('"' :: rest) := tokensFrom?_of_step rfl _
      _ = (tokensFrom? .gap rest).map (.leaf (.str none) :: ·) := by
        rw [tokensFrom?_cons, hend]
        rfl
  | some s =>
    have hbegin : Scan.step '"' .gap = some (.inText [], []) := rfl
    rw [quote, List.cons_append, List.append_assoc, tokensFrom?_of_step hbegin,
      tokensFrom?_inText_flatMap]
    simp [tokensFrom?_cons, Scan.step, charsOfCodes?_map_toNat]

/-! ## Whole texts -/

/-- A value that is no array and no object is one token. -/
theorem tokensFrom?_gap_scalar {j : Json} {rest : List Char} (hexact : j.isExact)
    (harr : ∀ items, j ≠ .arr items) (hobj : ∀ members, j ≠ .obj members) (hrest : Ends rest) :
    tokensFrom? .gap (j.scalar ++ rest) = (tokensFrom? .gap rest).map (.leaf j :: ·) := by
  cases j with
  | null => exact tokensFrom?_gap_literal (by simp [scalar]) (by decide) (by rfl) hrest
  | bool b =>
    cases b <;> exact tokensFrom?_gap_literal (by simp [scalar]) (by decide) (by rfl) hrest
  | int n =>
    exact tokensFrom?_gap_literal (decimal_ne_nil n) (all_isInner_decimal n) (literal?_decimal n)
      hrest
  | real written => simp [isExact] at hexact
  | str s => exact tokensFrom?_gap_quote s rest
  | arr items => exact absurd rfl (harr items)
  | obj members => exact absurd rfl (hobj members)

/-- A bracket opens an array. -/
theorem tokensFrom?_gap_openArr (rest : List Char) :
    tokensFrom? .gap ('[' :: rest) = (tokensFrom? .gap rest).map (.openArr :: ·) :=
  tokensFrom?_gap_of_punctuation? rfl rfl rest

/-- A bracket closes an array. -/
theorem tokensFrom?_gap_closeArr (rest : List Char) :
    tokensFrom? .gap (']' :: rest) = (tokensFrom? .gap rest).map (.closeArr :: ·) :=
  tokensFrom?_gap_of_punctuation? rfl rfl rest

/-- A brace opens an object. -/
theorem tokensFrom?_gap_openObj (rest : List Char) :
    tokensFrom? .gap ('{' :: rest) = (tokensFrom? .gap rest).map (.openObj :: ·) :=
  tokensFrom?_gap_of_punctuation? rfl rfl rest

/-- A brace closes an object. -/
theorem tokensFrom?_gap_closeObj (rest : List Char) :
    tokensFrom? .gap ('}' :: rest) = (tokensFrom? .gap rest).map (.closeObj :: ·) :=
  tokensFrom?_gap_of_punctuation? rfl rfl rest

/-- A comma is a token. -/
theorem tokensFrom?_gap_comma (rest : List Char) :
    tokensFrom? .gap (',' :: rest) = (tokensFrom? .gap rest).map (.comma :: ·) :=
  tokensFrom?_gap_of_punctuation? rfl rfl rest

/-- A colon is a token, and the space behind it is skipped. -/
theorem tokensFrom?_gap_colon (rest : List Char) :
    tokensFrom? .gap (':' :: ' ' :: rest) = (tokensFrom? .gap rest).map (.colon :: ·) := by
  rw [← tokensFrom?_gap_of_isBlank (c := ' ') rfl rest]
  exact tokensFrom?_gap_of_punctuation? rfl rfl (' ' :: rest)

mutual

/-- The text of a value is cut into its tokens. -/
theorem tokensFrom?_gap_prettyChars {j : Json} (hexact : j.isExact) (level : Nat) {rest : List Char}
    (hrest : Ends rest) :
    tokensFrom? .gap (j.prettyChars level ++ rest) =
      (tokensFrom? .gap rest).map (j.tokens ++ ·) := by
  match j with
  | .arr [] =>
    simp [prettyChars, tokens, itemTokens, tokensFrom?_gap_openArr, tokensFrom?_gap_closeArr,
      Function.comp_def]
  | .arr (x :: xs) =>
    have hitems := tokensFrom?_gap_prettyItems (by simpa [isExact] using hexact) (level + 1)
      (ends_newline level (']' :: rest))
    simp [prettyChars, tokens, tokensFrom?_gap_openArr, hitems, tokensFrom?_gap_newline,
      tokensFrom?_gap_closeArr, Function.comp_def]
  | .obj [] =>
    simp [prettyChars, tokens, memberTokens, tokensFrom?_gap_openObj, tokensFrom?_gap_closeObj,
      Function.comp_def]
  | .obj (x :: xs) =>
    have hmembers := tokensFrom?_gap_prettyMembers (by simpa [isExact] using hexact) (level + 1)
      (ends_newline level ('}' :: rest))
    simp [prettyChars, tokens, tokensFrom?_gap_openObj, hmembers, tokensFrom?_gap_newline,
      tokensFrom?_gap_closeObj, Function.comp_def]
  | .null | .bool _ | .int _ | .real _ | .str _ =>
    simp [prettyChars, tokens, tokensFrom?_gap_scalar hexact, hrest]

/-- The text of items is cut into their tokens. -/
theorem tokensFrom?_gap_prettyItems {xs : List Json} (hexact : exactItems xs) (level : Nat)
    {rest : List Char} (hrest : Ends rest) :
    tokensFrom? .gap (prettyItems level xs ++ rest) =
      (tokensFrom? .gap rest).map (itemTokens xs ++ ·) := by
  match xs with
  | [] => simp [prettyItems, itemTokens]
  | [x] =>
    have hx : x.isExact := by simpa [exactItems] using hexact
    rw [prettyItems, itemTokens, List.append_assoc, tokensFrom?_gap_newline,
      tokensFrom?_gap_prettyChars hx level hrest]
  | x :: y :: xs =>
    obtain ⟨hx, hxs⟩ : x.isExact = true ∧ exactItems (y :: xs) = true := by
      simpa only [exactItems, Bool.and_eq_true] using hexact
    have htail := tokensFrom?_gap_prettyItems hxs level hrest
    have hhead := tokensFrom?_gap_prettyChars hx level
      (.comma (prettyItems level (y :: xs) ++ rest))
    simp [prettyItems, itemTokens, tokensFrom?_gap_newline, hhead, tokensFrom?_gap_comma, htail,
      Function.comp_def]

/-- The text of members is cut into their tokens. -/
theorem tokensFrom?_gap_prettyMembers {xs : List (Option String × Json)} (hexact : exactMembers xs)
    (level : Nat) {rest : List Char} (hrest : Ends rest) :
    tokensFrom? .gap (prettyMembers level xs ++ rest) =
      (tokensFrom? .gap rest).map (memberTokens xs ++ ·) := by
  match xs with
  | [] => simp [prettyMembers, memberTokens]
  | [(k, x)] =>
    have hx : x.isExact := by simpa [exactMembers] using hexact
    have hvalue := tokensFrom?_gap_prettyChars hx level hrest
    simp [prettyMembers, memberTokens, tokensFrom?_gap_newline, tokensFrom?_gap_quote,
      tokensFrom?_gap_colon, hvalue, Function.comp_def]
  | (k, x) :: y :: xs =>
    obtain ⟨hx, hxs⟩ : x.isExact = true ∧ exactMembers (y :: xs) = true := by
      simpa only [exactMembers, Bool.and_eq_true] using hexact
    have htail := tokensFrom?_gap_prettyMembers hxs level hrest
    have hhead := tokensFrom?_gap_prettyChars hx level
      (.comma (prettyMembers level (y :: xs) ++ rest))
    simp [prettyMembers, memberTokens, tokensFrom?_gap_newline, tokensFrom?_gap_quote,
      tokensFrom?_gap_colon, hhead, tokensFrom?_gap_comma, htail, Function.comp_def]

end

/-- The tokens of a value begin with one that closes no array. -/
theorem tokens_ne_closeArr_cons (j : Json) (rest following : List Token) :
    j.tokens ++ rest ≠ .closeArr :: following := by
  cases j <;> simp [tokens]

/-- Every value has a token. -/
theorem length_tokens_pos (j : Json) : 0 < j.tokens.length := by
  cases j <;> simp [tokens]

/-- Items do not start with the bracket that closes an array, so an array with items is not read as
the empty one. -/
theorem itemTokens_ne_closeArr_cons (x : Json) (xs : List Json) (rest following : List Token) :
    itemTokens (x :: xs) ++ rest ≠ .closeArr :: following := by
  cases xs with
  | nil => exact tokens_ne_closeArr_cons x rest following
  | cons y ys =>
    rw [itemTokens, List.append_assoc]
    · exact tokens_ne_closeArr_cons x _ following
    · simp

/-- Members do not start with the brace that closes an object. -/
theorem memberTokens_ne_closeObj_cons (x : Option String × Json) (xs : List (Option String × Json))
    (rest following : List Token) :
    memberTokens (x :: xs) ++ rest ≠ .closeObj :: following := by
  cases xs <;> simp [memberTokens]

mutual

/-- The tokens of a value are assembled into it, and those after them are left. -/
theorem value?_tokens (fuel : Nat) (j : Json) (hfuel : 2 * j.tokens.length ≤ fuel + 2)
    (rest : List Token) : value? fuel (j.tokens ++ rest) = some (j, rest) := by
  match j with
  | .arr [] => simp [tokens, itemTokens, value?]
  | .arr (x :: xs) =>
    simp only [tokens, List.length_cons, List.length_append, List.length_nil] at hfuel
    obtain ⟨fuel, rfl⟩ : ∃ bound, fuel = bound + 1 := ⟨fuel - 1, by omega⟩
    have hitems := items?_itemTokens fuel x xs (by omega) rest
    rw [tokens, List.cons_append, List.append_assoc, List.singleton_append, value?, hitems]
    · rfl
    · exact fun following heq => itemTokens_ne_closeArr_cons x xs _ following heq
  | .obj [] => simp [tokens, memberTokens, value?]
  | .obj (x :: xs) =>
    simp only [tokens, List.length_cons, List.length_append, List.length_nil] at hfuel
    obtain ⟨fuel, rfl⟩ : ∃ bound, fuel = bound + 1 := ⟨fuel - 1, by omega⟩
    have hmembers := members?_memberTokens fuel x xs (by omega) rest
    rw [tokens, List.cons_append, List.append_assoc, List.singleton_append, value?, hmembers]
    · rfl
    · exact fun following heq => memberTokens_ne_closeObj_cons x xs _ following heq
  | .null | .bool _ | .int _ | .real _ | .str _ => simp [tokens, value?]

/-- The tokens of items are assembled into them, up to the closing bracket. -/
theorem items?_itemTokens (fuel : Nat) (x : Json) (xs : List Json)
    (hfuel : 2 * (itemTokens (x :: xs)).length ≤ fuel + 1) (rest : List Token) :
    items? fuel (itemTokens (x :: xs) ++ .closeArr :: rest) = some (x :: xs, rest) := by
  have hpos := length_tokens_pos x
  match xs with
  | [] =>
    simp only [itemTokens] at hfuel
    obtain ⟨fuel, rfl⟩ : ∃ bound, fuel = bound + 1 := ⟨fuel - 1, by omega⟩
    simp [itemTokens, items?, value?_tokens fuel x (by omega)]
  | y :: ys =>
    simp only [itemTokens, List.length_append, List.length_cons] at hfuel
    obtain ⟨fuel, rfl⟩ : ∃ bound, fuel = bound + 1 := ⟨fuel - 1, by omega⟩
    have hhead := value?_tokens fuel x (by omega)
    have htail := items?_itemTokens fuel y ys (by omega) rest
    simp [itemTokens, items?, hhead, htail]

/-- The tokens of members are assembled into them, up to the closing brace. -/
theorem members?_memberTokens (fuel : Nat) (x : Option String × Json)
    (xs : List (Option String × Json)) (hfuel : 2 * (memberTokens (x :: xs)).length ≤ fuel + 1)
    (rest : List Token) :
    members? fuel (memberTokens (x :: xs) ++ .closeObj :: rest) = some (x :: xs, rest) := by
  obtain ⟨k, x⟩ := x
  match xs with
  | [] =>
    simp only [memberTokens, List.length_cons] at hfuel
    obtain ⟨fuel, rfl⟩ : ∃ bound, fuel = bound + 1 := ⟨fuel - 1, by omega⟩
    simp [memberTokens, members?, value?_tokens fuel x (by omega)]
  | y :: ys =>
    simp only [memberTokens, List.length_append, List.length_cons] at hfuel
    obtain ⟨fuel, rfl⟩ : ∃ bound, fuel = bound + 1 := ⟨fuel - 1, by omega⟩
    have hhead := value?_tokens fuel x (by omega)
    have htail := members?_memberTokens fuel y ys (by omega) rest
    simp [memberTokens, members?, hhead, htail]

end

/-- A value with whole numbers only is read back from its text. -/
theorem read?_pretty {j : Json} (hexact : j.isExact) : read? j.pretty = some j := by
  have htokens : tokens? j.pretty = some j.tokens := by
    have hscan := tokensFrom?_gap_prettyChars hexact 0 .nil
    simpa [tokens?, pretty, tokensFrom?] using hscan
  have hvalue := value?_tokens (2 * j.tokens.length) j (by omega) []
  simp only [List.append_nil] at hvalue
  simp [read?, htokens, hvalue]

end TaintTrail.Json

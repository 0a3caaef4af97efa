import Mathlib.Data.List.Induction

/-!
# Matching brackets

In a word of brackets an opening and a closing one match if those in between are balanced. A counter
of the open brackets finds the first closing bracket without a match: it is the one that comes when
none is open. The brackets may carry something with them, and a search with the counter gives what
the bracket that it finds carries.
-/

namespace TaintTrail

/-- A bracket. -/
inductive Bracket where
  | opening
  | closing
  deriving DecidableEq, Repr

namespace Bracket

/-- The words in which every bracket has a match. -/
inductive Balanced : List Bracket → Prop
  | nil : Balanced []
  | enclosed {inner rest : List Bracket} : Balanced inner → Balanced rest →
      Balanced (.opening :: (inner ++ .closing :: rest))

/-- The brackets at two positions of a word match. -/
structure Matches (word : List Bracket) (i j : Nat) : Prop where
  lt : i < j
  opens : word[i]? = some .opening
  closes : word[j]? = some .closing
  balanced : Balanced ((word.take j).drop (i + 1))

/-- There is a closing bracket without a match at a position of a word. -/
structure IsUnmatched (word : List Bracket) (j : Nat) : Prop where
  closes : word[j]? = some .closing
  unmatched : ∀ i, ¬Matches word i j

/-- The first closing bracket without a match is at a position of a word. -/
structure IsFirstUnmatched (word : List Bracket) (k : Nat) : Prop extends IsUnmatched word k where
  first : ∀ j < k, ¬IsUnmatched word j

/-- The number of open brackets after a word, if `depth` are open before it and none is closed
while none is open. -/
def openAfter? : Nat → List Bracket → Option Nat
  | depth, [] => some depth
  | depth, .opening :: word => openAfter? (depth + 1) word
  | 0, .closing :: _ => none
  | depth + 1, .closing :: word => openAfter? depth word

variable {word u v : List Bracket} {i j k depth n : Nat}

/-! ## Balanced words and the counter -/

/-- Balanced words one after the other are balanced. -/
theorem Balanced.append (hu : Balanced u) (hv : Balanced v) : Balanced (u ++ v) := by
  induction hu with
  | nil => exact hv
  | @enclosed inner rest hinner _ _ ih =>
    have h := Balanced.enclosed hinner ih
    simpa using h

/-- The counter goes through two words one after the other. -/
theorem openAfter?_append (depth : Nat) (u v : List Bracket) :
    openAfter? depth (u ++ v) = (openAfter? depth u).bind (openAfter? · v) := by
  fun_induction openAfter? depth u with
  | case1 depth => rfl
  | case2 depth word ih => simpa [openAfter?] using ih
  | case3 word => rfl
  | case4 depth word ih => simpa [openAfter?] using ih

/-- A balanced word leaves the counter as it was, by induction on the word. -/
theorem Balanced.openAfter?_eq (h : Balanced u) (depth : Nat) :
    openAfter? depth u = some depth := by
  induction h generalizing depth with
  | nil => rfl
  | enclosed _ _ ihinner ihrest => simp [openAfter?, openAfter?_append, ihinner, ihrest]

/-- The words that leave a number of brackets open: behind each of them comes a balanced word. -/
inductive LeavesOpen : Nat → List Bracket → Prop
  | balanced {u : List Bracket} : Balanced u → LeavesOpen 0 u
  | opened {n : Nat} {u v : List Bracket} : LeavesOpen n u → Balanced v →
      LeavesOpen (n + 1) (u ++ .opening :: v)

/-- A balanced word behind another opens and closes nothing of it. -/
theorem LeavesOpen.append (hu : LeavesOpen n u) (hv : Balanced v) : LeavesOpen n (u ++ v) := by
  cases hu with
  | balanced hu => exact .balanced (hu.append hv)
  | @opened n u inner hu hinner =>
    have h := LeavesOpen.opened hu (hinner.append hv)
    simpa using h

/-- The counter gives the number of brackets that a word leaves open. -/
theorem LeavesOpen.openAfter?_eq (h : LeavesOpen n word) : openAfter? 0 word = some n := by
  induction h with
  | balanced hu => exact hu.openAfter?_eq 0
  | opened _ hv ih => simp [openAfter?_append, ih, openAfter?, hv.openAfter?_eq]

/-- The counter counts the brackets that a word leaves open. -/
theorem openAfter?_eq_some_iff : openAfter? 0 word = some n ↔ LeavesOpen n word := by
  refine ⟨fun h => ?_, LeavesOpen.openAfter?_eq⟩
  induction word using List.reverseRecOn generalizing n with
  | nil =>
    obtain rfl : 0 = n := by simpa [openAfter?] using h
    exact .balanced .nil
  | append_singleton start last ih =>
    obtain ⟨depth, hstart, hlast⟩ := Option.bind_eq_some_iff.mp (openAfter?_append 0 start _ ▸ h)
    have hopen := ih hstart
    cases last with
    | opening =>
      obtain rfl : depth + 1 = n := by simpa [openAfter?] using hlast
      exact .opened hopen .nil
    | closing =>
      -- The last bracket matches the last one that was open before it.
      cases hopen with
      | balanced hu => simp [openAfter?] at hlast
      | @opened depth u inner hu hinner =>
        obtain rfl : depth = n := by simpa [openAfter?] using hlast
        have h := hu.append (hinner.enclosed .nil)
        simpa using h

/-! ## Closing brackets without a match -/

/-- A closing bracket has a match if one is open before it. -/
theorem exists_matches_iff (hcloses : word[j]? = some .closing)
    (hopen : openAfter? 0 (word.take j) = some n) : (∃ i, Matches word i j) ↔ 0 < n := by
  constructor
  · rintro ⟨i, hmatches⟩
    have hget : (word.take j)[i]? = some .opening := by
      rw [List.getElem?_take_of_lt hmatches.lt, hmatches.opens]
    obtain ⟨hi, hopening⟩ := List.getElem?_eq_some_iff.mp hget
    rw [← List.take_append_drop i (word.take j), List.drop_eq_getElem_cons hi, hopening,
      openAfter?_append] at hopen
    obtain ⟨depth, -, hdepth⟩ := Option.bind_eq_some_iff.mp hopen
    obtain rfl : depth + 1 = n := by
      simpa [openAfter?, hmatches.balanced.openAfter?_eq] using hdepth
    exact Nat.succ_pos depth
  · intro hpos
    generalize htake : word.take j = start at hopen
    cases openAfter?_eq_some_iff.mp hopen with
    | balanced => cases hpos
    | @opened n u v _ hv =>
      have hlt : u.length < j := by
        have hle := List.length_take_le j word
        rw [htake, List.length_append, List.length_cons] at hle
        omega
      refine ⟨u.length, hlt, ?_, hcloses, ?_⟩
      · rw [← List.getElem?_take_of_lt hlt, htake]
        simp
      · rw [htake]
        simpa using hv

/-- The counter gets to a position if the closing brackets before it have a match. -/
theorem exists_openAfter?_take_iff :
    (∃ n, openAfter? 0 (word.take k) = some n) ↔ ∀ j < k, ¬IsUnmatched word j := by
  induction k with
  | zero => simp [openAfter?]
  | succ k ih =>
    rw [Nat.forall_lt_succ_right, ← ih, List.take_add_one]
    simp only [openAfter?_append, Option.bind_eq_some_iff]
    constructor
    · rintro ⟨n, depth, hdepth, hlast⟩
      refine ⟨⟨depth, hdepth⟩, fun hk => ?_⟩
      rw [hk.closes] at hlast
      obtain ⟨i, hmatches⟩ := (exists_matches_iff hk.closes hdepth).mpr
        (Nat.pos_of_ne_zero fun h => by simp [h, openAfter?] at hlast)
      exact hk.unmatched i hmatches
    · rintro ⟨⟨depth, hdepth⟩, hk⟩
      cases hget : word[k]? with
      | none => exact ⟨depth, depth, hdepth, rfl⟩
      | some last =>
        cases last with
        | opening => exact ⟨depth + 1, depth, hdepth, rfl⟩
        | closing =>
          have hpos : 0 < depth :=
            (exists_matches_iff hget hdepth).mp (not_forall_not.mp fun h => hk ⟨hget, h⟩)
          obtain ⟨rest, rfl⟩ := Nat.exists_eq_add_one_of_ne_zero (Nat.ne_of_gt hpos)
          exact ⟨rest, rest + 1, hdepth, rfl⟩

/-- The first closing bracket without a match is the one that comes when none is open. -/
theorem isFirstUnmatched_iff :
    IsFirstUnmatched word k ↔
      word[k]? = some .closing ∧ openAfter? 0 (word.take k) = some 0 := by
  constructor
  · intro h
    obtain ⟨n, hn⟩ := exists_openAfter?_take_iff.mpr h.first
    have hzero : n = 0 := by
      by_contra hne
      obtain ⟨i, hmatches⟩ := (exists_matches_iff h.closes hn).mpr (Nat.pos_of_ne_zero hne)
      exact h.unmatched i hmatches
    exact ⟨h.closes, hzero ▸ hn⟩
  · rintro ⟨hcloses, hopen⟩
    refine ⟨⟨hcloses, fun i hmatches => ?_⟩, exists_openAfter?_take_iff.mp ⟨0, hopen⟩⟩
    exact absurd ((exists_matches_iff hcloses hopen).mp ⟨i, hmatches⟩) (Nat.lt_irrefl 0)

instance : Decidable (IsFirstUnmatched word k) := decidable_of_iff' _ isFirstUnmatched_iff

/-! ## Searching with the counter -/

section Search

variable {β : Type} {b : β} {marked : List (Bracket × β)}

/-- What the first closing bracket without a match carries, if `depth` brackets are open before the
word. -/
def firstUnmatched? : Nat → List (Bracket × β) → Option β
  | _, [] => none
  | depth, (.opening, _) :: word => firstUnmatched? (depth + 1) word
  | 0, (.closing, b) :: _ => some b
  | depth + 1, (.closing, _) :: word => firstUnmatched? depth word

/-- The search finds the closing bracket that comes when none is open. -/
theorem firstUnmatched?_eq_some_iff :
    firstUnmatched? depth marked = some b ↔
      ∃ k, marked[k]? = some (.closing, b) ∧
        openAfter? depth ((marked.map (·.1)).take k) = some 0 := by
  fun_induction firstUnmatched? depth marked with
  | case1 depth => simp
  | case2 depth c word ih =>
    rw [← Nat.or_exists_add_one, ih]
    simp [openAfter?]
  | case3 c word =>
    rw [← Nat.or_exists_add_one]
    simp [openAfter?]
  | case4 depth c word ih =>
    rw [← Nat.or_exists_add_one, ih]
    simp [openAfter?]

/-- The search gives what the first closing bracket without a match carries. -/
theorem firstUnmatched?_eq_some_iff_isFirstUnmatched :
    firstUnmatched? 0 marked = some b ↔
      ∃ k, IsFirstUnmatched (marked.map (·.1)) k ∧ marked[k]? = some (.closing, b) := by
  rw [firstUnmatched?_eq_some_iff]
  refine exists_congr fun k => ?_
  rw [isFirstUnmatched_iff, List.getElem?_map]
  constructor
  · rintro ⟨hget, hopen⟩
    exact ⟨⟨by simp [hget], hopen⟩, hget⟩
  · rintro ⟨⟨-, hopen⟩, hget⟩
    exact ⟨hget, hopen⟩

/-- The search gives nothing if every closing bracket has a match. -/
theorem firstUnmatched?_eq_none_iff_isFirstUnmatched :
    firstUnmatched? 0 marked = none ↔ ∀ k, ¬IsFirstUnmatched (marked.map (·.1)) k := by
  rw [Option.eq_none_iff_forall_ne_some]
  constructor
  · intro h k hk
    obtain ⟨⟨_, b⟩, hget, rfl⟩ : ∃ pair, marked[k]? = some pair ∧ pair.1 = .closing := by
      simpa using hk.closes
    exact h b (firstUnmatched?_eq_some_iff_isFirstUnmatched.mpr ⟨k, hk, hget⟩)
  · intro h b hb
    obtain ⟨k, hk, -⟩ := firstUnmatched?_eq_some_iff_isFirstUnmatched.mp hb
    exact h k hk

end Search

end Bracket

end TaintTrail

import TaintTrail.Sorted

/-!
# What sorted sets and maps contain

Membership in the results of the operations on sorted lists. None of these facts needs the list to
be in order: where it is not, an operation may keep a second entry for a key, but it loses nothing.
The last sections are about the order itself: the operations keep it, a map in order is the map of
its own entries, and sets or maps in order that contain the same are the same.
-/

namespace TaintTrail.Sorted

variable {α κ β : Type}

/-- Adding an element to a set adds that one and no other. -/
@[simp] theorem mem_insert [Ord α] [Std.LawfulEqOrd α] {a b : α} {set : List α} :
    b ∈ insert a set ↔ b = a ∨ b ∈ set := by
  induction set with
  | nil => simp [insert]
  | cons c rest ih =>
    unfold insert
    cases horder : compare a c with
    | lt => simp
    | eq =>
      obtain rfl := Std.LawfulEqOrd.eq_of_compare horder
      simp
    | gt =>
      simp only [List.mem_cons, ih]
      exact or_left_comm

section Map

variable [Ord κ] [Std.LawfulEqOrd κ] {key : κ} {map : List (κ × β)}

/-- A map has an entry of a certain kind after the value of a key was changed exactly if it had one
before or the change brings one about, provided that the change takes none away. -/
theorem exists_mem_alter_iff {f : Option β → β} {P : κ → β → Prop} {Q : Prop}
    (hnew : P key (f none) ↔ Q) (hold : ∀ b, P key (f (some b)) ↔ P key b ∨ Q) :
    (∃ entry ∈ alter key f map, P entry.1 entry.2) ↔ (∃ entry ∈ map, P entry.1 entry.2) ∨ Q := by
  induction map with
  | nil => simp [alter, hnew]
  | cons entry rest ih =>
    obtain ⟨k, b⟩ := entry
    unfold alter
    cases horder : compare key k with
    | lt => simp [hnew, or_comm]
    | eq =>
      obtain rfl := Std.LawfulEqOrd.eq_of_compare horder
      simp only [List.mem_cons, exists_eq_or_imp, hold]
      exact or_right_comm
    | gt => simp only [List.mem_cons, exists_eq_or_imp, ih, or_assoc]

/-- Setting the value of a key gives the key an entry, and the others keep theirs. -/
theorem exists_mem_put_iff {value : β} {k : κ} :
    (∃ b, (k, b) ∈ put key value map) ↔ k = key ∨ ∃ b, (k, b) ∈ map := by
  have hentry (entries : List (κ × β)) :
      (∃ b, (k, b) ∈ entries) ↔ ∃ entry ∈ entries, entry.1 = k := by
    constructor
    · rintro ⟨b, hb⟩
      exact ⟨(k, b), hb, rfl⟩
    · rintro ⟨⟨k', b⟩, hb, rfl⟩
      exact ⟨b, hb⟩
  rw [hentry, hentry, put, exists_mem_alter_iff (P := fun k' _ => k' = k) (Q := key = k)]
  · rw [or_comm, eq_comm]
  · exact Iff.rfl
  · exact fun b => (or_self _).symm.to_iff

/-- An entry after the value of a key was changed was there before, is new, or is a changed one. -/
theorem mem_alter_cases {f : Option β → β} {entry : κ × β} (h : entry ∈ alter key f map) :
    entry ∈ map ∨ entry = (key, f none) ∨ ∃ b, (key, b) ∈ map ∧ entry = (key, f (some b)) := by
  induction map with
  | nil => exact .inr (.inl (List.mem_singleton.mp h))
  | cons first rest ih =>
    obtain ⟨k, b⟩ := first
    unfold alter at h
    cases horder : compare key k with
    | lt =>
      rw [horder] at h
      obtain rfl | h := List.mem_cons.mp h
      · exact .inr (.inl rfl)
      · exact .inl h
    | eq =>
      rw [horder] at h
      obtain rfl := Std.LawfulEqOrd.eq_of_compare horder
      obtain rfl | h := List.mem_cons.mp h
      · exact .inr (.inr ⟨b, List.mem_cons_self, rfl⟩)
      · exact .inl (List.mem_cons_of_mem _ h)
    | gt =>
      rw [horder] at h
      obtain rfl | h := List.mem_cons.mp h
      · exact .inl List.mem_cons_self
      · obtain hold | hnew | ⟨b', hb', hchanged⟩ := ih h
        · exact .inl (List.mem_cons_of_mem _ hold)
        · exact .inr (.inl hnew)
        · exact .inr (.inr ⟨b', List.mem_cons_of_mem _ hb', hchanged⟩)

/-- An entry after the value of a key was set is the new one or was there before. -/
theorem eq_or_mem_of_mem_put {value : β} {entry : κ × β} (h : entry ∈ put key value map) :
    entry = (key, value) ∨ entry ∈ map := by
  obtain hold | hnew | ⟨-, -, hchanged⟩ := mem_alter_cases h
  · exact .inr hold
  · exact .inl hnew
  · exact .inl hchanged

/-- Setting the value of a key leaves the entries of the others as they are. -/
theorem mem_put_iff_of_ne {value b : β} {k : κ} (hne : k ≠ key) :
    (k, b) ∈ put key value map ↔ (k, b) ∈ map := by
  unfold put
  induction map with
  | nil => simp [alter, hne]
  | cons first rest ih =>
    obtain ⟨k', b'⟩ := first
    unfold alter
    cases horder : compare key k' with
    | lt => simp [hne]
    | eq =>
      obtain rfl := Std.LawfulEqOrd.eq_of_compare horder
      simp [hne]
    | gt => simp only [List.mem_cons, ih]

omit [Std.LawfulEqOrd κ] in
/-- A map is made by putting its pairs in one after the other. -/
theorem ofPairs_eq_foldl (pairs : List (κ × β)) :
    ofPairs pairs = pairs.foldl (fun map pair => put pair.1 pair.2 map) [] := rfl

/-- The map of a list has entries for the keys of the list. -/
theorem exists_mem_ofPairs_iff {pairs : List (κ × β)} {k : κ} :
    (∃ b, (k, b) ∈ ofPairs pairs) ↔ ∃ b, (k, b) ∈ pairs := by
  suffices h : ∀ map : List (κ × β),
      (∃ b, (k, b) ∈ pairs.foldl (fun map pair => put pair.1 pair.2 map) map) ↔
        (∃ b, (k, b) ∈ map) ∨ ∃ b, (k, b) ∈ pairs by
    simpa [ofPairs_eq_foldl] using h []
  induction pairs with
  | nil => simp
  | cons pair rest ih =>
    intro map
    obtain ⟨key, value⟩ := pair
    rw [List.foldl_cons, ih, exists_mem_put_iff]
    simp only [List.mem_cons, Prod.mk.injEq, exists_or, exists_and_left, exists_eq, and_true]
    exact (or_congr_left or_comm).trans or_assoc

/-- Every entry of the map of a list is in the list. -/
theorem mem_of_mem_ofPairs {pairs : List (κ × β)} {entry : κ × β} (h : entry ∈ ofPairs pairs) :
    entry ∈ pairs := by
  suffices hall : ∀ map : List (κ × β),
      entry ∈ pairs.foldl (fun map pair => put pair.1 pair.2 map) map →
        entry ∈ map ∨ entry ∈ pairs by
    simpa using hall [] h
  clear h
  induction pairs with
  | nil => exact fun map h => .inl h
  | cons pair rest ih =>
    intro map h
    obtain hput | hrest := ih _ h
    · obtain rfl | hmap := eq_or_mem_of_mem_put hput
      · exact .inr List.mem_cons_self
      · exact .inl hmap
    · exact .inr (List.mem_cons_of_mem _ hrest)

end Map

section Sets

variable [Ord κ] [Ord α] {key : κ} {a : α} {map : List (κ × List α)}

/-- The keys of a map of sets, each with the elements of its set. -/
def pairs (map : List (κ × List α)) : List (κ × α) :=
  map.flatMap fun entry => entry.2.map fun b => (entry.1, b)

omit [Ord κ] [Ord α] in
/-- The elements of the first set come first. -/
theorem pairs_cons (entry : κ × List α) (rest : List (κ × List α)) :
    pairs (entry :: rest) = (entry.2.map fun b => (entry.1, b)) ++ pairs rest :=
  List.flatMap_cons

omit [Ord κ] [Ord α] in
/-- A key has the elements of its set. -/
theorem mem_pairs {k : κ} {b : α} :
    (k, b) ∈ pairs map ↔ ∃ entry ∈ map, entry.1 = k ∧ b ∈ entry.2 := by
  simp only [pairs, List.mem_flatMap, List.mem_map, Prod.mk.injEq]
  constructor
  · rintro ⟨entry, hentry, _, hb, rfl, rfl⟩
    exact ⟨entry, hentry, rfl, hb⟩
  · rintro ⟨entry, hentry, rfl, hb⟩
    exact ⟨entry, hentry, b, hb, rfl, rfl⟩

/-- Adding an element to the set of a key adds it there and nothing else. -/
theorem mem_pairs_insertAt [Std.LawfulEqOrd κ] [Std.LawfulEqOrd α] {pair : κ × α} :
    pair ∈ pairs (insertAt key a map) ↔ pair ∈ pairs map ∨ pair = (key, a) := by
  obtain ⟨k, b⟩ := pair
  rw [mem_pairs, mem_pairs, insertAt]
  refine exists_mem_alter_iff (P := fun k' set => k' = k ∧ b ∈ set) ?_ fun set => ?_
  · simp [eq_comm]
  · simp only [Option.getD_some, mem_insert, Prod.mk.injEq]
    rw [and_or_left, or_comm, eq_comm]

/-- The set of a key is not empty once an element was added to it, and no other set changes. -/
theorem ne_nil_of_mem_insertAt [Std.LawfulEqOrd κ] [Std.LawfulEqOrd α]
    (h : ∀ entry ∈ map, entry.2 ≠ []) : ∀ entry ∈ insertAt key a map, entry.2 ≠ [] := by
  have hinsert (set : List α) : insert a set ≠ [] :=
    List.ne_nil_of_mem (mem_insert.mpr (.inl rfl))
  intro entry hentry
  obtain hold | rfl | ⟨set, -, rfl⟩ := mem_alter_cases hentry
  · exact h entry hold
  · exact hinsert _
  · exact hinsert _

end Sets

section Order

variable [Ord κ] {key : κ} {map : List (κ × β)}

/-- The keys of a map stand in strictly increasing order. -/
def IsOrdered (map : List (κ × β)) : Prop := map.Pairwise fun a b => compare a.1 b.1 = .lt

instance : Decidable (IsOrdered map) := inferInstanceAs (Decidable (List.Pairwise _ map))

/-- A key beyond all others gets its entry at the end. -/
theorem put_eq_append [Std.OrientedOrd κ] {value : β}
    (h : ∀ entry ∈ map, compare entry.1 key = .lt) :
    put key value map = map ++ [(key, value)] := by
  induction map with
  | nil => rfl
  | cons entry rest ih =>
    obtain ⟨hentry, hrest⟩ := List.forall_mem_cons.mp h
    have hgt : compare key entry.1 = .gt := Std.OrientedCmp.gt_of_lt hentry
    simp only [put, alter, hgt, List.cons_append]
    rw [← put, ih hrest]

/-- The map of entries that are in order consists of these entries. -/
theorem ofPairs_eq_self [Std.OrientedOrd κ] (h : IsOrdered map) : ofPairs map = map := by
  suffices hall : ∀ before : List (κ × β), IsOrdered (before ++ map) →
      map.foldl (fun map pair => put pair.1 pair.2 map) before = before ++ map from hall [] h
  clear h
  induction map with
  | nil => simp
  | cons entry rest ih =>
    intro before h
    have hbefore : ∀ other ∈ before, compare other.1 entry.1 = .lt :=
      fun other hother => (List.pairwise_append.mp h).2.2 other hother entry List.mem_cons_self
    rw [List.foldl_cons, put_eq_append hbefore, ih _ (by simpa using h)]
    simp

/-- Changing the value at a key keeps a map in order. -/
theorem isOrdered_alter [Std.TransOrd κ] [Std.LawfulEqOrd κ] {f : Option β → β}
    (h : IsOrdered map) : IsOrdered (alter key f map) := by
  induction map with
  | nil => exact List.pairwise_singleton _ _
  | cons entry rest ih =>
    obtain ⟨hfirst, hrest⟩ := List.pairwise_cons.mp h
    simp only [alter]
    cases horder : compare key entry.1 with
    | lt =>
      refine List.pairwise_cons.mpr ⟨List.forall_mem_cons.mpr ⟨horder, ?_⟩, h⟩
      exact fun other hother => Std.TransCmp.lt_trans horder (hfirst other hother)
    | eq => exact List.pairwise_cons.mpr ⟨hfirst, hrest⟩
    | gt =>
      refine List.pairwise_cons.mpr ⟨fun other hother => ?_, ih hrest⟩
      obtain hold | rfl | ⟨b, -, rfl⟩ := mem_alter_cases hother
      · exact hfirst other hold
      · exact Std.OrientedCmp.lt_of_gt horder
      · exact Std.OrientedCmp.lt_of_gt horder

/-- Putting a value at a key keeps a map in order. -/
theorem isOrdered_put [Std.TransOrd κ] [Std.LawfulEqOrd κ] {value : β} (h : IsOrdered map) :
    IsOrdered (put key value map) :=
  isOrdered_alter h

/-- A map that is made of pairs is in order, whatever their order. -/
theorem isOrdered_ofPairs [Std.TransOrd κ] [Std.LawfulEqOrd κ] (pairs : List (κ × β)) :
    IsOrdered (ofPairs pairs) :=
  List.foldlRecOn pairs _ List.Pairwise.nil fun _ hmap _ _ => isOrdered_put hmap

/-- Two changes of the value of a key are one. -/
theorem alter_alter [Std.ReflOrd κ] (f g : Option β → β) (map : List (κ × β)) :
    alter key g (alter key f map) = alter key (fun old => g (some (f old))) map := by
  induction map with
  | nil => simp [alter, Std.ReflCmp.compare_self]
  | cons entry rest ih =>
    cases horder : compare key entry.1 with
    | lt => simp [alter, horder, Std.ReflCmp.compare_self]
    | eq => simp [alter, horder]
    | gt => simp [alter, horder, ih]

/-- A map in order has one value for a key. -/
theorem IsOrdered.eq_of_mem [Std.OrientedOrd κ] {b b' : β} (h : IsOrdered map)
    (hb : (key, b) ∈ map) (hb' : (key, b') ∈ map) : b = b' := by
  induction map with
  | nil => cases hb
  | cons entry rest ih =>
    obtain ⟨hfirst, hrest⟩ := List.pairwise_cons.mp h
    have hself : compare key key ≠ .lt := by simp [Std.ReflCmp.compare_self]
    cases hb with
    | head =>
      cases hb' with
      | head => rfl
      | tail _ hb' => exact absurd (hfirst (key, b') hb') hself
    | tail _ hb =>
      cases hb' with
      | head => exact absurd (hfirst (key, b) hb) hself
      | tail _ hb' => exact ih hrest hb hb'

end Order

section Increasing

variable [Ord α] {set : List α} {a : α}

/-- The elements of a set stand in strictly increasing order. -/
def IsIncreasing (set : List α) : Prop := set.Pairwise fun a b => compare a b = .lt

instance : Decidable (IsIncreasing set) := inferInstanceAs (Decidable (List.Pairwise _ set))

/-- Inserting an element keeps a set in order. -/
theorem isIncreasing_insert [Std.TransOrd α] [Std.LawfulEqOrd α] (h : IsIncreasing set) :
    IsIncreasing (insert a set) := by
  induction set with
  | nil => exact List.pairwise_singleton _ _
  | cons first rest ih =>
    obtain ⟨hfirst, hrest⟩ := List.pairwise_cons.mp h
    simp only [insert]
    cases horder : compare a first with
    | lt =>
      refine List.pairwise_cons.mpr ⟨List.forall_mem_cons.mpr ⟨horder, ?_⟩, h⟩
      exact fun other hother => Std.TransCmp.lt_trans horder (hfirst other hother)
    | eq => exact h
    | gt =>
      refine List.pairwise_cons.mpr ⟨fun other hother => ?_, ih hrest⟩
      obtain rfl | hother := mem_insert.mp hother
      · exact Std.OrientedCmp.lt_of_gt horder
      · exact hfirst other hother

/-- Lists in strictly increasing order of their keys that have the same elements are the same. -/
theorem eq_of_pairwise_of_mem_iff {γ : Type} [Std.OrientedOrd α] (key : γ → α) {l l' : List γ}
    (h : l.Pairwise fun a b => compare (key a) (key b) = .lt)
    (h' : l'.Pairwise fun a b => compare (key a) (key b) = .lt) (hmem : ∀ c, c ∈ l ↔ c ∈ l') :
    l = l' := by
  have hne {c d : γ} (hlt : compare (key c) (key d) = .lt) : c ≠ d := by
    rintro rfl
    simp [Std.ReflCmp.compare_self] at hlt
  have hperm : l.Perm l' := (List.perm_ext_iff_of_nodup (h.imp hne) (h'.imp hne)).mpr hmem
  refine hperm.eq_of_pairwise (fun c d _ _ hlt hgt => ?_) h h'
  exact absurd hgt (Std.OrientedCmp.not_lt_of_lt hlt)

end Increasing

end TaintTrail.Sorted

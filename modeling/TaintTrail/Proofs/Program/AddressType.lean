import TaintTrail.Proofs.Program.WellFormed

/-!
# Types of address computations

Behind its first index, an address computation goes into an object by one level for each index: into
an element of an array whatever the index is, and into the member of a struct or union at a constant
position. Where there is no such part, the computation still has a type, that of an address of
something unknown, and nothing is found inside of that. So the type does not depend on whether the
indices are given all at once: a computation can be cut anywhere, also behind the index that leads
nowhere, and the second part goes on from what the first one points at.
-/

namespace TaintTrail

namespace Ty

/-- The name of a struct or union. -/
def aggregateName? : Ty → Option String
  | .struct name => some name
  | .union name => some name
  | _ => none

/-- Whether objects of the type have neither elements nor members. -/
def isScalar : Ty → Bool
  | .array _ _ => false
  | .struct _ => false
  | .union _ => false
  | _ => true

end Ty

namespace Program

/-- An index selects a part of an object, by the types of both. -/
inductive Selects (m : Program) : Ty → Value → Ty → Prop
  | element {t : Ty} {length : Option Nat} {index : Value} : Selects m (.array t length) index t
  | member {t u : Ty} {name : String} {layout : Aggregate} {n : Nat}
      (hname : t.aggregateName? = some name) (hlayout : m.aggregate? name = some layout)
      (hmember : layout.members[n]? = some u) : Selects m t (.int n) u

/-- There is no part of an object that an index selects. -/
inductive SelectsNothing (m : Program) : Ty → Value → Prop
  | scalar {t : Ty} {index : Value} (ht : t.isScalar = true) : SelectsNothing m t index
  | noLayout {t : Ty} {index : Value} {name : String} (hname : t.aggregateName? = some name)
      (hlayout : m.aggregate? name = none) : SelectsNothing m t index
  | outOfRange {t : Ty} {n : Int} {name : String} {layout : Aggregate}
      (hname : t.aggregateName? = some name) (hlayout : m.aggregate? name = some layout)
      (hn : n < 0 ∨ layout.members.length ≤ n) : SelectsNothing m t (.int n)
  | notConstant {t : Ty} {index : Value} {name : String} (hname : t.aggregateName? = some name)
      (hindex : ∀ n, index ≠ .int n) : SelectsNothing m t index

/-- Indices lead into an object, one level each. -/
inductive LeadsTo (m : Program) : Ty → List Value → Ty → Prop
  | here {t : Ty} : LeadsTo m t [] t
  | into {t u v : Ty} {index : Value} {indices : List Value} (hpart : m.Selects t index u)
      (hrest : LeadsTo m u indices v) : LeadsTo m t (index :: indices) v

/-- One of the indices selects nothing in what those before it lead to. -/
def LeadsNowhere (m : Program) (t : Ty) (indices : List Value) : Prop :=
  ∃ before index after u, indices = before ++ index :: after ∧ m.LeadsTo t before u ∧
    m.SelectsNothing u index

variable {m : Program} {t u : Ty} {index : Value}

/-! ## One index -/

/-- The parts of a struct or union are the members of its layout. -/
theorem part?_of_aggregateName? {name : String} (h : t.aggregateName? = some name) (n : Nat) :
    m.part? t (.int n) = (m.aggregate? name).bind (·.members[n]?) := by
  cases t with
  | struct | union =>
    obtain rfl := Option.some.inj h
    rfl
  | _ => cases h

/-- The part that an index selects is found. -/
theorem Selects.part?_eq_some (h : m.Selects t index u) : m.part? t index = some u := by
  cases h with
  | element => rfl
  | member hname hlayout hmember =>
    rw [part?_of_aggregateName? hname, hlayout, Option.bind_some, hmember]

/-- A struct or union has a part only at a constant position. -/
theorem part?_eq_none_of_forall_ne {name : String} (hname : t.aggregateName? = some name)
    (hindex : ∀ n : Nat, index ≠ .int n) : m.part? t index = none := by
  cases t with
  | struct | union =>
    cases index with
    | int n =>
      cases n with
      | ofNat n => exact absurd rfl (hindex n)
      | negSucc n => rfl
    | _ => rfl
  | _ => cases hname

/-- Where an index selects nothing, no part is found. -/
theorem SelectsNothing.part?_eq_none (h : m.SelectsNothing t index) : m.part? t index = none := by
  cases h with
  | scalar ht =>
    cases t with
    | array | struct | union => cases ht
    | _ => rfl
  | noLayout hname hlayout =>
    by_cases hindex : ∃ n : Nat, index = .int n
    · obtain ⟨n, rfl⟩ := hindex
      rw [part?_of_aggregateName? hname, hlayout, Option.bind_none]
    · exact part?_eq_none_of_forall_ne hname (not_exists.mp hindex)
  | @outOfRange n _ layout hname hlayout hn =>
    cases n with
    | ofNat n =>
      have hlength : layout.members.length ≤ n := by
        simpa using hn.resolve_left (Int.not_lt.mpr (Int.natCast_nonneg n))
      exact (part?_of_aggregateName? hname n).trans
        (by rw [hlayout, Option.bind_some, List.getElem?_eq_none hlength])
    | negSucc n =>
      refine part?_eq_none_of_forall_ne hname fun k hk => ?_
      cases hk
  | notConstant hname hindex => exact part?_eq_none_of_forall_ne hname fun n => hindex n

/-- An index selects a part or nothing. -/
theorem selects_or_selectsNothing (m : Program) (t : Ty) (index : Value) :
    (∃ u, m.Selects t index u) ∨ m.SelectsNothing t index := by
  cases hname : t.aggregateName? with
  | none =>
    cases t with
    | array element length => exact .inl ⟨element, .element⟩
    | struct | union => cases hname
    | _ => exact .inr (.scalar rfl)
  | some name =>
    cases hlayout : m.aggregate? name with
    | none => exact .inr (.noLayout hname hlayout)
    | some layout =>
      cases index with
      | int n =>
        by_cases hn : n < 0 ∨ layout.members.length ≤ n
        · exact .inr (.outOfRange hname hlayout hn)
        · obtain ⟨k, rfl⟩ := Int.eq_ofNat_of_zero_le (by omega : 0 ≤ n)
          have hk : k < layout.members.length := by omega
          exact .inl ⟨_, .member hname hlayout (List.getElem?_eq_getElem hk)⟩
      | _ => exact .inr (.notConstant hname nofun)

/-! ## All indices -/

section Indices

variable {indices further : List Value}

/-- What follows indices that lead to a part goes on from there. -/
theorem LeadsTo.addressType_append (h : m.LeadsTo t indices u) (first next : Value)
    (further : List Value) :
    m.addressType t (first :: (indices ++ further)) = m.addressType u (next :: further) := by
  have hfold : (indices ++ further).foldlM m.part? t = further.foldlM m.part? u := by
    induction h with
    | here => rfl
    | into hpart _ ih =>
      rw [List.cons_append, List.foldlM_cons, hpart.part?_eq_some]
      exact ih
  rw [addressType, addressType, List.drop_one, List.drop_one, List.tail_cons, List.tail_cons, hfold]

/-- Behind the first index, indices that lead somewhere give the type of an address there. -/
theorem LeadsTo.addressType_eq (h : m.LeadsTo t indices u) (first : Value) :
    m.addressType t (first :: indices) = .pointer u := by
  have happend := h.addressType_append first first []
  rw [List.append_nil] at happend
  exact happend

/-- An index that selects nothing gives the type of an address of something unknown, whatever comes
after it. -/
theorem SelectsNothing.addressType_eq (h : m.SelectsNothing t index) (first : Value)
    (after : List Value) : m.addressType t (first :: index :: after) = .pointer .unknown := by
  rw [addressType, List.drop_one, List.tail_cons, List.foldlM_cons, h.part?_eq_none]
  rfl

/-- So do indices of which one selects nothing. -/
theorem LeadsNowhere.addressType_eq (h : m.LeadsNowhere t indices) (first : Value) :
    m.addressType t (first :: indices) = .pointer .unknown := by
  obtain ⟨before, index, after, u, rfl, hbefore, hnone⟩ := h
  rw [hbefore.addressType_append first first, hnone.addressType_eq]

/-- Indices lead to a part or nowhere. -/
theorem leadsTo_or_leadsNowhere (m : Program) (t : Ty) (indices : List Value) :
    (∃ u, m.LeadsTo t indices u) ∨ m.LeadsNowhere t indices := by
  induction indices generalizing t with
  | nil => exact .inl ⟨t, .here⟩
  | cons index indices ih =>
    obtain ⟨u, hpart⟩ | hnone := m.selects_or_selectsNothing t index
    · obtain ⟨v, hrest⟩ | ⟨before, index', after, v, rfl, hbefore, hnone⟩ := ih u
      · exact .inl ⟨v, .into hpart hrest⟩
      · exact .inr ⟨index :: before, index', after, v, rfl, .into hpart hbefore, hnone⟩
    · exact .inr ⟨[], index, indices, t, rfl, .here, hnone⟩

/-- Further indices do not lead out of nowhere. -/
theorem LeadsNowhere.append (h : m.LeadsNowhere t indices) (further : List Value) :
    m.LeadsNowhere t (indices ++ further) := by
  obtain ⟨before, index, after, u, rfl, hbefore, hnone⟩ := h
  exact ⟨before, index, after ++ further, u, by simp, hbefore, hnone⟩

/-- Nothing is found inside of something unknown. -/
theorem addressType_unknown (m : Program) (first : Value) (indices : List Value) :
    m.addressType .unknown (first :: indices) = .pointer .unknown := by
  cases indices with
  | nil => rfl
  | cons index indices => exact SelectsNothing.addressType_eq (.scalar rfl) first indices

/-- An address computation can be cut anywhere. -/
theorem addressType_append {target : Ty} {first : Value}
    (h : m.addressType t (first :: indices) = .pointer target) (next : Value)
    (further : List Value) :
    m.addressType t (first :: (indices ++ further)) = m.addressType target (next :: further) := by
  obtain ⟨u, hu⟩ | hnowhere := m.leadsTo_or_leadsNowhere t indices
  · obtain rfl : u = target := Ty.pointer.inj ((hu.addressType_eq first).symm.trans h)
    exact hu.addressType_append first next further
  · -- The first computation ends in something unknown, and so do both from there on.
    obtain rfl : .unknown = target := Ty.pointer.inj ((hnowhere.addressType_eq first).symm.trans h)
    rw [(hnowhere.append further).addressType_eq, addressType_unknown]

end Indices

/-- Only the layouts matter for the type of an address computation. -/
theorem addressType_congr {m' : Program} (h : m'.aggregates = m.aggregates) (t : Ty)
    (indices : List Value) : m'.addressType t indices = m.addressType t indices := by
  have hpart : m'.part? = m.part? := by
    funext t index
    simp only [part?, aggregate?, h]
  rw [addressType, hpart, addressType]

end Program

/-! ## Chained computations -/

namespace Builder

open Program

variable {b b' : Builder} {operation : Operation} {stated : Ty} {outcome : Outcome}

/-- The program with the block for the next instruction, and the position of that block. -/
def place (b : Builder) (cursor : Cursor) : Program × Nat :=
  match cursor.block with
  | some block => (b.program, block)
  | none => appendBlock b.program cursor.proc "entry"

/-- A procedure is open and the next instruction has a block to go to. -/
def Accepts (b : Builder) : Prop :=
  ∃ cursor, b.cursor = some cursor ∧
    hasBlock (b.place cursor).1 cursor.proc (b.place cursor).2 = true

/-- An instruction is emitted to the block that has been made for it, if that is there. -/
theorem emit_eq {cursor : Cursor} (h : b.cursor = some cursor) (operation : Operation)
    (stated : Ty) :
    b.emit operation stated =
      if hasBlock (b.place cursor).1 cursor.proc (b.place cursor).2 then
        .ok (⟨appendInst (b.place cursor).1 cursor (b.place cursor).2 operation
            (b.program.resultType stated operation),
          some { cursor with block := some (b.place cursor).2 }⟩,
          if operation.hasResult then .value (.result (b.place cursor).1.instructions.size)
          else .inst (b.place cursor).1.instructions.size)
      else .error .noSuchBlock := by
  unfold emit open? place
  rw [h]
  rfl

/-- Where an instruction was emitted, a block for it was there. -/
theorem accepts_of_emit_eq_ok (h : b.emit operation stated = .ok (b', outcome)) : b.Accepts := by
  obtain ⟨cursor, hcursor, -⟩ := exists_cursor_of_open_bind h
  refine ⟨cursor, hcursor, ?_⟩
  rw [emit_eq hcursor] at h
  split at h
  · next hblock => exact hblock
  · cases h

/-- Making a block changes no layout. -/
theorem aggregates_place (b : Builder) (cursor : Cursor) :
    (b.place cursor).1.aggregates = b.program.aggregates := by
  unfold place
  split <;> rfl

/-- A block is still there after an instruction was added to it. -/
theorem hasBlock_appendInst {m : Program} {cursor : Cursor} {block : Nat} {type : Ty}
    (h : hasBlock m cursor.proc block = true) :
    hasBlock (appendInst m cursor block operation type) cursor.proc block = true := by
  rw [hasBlock_iff] at h ⊢
  rw [blockAt?_appendInst, if_pos ⟨rfl, rfl⟩, Option.isSome_map]
  exact h

/-- An instruction that has a block to go to is appended. Its result has the type that follows from
the program before, the layouts stay as they are, and the next instruction can follow. -/
theorem Accepts.exists_emit (h : b.Accepts) (operation : Operation)
    (hresult : operation.hasResult = true) (stated : Ty) :
    ∃ b' id, b.emit operation stated = .ok (b', .value (.result id)) ∧ b'.Accepts ∧
      b'.program.aggregates = b.program.aggregates ∧
      b'.program.typeOf (.result id) = b.program.resultType stated operation := by
  obtain ⟨cursor, hcursor, hblock⟩ := h
  have hemit := emit_eq hcursor operation stated
  rw [if_pos hblock, if_pos hresult] at hemit
  refine ⟨_, _, hemit, ⟨_, rfl, hasBlock_appendInst hblock⟩, aggregates_place b cursor, ?_⟩
  simp only [typeOf, inst?_appendInst, if_true, Option.map_some, Option.getD_some]

section Chained

variable {indexed target : Ty} {base first whole : Value} {indices further : List Value}

/-- Where an address computation can be appended, two chained ones can be appended in its place, of
which the second goes on from what the result of the first points at. They end in the same type. -/
theorem exists_emit_chained
    (h : b.emit (.addressOf indexed base (first :: (indices ++ further))) stated =
      .ok (b', .value whole))
    (htarget : b.program.addressType indexed (first :: indices) = .pointer target)
    (next : Value) :
    ∃ b₁ middle b₂ last,
      b.emit (.addressOf indexed base (first :: indices)) stated = .ok (b₁, .value middle) ∧
      b₁.program.typeOf middle = .pointer target ∧
      b₁.emit (.addressOf target middle (next :: further)) stated = .ok (b₂, .value last) ∧
      b₂.program.typeOf last = b'.program.typeOf whole := by
  have haccepts := accepts_of_emit_eq_ok h
  obtain ⟨b₀, id, hemit, -, -, htype⟩ :=
    haccepts.exists_emit (.addressOf indexed base (first :: (indices ++ further))) rfl stated
  obtain ⟨rfl, houtcome⟩ := Prod.mk.inj (Except.ok.inj (hemit.symm.trans h))
  obtain rfl := Outcome.value.inj houtcome
  obtain ⟨b₁, middle, hemit₁, haccepts₁, haggregates, htype₁⟩ :=
    haccepts.exists_emit (.addressOf indexed base (first :: indices)) rfl stated
  obtain ⟨b₂, last, hemit₂, -, -, htype₂⟩ :=
    haccepts₁.exists_emit (.addressOf target (.result middle) (next :: further)) rfl stated
  refine ⟨b₁, .result middle, b₂, .result last, hemit₁, htype₁.trans htarget, hemit₂, ?_⟩
  calc b₂.program.typeOf (.result last)
      = b₁.program.addressType target (next :: further) := htype₂
    _ = b.program.addressType target (next :: further) := addressType_congr haggregates _ _
    _ = b.program.addressType indexed (first :: (indices ++ further)) :=
        (addressType_append htarget next further).symm
    _ = b₀.program.typeOf (.result id) := htype.symm

end Chained

end Builder

namespace Program

/-- A procedure is open in a program with a struct of a number and an array. -/
def besideRecord : Builder where
  program := constructed "m"
    [.layout "S" false [.int 32, .array (.int 8) (some 16)],
      .define "f" [.pointer (.struct "S")] .void false]
  cursor := some { proc := 0 }

/-- The type of an address computation is that of any two computations into which it is cut, of
which the second starts from what the first one points at and its first index does not matter. Both
are addresses of the part that the indices lead to, or of something unknown if an index leads
nowhere, on whichever side of the cut. So two chained computations can always be appended to a
program in place of the one, with the same type. -/
theorem addressType_eq_of_cut (m : Program) (indexed : Ty) (first next : Value)
    (indices further : List Value) :
    ∃ target, (m.addressType indexed (first :: indices)).target? = some target ∧
      m.addressType indexed (first :: (indices ++ further)) =
        m.addressType target (next :: further) ∧
      (∀ t, m.LeadsTo indexed (indices ++ further) t →
        m.addressType indexed (first :: (indices ++ further)) = .pointer t ∧
        m.addressType target (next :: further) = .pointer t) ∧
      (m.LeadsNowhere indexed (indices ++ further) →
        m.addressType indexed (first :: (indices ++ further)) = .pointer .unknown ∧
        m.addressType target (next :: further) = .pointer .unknown) ∧
      ∀ (b b' : Builder) (base whole : Value) (stated : Ty), b.program = m →
        b.emit (.addressOf indexed base (first :: (indices ++ further))) stated =
          .ok (b', .value whole) →
        ∃ b₁ middle b₂ last,
          b.emit (.addressOf indexed base (first :: indices)) stated = .ok (b₁, .value middle) ∧
          b₁.program.typeOf middle = .pointer target ∧
          b₁.emit (.addressOf target middle (next :: further)) stated = .ok (b₂, .value last) ∧
          b₂.program.typeOf last = b'.program.typeOf whole := by
  obtain ⟨target, htarget⟩ : ∃ target, m.addressType indexed (first :: indices) = .pointer target :=
    ⟨_, rfl⟩
  have hcut := addressType_append htarget next further
  refine ⟨target, by rw [htarget, Ty.target?], hcut, ?_, ?_, ?_⟩
  · intro t hleads
    have hwhole := hleads.addressType_eq first
    exact ⟨hwhole, hcut.symm.trans hwhole⟩
  · intro hnowhere
    have hwhole := hnowhere.addressType_eq first
    exact ⟨hwhole, hcut.symm.trans hwhole⟩
  · rintro b b' base whole stated rfl hemit
    exact Builder.exists_emit_chained hemit htarget next

/-- An element of the array in the record, all at once and by the array, and an index behind the
last member. -/
theorem addressType_eq_of_cut_besideRecord :
    besideRecord.program.LeadsTo (.struct "S") [.int 1, .int 3] (.int 8) ∧
    (∃ b₁ middle b₂ last,
      besideRecord.emit (.addressOf (.struct "S") (.param 0 0) [.int 0, .int 1]) .void =
        .ok (b₁, .value middle) ∧
      b₁.program.typeOf middle = .pointer (.array (.int 8) (some 16)) ∧
      b₁.emit (.addressOf (.array (.int 8) (some 16)) middle [.int 0, .int 3]) .void =
        .ok (b₂, .value last) ∧
      b₂.program.typeOf last = .pointer (.int 8)) ∧
    besideRecord.program.LeadsNowhere (.struct "S") [.int 2, .int 3] ∧
      besideRecord.program.addressType (.struct "S") [.int 0, .int 2, .int 3] =
        .pointer .unknown := by
  have hlayout : besideRecord.program.aggregate? "S" =
      some ⟨"S", false, [.int 32, .array (.int 8) (some 16)]⟩ := by decide +kernel
  have hleads : besideRecord.program.LeadsTo (.struct "S") [.int 1, .int 3] (.int 8) :=
    .into (.member (n := 1) rfl hlayout rfl) (.into .element .here)
  have hnowhere : besideRecord.program.LeadsNowhere (.struct "S") [.int 2, .int 3] :=
    ⟨[], .int 2, [.int 3], .struct "S", rfl, .here, .outOfRange rfl hlayout (by decide)⟩
  refine ⟨hleads, ?_, hnowhere, ?_⟩
  · obtain ⟨target, htarget, -, htype, -, hchained⟩ :=
      addressType_eq_of_cut besideRecord.program (.struct "S") (.int 0) (.int 0) [.int 1] [.int 3]
    have harray : (besideRecord.program.addressType (.struct "S") [.int 0, .int 1]).target? =
        some (.array (.int 8) (some 16)) := by decide +kernel
    obtain rfl := Option.some.inj (harray.symm.trans htarget)
    have haccepts : besideRecord.Accepts := ⟨_, rfl, by decide +kernel⟩
    obtain ⟨b', id, hemit, -, -, hwhole⟩ := haccepts.exists_emit
      (.addressOf (.struct "S") (.param 0 0) [.int 0, .int 1, .int 3]) rfl .void
    obtain ⟨b₁, middle, b₂, last, hfirst, hmiddle, hsecond, hlast⟩ :=
      hchained besideRecord b' (.param 0 0) (.result id) .void rfl hemit
    exact ⟨b₁, middle, b₂, last, hfirst, hmiddle, hsecond,
      (hlast.trans hwhole).trans (htype (.int 8) hleads).1⟩
  · obtain ⟨target, -, -, -, hunknown, -⟩ :=
      addressType_eq_of_cut besideRecord.program (.struct "S") (.int 0) (.int 0) [.int 2] [.int 3]
    exact (hunknown hnowhere).1

end Program

end TaintTrail

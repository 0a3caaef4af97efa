import TaintTrail.Program.Format
import TaintTrail.Proofs.Json.Codec
import TaintTrail.Proofs.Sorted

/-!
# Programs survive being written and read

For every kind of part of a program, from types and operands to procedures, its decoder belongs to
its encoder. Hence a program is read back from its text unless the text is nested too deeply. The
two fields that a text may leave out and that are always written, blocks and layouts, cost no extra
level: the fields beside them that have to be there are nested at least as deeply.
-/

namespace TaintTrail

open Json (Decoder Codec isWord isDoubleWord isSigned)

/-! ## Types and operands -/

namespace Ty

/-- Whether the numbers in a type are in range. -/
def fits : Ty → Bool
  | .int bits => isWord bits
  | .float bits => isWord bits
  | .pointer t => t.fits
  | .array t n => t.fits && n.all isDoubleWord
  | _ => true

/-- The lengths of arrays, which may be unknown, read back. -/
theorem lengthCodec :
    Codec (Decoder.option Decoder.doubleWord) (Json.option .nat) fun n => n.all isDoubleWord :=
  Json.doubleWordCodec.option fun n => by simp [Json.nat]

/-- Types read back, by induction on the type. -/
theorem readsBack (t : Ty) : Json.ReadsBack ofJson? toJson fits t := by
  intro levels u
  induction t generalizing levels u with
  | void | vaList | unknown =>
    simp [toJson, ofJson?, Json.text, Json.oneOf?, named, List.lookup_cons, fits, Json.nesting]
  | int bits | float bits =>
    cases levels with
    | zero => simp [toJson, ofJson?, Json.object, Json.oneOf?, Json.nesting]
    | succ levels => simp [toJson, ofJson?, Json.object, Json.wordCodec.map_eq_some_iff, fits]
  | struct name | union name =>
    cases levels with
    | zero => simp [toJson, ofJson?, Json.object, Json.oneOf?, Json.nesting]
    | succ levels => simp [toJson, ofJson?, Json.object, Json.stringCodec.map_eq_some_iff, fits]
  | pointer t ih =>
    cases levels with
    | zero => simp [toJson, ofJson?, Json.object, Json.oneOf?, Json.nesting]
    | succ levels =>
      simp [toJson, ofJson?, Json.object, Json.ReadsBack.map_eq_some_iff ih, fits]
  | array t n ih =>
    cases levels with
    | zero => simp [toJson, ofJson?, Json.object, Json.oneOf?, Json.nesting]
    | succ levels =>
      cases levels with
      | zero => simp [toJson, ofJson?, Json.object, Json.nesting, Json.nestingMembers]
      | succ levels =>
        simp [toJson, ofJson?, Json.object, Json.payload?, Json.knownMembers?,
          Json.Fields.required, Json.Fields.get?, Json.Fields.optional_eq_withDefault,
          Json.Fields.withDefault, List.lookup_cons, Json.ReadsBack.bind_eq_some_iff ih,
          lengthCodec.bind_eq_some_iff, fits]
        grind

/-- A type that was read fits, and its text is nested no deeper than what it was read from. The
induction is on the levels, since a type names another one level below. -/
theorem of_ofJson? {levels : Nat} {j : Json} {t : Ty} (h : ofJson? levels j = some t) :
    t.fits ∧ t.toJson.nesting ≤ levels := by
  have hnamed : ∀ {levels j t}, Json.oneOf? named levels j = some t →
      t.fits ∧ t.toJson.nesting ≤ levels := by
    intro levels j t h
    obtain ⟨name, hname⟩ := Json.exists_mem_of_oneOf? h
    simp only [named, List.mem_cons, Prod.mk.injEq, List.not_mem_nil, or_false] at hname
    obtain ⟨-, rfl⟩ | ⟨-, rfl⟩ | ⟨-, rfl⟩ := hname <;> simp [fits, toJson]
  induction levels using Nat.strongRecOn generalizing j t with
  | ind levels ih =>
    unfold ofJson? at h
    split at h
    · next levels key j =>
      split at h
      · obtain ⟨bits, rfl, hbits, -⟩ := Json.wordCodec.of_map h
        simpa [fits, toJson] using hbits
      · obtain ⟨bits, rfl, hbits, -⟩ := Json.wordCodec.of_map h
        simpa [fits, toJson] using hbits
      · obtain ⟨target, htarget, rfl⟩ := Option.map_eq_some_iff.mp h
        simpa [fits, toJson] using ih levels (Nat.lt_succ_self _) htarget
      · obtain ⟨name, rfl, -⟩ := Json.stringCodec.of_map h
        simp [fits, toJson]
      · obtain ⟨name, rfl, -⟩ := Json.stringCodec.of_map h
        simp [fits, toJson]
      · split at h
        · exact absurd h (by simp)
        · next levels =>
          simp only [Option.bind_eq_bind, Option.bind_eq_some_iff, Option.some.injEq] at h
          obtain ⟨fields, -, element, helement, length, hlength, rfl⟩ := h
          obtain ⟨j, -, hj⟩ := Option.bind_eq_some_iff.mp helement
          have hparts := ih levels (by omega) hj
          have hbound := Json.doubleWordCodec.of_optional (by simp [Json.nat]) hlength
          simp [fits, toJson, hparts, hbound]
      · exact hnamed h
    · exact hnamed h

/-- The decoder of types belongs to their encoder. -/
theorem codec : Codec ofJson? toJson fits where
  isExact t := by
    induction t with
    | array t n ih => simp [toJson, ih, lengthCodec.isExact]
    | _ => simp [toJson, *]
  readsBack := readsBack
  of_decode := of_ofJson?

end Ty

namespace Value

/-- Whether the numbers in an operand are in range. -/
def fits : Value → Bool
  | .result inst => isWord inst
  | .param proc index => isWord proc && isWord index
  | .int n => isSigned n
  | _ => true

/-- The numbers of a procedure and of its parameter read back. -/
theorem paramCodec :
    Codec (Decoder.pair Decoder.word Decoder.word)
      (fun (proc, index) => .arr [.nat proc, .nat index])
      fun (proc, index) => isWord proc && isWord index :=
  Json.wordCodec.pair Json.wordCodec

/-- Operands read back, one case for each kind. -/
theorem readsBack (v : Value) : Json.ReadsBack ofJson? toJson fits v := by
  intro levels w
  cases levels with
  | zero =>
    cases v <;>
      simp [toJson, ofJson?, Json.object, Json.text, Json.oneOf?, Json.nesting, named,
        List.lookup_cons, fits]
  | succ levels =>
    cases v with
    | null | undef =>
      simp [toJson, ofJson?, Json.text, Json.oneOf?, named, List.lookup_cons, fits, Json.nesting]
    | result inst => simp [toJson, ofJson?, Json.object, Json.wordCodec.map_eq_some_iff, fits]
    | param proc index =>
      have hpair : (Decoder.pair Decoder.word Decoder.word levels
          (.arr [.nat proc, .nat index])).map (fun x => Value.param x.1 x.2) = some w ↔ _ :=
        (paramCodec.readsBack (proc, index)).map_eq_some_iff
      simp [toJson, ofJson?, Json.object, hpair, fits]
    | int n => simp [toJson, ofJson?, Json.object, Json.signedCodec.map_eq_some_iff, fits]
    | text s | global name =>
      simp [toJson, ofJson?, Json.object, Json.stringCodec.map_eq_some_iff, fits]

/-- An operand that was read fits, and its text is nested no deeper than what it was read from. -/
theorem of_ofJson? {levels : Nat} {j : Json} {v : Value} (h : ofJson? levels j = some v) :
    v.fits ∧ v.toJson.nesting ≤ levels := by
  have hnamed : ∀ {levels j v}, Json.oneOf? named levels j = some v →
      v.fits ∧ v.toJson.nesting ≤ levels := by
    intro levels j v h
    obtain ⟨name, hname⟩ := Json.exists_mem_of_oneOf? h
    simp only [named, List.mem_cons, Prod.mk.injEq, List.not_mem_nil, or_false] at hname
    obtain ⟨-, rfl⟩ | ⟨-, rfl⟩ := hname <;> simp [fits, toJson]
  unfold ofJson? at h
  split at h
  · next levels key j =>
    split at h
    · obtain ⟨inst, rfl, hinst, -⟩ := Json.wordCodec.of_map h
      simpa [fits, toJson] using hinst
    · obtain ⟨⟨proc, index⟩, rfl, hparam⟩ := paramCodec.of_map h
      simpa [fits, toJson] using hparam
    · obtain ⟨n, rfl, hn, -⟩ := Json.signedCodec.of_map h
      simpa [fits, toJson] using hn
    · obtain ⟨s, rfl, -⟩ := Json.stringCodec.of_map h
      simp [fits, toJson]
    · obtain ⟨name, rfl, -⟩ := Json.stringCodec.of_map h
      simp [fits, toJson]
    · exact hnamed h
  · exact hnamed h

/-- The decoder of operands belongs to their encoder. -/
theorem codec : Codec ofJson? toJson fits where
  isExact v := by cases v <;> simp [toJson]
  readsBack := readsBack
  of_decode := of_ofJson?

/-- No operand is written as `null`, so an absent one can be. -/
theorem toJson_ne_null (v : Value) : v.toJson ≠ .null := by
  cases v <;> simp [toJson, Json.object, Json.text]

end Value

/-! ## Operations -/

/-- Conversions read back by their names. -/
theorem Conversion.codec : Codec ofJson? toJson fun _ => true :=
  Json.oneOfCodec fun conversion => by
    cases conversion <;> exact ⟨_, rfl, by simp [names, List.lookup_cons]⟩

/-- Arithmetic operators read back by their names. -/
theorem Arithmetic.codec : Codec ofJson? toJson fun _ => true :=
  Json.oneOfCodec fun arithmetic => by
    cases arithmetic <;> exact ⟨_, rfl, by simp [names, List.lookup_cons]⟩

namespace Callee

/-- Whether the numbers in a callee are in range. -/
def fits : Callee → Bool
  | .direct _ => true
  | .indirect target => target.fits

/-- The decoder of callees belongs to their encoder. -/
theorem codec : Codec ofJson? toJson fits where
  isExact callee := by cases callee <;> simp [toJson, Value.codec.isExact]
  readsBack callee levels callee' := by
    cases levels with
    | zero => cases callee <;> simp [toJson, ofJson?, Json.object, Json.nesting]
    | succ levels =>
      cases callee with
      | direct name => simp [toJson, ofJson?, Json.object, Json.stringCodec.map_eq_some_iff, fits]
      | indirect target => simp [toJson, ofJson?, Json.object, Value.codec.map_eq_some_iff, fits]
  of_decode := by
    intro levels j callee h
    unfold ofJson? at h
    split at h
    · split at h
      · obtain ⟨name, rfl, -⟩ := Json.stringCodec.of_map h
        simp [fits, toJson]
      · obtain ⟨target, rfl, htarget⟩ := Value.codec.of_map h
        simpa [fits, toJson] using htarget
      · exact absurd h (by simp)
    · exact absurd h (by simp)

end Callee

namespace Operation

/-- Whether the numbers in an operation are in range. -/
def fits : Operation → Bool
  | .alloca allocated => allocated.fits
  | .load address => address.fits
  | .store value address => value.fits && address.fits
  | .addressOf indexed base indices => indexed.fits && base.fits && indices.all Value.fits
  | .copy target source length => target.fits && source.fits && length.fits
  | .fill target value length => target.fits && value.fits && length.fits
  | .cast _ value => value.fits
  | .binary _ left right => left.fits && right.fits
  | .compare _ left right => left.fits && right.fits
  | .select condition ifTrue ifFalse => condition.fits && ifTrue.fits && ifFalse.fits
  | .phi incoming => incoming.all fun (value, block) => value.fits && isWord block
  | .extract aggregate indices => aggregate.fits && indices.all isWord
  | .call callee args => callee.fits && args.all Value.fits
  | .vaStart list => list.fits
  | .vaArg list => list.fits
  | .vaCopy target source => target.fits && source.fits
  | .vaEnd list => list.fits
  | .jump target => isWord target
  | .branch condition ifTrue ifFalse => condition.fits && isWord ifTrue && isWord ifFalse
  | .switch condition otherwise cases =>
    condition.fits && isWord otherwise
      && cases.all fun (value, block) => isSigned value && isWord block
  | .ret value => value.all Value.fits
  | .unreachable => true
  | .other _ operands => operands.all Value.fits

/-- An operation with a payload is read as far as its payload is. -/
theorem readsBack_of_payload {op : Operation} {key : String} {fields : List (String × Json)}
    (hjson : op.toJson = .object [(key, .object fields)])
    (h : ∀ levels op', ofPayload? key levels (.object fields) = some op' ↔
      op = op' ∧ op.fits ∧ ∀ field ∈ fields, field.2.nesting ≤ levels) :
    Json.ReadsBack ofJson? toJson fits op := by
  intro levels op'
  rw [hjson]
  match levels with
  | 0 => simp [ofJson?, Json.object, Json.oneOf?, Json.nesting]
  | 1 => simp [ofJson?, Json.object, Json.oneOf?, Json.nesting, Json.nestingMembers]
  | levels + 2 =>
    rw [show ofJson? (levels + 2) (.object [(key, .object fields)]) =
      ofPayload? key levels (.object fields) from rfl, h]
    simp

/-- The operands of a merge with the blocks they come from read back. -/
theorem incomingCodec :
    Codec (Decoder.list (Decoder.pair Value.ofJson? Decoder.word))
      (Json.array fun (value, block) => .arr [value.toJson, .nat block])
      fun incoming => incoming.all fun (value, block) => value.fits && isWord block :=
  (Value.codec.pair Json.wordCodec).list

/-- The cases of a switch with their blocks read back. -/
theorem casesCodec :
    Codec (Decoder.list (Decoder.pair Decoder.signed Decoder.word))
      (Json.array fun (value, block) => .arr [.int value, .nat block])
      fun cases => cases.all fun (value, block) => isSigned value && isWord block :=
  (Json.signedCodec.pair Json.wordCodec).list

/-- Operations read back, one case for each kind of instruction. -/
theorem readsBack (op : Operation) : Json.ReadsBack ofJson? toJson fits op := by
  cases op
  case unreachable =>
    intro levels op'
    simp [toJson, ofJson?, Json.text, Json.oneOf?, fits, Json.nesting]
  -- Every other operation has a payload, and each field of it is read by the codec of its kind.
  all_goals
    refine readsBack_of_payload rfl fun levels op' => ?_
    simp [ofPayload?, Json.payload?_object, Json.Fields.required, Json.Fields.get?,
      List.lookup_cons, Json.Fields.optional_eq_withDefault, Json.Fields.withDefault, fits,
      Value.codec.bind_eq_some_iff, Value.codec.list.bind_eq_some_iff,
      (Value.codec.option Value.toJson_ne_null).bind_eq_some_iff, Ty.codec.bind_eq_some_iff,
      Callee.codec.bind_eq_some_iff, Conversion.codec.bind_eq_some_iff,
      Arithmetic.codec.bind_eq_some_iff, incomingCodec.bind_eq_some_iff,
      casesCodec.bind_eq_some_iff, Json.wordCodec.bind_eq_some_iff,
      Json.wordCodec.list.bind_eq_some_iff, Json.stringCodec.bind_eq_some_iff] <;> grind

/-- An operation that was read under its key fits, and its text adds the two levels of its key and
its fields. -/
theorem of_ofPayload? {key : String} {levels : Nat} {j : Json} {op : Operation}
    (h : ofPayload? key levels j = some op) : op.fits ∧ op.toJson.nesting ≤ levels + 2 := by
  unfold ofPayload? at h
  split at h
  all_goals
    simp only [Option.bind_eq_bind, Option.bind_eq_some_iff, Option.some.injEq, reduceCtorEq] at h
  · obtain ⟨fields, -, allocated, hallocated, rfl⟩ := h
    simp [toJson, fits, Ty.codec.of_required hallocated]
  · obtain ⟨fields, -, address, haddress, rfl⟩ := h
    simp [toJson, fits, Value.codec.of_required haddress]
  · obtain ⟨fields, -, value, hvalue, address, haddress, rfl⟩ := h
    simp [toJson, fits, Value.codec.of_required hvalue, Value.codec.of_required haddress]
  · obtain ⟨fields, -, indexed, hindexed, base, hbase, indices, hindices, rfl⟩ := h
    simp [toJson, fits, Ty.codec.of_required hindexed, Value.codec.of_required hbase,
      Value.codec.list.of_required hindices]
  · obtain ⟨fields, -, target, htarget, source, hsource, length, hlength, rfl⟩ := h
    simp [toJson, fits, Value.codec.of_required htarget, Value.codec.of_required hsource,
      Value.codec.of_required hlength]
  · obtain ⟨fields, -, target, htarget, value, hvalue, length, hlength, rfl⟩ := h
    simp [toJson, fits, Value.codec.of_required htarget, Value.codec.of_required hvalue,
      Value.codec.of_required hlength]
  · obtain ⟨fields, -, conversion, hconversion, value, hvalue, rfl⟩ := h
    simp [toJson, fits, Conversion.codec.of_required hconversion, Value.codec.of_required hvalue]
  · obtain ⟨fields, -, arithmetic, harithmetic, left, hleft, right, hright, rfl⟩ := h
    simp [toJson, fits, Arithmetic.codec.of_required harithmetic, Value.codec.of_required hleft,
      Value.codec.of_required hright]
  · obtain ⟨fields, -, predicate, -, left, hleft, right, hright, rfl⟩ := h
    simp [toJson, fits, Value.codec.of_required hleft, Value.codec.of_required hright]
  · obtain ⟨fields, -, condition, hcondition, ifTrue, hifTrue, ifFalse, hifFalse, rfl⟩ := h
    simp [toJson, fits, Value.codec.of_required hcondition, Value.codec.of_required hifTrue,
      Value.codec.of_required hifFalse]
  · obtain ⟨fields, -, incoming, hincoming, rfl⟩ := h
    simp [toJson, fits, incomingCodec.of_required hincoming]
  · obtain ⟨fields, -, aggregate, haggregate, indices, hindices, rfl⟩ := h
    simp [toJson, fits, Value.codec.of_required haggregate,
      Json.wordCodec.list.of_required hindices]
  · obtain ⟨fields, -, callee, hcallee, args, hargs, rfl⟩ := h
    simp [toJson, fits, Callee.codec.of_required hcallee, Value.codec.list.of_required hargs]
  · obtain ⟨fields, -, list, hlist, rfl⟩ := h
    simp [toJson, fits, Value.codec.of_required hlist]
  · obtain ⟨fields, -, list, hlist, rfl⟩ := h
    simp [toJson, fits, Value.codec.of_required hlist]
  · obtain ⟨fields, -, target, htarget, source, hsource, rfl⟩ := h
    simp [toJson, fits, Value.codec.of_required htarget, Value.codec.of_required hsource]
  · obtain ⟨fields, -, list, hlist, rfl⟩ := h
    simp [toJson, fits, Value.codec.of_required hlist]
  · obtain ⟨fields, -, target, htarget, rfl⟩ := h
    simp [toJson, fits, Json.wordCodec.of_required htarget]
  · obtain ⟨fields, -, condition, hcondition, ifTrue, hifTrue, ifFalse, hifFalse, rfl⟩ := h
    simp [toJson, fits, Value.codec.of_required hcondition, Json.wordCodec.of_required hifTrue,
      Json.wordCodec.of_required hifFalse]
  · obtain ⟨fields, -, condition, hcondition, otherwise, hotherwise, cases, hcases, rfl⟩ := h
    simp [toJson, fits, Value.codec.of_required hcondition, Json.wordCodec.of_required hotherwise,
      casesCodec.of_required hcases]
  · obtain ⟨fields, -, value, hvalue, rfl⟩ := h
    simp [toJson, fits, Value.codec.of_optional Value.toJson_ne_null hvalue]
  · obtain ⟨fields, -, opcode, -, operands, hoperands, rfl⟩ := h
    simp [toJson, fits, Value.codec.list.of_required hoperands]

/-- The decoder of operations belongs to their encoder. -/
theorem codec : Codec ofJson? toJson fits where
  isExact op := by
    cases op <;>
      simp [toJson, Value.codec.isExact, Ty.codec.isExact, Callee.codec.isExact,
        Conversion.codec.isExact, Arithmetic.codec.isExact,
        (Value.codec.option Value.toJson_ne_null).isExact]
  readsBack := readsBack
  of_decode := by
    intro levels j op h
    unfold ofJson? at h
    split at h
    · exact of_ofPayload? h
    · exact of_ofPayload? h
    · obtain ⟨name, hname⟩ := Json.exists_mem_of_oneOf? h
      obtain rfl : op = .unreachable := by
        simpa using congrArg Prod.snd (List.mem_singleton.mp hname)
      simp [fits, toJson]

end Operation

/-! ## Records -/

namespace SourceLine

/-- Whether the numbers in a place are in range. -/
def fits (s : SourceLine) : Bool := isWord s.line

/-- The decoder of places in the source text belongs to their encoder. -/
theorem codec : Codec ofJson? toJson fits where
  isExact s := by simp [toJson]
  readsBack s levels s' := by
    cases levels with
    | zero => simp [ofJson?, toJson]
    | succ levels =>
      simp [ofJson?, toJson, Json.fields?_object, Json.Fields.required, Json.Fields.get?,
        List.lookup_cons, Json.stringCodec.bind_eq_some_iff, Json.wordCodec.bind_eq_some_iff, fits]
  of_decode := by
    intro levels j s h
    unfold ofJson? at h
    split at h
    · simp only [Option.bind_eq_bind, Option.bind_eq_some_iff, Option.some.injEq] at h
      obtain ⟨fields, -, file, -, line, hline, rfl⟩ := h
      simp [fits, toJson, Json.wordCodec.of_required hline]
    · exact absurd h (by simp)

/-- No place is written as `null`, so an unknown one can be. -/
theorem toJson_ne_null (s : SourceLine) : s.toJson ≠ .null := by
  simp [toJson, Json.object]

end SourceLine

namespace Instruction

/-- Whether the numbers in an instruction are in range. -/
def fits (i : Instruction) : Bool :=
  isWord i.id && isWord i.proc && isWord i.block && i.operation.fits && i.type.fits &&
    i.source.all SourceLine.fits

/-- The decoder of instructions belongs to their encoder. -/
theorem codec : Codec ofJson? toJson fits where
  isExact i := by
    simp [toJson, Operation.codec.isExact, Ty.codec.isExact, SourceLine.codec.isExact]
  readsBack i levels i' := by
    cases levels with
    | zero => simp [ofJson?, toJson]
    | succ levels =>
      obtain ⟨id, proc, block, operation, type, source⟩ := i
      cases source <;>
        simp [ofJson?, toJson, Json.fields?_object, Json.Fields.required, Json.Fields.get?,
          List.lookup_cons, Json.Fields.optional_eq_withDefault, Json.Fields.withDefault, fits,
          Json.wordCodec.bind_eq_some_iff, Operation.codec.bind_eq_some_iff,
          Ty.codec.bind_eq_some_iff,
          SourceLine.codec.bind_option_eq_some_iff SourceLine.toJson_ne_null] <;> grind
  of_decode := by
    intro levels j i h
    unfold ofJson? at h
    split at h
    · simp only [Option.bind_eq_bind, Option.bind_eq_some_iff, Option.some.injEq] at h
      obtain ⟨fields, -, id, hid, proc, hproc, block, hblock, operation, hoperation, type, htype,
        source, hsource, rfl⟩ := h
      have hplace := SourceLine.codec.of_optional SourceLine.toJson_ne_null hsource
      rw [Json.nesting_option_le_iff] at hplace
      simp [fits, toJson, Json.wordCodec.of_required hid, Json.wordCodec.of_required hproc,
        Json.wordCodec.of_required hblock, Operation.codec.of_required hoperation,
        Ty.codec.of_required htype, hplace]
      exact hplace.2
    · exact absurd h (by simp)

end Instruction

namespace Block

/-- Whether the numbers in a block are in range. -/
def fits (b : Block) : Bool := b.insts.all isWord

/-- The decoder of blocks belongs to their encoder. -/
theorem codec : Codec ofJson? toJson fits where
  isExact b := by simp [toJson]
  readsBack b levels b' := by
    cases levels with
    | zero => simp [ofJson?, toJson]
    | succ levels =>
      simp [ofJson?, toJson, Json.fields?_object, Json.Fields.required, Json.Fields.get?,
        List.lookup_cons, Json.stringCodec.bind_eq_some_iff, Json.wordCodec.list.bind_eq_some_iff,
        fits]
  of_decode := by
    intro levels j b h
    unfold ofJson? at h
    split at h
    · simp only [Option.bind_eq_bind, Option.bind_eq_some_iff, Option.some.injEq] at h
      obtain ⟨fields, -, label, -, insts, hinsts, rfl⟩ := h
      simp [fits, toJson, Json.wordCodec.list.of_required hinsts]
    · exact absurd h (by simp)

end Block

namespace Param

/-- Whether the numbers in a parameter are in range. -/
def fits (p : Param) : Bool := p.type.fits

/-- The decoder of parameters belongs to their encoder. -/
theorem codec : Codec ofJson? toJson fits where
  isExact p := by simp [toJson, Ty.codec.isExact]
  readsBack p levels p' := by
    cases levels with
    | zero => simp [ofJson?, toJson]
    | succ levels =>
      simp [ofJson?, toJson, Json.fields?_object, Json.Fields.required, Json.Fields.get?,
        List.lookup_cons, Json.stringCodec.bind_eq_some_iff, Ty.codec.bind_eq_some_iff, fits]
  of_decode := by
    intro levels j p h
    unfold ofJson? at h
    split at h
    · simp only [Option.bind_eq_bind, Option.bind_eq_some_iff, Option.some.injEq] at h
      obtain ⟨fields, -, name, -, type, htype, rfl⟩ := h
      simp [fits, toJson, Ty.codec.of_required htype]
    · exact absurd h (by simp)

end Param

namespace Procedure

/-- Whether the numbers in a procedure are in range. -/
def fits (p : Procedure) : Bool :=
  isWord p.id && p.params.all Param.fits && p.result.fits && p.blocks.toList.all Block.fits

/-- The decoder of procedures belongs to their encoder. -/
theorem codec : Codec ofJson? toJson fits where
  isExact p := by
    simp [toJson, Param.codec.isExact, Ty.codec.isExact, Block.codec.isExact, or_imp, forall_and]
  readsBack p levels p' := by
    cases levels with
    | zero => simp [ofJson?, toJson]
    | succ levels =>
      obtain ⟨id, name, params, result, isVariadic, sourceFile, blocks⟩ := p
      cases sourceFile <;>
        simp [ofJson?, toJson, Json.fields?_object, Json.Fields.required, Json.Fields.get?,
          List.lookup_cons, Json.Fields.optional_eq_withDefault, Json.Fields.withDefault, fits,
          Json.wordCodec.bind_eq_some_iff, Json.stringCodec.bind_eq_some_iff,
          Param.codec.list.bind_eq_some_iff, Ty.codec.bind_eq_some_iff,
          Json.boolCodec.bind_eq_some_iff, Block.codec.list.bind_eq_some_iff,
          Json.stringCodec.bind_option_eq_some_iff fun s => nofun] <;> grind
  of_decode := by
    intro levels j p h
    unfold ofJson? at h
    split at h
    · next levels =>
      simp only [Option.bind_eq_bind, Option.bind_eq_some_iff, Option.some.injEq] at h
      obtain ⟨fields, -, id, hid, name, -, params, hparams, result, hresult, isVariadic, -,
        sourceFile, -, blocks, hblocks, rfl⟩ := h
      have hsignature := Param.codec.list.of_required hparams
      -- Missing blocks are written as an empty array, nested no deeper than the parameters.
      have hlevels : 0 < levels := Nat.lt_of_lt_of_le (Nat.succ_pos _) hsignature.2
      have hbodies := Block.codec.list.of_withDefault ⟨rfl, hlevels⟩ hblocks
      simp [fits, toJson, Json.wordCodec.of_required hid, hsignature, Ty.codec.of_required hresult,
        hbodies, or_imp, forall_and]
    · exact absurd h (by simp)

end Procedure

namespace Aggregate

/-- Whether the numbers in a layout are in range. -/
def fits (a : Aggregate) : Bool := a.members.all Ty.fits

/-- The decoder of layouts belongs to their encoder. -/
theorem codec : Codec ofJson? toJson fits where
  isExact a := by simp [toJson, Ty.codec.isExact]
  readsBack a levels a' := by
    cases levels with
    | zero => simp [ofJson?, toJson]
    | succ levels =>
      simp [ofJson?, toJson, Json.fields?_object, Json.Fields.required, Json.Fields.get?,
        List.lookup_cons, Json.stringCodec.bind_eq_some_iff, Json.boolCodec.bind_eq_some_iff,
        Ty.codec.list.bind_eq_some_iff, fits]
  of_decode := by
    intro levels j a h
    unfold ofJson? at h
    split at h
    · simp only [Option.bind_eq_bind, Option.bind_eq_some_iff, Option.some.injEq] at h
      obtain ⟨fields, -, name, -, isUnion, -, members, hmembers, rfl⟩ := h
      simp [fits, toJson, Ty.codec.list.of_required hmembers]
    · exact absurd h (by simp)

end Aggregate

/-! ## Programs -/

namespace Program

/-- Whether the numbers in a program are in range. -/
def fits (m : Program) : Bool :=
  m.procedures.toList.all Procedure.fits && m.instructions.toList.all Instruction.fits &&
    m.aggregates.all fun (_, layout) => layout.fits

/-- No number in a program is lost when it is written. -/
theorem isExact_toJson (m : Program) : m.toJson.isExact := by
  simp [toJson, Procedure.codec.isExact, Instruction.codec.isExact,
    Aggregate.codec.dictionary.isExact]

/-- A program whose layouts are in order is decoded from its own encoding, and from no deeper one
than there are levels. -/
theorem ofJson?_toJson_eq_some_iff {m m' : Program} (h : Sorted.IsOrdered m.aggregates)
    {levels : Nat} :
    ofJson? levels m.toJson = some m' ↔ m = m' ∧ m.fits ∧ m.toJson.nesting ≤ levels := by
  obtain ⟨name, procedures, instructions, aggregates⟩ := m
  cases levels with
  | zero => simp [ofJson?, toJson]
  | succ levels =>
    simp [ofJson?, toJson, Json.fields?_object, Json.Fields.required, Json.Fields.get?,
      List.lookup_cons, Json.Fields.withDefault, fits,
      Json.stringCodec.bind_eq_some_iff, Procedure.codec.list.bind_eq_some_iff,
      Instruction.codec.list.bind_eq_some_iff, Aggregate.codec.dictionary.bind_eq_some_iff,
      Sorted.ofPairs_eq_self h]
    grind

/-- A program that was decoded has its layouts in order and its numbers in range. -/
theorem of_ofJson? {levels : Nat} {j : Json} {m : Program} (h : ofJson? levels j = some m) :
    Sorted.IsOrdered m.aggregates ∧ m.fits ∧ m.toJson.nesting ≤ levels := by
  unfold ofJson? at h
  split at h
  · next levels =>
    simp only [Option.bind_eq_bind, Option.bind_eq_some_iff, Option.some.injEq] at h
    obtain ⟨fields, -, name, -, procedures, hprocedures, instructions, hinstructions, aggregates,
      haggregates, rfl⟩ := h
    have hbodies := Procedure.codec.list.of_required hprocedures
    have harena := Instruction.codec.list.of_required hinstructions
    -- Missing layouts are written as an empty object, nested no deeper than the procedures.
    have hlevels : 0 < levels := Nat.lt_of_lt_of_le (Nat.succ_pos _) hbodies.2
    have hlayouts := Aggregate.codec.dictionary.of_withDefault ⟨rfl, hlevels⟩ haggregates
    refine ⟨Sorted.isOrdered_ofPairs _, ?_⟩
    have hkept : ∀ entry ∈ Sorted.ofPairs aggregates, entry ∈ aggregates :=
      fun _ => Sorted.mem_of_mem_ofPairs
    obtain ⟨levels, rfl⟩ : ∃ inner, levels = inner + 1 := ⟨levels - 1, by omega⟩
    rw [List.all_eq_true, Json.nesting_object_le_succ, List.forall_mem_map] at hlayouts
    simp only [fits, toJson, Bool.and_eq_true, hbodies, harena, List.all_eq_true, true_and,
      Json.nesting_object_le_succ, List.forall_mem_cons, List.forall_mem_map, Json.nesting_text,
      Nat.zero_le]
    exact ⟨fun entry hentry => hlayouts.1 entry (hkept entry hentry),
      fun entry hentry => hlayouts.2 entry (hkept entry hentry), by simp⟩
  · exact absurd h (by simp)

/-- To read a written program is to decode its encoding. -/
theorem read?_write_eq (m : Program) : read? m.write = ofJson? Json.maxNesting m.toJson := by
  rw [read?, write, Json.read?_pretty m.isExact_toJson, Option.bind_some]

/-- A program whose layouts are in order and whose numbers are in range is read back from its text
as it is, if fewer than 128 arrays and objects are nested in the text; otherwise it is refused.
Whatever program is read from a text is such a program, so it is read again from its own. -/
theorem written_readsBack :
    (∀ m : Program, Sorted.IsOrdered m.aggregates → m.fits →
      (m.toJson.nesting < 128 → read? m.write = some m) ∧
        (128 ≤ m.toJson.nesting → read? m.write = none)) ∧
      ∀ text m, read? text = some m → read? m.write = some m := by
  have hread : ∀ m m' : Program, Sorted.IsOrdered m.aggregates →
      (read? m.write = some m' ↔ m = m' ∧ m.fits ∧ m.toJson.nesting ≤ Json.maxNesting) := by
    intro m m' hordered
    rw [read?_write_eq, ofJson?_toJson_eq_some_iff hordered]
  refine ⟨fun m hordered hfits => ⟨fun hshallow => ?_, fun hdeep => ?_⟩, fun text m h => ?_⟩
  · exact (hread m m hordered).mpr ⟨rfl, hfits, Nat.le_of_lt_succ hshallow⟩
  · refine Option.eq_none_iff_forall_ne_some.mpr fun m' h => ?_
    have hbound := ((hread m m' hordered).mp h).2.2
    exact Nat.not_le_of_lt hdeep hbound
  · obtain ⟨j, -, hj⟩ := Option.bind_eq_some_iff.mp h
    obtain ⟨hordered, hfits, hbound⟩ := of_ofJson? hj
    exact (hread m m hordered).mpr ⟨rfl, hfits, hbound⟩

/-- A program with texts that need escapes, numbers at the ends of their ranges, and fields that are
there in one place and absent in another. -/
def withEscapes : Program where
  name := "a\"b\\c\n\x01é"
  procedures := #[
    { id := 0, name := "main", params := [⟨"argv", .pointer (.array (.int 8) none)⟩],
      result := .int 32, isVariadic := true, sourceFile := some "main.c",
      blocks := #[⟨"entry", [0, 1]⟩] },
    { id := 1, name := "gets", params := [], result := .void, isVariadic := false }]
  instructions := #[
    { id := 0, proc := 0, block := 0, type := .vaList, source := some ⟨"main.c", 4294967295⟩,
      operation := .call (.direct "gets") [.text "\t", .int (-9223372036854775808)] },
    { id := 1, proc := 0, block := 0, type := .void, operation := .ret none }]
  aggregates := [
    ("node", ⟨"node", false, [.pointer (.struct "node")]⟩),
    ("pair", ⟨"pair", true, [.array .unknown (some 18446744073709551615)]⟩)]

/-- The program with escapes is read back. -/
theorem written_readsBack_withEscapes :
    Sorted.IsOrdered withEscapes.aggregates ∧ withEscapes.fits ∧
      withEscapes.toJson.nesting < 128 ∧ read? withEscapes.write = some withEscapes := by
  have hordered : Sorted.IsOrdered withEscapes.aggregates := by decide
  have hfits : withEscapes.fits := by decide
  have hshallow : withEscapes.toJson.nesting < 128 := by decide
  exact ⟨hordered, hfits, hshallow, (written_readsBack.1 withEscapes hordered hfits).1 hshallow⟩

end Program

end TaintTrail

import TaintTrail.Proofs.Flow.Rule

/-!
# How facts arise

All the ways in which a fact can come out of the flow function of a link. What holds of every fact
that a run records is proved by going through them.
-/

namespace TaintTrail

open Program

/-- The second fact can arise from the first along a transfer. -/
inductive Arises (m : Program) (config : Config) : Transfer Nat → Fact → Fact → Prop
  /-- The zero fact goes wherever control goes. -/
  | zero {t : Transfer Nat} {d : Fact} : d.isZero = true → Arises m config t d d
  /-- A fact survives an instruction. A region ends at its label. -/
  | kept {n t : Nat} {d : Fact} : (d.isBranch = true → m.blockLabel? n ≠ d.endLabel) →
      Arises m config (.normal n t) d d
  /-- A fact survives a call. -/
  | passed {c r : Nat} {d : Fact} : (d.isBranch = true → m.blockLabel? c ≠ d.endLabel) →
      Arises m config (.callToReturn c r) d d
  /-- An instruction has a tainted result. -/
  | computed {n t : Nat} {d : Fact} : d.isZero = false → m.hasResult n = true →
      Arises m config (.normal n t) d (.value (.result n))
  /-- An instruction taints the memory that it writes. -/
  | written {n t : Nat} {d : Fact} {rule : Rule} {target : Location} : d.isZero = false →
      m.rule? config n = some rule → rule.written? = some target →
      Arises m config (.normal n t) d (.memory target)
  /-- Tainted memory is found again in the memory that an instruction writes. -/
  | moved {n t : Nat} {d : Fact} {rule : Rule} {l target : Location} (matched : Nat) :
      d.plainLocation? = some l → m.rule? config n = some rule → rule.written? = some target →
      Arises m config (.normal n t) d (.memory (l.rebase matched target))
  /-- A tainted condition, or an open region around it, opens the region of a branch. -/
  | opened {n t : Nat} {d : Fact} {condition : Value} {label : String} :
      m.rule? config n = some (.branch condition (.endsAt label)) →
      (d.isPlainValue condition = true ∨
        d.isBranch = true ∧ m.blockLabel? n ≠ d.endLabel ∧ d.value? ≠ some (.result n)) →
      Arises m config (.normal n t) d (.branch (.result n) label)
  /-- A cursor is set before the first variable argument. -/
  | started {n t : Nat} {d : Fact} {list : Location} :
      m.rule? config n = some (.vaStart (some list)) → d.isBranch = false →
      d.argIndex.isSome = true → d.list = none →
      Arises m config (.normal n t) d { d with list := some list, cursor := some 0 }
  /-- A cursor moves on towards the tainted argument. -/
  | advanced {n t : Nat} {d : Fact} : d.isBranch = false → d.list.isSome = true →
      d.cursor.getD 0 < d.argIndex.getD 0 →
      Arises m config (.normal n t) d { d with cursor := some (d.cursor.getD 0 + 1) }
  /-- A cursor is copied. -/
  | copied {n t : Nat} {d : Fact} {source : Option Location} {target : Location} :
      m.rule? config n = some (.vaCopy source (some target)) → d.isBranch = false →
      d.list.isSome = true → Arises m config (.normal n t) d { d with list := some target }
  /-- A tainted argument is a tainted parameter. -/
  | param {c entry : Nat} {d : Fact} {callee : Procedure} {i : Nat} : d.isZero = false →
      m.callTarget? c = some callee → i < callee.params.length →
      Arises m config (.call c entry) d (.value (.param callee.id i))
  /-- A tainted argument is a tainted variable argument. -/
  | varArg {c entry : Nat} {d : Fact} {site : CallSite} {callee : Procedure} {i : Nat} :
      d.isZero = false → m.rule? config c = some (.call site) → m.callTarget? c = some callee →
      callee.isVariadic = true → i < site.args.length →
      Arises m config (.call c entry) d
        (.varArg (.ofFrame (.varArgs callee.id)) (i - callee.params.length))
  /-- Memory below an argument is memory below the parameter. -/
  | below {c entry : Nat} {d : Fact} {site : CallSite} {callee : Procedure} {i : Nat}
      {l arg : Location} {steps : List Step} : d.plainLocation? = some l →
      m.rule? config c = some (.call site) → m.callTarget? c = some callee →
      site.argLocation? i = some arg → i < callee.params.length → l.stepsBelow? arg = some steps →
      Arises m config (.call c entry) d (.memory ⟨.param callee.id i, steps⟩)
  /-- Memory around an argument is all of the memory below the parameter. -/
  | around {c entry : Nat} {d : Fact} {callee : Procedure} {i : Nat} : d.isZero = false →
      m.callTarget? c = some callee → i < callee.params.length →
      Arises m config (.call c entry) d (.memory (.ofFrame (.param callee.id i)))
  /-- A call has a tainted result. -/
  | returned {x r c : Nat} {d : Fact} : d.isZero = false →
      Arises m config (.ret x r c) d (.value (.result c))
  /-- Memory below the returned pointer is found where the result is stored. -/
  | landed {x r c : Nat} {d : Fact} {site : CallSite} {l target : Location} (matched : Nat) :
      d.plainLocation? = some l → m.rule? config c = some (.call site) →
      site.resultLocation = some target →
      Arises m config (.ret x r c) d (.memory (l.rebase matched target))
  /-- Memory below a parameter is memory below the argument. -/
  | outParam {x r c : Nat} {d : Fact} {site : CallSite} {l arg : Location} {i : Nat} :
      d.plainLocation? = some l → m.rule? config c = some (.call site) →
      site.argLocation? i = some arg →
      Arises m config (.ret x r c) d (.memory (arg.graft l.steps))
  /-- A call taints its result, for a source even if nothing is tainted. -/
  | result {c r : Nat} {d : Fact} {site : CallSite} : m.rule? config c = some (.call site) →
      d.isZero = false ∨ site.source.isSome = true →
      Arises m config (.callToReturn c r) d (.value (.result c))
  /-- A source fills memory. -/
  | filled {c r : Nat} {d : Fact} {site : CallSite} {l : Location} {i : Nat} :
      m.rule? config c = some (.call site) → site.source.isSome = true →
      site.argLocation? i = some l → Arises m config (.callToReturn c r) d (.memory l.filled)

/-! ## Within a procedure -/

/-- Tainted memory has a location. -/
@[simp] theorem Fact.plainLocation?_memory (l : Location) :
    (Fact.memory l).plainLocation? = some l := rfl

namespace Rule

variable {d d' : Fact} {result : Value} {target : Option Location}

/-- Writing keeps the fact, and may taint what is written. -/
theorem mem_writing : d' ∈ writing target d ↔ d' = d ∨ ∃ l, target = some l ∧ d' = .memory l := by
  cases target <;> simp [writing]

/-- Producing a result keeps the fact, and may taint the result. -/
theorem mem_producing {isTainted : Bool} :
    d' ∈ producing result isTainted d ↔ d' = d ∨ isTainted = true ∧ d' = .value result := by
  cases isTainted <;> simp [producing]

/-- Overwriting may drop the fact, and may taint where it was moved to. -/
theorem mem_overwriting {moved? : Location → Location → Option Location}
    (h : d' ∈ overwriting moved? target d) :
    d' = d ∨ ∃ l t landed, d.plainLocation? = some l ∧ target = some t ∧
      moved? l t = some landed ∧ d' = .memory landed := by
  unfold overwriting at h
  split at h
  · next l t hl =>
    split at h
    · next landed hmoved =>
      obtain rfl | rfl : d' = d ∨ d' = .memory landed := by simpa using h
      · exact .inl rfl
      · exact .inr ⟨l, t, landed, hl, rfl, hmoved, rfl⟩
    · split at h
      · simp at h
      · exact .inl (List.mem_singleton.mp h)
  · exact .inl (List.mem_singleton.mp h)

end Rule

/-- Memory that is stored is moved. -/
theorem Location.exists_rebase_of_stored? {l source target landed : Location}
    (h : l.stored? source target = some landed) : ∃ k, landed = l.rebase k target := by
  unfold stored? at h
  split at h
  · exact ⟨_, (Option.some.inj h).symm⟩
  · simp at h

/-- Memory that is copied is moved, or fills the target. -/
theorem Location.exists_rebase_of_copied? {l source target landed : Location}
    (h : l.copied? source target = some landed) :
    (∃ k, landed = l.rebase k target) ∨ landed = target := by
  unfold copied? at h
  split at h
  · exact .inl ⟨_, (Option.some.inj h).symm⟩
  · split at h
    · exact .inr (Option.some.inj h).symm
    · simp at h

section Within

variable {m : Program} {config : Config} {n t : Nat} {d d' : Fact} {rule : Rule}

/-- What comes out of the region of a branch. -/
theorem arises_of_mem_applyBranch {type : Ty} (hrule : m.rule? config n = some rule)
    (htype : type ≠ .void → m.hasResult n = true) (hzero : d.isZero = false)
    (hbranch : d.isBranch = true) (h : d' ∈ rule.applyBranch (m.blockLabel? n) n type d) :
    Arises m config (.normal n t) d d' := by
  unfold Rule.applyBranch at h
  split at h
  · simp at h
  next hlabel =>
  split at h
  · obtain rfl := List.mem_singleton.mp h
    exact .kept fun _ => hlabel
  next hvalue =>
  split at h
  · next condition region =>
    obtain rfl | h := List.mem_cons.mp h
    · exact .kept fun _ => hlabel
    · cases region with
      | endsAt label =>
        obtain rfl : d' = .branch (.result n) label := by simpa [Region.endLabel?] using h
        exact .opened hrule (.inr ⟨hbranch, hlabel, hvalue⟩)
      | untracked => simp [Region.endLabel?] at h
      | unclosed e => simp [Region.endLabel?] at h
  · simp only [List.mem_cons, List.mem_append, List.mem_map, Option.mem_toList] at h
    obtain rfl | h | ⟨target, htarget, rfl⟩ := h
    · exact .kept fun _ => hlabel
    · split at h
      · simp at h
      · next hvoid =>
        obtain rfl := List.mem_singleton.mp h
        exact .computed hzero (htype hvoid)
    · exact .written hzero hrule htarget

/-- What comes out of an instruction that writes. -/
theorem arises_of_mem_overwriting {moved? : Location → Location → Option Location}
    {target : Option Location} (hrule : m.rule? config n = some rule)
    (htarget : rule.written? = target) (hzero : d.isZero = false) (hbranch : d.isBranch = false)
    (hmoved : ∀ l t landed, moved? l t = some landed → (∃ k, landed = l.rebase k t) ∨ landed = t)
    (h : d' ∈ Rule.overwriting moved? target d) : Arises m config (.normal n t) d d' := by
  obtain rfl | ⟨l, target, landed, hl, rfl, hlanded, rfl⟩ := Rule.mem_overwriting h
  · exact .kept (by simp [hbranch])
  · obtain ⟨k, rfl⟩ | rfl := hmoved l target landed hlanded
    · exact .moved k hl hrule htarget
    · exact .written hzero hrule htarget

/-- What comes out of a rule that writes memory arises in one of the ways. -/
theorem arises_of_mem_writing {target : Option Location} (hrule : m.rule? config n = some rule)
    (htarget : rule.written? = target) (hzero : d.isZero = false) (hbranch : d.isBranch = false)
    (h : d' ∈ Rule.writing target d) : Arises m config (.normal n t) d d' := by
  obtain rfl | ⟨l, rfl, rfl⟩ := Rule.mem_writing.mp h
  · exact .kept (by simp [hbranch])
  · exact .written hzero hrule htarget

/-- What comes out of a rule that gives a result arises in one of the ways. -/
theorem arises_of_mem_producing {isTainted : Bool} (hresult : m.hasResult n = true)
    (hzero : d.isZero = false) (hbranch : d.isBranch = false)
    (h : d' ∈ Rule.producing (.result n) isTainted d) : Arises m config (.normal n t) d d' := by
  obtain rfl | ⟨-, rfl⟩ := Rule.mem_producing.mp h
  · exact .kept (by simp [hbranch])
  · exact .computed hzero hresult

/-- A fact that goes with a cursor has one. -/
theorem Rule.list_isSome_of_follows {list : Option Location} (h : Rule.follows d list = true) :
    d.list.isSome = true := by
  unfold follows at h
  split at h
  · next hlist => simp [hlist]
  · simp at h

/-- What comes out of a rule for a fact that is not about the region of a branch. -/
theorem arises_of_mem_apply (hrule : m.rule? config n = some rule) (hzero : d.isZero = false)
    (hbranch : d.isBranch = false) (h : d' ∈ rule.apply (.result n) d) :
    Arises m config (.normal n t) d d' := by
  have hkept : Arises m config (.normal n t) d d := .kept (by simp [hbranch])
  cases rule with
  | keep | call _ | ret _ =>
    obtain rfl := List.mem_singleton.mp h
    exact hkept
  | store value source target =>
    simp only [Rule.apply] at h
    split at h
    · exact arises_of_mem_writing hrule rfl hzero hbranch h
    · refine arises_of_mem_overwriting hrule rfl hzero hbranch (fun l t landed hlanded => ?_) h
      obtain ⟨source, -, hlanded⟩ := Option.bind_eq_some_iff.mp hlanded
      exact .inl (Location.exists_rebase_of_stored? hlanded)
  | copy address source target =>
    simp only [Rule.apply] at h
    split at h
    · exact arises_of_mem_writing hrule rfl hzero hbranch h
    · refine arises_of_mem_overwriting hrule rfl hzero hbranch (fun l t landed hlanded => ?_) h
      obtain ⟨source, -, hlanded⟩ := Option.bind_eq_some_iff.mp hlanded
      exact Location.exists_rebase_of_copied? hlanded
  | fill value target =>
    simp only [Rule.apply] at h
    split at h
    · exact arises_of_mem_writing hrule rfl hzero hbranch h
    · exact arises_of_mem_overwriting hrule rfl hzero hbranch (by simp) h
  | load address location givesPointer =>
    exact arises_of_mem_producing (hasResult_of_rule? hrule rfl) hzero hbranch h
  | compute operands =>
    exact arises_of_mem_producing (hasResult_of_rule? hrule rfl) hzero hbranch h
  | phi values locations =>
    exact arises_of_mem_producing (hasResult_of_rule? hrule rfl) hzero hbranch h
  | branch condition region =>
    cases region with
    | endsAt label =>
      simp only [Rule.apply, Region.endLabel?] at h
      split at h
      · next hplain =>
        obtain rfl | rfl : d' = d ∨ d' = .branch (.result n) label := by simpa using h
        · exact hkept
        · exact .opened hrule (.inl hplain)
      · obtain rfl := List.mem_singleton.mp h
        exact hkept
    | untracked | unclosed _ =>
      obtain rfl := List.mem_singleton.mp h
      exact hkept
  | vaStart list =>
    simp only [Rule.apply] at h
    split at h
    · next hstarts =>
      simp only [Bool.and_eq_true, Option.isSome_iff_exists, Option.isNone_iff_eq_none] at hstarts
      obtain ⟨⟨⟨l, rfl⟩, ⟨i, hi⟩⟩, hlist⟩ := hstarts
      obtain rfl | rfl := List.mem_pair.mp h
      · exact hkept
      · exact .started hrule hbranch (by simp [hi]) hlist
    · obtain rfl := List.mem_singleton.mp h
      exact hkept
  | vaArg list =>
    simp only [Rule.apply] at h
    split at h
    · next hfollows =>
      unfold Rule.advance at h
      dsimp only at h
      split at h
      · obtain rfl := List.mem_singleton.mp h
        exact .computed hzero (hasResult_of_rule? hrule rfl)
      · split at h
        · next hlt =>
          obtain rfl := List.mem_singleton.mp h
          exact .advanced hbranch (Rule.list_isSome_of_follows hfollows) hlt
        · simp at h
    · obtain rfl := List.mem_singleton.mp h
      exact hkept
  | vaCopy source target =>
    simp only [Rule.apply] at h
    split at h
    · next hcopies =>
      simp only [Bool.and_eq_true, Option.isSome_iff_exists] at hcopies
      obtain ⟨⟨target, rfl⟩, hfollows⟩ := hcopies
      obtain rfl | rfl := List.mem_pair.mp h
      · exact hkept
      · exact .copied hrule hbranch (Rule.list_isSome_of_follows hfollows)
    · obtain rfl := List.mem_singleton.mp h
      exact hkept
  | vaEnd list =>
    simp only [Rule.apply] at h
    split at h
    · simp at h
    · obtain rfl := List.mem_singleton.mp h
      exact hkept

/-- What comes out of a rule. -/
theorem arises_of_mem_flow {type : Ty} (hrule : m.rule? config n = some rule)
    (htype : type ≠ .void → m.hasResult n = true) (h : d' ∈ rule.flow m n type d) :
    Arises m config (.normal n t) d d' := by
  unfold Rule.flow at h
  split at h
  · next hzero =>
    obtain rfl := List.mem_singleton.mp h
    exact .zero hzero
  next hzero =>
  rw [Bool.not_eq_true] at hzero
  split at h
  · next hbranch => exact arises_of_mem_applyBranch hrule htype hzero hbranch h
  · next hbranch => exact arises_of_mem_apply hrule hzero (by simpa using hbranch) h

end Within

/-! ## Between procedures -/

section Across

variable {m : Program} {config : Config} {c r x entry : Nat} {d d' : Fact} {site : CallSite}
  {callee : Procedure} {exit : ExitSite}

/-- Every argument has its own place among the argument locations. -/
theorem argLocations_length (hrule : m.rule? config c = some (.call site)) :
    site.argLocations.length = site.args.length := by
  obtain ⟨inst, name, args, -, -, rfl⟩ := eq_callSite_of_rule? hrule
  simp [CallSite.ofInstruction]

/-- What comes out for an argument behind the parameters arises in one of the ways. -/
theorem arises_of_mem_varArgOf {i : Nat} (hrule : m.rule? config c = some (.call site))
    (hcallee : m.callTarget? c = some callee) (hzero : d.isZero = false)
    (hi : i < site.args.length) (h : d' ∈ CallSite.varArgOf callee i) :
    Arises m config (.call c entry) d d' := by
  unfold CallSite.varArgOf at h
  split at h
  · next hvariadic =>
    obtain rfl := List.mem_singleton.mp h
    exact .varArg hzero hrule hcallee hvariadic hi
  · simp at h

/-- What comes out at the entry of a callee. -/
theorem arises_of_mem_enter (hrule : m.rule? config c = some (.call site))
    (hcallee : m.callTarget? c = some callee) (h : d' ∈ site.enter callee d) :
    Arises m config (.call c entry) d d' := by
  unfold CallSite.enter at h
  split at h
  · next hzero =>
    obtain rfl := List.mem_singleton.mp h
    exact .zero hzero
  next hzero =>
  rw [Bool.not_eq_true] at hzero
  split at h
  · simp at h
  obtain h | h := List.mem_append.mp h
  · obtain ⟨⟨arg, i⟩, hmem, h⟩ := List.mem_flatMap.mp h
    have hi := (List.getElem?_eq_some_iff.mp (List.mem_zipIdx_iff_getElem?.mp hmem)).1
    dsimp only at h
    split at h
    · unfold CallSite.valueInside at h
      split at h
      · next hlt =>
        obtain rfl := List.mem_singleton.mp h
        exact .param hzero hcallee hlt
      · exact arises_of_mem_varArgOf hrule hcallee hzero hi h
    · simp at h
  · obtain ⟨l, hl, h⟩ := List.mem_flatMap.mp h
    obtain ⟨⟨arg?, i⟩, hmem, h⟩ := List.mem_flatMap.mp h
    obtain ⟨arg, harg, hinside⟩ := List.mem_flatMap.mp h
    obtain rfl : arg? = some arg := by simpa using harg
    have hget : site.argLocations[i]? = some (some arg) := List.mem_zipIdx_iff_getElem?.mp hmem
    have hi := (List.getElem?_eq_some_iff.mp hget).1
    rw [argLocations_length hrule] at hi
    have hlocation : site.argLocation? i = some arg := by simp [CallSite.argLocation?, hget]
    unfold CallSite.memoryInside at hinside
    dsimp only at hinside
    split at hinside
    · split at hinside
      · exact arises_of_mem_varArgOf hrule hcallee hzero hi hinside
      · simp at hinside
    next hlt =>
    rw [Nat.not_le] at hlt
    split at hinside
    · next steps hsteps =>
      obtain rfl := List.mem_singleton.mp hinside
      exact .below (by simpa using hl) hrule hcallee hlocation hlt hsteps
    · split at hinside
      · obtain rfl := List.mem_singleton.mp hinside
        exact .around hzero hcallee hlt
      · simp at hinside

/-- What comes out at the return site of a call. -/
theorem arises_of_mem_leave (hm : m.WellFormed) (hrule : m.rule? config c = some (.call site))
    (h : d' ∈ site.leave exit d) : Arises m config (.ret x r c) d d' := by
  have hresult : site.result = .result c := by rw [CallSite.result, hm.callSite_call hrule]
  unfold CallSite.leave at h
  split at h
  · next hzero =>
    obtain rfl := List.mem_singleton.mp h
    exact .zero hzero
  next hzero =>
  rw [Bool.not_eq_true] at hzero
  split at h
  · simp at h
  obtain h | h := List.mem_append.mp h
  · split at h
    · obtain rfl := List.mem_singleton.mp h
      exact hresult ▸ .returned hzero
    · simp at h
  · obtain ⟨l, hl, h⟩ := List.mem_flatMap.mp h
    rw [Option.mem_toList] at hl
    obtain h | h := List.mem_append.mp h
    · obtain ⟨returned, -, h⟩ := List.mem_flatMap.mp h
      unfold CallSite.memoryReturned at h
      split at h
      · obtain h | h := List.mem_append.mp h
        · obtain ⟨target, htarget, rfl⟩ := List.mem_map.mp h
          exact .landed _ hl hrule (by simpa using htarget)
        · split at h
          · obtain rfl := List.mem_singleton.mp h
            exact hresult ▸ .returned hzero
          · simp at h
      · simp at h
    · obtain ⟨arg, harg, rfl⟩ := List.mem_map.mp h
      obtain ⟨i, -, harg⟩ := Option.bind_eq_some_iff.mp (Option.mem_toList.mp harg)
      exact .outParam hl hrule harg

/-- What comes out past a call. -/
theorem arises_of_mem_pass (hm : m.WellFormed) (hrule : m.rule? config c = some (.call site))
    (h : d' ∈ site.pass m config d) : Arises m config (.callToReturn c r) d d' := by
  have hcall := hm.callSite_call hrule
  have hresult : site.result = .result c := by rw [CallSite.result, hcall]
  unfold CallSite.pass at h
  split at h
  · next hzero =>
    obtain rfl | h := List.mem_cons.mp h
    · exact .zero hzero
    unfold CallSite.generated at h
    split at h
    · simp at h
    next source hsource =>
    obtain h | h := List.mem_append.mp h
    · split at h
      · obtain rfl := List.mem_singleton.mp h
        exact hresult ▸ .result hrule (.inr (by simp [hsource]))
      · simp at h
    · obtain ⟨l, hl, rfl⟩ := List.mem_map.mp h
      obtain ⟨i, -, hl⟩ := List.mem_filterMap.mp hl
      exact .filled hrule (by simp [hsource]) hl
  next hzero =>
  rw [Bool.not_eq_true] at hzero
  split at h
  · split at h
    · simp at h
    · next hlabel =>
      obtain rfl | rfl := List.mem_pair.mp h
      · exact .passed fun _ => hcall ▸ hlabel
      · exact hresult ▸ .result hrule (.inl hzero)
  · next hbranch =>
    split at h
    · obtain rfl | rfl := List.mem_pair.mp h
      · exact .passed (by simp [hbranch])
      · exact hresult ▸ .result hrule (.inl hzero)
    · obtain rfl := List.mem_singleton.mp h
      exact .passed (by simp [hbranch])

end Across

/-- Whatever comes out along a link arises in one of these ways. -/
theorem Program.WellFormed.arises {m : Program} (hm : m.WellFormed)
    {config : Config} {t : Transfer Nat} {d d' : Fact} (hlink : m.supergraph.Has t)
    (h : d' ∈ m.outcomes config t d) : Arises m config t d d' := by
  cases t with
  | normal n t =>
    obtain ⟨inst, hinst, -⟩ := hm.normal_mem_links_iff.mp hlink
    obtain ⟨p, -, hrule⟩ := hm.rule?_eq config hinst
    exact arises_of_mem_flow hrule (hm.hasResult_of_type_ne_void hinst)
      (mem_flow_of_mem_outcomes hinst hrule h)
  | call c entry =>
    obtain ⟨site, callee, hrule, hcallee, houtcomes⟩ := hm.outcomes_call_of_has config hlink
    exact arises_of_mem_enter hrule hcallee (houtcomes d ▸ h)
  | ret x r c =>
    obtain ⟨site, exit, hrule, -, houtcomes⟩ := hm.outcomes_ret_of_has config hlink
    exact arises_of_mem_leave hm hrule (houtcomes d ▸ h)
  | callToReturn c r =>
    obtain ⟨site, hrule, houtcomes⟩ := hm.outcomes_callToReturn_of_has config hlink
    exact arises_of_mem_pass hm hrule (houtcomes d ▸ h)

end TaintTrail

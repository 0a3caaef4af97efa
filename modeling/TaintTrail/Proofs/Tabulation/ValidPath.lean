import TaintTrail.Proofs.Tabulation.Fixpoint
import TaintTrail.Tabulation.Explicit

/-!
# Valid paths

A valid path starts at a seed with the zero fact and goes over links, where a link back is taken
only to the call that was entered last and is still open. Calls may stay open. Along the way each
link turns the fact into one that comes out of its flow function.

Solving a problem whose flow functions do not depend on the store finds exactly the facts at the
ends of valid paths, provided that seeds that lie in a procedure lie at its entry. Without that, an
end summary of a procedure would speak of paths that start in its middle.
-/

namespace TaintTrail

variable {ν φ σ : Type}

/-- The ends of valid paths: the calls that are still open, the last one first, the node that is
reached and the fact before it. -/
inductive ValidPath (p : Problem ν φ σ) (g : Supergraph ν) (f : Transfer ν → φ → List φ) :
    List ν → ν → φ → Prop
  | seed {n : ν} : (n, p.zero) ∈ p.seeds → ValidPath p g f [] n p.zero
  | normal {calls : List ν} {n m : ν} {d d' : φ} : ValidPath p g f calls n d →
      (n, .normal m) ∈ g.links → d' ∈ f (.normal n m) d → ValidPath p g f calls m d'
  | call {calls : List ν} {c entry : ν} {d d' : φ} : ValidPath p g f calls c d →
      (c, .call entry) ∈ g.links → d' ∈ f (.call c entry) d → ValidPath p g f (c :: calls) entry d'
  | ret {calls : List ν} {c exit r : ν} {d d' : φ} : ValidPath p g f (c :: calls) exit d →
      (exit, .ret r c) ∈ g.links → d' ∈ f (.ret exit r c) d → ValidPath p g f calls r d'
  | callToReturn {calls : List ν} {c r : ν} {d d' : φ} : ValidPath p g f calls c d →
      (c, .callToReturn r) ∈ g.links → d' ∈ f (.callToReturn c r) d → ValidPath p g f calls r d'

/-- The paths from a node with a fact to a node with a fact on which every call is closed again and
no other is. -/
inductive Balanced (g : Supergraph ν) (f : Transfer ν → φ → List φ) : ν → φ → ν → φ → Prop
  | refl (n : ν) (d : φ) : Balanced g f n d n d
  | normal {n₀ n m : ν} {d₀ d d' : φ} : Balanced g f n₀ d₀ n d → (n, .normal m) ∈ g.links →
      d' ∈ f (.normal n m) d → Balanced g f n₀ d₀ m d'
  | callToReturn {n₀ c r : ν} {d₀ d d' : φ} : Balanced g f n₀ d₀ c d →
      (c, .callToReturn r) ∈ g.links → d' ∈ f (.callToReturn c r) d → Balanced g f n₀ d₀ r d'
  | through {n₀ c entry exit r : ν} {d₀ d entryFact exitFact d' : φ} : Balanced g f n₀ d₀ c d →
      (c, .call entry) ∈ g.links → entryFact ∈ f (.call c entry) d →
      Balanced g f entry entryFact exit exitFact → (exit, .ret r c) ∈ g.links →
      d' ∈ f (.ret exit r c) exitFact → Balanced g f n₀ d₀ r d'

section ValidPath

variable {p : Problem ν φ σ} {g : Supergraph ν} {f : Transfer ν → φ → List φ}

/-- A valid path goes on along a balanced one, and the same calls stay open. -/
theorem ValidPath.append_balanced {calls : List ν} {n₀ n : ν} {d₀ d : φ}
    (hpath : ValidPath p g f calls n₀ d₀) (hbalanced : Balanced g f n₀ d₀ n d) :
    ValidPath p g f calls n d := by
  induction hbalanced generalizing calls with
  | refl n d => exact hpath
  | normal _ hlink hd ih => exact (ih hpath).normal hlink hd
  | callToReturn _ hlink hd ih => exact (ih hpath).callToReturn hlink hd
  | through _ hcall hentry _ hret hd ihcaller ihcallee =>
    exact (ihcallee ((ihcaller hpath).call hcall hentry)).ret hret hd

variable [DecidableEq ν]

/-- A node where the paths of a procedure begin: the entry of its procedure, if it is in one. -/
def Supergraph.BeginsAt (g : Supergraph ν) (n : ν) : Prop :=
  ∀ entry, g.entryOf? n = some entry → entry = n

/-- An entailed path edge comes from a valid path to a beginning of its procedure with the source
fact, and a balanced path on from there. -/
theorem Entailed.exists_balanced (hg : g.WellShaped)
    (hzero : ∀ n d, (n, d) ∈ p.seeds → d = p.zero)
    (hseeds : ∀ n d, (n, d) ∈ p.seeds → g.BeginsAt n) {e : PathEdge ν φ}
    (he : Entailed p g f e) :
    ∃ n₀, g.BeginsAt n₀ ∧ g.entryOf? n₀ = g.entryOf? e.node ∧
      (∃ calls, ValidPath p g f calls n₀ e.source) ∧ Balanced g f n₀ e.source e.node e.fact := by
  induction he with
  | @seed n d hseed =>
    obtain rfl := hzero n d hseed
    exact ⟨n, hseeds n _ hseed, rfl, ⟨[], .seed hseed⟩, .refl _ _⟩
  | normal _ hlink hd ih =>
    obtain ⟨n₀, hbegins, howner, hvalid, hbalanced⟩ := ih
    exact ⟨n₀, hbegins, howner.trans (hg.normal_entryOf _ _ hlink).symm, hvalid,
      hbalanced.normal hlink hd⟩
  | callToReturn _ hlink hd ih =>
    obtain ⟨n₀, hbegins, howner, hvalid, hbalanced⟩ := ih
    exact ⟨n₀, hbegins, howner.trans (hg.callToReturn_entryOf _ _ hlink).symm, hvalid,
      hbalanced.callToReturn hlink hd⟩
  | @call e entry d _ hlink hd ih =>
    obtain ⟨n₀, -, -, ⟨calls, hvalid⟩, hbalanced⟩ := ih
    refine ⟨entry, fun entry' h => ?_, rfl, ⟨e.node :: calls, ?_⟩, .refl _ _⟩
    · simpa [hg.call_entryOf _ _ hlink] using h.symm
    · exact (hvalid.append_balanced hbalanced).call hlink hd
  | @ret caller entry exit r entryFact exitFact d _ hcall hentry _ _ howner hret hd ihcaller
      ihcallee =>
    obtain ⟨n₀, hbegins, hcallerOwner, hvalid, hbalanced⟩ := ihcaller
    obtain ⟨n₁, hbegins₁, hcalleeOwner, -, hbalanced₁⟩ := ihcallee
    -- The path to the exit begins at the entry of the procedure, so it is one of this call.
    obtain rfl : entry = n₁ := hbegins₁ entry (hcalleeOwner.trans howner)
    obtain ⟨-, -, -, -, hsite⟩ := (hg.ret_iff _ _ _).mp hret
    have hreturn := hg.callToReturn_entryOf _ _ (Supergraph.callToReturn_mem_of_returnSite? hsite)
    exact ⟨n₀, hbegins, hcallerOwner.trans hreturn.symm, hvalid,
      hbalanced.through hcall hentry hbalanced₁ hret hd⟩

/-- The calls that are open at a node agree with the source fact there: the last of them brought
the source fact to the entry of the node's procedure, and so on outwards. -/
def Anchored (p : Problem ν φ σ) (g : Supergraph ν) (f : Transfer ν → φ → List φ) :
    List ν → ν → φ → Prop
  | [], _, _ => True
  | c :: calls, n, source => ∃ entry callerSource fact, (c, .call entry) ∈ g.links ∧
      Entailed p g f ⟨callerSource, c, fact⟩ ∧ source ∈ f (.call c entry) fact ∧
      (∀ owner, g.entryOf? n = some owner → owner = entry) ∧ Anchored p g f calls c callerSource

/-- Nodes of one procedure are anchored alike. -/
theorem Anchored.congr {calls : List ν} {n m : ν} {source : φ}
    (howner : g.entryOf? m = g.entryOf? n) (h : Anchored p g f calls n source) :
    Anchored p g f calls m source := by
  cases calls with
  | nil => trivial
  | cons c calls =>
    obtain ⟨entry, callerSource, fact, hcall, hcaller, hsource, hentry, hrest⟩ := h
    exact ⟨entry, callerSource, fact, hcall, hcaller, hsource, howner ▸ hentry, hrest⟩

/-- The end of a valid path is entailed, in a context that agrees with the calls that are open. -/
theorem ValidPath.exists_entailed (hg : g.WellShaped) {calls : List ν} {n : ν} {d : φ}
    (hpath : ValidPath p g f calls n d) :
    ∃ source, Entailed p g f ⟨source, n, d⟩ ∧ Anchored p g f calls n source := by
  induction hpath with
  | seed hseed => exact ⟨p.zero, .seed hseed, trivial⟩
  | normal _ hlink hd ih =>
    obtain ⟨source, he, hanchored⟩ := ih
    exact ⟨source, .normal he hlink hd, hanchored.congr (hg.normal_entryOf _ _ hlink)⟩
  | callToReturn _ hlink hd ih =>
    obtain ⟨source, he, hanchored⟩ := ih
    exact ⟨source, .callToReturn he hlink hd, hanchored.congr (hg.callToReturn_entryOf _ _ hlink)⟩
  | @call calls c entry d d' _ hlink hd ih =>
    obtain ⟨source, he, hanchored⟩ := ih
    refine ⟨d', .call he hlink hd, entry, source, d, hlink, he, hd, fun owner h => ?_, hanchored⟩
    simpa [hg.call_entryOf _ _ hlink] using h.symm
  | @ret calls c exit r d d' _ hlink hd ih =>
    obtain ⟨source, he, entry, callerSource, fact, hcall, hcaller, hsource, howner, hrest⟩ := ih
    obtain ⟨hisExit, entry', hentry', -, hsite⟩ := (hg.ret_iff _ _ _).mp hlink
    obtain rfl := howner entry' hentry'
    refine ⟨callerSource, .ret hcaller hcall hsource he hisExit hentry' hlink hd, ?_⟩
    exact hrest.congr
      (hg.callToReturn_entryOf _ _ (Supergraph.callToReturn_mem_of_returnSite? hsite))

/-- A fact is entailed before a node exactly if a valid path leads there with it. -/
theorem exists_entailed_iff_validPath (hg : g.WellShaped)
    (hzero : ∀ n d, (n, d) ∈ p.seeds → d = p.zero)
    (hseeds : ∀ n d, (n, d) ∈ p.seeds → g.BeginsAt n) {n : ν} {d : φ} :
    (∃ source, Entailed p g f ⟨source, n, d⟩) ↔ ∃ calls, ValidPath p g f calls n d := by
  constructor
  · rintro ⟨source, he⟩
    obtain ⟨n₀, -, -, ⟨calls, hvalid⟩, hbalanced⟩ := he.exists_balanced hg hzero hseeds
    exact ⟨calls, hvalid.append_balanced hbalanced⟩
  · rintro ⟨calls, hpath⟩
    obtain ⟨source, he, -⟩ := hpath.exists_entailed hg
    exact ⟨source, he⟩

end ValidPath

/-- A problem whose flow functions do not depend on the store is never disturbed by it. -/
theorem Problem.steady_of_flow_eq {p : Problem ν φ σ} {f : Transfer ν → φ → List φ}
    (hflow : ∀ t d s, (p.flow t d s).1 = f t d) :
    p.Steady f (fun _ => True) (fun _ _ => False) :=
  ⟨fun t d s d' hd' => hflow t d s ▸ hd', fun t d s _ => hflow t d s, by simp⟩

variable [DecidableEq ν] [DecidableEq φ]

/-- Solving a problem to the end finds exactly the facts at the ends of valid paths, whatever order
path edges are followed in and sets are visited in, so in the order of the solver too. -/
theorem mem_factsAt_iff_validPath (p : Problem ν φ σ) (g : Supergraph ν)
    (f : Transfer ν → φ → List φ) (limit : Nat) (store : σ)
    (hflow : ∀ t d s, (p.flow t d s).1 = f t d) (hzero : ∀ n d, (n, d) ∈ p.seeds → d = p.zero)
    (hseeds : ∀ n d, (n, d) ∈ p.seeds → g.BeginsAt n) (hg : g.WellShaped) (n : ν) (d : φ) :
    (∀ done run, Run.EndsUnder p g store limit done run → run.isComplete = true →
      (d ∈ run.factsAt n ↔ ∃ calls, ValidPath p g f calls n d)) ∧
    ((Run.solve p g limit store).isComplete = true →
      (d ∈ (Run.solve p g limit store).factsAt n ↔ ∃ calls, ValidPath p g f calls n d)) := by
  have hpaths (run : Run ν φ σ) (hrun : Run.Finished p g store run) :
      d ∈ run.factsAt n ↔ ∃ calls, ValidPath p g f calls n d := by
    rw [hrun.mem_factsAt (Problem.steady_of_flow_eq hflow) hg trivial trivial]
    exact exists_entailed_iff_validPath hg hzero hseeds
  exact ⟨fun done run hrun hcomplete => hpaths run (hrun.scheduled.finished hcomplete),
    fun hcomplete => hpaths _ (Run.finished_of_isComplete hcomplete)⟩

/-! ## Two calls of one procedure -/

/-- The calls 0 and 2 of a procedure that goes from 10 over 11 to its exit 12. -/
def Supergraph.twoCalls : Supergraph Nat where
  links := [(0, .call 10), (0, .callToReturn 1), (1, .normal 2), (2, .call 10),
    (2, .callToReturn 3), (10, .normal 11), (11, .normal 12), (12, .ret 1 0), (12, .ret 3 2)]
  entries := [0, 10]
  exits := [3, 12]
  owners := [(0, 0), (1, 0), (2, 0), (3, 0), (10, 10), (11, 10), (12, 10)]

/-- The supergraph with two calls is well shaped. -/
theorem Supergraph.wellShaped_twoCalls : twoCalls.WellShaped where
  normal_entryOf n m h := by
    obtain ⟨rfl, rfl⟩ | ⟨rfl, rfl⟩ | ⟨rfl, rfl⟩ :
        n = 1 ∧ m = 2 ∨ n = 10 ∧ m = 11 ∨ n = 11 ∧ m = 12 := by simpa [twoCalls] using h
    all_goals decide
  callToReturn_entryOf c r h := by
    obtain ⟨rfl, rfl⟩ | ⟨rfl, rfl⟩ : c = 0 ∧ r = 1 ∨ c = 2 ∧ r = 3 := by simpa [twoCalls] using h
    all_goals decide
  call_entryOf c entry h := by
    obtain ⟨-, rfl⟩ | ⟨-, rfl⟩ : c = 0 ∧ entry = 10 ∨ c = 2 ∧ entry = 10 := by
      simpa [twoCalls] using h
    all_goals decide
  ret_iff x r c := by
    constructor
    · intro h
      obtain ⟨rfl, rfl, rfl⟩ | ⟨rfl, rfl, rfl⟩ :
          x = 12 ∧ r = 1 ∧ c = 0 ∨ x = 12 ∧ r = 3 ∧ c = 2 := by simpa [twoCalls] using h
      all_goals exact ⟨by decide, 10, by decide, by decide, by decide⟩
    · rintro ⟨hexit, entry, howner, hcall, hsite⟩
      obtain rfl | rfl : x = 3 ∨ x = 12 := by simpa [isExit, twoCalls] using hexit
      all_goals
        obtain ⟨rfl, rfl⟩ | ⟨rfl, rfl⟩ : c = 0 ∧ entry = 10 ∨ c = 2 ∧ entry = 10 := by
          simpa [twoCalls] using hcall
        all_goals revert howner hsite; simp [entryOf?, returnSite?, linksFrom, twoCalls, eq_comm]

/-- The first call brings the fact 1 into the procedure, and between the calls it is dropped. -/
def Problem.firstCallOnly : Problem Nat Nat Unit :=
  .ofEdits 0 [(0, 0)] [(.call 0 10, .generate 1), (.normal 1 2, .table [(1, [])] true)]

/-- A valid path brings the fact 1 back from the first call, and none from the second one. -/
theorem mem_factsAt_iff_validPath_firstCallOnly :
    (∃ calls, ValidPath .firstCallOnly .twoCalls
        (fun t d => (Problem.firstCallOnly.flow t d ()).1) calls 1 1) ∧
      ¬ ∃ calls, ValidPath .firstCallOnly .twoCalls
        (fun t d => (Problem.firstCallOnly.flow t d ()).1) calls 3 1 := by
  have hpaths := mem_factsAt_iff_validPath .firstCallOnly .twoCalls
    (fun t d => (Problem.firstCallOnly.flow t d ()).1) 20 () (fun _ _ _ => rfl)
    (by simp [Problem.firstCallOnly, Problem.ofEdits])
    (by
      rintro n d h entry howner
      obtain ⟨rfl, rfl⟩ : n = 0 ∧ d = 0 := by
        simpa [Problem.firstCallOnly, Problem.ofEdits] using h
      revert howner
      simp [Supergraph.entryOf?, Supergraph.twoCalls, eq_comm])
    Supergraph.wellShaped_twoCalls
  have hcomplete : (Run.solve .firstCallOnly .twoCalls 20 ()).isComplete = true := by
    decide +kernel
  rw [← (hpaths 1 1).2 hcomplete, ← (hpaths 3 1).2 hcomplete]
  decide +kernel

/-- No fact goes from the entry of the procedure into its body, where a second seed brings the fact
1 to the exit. -/
def Problem.seededMidway : Problem Nat Nat Unit :=
  .ofEdits 0 [(0, 0), (11, 0)] [(.normal 10 11, .kill), (.normal 11 12, .generate 1)]

/-- On valid paths the second seed's fact stays in the procedure. -/
theorem validPath_seededMidway {calls : List Nat} {n d : Nat}
    (h : ValidPath .seededMidway .twoCalls (fun t d => (Problem.seededMidway.flow t d ()).1)
      calls n d) :
    d = 0 ∧ (calls = [] ∨ n = 10) ∨ d = 1 ∧ calls = [] ∧ n = 12 := by
  induction h with
  | seed _ => exact .inl ⟨rfl, .inl rfl⟩
  | @normal calls n m d d' _ hlink hd ih =>
    obtain ⟨rfl, rfl⟩ | ⟨rfl, rfl⟩ | ⟨rfl, rfl⟩ :
        n = 1 ∧ m = 2 ∨ n = 10 ∧ m = 11 ∨ n = 11 ∧ m = 12 := by
      simpa [Supergraph.twoCalls] using hlink
    · obtain rfl : d' = d := List.mem_singleton.mp hd
      simpa using ih
    · exact absurd hd List.not_mem_nil
    · obtain ⟨rfl, rfl⟩ : d = 0 ∧ calls = [] := by simpa using ih
      have hd : d' ∈ [0, 1] := hd
      obtain rfl | rfl : d' = 0 ∨ d' = 1 := by simpa using hd
      all_goals simp
  | @call calls c entry d d' _ hlink hd ih =>
    obtain ⟨rfl, rfl⟩ | ⟨rfl, rfl⟩ : c = 0 ∧ entry = 10 ∨ c = 2 ∧ entry = 10 := by
      simpa [Supergraph.twoCalls] using hlink
    all_goals
      obtain rfl : d' = d := List.mem_singleton.mp hd
      obtain ⟨rfl, -⟩ : d' = 0 ∧ calls = [] := by simpa using ih
      simp
  | @ret calls c exit r d d' _ hlink hd ih =>
    obtain ⟨rfl, -⟩ | ⟨rfl, -⟩ : exit = 12 ∧ r = 1 ∧ c = 0 ∨ exit = 12 ∧ r = 3 ∧ c = 2 := by
      simpa [Supergraph.twoCalls] using hlink
    all_goals simp at ih
  | @callToReturn calls c r d d' _ hlink hd ih =>
    obtain ⟨rfl, rfl⟩ | ⟨rfl, rfl⟩ : c = 0 ∧ r = 1 ∨ c = 2 ∧ r = 3 := by
      simpa [Supergraph.twoCalls] using hlink
    all_goals
      obtain rfl : d' = d := List.mem_singleton.mp hd
      simpa using ih

/-- Where a seed stands in the middle of a procedure, the solver returns its facts to the calls of
the procedure although no valid path does. -/
theorem factsAt_solve_seededMidway :
    Supergraph.twoCalls.WellShaped ∧ (∀ n d, (n, d) ∈ Problem.seededMidway.seeds → d = 0) ∧
      (Run.solve .seededMidway .twoCalls 20 ()).isComplete = true ∧
      1 ∈ (Run.solve .seededMidway .twoCalls 20 ()).factsAt 1 ∧
      ¬ ∃ calls, ValidPath .seededMidway .twoCalls
        (fun t d => (Problem.seededMidway.flow t d ()).1) calls 1 1 := by
  refine ⟨Supergraph.wellShaped_twoCalls, ?_, by decide +kernel, by decide +kernel, ?_⟩
  · rintro n d h
    obtain ⟨-, rfl⟩ | ⟨-, rfl⟩ : n = 0 ∧ d = 0 ∨ n = 11 ∧ d = 0 := by
      simpa [Problem.seededMidway, Problem.ofEdits] using h
    all_goals rfl
  · rintro ⟨calls, hpath⟩
    simpa using validPath_seededMidway hpath

end TaintTrail

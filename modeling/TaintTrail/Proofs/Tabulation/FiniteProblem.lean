import Mathlib.Data.Finset.Prod
import TaintTrail.Tabulation.Explicit
import TaintTrail.Proofs.Tabulation.Limit
import TaintTrail.Proofs.Tabulation.Production

/-!
# Finite problems

Every turn of the solver follows a path edge that it has not followed before. Where the facts that
flow functions can produce and the nodes that they lead to are finitely many, so are the path edges,
and the solver stops, whether or not procedures call themselves and control runs in circles. How far
it can get is counted: a path edge is a fact in the context of a fact at a node.
-/

namespace TaintTrail

variable {ν φ σ : Type} [DecidableEq ν] [DecidableEq φ] {p : Problem ν φ σ} {g : Supergraph ν}
  {store : σ} {D : Finset φ} {N : Finset ν}

/-- The path edges over given facts and nodes. -/
def pathEdgesOver (D : Finset φ) (N : Finset ν) : Finset (PathEdge ν φ) :=
  (D ×ˢ D ×ˢ N).image fun triple => ⟨triple.1, triple.2.2, triple.2.1⟩

/-- A path edge between the given facts and nodes is one of finitely many. -/
theorem mem_pathEdgesOver {e : PathEdge ν φ} (hsource : e.source ∈ D) (hfact : e.fact ∈ D)
    (hnode : e.node ∈ N) : e ∈ pathEdgesOver D N := by
  refine Finset.mem_image.mpr ⟨(e.source, e.fact, e.node), ?_, rfl⟩
  simp [hsource, hfact, hnode]

/-- There are at most as many path edges as pairs of facts at nodes. -/
theorem card_pathEdgesOver_le (D : Finset φ) (N : Finset ν) :
    (pathEdgesOver D N).card ≤ D.card * D.card * N.card := by
  refine Finset.card_image_le.trans ?_
  rw [Finset.card_product, Finset.card_product, Nat.mul_assoc]

/-- The facts of a problem, in so far as flow functions can produce them, and the nodes that seeds
and links lead to are among given ones. -/
structure Problem.StaysWithin (p : Problem ν φ σ) (g : Supergraph ν) (store : σ) (D : Finset φ)
    (N : Finset ν) : Prop where
  zero : p.zero ∈ D
  facts : ∀ facts s, p.Produces g store facts s → ∀ d ∈ facts, d ∈ D
  seeds : ∀ seed ∈ p.seeds, seed.1 ∈ N
  links : ∀ link ∈ g.links, link.2.target ∈ N

namespace Problem

/-- A run in any order records path edges over these facts and nodes only. -/
theorem StaysWithin.mem_pathEdgesOver (h : p.StaysWithin g store D N)
    {done : List (PathEdge ν φ)} {run : Run ν φ σ} (hrun : Run.Scheduled p g store done run) :
    ∀ e ∈ run.edges, e ∈ pathEdgesOver D N := by
  obtain ⟨facts, hproduces, hedges⟩ := hrun.exists_produces
  intro e he
  obtain ⟨hsource, hfact, hnode⟩ := hedges e he
  have hfacts := h.facts facts run.store hproduces
  refine TaintTrail.mem_pathEdgesOver ?_ (hfacts _ hfact) ?_
  · rcases List.mem_cons.mp hsource with hzero | hproduced
    · exact hzero ▸ h.zero
    · exact hfacts _ hproduced
  · rcases List.mem_append.mp hnode with hseed | hlink
    · obtain ⟨seed, hmem, heq⟩ := List.mem_map.mp hseed
      exact heq ▸ h.seeds seed hmem
    · obtain ⟨link, hmem, heq⟩ := List.mem_map.mp hlink
      exact heq ▸ h.links link hmem

/-- So a run that no limit stops records no more path edges than can be formed. -/
theorem StaysWithin.size_edges_le (h : p.StaysWithin g store D N) {done : List (PathEdge ν φ)}
    {run : Run ν φ σ} (hrun : Run.Scheduled p g store done run) :
    run.edges.size ≤ D.card * D.card * N.card :=
  (hrun.size_edges_le_card (h.mem_pathEdgesOver hrun)).trans (card_pathEdgesOver_le D N)

end Problem

/-- On a finite problem the solver stops by itself: there is a complete run, which is the run under
every limit that is not lower than the number of path edges it follows. This number is bounded by
the facts, squared, times the nodes, and in no other order are more path edges ever followed. -/
theorem Run.solve_stops_on_finite (h : p.StaysWithin g store D N) :
    (∃ run : Run ν φ σ, run.isComplete = true ∧ run.followed ≤ D.card * D.card * N.card ∧
      ∀ limit, run.followed ≤ limit → solve p g limit store = run) ∧
    ∀ done run, Scheduled p g store done run → run.followed ≤ D.card * D.card * N.card := by
  have hbound : ∀ done run, Scheduled p g store done run →
      run.followed ≤ D.card * D.card * N.card := fun done run hrun =>
    hrun.followed_le.trans (h.size_edges_le hrun)
  have hrun := scheduled_solve p g (D.card * D.card * N.card) store
  have hcomplete := isComplete_solve_of_size_le (h.size_edges_le hrun)
  refine ⟨⟨_, hcomplete, hbound _ _ hrun, fun limit hlimit => ?_⟩, hbound⟩
  exact solve_eq_of_followed_le hcomplete hlimit

/-- Facts that the listed flow functions keep among themselves are kept by all of them. -/
theorem Problem.mem_of_mem_flow_ofEdits {zero : φ} {seeds : List (ν × φ)}
    {edits : List (Transfer ν × Edit φ)}
    (hedits : ∀ pair ∈ edits, ∀ d ∈ D, ∀ d' ∈ pair.2.apply zero d, d' ∈ D) {t : Transfer ν}
    {d d' : φ} {s : Unit} (hd : d ∈ D) (hd' : d' ∈ ((ofEdits zero seeds edits).flow t d s).1) :
    d' ∈ D := by
  cases hlookup : edits.reverse.lookup t with
  | none =>
    obtain rfl : d' = d := by simpa [ofEdits, hlookup, Edit.apply] using hd'
    exact hd
  | some edit =>
    have hmem : (t, edit) ∈ edits := by
      obtain ⟨before, after, hsplit, -⟩ := List.lookup_eq_some_iff.mp hlookup
      rw [← List.mem_reverse, hsplit]
      simp
    have happly : d' ∈ edit.apply zero d := by simpa [ofEdits, hlookup] using hd'
    exact hedits _ hmem d hd d' happly

/-- The procedure at 10 runs in a circle and calls itself. -/
def Supergraph.selfCall : Supergraph Nat where
  links := [(0, .call 10), (0, .callToReturn 1), (10, .normal 11), (11, .normal 10), (11, .call 10),
    (11, .callToReturn 12), (12, .ret 1 0), (12, .ret 12 11)]
  entries := [0, 10]
  exits := [1, 12]
  owners := [(0, 0), (1, 0), (10, 10), (11, 10), (12, 10)]

/-- A call brings the fact 1 into the procedure, where each turn and each call of itself change it
into another one. -/
def Problem.relabelling : Problem Nat Nat Unit :=
  .ofEdits 0 [(0, 0)] [(.call 0 10, .generate 1), (.normal 11 10, .table [(1, [2]), (2, [3])] true),
    (.call 11 10, .table [(3, [1])] true)]

/-- The problem that relabels its facts comes to four of them, at five nodes. -/
theorem Problem.staysWithin_relabelling :
    relabelling.StaysWithin .selfCall () {0, 1, 2, 3} {0, 1, 10, 11, 12} where
  zero := by decide
  facts facts s h := by
    refine h.subset_of_closed (D := ({0, 1, 2, 3} : Finset Nat)) (by decide) ?_
    intro t d s _ hd d' hd'
    exact mem_of_mem_flow_ofEdits (by decide) hd hd'
  seeds := by decide
  links := by decide

/-- The circle and the call of the procedure to itself do not keep the solver from stopping: it
follows 24 path edges, of which there could be 80. -/
theorem Run.solve_stops_on_finite_relabelling :
    ∃ run : Run Nat Nat Unit, run.isComplete = true ∧ run.followed = 24 ∧
      (∀ limit ≥ 24, solve .relabelling .selfCall limit () = run) ∧
      ∀ done run, Scheduled .relabelling .selfCall () done run → run.followed ≤ 80 := by
  obtain ⟨⟨run, hcomplete, hle, hsolve⟩, hbound⟩ :=
    solve_stops_on_finite Problem.staysWithin_relabelling
  have hfollowed : run.followed = 24 := by
    rw [← hsolve 80 hle]
    decide +kernel
  exact ⟨run, hcomplete, hfollowed, hfollowed ▸ hsolve, hbound⟩

end TaintTrail

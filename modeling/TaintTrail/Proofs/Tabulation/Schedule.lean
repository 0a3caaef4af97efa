import Mathlib.Data.List.Perm.Basic
import TaintTrail.Tabulation.Solve

/-!
# Runs in any order

`Run.solve` follows path edges in the order in which they were found, and goes through callers, end
summaries and the facts that come out of a flow function in the order of its lists. Here both are
left open: any path edge that was found may be followed next, and every set may be visited in any
order. Only the links of a node are followed in their own order. The runs of `Run.solve` are among
these. A run may be cut short by a limit, and it may be resumed.
-/

namespace TaintTrail

/-- Visits the elements of a list one after the other, where a relation says what a visit does. -/
inductive Visits {α ρ : Type} (R : α → ρ → ρ → Prop) : List α → ρ → ρ → Prop
  | nil {r : ρ} : Visits R [] r r
  | cons {a : α} {as : List α} {r s t : ρ} : R a r s → Visits R as s t → Visits R (a :: as) r t

/-- Visits the elements of a list in some order. -/
def VisitsAll {α ρ : Type} (R : α → ρ → ρ → Prop) (as : List α) (r t : ρ) : Prop :=
  ∃ bs : List α, bs.Perm as ∧ Visits R bs r t

section Visits

variable {α ρ : Type} {R : α → ρ → ρ → Prop} {as : List α} {r t : ρ}

/-- What every visit preserves holds after all of them. -/
theorem Visits.preserves {I : ρ → Prop} (hvisits : Visits R as r t)
    (hstep : ∀ a ∈ as, ∀ s s', I s → R a s s' → I s') (hr : I r) : I t := by
  induction hvisits with
  | nil => exact hr
  | cons hvisit _ ih =>
    exact ih (fun a ha => hstep a (List.mem_cons_of_mem _ ha))
      (hstep _ List.mem_cons_self _ _ hr hvisit)

/-- What the visit of an element brings about, and later visits keep, holds after all of them. -/
theorem Visits.establishes {I : ρ → Prop} {Q : α → ρ → Prop} (hvisits : Visits R as r t)
    (hstep : ∀ a ∈ as, ∀ s s', I s → R a s s' → I s' ∧ Q a s')
    (hkeep : ∀ a ∈ as, ∀ b ∈ as, ∀ s s', I s → R a s s' → Q b s → Q b s') (hr : I r) :
    ∀ a ∈ as, Q a t := by
  induction hvisits with
  | nil => intro a ha; cases ha
  | @cons b bs r s t hvisit hrest ih =>
    have hb := hstep b List.mem_cons_self _ _ hr hvisit
    have htail := fun a ha => hstep a (List.mem_cons_of_mem b ha)
    intro a ha
    rcases List.mem_cons.mp ha with rfl | ha
    · -- The element was visited first: the rest of the visits has to keep what it brought about.
      have hlast : I t ∧ Q a t := hrest.preserves (I := fun s => I s ∧ Q a s)
        (fun c hc s s' hs hcs => ⟨(htail c hc s s' hs.1 hcs).1,
          hkeep c (List.mem_cons_of_mem _ hc) a List.mem_cons_self s s' hs.1 hcs hs.2⟩) hb
      exact hlast.2
    · exact ih htail (fun a ha c hc => hkeep a (List.mem_cons_of_mem _ ha) c
        (List.mem_cons_of_mem _ hc)) hb.1 a ha

/-- What every visit preserves holds after visits in any order. -/
theorem VisitsAll.preserves {I : ρ → Prop} (hvisits : VisitsAll R as r t)
    (hstep : ∀ a ∈ as, ∀ s s', I s → R a s s' → I s') (hr : I r) : I t := by
  obtain ⟨bs, hperm, hvisits⟩ := hvisits
  exact hvisits.preserves (fun b hb => hstep b (hperm.mem_iff.mp hb)) hr

/-- What the visit of an element brings about, and other visits keep, holds after visits in any
order. -/
theorem VisitsAll.establishes {I : ρ → Prop} {Q : α → ρ → Prop} (hvisits : VisitsAll R as r t)
    (hstep : ∀ a ∈ as, ∀ s s', I s → R a s s' → I s' ∧ Q a s')
    (hkeep : ∀ a ∈ as, ∀ b ∈ as, ∀ s s', I s → R a s s' → Q b s → Q b s') (hr : I r) :
    ∀ a ∈ as, Q a t := by
  obtain ⟨bs, hperm, hvisits⟩ := hvisits
  intro a ha
  refine hvisits.establishes (fun b hb => hstep b (hperm.mem_iff.mp hb))
    (fun b hb c hc => hkeep b (hperm.mem_iff.mp hb) c (hperm.mem_iff.mp hc)) hr a ?_
  exact hperm.mem_iff.mpr ha

/-- A fold visits the elements of its list in order. -/
theorem visits_foldl {step : ρ → α → ρ} (hstep : ∀ a r, R a r (step r a)) (as : List α) (r : ρ) :
    Visits R as r (as.foldl step r) := by
  induction as generalizing r with
  | nil => exact .nil
  | cons a as ih => exact .cons (hstep a r) (ih (step r a))

/-- A fold visits the elements of its list in one of the possible orders. -/
theorem visitsAll_foldl {step : ρ → α → ρ} (hstep : ∀ a r, R a r (step r a)) (as : List α)
    (r : ρ) : VisitsAll R as r (as.foldl step r) :=
  ⟨as, .refl as, visits_foldl hstep as r⟩

end Visits

namespace Run

variable {ν φ σ : Type} [DecidableEq ν] [DecidableEq φ]

/-- Goes to another node of the procedure by a flow function. -/
def Follows (p : Problem ν φ σ) (t : Transfer ν) (source : φ) (target : ν) (fact : φ)
    (run run' : Run ν φ σ) : Prop :=
  VisitsAll (fun d r r' => r' = r.propagate source target d) (transfer p t fact run).1
    (transfer p t fact run).2 run'

/-- Brings a fact back to a caller, and notes what its call comes to. -/
def bringBack (caller : Incoming ν φ) (returnSite : ν) (run : Run ν φ σ) (fact : φ) : Run ν φ σ :=
  { run with summaries := run.summaries.insert ⟨caller.site, caller.fact, fact⟩ }.propagate
    caller.source returnSite fact

/-- Returns from an exit to a caller. -/
def Returns (p : Problem ν φ σ) (exit : ν) (exitFact : φ) (returnSite : ν)
    (caller : Incoming ν φ) (run run' : Run ν φ σ) : Prop :=
  VisitsAll (fun d r r' => r' = bringBack caller returnSite r d)
    (transfer p (.ret exit returnSite caller.site) exitFact run).1
    (transfer p (.ret exit returnSite caller.site) exitFact run).2 run'

/-- Enters a callee with a fact and notes the caller, before what is known already about the callee
is applied. -/
def register (run : Run ν φ σ) (caller : Incoming ν φ) : Run ν φ σ :=
  let run := run.propagate caller.entryFact caller.entry caller.entryFact
  { run with incoming := run.incoming.insert caller }

/-- The end summaries that are known about the callee of a caller. -/
def known (run : Run ν φ σ) (caller : Incoming ν φ) : List (EndSummary ν φ) :=
  run.endSummaries.filter fun s => s.entry = caller.entry && s.entryFact = caller.entryFact

/-- Enters a callee with a fact on behalf of a caller. -/
def Enters (p : Problem ν φ σ) (g : Supergraph ν) (caller : Incoming ν φ)
    (run run' : Run ν φ σ) : Prop :=
  match g.returnSite? caller.site with
  | none => run' = run.register caller
  | some returnSite =>
    VisitsAll (fun s r r' =>
        Returns p s.exit s.fact returnSite caller { r with reuses := r.reuses + 1 } r')
      ((run.register caller).known caller) (run.register caller) run'

/-- Follows a link of a node with a fact, in the context of a source fact. -/
def FollowsLink (p : Problem ν φ σ) (g : Supergraph ν) (e : PathEdge ν φ) (link : Link ν)
    (run run' : Run ν φ σ) : Prop :=
  match link with
  | .normal target => Follows p (.normal e.node target) e.source target e.fact run run'
  | .callToReturn returnSite =>
    Follows p (.callToReturn e.node returnSite) e.source returnSite e.fact run run'
  | .call entry =>
    VisitsAll (fun d r r' => Enters p g ⟨entry, d, e.node, e.source, e.fact⟩ r r')
      (transfer p (.call e.node entry) e.fact run).1
      (transfer p (.call e.node entry) e.fact run).2 run'
  | .ret _ _ => run' = run

/-- Returns from an exit along a link, if it leads to the return site of the caller. -/
def LeavesBy (p : Problem ν φ σ) (e : PathEdge ν φ) (caller : Incoming ν φ) (link : Link ν)
    (run run' : Run ν φ σ) : Prop :=
  match link with
  | .ret returnSite site =>
    if site = caller.site then Returns p e.node e.fact returnSite caller run run' else run' = run
  | _ => run' = run

/-- Notes the way through a procedure. -/
def conclude (run : Run ν φ σ) (entry : ν) (e : PathEdge ν φ) : Run ν φ σ :=
  { run with endSummaries := run.endSummaries.insert ⟨entry, e.source, e.node, e.fact⟩ }

/-- The callers that entered a procedure with a fact. -/
def callers (run : Run ν φ σ) (entry : ν) (entryFact : φ) : List (Incoming ν φ) :=
  run.incoming.filter fun caller => caller.entry = entry && caller.entryFact = entryFact

/-- Notes the way through a procedure and returns to all callers known so far. -/
def FollowsExit (p : Problem ν φ σ) (g : Supergraph ν) (e : PathEdge ν φ)
    (run run' : Run ν φ σ) : Prop :=
  match g.entryOf? e.node with
  | none => run' = run
  | some entry =>
    VisitsAll (fun caller r r' => Visits (LeavesBy p e caller) (g.linksFrom e.node) r r')
      ((run.conclude entry e).callers entry e.source) (run.conclude entry e) run'

/-- Follows a path edge. -/
def FollowsEdge (p : Problem ν φ σ) (g : Supergraph ν) (e : PathEdge ν φ)
    (run run' : Run ν φ σ) : Prop :=
  ∃ mid, Visits (FollowsLink p g e) (g.linksFrom e.node) run mid ∧
    if g.isExit e.node then FollowsExit p g e mid run' else run' = mid

/-- The runs that can come about, each with the path edges that have been followed. -/
inductive Scheduled (p : Problem ν φ σ) (g : Supergraph ν) (store : σ) :
    List (PathEdge ν φ) → Run ν φ σ → Prop
  /-- Nothing has been followed yet. -/
  | start : Scheduled p g store [] (start p store)
  /-- Any path edge that was found and not yet followed is followed next. -/
  | follow {done : List (PathEdge ν φ)} {run run' : Run ν φ σ} {e : PathEdge ν φ} :
      Scheduled p g store done run → e ∈ run.edges → e ∉ done →
      FollowsEdge p g e (run.takeUp e) run' →
      Scheduled p g store (e :: done) run'

/-- The runs in which every path edge that was found has been followed. -/
def Finished (p : Problem ν φ σ) (g : Supergraph ν) (store : σ) (run : Run ν φ σ) : Prop :=
  ∃ done, Scheduled p g store done run ∧ ∀ e ∈ run.edges, e ∈ done

/-- The runs that end under a limit: as many path edges have been followed as the limit allows, or
none was left before that. -/
structure EndsUnder (p : Problem ν φ σ) (g : Supergraph ν) (store : σ) (limit : Nat)
    (done : List (PathEdge ν φ)) (run : Run ν φ σ) : Prop where
  scheduled : Scheduled p g store done run
  followed_le : run.followed ≤ limit
  isComplete_or : run.isComplete = true ∨ run.followed = limit

/-- The runs that can come about when a run goes on, each with the path edges that have been
followed by then. -/
inductive Resumes (p : Problem ν φ σ) (g : Supergraph ν) (done : List (PathEdge ν φ))
    (run : Run ν φ σ) : List (PathEdge ν φ) → Run ν φ σ → Prop
  /-- Nothing more has been followed. -/
  | refl : Resumes p g done run done run
  /-- Any path edge that was found and not yet followed is followed next. -/
  | follow {done' : List (PathEdge ν φ)} {run' run'' : Run ν φ σ} {e : PathEdge ν φ} :
      Resumes p g done run done' run' → e ∈ run'.edges → e ∉ done' →
      FollowsEdge p g e (run'.takeUp e) run'' → Resumes p g done run (e :: done') run''

end Run

end TaintTrail

import TaintTrail.Proofs.Tabulation.Growth
import TaintTrail.Proofs.Supergraph.WellShaped

/-!
# The store along a run

The store of a run changes only by the flow functions. Nothing is assumed here about what a flow
function does when the store has changed before: what all of them keep, whatever the store, holds at
the end of every run, and what one of them brings about and all of them keep holds after it was
applied. Inside a procedure the flow functions are applied to the path edges that are followed, one
link after the other.
-/

namespace TaintTrail.Run

variable {ν φ σ : Type} [DecidableEq ν] [DecidableEq φ] {p : Problem ν φ σ} {g : Supergraph ν}

/-- The flow functions between procedures and past calls keep a property of the store. -/
def KeptAcross (p : Problem ν φ σ) (I : σ → Prop) : Prop :=
  ∀ t d s, (∀ n m, t ≠ .normal n m) → I s → I (p.flow t d s).2

/-- The flow functions that carry a path edge on inside its procedure keep a property of the
store. -/
def KeptWithin (p : Problem ν φ σ) (g : Supergraph ν) (I : σ → Prop) (e : PathEdge ν φ) : Prop :=
  ∀ m, (e.node, .normal m) ∈ g.links → ∀ s, I s → I (p.flow (.normal e.node m) e.fact s).2

section Steps

variable {I : σ → Prop} {run run' : Run ν φ σ} {e : PathEdge ν φ} (hacross : KeptAcross p I)

include hacross

/-- Returning to a caller keeps what the flow functions across procedures keep. -/
theorem Returns.keeps_store {exit r : ν} {exitFact : φ} {caller : Incoming ν φ}
    (h : Returns p exit exitFact r caller run run') (hrun : I run.store) : I run'.store := by
  rw [h.applies.store]
  exact hacross _ _ _ (by simp) hrun

/-- Entering a procedure keeps it, also while end summaries are applied. -/
theorem Enters.keeps_store {caller : Incoming ν φ} (h : Enters p g caller run run')
    (hrun : I run.store) : I run'.store := by
  have hregister : I (run.register caller).store := by simpa [register] using hrun
  unfold Enters at h
  split at h
  · exact h ▸ hregister
  · exact h.preserves (I := fun r => I r.store)
      (fun s _ r r' hr hreturns => Returns.keeps_store hacross hreturns hr) hregister

/-- Following a link keeps it, if the flow functions inside the procedure do. -/
theorem FollowsLink.keeps_store {link : Link ν} (hwithin : KeptWithin p g I e)
    (hlink : (e.node, link) ∈ g.links) (h : FollowsLink p g e link run run')
    (hrun : I run.store) : I run'.store := by
  cases link with
  | normal m =>
    rw [(Follows.applies h).store]
    exact hwithin m hlink _ hrun
  | callToReturn r =>
    rw [(Follows.applies h).store]
    exact hacross _ _ _ (by simp) hrun
  | call entry =>
    refine VisitsAll.preserves (I := fun r => I r.store) h
      (fun d _ r r' hr henters => henters.keeps_store hacross hr) ?_
    exact hacross _ _ _ (by simp) hrun
  | ret r c =>
    obtain rfl : run' = run := h
    exact hrun

/-- Leaving a procedure by a link keeps it. -/
theorem LeavesBy.keeps_store {caller : Incoming ν φ} {link : Link ν}
    (h : LeavesBy p e caller link run run') (hrun : I run.store) : I run'.store := by
  cases link with
  | ret r site =>
    simp only [LeavesBy] at h
    split at h
    · exact Returns.keeps_store hacross h hrun
    · exact h ▸ hrun
  | _ =>
    obtain rfl : run' = run := h
    exact hrun

/-- Following a path edge to an exit keeps it for all callers. -/
theorem FollowsExit.keeps_store (h : FollowsExit p g e run run') (hrun : I run.store) :
    I run'.store := by
  unfold FollowsExit at h
  split at h
  · exact h ▸ hrun
  · refine h.preserves (I := fun r => I r.store) (fun caller _ r r' hr hvisits => ?_) hrun
    exact hvisits.preserves (I := fun r => I r.store)
      (fun link _ s s' hs hleaves => hleaves.keeps_store hacross hs) hr

/-- What holds when the links of a path edge have been followed still holds when taint has left the
procedure by it. -/
theorem FollowsEdge.store_of_links (h : FollowsEdge p g e run run')
    (hlinks : ∀ mid, Visits (FollowsLink p g e) (g.linksFrom e.node) run mid → I mid.store) :
    I run'.store := by
  obtain ⟨mid, hvisits, hexit⟩ := h
  split at hexit
  · exact hexit.keeps_store hacross (hlinks mid hvisits)
  · exact hexit ▸ hlinks mid hvisits

/-- What the flow functions of its links keep, following a path edge keeps. -/
theorem FollowsEdge.keeps_store (hwithin : KeptWithin p g I e) (h : FollowsEdge p g e run run')
    (hrun : I run.store) : I run'.store := by
  refine h.store_of_links hacross fun mid hvisits => ?_
  refine hvisits.preserves (I := fun r => I r.store) (fun link hmem s s' hs hfollows => ?_) hrun
  exact hfollows.keeps_store hacross hwithin (Supergraph.mem_linksFrom.mp hmem) hs

/-- What the flow function of a link brings about, following the path edge brings about, if the
others keep it. -/
theorem FollowsEdge.establishes_store (hwithin : KeptWithin p g I e) {m : ν}
    (hlink : (e.node, .normal m) ∈ g.links) (hflow : ∀ s, I (p.flow (.normal e.node m) e.fact s).2)
    (h : FollowsEdge p g e run run') : I run'.store := by
  refine h.store_of_links hacross fun mid hvisits => ?_
  refine hvisits.establishes (I := fun _ => True) (Q := fun link r => link = .normal m → I r.store)
    ?_ ?_ trivial (.normal m) (Supergraph.mem_linksFrom.mpr hlink) rfl
  · rintro link - r r' - hfollows
    refine ⟨trivial, ?_⟩
    rintro rfl
    rw [(Follows.applies hfollows).store]
    exact hflow _
  · intro link hmem link' _ r r' _ hfollows hold heq
    exact hfollows.keeps_store hacross hwithin (Supergraph.mem_linksFrom.mp hmem) (hold heq)

end Steps

section Runs

variable {I : σ → Prop} {store : σ} {done : List (PathEdge ν φ)} {run : Run ν φ σ}

/-- What holds of the store at the start and is kept while path edges are followed holds of the
store of the run. -/
theorem Scheduled.keeps_store (h : Scheduled p g store done run) (hacross : KeptAcross p I)
    (hwithin : ∀ e ∈ done, KeptWithin p g I e) (hstart : I store) : I run.store := by
  induction h with
  | start =>
    refine (visits_start p store).preserves (I := fun r => I r.store) ?_ hstart
    rintro seed - r _ hr rfl
    simpa using hr
  | follow _ _ _ hfollows ih =>
    rw [List.forall_mem_cons] at hwithin
    exact hfollows.keeps_store hacross hwithin.1 (ih hwithin.2)

/-- What a link of a path edge brings about, and every flow function keeps, holds of the store of a
run that has followed the path edge. -/
theorem Scheduled.establishes_store (h : Scheduled p g store done run)
    (hkeep : ∀ t d s, I s → I (p.flow t d s).2) {e : PathEdge ν φ} (he : e ∈ done) {m : ν}
    (hlink : (e.node, .normal m) ∈ g.links)
    (hflow : ∀ s, I (p.flow (.normal e.node m) e.fact s).2) : I run.store := by
  have hacross : KeptAcross p I := fun t d s _ => hkeep t d s
  have hwithin : ∀ e, KeptWithin p g I e := fun e m _ s => hkeep _ _ s
  induction h with
  | start => simp at he
  | follow _ _ _ hfollows ih =>
    obtain rfl | he := List.mem_cons.mp he
    · exact hfollows.establishes_store hacross (hwithin _) hlink hflow
    · exact hfollows.keeps_store hacross (hwithin _) (ih he)

end Runs

end TaintTrail.Run

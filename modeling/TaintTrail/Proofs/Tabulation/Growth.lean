import TaintTrail.Proofs.Tabulation.Schedule

/-!
# What following path edges does to the tables

Following a path edge only adds to the tables: path edges are appended to those found before, each
once, and to those that wait, their facts are noted, and no entry of another table is lost. For the
application of one flow function this file says exactly what is added. In a run in any order, those
that wait are the path edges that were found and not yet followed. It follows that `Run.solve` is
one of these runs: it takes up the path edges in the order in which they wait.
-/

namespace TaintTrail.Run

variable {ν φ σ : Type}

/-- The facts that are noted before nodes are those of the path edges. -/
def NotesFacts (run : Run ν φ σ) : Prop :=
  ∀ n d, (n, d) ∈ run.facts ↔ ∃ source, ⟨source, n, d⟩ ∈ run.edges

/-- A run goes on from another: the tables have grown, and no path edge was followed to its end in
between. -/
structure Continues (run run' : Run ν φ σ) : Prop where
  /-- New path edges come last, among all of them and among those that wait. -/
  grows : ∃ new, run'.edges.toList = run.edges.toList ++ new ∧ run'.waiting = run.waiting ++ new
  nodup : run.edges.toList.Nodup → run'.edges.toList.Nodup
  notesFacts : run.NotesFacts → run'.NotesFacts
  incoming : ∀ c ∈ run.incoming, c ∈ run'.incoming
  endSummaries : ∀ s ∈ run.endSummaries, s ∈ run'.endSummaries
  summaries : ∀ s ∈ run.summaries, s ∈ run'.summaries
  followed : run'.followed = run.followed

namespace Continues

variable {run run' run'' : Run ν φ σ}

/-- A run goes on from another if path edges and facts are as before and nothing else is lost. -/
theorem of_edges_eq (hedges : run'.edges = run.edges) (hwaiting : run'.waiting = run.waiting)
    (hfacts : run'.facts = run.facts) (hincoming : ∀ c ∈ run.incoming, c ∈ run'.incoming)
    (hends : ∀ s ∈ run.endSummaries, s ∈ run'.endSummaries)
    (hsummaries : ∀ s ∈ run.summaries, s ∈ run'.summaries)
    (hfollowed : run'.followed = run.followed) : Continues run run' where
  grows := ⟨[], by simp [hedges, hwaiting]⟩
  nodup hnodup := by rwa [hedges]
  notesFacts hnotes := by rwa [NotesFacts, hfacts, hedges]
  incoming := hincoming
  endSummaries := hends
  summaries := hsummaries
  followed := hfollowed

/-- A run goes on from itself. -/
theorem refl (run : Run ν φ σ) : Continues run run :=
  of_edges_eq rfl rfl rfl (fun _ h => h) (fun _ h => h) (fun _ h => h) rfl

/-- Path edges are appended to those found before. -/
theorem edges (h : Continues run run') : run.edges.toList <+: run'.edges.toList := by
  obtain ⟨new, hedges, -⟩ := h.grows
  exact ⟨new, hedges.symm⟩

/-- Going on is transitive. -/
theorem trans (h : Continues run run') (h' : Continues run' run'') : Continues run run'' where
  grows := by
    obtain ⟨new, hedges, hwaiting⟩ := h.grows
    obtain ⟨newer, hedges', hwaiting'⟩ := h'.grows
    exact ⟨new ++ newer, by rw [hedges', hedges, List.append_assoc],
      by rw [hwaiting', hwaiting, List.append_assoc]⟩
  nodup hnodup := h'.nodup (h.nodup hnodup)
  notesFacts hnotes := h'.notesFacts (h.notesFacts hnotes)
  incoming c hc := h'.incoming c (h.incoming c hc)
  endSummaries s hs := h'.endSummaries s (h.endSummaries s hs)
  summaries s hs := h'.summaries s (h.summaries s hs)
  followed := h'.followed.trans h.followed

/-- No path edge is lost when a run goes on. -/
theorem mem_edges (h : Continues run run') {e : PathEdge ν φ} (he : e ∈ run.edges) :
    e ∈ run'.edges :=
  Array.mem_def.mpr (h.edges.subset (Array.mem_def.mp he))

/-- Visits that go on, one after the other, go on as a whole. -/
theorem of_visits {α : Type} {R : α → Run ν φ σ → Run ν φ σ → Prop} {as : List α}
    (hvisits : Visits R as run run') (hstep : ∀ a r r', R a r r' → Continues r r') :
    Continues run run' :=
  hvisits.preserves (I := Continues run) (fun a _ _ _ hs ha => hs.trans (hstep a _ _ ha)) (refl run)

/-- Visits that go on, in any order, go on as a whole. -/
theorem of_visitsAll {α : Type} {R : α → Run ν φ σ → Run ν φ σ → Prop} {as : List α}
    (hvisits : VisitsAll R as run run') (hstep : ∀ a r r', R a r r' → Continues r r') :
    Continues run run' := by
  obtain ⟨bs, -, hvisits⟩ := hvisits
  exact of_visits hvisits hstep

end Continues

variable [DecidableEq ν] [DecidableEq φ]

section Propagate

variable (run : Run ν φ σ) (source : φ) (node : ν) (fact : φ)

/-- Finding a path edge adds no caller. -/
@[simp] theorem propagate_incoming :
    (run.propagate source node fact).incoming = run.incoming := by
  unfold propagate; split <;> rfl

/-- Finding a path edge adds no end summary. -/
@[simp] theorem propagate_endSummaries :
    (run.propagate source node fact).endSummaries = run.endSummaries := by
  unfold propagate; split <;> rfl

/-- Finding a path edge adds no summary. -/
@[simp] theorem propagate_summaries :
    (run.propagate source node fact).summaries = run.summaries := by
  unfold propagate; split <;> rfl

/-- Finding a path edge leaves the store alone. -/
@[simp] theorem propagate_store : (run.propagate source node fact).store = run.store := by
  unfold propagate; split <;> rfl

/-- Finding a path edge is not following it. -/
@[simp] theorem propagate_followed : (run.propagate source node fact).followed = run.followed := by
  unfold propagate; split <;> rfl

/-- Recording a path edge adds that one and no other. -/
@[simp] theorem mem_propagate_edges {e : PathEdge ν φ} :
    e ∈ (run.propagate source node fact).edges ↔ e ∈ run.edges ∨ e = ⟨source, node, fact⟩ := by
  unfold propagate
  split
  · next hmem => exact ⟨Or.inl, fun h => h.elim id fun heq => heq ▸ hmem⟩
  · simp [Array.mem_push]

/-- Recording a path edge notes its fact. -/
theorem NotesFacts.propagate {run : Run ν φ σ} (h : run.NotesFacts) (source : φ) (node : ν)
    (fact : φ) : (run.propagate source node fact).NotesFacts := by
  intro n d
  simp only [mem_propagate_edges, exists_or, PathEdge.mk.injEq, ← h n d]
  unfold Run.propagate
  split
  · next hmem =>
    -- The path edge was there, so its fact has been noted before.
    refine ⟨.inl, fun hfact => hfact.elim id ?_⟩
    rintro ⟨_, rfl, rfl, rfl⟩
    exact (h n d).mpr ⟨_, hmem⟩
  · simp [or_comm]

/-- A path edge is recorded at the end, and only if it is new. -/
theorem continues_propagate : Continues run (run.propagate source node fact) := by
  refine ⟨?_, ?_, fun hnotes => hnotes.propagate source node fact, by simp, by simp, by simp,
    by simp⟩
  · unfold propagate
    split
    · exact ⟨[], by simp⟩
    · exact ⟨[⟨source, node, fact⟩], by simp⟩
  · intro hnodup
    unfold propagate
    split
    · exact hnodup
    · next hnew =>
      rw [Array.toList_push]
      refine List.nodup_append.mpr ⟨hnodup, by simp, ?_⟩
      intro a ha b hb heq
      rw [List.mem_singleton.mp hb] at heq
      exact hnew (Array.mem_def.mpr (heq ▸ ha))

end Propagate

/-- What applying a flow function to a fact adds to a run: a path edge, and perhaps summaries, for
each fact that comes out. -/
structure Applies (p : Problem ν φ σ) (t : Transfer ν) (fact : φ) (edge : φ → PathEdge ν φ)
    (summaries : φ → List (Summary ν φ)) (run run' : Run ν φ σ) : Prop where
  continues : Continues run run'
  mem_edges : ∀ e, e ∈ run'.edges ↔
    e ∈ run.edges ∨ ∃ d ∈ (p.flow t fact run.store).1, e = edge d
  mem_summaries : ∀ s, s ∈ run'.summaries ↔
    s ∈ run.summaries ∨ ∃ d ∈ (p.flow t fact run.store).1, s ∈ summaries d
  incoming : run'.incoming = run.incoming
  endSummaries : run'.endSummaries = run.endSummaries
  store : run'.store = (p.flow t fact run.store).2

omit [DecidableEq ν] in
/-- Visiting the facts that come out of a flow function, each of which adds its path edge and its
summaries, is an application of the flow function. -/
theorem applies_of_visitsAll {p : Problem ν φ σ} {t : Transfer ν} {fact : φ}
    {edge : φ → PathEdge ν φ} {summaries : φ → List (Summary ν φ)} {add : Run ν φ σ → φ → Run ν φ σ}
    {run run' : Run ν φ σ}
    (hvisits : VisitsAll (fun d r r' => r' = add r d) (transfer p t fact run).1
      (transfer p t fact run).2 run')
    (hcontinues : ∀ r d, Continues r (add r d))
    (hedges : ∀ r d e, e ∈ (add r d).edges ↔ e ∈ r.edges ∨ e = edge d)
    (hsummaries : ∀ r d s, s ∈ (add r d).summaries ↔ s ∈ r.summaries ∨ s ∈ summaries d)
    (hframe : ∀ r d, (add r d).incoming = r.incoming ∧ (add r d).endSummaries = r.endSummaries ∧
      (add r d).store = r.store) :
    Applies p t fact edge summaries run run' := by
  have hmem : ∀ d, d ∈ (transfer p t fact run).1 ↔ d ∈ (p.flow t fact run.store).1 := by
    simp [transfer]
  -- What comes in comes from the run before or from a fact that was visited.
  have honly : (∀ e ∈ run'.edges, e ∈ run.edges ∨ ∃ d ∈ (p.flow t fact run.store).1, e = edge d) ∧
      (∀ s ∈ run'.summaries,
        s ∈ run.summaries ∨ ∃ d ∈ (p.flow t fact run.store).1, s ∈ summaries d) ∧
      run'.incoming = run.incoming ∧ run'.endSummaries = run.endSummaries ∧
      run'.store = (p.flow t fact run.store).2 := by
    refine hvisits.preserves (I := fun r =>
      (∀ e ∈ r.edges, e ∈ run.edges ∨ ∃ d ∈ (p.flow t fact run.store).1, e = edge d) ∧
      (∀ s ∈ r.summaries, s ∈ run.summaries ∨ ∃ d ∈ (p.flow t fact run.store).1, s ∈ summaries d) ∧
      r.incoming = run.incoming ∧ r.endSummaries = run.endSummaries ∧
      r.store = (p.flow t fact run.store).2) ?_ ?_
    · rintro d hd r _ ⟨he, hs, hin, hend, hstore⟩ rfl
      obtain ⟨hin', hend', hstore'⟩ := hframe r d
      refine ⟨fun e h => ?_, fun s h => ?_, hin'.trans hin, hend'.trans hend,
        hstore'.trans hstore⟩
      · rcases (hedges r d e).mp h with h | rfl
        · exact he e h
        · exact Or.inr ⟨d, (hmem d).mp hd, rfl⟩
      · rcases (hsummaries r d s).mp h with h | h
        · exact hs s h
        · exact Or.inr ⟨d, (hmem d).mp hd, h⟩
    · exact ⟨fun e h => Or.inl h, fun s h => Or.inl h, rfl, rfl, rfl⟩
  -- Every fact that comes out was visited, and nothing is lost after that.
  have hall : ∀ d ∈ (transfer p t fact run).1,
      edge d ∈ run'.edges ∧ ∀ s ∈ summaries d, s ∈ run'.summaries := by
    refine hvisits.establishes (I := fun _ => True)
      (Q := fun d r => edge d ∈ r.edges ∧ ∀ s ∈ summaries d, s ∈ r.summaries) ?_ ?_ trivial
    · rintro d _ r _ - rfl
      exact ⟨trivial, (hedges r d _).mpr (Or.inr rfl),
        fun s h => (hsummaries r d s).mpr (Or.inr h)⟩
    · rintro d _ d' _ r _ - rfl ⟨he, hs⟩
      exact ⟨(hedges r d _).mpr (Or.inl he), fun s h => (hsummaries r d s).mpr (Or.inl (hs s h))⟩
  have hcont : Continues run run' := by
    have hstart : Continues run (transfer p t fact run).2 :=
      .of_edges_eq rfl rfl rfl (fun _ h => h) (fun _ h => h) (fun _ h => h) rfl
    refine hstart.trans (Continues.of_visitsAll hvisits ?_)
    rintro d r _ rfl
    exact hcontinues r d
  obtain ⟨he, hs, hin, hend, hstore⟩ := honly
  refine ⟨hcont, fun e => ⟨he e, ?_⟩, fun s => ⟨hs s, ?_⟩, hin, hend, hstore⟩
  · rintro (h | ⟨d, hd, rfl⟩)
    · exact hcont.mem_edges h
    · exact (hall d ((hmem d).mpr hd)).1
  · rintro (h | ⟨d, hd, h⟩)
    · exact hcont.summaries s h
    · exact (hall d ((hmem d).mpr hd)).2 s h

/-- Going to another node of the procedure adds a path edge for each fact that comes out. -/
theorem Follows.applies {p : Problem ν φ σ} {t : Transfer ν} {source : φ} {target : ν} {fact : φ}
    {run run' : Run ν φ σ} (h : Follows p t source target fact run run') :
    Applies p t fact (fun d => ⟨source, target, d⟩) (fun _ => []) run run' :=
  applies_of_visitsAll h (fun r d => continues_propagate r source target d)
    (fun r d e => mem_propagate_edges r source target d) (by simp) (by simp)

/-- Returning to a caller adds a path edge and a summary for each fact that comes out. -/
theorem Returns.applies {p : Problem ν φ σ} {exit : ν} {exitFact : φ} {returnSite : ν}
    {caller : Incoming ν φ} {run run' : Run ν φ σ}
    (h : Returns p exit exitFact returnSite caller run run') :
    Applies p (.ret exit returnSite caller.site) exitFact
      (fun d => ⟨caller.source, returnSite, d⟩)
      (fun d => [⟨caller.site, caller.fact, d⟩]) run run' := by
  refine applies_of_visitsAll h (fun r d => ?_) (by simp [bringBack]) (fun r d s => ?_)
    (by simp [bringBack])
  · refine Continues.trans ?_ (continues_propagate _ _ _ _)
    exact .of_edges_eq rfl rfl rfl (fun _ h => h) (fun _ h => h)
      (fun _ h => List.mem_insert_of_mem h) rfl
  · simp only [bringBack, propagate_summaries, List.mem_insert_iff, List.mem_singleton]
    exact or_comm

/-- Entering a callee only adds to the tables. -/
theorem continues_register (run : Run ν φ σ) (caller : Incoming ν φ) :
    Continues run (run.register caller) := by
  refine (continues_propagate run caller.entryFact caller.entry caller.entryFact).trans ?_
  exact .of_edges_eq rfl rfl rfl (fun _ h => List.mem_insert_of_mem h) (fun _ h => h)
    (fun _ h => h) rfl

/-- Noting a way through a procedure only adds to the tables. -/
theorem continues_conclude (run : Run ν φ σ) (entry : ν) (e : PathEdge ν φ) :
    Continues run (run.conclude entry e) :=
  .of_edges_eq rfl rfl rfl (fun _ h => h) (fun _ h => List.mem_insert_of_mem h) (fun _ h => h) rfl

section Continues

variable {p : Problem ν φ σ} {g : Supergraph ν} {e : PathEdge ν φ} {run run' : Run ν φ σ}

/-- Entering a procedure adds to the tables. -/
theorem Enters.continues {caller : Incoming ν φ} (h : Enters p g caller run run') :
    Continues run run' := by
  unfold Enters at h
  split at h
  · rw [h]
    exact continues_register run caller
  · refine (continues_register run caller).trans (.of_visitsAll h fun s r r' hreturns => ?_)
    have hcount : Continues r { r with reuses := r.reuses + 1 } :=
      .of_edges_eq rfl rfl rfl (fun _ h => h) (fun _ h => h) (fun _ h => h) rfl
    exact hcount.trans hreturns.applies.continues

/-- Following a link adds to the tables, one case for each kind of link. -/
theorem FollowsLink.continues {link : Link ν} (h : FollowsLink p g e link run run') :
    Continues run run' := by
  cases link with
  | normal target => exact (Follows.applies h).continues
  | callToReturn returnSite => exact (Follows.applies h).continues
  | call entry =>
    have hstart : Continues run (transfer p (.call e.node entry) e.fact run).2 :=
      .of_edges_eq rfl rfl rfl (fun _ h => h) (fun _ h => h) (fun _ h => h) rfl
    exact hstart.trans (.of_visitsAll h fun _ _ _ henters => henters.continues)
  | ret returnSite site =>
    obtain rfl : run' = run := h
    exact .refl _

/-- Leaving a procedure by a link adds to the tables. -/
theorem LeavesBy.continues {caller : Incoming ν φ} {link : Link ν}
    (h : LeavesBy p e caller link run run') : Continues run run' := by
  cases link with
  | ret returnSite site =>
    simp only [LeavesBy] at h
    split at h
    · exact h.applies.continues
    · exact h ▸ .refl _
  | _ =>
    obtain rfl : run' = run := h
    exact .refl _

/-- Following a path edge to an exit adds to the tables. -/
theorem FollowsExit.continues (h : FollowsExit p g e run run') : Continues run run' := by
  unfold FollowsExit at h
  split at h
  · exact h ▸ .refl _
  · exact (continues_conclude run _ e).trans (.of_visitsAll h fun _ _ _ hvisits =>
      .of_visits hvisits fun _ _ _ hleaves => hleaves.continues)

/-- Following a path edge only adds to the tables. -/
theorem FollowsEdge.continues (h : FollowsEdge p g e run run') : Continues run run' := by
  obtain ⟨mid, hlinks, hexit⟩ := h
  refine (Continues.of_visits hlinks fun _ _ _ hlink => hlink.continues).trans ?_
  split at hexit
  · exact hexit.continues
  · exact hexit ▸ .refl _

end Continues

/-- At the start the seeds are visited. -/
theorem visits_start (p : Problem ν φ σ) (store : σ) :
    Visits (fun seed r r' => r' = r.propagate p.zero seed.1 seed.2) p.seeds { store }
      (start p store) := by
  unfold start
  refine visits_foldl (fun _ _ => ?_) p.seeds _
  rfl

/-- The path edges of the seeds are found at the start, each once. -/
theorem continues_start (p : Problem ν φ σ) (store : σ) : Continues { store } (start p store) :=
  .of_visits (visits_start p store) fun _ r _ h => h ▸ continues_propagate r _ _ _

namespace Scheduled

variable {p : Problem ν φ σ} {g : Supergraph ν} {store : σ} {done : List (PathEdge ν φ)}
  {run : Run ν φ σ}

/-- A path edge is recorded only once. -/
theorem nodup (h : Scheduled p g store done run) : run.edges.toList.Nodup := by
  induction h with
  | start => exact (continues_start p store).nodup (by simp)
  | follow _ _ _ hfollows ih => exact hfollows.continues.nodup ih

/-- The path edges of the seeds are never lost. -/
theorem mem_edges_of_start (h : Scheduled p g store done run) {e : PathEdge ν φ}
    (he : e ∈ (Run.start p store).edges) : e ∈ run.edges := by
  induction h with
  | start => exact he
  | follow _ _ _ hfollows ih => exact hfollows.continues.mem_edges ih

/-- A run in any order has noted the facts of its path edges. -/
theorem notesFacts (h : Scheduled p g store done run) : run.NotesFacts := by
  induction h with
  | start => exact (continues_start p store).notesFacts fun n d => by simp
  | follow _ _ _ hfollows ih => exact hfollows.continues.notesFacts ih

/-- Before a node stand the facts of the path edges that end there. -/
theorem mem_factsAt (h : Scheduled p g store done run) {n : ν} {d : φ} :
    d ∈ run.factsAt n ↔ ∃ source, ⟨source, n, d⟩ ∈ run.edges := by
  rw [← h.notesFacts n d]
  simp [factsAt]

/-- Every path edge has been followed or waits to be followed, and none of them twice. -/
theorem edges_perm (h : Scheduled p g store done run) :
    run.edges.toList.Perm (done ++ run.waiting) := by
  induction h with
  | start =>
    obtain ⟨new, hedges, hwaiting⟩ := (continues_start p store).grows
    simp [hedges, hwaiting]
  | @follow done run run' e _ he hnew hfollows ih =>
    obtain ⟨new, hedges, hwaiting⟩ := hfollows.continues.grows
    have hwaits : e ∈ run.waiting :=
      (List.mem_append.mp (ih.mem_iff.mp (Array.mem_def.mp he))).resolve_left hnew
    calc run'.edges.toList = run.edges.toList ++ new := hedges
      _ |>.Perm (done ++ run.waiting ++ new) := ih.append_right new
      _ |>.Perm (done ++ e :: run.waiting.erase e ++ new) :=
        ((List.perm_cons_erase hwaits).append_left done).append_right new
      _ |>.Perm (e :: done ++ run.waiting.erase e ++ new) := List.perm_middle.append_right new
      _ = e :: done ++ run'.waiting := by rw [hwaiting, List.append_assoc]; rfl

/-- No path edge was followed twice, none waits twice, and none that was followed waits. -/
theorem nodup_append (h : Scheduled p g store done run) : (done ++ run.waiting).Nodup :=
  h.edges_perm.nodup_iff.mp h.nodup

/-- Those that wait are the path edges that were found and not yet followed. -/
theorem mem_waiting_iff (h : Scheduled p g store done run) {e : PathEdge ν φ} :
    e ∈ run.waiting ↔ e ∈ run.edges ∧ e ∉ done := by
  rw [← Array.mem_toList_iff, h.edges_perm.mem_iff, List.mem_append]
  constructor
  · intro he
    exact ⟨.inr he, fun hdone => (List.nodup_append.mp h.nodup_append).2.2 e hdone e he rfl⟩
  · rintro ⟨hdone | he, hnew⟩
    · exact absurd hdone hnew
    · exact he

/-- What goes on from what can come about can come about. -/
theorem resumes {done' : List (PathEdge ν φ)} {run' : Run ν φ σ}
    (h : Scheduled p g store done run) (hresumes : Resumes p g done run done' run') :
    Scheduled p g store done' run' := by
  induction hresumes with
  | refl => exact h
  | follow _ he hnew hfollows ih => exact .follow ih he hnew hfollows

end Scheduled

/-- Going on twice is going on. -/
theorem Resumes.trans {p : Problem ν φ σ} {g : Supergraph ν} {run run' run'' : Run ν φ σ}
    {done done' done'' : List (PathEdge ν φ)} (h : Resumes p g done run done' run')
    (h' : Resumes p g done' run' done'' run'') : Resumes p g done run done'' run'' := by
  induction h' with
  | refl => exact h
  | follow _ he hnew hfollows ih => exact .follow ih he hnew hfollows

section Solve

variable (p : Problem ν φ σ) (g : Supergraph ν)

/-- The solver returns to a caller in one of the possible orders. -/
theorem returnTo_returns (exit : ν) (exitFact : φ) (returnSite : ν) (caller : Incoming ν φ)
    (run : Run ν φ σ) :
    Returns p exit exitFact returnSite caller run
      (returnTo p exit exitFact returnSite caller run) := by
  unfold Returns returnTo
  refine visitsAll_foldl (fun _ _ => ?_) _ _
  rfl

/-- The solver follows a path edge along a transfer in one of the possible orders. -/
theorem follow_follows (t : Transfer ν) (source : φ) (target : ν) (fact : φ) (run : Run ν φ σ) :
    Follows p t source target fact run (follow p t source target fact run) := by
  unfold Follows follow
  refine visitsAll_foldl (fun _ _ => ?_) _ _
  rfl

/-- The solver enters a procedure in one of the possible orders. -/
theorem enter_enters (run : Run ν φ σ) (caller : Incoming ν φ) :
    Enters p g caller run (enter p g run caller) := by
  unfold Enters enter
  cases g.returnSite? caller.site with
  | none => rfl
  | some returnSite =>
    refine visitsAll_foldl (fun s _ => ?_) _ _
    exact returnTo_returns p s.exit s.fact returnSite caller _

/-- The solver follows a link in one of the possible orders. -/
theorem followLink_followsLink (e : PathEdge ν φ) (run : Run ν φ σ) (link : Link ν) :
    FollowsLink p g e link run (followLink p g e run link) := by
  cases link with
  | normal target => exact follow_follows p _ _ _ _ _
  | callToReturn returnSite => exact follow_follows p _ _ _ _ _
  | call entry => exact visitsAll_foldl (fun d r => enter_enters p g r _) _ _
  | ret returnSite site => rfl

/-- The solver leaves a procedure by the links in their own order. -/
theorem leave_leaves (e : PathEdge ν φ) (run : Run ν φ σ) (caller : Incoming ν φ) :
    Visits (LeavesBy p e caller) (g.linksFrom e.node) run (leave p g e run caller) := by
  refine visits_foldl (fun link r => ?_) _ _
  cases link with
  | ret returnSite site =>
    simp only [LeavesBy]
    split
    · exact returnTo_returns p e.node e.fact returnSite caller r
    · rfl
  | _ => rfl

/-- The solver follows a path edge in one of the possible orders. -/
theorem followEdge_followsEdge (run : Run ν φ σ) (e : PathEdge ν φ) :
    FollowsEdge p g e run (followEdge p g run e) := by
  refine ⟨(g.linksFrom e.node).foldl (followLink p g e) run,
    visits_foldl (fun link r => followLink_followsLink p g e r link) _ _, ?_⟩
  unfold followEdge
  split
  · unfold FollowsExit followExit
    cases g.entryOf? e.node with
    | none => rfl
    | some entry => exact visitsAll_foldl (fun caller r => leave_leaves p g e r caller) _ _
  · rfl

/-- The path edges that the loop takes up and follows, in order. -/
def visited : Nat → Run ν φ σ → List (PathEdge ν φ)
  | 0, _ => []
  | n + 1, run =>
    match run.waiting with
    | [] => []
    | e :: _ => e :: visited n (followEdge p g (run.takeUp e) e)

variable {p g}

/-- The loop goes on from any run, by the path edges that it takes up. -/
theorem resumes_loop {store : σ} (n : Nat) {done : List (PathEdge ν φ)} {run : Run ν φ σ}
    (h : Scheduled p g store done run) :
    Resumes p g done run ((visited p g n run).reverse ++ done) (loop p g n run) := by
  induction n generalizing done run with
  | zero => exact .refl
  | succ n ih =>
    rw [loop, visited]
    cases hnext : run.waiting with
    | nil => exact .refl
    | cons e rest =>
      obtain ⟨he, hnew⟩ := h.mem_waiting_iff.mp (hnext ▸ List.mem_cons_self)
      have hfollows := followEdge_followsEdge p g (run.takeUp e) e
      have hrest := ih (.follow h he hnew hfollows)
      simp only [List.reverse_cons, List.append_assoc, List.singleton_append]
      exact Resumes.trans (.follow .refl he hnew hfollows) hrest

/-- The runs of the solver are among the runs in any order: they have followed the path edges that
the loop takes up. -/
theorem scheduled_solve (p : Problem ν φ σ) (g : Supergraph ν) (limit : Nat) (store : σ) :
    Scheduled p g store (visited p g limit (start p store)).reverse (solve p g limit store) := by
  have hstart : Scheduled p g store [] (start p store) := .start
  have hscheduled := hstart.resumes (resumes_loop limit hstart)
  rwa [List.append_nil] at hscheduled

omit [DecidableEq ν] [DecidableEq φ] in
/-- A run is complete when nothing waits. -/
theorem isComplete_iff {run : Run ν φ σ} : run.isComplete = true ↔ run.waiting = [] :=
  List.isEmpty_iff

/-- A run that is complete has followed every path edge. -/
theorem Scheduled.finished {store : σ} {done : List (PathEdge ν φ)} {run : Run ν φ σ}
    (h : Scheduled p g store done run) (hcomplete : run.isComplete = true) :
    Finished p g store run := by
  refine ⟨done, h, fun e he => ?_⟩
  have hnone : e ∉ run.waiting := by simp [isComplete_iff.mp hcomplete]
  by_contra hnew
  exact hnone (h.mem_waiting_iff.mpr ⟨he, hnew⟩)

/-- A run of the solver that is complete has followed every path edge. -/
theorem finished_of_isComplete {limit : Nat} {store : σ}
    (hcomplete : (solve p g limit store).isComplete = true) :
    Finished p g store (solve p g limit store) :=
  (scheduled_solve p g limit store).finished hcomplete

end Solve

end TaintTrail.Run

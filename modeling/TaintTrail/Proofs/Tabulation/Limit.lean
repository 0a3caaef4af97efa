import Mathlib.Data.Finset.Card
import TaintTrail.Proofs.Tabulation.Growth

/-!
# Limits

How the runs of the solver under different limits are related: a higher limit goes on where a lower
one stopped, and a run that has followed every path edge is not changed by a higher limit. A run
that records path edges from a finite set only is complete as soon as the limit is the size of that
set.
-/

namespace TaintTrail.Run

variable {ν φ σ : Type} [DecidableEq ν] [DecidableEq φ] {p : Problem ν φ σ} {g : Supergraph ν}
  {store : σ} {run : Run ν φ σ}

section Scheduled

variable {done : List (PathEdge ν φ)}

/-- Path edges are followed once each, and only recorded ones. -/
theorem Scheduled.subperm_edges (h : Scheduled p g store done run) :
    done.Subperm run.edges.toList :=
  (List.sublist_append_left done run.waiting).subperm.trans h.edges_perm.symm.subperm

/-- A run counts the path edges that it has followed. -/
theorem Scheduled.length_eq_followed (h : Scheduled p g store done run) :
    done.length = run.followed := by
  induction h with
  | start => exact (continues_start p store).followed.symm
  | follow _ _ _ hfollows ih => rw [List.length_cons, ih, hfollows.continues.followed, takeUp]

/-- The path edges are those that the run has followed and those that wait. -/
theorem Scheduled.size_eq (h : Scheduled p g store done run) :
    run.edges.size = run.followed + run.waiting.length := by
  rw [Array.size_eq_length_toList, h.edges_perm.length_eq, List.length_append,
    h.length_eq_followed]

/-- A run has followed no more path edges than it has recorded. -/
theorem Scheduled.followed_le (h : Scheduled p g store done run) :
    run.followed ≤ run.edges.size :=
  h.size_eq ▸ Nat.le_add_right _ _

/-- A run is complete when it has followed as many path edges as it has recorded. -/
theorem Scheduled.isComplete_iff (h : Scheduled p g store done run) :
    run.isComplete = true ↔ run.followed = run.edges.size := by
  rw [Run.isComplete_iff, h.size_eq, ← List.length_eq_zero_iff]
  omega

/-- A finished run is complete. -/
theorem Finished.isComplete (h : Finished p g store run) : run.isComplete = true := by
  obtain ⟨done, hscheduled, hall⟩ := h
  rw [Run.isComplete_iff, List.eq_nil_iff_forall_not_mem]
  intro e he
  obtain ⟨hmem, hnew⟩ := hscheduled.mem_waiting_iff.mp he
  exact hnew (hall e hmem)

/-- A finished run has followed as many path edges as it has recorded. -/
theorem Finished.followed_eq (h : Finished p g store run) : run.followed = run.edges.size := by
  have hcomplete := h.isComplete
  obtain ⟨done, hscheduled, -⟩ := h
  exact hscheduled.isComplete_iff.mp hcomplete

end Scheduled

section Loop

/-- There is nothing left to do once no path edge waits. -/
theorem loop_eq_self (h : run.waiting = []) (n : Nat) : loop p g n run = run := by
  cases n with
  | zero => rfl
  | succ n => rw [loop, h]

/-- The work can be done in two parts. -/
theorem loop_add (a b : Nat) (run : Run ν φ σ) :
    loop p g (a + b) run = loop p g b (loop p g a run) := by
  induction a generalizing run with
  | zero => rw [Nat.zero_add, loop]
  | succ a ih =>
    rw [Nat.add_right_comm, loop, loop]
    cases hnext : run.waiting with
    | nil => exact (loop_eq_self hnext b).symm
    | cons e rest => exact ih _

/-- Following path edges appends to those found before and loses no summary. -/
theorem loop_extends (n : Nat) (run : Run ν φ σ) :
    run.edges.toList <+: (loop p g n run).edges.toList ∧
      ∀ s ∈ run.summaries, s ∈ (loop p g n run).summaries := by
  induction n generalizing run with
  | zero => exact ⟨List.prefix_rfl, fun s hs => hs⟩
  | succ n ih =>
    rw [loop]
    split
    · exact ⟨List.prefix_rfl, fun s hs => hs⟩
    · next e _ _ =>
      have hstep := (followEdge_followsEdge p g (run.takeUp e) e).continues
      obtain ⟨hedges, hsummaries⟩ := ih (followEdge p g (run.takeUp e) e)
      exact ⟨hstep.edges.trans hedges, fun s hs => hsummaries s (hstep.summaries s hs)⟩

/-- Path edges are never lost. -/
theorem mem_edges_loop {e : PathEdge ν φ} (he : e ∈ run.edges) (n : Nat) :
    e ∈ (loop p g n run).edges :=
  Array.mem_def.mpr ((loop_extends n run).1.subset (Array.mem_def.mp he))

/-- No more path edges are followed than the limit allows, and as many, unless none is left. -/
theorem followed_loop (n : Nat) (run : Run ν φ σ) :
    (loop p g n run).followed ≤ run.followed + n ∧
      ((loop p g n run).isComplete = true ∨ (loop p g n run).followed = run.followed + n) := by
  induction n generalizing run with
  | zero => exact ⟨Nat.le_refl _, .inr rfl⟩
  | succ n ih =>
    rw [loop]
    split
    · next hnext => exact ⟨Nat.le_add_right _ _, .inl (isComplete_iff.mpr hnext)⟩
    · next e _ _ =>
      have hfollowed : (followEdge p g (run.takeUp e) e).followed = run.followed + 1 :=
        (followEdge_followsEdge p g (run.takeUp e) e).continues.followed
      obtain ⟨hle, hlimit⟩ := ih (followEdge p g (run.takeUp e) e)
      exact ⟨by omega, hlimit.imp_right fun h => by omega⟩

end Loop

section Solve

/-- In the beginning no path edge was followed. -/
theorem followed_start (p : Problem ν φ σ) (store : σ) : (start p store).followed = 0 :=
  (continues_start p store).followed

variable (p g store) in
/-- A run that is not complete has reached its limit. -/
theorem isComplete_solve_or (limit : Nat) :
    (solve p g limit store).isComplete = true ∨ (solve p g limit store).followed = limit := by
  simpa [solve, followed_start] using (followed_loop limit (start p store)).2

/-- A higher limit goes on where a lower one stopped. -/
theorem solve_eq_loop {k k' : Nat} (h : k ≤ k') :
    solve p g k' store = loop p g (k' - k) (solve p g k store) := by
  rw [solve, solve, ← loop_add, Nat.add_sub_cancel' h]

/-- What is recorded under a limit is recorded under a higher one. -/
theorem mem_edges_solve_mono {k k' : Nat} (h : k ≤ k') {e : PathEdge ν φ}
    (he : e ∈ (solve p g k store).edges) : e ∈ (solve p g k' store).edges := by
  rw [solve_eq_loop h]
  exact mem_edges_loop he _

/-- A higher limit does not change a complete run. -/
theorem solve_eq_of_isComplete {k k' : Nat} (h : k ≤ k')
    (hcomplete : (solve p g k store).isComplete = true) :
    solve p g k' store = solve p g k store := by
  rw [solve_eq_loop h, loop_eq_self (isComplete_iff.mp hcomplete)]

/-- What any run records, a complete one does. -/
theorem mem_edges_of_isComplete {k k' : Nat} (hcomplete : (solve p g k store).isComplete = true)
    {e : PathEdge ν φ} (he : e ∈ (solve p g k' store).edges) : e ∈ (solve p g k store).edges := by
  obtain h | h := Nat.le_total k k'
  · rwa [solve_eq_of_isComplete h hcomplete] at he
  · exact mem_edges_solve_mono h he

/-- A run that records no more path edges than it may follow is complete. -/
theorem isComplete_solve_of_size_le {limit : Nat}
    (h : (solve p g limit store).edges.size ≤ limit) :
    (solve p g limit store).isComplete = true := by
  obtain hcomplete | hlimit := isComplete_solve_or p g store limit
  · exact hcomplete
  · have hscheduled := scheduled_solve p g limit store
    have hle := hscheduled.followed_le
    exact hscheduled.isComplete_iff.mpr (by omega)

/-- A run that records path edges from a finite set records no more than there are in the set. -/
theorem Scheduled.size_edges_le_card {done : List (PathEdge ν φ)}
    (h : Scheduled p g store done run) {S : Finset (PathEdge ν φ)} (hS : ∀ e ∈ run.edges, e ∈ S) :
    run.edges.size ≤ S.card := by
  rw [Array.size_eq_length_toList, ← List.toFinset_card_of_nodup h.nodup]
  exact Finset.card_le_card fun e he => hS e (by simpa using he)

/-- A run that records path edges from a finite set is complete at the latest when it has followed
as many as there are in the set. -/
theorem isComplete_solve_card (S : Finset (PathEdge ν φ))
    (h : ∀ e ∈ (solve p g S.card store).edges, e ∈ S) :
    (solve p g S.card store).isComplete = true :=
  isComplete_solve_of_size_le ((scheduled_solve p g S.card store).size_edges_le_card h)

/-- A run that was completed under some limit is the run under every limit that lets it follow as
many path edges as it has. -/
theorem solve_eq_of_followed_le {k k' : Nat} (hcomplete : (solve p g k store).isComplete = true)
    (h : (solve p g k store).followed ≤ k') : solve p g k' store = solve p g k store := by
  obtain hle | hle := Nat.le_total k k'
  · exact solve_eq_of_isComplete hle hcomplete
  · have hsize := (finished_of_isComplete hcomplete).followed_eq
    have hgrows : (solve p g k' store).edges.size ≤ (solve p g k store).edges.size := by
      rw [solve_eq_loop hle]
      simpa using (loop_extends (k - k') (solve p g k' store)).1.length_le
    have hcomplete' : (solve p g k' store).isComplete = true :=
      isComplete_solve_of_size_le (by omega)
    exact (solve_eq_of_isComplete hle hcomplete').symm

end Solve

end TaintTrail.Run

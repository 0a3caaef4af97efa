import Mathlib.Data.List.Flatten
import Mathlib.Logic.Relation
import TaintTrail.Proofs.Supergraph.WellShaped
import TaintTrail.Proofs.Tabulation.Entailment
import TaintTrail.Proofs.Tabulation.Growth

/-!
# Runs step by step

Following a path edge applies several flow functions and records what comes out of them. Here it is
taken apart. What is still to be done is an agenda of tasks, and a step performs the first of them:
it applies one flow function, or records one fact. So a run can be looked at between any two of
these, and of each fact that a step records it is known which flow function it came from. The runs
in any order are the moments of this machine at which the agenda is empty.
-/

namespace TaintTrail

/-- Something that is still to be done before the next path edge is followed. -/
inductive Task (ν φ : Type) where
  /-- A link of the node of a path edge has to be followed. -/
  | link (e : PathEdge ν φ) (link : Link ν)
  /-- The procedure of a path edge has to be left by it. -/
  | leave (e : PathEdge ν φ)
  /-- An end summary has to be applied to a caller that came later. -/
  | reuse (returnSite : ν) (caller : Incoming ν φ) (s : EndSummary ν φ)
  /-- A fact at an exit has to be given back to a caller. -/
  | giveBack (exit : ν) (exitFact : φ) (returnSite : ν) (caller : Incoming ν φ)
  /-- A fact that came out of the flow function of a transfer has to be recorded. -/
  | record (source : φ) (t : Transfer ν) (fact : φ)
  /-- A callee has to be entered with a fact that came out of the flow function of the call. -/
  | enter (caller : Incoming ν φ)
  /-- A fact that came out of the flow function of a return has to be brought to the caller. -/
  | bringBack (exit returnSite : ν) (caller : Incoming ν φ) (fact : φ)
  deriving DecidableEq, Repr

/-- The supergraph has the link of a transfer, or the transfer returns to the return site of a
call. -/
def Supergraph.Allows {ν : Type} [DecidableEq ν] (g : Supergraph ν) : Transfer ν → Prop
  | .ret exit returnSite site =>
    (exit, .ret returnSite site) ∈ g.links ∨ g.returnSite? site = some returnSite
  | t => g.Has t

namespace Task

variable {ν φ : Type}

/-- The transfer whose flow function gave the fact that a task records. -/
def via? : Task ν φ → Option (Transfer ν)
  | .record _ t _ => some t
  | .enter caller => some (.call caller.site caller.entry)
  | .bringBack exit returnSite caller _ => some (.ret exit returnSite caller.site)
  | _ => none

/-- The flow function that a task applies, and the fact that it applies it to. -/
def flow? : Task ν φ → Option (Transfer ν × φ)
  | .link e (.normal target) => some (.normal e.node target, e.fact)
  | .link e (.call entry) => some (.call e.node entry, e.fact)
  | .link e (.callToReturn returnSite) => some (.callToReturn e.node returnSite, e.fact)
  | .reuse returnSite caller s => some (.ret s.exit returnSite caller.site, s.fact)
  | .giveBack exit exitFact returnSite caller => some (.ret exit returnSite caller.site, exitFact)
  | _ => none

/-- The task carries a fact on inside a procedure. -/
def IsNormal (task : Task ν φ) : Prop :=
  ∃ source target d, task.flow? = some (.normal source target, d)

/-- What has to be done when a path edge is followed. -/
def ofEdge [DecidableEq ν] (g : Supergraph ν) (e : PathEdge ν φ) : List (Task ν φ) :=
  (g.linksFrom e.node).map (.link e) ++ if g.isExit e.node then [.leave e] else []

/-- What has to be done along a link when a procedure is left on the way back to a caller. -/
def ofCaller [DecidableEq ν] (e : PathEdge ν φ) (caller : Incoming ν φ) :
    Link ν → List (Task ν φ)
  | .ret returnSite site =>
    if site = caller.site then [.giveBack e.node e.fact returnSite caller] else []
  | _ => []

end Task

namespace Run

variable {ν φ σ : Type} [DecidableEq ν] [DecidableEq φ] (p : Problem ν φ σ) (g : Supergraph ν)

/-- Performs a task: what has to be done next because of it, and the run after it. -/
def perform (run : Run ν φ σ) : Task ν φ → List (Task ν φ) × Run ν φ σ
  | .link e (.normal target) =>
    let (facts, run) := transfer p (.normal e.node target) e.fact run
    (facts.map (.record e.source (.normal e.node target)), run)
  | .link e (.callToReturn returnSite) =>
    let (facts, run) := transfer p (.callToReturn e.node returnSite) e.fact run
    (facts.map (.record e.source (.callToReturn e.node returnSite)), run)
  | .link e (.call entry) =>
    let (facts, run) := transfer p (.call e.node entry) e.fact run
    (facts.map fun d => .enter ⟨entry, d, e.node, e.source, e.fact⟩, run)
  | .link _ (.ret _ _) => ([], run)
  | .leave e =>
    match g.entryOf? e.node with
    | none => ([], run)
    | some entry =>
      let run := run.conclude entry e
      ((run.callers entry e.source).flatMap fun caller =>
        (g.linksFrom e.node).flatMap (Task.ofCaller e caller), run)
  | .reuse returnSite caller s =>
    let (facts, run) := transfer p (.ret s.exit returnSite caller.site) s.fact
      { run with reuses := run.reuses + 1 }
    (facts.map (.bringBack s.exit returnSite caller), run)
  | .giveBack exit exitFact returnSite caller =>
    let (facts, run) := transfer p (.ret exit returnSite caller.site) exitFact run
    (facts.map (.bringBack exit returnSite caller), run)
  | .record source t fact => ([], run.propagate source t.target fact)
  | .enter caller =>
    let run := run.register caller
    match g.returnSite? caller.site with
    | none => ([], run)
    | some returnSite => ((run.known caller).map (.reuse returnSite caller), run)
  | .bringBack _ returnSite caller fact => ([], run.bringBack caller returnSite fact)

end Run

/-- A moment of a run: the tables, the path edges that have been taken up, and what is still to be
done for the last of them. -/
structure Moment (ν φ σ : Type) where
  run : Run ν φ σ
  done : List (PathEdge ν φ) := []
  agenda : List (Task ν φ) := []

namespace Moment

variable {ν φ σ : Type} [DecidableEq ν] [DecidableEq φ]

/-- The moment before any path edge has been taken up. -/
def start (p : Problem ν φ σ) (store : σ) : Moment ν φ σ := { run := Run.start p store }

/-- One step of a run, with the transfer whose flow function gave the fact that is recorded in it,
if one is. -/
inductive Step (p : Problem ν φ σ) (g : Supergraph ν) :
    Option (Transfer ν) → Moment ν φ σ → Moment ν φ σ → Prop
  /-- When nothing is left to be done, any path edge that was not yet taken up is. -/
  | takeUp {run : Run ν φ σ} {done : List (PathEdge ν φ)} {e : PathEdge ν φ} (he : e ∈ run.edges)
      (hnew : e ∉ done) :
      Step p g none ⟨run, done, []⟩
        ⟨run.takeUp e, e :: done, Task.ofEdge g e⟩
  /-- The first task is performed, and what follows from it comes next, in any order. -/
  | perform {run : Run ν φ σ} {done : List (PathEdge ν φ)} {task : Task ν φ}
      {rest next : List (Task ν φ)} (hnext : next.Perm (run.perform p g task).1) :
      Step p g task.via? ⟨run, done, task :: rest⟩ ⟨(run.perform p g task).2, done, next ++ rest⟩

/-- A moment comes later in a run than another, or is the same. -/
def Leads (p : Problem ν φ σ) (g : Supergraph ν) : Moment ν φ σ → Moment ν φ σ → Prop :=
  Relation.ReflTransGen fun x y => ∃ via, Step p g via x y

/-! ## Every run in any order is one of these -/

section Leads

variable {p : Problem ν φ σ} {g : Supergraph ν} {run run' : Run ν φ σ} {done : List (PathEdge ν φ)}
  {rest : List (Task ν φ)} {task : Task ν φ} {e : PathEdge ν φ} {α : Type}
  {R : α → Run ν φ σ → Run ν φ σ → Prop} {as : List α} {tasks : α → List (Task ν φ)}

/-- A task may be followed by what it asks for in any order. -/
theorem step_of_perform_eq {next next' : List (Task ν φ)}
    (h : run.perform p g task = (next, run')) (hperm : next'.Perm next) :
    Step p g task.via? ⟨run, done, task :: rest⟩ ⟨run', done, next' ++ rest⟩ := by
  obtain ⟨rfl, rfl⟩ := Prod.mk.inj h
  exact .perform hperm

/-- A task from which nothing follows is done in one step. -/
theorem leads_of_perform_eq (h : run.perform p g task = ([], run')) :
    Leads p g ⟨run, done, task :: rest⟩ ⟨run', done, rest⟩ :=
  .single ⟨_, step_of_perform_eq h (.refl _)⟩

/-- Visits are done one after the other, if each of them is. -/
theorem leads_of_visits (hvisits : Visits R as run run')
    (hleads : ∀ a ∈ as, ∀ r r' rest, R a r r' →
      Leads p g ⟨r, done, tasks a ++ rest⟩ ⟨r', done, rest⟩) :
    Leads p g ⟨run, done, as.flatMap tasks ++ rest⟩ ⟨run', done, rest⟩ := by
  induction hvisits with
  | nil => exact .refl
  | @cons a as r s t hvisit _ ih =>
    rw [List.flatMap_cons, List.append_assoc]
    refine (hleads a List.mem_cons_self r s _ hvisit).trans (ih fun b hb => ?_)
    exact hleads b (List.mem_cons_of_mem a hb)

/-- A task is done by visiting, in any order, what follows from it. -/
theorem leads_of_visitsAll {mid : Run ν φ σ}
    (hperform : run.perform p g task = (as.flatMap tasks, mid)) (hvisits : VisitsAll R as mid run')
    (hleads : ∀ a ∈ as, ∀ r r' rest, R a r r' →
      Leads p g ⟨r, done, tasks a ++ rest⟩ ⟨r', done, rest⟩) :
    Leads p g ⟨run, done, task :: rest⟩ ⟨run', done, rest⟩ := by
  obtain ⟨bs, hperm, hvisits⟩ := hvisits
  refine .head ⟨_, step_of_perform_eq hperform (hperm.flatMap_right tasks)⟩ ?_
  refine leads_of_visits hvisits fun b hb => ?_
  exact hleads b (hperm.mem_iff.mp hb)

/-- The same, where one task follows for each element. -/
theorem leads_of_visitsAll_map {mid : Run ν φ σ} {next : α → Task ν φ}
    (hperform : run.perform p g task = (as.map next, mid)) (hvisits : VisitsAll R as mid run')
    (hleads : ∀ a ∈ as, ∀ r r' rest, R a r r' →
      Leads p g ⟨r, done, next a :: rest⟩ ⟨r', done, rest⟩) :
    Leads p g ⟨run, done, task :: rest⟩ ⟨run', done, rest⟩ := by
  rw [List.map_eq_flatMap] at hperform
  exact leads_of_visitsAll hperform hvisits hleads

/-- A task is done by recording, in any order, the facts that come out of its flow function. -/
theorem leads_of_additions {mid : Run ν φ σ} {facts : List φ} {next : φ → Task ν φ}
    {add : Run ν φ σ → φ → Run ν φ σ} (hperform : run.perform p g task = (facts.map next, mid))
    (hvisits : VisitsAll (fun d r r' => r' = add r d) facts mid run')
    (hadd : ∀ r d, r.perform p g (next d) = ([], add r d)) :
    Leads p g ⟨run, done, task :: rest⟩ ⟨run', done, rest⟩ := by
  refine leads_of_visitsAll_map hperform hvisits ?_
  rintro d - r _ rest rfl
  exact leads_of_perform_eq (hadd r d)

/-- Returning to a caller is a sequence of steps. -/
theorem leads_of_returns {exit returnSite : ν} {exitFact : φ} {caller : Incoming ν φ}
    (h : Run.Returns p exit exitFact returnSite caller run run') :
    Leads p g ⟨run, done, .giveBack exit exitFact returnSite caller :: rest⟩
      ⟨run', done, rest⟩ :=
  leads_of_additions rfl h fun _ _ => rfl

/-- Entering a procedure is a sequence of steps. -/
theorem leads_of_enters {caller : Incoming ν φ} (h : Run.Enters p g caller run run') :
    Leads p g ⟨run, done, .enter caller :: rest⟩ ⟨run', done, rest⟩ := by
  unfold Run.Enters at h
  split at h
  · next hsite => exact leads_of_perform_eq (by simp [Run.perform, hsite, h])
  · next returnSite hsite =>
    have hperform : run.perform p g (.enter caller) =
        (((run.register caller).known caller).map (.reuse returnSite caller),
          run.register caller) := by
      simp [Run.perform, hsite]
    refine leads_of_visitsAll_map hperform h ?_
    intro s _ r r' rest hreturns
    exact leads_of_additions rfl hreturns fun _ _ => rfl

/-- Following a link is a sequence of steps, for each kind of link. -/
theorem leads_of_followsLink {link : Link ν} (h : Run.FollowsLink p g e link run run') :
    Leads p g ⟨run, done, .link e link :: rest⟩ ⟨run', done, rest⟩ := by
  cases link with
  | normal target => exact leads_of_additions rfl h fun _ _ => rfl
  | callToReturn returnSite => exact leads_of_additions rfl h fun _ _ => rfl
  | call entry => exact leads_of_visitsAll_map rfl h fun d _ r r' rest => leads_of_enters
  | ret returnSite site =>
    obtain rfl : run' = run := h
    exact leads_of_perform_eq rfl

/-- Leaving a procedure by a link is a sequence of steps, or none. -/
theorem leads_of_leavesBy {caller : Incoming ν φ} {link : Link ν}
    (h : Run.LeavesBy p e caller link run run') :
    Leads p g ⟨run, done, Task.ofCaller e caller link ++ rest⟩ ⟨run', done, rest⟩ := by
  cases link with
  | ret returnSite site =>
    simp only [Run.LeavesBy, Task.ofCaller] at h ⊢
    split at h
    · next hsite =>
      rw [if_pos hsite]
      exact leads_of_returns h
    · next hsite =>
      rw [if_neg hsite, h]
      exact .refl
  | _ =>
    obtain rfl : run' = run := h
    exact .refl

/-- Following a path edge to an exit is a sequence of steps, caller by caller. -/
theorem leads_of_followsExit (h : Run.FollowsExit p g e run run') :
    Leads p g ⟨run, done, .leave e :: rest⟩ ⟨run', done, rest⟩ := by
  unfold Run.FollowsExit at h
  split at h
  · next hentry => exact leads_of_perform_eq (by simp [Run.perform, hentry, h])
  · next entry hentry =>
    have hperform : run.perform p g (.leave e) =
        (((run.conclude entry e).callers entry e.source).flatMap fun caller =>
          (g.linksFrom e.node).flatMap (Task.ofCaller e caller), run.conclude entry e) := by
      simp [Run.perform, hentry]
    refine leads_of_visitsAll hperform h ?_
    intro caller _ r r' rest hvisits
    exact leads_of_visits hvisits fun link _ r r' rest => leads_of_leavesBy

/-- Following a path edge is a sequence of steps that leaves nothing to be done. -/
theorem leads_of_followsEdge (h : Run.FollowsEdge p g e run run') :
    Leads p g ⟨run, done, Task.ofEdge g e⟩ ⟨run', done, []⟩ := by
  obtain ⟨mid, hvisits, hexit⟩ := h
  have hlinks (rest : List (Task ν φ)) :
      Leads p g ⟨run, done, (g.linksFrom e.node).map (.link e) ++ rest⟩ ⟨mid, done, rest⟩ := by
    rw [List.map_eq_flatMap]
    exact leads_of_visits hvisits fun link _ r r' rest => leads_of_followsLink
  refine (hlinks _).trans ?_
  split at hexit
  · next hisExit =>
    rw [if_pos hisExit]
    exact leads_of_followsExit hexit
  · next hisExit =>
    rw [if_neg hisExit, hexit]

/-- The runs in any order are moments at which nothing is left to be done for the path edges that
have been taken up. -/
theorem leads_of_scheduled {store : σ} (h : Run.Scheduled p g store done run) :
    Leads p g (start p store) ⟨run, done, []⟩ := by
  induction h with
  | start => exact .refl
  | follow _ he hnew hfollows ih =>
    exact (ih.tail ⟨none, .takeUp he hnew⟩).trans (leads_of_followsEdge hfollows)

end Leads

end Moment

/-! ## What performing a task does -/

namespace Run

variable {ν φ σ : Type} [DecidableEq ν] [DecidableEq φ] {p : Problem ν φ σ} {g : Supergraph ν}
  {run : Run ν φ σ} {task next : Task ν φ} {t : Transfer ν} {d : φ}

/-- The store changes by the flow function that a task applies. -/
theorem store_perform :
    (run.perform p g task).2.store =
      task.flow?.elim run.store fun (t, d) => (p.flow t d run.store).2 := by
  cases task with
  | link e link => cases link <;> rfl
  | leave e =>
    rw [perform]
    split <;> rfl
  | enter caller =>
    rw [perform]
    split <;> simp [register, Task.flow?]
  | record source t fact => simp [perform, Task.flow?]
  | bringBack exit returnSite caller fact => simp [perform, Run.bringBack, Task.flow?]
  | _ => rfl

/-- A path edge is recorded only by a task for a fact that came out of a flow function, where the
transfer leads to. -/
theorem mem_edges_or_of_mem_perform {e : PathEdge ν φ} (he : e ∈ (run.perform p g task).2.edges) :
    e ∈ run.edges ∨ ∃ t, task.via? = some t ∧ e.node = t.target := by
  cases task with
  | link e link => cases link <;> exact .inl he
  | leave e =>
    rw [perform] at he
    split at he <;> exact .inl he
  | enter caller =>
    have hedges : e ∈ (run.register caller).edges := by
      rw [perform] at he
      split at he <;> exact he
    rcases (mem_propagate_edges _ _ _ _).mp hedges with hold | rfl
    · exact .inl hold
    · exact .inr ⟨_, rfl, rfl⟩
  | record source t fact =>
    rcases (mem_propagate_edges _ _ _ _).mp he with hold | rfl
    · exact .inl hold
    · exact .inr ⟨t, rfl, rfl⟩
  | bringBack exit returnSite caller fact =>
    rcases (mem_propagate_edges _ _ _ _).mp he with hold | rfl
    · exact .inl hold
    · exact .inr ⟨_, rfl, rfl⟩
  | _ => exact .inl he

omit [DecidableEq ν] in
/-- What follows from applying a flow function is to record what comes out of it. -/
theorem via?_of_mem_map_transfer {run' : Run ν φ σ} {f : φ → Task ν φ}
    (hnext : next ∈ (transfer p t d run').1.map f) (hstore : run'.store = run.store)
    (hflow : task.flow? = some (t, d)) (hf : ∀ d, (f d).flow? = none ∧ (f d).via? = some t) :
    next.flow? = none ∧ ∃ t d, task.flow? = some (t, d) ∧ next.via? = some t ∧
      ∃ d', d' ∈ (p.flow t d run.store).1 := by
  obtain ⟨d', hd', rfl⟩ := List.mem_map.mp hnext
  exact ⟨(hf d').1, t, d, hflow, (hf d').2, d', by simpa [transfer, hstore] using hd'⟩

/-- What follows from a task is to record a fact that came out of the flow function it applies, or
to return to the return site of a call. -/
theorem mem_perform_cases (hnext : next ∈ (run.perform p g task).1) :
    (next.flow? = none ∧ ∃ t d, task.flow? = some (t, d) ∧ next.via? = some t ∧
      ∃ d', d' ∈ (p.flow t d run.store).1) ∨
    (next.via? = none ∧ ∃ exit returnSite site d,
      next.flow? = some (.ret exit returnSite site, d) ∧ g.Allows (.ret exit returnSite site)) := by
  cases task with
  | link e link =>
    cases link with
    | ret => simp [perform] at hnext
    | _ => exact .inl (via?_of_mem_map_transfer hnext rfl rfl fun _ => ⟨rfl, rfl⟩)
  | reuse | giveBack => exact .inl (via?_of_mem_map_transfer hnext rfl rfl fun _ => ⟨rfl, rfl⟩)
  | leave e =>
    rw [perform] at hnext
    split at hnext
    · simp at hnext
    · obtain ⟨caller, -, hcaller⟩ := List.mem_flatMap.mp hnext
      obtain ⟨link, hlink, hofCaller⟩ := List.mem_flatMap.mp hcaller
      have hmem := Supergraph.mem_linksFrom.mp hlink
      cases link with
      | ret returnSite site =>
        obtain ⟨rfl, rfl⟩ :
            site = caller.site ∧ next = .giveBack e.node e.fact returnSite caller := by
          simpa [Task.ofCaller] using hofCaller
        exact .inr ⟨rfl, _, _, _, _, rfl, .inl hmem⟩
      | _ => simp [Task.ofCaller] at hofCaller
  | enter caller =>
    rw [perform] at hnext
    split at hnext
    · simp at hnext
    · next returnSite hsite =>
      obtain ⟨s, -, rfl⟩ := List.mem_map.mp hnext
      exact .inr ⟨rfl, _, _, _, _, rfl, .inr hsite⟩
  | record | bringBack => simp [perform] at hnext

end Run

namespace Moment

variable {ν φ σ : Type} [DecidableEq ν] [DecidableEq φ] {p : Problem ν φ σ} {g : Supergraph ν}
  {x y : Moment ν φ σ}

/-- A path edge that a step records lies where its transfer leads to. -/
theorem Step.mem_edges_or {via : Option (Transfer ν)} (h : Step p g via x y) {e : PathEdge ν φ}
    (he : e ∈ y.run.edges) : e ∈ x.run.edges ∨ ∃ t, via = some t ∧ e.node = t.target := by
  cases h with
  | takeUp => exact .inl he
  | perform => exact Run.mem_edges_or_of_mem_perform he

/-- What is to be done fits the supergraph, and no fact is left to be recorded when a flow function
inside a procedure is applied. -/
structure Orderly (g : Supergraph ν) (x : Moment ν φ σ) : Prop where
  allows : ∀ task ∈ x.agenda, ∀ t d, task.flow? = some (t, d) → g.Allows t
  normal_last : x.agenda.Pairwise fun task later => task.IsNormal → later.via? = none

/-- There is nothing to be done in the beginning. -/
theorem orderly_start (store : σ) : Orderly g (start p store) := ⟨by simp [start], .nil⟩

omit [DecidableEq φ] in
/-- What is to be done for a path edge records no fact yet. -/
theorem via?_of_mem_ofEdge {e : PathEdge ν φ} {task : Task ν φ} (h : task ∈ Task.ofEdge g e) :
    task.via? = none := by
  rcases List.mem_append.mp h with hlink | hleave
  · obtain ⟨link, -, rfl⟩ := List.mem_map.mp hlink
    rfl
  · split at hleave
    · obtain rfl := List.mem_singleton.mp hleave
      rfl
    · simp at hleave

omit [DecidableEq φ] in
/-- The flow functions that are applied for a path edge belong to links of the supergraph. -/
theorem allows_of_mem_ofEdge {e : PathEdge ν φ} {task : Task ν φ} (h : task ∈ Task.ofEdge g e)
    {t : Transfer ν} {d : φ} (hflow : task.flow? = some (t, d)) : g.Allows t := by
  rcases List.mem_append.mp h with hlink | hleave
  · obtain ⟨link, hmem, rfl⟩ := List.mem_map.mp hlink
    have hlinks := Supergraph.mem_linksFrom.mp hmem
    cases link with
    | ret => simp [Task.flow?] at hflow
    | _ =>
      obtain ⟨rfl, rfl⟩ := Prod.mk.inj (Option.some.inj hflow)
      exact hlinks
  · split at hleave
    · obtain rfl := List.mem_singleton.mp hleave
      simp [Task.flow?] at hflow
    · simp at hleave

/-- A step leaves things in order. -/
theorem Step.orderly {via : Option (Transfer ν)} (h : Step p g via x y) (hx : Orderly g x) :
    Orderly g y := by
  cases h with
  | takeUp he hnew =>
    refine ⟨fun task htask t d => allows_of_mem_ofEdge htask, ?_⟩
    exact List.pairwise_of_forall_mem_list fun task _ later hlater _ => via?_of_mem_ofEdge hlater
  | @perform run done task rest next hnext =>
    have hcases := fun new (hnew : new ∈ next) => Run.mem_perform_cases (hnext.mem_iff.mp hnew)
    constructor
    · intro new hnew t d hflow
      rcases List.mem_append.mp hnew with hnew | hrest
      · rcases hcases new hnew with ⟨hnone, -⟩ | ⟨-, exit, returnSite, site, d', hflow', hallows⟩
        · simp [hnone] at hflow
        · obtain ⟨rfl, rfl⟩ := Prod.mk.inj (Option.some.inj (hflow'.symm.trans hflow))
          exact hallows
      · exact hx.allows new (List.mem_cons_of_mem _ hrest) t d hflow
    · -- What follows from a task never carries a fact on inside a procedure.
      have hnormal : ∀ new ∈ next, ¬new.IsNormal := by
        rintro new hnew ⟨source, target, d, hflow⟩
        rcases hcases new hnew with ⟨hnone, -⟩ | ⟨-, exit, returnSite, site, d', hflow', -⟩
        · simp [hnone] at hflow
        · simp [hflow'] at hflow
      refine List.pairwise_append.mpr ⟨?_, (List.pairwise_cons.mp hx.normal_last).2, ?_⟩
      · exact List.pairwise_of_forall_mem_list fun a ha b _ h => absurd h (hnormal a ha)
      · exact fun a ha b _ h => absurd h (hnormal a ha)

/-- The agenda stays orderly through any number of steps. -/
theorem Leads.orderly (h : Leads p g x y) (hx : Orderly g x) : Orderly g y := by
  induction h with
  | refl => exact hx
  | tail _ hstep ih =>
    obtain ⟨via, hstep⟩ := hstep
    exact hstep.orderly ih

end Moment

end TaintTrail

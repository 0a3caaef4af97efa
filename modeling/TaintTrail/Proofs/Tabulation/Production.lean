import TaintTrail.Proofs.Tabulation.Agenda
import TaintTrail.Proofs.Tabulation.Fixpoint

/-!
# What flow functions can produce

A flow function is applied to a fact that is there already: to the fact of a seed, or to one that
came out of a flow function before. Nothing is assumed here about the shape of the supergraph, nor
about what the store does to the flow functions. Whenever a run is looked at, its store is one that
such a chain of applications leads to, and all it speaks of are facts that the chain has produced.
Only the zero fact need not be among them: it may be the context of other facts without ever having
come out of a flow function.
-/

namespace TaintTrail

/-- Flow functions were applied one after the other along a supergraph, each to a fact that was
there: the facts that are there after that, and the store. -/
inductive Problem.Produces {ν φ σ : Type} [DecidableEq ν] (p : Problem ν φ σ) (g : Supergraph ν)
    (store : σ) : List φ → σ → Prop
  /-- At first the facts of the seeds are there. -/
  | start : Produces p g store (p.seeds.map (·.2)) store
  /-- What comes out of a flow function is there from then on. -/
  | apply {facts : List φ} {s : σ} {t : Transfer ν} {d : φ} : Produces p g store facts s →
      g.Allows t → d ∈ facts → Produces p g store (facts ++ (p.flow t d s).1) (p.flow t d s).2

/-- Facts that are closed under the flow functions are all that the flow functions produce. -/
theorem Problem.Produces.subset_of_closed {ν φ σ : Type} [DecidableEq ν] {p : Problem ν φ σ}
    {g : Supergraph ν} {store s : σ} {facts : List φ} {D : Set φ} (h : p.Produces g store facts s)
    (hseeds : ∀ seed ∈ p.seeds, seed.2 ∈ D)
    (hflow : ∀ t d s, g.Allows t → d ∈ D → ∀ d' ∈ (p.flow t d s).1, d' ∈ D) :
    ∀ d ∈ facts, d ∈ D := by
  induction h with
  | start =>
    intro d hd
    obtain ⟨seed, hseed, rfl⟩ := List.mem_map.mp hd
    exact hseeds seed hseed
  | apply _ hallows hd ih =>
    intro d' hd'
    rcases List.mem_append.mp hd' with hold | hnew
    · exact ih d' hold
    · exact hflow _ _ _ hallows (ih _ hd) d' hnew

/-- A transfer along a supergraph leads to a node that a link leads to. -/
theorem Supergraph.Allows.target_mem {ν : Type} [DecidableEq ν] {g : Supergraph ν}
    {t : Transfer ν} (h : g.Allows t) : t.target ∈ g.links.map (·.2.target) := by
  rw [List.mem_map]
  cases t with
  | normal source target => exact ⟨_, h, rfl⟩
  | call site entry => exact ⟨_, h, rfl⟩
  | callToReturn site returnSite => exact ⟨_, h, rfl⟩
  | ret exit returnSite site =>
    rcases h with hlink | hsite
    · exact ⟨_, hlink, rfl⟩
    · exact ⟨_, callToReturn_mem_of_returnSite? hsite, rfl⟩

namespace Task

variable {ν φ σ : Type}

/-- The fact in whose context a task is done. -/
def context : Task ν φ → φ
  | .link e _ => e.source
  | .leave e => e.source
  | .reuse _ caller _ => caller.source
  | .giveBack _ _ _ caller => caller.source
  | .record source _ _ => source
  | .enter caller => caller.source
  | .bringBack _ _ caller _ => caller.source

/-- The fact that a task is about. -/
def fact : Task ν φ → φ
  | .link e _ => e.fact
  | .leave e => e.fact
  | .reuse _ _ s => s.fact
  | .giveBack _ exitFact _ _ => exitFact
  | .record _ _ fact => fact
  | .enter caller => caller.entryFact
  | .bringBack _ _ _ fact => fact

/-- The facts that come out of the flow function that a task applies, if it applies one. -/
def yield (p : Problem ν φ σ) (s : σ) (task : Task ν φ) : List φ :=
  task.flow?.elim [] fun pair => (p.flow pair.1 pair.2 s).1

/-- A task applies its flow function to the fact that it carries. -/
theorem fact_eq_of_flow? {task : Task ν φ} {t : Transfer ν} {d : φ}
    (h : task.flow? = some (t, d)) : task.fact = d := by
  cases task with
  | link e link =>
    cases link with
    | ret returnSite site => simp [flow?] at h
    | _ => exact (Prod.mk.inj (Option.some.inj h)).2
  | reuse returnSite caller s => exact (Prod.mk.inj (Option.some.inj h)).2
  | giveBack exit exitFact returnSite caller => exact (Prod.mk.inj (Option.some.inj h)).2
  | _ => simp [flow?] at h

end Task

variable {ν φ σ : Type} [DecidableEq ν] [DecidableEq φ] {p : Problem ν φ σ} {g : Supergraph ν}
  {store : σ}

/-! ## What performing a task adds -/

section Perform

variable {run : Run ν φ σ} {task new : Task ν φ}

/-- What follows from a task is done in its context, or in that of a caller, and is about the same
fact, about one that came out of its flow function, or about that of an end summary. -/
theorem Run.facts_of_mem_perform (hnew : new ∈ (run.perform p g task).1) :
    (new.context = task.context ∨ ∃ c ∈ run.incoming, new.context = c.source) ∧
      (new.fact = task.fact ∨ new.fact ∈ task.yield p run.store ∨
        ∃ s ∈ run.endSummaries, new.fact = s.fact) := by
  cases task with
  | link e link =>
    cases link with
    | ret => simp [perform] at hnew
    | _ =>
      obtain ⟨d, hd, rfl⟩ := List.mem_map.mp hnew
      exact ⟨.inl rfl, .inr (.inl (List.mem_eraseDups.mp hd))⟩
  | reuse | giveBack =>
    obtain ⟨d, hd, rfl⟩ := List.mem_map.mp hnew
    exact ⟨.inl rfl, .inr (.inl (List.mem_eraseDups.mp hd))⟩
  | leave e =>
    rw [perform] at hnew
    split at hnew
    · simp at hnew
    · obtain ⟨caller, hcaller, hlinks⟩ := List.mem_flatMap.mp hnew
      have hmem : caller ∈ run.incoming := List.mem_of_mem_filter hcaller
      obtain ⟨link, -, hlink⟩ := List.mem_flatMap.mp hlinks
      cases link with
      | ret returnSite site =>
        obtain ⟨-, rfl⟩ : site = caller.site ∧ new = .giveBack e.node e.fact returnSite caller := by
          simpa [Task.ofCaller] using hlink
        exact ⟨.inr ⟨caller, hmem, rfl⟩, .inl rfl⟩
      | _ => simp [Task.ofCaller] at hlink
  | enter caller =>
    rw [perform] at hnew
    split at hnew
    · simp at hnew
    · obtain ⟨s, hs, rfl⟩ := List.mem_map.mp hnew
      have hknown : s ∈ (run.register caller).endSummaries := List.mem_of_mem_filter hs
      have hmem : s ∈ run.endSummaries := by simpa [register] using hknown
      exact ⟨.inl rfl, .inr (.inr ⟨s, hmem, rfl⟩)⟩
  | record | bringBack => simp [perform] at hnew

/-- The task to enter a procedure registers the caller. -/
theorem Run.perform_enter (run : Run ν φ σ) (caller : Incoming ν φ) :
    (run.perform p g (.enter caller)).2 = run.register caller := by
  rw [perform]
  split <;> rfl

/-- A path edge that a task records is about the fact of the task, in its context or, where a callee
is entered, in that of the fact itself. -/
theorem Run.facts_of_mem_perform_edges {e : PathEdge ν φ}
    (he : e ∈ (run.perform p g task).2.edges) :
    e ∈ run.edges ∨ (e.source = task.context ∨ e.source = task.fact) ∧ e.fact = task.fact := by
  cases task with
  | link _ link => cases link <;> exact .inl he
  | leave _ =>
    rw [perform] at he
    split at he <;> exact .inl he
  | record _ _ _ =>
    rcases (mem_propagate_edges _ _ _ _).mp he with hold | rfl
    · exact .inl hold
    · exact .inr ⟨.inl rfl, rfl⟩
  | enter caller =>
    rw [perform_enter] at he
    rcases (mem_propagate_edges _ _ _ _).mp he with hold | rfl
    · exact .inl hold
    · exact .inr ⟨.inr rfl, rfl⟩
  | bringBack _ _ _ _ =>
    rcases (mem_propagate_edges _ _ _ _).mp he with hold | rfl
    · exact .inl hold
    · exact .inr ⟨.inl rfl, rfl⟩
  | _ => exact .inl he

/-- A caller that a task notes has the context of the task. -/
theorem Run.source_of_mem_perform_incoming {c : Incoming ν φ}
    (hc : c ∈ (run.perform p g task).2.incoming) :
    c ∈ run.incoming ∨ c.source = task.context := by
  cases task with
  | link _ link => cases link <;> exact .inl hc
  | leave _ =>
    rw [perform] at hc
    split at hc <;> exact .inl hc
  | enter caller =>
    rw [perform_enter] at hc
    rcases List.mem_insert_iff.mp hc with rfl | hold
    · exact .inr rfl
    · exact .inl (by simpa using hold)
  | record | bringBack => exact .inl (by simpa [perform, Run.bringBack] using hc)
  | _ => exact .inl hc

/-- An end summary that a task notes is about the fact of the task. -/
theorem Run.fact_of_mem_perform_endSummaries {s : EndSummary ν φ}
    (hs : s ∈ (run.perform p g task).2.endSummaries) :
    s ∈ run.endSummaries ∨ s.fact = task.fact := by
  cases task with
  | link _ link => cases link <;> exact .inl hs
  | leave _ =>
    rw [perform] at hs
    split at hs
    · exact .inl hs
    · rcases List.mem_insert_iff.mp hs with rfl | hold
      · exact .inr rfl
      · exact .inl hold
  | enter caller =>
    rw [perform_enter] at hs
    exact .inl (by simpa [register] using hs)
  | record | bringBack => exact .inl (by simpa [perform, Run.bringBack] using hs)
  | _ => exact .inl hs

/-- The store after a task is one that the flow functions lead to. -/
theorem Run.produces_perform {facts : List φ} (h : p.Produces g store facts run.store)
    (hfact : task.fact ∈ facts) (hallows : ∀ t d, task.flow? = some (t, d) → g.Allows t) :
    p.Produces g store (facts ++ task.yield p run.store) (run.perform p g task).2.store := by
  rw [store_perform]
  cases hflow : task.flow? with
  | none =>
    have hnothing : task.yield p run.store = [] := by simp [Task.yield, hflow]
    rw [hnothing, List.append_nil]
    exact h
  | some pair =>
    obtain ⟨t, d⟩ := pair
    have hyield : task.yield p run.store = (p.flow t d run.store).1 := by simp [Task.yield, hflow]
    rw [hyield]
    have hd : d ∈ facts := Task.fact_eq_of_flow? hflow ▸ hfact
    exact h.apply (hallows t d hflow) hd

end Perform

/-! ## Steps and runs -/

namespace Moment

variable {x y : Moment ν φ σ} {facts : List φ}

/-- All that a moment speaks of are facts from a list, in the context of such facts or of the zero
fact, where seeds are and where links lead to. -/
structure Backed (p : Problem ν φ σ) (g : Supergraph ν) (facts : List φ) (x : Moment ν φ σ) :
    Prop where
  edges : ∀ e ∈ x.run.edges, e.source ∈ p.zero :: facts ∧ e.fact ∈ facts
  nodes : ∀ e ∈ x.run.edges, e.node ∈ p.seeds.map (·.1) ++ g.links.map (·.2.target)
  incoming : ∀ c ∈ x.run.incoming, c.source ∈ p.zero :: facts
  endSummaries : ∀ s ∈ x.run.endSummaries, s.fact ∈ facts
  agenda : ∀ task ∈ x.agenda, task.context ∈ p.zero :: facts ∧ task.fact ∈ facts
  /-- What is left to be recorded came along the supergraph. -/
  via : ∀ task ∈ x.agenda, ∀ t, task.via? = some t → g.Allows t

/-- In the beginning only the seeds are there. -/
theorem backed_start (p : Problem ν φ σ) (g : Supergraph ν) (store : σ) :
    (start p store).Backed p g (p.seeds.map (·.2)) := by
  obtain ⟨hedges, hincoming, hends, -⟩ := Run.start_spec p store
  refine ⟨fun e he => ?_, fun e he => ?_, ?_, ?_, by simp [start], by simp [start]⟩
  · obtain ⟨seed, hseed, rfl⟩ := (hedges e).mp he
    exact ⟨List.mem_cons_self, List.mem_map_of_mem hseed⟩
  · obtain ⟨seed, hseed, rfl⟩ := (hedges e).mp he
    exact List.mem_append_left _ (List.mem_map_of_mem hseed)
  · simp [start, hincoming]
  · simp [start, hends]

/-- Performing the first task keeps a moment backed by the facts that are there after it. -/
theorem Backed.perform {run : Run ν φ σ} {done : List (PathEdge ν φ)} {task : Task ν φ}
    {rest next : List (Task ν φ)} (hx : Backed p g facts ⟨run, done, task :: rest⟩)
    (hallows : ∀ t d, task.flow? = some (t, d) → g.Allows t)
    (hnext : next.Perm (run.perform p g task).1) :
    Backed p g (facts ++ task.yield p run.store)
      ⟨(run.perform p g task).2, done, next ++ rest⟩ := by
  have hsubset : facts ⊆ facts ++ task.yield p run.store := List.subset_append_left _ _
  have hcontexts : p.zero :: facts ⊆ p.zero :: (facts ++ task.yield p run.store) :=
    List.cons_subset_cons _ hsubset
  obtain ⟨hcontext, hfact⟩ := hx.agenda task List.mem_cons_self
  constructor
  case edges =>
    intro e he
    rcases Run.facts_of_mem_perform_edges he with hold | ⟨hsource, heq⟩
    · obtain ⟨hsource, hmem⟩ := hx.edges e hold
      exact ⟨hcontexts hsource, hsubset hmem⟩
    · refine ⟨?_, heq ▸ hsubset hfact⟩
      rcases hsource with hsource | hsource
      · exact hsource ▸ hcontexts hcontext
      · exact hsource ▸ List.mem_cons_of_mem _ (hsubset hfact)
  case nodes =>
    intro e he
    rcases Run.mem_edges_or_of_mem_perform he with hold | ⟨t, hvia, hnode⟩
    · exact hx.nodes e hold
    · have htarget := (hx.via task List.mem_cons_self t hvia).target_mem
      exact List.mem_append_right _ (hnode ▸ htarget)
  case incoming =>
    intro c hc
    rcases Run.source_of_mem_perform_incoming hc with hold | hsource
    · exact hcontexts (hx.incoming c hold)
    · exact hsource ▸ hcontexts hcontext
  case endSummaries =>
    intro s hs
    rcases Run.fact_of_mem_perform_endSummaries hs with hold | heq
    · exact hsubset (hx.endSummaries s hold)
    · exact heq ▸ hsubset hfact
  case agenda =>
    intro new hnew
    rcases List.mem_append.mp hnew with hnew | hrest
    · obtain ⟨hcontext', hfact'⟩ := Run.facts_of_mem_perform (hnext.mem_iff.mp hnew)
      constructor
      · rcases hcontext' with heq | ⟨c, hc, heq⟩
        · exact heq ▸ hcontexts hcontext
        · exact heq ▸ hcontexts (hx.incoming c hc)
      · rcases hfact' with heq | hyield | ⟨s, hs, heq⟩
        · exact heq ▸ hsubset hfact
        · exact List.mem_append_right _ hyield
        · exact heq ▸ hsubset (hx.endSummaries s hs)
    · obtain ⟨hcontext', hfact'⟩ := hx.agenda new (List.mem_cons_of_mem _ hrest)
      exact ⟨hcontexts hcontext', hsubset hfact'⟩
  case via =>
    intro new hnew t hvia
    rcases List.mem_append.mp hnew with hnew | hrest
    · rcases Run.mem_perform_cases (hnext.mem_iff.mp hnew) with
        ⟨-, t', d, hflow, hvia', -⟩ | ⟨hnone, -⟩
      · obtain rfl := Option.some.inj (hvia'.symm.trans hvia)
        exact hallows t' d hflow
      · simp [hnone] at hvia
    · exact hx.via new (List.mem_cons_of_mem _ hrest) t hvia

/-- Taking up a path edge keeps a moment backed. -/
theorem Backed.takeUp {run : Run ν φ σ} {done : List (PathEdge ν φ)} {e : PathEdge ν φ}
    (hx : Backed p g facts ⟨run, done, []⟩) (he : e ∈ run.edges) :
    Backed p g facts
      ⟨run.takeUp e, e :: done, Task.ofEdge g e⟩ := by
  refine ⟨hx.edges, hx.nodes, hx.incoming, hx.endSummaries, fun task htask => ?_,
    fun task htask t hvia => ?_⟩
  · have hsame : task.context = e.source ∧ task.fact = e.fact := by
      rcases List.mem_append.mp htask with hlink | hleave
      · obtain ⟨link, -, rfl⟩ := List.mem_map.mp hlink
        exact ⟨rfl, rfl⟩
      · split at hleave
        · obtain rfl := List.mem_singleton.mp hleave
          exact ⟨rfl, rfl⟩
        · simp at hleave
    rw [hsame.1, hsame.2]
    exact hx.edges e he
  · simp [via?_of_mem_ofEdge htask] at hvia

/-- The store is one that the flow functions lead to, and all that the moment speaks of are facts
that they have produced on the way. -/
def Grounded (p : Problem ν φ σ) (g : Supergraph ν) (store : σ) (x : Moment ν φ σ) : Prop :=
  ∃ facts, p.Produces g store facts x.run.store ∧ x.Backed p g facts

/-- A step speaks only of what the flow functions have produced. -/
theorem Step.grounded {via : Option (Transfer ν)} (h : Step p g via x y) (horderly : Orderly g x)
    (hx : Grounded p g store x) : Grounded p g store y := by
  obtain ⟨facts, hproduces, hbacked⟩ := hx
  cases h with
  | takeUp he _ => exact ⟨facts, hproduces, hbacked.takeUp he⟩
  | @perform run done task rest next hnext =>
    have hallows := horderly.allows task List.mem_cons_self
    have hfact := (hbacked.agenda task List.mem_cons_self).2
    exact ⟨_, Run.produces_perform hproduces hfact hallows, hbacked.perform hallows hnext⟩

/-- A run speaks only of what the flow functions have produced, whenever it is looked at. -/
theorem Leads.grounded (h : Leads p g (start p store) x) : Grounded p g store x := by
  induction h with
  | refl =>
    have hstore : (start p store).run.store = store := (Run.start_spec p store).2.2.2.2
    refine ⟨p.seeds.map (·.2), ?_, backed_start p g store⟩
    rw [hstore]
    exact .start
  | tail hleads hstep ih =>
    obtain ⟨via, hstep⟩ := hstep
    exact hstep.grounded (Leads.orderly hleads (orderly_start store)) ih

end Moment

/-- The path edges of a run in any order are made of facts that the flow functions have produced,
apart from the zero fact as their context, where seeds are and where links lead to. -/
theorem Run.Scheduled.exists_produces {done : List (PathEdge ν φ)} {run : Run ν φ σ}
    (h : Scheduled p g store done run) :
    ∃ facts, p.Produces g store facts run.store ∧ ∀ e ∈ run.edges,
      e.source ∈ p.zero :: facts ∧ e.fact ∈ facts ∧
        e.node ∈ p.seeds.map (·.1) ++ g.links.map (·.2.target) := by
  obtain ⟨facts, hproduces, hbacked⟩ := (Moment.leads_of_scheduled h).grounded
  refine ⟨facts, hproduces, fun e he => ?_⟩
  obtain ⟨hsource, hfact⟩ := hbacked.edges e he
  exact ⟨hsource, hfact, hbacked.nodes e he⟩

end TaintTrail

import TaintTrail.Proofs.Analysis.GivenUp
import TaintTrail.Proofs.Tabulation.Accounting
import TaintTrail.Proofs.Tabulation.Agenda

/-!
# Procedures that were given up are left alone

From the moment at which a procedure is given up no fact that is recorded has anything to do with
it, be it that the fact would hold in the procedure or that it comes out of it. This is so between
any two steps of a run, in particular while the branch that caused it is still being followed. It
takes the checks of all flow functions, each of which looks at other nodes.
-/

namespace TaintTrail

/-- The nodes that a transfer speaks of. -/
def Transfer.nodes {ν : Type} : Transfer ν → List ν
  | .normal source target => [source, target]
  | .call site entry => [site, entry]
  | .ret exit returnSite site => [exit, returnSite, site]
  | .callToReturn site returnSite => [site, returnSite]

/-- A transfer speaks of the node that it goes to. -/
theorem Transfer.target_mem_nodes {ν : Type} (t : Transfer ν) : t.target ∈ t.nodes := by
  cases t <;> simp [target, nodes]

/-- The transfer has nothing to do with the procedure at a position. -/
def Program.Avoids (m : Program) (k : Nat) (t : Transfer Nat) : Prop :=
  ∀ n ∈ t.nodes, m.procOf? n ≠ some k

namespace Program

variable {m : Program} {config : Config} {f : Findings} {t : Transfer Nat} {d d' : Fact} {k : Nat}
  {e e' : RegionError}

/-! ## One flow function -/

/-- Applying a flow function gives up no procedure, or that of a branch, which was not given up
before, and then no fact comes out. -/
theorem aborted_flow_cases (m : Program) (config : Config) (t : Transfer Nat) (d : Fact)
    (f : Findings) :
    ((m.taintProblem config).flow t d f).2.aborted = f.aborted ∨
      ∃ b s k e, t = .normal b s ∧ (∀ e, (k, e) ∉ f.aborted) ∧
        ((m.taintProblem config).flow t d f).2.aborted = Sorted.put k e f.aborted ∧
        ((m.taintProblem config).flow t d f).1 = [] := by
  let effect := (Flow.ofTransfer m (m.rules config) f t).apply m config d
  have hnote : ((m.taintProblem config).flow t d f).2 = f.note m effect := rfl
  have hfacts : ((m.taintProblem config).flow t d f).1 = effect.facts := rfl
  cases haborts : effect.aborts with
  | none => exact .inl (by simp [hnote, Findings.note, haborts])
  | some entry =>
    obtain ⟨k, e⟩ := entry
    have hkill : Flow.ofTransfer m (m.rules config) f t ≠ .kill := by
      intro hkill
      simp [effect, hkill, Flow.apply] at haborts
    have heffect : effect = m.effectOf config t d := by
      have hsame := (Flow.ofTransfer_eq_kill_or m (m.rules config) f t).resolve_left hkill
      simp only [effect, hsame]
      rfl
    rw [heffect] at haborts hnote hfacts
    obtain ⟨b, s, condition, rfl, hproc, hrule, hdecides⟩ := aborts_effectOf_iff.mp haborts
    obtain ⟨inst, hinst, -⟩ := Option.map_eq_some_iff.mp hproc
    refine .inr ⟨b, s, k, e, rfl, fun e' hmem => hkill ?_, ?_, ?_⟩
    · have hb : f.isAborted m b = true := Findings.isAborted_iff.mpr ⟨k, e', hproc, hmem⟩
      simp [Flow.ofTransfer, hb]
    · simp [hnote, Findings.note, haborts]
    · simp [hfacts, effectOf_normal_unclosed hinst hrule, hdecides]

/-- What a procedure was given up for stays. -/
theorem mem_aborted_flow_iff (h : (k, e) ∈ f.aborted) :
    (k, e') ∈ ((m.taintProblem config).flow t d f).2.aborted ↔ (k, e') ∈ f.aborted := by
  rcases aborted_flow_cases m config t d f with hsame | ⟨b, s, k', e₀, -, hnew, hput, -⟩
  · rw [hsame]
  · have hne : k ≠ k' := by
      rintro rfl
      exact hnew e h
    rw [hput, Sorted.mem_put_iff_of_ne hne]

/-- A fact comes out of the flow function of a transfer only if none of the procedures that the
transfer has to do with was given up. -/
theorem WellFormed.avoids_of_mem_flow (hm : m.WellFormed) (ht : m.supergraph.Allows t)
    (h : (k, e) ∈ f.aborted) (hd' : d' ∈ ((m.taintProblem config).flow t d f).1) :
    m.Avoids k t := by
  have hkill : Flow.ofTransfer m (m.rules config) f t ≠ .kill := by
    intro hkill
    have hnil : ((m.taintProblem config).flow t d f).1 = [] := by
      simp [taintProblem, hkill, Flow.apply]
    simp [hnil] at hd'
  have haborted : ∀ n, m.procOf? n = some k → f.isAborted m n = true := fun n hn =>
    Findings.isAborted_iff.mpr ⟨k, e, hn, h⟩
  -- The flow function looks at some of the nodes, and the links put the others beside them.
  cases t with
  | normal source target =>
    have hsource : m.procOf? source ≠ some k := fun hn =>
      hkill (by simp [Flow.ofTransfer, haborted source hn])
    simpa [Avoids, Transfer.nodes, hm.procOf?_of_normal ht] using hsource
  | call site entry =>
    have hsite : m.procOf? site ≠ some k := fun hn =>
      hkill (by simp [Flow.ofTransfer, haborted site hn])
    have hentry : m.procOf? entry ≠ some k := fun hn =>
      hkill (by simp [Flow.ofTransfer, haborted entry hn])
    simpa [Avoids, Transfer.nodes] using ⟨hsite, hentry⟩
  | ret exit returnSite site =>
    have hsite : m.procOf? site ≠ some k := fun hn =>
      hkill (by simp [Flow.ofTransfer, haborted site hn])
    have hexit : m.procOf? exit ≠ some k := fun hn =>
      hkill (by simp [Flow.ofTransfer, haborted exit hn])
    have hreturnSite : m.procOf? returnSite = m.procOf? site := by
      rcases ht with hlink | hpast
      · exact hm.procOf?_of_ret hlink
      · exact hm.procOf?_of_callToReturn (Supergraph.callToReturn_mem_of_returnSite? hpast)
    simpa [Avoids, Transfer.nodes, hreturnSite] using ⟨hexit, hsite⟩
  | callToReturn site returnSite =>
    have hsite : m.procOf? site ≠ some k := fun hn =>
      hkill (by simp [Flow.ofTransfer, haborted site hn])
    simpa [Avoids, Transfer.nodes, hm.procOf?_of_callToReturn ht] using hsite

end Program

/-! ## One step, and all later ones -/

namespace Moment

variable {m : Program} {config : Config} {x y z : Moment Nat Fact Findings}
  {via : Option (Transfer Nat)} {k : Nat} {e e' : RegionError}

/-- No fact is left to be recorded that has to do with a procedure which was given up, and each
procedure is given up for one reason. -/
structure Guarded (m : Program) (x : Moment Nat Fact Findings) : Prop where
  avoids : ∀ k e, (k, e) ∈ x.run.store.aborted →
    ∀ task ∈ x.agenda, ∀ t, task.via? = some t → m.Avoids k t
  unique : ∀ k e e', (k, e) ∈ x.run.store.aborted → (k, e') ∈ x.run.store.aborted → e = e'

/-- In the beginning no procedure was given up. -/
theorem guarded_start : Guarded m (start (m.taintProblem config) {}) := by
  have hstore : (start (m.taintProblem config) {}).run.store = {} := by
    refine (Run.visits_start (m.taintProblem config) {}).preserves
      (I := fun r => r.store = ({} : Findings)) ?_ rfl
    rintro seed - r _ hr rfl
    simpa using hr
  exact ⟨by simp [hstore], by simp [hstore]⟩

/-- A procedure that was given up stays so, for the same reason. -/
theorem Step.mem_aborted_iff (h : Step (m.taintProblem config) m.supergraph via x y)
    (hk : (k, e) ∈ x.run.store.aborted) :
    (k, e') ∈ y.run.store.aborted ↔ (k, e') ∈ x.run.store.aborted := by
  cases h with
  | takeUp => rfl
  | @perform run done task rest next hnext =>
    rw [Run.store_perform]
    cases task.flow? with
    | none => rfl
    | some flow => exact Program.mem_aborted_flow_iff hk

/-- A fact that a step records has nothing to do with a procedure that was given up. -/
theorem Step.avoids (h : Step (m.taintProblem config) m.supergraph via x y) (hx : Guarded m x)
    (hk : (k, e) ∈ x.run.store.aborted) {t : Transfer Nat} (hvia : via = some t) :
    m.Avoids k t := by
  cases h with
  | takeUp => simp at hvia
  | perform hnext => exact hx.avoids k e hk _ List.mem_cons_self t hvia

section Perform

variable {run : Run Nat Fact Findings} {task next : Task Nat Fact} {t : Transfer Nat}

/-- What follows from a task does not record facts that have to do with a procedure which was given
up before. -/
theorem avoids_of_mem_perform (hm : m.WellFormed)
    (htask : ∀ t d, task.flow? = some (t, d) → m.supergraph.Allows t)
    (hk : (k, e) ∈ run.store.aborted)
    (hnext : next ∈ (run.perform (m.taintProblem config) m.supergraph task).1)
    (hvia : next.via? = some t) : m.Avoids k t := by
  rcases Run.mem_perform_cases hnext with ⟨-, t', d, hflow, hvia', d', hd'⟩ | ⟨hnone, -⟩
  · obtain rfl : t' = t := Option.some.inj (hvia'.symm.trans hvia)
    exact hm.avoids_of_mem_flow (htask t' d hflow) hk hd'
  · simp [hnone] at hvia

/-- Performing a task gives up no procedure, or it carries a fact on inside a procedure that was not
given up before, and then nothing is recorded because of it. -/
theorem aborted_perform_cases (m : Program) (config : Config) (run : Run Nat Fact Findings)
    (task : Task Nat Fact) :
    (run.perform (m.taintProblem config) m.supergraph task).2.store.aborted = run.store.aborted ∨
      task.IsNormal ∧
        (∀ next ∈ (run.perform (m.taintProblem config) m.supergraph task).1, next.via? = none) ∧
        ∃ k e, (∀ e, (k, e) ∉ run.store.aborted) ∧
          (run.perform (m.taintProblem config) m.supergraph task).2.store.aborted =
            Sorted.put k e run.store.aborted := by
  rw [Run.store_perform]
  cases hflow : task.flow? with
  | none => exact .inl rfl
  | some applied =>
    obtain ⟨t, d⟩ := applied
    rcases Program.aborted_flow_cases m config t d run.store with
      hsame | ⟨b, s, k, e, rfl, hfresh, hput, hnil⟩
    · exact .inl hsame
    · refine .inr ⟨⟨b, s, d, hflow⟩, fun next hnext => ?_, k, e, hfresh, hput⟩
      rcases Run.mem_perform_cases hnext with ⟨-, t', d', hflow', -, d₁, hd₁⟩ | ⟨hnone, -⟩
      · obtain ⟨rfl, rfl⟩ := Prod.mk.inj (Option.some.inj (hflow.symm.trans hflow'))
        simp [hnil] at hd₁
      · exact hnone

end Perform

/-- A step leaves no fact to be recorded that has to do with a procedure which was given up, also if
it was given up in this step. -/
theorem Step.guarded (hm : m.WellFormed) (h : Step (m.taintProblem config) m.supergraph via x y)
    (horderly : Orderly m.supergraph x) (hx : Guarded m x) : Guarded m y := by
  cases h with
  | takeUp he hnew =>
    refine ⟨fun k e hk task htask t hvia => ?_, hx.unique⟩
    simp [via?_of_mem_ofEdge htask] at hvia
  | @perform run done task rest next hnext =>
    have hrest : ∀ later ∈ rest, task.IsNormal → later.via? = none :=
      (List.pairwise_cons.mp horderly.normal_last).1
    rcases aborted_perform_cases m config run task with
      hsame | ⟨hnormal, hnone, k₀, e₀, hfresh, hput⟩
    · constructor
      · intro k e hk later hlater t hvia
        simp only [hsame] at hk
        rcases List.mem_append.mp hlater with hlater | hlater
        · exact avoids_of_mem_perform hm (horderly.allows task List.mem_cons_self) hk
            (hnext.mem_iff.mp hlater) hvia
        · exact hx.avoids k e hk later (List.mem_cons_of_mem _ hlater) t hvia
      · intro k e e' he he'
        simp only [hsame] at he he'
        exact hx.unique k e e' he he'
    · -- The procedure is given up now, and nothing is left but the links of the same node.
      constructor
      · intro k e _ later hlater t hvia
        rcases List.mem_append.mp hlater with hlater | hlater
        · simp [hnone later (hnext.mem_iff.mp hlater)] at hvia
        · simp [hrest later hlater hnormal] at hvia
      · intro k e e' he he'
        simp only [hput] at he he'
        by_cases hkey : k = k₀
        · subst hkey
          have honly : ∀ e, (k, e) ∈ Sorted.put k e₀ run.store.aborted → e = e₀ := by
            intro e he
            rcases Sorted.eq_or_mem_of_mem_put he with heq | hold
            · exact (Prod.mk.inj heq).2
            · exact absurd hold (hfresh e)
          rw [honly e he, honly e' he']
        · rw [Sorted.mem_put_iff_of_ne hkey] at he he'
          exact hx.unique k e e' he he'

/-- What is left to be recorded avoids the procedures that were given up, through any number of
steps. -/
theorem Leads.guarded (hm : m.WellFormed) (h : Leads (m.taintProblem config) m.supergraph x y)
    (horderly : Orderly m.supergraph x) (hx : Guarded m x) : Guarded m y := by
  induction h with
  | refl => exact hx
  | @tail y z hleads hstep ih =>
    obtain ⟨via, hstep⟩ := hstep
    exact hstep.guarded hm (Leads.orderly hleads horderly) ih

/-- A procedure that was given up stays so through any number of steps. -/
theorem Leads.mem_aborted (h : Leads (m.taintProblem config) m.supergraph x y)
    (hk : (k, e) ∈ x.run.store.aborted) : (k, e) ∈ y.run.store.aborted := by
  induction h with
  | refl => exact hk
  | tail _ hstep ih =>
    obtain ⟨via, hstep⟩ := hstep
    exact (hstep.mem_aborted_iff ih).mpr ih

end Moment

namespace Program

/-- A moment of a run of the analysis, whatever the order of its work. -/
def MomentOfRun (m : Program) (config : Config) (x : Moment Nat Fact Findings) : Prop :=
  Moment.Leads (m.taintProblem config) m.supergraph (.start (m.taintProblem config) {}) x

/-- What a step leaves as it is once a procedure was given up. -/
structure LeftAlone (k : Nat) (p : Procedure) (e : RegionError) (via : Option (Transfer Nat))
    (y z : Moment Nat Fact Findings) : Prop where
  /-- No path edge is added at an instruction of the procedure. -/
  edges : ∀ edge ∈ z.run.edges, edge.node ∈ p.insts → edge ∈ y.run.edges
  /-- No fact is recorded that was returned from the procedure. -/
  returns : ∀ exit returnSite site, via = some (.ret exit returnSite site) → exit ∉ p.insts
  /-- The reason for which the procedure was given up stays, and is the only one. -/
  reason : ∀ e', (k, e') ∈ z.run.store.aborted ↔ e' = e

variable {m : Program} {config : Config} {x y z : Moment Nat Fact Findings}
  {via : Option (Transfer Nat)} {k : Nat} {p : Procedure} {e : RegionError}

/-- The instructions that a procedure lists are those that say they are in it. -/
theorem WellFormed.mem_insts_iff_procOf? (hm : m.WellFormed) (hp : m.procedure? k = some p)
    {n : Nat} : n ∈ p.insts ↔ m.procOf? n = some k := by
  rw [hm.mem_procedure_insts_iff hp]
  simp [procOf?]

/-- A step from a moment at which a procedure was given up leaves it alone. -/
theorem WellFormed.leftAlone (hm : m.WellFormed) (hp : m.procedure? k = some p)
    (hy : y.Guarded m) (hk : (k, e) ∈ y.run.store.aborted)
    (h : Moment.Step (m.taintProblem config) m.supergraph via y z) : LeftAlone k p e via y z where
  edges edge hedge hnode := by
    rcases h.mem_edges_or hedge with hold | ⟨t, hvia, htarget⟩
    · exact hold
    · have havoids := h.avoids hy hk hvia t.target t.target_mem_nodes
      rw [← htarget] at havoids
      exact absurd ((hm.mem_insts_iff_procOf? hp).mp hnode) havoids
  returns exit returnSite site hvia hexit := by
    have havoids := h.avoids hy hk hvia exit (by simp [Transfer.nodes])
    exact havoids ((hm.mem_insts_iff_procOf? hp).mp hexit)
  reason e' := by
    rw [h.mem_aborted_iff hk]
    constructor
    · intro he'
      exact hy.unique k e' e he' hk
    · rintro rfl
      exact hk

end Program

/-- A procedure that was given up is frozen, whatever the order of the work and at whichever point
of it. From every moment after the procedure was given up, each step adds no path edge at an
instruction of the procedure and records no fact that was returned from it, and the procedure stays
given up for the reason for which it first was. Every run in any order is one of these moments. -/
theorem leftAlone_of_mem_aborted {m : Program} (hm : m.Built) (config : Config) :
    (∀ done run, Run.Scheduled (m.taintProblem config) m.supergraph {} done run →
      m.MomentOfRun config ⟨run, done, []⟩) ∧
    ∀ x, m.MomentOfRun config x → ∀ k p e, m.procedure? k = some p →
      (k, e) ∈ x.run.store.aborted → ∀ y via z,
        Moment.Leads (m.taintProblem config) m.supergraph x y →
        Moment.Step (m.taintProblem config) m.supergraph via y z →
        Program.LeftAlone k p e via y z := by
  refine ⟨fun done run => Moment.leads_of_scheduled, ?_⟩
  intro x hx k p e hp hk y via z hleads hstep
  have hy : m.MomentOfRun config y := hx.trans hleads
  have hguarded := Moment.Leads.guarded hm.wellFormed hy (Moment.orderly_start _)
    Moment.guarded_start
  exact hm.wellFormed.leftAlone hp hguarded (Moment.Leads.mem_aborted hleads hk) hstep

namespace Program

/-- The path edge that brings taint to a branch whose region has no end. -/
def taintedBranch : PathEdge Nat Fact := ⟨.zero, 5, .value (.result 3)⟩

/-- The run when the branch is about to be followed. -/
def beforeBranch : Run Nat Fact Findings :=
  (unmergedBranches.limitedRun {} 6).takeUp taintedBranch

/-- The moment at which the branch has given up its procedure, while its second link is still to be
followed. -/
def halfBranched : Moment Nat Fact Findings where
  run := (beforeBranch.perform (unmergedBranches.taintProblem {}) unmergedBranches.supergraph
    (.link taintedBranch (.normal 6))).2
  done := taintedBranch :: (Run.visited (unmergedBranches.taintProblem {})
    unmergedBranches.supergraph 6 (.start (unmergedBranches.taintProblem {}) {})).reverse
  agenda := [.link taintedBranch (.normal 7)]

/-- The moment after its second link was followed too. -/
def fullyBranched : Moment Nat Fact Findings where
  run := (halfBranched.run.perform (unmergedBranches.taintProblem {}) unmergedBranches.supergraph
    (.link taintedBranch (.normal 7))).2
  done := halfBranched.done

/-- The moment between the two links of the branch is one of a run. -/
theorem momentOfRun_halfBranched : unmergedBranches.MomentOfRun {} halfBranched := by
  have hscheduled := Run.scheduled_solve (unmergedBranches.taintProblem {})
    unmergedBranches.supergraph 6 {}
  have htasks : Task.ofEdge unmergedBranches.supergraph taintedBranch =
      [.link taintedBranch (.normal 6), .link taintedBranch (.normal 7)] := by decide +kernel
  have hnothing : (beforeBranch.perform (unmergedBranches.taintProblem {})
      unmergedBranches.supergraph (.link taintedBranch (.normal 6))).1 = [] := by decide +kernel
  have htakeUp := (Moment.leads_of_scheduled hscheduled).tail
    ⟨none, .takeUp (e := taintedBranch) (by decide +kernel) (by decide +kernel)⟩
  rw [htasks] at htakeUp
  exact htakeUp.tail ⟨none, Moment.step_of_perform_eq (Prod.ext hnothing rfl) (.refl [])⟩

/-- The second link is followed without recording a fact. -/
theorem step_halfBranched : Moment.Step (unmergedBranches.taintProblem {})
    unmergedBranches.supergraph none halfBranched fullyBranched := by
  have hnothing : (halfBranched.run.perform (unmergedBranches.taintProblem {})
      unmergedBranches.supergraph (.link taintedBranch (.normal 7))).1 = [] := by decide +kernel
  exact Moment.step_of_perform_eq (Prod.ext hnothing rfl) (.refl [])

end Program

/-- The second link of the branch is followed when the procedure has been given up already. -/
theorem leftAlone_of_mem_aborted_halfBranched :
    (1, .noMergeBlock "main" "entry" 5) ∈ Program.halfBranched.run.store.aborted ∧
      ∃ p, Program.unmergedBranches.procedure? 1 = some p ∧
        Program.LeftAlone 1 p (.noMergeBlock "main" "entry" 5) none Program.halfBranched
          Program.fullyBranched := by
  have hk : (1, .noMergeBlock "main" "entry" 5) ∈ Program.halfBranched.run.store.aborted := by
    decide +kernel
  obtain ⟨p, hp⟩ : ∃ p, Program.unmergedBranches.procedure? 1 = some p :=
    Option.isSome_iff_exists.mp (by decide +kernel)
  have hleft := (leftAlone_of_mem_aborted (Program.built_constructed _ _) {}).2 _
    Program.momentOfRun_halfBranched 1 p _ hp hk _ none _ .refl Program.step_halfBranched
  exact ⟨hk, p, hp, hleft⟩

end TaintTrail

import Mathlib.Logic.Relation
import Mathlib.Tactic.TFAE
import TaintTrail.Proofs.Analysis.GivenUp
import TaintTrail.Proofs.Analysis.Settings

/-!
# Where control can get

Every flow function gives the zero fact back for the zero fact, so it follows control from the entry
points on: inside procedures, into callees and past calls. A fact that comes back from a callee
brings nothing new, since control gets past the call anyway. Therefore wherever a run has recorded
any fact, in whatever context, it has also recorded the zero fact in the context of the zero fact.
-/

namespace TaintTrail

/-! ## Control in a supergraph -/

section Supergraph

variable {ν φ σ : Type} [DecidableEq ν] {p : Problem ν φ σ} {g : Supergraph ν}
  {f : Transfer ν → φ → List φ}

/-- Control can go from one node to another inside a procedure, into a callee or past a call. -/
def Supergraph.Proceeds (g : Supergraph ν) (n n' : ν) : Prop :=
  (n, .normal n') ∈ g.links ∨ (n, .call n') ∈ g.links ∨ (n, .callToReturn n') ∈ g.links

/-- Control can get from one node to another. -/
def Supergraph.Reaches (g : Supergraph ν) : ν → ν → Prop := Relation.ReflTransGen g.Proceeds

/-- Control gets from a seed to wherever a path edge is entailed. On the way back from a callee it
need not have gone through the callee. -/
theorem Entailed.exists_reaches (hg : g.WellShaped) {e : PathEdge ν φ} (he : Entailed p g f e) :
    ∃ seed ∈ p.seeds, g.Reaches seed.1 e.node := by
  induction he with
  | seed hseed => exact ⟨_, hseed, .refl⟩
  | normal _ hlink _ ih =>
    obtain ⟨seed, hseed, hreaches⟩ := ih
    exact ⟨seed, hseed, hreaches.tail (.inl hlink)⟩
  | callToReturn _ hlink _ ih =>
    obtain ⟨seed, hseed, hreaches⟩ := ih
    exact ⟨seed, hseed, hreaches.tail (.inr (.inr hlink))⟩
  | call _ hlink _ ih =>
    obtain ⟨seed, hseed, hreaches⟩ := ih
    exact ⟨seed, hseed, hreaches.tail (.inr (.inl hlink))⟩
  | ret _ _ _ _ _ _ hret _ ihcaller _ =>
    obtain ⟨seed, hseed, hreaches⟩ := ihcaller
    obtain ⟨-, -, -, -, hsite⟩ := (hg.ret_iff _ _ _).mp hret
    have hpast := Supergraph.callToReturn_mem_of_returnSite? hsite
    exact ⟨seed, hseed, hreaches.tail (.inr (.inr hpast))⟩

/-- If the flow functions give the zero fact back for it, the zero fact follows control. -/
theorem Entailed.zero_of_reaches (hzero : ∀ t, g.Has t → p.zero ∈ f t p.zero) {n n' : ν}
    (hn : Entailed p g f ⟨p.zero, n, p.zero⟩) (h : g.Reaches n n') :
    Entailed p g f ⟨p.zero, n', p.zero⟩ := by
  induction h with
  | refl => exact hn
  | tail _ hstep ih =>
    rcases hstep with hnormal | hcall | hpast
    · exact ih.normal hnormal (hzero (.normal _ _) hnormal)
    · exact ih.call hcall (hzero (.call _ _) hcall)
    · exact ih.callToReturn hpast (hzero (.callToReturn _ _) hpast)

end Supergraph

/-! ## Control in a program -/

/-- A node is reachable if a path edge leads to it. -/
theorem Report.isReachable_iff {r : Report} {n : Nat} :
    r.isReachable n = true ↔ ∃ e ∈ r.run.edges, e.node = n := by
  simp only [isReachable, Array.any_eq_true', decide_eq_true_eq]

namespace Program

variable {m : Program} {config : Config} {run : Run Nat Fact Findings}

/-- Control can get from the start of an entry point to wherever a path edge is entailed. -/
theorem WellFormed.exists_start_reaches (hm : m.WellFormed) {e : PathEdge Nat Fact}
    (he : Entailed (m.taintProblem config) m.supergraph (m.outcomes config) e) :
    ∃ start ∈ m.starts config, m.supergraph.Reaches start e.node := by
  obtain ⟨seed, hseed, hreaches⟩ := he.exists_reaches hm.wellShaped_supergraph
  obtain ⟨start, hstart, rfl⟩ := List.mem_map.mp hseed
  exact ⟨start, hstart, hreaches⟩

/-- Wherever control can get from the start of an entry point, the zero fact is entailed. -/
theorem WellFormed.entailed_zero_of_reaches (hm : m.WellFormed) {start n : Nat}
    (hstart : start ∈ m.starts config) (h : m.supergraph.Reaches start n) :
    Entailed (m.taintProblem config) m.supergraph (m.outcomes config) ⟨.zero, n, .zero⟩ := by
  have hseed : (start, .zero) ∈ (m.taintProblem config).seeds := List.mem_map_of_mem hstart
  exact Entailed.zero_of_reaches (fun t => hm.zero_mem_outcomes config) (.seed hseed) h

/-- A run whose report names no procedure that was given up has given up none. -/
theorem PartialRun.aborted_eq_nil (hm : m.WellFormed) (h : m.PartialRun config run)
    (hnames : run.store.abortedNames m = []) : run.store.aborted = [] := by
  rw [List.eq_nil_iff_forall_not_mem]
  rintro ⟨k, e⟩ hmem
  have hdecided := h.decided_of_mem_aborted hmem
  obtain ⟨-, p, b, hp, -⟩ := h.exists_stoppedBy_of_decided hm hdecided
  obtain ⟨e', hname⟩ := Findings.exists_mem_abortedNames hmem hp
  simp [hnames] at hname

end Program

open Program

/-- After a run of the analysis that comes to an end, in whatever order it does its work, and gives
up no procedure, these say the same of an instruction: it is reported to be reachable, the zero fact
is reported before it, the path edge of the zero fact is recorded in the context of the zero fact,
and control can get to it from the first instruction of an entry point. -/
theorem isReachable_tfae_reaches {r : Report} {config : Config} (hm : r.program.Built)
    (hrun : r.program.FinishedRun config r.run) (haborted : r.aborted = []) (n : Nat) :
    [r.isReachable n = true,
      .zero ∈ r.factsBefore n,
      ⟨.zero, n, .zero⟩ ∈ r.run.edges,
      ∃ start ∈ r.program.starts config, r.program.supergraph.Reaches start n].TFAE := by
  have hwf := hm.wellFormed
  have hpartial : r.program.PartialRun config r.run := hrun.imp fun _ h => h.1
  have hquiet : r.run.store.aborted = [] := PartialRun.aborted_eq_nil hwf hpartial haborted
  tfae_have 1 → 4 := by
    intro hreachable
    obtain ⟨e, he, rfl⟩ := Report.isReachable_iff.mp hreachable
    exact hwf.exists_start_reaches ((hrun.mem_edges_iff hwf hquiet).mp he)
  tfae_have 4 → 3 := by
    rintro ⟨start, hstart, hreaches⟩
    exact (hrun.mem_edges_iff hwf hquiet).mpr (hwf.entailed_zero_of_reaches hstart hreaches)
  tfae_have 3 → 2 := by
    intro he
    exact Report.mem_factsBefore.mpr (hpartial.mem_factsAt.mpr ⟨_, he⟩)
  tfae_have 2 → 1 := by
    intro hzero
    obtain ⟨source, he⟩ := hpartial.mem_factsAt.mp (Report.mem_factsBefore.mp hzero)
    exact Report.isReachable_iff.mpr ⟨_, he, rfl⟩
  tfae_finish

/-- Calls a procedure that never returns; another one is never called. -/
def Program.spinning : Program :=
  constructed "spinning"
    [.define "spin" [] .void false, .block "loop", .positionAt 0, .emit (.jump 0) .void,
      .define "unused" [] .void false, .emit (.ret none) .void,
      .define "main" [] .void false, .emit (.call (.direct "spin") []) .void,
      .emit (.ret none) .void]

/-- The instruction after the call counts as reachable although the call never returns, and the
procedure that is never called does not. -/
theorem isReachable_tfae_reaches_spinning :
    (∃ start ∈ spinning.starts {}, spinning.supergraph.Reaches start 3) ∧
      ¬∃ start ∈ spinning.starts {}, spinning.supergraph.Reaches start 1 := by
  have hrun : spinning.FinishedRun {} (spinning.limitedRun {} 20) :=
    Run.finished_of_isComplete (by decide +kernel)
  have htfae := isReachable_tfae_reaches (r := ⟨spinning, spinning.limitedRun {} 20⟩)
    (built_constructed _ _) hrun (by decide +kernel)
  have hafter : (Report.mk spinning (spinning.limitedRun {} 20)).isReachable 3 = true := by
    decide +kernel
  have hunused : (Report.mk spinning (spinning.limitedRun {} 20)).isReachable 1 = false := by
    decide +kernel
  refine ⟨((htfae 3).out 0 3).mp hafter, fun hreaches => ?_⟩
  have hreachable := ((htfae 1).out 0 3).mpr hreaches
  simp [hunused] at hreachable

end TaintTrail

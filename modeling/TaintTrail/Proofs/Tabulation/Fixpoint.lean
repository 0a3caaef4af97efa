import TaintTrail.Proofs.Supergraph.WellShaped
import TaintTrail.Proofs.Tabulation.Entailment
import TaintTrail.Proofs.Tabulation.Growth

/-!
# Complete runs reach the least tables

A run in any order finds only what follows from the problem, and a run that has followed every path
edge has found all of it. The flow functions may be disturbed by the store: as long as the store is
quiet they give what is expected of them, otherwise possibly less, and certain applications, the
alarms, end the quiet for good. Whether a complete run ends quietly depends on the problem alone.

A caller and a way through its callee are brought together by whichever of the two is found second.
That all pairs have been brought together is the invariant that makes complete tables closed.
-/

namespace TaintTrail

variable {ν φ σ : Type}

/-- The store disturbs the flow functions only after an alarm: in a quiet store they are `f`, in any
other they give no more than `f`, and the quiet ends exactly with an application that is an
alarm. -/
structure Problem.Steady (p : Problem ν φ σ) (f : Transfer ν → φ → List φ) (Quiet : σ → Prop)
    (Alarm : Transfer ν → φ → Prop) : Prop where
  flow_subset : ∀ t d s, ∀ d' ∈ (p.flow t d s).1, d' ∈ f t d
  flow_eq : ∀ t d s, Quiet s → (p.flow t d s).1 = f t d
  quiet_iff : ∀ t d s, Quiet (p.flow t d s).2 ↔ Quiet s ∧ ¬Alarm t d

/-- The path edges and the summaries of a run as sets. -/
def Run.tables (run : Run ν φ σ) : Tables ν φ := ⟨{e | e ∈ run.edges}, {s | s ∈ run.summaries}⟩

/-- All the facts in the tables of a run. -/
def Run.recorded (run : Run ν φ σ) : List φ :=
  ((run.edges.toList ++ run.waiting).flatMap fun e => [e.source, e.fact]) ++
    (run.facts.map (·.2) ++
      ((run.incoming.flatMap fun c => [c.entryFact, c.source, c.fact]) ++
        ((run.endSummaries.flatMap fun s => [s.entryFact, s.fact]) ++
          run.summaries.flatMap fun s => [s.fact, s.returned])))

variable [DecidableEq ν] [DecidableEq φ]

namespace Run

section Sound

variable (p : Problem ν φ σ) (g : Supergraph ν) (f : Transfer ν → φ → List φ)

/-- A caller that the problem entails. -/
def Registered (c : Incoming ν φ) : Prop :=
  Entailed p g f ⟨c.source, c.site, c.fact⟩ ∧ (c.site, .call c.entry) ∈ g.links ∧
    c.entryFact ∈ f (.call c.site c.entry) c.fact

/-- A way through a procedure that the problem entails. -/
def Concluded (s : EndSummary ν φ) : Prop :=
  Entailed p g f ⟨s.entryFact, s.exit, s.fact⟩ ∧ g.isExit s.exit = true ∧
    g.entryOf? s.exit = some s.entry

/-- The tables hold only what the problem entails, and the quiet has ended only by an alarm that it
entails. -/
structure Sound (Quiet : σ → Prop) (Alarm : Transfer ν → φ → Prop) (run : Run ν φ σ) : Prop where
  edges : ∀ e ∈ run.edges, Entailed p g f e
  incoming : ∀ c ∈ run.incoming, Registered p g f c
  endSummaries : ∀ s ∈ run.endSummaries, Concluded p g f s
  summaries : ∀ s ∈ run.summaries, EntailedSummary p g f s
  store : Quiet run.store ∨ ∃ t d, Applied p g f t d ∧ Alarm t d

end Sound

section Closed

variable (g : Supergraph ν) (f : Transfer ν → φ → List φ) (Alarm : Transfer ν → φ → Prop)

/-- What a way through a callee comes to has been brought to a return site of a caller, without an
alarm. -/
def ReturnedAt (c : Incoming ν φ) (s : EndSummary ν φ) (r : ν) (run : Run ν φ σ) : Prop :=
  ¬Alarm (.ret s.exit r c.site) s.fact ∧ ∀ d ∈ f (.ret s.exit r c.site) s.fact,
    ⟨c.source, r, d⟩ ∈ run.edges ∧ ⟨c.site, c.fact, d⟩ ∈ run.summaries

/-- A caller and a way through its callee have been brought together. -/
def Returned (c : Incoming ν φ) (s : EndSummary ν φ) (run : Run ν φ σ) : Prop :=
  ∀ r, (s.exit, .ret r c.site) ∈ g.links → ReturnedAt f Alarm c s r run

/-- Every caller and every way through its callee have been brought together. -/
def Joined (run : Run ν φ σ) : Prop :=
  ∀ c ∈ run.incoming, ∀ s ∈ run.endSummaries, s.entry = c.entry → s.entryFact = c.entryFact →
    Returned g f Alarm c s run

/-- A path edge has been carried along a link without an alarm. Links back are not followed from
the node but by bringing callers and ways through callees together. -/
def Carried (e : PathEdge ν φ) (run : Run ν φ σ) : Link ν → Prop
  | .normal m => ¬Alarm (.normal e.node m) e.fact ∧
      ∀ d ∈ f (.normal e.node m) e.fact, ⟨e.source, m, d⟩ ∈ run.edges
  | .callToReturn r => ¬Alarm (.callToReturn e.node r) e.fact ∧
      ∀ d ∈ f (.callToReturn e.node r) e.fact, ⟨e.source, r, d⟩ ∈ run.edges
  | .call entry => ¬Alarm (.call e.node entry) e.fact ∧
      ∀ d ∈ f (.call e.node entry) e.fact,
        ⟨d, entry, d⟩ ∈ run.edges ∧ ⟨entry, d, e.node, e.source, e.fact⟩ ∈ run.incoming
  | .ret _ _ => True

/-- All that following a path edge has to bring about. -/
def Exhausted (e : PathEdge ν φ) (run : Run ν φ σ) : Prop :=
  (∀ link, (e.node, link) ∈ g.links → Carried f Alarm e run link) ∧
    ∀ entry, g.isExit e.node = true → g.entryOf? e.node = some entry →
      ⟨entry, e.source, e.node, e.fact⟩ ∈ run.endSummaries

variable {g f Alarm} {run run' : Run ν φ σ}

omit [DecidableEq ν] [DecidableEq φ] in
/-- What was brought to a return site stays there. -/
theorem ReturnedAt.mono {c : Incoming ν φ} {s : EndSummary ν φ} {r : ν}
    (hcont : Continues run run') (h : ReturnedAt f Alarm c s r run) :
    ReturnedAt f Alarm c s r run' :=
  ⟨h.1, fun d hd => ⟨hcont.mem_edges (h.2 d hd).1, hcont.summaries _ (h.2 d hd).2⟩⟩

omit [DecidableEq ν] [DecidableEq φ] in
/-- What was brought together stays so. -/
theorem Returned.mono {c : Incoming ν φ} {s : EndSummary ν φ} (hcont : Continues run run')
    (h : Returned g f Alarm c s run) : Returned g f Alarm c s run' :=
  fun r hret => (h r hret).mono hcont

omit [DecidableEq ν] [DecidableEq φ] in
/-- What was carried along a link stays so. -/
theorem Carried.mono {e : PathEdge ν φ} {link : Link ν} (hcont : Continues run run')
    (h : Carried f Alarm e run link) : Carried f Alarm e run' link := by
  cases link with
  | normal m => exact ⟨h.1, fun d hd => hcont.mem_edges (h.2 d hd)⟩
  | callToReturn r => exact ⟨h.1, fun d hd => hcont.mem_edges (h.2 d hd)⟩
  | call entry =>
    exact ⟨h.1, fun d hd => ⟨hcont.mem_edges (h.2 d hd).1, hcont.incoming _ (h.2 d hd).2⟩⟩
  | ret r c => trivial

omit [DecidableEq φ] in
/-- What following a path edge has brought about stays so. -/
theorem Exhausted.mono {e : PathEdge ν φ} (hcont : Continues run run')
    (h : Exhausted g f Alarm e run) : Exhausted g f Alarm e run' :=
  ⟨fun link hlink => (h.1 link hlink).mono hcont,
    fun entry hexit hentry => hcont.endSummaries _ (h.2 entry hexit hentry)⟩

end Closed

section Steps

variable {p : Problem ν φ σ} {g : Supergraph ν} {f : Transfer ν → φ → List φ} {Quiet : σ → Prop}
  {Alarm : Transfer ν → φ → Prop} {run run' : Run ν φ σ}

omit [DecidableEq φ] in
/-- A caller and a way through its callee that the problem entails make a way through the callee
from the caller's path edge. -/
theorem crossing_of_registered {c : Incoming ν φ} {s : EndSummary ν φ} {r : ν}
    (hc : Registered p g f c) (hs : Concluded p g f s) (hentry : s.entry = c.entry)
    (hfact : s.entryFact = c.entryFact) (hret : (s.exit, .ret r c.site) ∈ g.links) :
    Crossing (Entailed p g f) g f ⟨c.source, c.site, c.fact⟩ s.exit s.fact r :=
  ⟨c.entry, c.entryFact, hc.1, hc.2.1, hc.2.2, hfact ▸ hs.1, hs.2.1, hentry ▸ hs.2.2, hret⟩

omit [DecidableEq φ] in
/-- After the application of a flow function it is quiet, or a transfer that applies has given an
alarm. -/
theorem Sound.quiet_or_alarm_flow {t : Transfer ν} {fact : φ} (hp : p.Steady f Quiet Alarm)
    (happlied : Applied p g f t fact) (hs : Sound p g f Quiet Alarm run) :
    Quiet (p.flow t fact run.store).2 ∨ ∃ t d, Applied p g f t d ∧ Alarm t d := by
  rw [hp.quiet_iff]
  by_cases halarm : Alarm t fact
  · exact Or.inr ⟨t, fact, happlied, halarm⟩
  · exact hs.store.imp_left fun hquiet => ⟨hquiet, halarm⟩

omit [DecidableEq φ] in
/-- Applying a flow function as the problem has it adds only what the problem entails. -/
theorem Applies.sound {t : Transfer ν} {fact : φ} {edge : φ → PathEdge ν φ}
    {summaries : φ → List (Summary ν φ)} (hp : p.Steady f Quiet Alarm)
    (h : Applies p t fact edge summaries run run') (happlied : Applied p g f t fact)
    (hedge : ∀ d ∈ f t fact, Entailed p g f (edge d))
    (hsummary : ∀ d ∈ f t fact, ∀ s ∈ summaries d, EntailedSummary p g f s)
    (hs : Sound p g f Quiet Alarm run) : Sound p g f Quiet Alarm run' where
  edges e he := by
    rcases (h.mem_edges e).mp he with he | ⟨d, hd, rfl⟩
    · exact hs.edges e he
    · exact hedge d (hp.flow_subset _ _ _ d hd)
  incoming c hc := hs.incoming c (h.incoming ▸ hc)
  endSummaries s hs' := hs.endSummaries s (h.endSummaries ▸ hs')
  summaries s hmem := by
    rcases (h.mem_summaries s).mp hmem with hmem | ⟨d, hd, hmem⟩
    · exact hs.summaries s hmem
    · exact hsummary d (hp.flow_subset _ _ _ d hd) s hmem
  store := by
    rw [h.store]
    exact hs.quiet_or_alarm_flow hp happlied

omit [DecidableEq ν] [DecidableEq φ] in
/-- If it is quiet after the application of a flow function, it was quiet before, there was no alarm
and everything that is expected came out. -/
theorem Applies.exact {t : Transfer ν} {fact : φ} {edge : φ → PathEdge ν φ}
    {summaries : φ → List (Summary ν φ)} (hp : p.Steady f Quiet Alarm)
    (h : Applies p t fact edge summaries run run') (hquiet : Quiet run'.store) :
    Quiet run.store ∧ ¬Alarm t fact ∧
      ∀ d ∈ f t fact, edge d ∈ run'.edges ∧ ∀ s ∈ summaries d, s ∈ run'.summaries := by
  rw [h.store, hp.quiet_iff] at hquiet
  refine ⟨hquiet.1, hquiet.2, fun d hd => ?_⟩
  rw [← hp.flow_eq t fact _ hquiet.1] at hd
  exact ⟨(h.mem_edges _).mpr (Or.inr ⟨d, hd, rfl⟩),
    fun s hs => (h.mem_summaries s).mpr (Or.inr ⟨d, hd, hs⟩)⟩

/-- A run goes on from another, and if it is quiet then the other was quiet. -/
def Proceeds (Quiet : σ → Prop) (run run' : Run ν φ σ) : Prop :=
  Continues run run' ∧ (Quiet run'.store → Quiet run.store)

omit [DecidableEq ν] [DecidableEq φ] in
/-- A run proceeds to itself. -/
theorem Proceeds.refl (run : Run ν φ σ) : Proceeds Quiet run run := ⟨.refl run, id⟩

omit [DecidableEq ν] [DecidableEq φ] in
/-- A run that proceeds twice proceeds. -/
theorem Proceeds.trans {run'' : Run ν φ σ} (h : Proceeds Quiet run run')
    (h' : Proceeds Quiet run' run'') : Proceeds Quiet run run'' :=
  ⟨h.1.trans h'.1, fun hquiet => h.2 (h'.2 hquiet)⟩

/-- A stretch of a run that stays sound, meets no new caller and no new way through a procedure, and
reaches a goal if it is quiet in the end. -/
structure Settles (p : Problem ν φ σ) (g : Supergraph ν) (f : Transfer ν → φ → List φ)
    (Quiet : σ → Prop) (Alarm : Transfer ν → φ → Prop) (G : Run ν φ σ → Prop)
    (run run' : Run ν φ σ) : Prop where
  sound : Sound p g f Quiet Alarm run'
  proceeds : Proceeds Quiet run run'
  incoming : run'.incoming = run.incoming
  endSummaries : run'.endSummaries = run.endSummaries
  goal : Quiet run'.store → G run'

omit [DecidableEq φ] in
/-- Visits that each reach a goal of their own, which is not lost later, reach all of them. -/
theorem Settles.of_visits {α : Type} {R : α → Run ν φ σ → Run ν φ σ → Prop}
    {G : α → Run ν φ σ → Prop} {as : List α} (hvisits : Visits R as run run')
    (hmono : ∀ a r r', Continues r r' → G a r → G a r')
    (hstep : ∀ a ∈ as, ∀ r r', Sound p g f Quiet Alarm r → R a r r' →
      Settles p g f Quiet Alarm (G a) r r')
    (hrun : Sound p g f Quiet Alarm run) :
    Settles p g f Quiet Alarm (fun r => ∀ a ∈ as, G a r) run run' := by
  induction hvisits with
  | nil => exact ⟨hrun, .refl _, rfl, rfl, fun _ a ha => absurd ha List.not_mem_nil⟩
  | @cons a as r s t hvisit hrest ih =>
    have hfirst := hstep a List.mem_cons_self r s hrun hvisit
    have hlater := ih (fun b hb => hstep b (List.mem_cons_of_mem a hb)) hfirst.sound
    refine ⟨hlater.sound, hfirst.proceeds.trans hlater.proceeds,
      hlater.incoming.trans hfirst.incoming, hlater.endSummaries.trans hfirst.endSummaries,
      fun hquiet b hb => ?_⟩
    rcases List.mem_cons.mp hb with rfl | hb
    · exact hmono b s t hlater.proceeds.1 (hfirst.goal (hlater.proceeds.2 hquiet))
    · exact hlater.goal hquiet b hb

omit [DecidableEq φ] in
/-- Visits in any order that each reach a goal of their own reach all of them. -/
theorem Settles.of_visitsAll {α : Type} {R : α → Run ν φ σ → Run ν φ σ → Prop}
    {G : α → Run ν φ σ → Prop} {as : List α} (hvisits : VisitsAll R as run run')
    (hmono : ∀ a r r', Continues r r' → G a r → G a r')
    (hstep : ∀ a ∈ as, ∀ r r', Sound p g f Quiet Alarm r → R a r r' →
      Settles p g f Quiet Alarm (G a) r r')
    (hrun : Sound p g f Quiet Alarm run) :
    Settles p g f Quiet Alarm (fun r => ∀ a ∈ as, G a r) run run' := by
  obtain ⟨bs, hperm, hvisits⟩ := hvisits
  have hall := of_visits hvisits hmono (fun b hb => hstep b (hperm.mem_iff.mp hb)) hrun
  exact ⟨hall.sound, hall.proceeds, hall.incoming, hall.endSummaries,
    fun hquiet a ha => hall.goal hquiet a (hperm.mem_iff.mpr ha)⟩

/-- Returning from a concluded way through a callee to a registered caller. -/
theorem Returns.settles {c : Incoming ν φ} {s : EndSummary ν φ} {r : ν}
    (hp : p.Steady f Quiet Alarm) (h : Returns p s.exit s.fact r c run run')
    (hc : Registered p g f c) (hconcluded : Concluded p g f s) (hentry : s.entry = c.entry)
    (hfact : s.entryFact = c.entryFact) (hret : (s.exit, .ret r c.site) ∈ g.links)
    (hrun : Sound p g f Quiet Alarm run) :
    Settles p g f Quiet Alarm (ReturnedAt f Alarm c s r) run run' := by
  have hcross := crossing_of_registered hc hconcluded hentry hfact hret
  have happlies := h.applies
  refine ⟨?_, ⟨happlies.continues, fun hquiet => (happlies.exact hp hquiet).1⟩,
    happlies.incoming, happlies.endSummaries, fun hquiet => ?_⟩
  · refine happlies.sound hp (.ret hcross) (fun d hd => .of_crossing hcross hd) ?_ hrun
    intro d hd summary hmem
    rw [List.mem_singleton.mp hmem]
    exact ⟨_, _, _, _, hcross, hd, rfl, rfl⟩
  · obtain ⟨-, halarm, hout⟩ := happlies.exact hp hquiet
    exact ⟨halarm, fun d hd => ⟨(hout d hd).1, (hout d hd).2 _ List.mem_cons_self⟩⟩

/-- Entering a callee on behalf of a registered caller is sound. -/
theorem Sound.register {c : Incoming ν φ} (hc : Registered p g f c)
    (hrun : Sound p g f Quiet Alarm run) : Sound p g f Quiet Alarm (run.register c) where
  edges e he := by
    simp only [Run.register, mem_propagate_edges] at he
    rcases he with he | rfl
    · exact hrun.edges e he
    · exact .call hc.1 hc.2.1 hc.2.2
  incoming c' hc' := by
    simp only [Run.register, propagate_incoming, List.mem_insert_iff] at hc'
    rcases hc' with rfl | hc'
    · exact hc
    · exact hrun.incoming c' hc'
  endSummaries := by simpa [Run.register] using hrun.endSummaries
  summaries := by simpa [Run.register] using hrun.summaries
  store := by simpa [Run.register] using hrun.store

/-- Noting a way through a procedure that the problem entails is sound. -/
theorem Sound.conclude {entry : ν} {e : PathEdge ν φ}
    (hs : Concluded p g f ⟨entry, e.source, e.node, e.fact⟩)
    (hrun : Sound p g f Quiet Alarm run) : Sound p g f Quiet Alarm (run.conclude entry e) where
  edges := hrun.edges
  incoming := hrun.incoming
  endSummaries s hs' := by
    simp only [Run.conclude, List.mem_insert_iff] at hs'
    rcases hs' with rfl | hs'
    · exact hs
    · exact hrun.endSummaries s hs'
  summaries := hrun.summaries
  store := hrun.store

/-- After the caller is noted, entering a callee brings it together with all ways through the callee
that are known. -/
theorem Enters.settles {c : Incoming ν φ} (hp : p.Steady f Quiet Alarm) (hg : g.WellShaped)
    (h : Enters p g c run run') (hc : Registered p g f c) (hrun : Sound p g f Quiet Alarm run) :
    Settles p g f Quiet Alarm
      (fun r => ∀ s ∈ (run.register c).known c, Returned g f Alarm c s r)
      (run.register c) run' := by
  have hregister := hrun.register hc
  have hknown : ∀ s ∈ (run.register c).known c, Concluded p g f s ∧ s.entry = c.entry ∧
      s.entryFact = c.entryFact ∧
      ∀ r, (s.exit, .ret r c.site) ∈ g.links ↔ g.returnSite? c.site = some r := by
    intro s hs
    simp only [known, List.mem_filter, Bool.and_eq_true, decide_eq_true_eq] at hs
    obtain ⟨hmem, hentry, hfact⟩ := hs
    have hconcluded := hregister.endSummaries s hmem
    exact ⟨hconcluded, hentry, hfact, fun r =>
      hg.ret_mem_iff hconcluded.2.1 hconcluded.2.2 (hentry ▸ hc.2.1)⟩
  unfold Enters at h
  split at h
  · next hsite =>
    subst h
    refine ⟨hregister, .refl _, rfl, rfl, fun _ s hs r hret => ?_⟩
    rw [(hknown s hs).2.2.2, hsite] at hret
    cases hret
  · next r hsite =>
    have hall := Settles.of_visitsAll (G := fun s r' => ReturnedAt f Alarm c s r r') h
      (fun s r r' hcont => ReturnedAt.mono hcont) ?_ hregister
    · refine ⟨hall.sound, hall.proceeds, hall.incoming, hall.endSummaries,
        fun hquiet s hs r' hret => ?_⟩
      rw [(hknown s hs).2.2.2, hsite, Option.some.injEq] at hret
      exact hret ▸ hall.goal hquiet s hs
    · intro s hs r₁ r₂ hr₁ hreturns
      obtain ⟨hconcluded, hentry, hfact, hret⟩ := hknown s hs
      have hcounted : Sound p g f Quiet Alarm { r₁ with reuses := r₁.reuses + 1 } :=
        ⟨hr₁.edges, hr₁.incoming, hr₁.endSummaries, hr₁.summaries, hr₁.store⟩
      have hsettles := Returns.settles hp hreturns hc hconcluded hentry hfact
        ((hret r).mpr hsite) hcounted
      have hcont := hsettles.proceeds.1
      exact ⟨hsettles.sound, ⟨⟨hcont.grows, hcont.nodup, hcont.notesFacts, hcont.incoming,
        hcont.endSummaries, hcont.summaries, hcont.followed⟩, hsettles.proceeds.2⟩,
        hsettles.incoming, hsettles.endSummaries, hsettles.goal⟩

/-- Returning along the links of an exit brings a caller together with the way to the exit. -/
theorem leaves_settles {c : Incoming ν φ} {s : EndSummary ν φ} {e : PathEdge ν φ}
    (hp : p.Steady f Quiet Alarm) (hexit : s.exit = e.node) (hexitFact : s.fact = e.fact)
    (h : Visits (LeavesBy p e c) (g.linksFrom e.node) run run') (hc : Registered p g f c)
    (hconcluded : Concluded p g f s) (hentry : s.entry = c.entry)
    (hfact : s.entryFact = c.entryFact) (hrun : Sound p g f Quiet Alarm run) :
    Settles p g f Quiet Alarm (Returned g f Alarm c s) run run' := by
  have hall := Settles.of_visits
    (G := fun link r => ∀ rs, link = .ret rs c.site → ReturnedAt f Alarm c s rs r) h
    (by intro link r r' hcont hgoal rs hlink; exact (hgoal rs hlink).mono hcont) ?_ hrun
  · refine ⟨hall.sound, hall.proceeds, hall.incoming, hall.endSummaries,
      fun hquiet r hret => hall.goal hquiet (.ret r c.site) ?_ r rfl⟩
    rwa [Supergraph.mem_linksFrom, ← hexit]
  · intro link hlink r r' hr hleaves
    rw [Supergraph.mem_linksFrom] at hlink
    -- Only a link back to the caller's own call does anything.
    have hidle : (∀ rs, link ≠ .ret rs c.site) → r' = r → Settles p g f Quiet Alarm
        (fun r => ∀ rs, link = .ret rs c.site → ReturnedAt f Alarm c s rs r) r r' := by
      rintro hne rfl
      exact ⟨hr, .refl _, rfl, rfl, fun _ rs heq => absurd heq (hne rs)⟩
    cases link with
    | ret rs site =>
      simp only [LeavesBy] at hleaves
      split at hleaves
      · next hsite =>
        subst hsite
        rw [← hexit, ← hexitFact] at hleaves
        have hsettles := hleaves.settles hp hc hconcluded hentry hfact (hexit ▸ hlink) hr
        refine ⟨hsettles.sound, hsettles.proceeds, hsettles.incoming, hsettles.endSummaries,
          fun hquiet rs' heq => ?_⟩
        obtain rfl : rs = rs' := by simpa using heq
        exact hsettles.goal hquiet
      · next hsite =>
        exact hidle (fun rs' heq => hsite (by simpa using (Link.ret.inj heq).2)) hleaves
    | _ => exact hidle (fun rs' => by simp) hleaves

/-- What holds of a run at all times: it is sound, and while it is quiet all callers and ways
through their callees have been brought together. -/
structure Consistent (p : Problem ν φ σ) (g : Supergraph ν) (f : Transfer ν → φ → List φ)
    (Quiet : σ → Prop) (Alarm : Transfer ν → φ → Prop) (run : Run ν φ σ) : Prop where
  sound : Sound p g f Quiet Alarm run
  joined : Quiet run.store → Joined g f Alarm run

/-- Going to another node of the procedure keeps a run consistent. -/
theorem Follows.consistent {t : Transfer ν} {source : φ} {target : ν} {fact : φ}
    (hp : p.Steady f Quiet Alarm) (h : Follows p t source target fact run run')
    (happlied : Applied p g f t fact)
    (hentailed : ∀ d ∈ f t fact, Entailed p g f ⟨source, target, d⟩)
    (hrun : Consistent p g f Quiet Alarm run) :
    Consistent p g f Quiet Alarm run' ∧ Proceeds Quiet run run' ∧
      (Quiet run'.store → ¬Alarm t fact ∧ ∀ d ∈ f t fact, ⟨source, target, d⟩ ∈ run'.edges) := by
  have happlies := h.applies
  have hsound := happlies.sound hp happlied hentailed (by simp) hrun.sound
  refine ⟨⟨hsound, fun hquiet c hc s hs hentry hfact => ?_⟩,
    ⟨happlies.continues, fun hquiet => (happlies.exact hp hquiet).1⟩, fun hquiet => ?_⟩
  · rw [happlies.incoming] at hc
    rw [happlies.endSummaries] at hs
    have hold := hrun.joined (happlies.exact hp hquiet).1 c hc s hs hentry hfact
    exact hold.mono happlies.continues
  · obtain ⟨-, halarm, hout⟩ := happlies.exact hp hquiet
    exact ⟨halarm, fun d hd => (hout d hd).1⟩

/-- Entering a callee on behalf of a registered caller keeps a run consistent. -/
theorem Enters.consistent {c : Incoming ν φ} (hp : p.Steady f Quiet Alarm) (hg : g.WellShaped)
    (h : Enters p g c run run') (hc : Registered p g f c)
    (hrun : Consistent p g f Quiet Alarm run) :
    Consistent p g f Quiet Alarm run' ∧ Proceeds Quiet run run' ∧
      ⟨c.entryFact, c.entry, c.entryFact⟩ ∈ run'.edges ∧ c ∈ run'.incoming := by
  have hsettles := h.settles hp hg hc hrun.sound
  have hproceeds : Proceeds Quiet run run' :=
    .trans ⟨continues_register run c, by simp [register]⟩ hsettles.proceeds
  have hedge : ⟨c.entryFact, c.entry, c.entryFact⟩ ∈ (run.register c).edges := by simp [register]
  have hmem : c ∈ (run.register c).incoming := by simp [register]
  refine ⟨⟨hsettles.sound, fun hquiet c' hc' s hs hentry hfact => ?_⟩, hproceeds,
    hsettles.proceeds.1.mem_edges hedge, hsettles.incoming ▸ hmem⟩
  rw [hsettles.endSummaries] at hs
  rw [hsettles.incoming] at hc'
  simp only [register, propagate_incoming, List.mem_insert_iff] at hc'
  rcases hc' with rfl | hc'
  · exact hsettles.goal hquiet s (by simp [known, hs, hentry, hfact])
  · have hs' : s ∈ run.endSummaries := by simpa [register] using hs
    exact (hrun.joined (hproceeds.2 hquiet) c' hc' s hs' hentry hfact).mono hproceeds.1

/-- Applying a flow function as the problem has it keeps a run consistent, before anything is done
with the facts that come out. -/
theorem transfer_consistent {t : Transfer ν} {fact : φ} (hp : p.Steady f Quiet Alarm)
    (happlied : Applied p g f t fact) (hrun : Consistent p g f Quiet Alarm run) :
    Consistent p g f Quiet Alarm (transfer p t fact run).2 ∧
      Proceeds Quiet run (transfer p t fact run).2 ∧
      (∀ d ∈ (transfer p t fact run).1, d ∈ f t fact) ∧
      (Quiet (transfer p t fact run).2.store →
        ¬Alarm t fact ∧ ∀ d ∈ f t fact, d ∈ (transfer p t fact run).1) := by
  have hquiet : Quiet (transfer p t fact run).2.store ↔ Quiet run.store ∧ ¬Alarm t fact :=
    hp.quiet_iff t fact run.store
  have hsound : Sound p g f Quiet Alarm (transfer p t fact run).2 :=
    { hrun.sound with store := hrun.sound.quiet_or_alarm_flow hp happlied }
  have hcontinues : Continues run (transfer p t fact run).2 :=
    .of_edges_eq rfl rfl rfl (fun _ h => h) (fun _ h => h) (fun _ h => h) rfl
  refine ⟨⟨hsound, fun h => hrun.joined (hquiet.mp h).1⟩, ⟨hcontinues, fun h => (hquiet.mp h).1⟩,
    fun d hd => ?_, fun h => ⟨(hquiet.mp h).2, fun d hd => ?_⟩⟩
  · exact hp.flow_subset t fact run.store d (by simpa [transfer] using hd)
  · rw [← hp.flow_eq t fact run.store (hquiet.mp h).1] at hd
    simpa [transfer] using hd

/-- Following a link of an entailed path edge keeps a run consistent. -/
theorem FollowsLink.consistent {e : PathEdge ν φ} {link : Link ν} (hp : p.Steady f Quiet Alarm)
    (hg : g.WellShaped) (he : Entailed p g f e) (hlink : (e.node, link) ∈ g.links)
    (h : FollowsLink p g e link run run') (hrun : Consistent p g f Quiet Alarm run) :
    Consistent p g f Quiet Alarm run' ∧ Proceeds Quiet run run' ∧
      (Quiet run'.store → Carried f Alarm e run' link) := by
  cases link with
  | normal m => exact Follows.consistent hp h (.normal he hlink) (fun d => .normal he hlink) hrun
  | callToReturn r =>
    exact Follows.consistent hp h (.callToReturn he hlink) (fun d => .callToReturn he hlink) hrun
  | ret r c =>
    obtain rfl : run' = run := h
    exact ⟨hrun, .refl _, fun _ => trivial⟩
  | call entry =>
    -- First the flow function of the call is applied, then each fact that comes out enters.
    obtain ⟨hmid, hbefore, hsub, hexact⟩ := transfer_consistent hp (.call he hlink) hrun
    have henters : ∀ d ∈ (transfer p (.call e.node entry) e.fact run).1, ∀ r r',
        Consistent p g f Quiet Alarm r → Enters p g ⟨entry, d, e.node, e.source, e.fact⟩ r r' →
        Consistent p g f Quiet Alarm r' ∧ Proceeds Quiet r r' ∧ ⟨d, entry, d⟩ ∈ r'.edges ∧
          ⟨entry, d, e.node, e.source, e.fact⟩ ∈ r'.incoming :=
      fun d hd r r' hr henter => henter.consistent hp hg ⟨he, hlink, hsub d hd⟩ hr
    have hafter : Consistent p g f Quiet Alarm run' ∧
        Proceeds Quiet (transfer p (.call e.node entry) e.fact run).2 run' := by
      refine VisitsAll.preserves (I := fun r => Consistent p g f Quiet Alarm r ∧
        Proceeds Quiet (transfer p (.call e.node entry) e.fact run).2 r) h ?_ ⟨hmid, .refl _⟩
      intro d hd r r' hr henter
      obtain ⟨hconsistent, hproceeds, -, -⟩ := henters d hd r r' hr.1 henter
      exact ⟨hconsistent, hr.2.trans hproceeds⟩
    have hentered : ∀ d ∈ (transfer p (.call e.node entry) e.fact run).1,
        ⟨d, entry, d⟩ ∈ run'.edges ∧ ⟨entry, d, e.node, e.source, e.fact⟩ ∈ run'.incoming := by
      refine VisitsAll.establishes (I := Consistent p g f Quiet Alarm)
        (Q := fun d r => ⟨d, entry, d⟩ ∈ r.edges ∧
          ⟨entry, d, e.node, e.source, e.fact⟩ ∈ r.incoming) h ?_ ?_ hmid
      · intro d hd r r' hr henter
        obtain ⟨hconsistent, -, hedge, hincoming⟩ := henters d hd r r' hr henter
        exact ⟨hconsistent, hedge, hincoming⟩
      · intro d hd d' _ r r' hr henter hold
        have hcont := (henters d hd r r' hr henter).2.1.1
        exact ⟨hcont.mem_edges hold.1, hcont.incoming _ hold.2⟩
    refine ⟨hafter.1, hbefore.trans hafter.2, fun hquiet => ?_⟩
    obtain ⟨halarm, hout⟩ := hexact (hafter.2.2 hquiet)
    exact ⟨halarm, fun d hd => hentered d (hout d hd)⟩

/-- Noting a way through a procedure and returning to all callers keeps a run consistent. -/
theorem FollowsExit.consistent {e : PathEdge ν φ} (hp : p.Steady f Quiet Alarm)
    (he : Entailed p g f e) (hexit : g.isExit e.node = true) (h : FollowsExit p g e run run')
    (hrun : Consistent p g f Quiet Alarm run) :
    Consistent p g f Quiet Alarm run' ∧ Proceeds Quiet run run' ∧
      ∀ entry, g.entryOf? e.node = some entry →
        ⟨entry, e.source, e.node, e.fact⟩ ∈ run'.endSummaries := by
  unfold FollowsExit at h
  split at h
  · next hentry =>
    subst h
    exact ⟨hrun, .refl _, fun entry howner => by simp [hentry] at howner⟩
  · next entry hentry =>
    have hconcluded : Concluded p g f ⟨entry, e.source, e.node, e.fact⟩ := ⟨he, hexit, hentry⟩
    have hsound := hrun.sound.conclude hconcluded
    have hall := Settles.of_visitsAll
      (G := fun c r => Returned g f Alarm c ⟨entry, e.source, e.node, e.fact⟩ r) h
      (fun c r r' hcont => Returned.mono hcont) ?_ hsound
    · have hproceeds : Proceeds Quiet run run' :=
        .trans ⟨continues_conclude run entry e, id⟩ hall.proceeds
      refine ⟨⟨hall.sound, fun hquiet c hc s hs hsentry hsfact => ?_⟩, hproceeds,
        fun entry' howner => ?_⟩
      · rw [hall.incoming] at hc
        rw [hall.endSummaries] at hs
        simp only [conclude, List.mem_insert_iff] at hs
        rcases hs with rfl | hs
        · exact hall.goal hquiet c (by simpa [callers] using ⟨hc, hsentry.symm, hsfact.symm⟩)
        · exact (hrun.joined (hproceeds.2 hquiet) c hc s hs hsentry hsfact).mono hproceeds.1
      · obtain rfl : entry = entry' := by simpa [hentry] using howner
        rw [hall.endSummaries]
        simp [conclude]
    · intro c hc r r' hr hleaves
      simp only [callers, List.mem_filter, Bool.and_eq_true, decide_eq_true_eq] at hc
      obtain ⟨hmem, hcentry, hcfact⟩ := hc
      exact leaves_settles hp rfl rfl hleaves (hsound.incoming c hmem) hconcluded hcentry.symm
        hcfact.symm hr

/-- Following an entailed path edge keeps a run consistent and exhausts the path edge. -/
theorem FollowsEdge.consistent {e : PathEdge ν φ} (hp : p.Steady f Quiet Alarm)
    (hg : g.WellShaped) (he : Entailed p g f e) (h : FollowsEdge p g e run run')
    (hrun : Consistent p g f Quiet Alarm run) :
    Consistent p g f Quiet Alarm run' ∧ Proceeds Quiet run run' ∧
      (Quiet run'.store → Exhausted g f Alarm e run') := by
  obtain ⟨mid, hlinks, hexit⟩ := h
  have hlink : ∀ link ∈ g.linksFrom e.node, ∀ r r', Consistent p g f Quiet Alarm r →
      FollowsLink p g e link r r' → Consistent p g f Quiet Alarm r' ∧ Proceeds Quiet r r' ∧
        (Quiet r'.store → Carried f Alarm e r' link) :=
    fun link hlink r r' hr hfollows =>
      hfollows.consistent hp hg he (Supergraph.mem_linksFrom.mp hlink) hr
  have hmid : Consistent p g f Quiet Alarm mid ∧ Proceeds Quiet run mid := by
    refine hlinks.preserves (I := fun r => Consistent p g f Quiet Alarm r ∧ Proceeds Quiet run r)
      ?_ ⟨hrun, .refl _⟩
    intro link hmem r r' hr hfollows
    obtain ⟨hconsistent, hproceeds, -⟩ := hlink link hmem r r' hr.1 hfollows
    exact ⟨hconsistent, hr.2.trans hproceeds⟩
  have hcarried : ∀ link ∈ g.linksFrom e.node, Quiet mid.store → Carried f Alarm e mid link := by
    refine hlinks.establishes (I := Consistent p g f Quiet Alarm)
      (Q := fun link r => Quiet r.store → Carried f Alarm e r link) ?_ ?_ hrun
    · intro link hmem r r' hr hfollows
      obtain ⟨hconsistent, -, hgoal⟩ := hlink link hmem r r' hr hfollows
      exact ⟨hconsistent, hgoal⟩
    · intro link hmem link' _ r r' hr hfollows hold hquiet
      obtain ⟨-, hproceeds, -⟩ := hlink link hmem r r' hr hfollows
      exact (hold (hproceeds.2 hquiet)).mono hproceeds.1
  split at hexit
  · next hisExit =>
    obtain ⟨hconsistent, hproceeds, hends⟩ := hexit.consistent hp he hisExit hmid.1
    refine ⟨hconsistent, hmid.2.trans hproceeds, fun hquiet => ⟨fun link hmem => ?_,
      fun entry _ howner => hends entry howner⟩⟩
    exact (hcarried link (Supergraph.mem_linksFrom.mpr hmem) (hproceeds.2 hquiet)).mono hproceeds.1
  · next hisExit =>
    subst hexit
    exact ⟨hmid.1, hmid.2, fun hquiet => ⟨fun link hmem =>
      hcarried link (Supergraph.mem_linksFrom.mpr hmem) hquiet,
      fun entry hyes => absurd hyes hisExit⟩⟩

end Steps

section Runs

variable {p : Problem ν φ σ} {g : Supergraph ν} {f : Transfer ν → φ → List φ} {Quiet : σ → Prop}
  {Alarm : Transfer ν → φ → Prop} {store : σ} {done : List (PathEdge ν φ)} {run : Run ν φ σ}

/-- At the start the path edges are those of the seeds, and the other tables are empty. -/
theorem start_spec (p : Problem ν φ σ) (store : σ) :
    (∀ e, e ∈ (start p store).edges ↔ ∃ seed ∈ p.seeds, e = ⟨p.zero, seed.1, seed.2⟩) ∧
      (start p store).incoming = [] ∧ (start p store).endSummaries = [] ∧
      (start p store).summaries = [] ∧ (start p store).store = store := by
  have hvisits := visits_start p store
  have honly : (∀ e ∈ (start p store).edges, ∃ seed ∈ p.seeds, e = ⟨p.zero, seed.1, seed.2⟩) ∧
      (start p store).incoming = [] ∧ (start p store).endSummaries = [] ∧
      (start p store).summaries = [] ∧ (start p store).store = store := by
    refine hvisits.preserves (I := fun r =>
      (∀ e ∈ r.edges, ∃ seed ∈ p.seeds, e = ⟨p.zero, seed.1, seed.2⟩) ∧ r.incoming = [] ∧
      r.endSummaries = [] ∧ r.summaries = [] ∧ r.store = store) ?_ (by simp)
    rintro seed hseed r _ ⟨hedges, hrest⟩ rfl
    refine ⟨fun e he => ?_, by simpa using hrest⟩
    rcases (mem_propagate_edges r _ _ _).mp he with he | rfl
    · exact hedges e he
    · exact ⟨seed, hseed, rfl⟩
  refine ⟨fun e => ⟨honly.1 e, ?_⟩, honly.2⟩
  rintro ⟨seed, hseed, rfl⟩
  refine hvisits.establishes (I := fun _ => True)
    (Q := fun seed r => ⟨p.zero, seed.1, seed.2⟩ ∈ r.edges) ?_ ?_ trivial seed hseed
  · rintro seed _ r _ - rfl
    exact ⟨trivial, by simp⟩
  · rintro seed _ seed' _ r _ - rfl hold
    exact (continues_propagate r _ _ _).mem_edges hold

/-- A run in any order stays consistent, and while it is quiet the path edges that were followed are
exhausted. -/
theorem Scheduled.consistent (hp : p.Steady f Quiet Alarm) (hg : g.WellShaped)
    (hstore : Quiet store) (h : Scheduled p g store done run) :
    Consistent p g f Quiet Alarm run ∧
      (Quiet run.store → ∀ e ∈ done, Exhausted g f Alarm e run) := by
  induction h with
  | start =>
    obtain ⟨hedges, hincoming, hends, hsummaries, hstart⟩ := start_spec p store
    refine ⟨⟨⟨fun e he => ?_, by simp [hincoming], by simp [hends], by simp [hsummaries],
      Or.inl (by rwa [hstart])⟩, fun _ c hc => by simp [hincoming] at hc⟩, by simp⟩
    obtain ⟨seed, hseed, rfl⟩ := (hedges e).mp he
    exact .seed hseed
  | @follow done run run' e _ he _ hfollows ih =>
    obtain ⟨hrun, hdone⟩ := ih
    have hcounted : Consistent p g f Quiet Alarm (run.takeUp e) :=
      ⟨⟨hrun.sound.edges, hrun.sound.incoming, hrun.sound.endSummaries, hrun.sound.summaries,
        hrun.sound.store⟩, hrun.joined⟩
    obtain ⟨hconsistent, hproceeds, hexhausted⟩ :=
      hfollows.consistent hp hg (hrun.sound.edges e he) hcounted
    refine ⟨hconsistent, fun hquiet e' he' => ?_⟩
    rcases List.mem_cons.mp he' with rfl | he'
    · exact hexhausted hquiet
    · exact (hdone (hproceeds.2 hquiet) e' he').mono hproceeds.1

/-- Path edges are entailed whenever they are found. -/
theorem Scheduled.entailed (hp : p.Steady f Quiet Alarm) (hg : g.WellShaped)
    (hstore : Quiet store) (h : Scheduled p g store done run) {e : PathEdge ν φ}
    (he : e ∈ run.edges) : Entailed p g f e :=
  (h.consistent hp hg hstore).1.sound.edges e he

/-- Whatever fact a run records is one of an entailed path edge. -/
theorem Scheduled.exists_entailed_of_mem_recorded (hp : p.Steady f Quiet Alarm)
    (hg : g.WellShaped) (hstore : Quiet store) (h : Scheduled p g store done run) {d : φ}
    (hd : d ∈ run.recorded) : ∃ e, Entailed p g f e ∧ (d = e.source ∨ d = e.fact) := by
  have hsound := (h.consistent hp hg hstore).1.sound
  simp only [recorded, List.mem_append, List.mem_flatMap, List.mem_map, Array.mem_toList_iff,
    List.mem_cons, List.not_mem_nil, or_false] at hd
  obtain ⟨e, he, hd⟩ | ⟨⟨n, _⟩, hfact, rfl⟩ | ⟨c, hc, hd⟩ | ⟨s, hs, hd⟩ | ⟨s, hs, hd⟩ := hd
  · have hedge : e ∈ run.edges := he.elim id fun hwaits => (h.mem_waiting_iff.mp hwaits).1
    exact ⟨e, hsound.edges e hedge, hd⟩
  · obtain ⟨source, he⟩ := (h.notesFacts n _).mp hfact
    exact ⟨_, hsound.edges _ he, .inr rfl⟩
  · obtain ⟨hcaller, hlink, hentry⟩ := hsound.incoming c hc
    obtain rfl | hd := hd
    · exact ⟨_, .call hcaller hlink hentry, .inr rfl⟩
    · exact ⟨_, hcaller, hd⟩
  · exact ⟨_, (hsound.endSummaries s hs).1, hd⟩
  · obtain ⟨caller, exit, exitFact, r, hcross, hreturned, -, hfact⟩ := hsound.summaries s hs
    obtain rfl | rfl := hd
    · obtain ⟨-, -, hcaller, -⟩ := hcross
      exact ⟨caller, hcaller, .inr hfact⟩
    · exact ⟨_, .of_crossing hcross hreturned, .inr rfl⟩

/-- When a complete run ends quietly, a way through a callee has been brought back to its caller. -/
theorem Finished.returned (hp : p.Steady f Quiet Alarm) (hg : g.WellShaped) (hstore : Quiet store)
    (h : Finished p g store run) (hquiet : Quiet run.store) {caller : PathEdge ν φ} {exit r : ν}
    {exitFact : φ} (hcross : Crossing (· ∈ run.edges) g f caller exit exitFact r) :
    ¬Alarm (.ret exit r caller.node) exitFact ∧ ∀ d ∈ f (.ret exit r caller.node) exitFact,
      ⟨caller.source, r, d⟩ ∈ run.edges ∧ ⟨caller.node, caller.fact, d⟩ ∈ run.summaries := by
  obtain ⟨done, hscheduled, hall⟩ := h
  obtain ⟨hconsistent, hexhausted⟩ := hscheduled.consistent hp hg hstore
  obtain ⟨entry, entryFact, hcaller, hcall, hentry, hexit, hisExit, howner, hret⟩ := hcross
  -- The caller was noted when its path edge was followed, and so was the way to the exit.
  have hincoming := (((hexhausted hquiet _ (hall _ hcaller)).1 _ hcall).2 entryFact hentry).2
  have hends := (hexhausted hquiet _ (hall _ hexit)).2 entry hisExit howner
  exact hconsistent.joined hquiet _ hincoming _ hends rfl rfl r hret

/-- When a complete run ends quietly, every path edge has been carried along every link. -/
theorem Finished.carried (hp : p.Steady f Quiet Alarm) (hg : g.WellShaped) (hstore : Quiet store)
    (h : Finished p g store run) (hquiet : Quiet run.store) {e : PathEdge ν φ}
    (he : e ∈ run.edges) {link : Link ν} (hlink : (e.node, link) ∈ g.links) :
    Carried f Alarm e run link := by
  obtain ⟨done, hscheduled, hall⟩ := h
  exact ((hscheduled.consistent hp hg hstore).2 hquiet e (hall e he)).1 link hlink

/-- The tables of a complete run that ends quietly are closed under the rules. -/
theorem Finished.closed (hp : p.Steady f Quiet Alarm) (hg : g.WellShaped) (hstore : Quiet store)
    (h : Finished p g store run) (hquiet : Quiet run.store) : run.tables.Closed p g f where
  seed n d hseed := by
    have hstart : ⟨p.zero, n, d⟩ ∈ (start p store).edges :=
      ((start_spec p store).1 _).mpr ⟨(n, d), hseed, rfl⟩
    obtain ⟨done, hscheduled, -⟩ := h
    exact hscheduled.mem_edges_of_start hstart
  normal _ he _ hlink := (h.carried hp hg hstore hquiet he hlink).2
  callToReturn _ he _ hlink := (h.carried hp hg hstore hquiet he hlink).2
  call _ he _ hlink d hd := ((h.carried hp hg hstore hquiet he hlink).2 d hd).1
  ret _ _ _ _ hcross := (h.returned hp hg hstore hquiet hcross).2

/-- A complete run that ends quietly has found exactly what the problem entails. -/
theorem Finished.tables_eq (hp : p.Steady f Quiet Alarm) (hg : g.WellShaped)
    (hstore : Quiet store) (h : Finished p g store run) (hquiet : Quiet run.store) :
    run.tables = Tables.entailed p g f := by
  have hclosed := h.closed hp hg hstore hquiet
  obtain ⟨done, hscheduled, -⟩ := h
  have hsound := (hscheduled.consistent hp hg hstore).1.sound
  have hedges : run.tables.edges = {e | Entailed p g f e} :=
    Set.Subset.antisymm hsound.edges fun e he => hclosed.mem_of_entailed he
  have hsummaries : run.tables.summaries = {s | EntailedSummary p g f s} :=
    Set.Subset.antisymm hsound.summaries fun s hs => hclosed.mem_of_entailedSummary hs
  rw [Tables.entailed, ← hedges, ← hsummaries]

/-- A complete run ends quietly exactly when no application that the problem entails is an alarm. -/
theorem Finished.quiet_iff (hp : p.Steady f Quiet Alarm) (hg : g.WellShaped)
    (hstore : Quiet store) (h : Finished p g store run) :
    Quiet run.store ↔ ∀ t d, Applied p g f t d → ¬Alarm t d := by
  constructor
  · intro hquiet t d happlied
    have hclosed := h.closed hp hg hstore hquiet
    cases happlied with
    | normal he hlink =>
      exact (h.carried hp hg hstore hquiet (hclosed.mem_of_entailed he) hlink).1
    | callToReturn he hlink =>
      exact (h.carried hp hg hstore hquiet (hclosed.mem_of_entailed he) hlink).1
    | call he hlink =>
      exact (h.carried hp hg hstore hquiet (hclosed.mem_of_entailed he) hlink).1
    | ret hcross => exact (h.returned hp hg hstore hquiet (hclosed.crossing_of_entailed hcross)).1
  · intro hnone
    obtain ⟨done, hscheduled, -⟩ := h
    rcases (hscheduled.consistent hp hg hstore).1.sound.store with hquiet | ⟨t, d, happlied, halarm⟩
    · exact hquiet
    · exact absurd halarm (hnone t d happlied)

/-- Before a node of a complete run that ended quietly stand the facts of the entailed path edges
that end there. -/
theorem Finished.mem_factsAt (hp : p.Steady f Quiet Alarm) (hg : g.WellShaped)
    (hstore : Quiet store) (h : Finished p g store run) (hquiet : Quiet run.store) {n : ν} {d : φ} :
    d ∈ run.factsAt n ↔ ∃ source, Entailed p g f ⟨source, n, d⟩ := by
  have htables := congrArg Tables.edges (h.tables_eq hp hg hstore hquiet)
  obtain ⟨done, hscheduled, -⟩ := h
  rw [hscheduled.mem_factsAt]
  exact exists_congr fun source => Set.ext_iff.mp htables ⟨source, n, d⟩

end Runs

end Run

end TaintTrail

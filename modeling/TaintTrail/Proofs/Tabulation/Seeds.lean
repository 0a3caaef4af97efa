import TaintTrail.Proofs.Tabulation.ValidPath

/-!
# Seeds

How what a problem entails depends on its seeds. Inside a procedure a path edge depends only on the
fact at the entry, whichever seed or caller brought it there. So when the seeds are split in two
parts, a path edge is entailed exactly if one of the parts entails it: no path edge needs both, not
even one that comes back from a callee which the other part has gone through.
-/

namespace TaintTrail

variable {ν φ σ : Type} [DecidableEq ν] {p p' : Problem ν φ σ} {g : Supergraph ν}
  {f : Transfer ν → φ → List φ}

/-! ## More seeds -/

/-- More seeds entail more path edges. -/
theorem Entailed.mono_seeds (hzero : p.zero = p'.zero) (hseeds : p.seeds ⊆ p'.seeds)
    {e : PathEdge ν φ} (he : Entailed p g f e) : Entailed p' g f e := by
  induction he with
  | seed hseed => exact hzero ▸ .seed (hseeds hseed)
  | normal _ hlink hd ih => exact .normal ih hlink hd
  | callToReturn _ hlink hd ih => exact .callToReturn ih hlink hd
  | call _ hlink hd ih => exact .call ih hlink hd
  | ret _ hcall hentry _ hisExit howner hret hd ihcaller ihexit =>
    exact .ret ihcaller hcall hentry ihexit hisExit howner hret hd

/-- A way through a callee stays one when there are more path edges. -/
theorem Crossing.mono {E E' : PathEdge ν φ → Prop} (hE : ∀ e, E e → E' e) {caller : PathEdge ν φ}
    {exit r : ν} {exitFact : φ} (h : Crossing E g f caller exit exitFact r) :
    Crossing E' g f caller exit exitFact r := by
  obtain ⟨entry, entryFact, hcaller, hcall, hentry, hexit, hrest⟩ := h
  exact ⟨entry, entryFact, hE _ hcaller, hcall, hentry, hE _ hexit, hrest⟩

/-- With more path edges more flow functions are applied. -/
theorem Applied.mono (hE : ∀ e, Entailed p g f e → Entailed p' g f e) {t : Transfer ν} {d : φ}
    (h : Applied p g f t d) : Applied p' g f t d := by
  cases h with
  | normal he hlink => exact .normal (hE _ he) hlink
  | callToReturn he hlink => exact .callToReturn (hE _ he) hlink
  | call he hlink => exact .call (hE _ he) hlink
  | ret hcross => exact .ret (hcross.mono hE)

/-- With more path edges there are more summaries. -/
theorem EntailedSummary.mono (hE : ∀ e, Entailed p g f e → Entailed p' g f e) {s : Summary ν φ}
    (h : EntailedSummary p g f s) : EntailedSummary p' g f s := by
  obtain ⟨caller, exit, exitFact, r, hcross, hrest⟩ := h
  exact ⟨caller, exit, exitFact, r, hcross.mono hE, hrest⟩

/-! ## Seeds in two parts -/

section Parts

variable (hg : g.WellShaped) (hzero : ∀ n d, (n, d) ∈ p.seeds → d = p.zero)
  (hbegins : ∀ n d, (n, d) ∈ p.seeds → g.BeginsAt n)

include hg hzero hbegins

/-- Inside a procedure a path edge depends only on the fact at the entry: a problem with other seeds
that entails this fact entails the path edge. -/
theorem Entailed.of_entry {e : PathEdge ν φ} (he : Entailed p g f e) {entry : ν}
    (howner : g.entryOf? e.node = some entry)
    (hentry : Entailed p' g f ⟨e.source, entry, e.source⟩) : Entailed p' g f e := by
  induction he generalizing entry with
  | @seed n d hseed =>
    obtain rfl := hzero n d hseed
    obtain rfl := hbegins n _ hseed entry howner
    exact hentry
  | normal _ hlink hd ih =>
    rw [hg.normal_entryOf _ _ hlink] at howner
    exact .normal (ih howner hentry) hlink hd
  | callToReturn _ hlink hd ih =>
    rw [hg.callToReturn_entryOf _ _ hlink] at howner
    exact .callToReturn (ih howner hentry) hlink hd
  | call _ hlink _ _ =>
    obtain rfl := Option.some.inj ((hg.call_entryOf _ _ hlink).symm.trans howner)
    exact hentry
  | ret _ hcall hcallee _ hisExit hexit hret hd ihcaller ihexit =>
    -- The return site is in the procedure of the caller, so the caller's path edge is entailed. It
    -- brings the fact to the entry of the callee.
    obtain ⟨-, -, -, -, hsite⟩ := (hg.ret_iff _ _ _).mp hret
    have hreturn := hg.callToReturn_entryOf _ _ (Supergraph.callToReturn_mem_of_returnSite? hsite)
    have hcaller := ihcaller (hreturn ▸ howner) hentry
    exact .ret hcaller hcall hcallee (ihexit hexit (.call hcaller hcall hcallee)) hisExit hexit hret
      hd

/-- A way through a callee is one for every problem that entails the caller's path edge. -/
theorem Crossing.of_caller {caller : PathEdge ν φ} {exit r : ν} {exitFact : φ}
    (h : Crossing (Entailed p g f) g f caller exit exitFact r)
    (hcaller : Entailed p' g f caller) :
    Crossing (Entailed p' g f) g f caller exit exitFact r := by
  obtain ⟨entry, entryFact, -, hcall, hentry, hexit, hisExit, howner, hret⟩ := h
  have hbegin : Entailed p' g f ⟨entryFact, entry, entryFact⟩ := .call hcaller hcall hentry
  exact ⟨entry, entryFact, hcaller, hcall, hentry, hexit.of_entry hg hzero hbegins howner hbegin,
    hisExit, howner, hret⟩

variable {p₁ p₂ : Problem ν φ σ} (hzero₁ : p₁.zero = p.zero) (hzero₂ : p₂.zero = p.zero)
  (hseeds : ∀ seed, seed ∈ p.seeds ↔ seed ∈ p₁.seeds ∨ seed ∈ p₂.seeds)

include hzero₁ hzero₂ hseeds

/-- When the seeds are split in two parts, a path edge is entailed exactly if one of the parts
entails it. -/
theorem entailed_iff_of_seeds {e : PathEdge ν φ} :
    Entailed p g f e ↔ Entailed p₁ g f e ∨ Entailed p₂ g f e := by
  constructor
  · intro he
    induction he with
    | seed hseed =>
      refine ((hseeds _).mp hseed).imp (fun hseed => ?_) fun hseed => ?_
      · exact hzero₁ ▸ .seed hseed
      · exact hzero₂ ▸ .seed hseed
    | normal _ hlink hd ih => exact ih.imp (.normal · hlink hd) (.normal · hlink hd)
    | callToReturn _ hlink hd ih =>
      exact ih.imp (.callToReturn · hlink hd) (.callToReturn · hlink hd)
    | call _ hlink hd ih => exact ih.imp (.call · hlink hd) (.call · hlink hd)
    | @ret caller entry exit r entryFact exitFact d hcaller hcall hentry hexit hisExit howner hret
        hd ihcaller _ =>
      -- The part that entails the caller's path edge goes through the callee itself.
      have hcross : Crossing (Entailed p g f) g f caller exit exitFact r :=
        ⟨entry, entryFact, hcaller, hcall, hentry, hexit, hisExit, howner, hret⟩
      refine ihcaller.imp (fun h => ?_) fun h => ?_
      · exact .of_crossing (hcross.of_caller hg hzero hbegins h) hd
      · exact .of_crossing (hcross.of_caller hg hzero hbegins h) hd
  · rintro (he | he)
    · exact he.mono_seeds hzero₁ fun seed hseed => (hseeds seed).mpr (.inl hseed)
    · exact he.mono_seeds hzero₂ fun seed hseed => (hseeds seed).mpr (.inr hseed)

/-- When the seeds are split in two parts, a summary is entailed exactly if one of the parts entails
it. -/
theorem entailedSummary_iff_of_seeds {s : Summary ν φ} :
    EntailedSummary p g f s ↔ EntailedSummary p₁ g f s ∨ EntailedSummary p₂ g f s := by
  have hedges {e : PathEdge ν φ} :=
    entailed_iff_of_seeds (f := f) hg hzero hbegins hzero₁ hzero₂ hseeds (e := e)
  constructor
  · rintro ⟨caller, exit, exitFact, r, hcross, hrest⟩
    obtain ⟨-, -, hcaller, -⟩ := id hcross
    refine (hedges.mp hcaller).imp (fun h => ?_) fun h => ?_
    · exact ⟨caller, exit, exitFact, r, hcross.of_caller hg hzero hbegins h, hrest⟩
    · exact ⟨caller, exit, exitFact, r, hcross.of_caller hg hzero hbegins h, hrest⟩
  · rintro (hs | hs)
    · exact hs.mono fun e he => hedges.mpr (.inl he)
    · exact hs.mono fun e he => hedges.mpr (.inr he)

end Parts

end TaintTrail

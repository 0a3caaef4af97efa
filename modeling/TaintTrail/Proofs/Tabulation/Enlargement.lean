import TaintTrail.Proofs.Tabulation.Entailment

/-!
# Problems that find more

A problem finds all that another one finds if each of its flow functions gives at least as much,
where it may also give the fact for the zero fact instead. Then the fact holds in another context,
that of the zero fact. Nothing is lost by this, since the zero fact holds wherever control gets: a
way through a callee that has its context changed is taken by the zero fact of the same call.
-/

namespace TaintTrail

variable {ν φ σ : Type} [DecidableEq ν]

/-- The second problem gives every fact that the first one gives, for the same fact or for the zero
fact. Only facts that hold in both need to be compared. -/
structure Problem.Enlarges (p p' : Problem ν φ σ) (g : Supergraph ν)
    (f f' : Transfer ν → φ → List φ) : Prop where
  zero_eq : p'.zero = p.zero
  seeds_subset : p.seeds ⊆ p'.seeds
  /-- Only the zero fact holds at the start. -/
  eq_zero_of_mem_seeds : ∀ n d, (n, d) ∈ p.seeds → d = p.zero
  /-- The zero fact goes wherever control goes. -/
  zero_mem : ∀ t, g.Has t → p'.zero ∈ f' t p'.zero
  mem_or_mem : ∀ t d, g.Has t → (∃ source, Entailed p g f ⟨source, t.source, d⟩) →
    (∃ source, Entailed p' g f' ⟨source, t.source, d⟩) →
    ∀ d' ∈ f t d, d' ∈ f' t d ∨ d' ∈ f' t p'.zero

/-- A path edge is kept: its fact is entailed in its context or in that of the zero fact, and the
zero fact is entailed as well. -/
structure Problem.Keeps (p : Problem ν φ σ) (g : Supergraph ν) (f : Transfer ν → φ → List φ)
    (e : PathEdge ν φ) : Prop where
  zero : Entailed p g f ⟨p.zero, e.node, p.zero⟩
  edge : Entailed p g f e ∨ Entailed p g f ⟨p.zero, e.node, e.fact⟩

namespace Problem.Enlarges

variable {p p' : Problem ν φ σ} {g : Supergraph ν} {f f' : Transfer ν → φ → List φ}
  {e caller : PathEdge ν φ}

/-- A fact that holds in the first problem and is kept gives what it gave, or the zero fact does. -/
theorem mem_or_mem_of_keeps (h : Enlarges p p' g f f') {t : Transfer ν} (hlink : g.Has t)
    (hnode : e.node = t.source) (he : Entailed p g f e) (hkeeps : p'.Keeps g f' e) {d : φ}
    (hd : d ∈ f t e.fact) : d ∈ f' t e.fact ∨ d ∈ f' t p'.zero := by
  obtain ⟨source, node, fact⟩ := e
  obtain rfl : node = t.source := hnode
  refine h.mem_or_mem t fact hlink ⟨source, he⟩ ?_ d hd
  exact hkeeps.edge.elim (fun hedge => ⟨source, hedge⟩) fun hedge => ⟨p'.zero, hedge⟩

/-- What comes of a kept path edge comes of a path edge in its context or in that of the zero
fact. -/
theorem exists_source_of_keeps (h : Enlarges p p' g f f') {t : Transfer ν} (hlink : g.Has t)
    (hnode : e.node = t.source) (he : Entailed p g f e) (hkeeps : p'.Keeps g f' e) {d : φ}
    (hd : d ∈ f t e.fact) : ∃ source fact, (source = e.source ∨ source = p'.zero) ∧
      Entailed p' g f' ⟨source, e.node, fact⟩ ∧ d ∈ f' t fact := by
  obtain hd | hd := h.mem_or_mem_of_keeps hlink hnode he hkeeps hd
  · obtain hedge | hedge := hkeeps.edge
    · exact ⟨e.source, e.fact, .inl rfl, hedge, hd⟩
    · exact ⟨p'.zero, e.fact, .inr rfl, hedge, hd⟩
  · exact ⟨p'.zero, p'.zero, .inr rfl, hkeeps.zero, hd⟩

section Crossing

variable {entry exit r : ν} {entryFact exitFact : φ} (h : Enlarges p p' g f f')
  (hcaller : Entailed p g f caller) (hkeeps : p'.Keeps g f' caller)
  (hcall : (caller.node, .call entry) ∈ g.links)
  (hentry : entryFact ∈ f (.call caller.node entry) caller.fact)
  (hexit : p'.Keeps g f' ⟨entryFact, exit, exitFact⟩) (hisExit : g.isExit exit = true)
  (howner : g.entryOf? exit = some entry) (hret : (exit, .ret r caller.node) ∈ g.links)

include h hkeeps hcall hexit hisExit howner hret

/-- The zero fact goes through the callee. -/
theorem crossing_zero :
    Crossing (Entailed p' g f') g f' ⟨p'.zero, caller.node, p'.zero⟩ exit p'.zero r :=
  ⟨entry, p'.zero, hkeeps.zero, hcall, h.zero_mem (.call caller.node entry) hcall, hexit.zero,
    hisExit, howner, hret⟩

include hcaller hentry

/-- A way through the callee is one for a path edge of the call in the caller's context or in that
of the zero fact. -/
theorem exists_crossing : ∃ source fact, (source = caller.source ∨ source = p'.zero) ∧
    Crossing (Entailed p' g f') g f' ⟨source, caller.node, fact⟩ exit exitFact r := by
  obtain hedge | hedge := hexit.edge
  · obtain ⟨source, fact, hsource, hcaller', hentry'⟩ :=
      h.exists_source_of_keeps (t := .call caller.node entry) hcall rfl hcaller hkeeps hentry
    exact ⟨source, fact, hsource, entry, entryFact, hcaller', hcall, hentry', hedge, hisExit,
      howner, hret⟩
  · -- The context of the exit has changed, and the zero fact of the call has entered with it.
    exact ⟨p'.zero, p'.zero, .inr rfl, entry, p'.zero, hkeeps.zero, hcall,
      h.zero_mem (.call caller.node entry) hcall, hedge, hisExit, howner, hret⟩

end Crossing

/-- A path edge in the context of a kept one or in that of the zero fact keeps it. -/
theorem keeps_of_source {source context d : φ} {n : ν}
    (hzero : Entailed p' g f' ⟨p'.zero, n, p'.zero⟩) (hsource : source = context ∨ source = p'.zero)
    (hedge : Entailed p' g f' ⟨source, n, d⟩) : p'.Keeps g f' ⟨context, n, d⟩ := by
  obtain rfl | rfl := hsource
  · exact ⟨hzero, .inl hedge⟩
  · exact ⟨hzero, .inr hedge⟩

/-- Every path edge that the first problem entails is kept. -/
theorem keeps (h : Enlarges p p' g f f') (he : Entailed p g f e) : p'.Keeps g f' e := by
  induction he with
  | @seed n d hseed =>
    obtain rfl := h.eq_zero_of_mem_seeds n d hseed
    have hedge : Entailed p' g f' ⟨p'.zero, n, p'.zero⟩ :=
      .seed (h.zero_eq ▸ h.seeds_subset hseed)
    exact ⟨hedge, .inl (h.zero_eq ▸ hedge)⟩
  | @normal e m d he hlink hd ih =>
    have hzero := h.zero_mem (.normal e.node m) hlink
    obtain ⟨source, fact, hsource, hedge, hd⟩ :=
      h.exists_source_of_keeps (t := .normal e.node m) hlink rfl he ih hd
    exact keeps_of_source (.normal ih.zero hlink hzero) hsource (.normal hedge hlink hd)
  | @callToReturn e r d he hlink hd ih =>
    have hzero := h.zero_mem (.callToReturn e.node r) hlink
    obtain ⟨source, fact, hsource, hedge, hd⟩ :=
      h.exists_source_of_keeps (t := .callToReturn e.node r) hlink rfl he ih hd
    exact keeps_of_source (.callToReturn ih.zero hlink hzero) hsource (.callToReturn hedge hlink hd)
  | @call e entry d he hlink hd ih =>
    -- The fact at the entry is its own context, whatever the context of the call.
    have hzero := h.zero_mem (.call e.node entry) hlink
    obtain ⟨source, fact, -, hedge, hd⟩ :=
      h.exists_source_of_keeps (t := .call e.node entry) hlink rfl he ih hd
    exact ⟨.call ih.zero hlink hzero, .inl (.call hedge hlink hd)⟩
  | @ret caller entry exit r entryFact exitFact d hcaller hcall hentry hexit hisExit howner hret hd
      ihcaller ihexit =>
    have hcross := h.crossing_zero ihcaller hcall ihexit hisExit howner hret
    have hzero := Entailed.of_crossing hcross (h.zero_mem (.ret exit r caller.node) hret)
    obtain hd | hd :=
      h.mem_or_mem_of_keeps (t := .ret exit r caller.node) hret rfl hexit ihexit hd
    · obtain ⟨source, fact, hsource, hcross⟩ :=
        h.exists_crossing hcaller ihcaller hcall hentry ihexit hisExit howner hret
      exact keeps_of_source hzero hsource (.of_crossing hcross hd)
    · exact ⟨hzero, .inr (.of_crossing hcross hd)⟩

/-- A fact that holds before a node in the first problem holds there in the second. -/
theorem exists_entailed (h : Enlarges p p' g f f') {n : ν} {d : φ}
    (he : ∃ source, Entailed p g f ⟨source, n, d⟩) : ∃ source, Entailed p' g f' ⟨source, n, d⟩ := by
  obtain ⟨source, he⟩ := he
  obtain hedge | hedge := (h.keeps he).edge
  · exact ⟨source, hedge⟩
  · exact ⟨p'.zero, hedge⟩

/-- A flow function that is applied in the first problem is applied in the second, to the same fact
and to the zero fact. -/
theorem applied (h : Enlarges p p' g f f') {t : Transfer ν} {d : φ} (ha : Applied p g f t d) :
    Applied p' g f' t d ∧ Applied p' g f' t p'.zero := by
  cases ha with
  | normal he hlink =>
    obtain ⟨source, hedge⟩ := h.exists_entailed ⟨_, he⟩
    have happlied := Applied.normal hedge hlink
    have hzero := Applied.normal (h.keeps he).zero hlink
    exact ⟨happlied, hzero⟩
  | callToReturn he hlink =>
    obtain ⟨source, hedge⟩ := h.exists_entailed ⟨_, he⟩
    have happlied := Applied.callToReturn hedge hlink
    have hzero := Applied.callToReturn (h.keeps he).zero hlink
    exact ⟨happlied, hzero⟩
  | call he hlink =>
    obtain ⟨source, hedge⟩ := h.exists_entailed ⟨_, he⟩
    have happlied := Applied.call hedge hlink
    have hzero := Applied.call (h.keeps he).zero hlink
    exact ⟨happlied, hzero⟩
  | ret hcross =>
    obtain ⟨entry, entryFact, hcaller, hcall, hentry, hexit, hisExit, howner, hret⟩ := hcross
    have hkeeps := h.keeps hcaller
    have hkeeps' := h.keeps hexit
    obtain ⟨source, fact, -, hcross⟩ :=
      h.exists_crossing hcaller hkeeps hcall hentry hkeeps' hisExit howner hret
    have happlied := Applied.ret hcross
    have hzero := Applied.ret (h.crossing_zero hkeeps hcall hkeeps' hisExit howner hret)
    exact ⟨happlied, hzero⟩

end Problem.Enlarges

end TaintTrail

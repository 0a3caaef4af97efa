import Mathlib.Data.Set.Basic
import TaintTrail.Tabulation.Basic

/-!
# What a tabulation problem entails

The path edges and summaries that follow from a problem by the rules of tabulation: seeds hold at
the start, links carry facts on, and a way through a callee brings a fact back to the call it was
entered from. Nothing here speaks of the order in which a run finds them. The flow functions are
given as a function of the transfer and the fact alone.
-/

namespace TaintTrail

/-- The supergraph has the link of a transfer. -/
def Supergraph.Has {ν : Type} (g : Supergraph ν) : Transfer ν → Prop
  | .normal source target => (source, .normal target) ∈ g.links
  | .call site entry => (site, .call entry) ∈ g.links
  | .ret exit returnSite site => (exit, .ret returnSite site) ∈ g.links
  | .callToReturn site returnSite => (site, .callToReturn returnSite) ∈ g.links

/-- The node that a transfer leaves. -/
def Transfer.source {ν : Type} : Transfer ν → ν
  | .normal source _ | .call source _ | .ret source _ _ | .callToReturn source _ => source

/-- The node that a transfer leads to. -/
def Transfer.target {ν : Type} : Transfer ν → ν
  | .normal _ target | .call _ target | .ret _ target _ | .callToReturn _ target => target

variable {ν φ σ : Type} [DecidableEq ν]

/-- A way through a callee: a path edge of a caller leads over a call to an entry with a fact, from
which a path edge leads to an exit that is linked back to the call. -/
def Crossing (E : PathEdge ν φ → Prop) (g : Supergraph ν) (f : Transfer ν → φ → List φ)
    (caller : PathEdge ν φ) (exit : ν) (exitFact : φ) (returnSite : ν) : Prop :=
  ∃ entry entryFact, E caller ∧ (caller.node, .call entry) ∈ g.links ∧
    entryFact ∈ f (.call caller.node entry) caller.fact ∧ E ⟨entryFact, exit, exitFact⟩ ∧
    g.isExit exit ∧ g.entryOf? exit = some entry ∧ (exit, .ret returnSite caller.node) ∈ g.links

/-- The path edges that follow from a problem by the rules of tabulation. -/
inductive Entailed (p : Problem ν φ σ) (g : Supergraph ν) (f : Transfer ν → φ → List φ) :
    PathEdge ν φ → Prop
  /-- A seed holds in the context of the zero fact. -/
  | seed {n : ν} {d : φ} : (n, d) ∈ p.seeds → Entailed p g f ⟨p.zero, n, d⟩
  /-- A fact goes on to another node of the procedure. -/
  | normal {e : PathEdge ν φ} {m : ν} {d : φ} : Entailed p g f e → (e.node, .normal m) ∈ g.links →
      d ∈ f (.normal e.node m) e.fact → Entailed p g f ⟨e.source, m, d⟩
  /-- A fact goes on past a call. -/
  | callToReturn {e : PathEdge ν φ} {r : ν} {d : φ} : Entailed p g f e →
      (e.node, .callToReturn r) ∈ g.links → d ∈ f (.callToReturn e.node r) e.fact →
      Entailed p g f ⟨e.source, r, d⟩
  /-- A fact enters a callee and is the context of what holds there. -/
  | call {e : PathEdge ν φ} {entry : ν} {d : φ} : Entailed p g f e →
      (e.node, .call entry) ∈ g.links → d ∈ f (.call e.node entry) e.fact →
      Entailed p g f ⟨d, entry, d⟩
  /-- A fact comes back from a callee to the context of the call. -/
  | ret {caller : PathEdge ν φ} {entry exit r : ν} {entryFact exitFact d : φ} :
      Entailed p g f caller → (caller.node, .call entry) ∈ g.links →
      entryFact ∈ f (.call caller.node entry) caller.fact →
      Entailed p g f ⟨entryFact, exit, exitFact⟩ → g.isExit exit → g.entryOf? exit = some entry →
      (exit, .ret r caller.node) ∈ g.links → d ∈ f (.ret exit r caller.node) exitFact →
      Entailed p g f ⟨caller.source, r, d⟩

/-- The summaries that follow from a problem: what ways through callees bring back to a call. -/
def EntailedSummary (p : Problem ν φ σ) (g : Supergraph ν) (f : Transfer ν → φ → List φ)
    (s : Summary ν φ) : Prop :=
  ∃ caller exit exitFact r, Crossing (Entailed p g f) g f caller exit exitFact r ∧
    s.returned ∈ f (.ret exit r caller.node) exitFact ∧ s.site = caller.node ∧ s.fact = caller.fact

/-- The flow functions that are applied to facts when everything that follows from a problem is
found. -/
inductive Applied (p : Problem ν φ σ) (g : Supergraph ν) (f : Transfer ν → φ → List φ) :
    Transfer ν → φ → Prop
  | normal {e : PathEdge ν φ} {m : ν} : Entailed p g f e → (e.node, .normal m) ∈ g.links →
      Applied p g f (.normal e.node m) e.fact
  | callToReturn {e : PathEdge ν φ} {r : ν} : Entailed p g f e →
      (e.node, .callToReturn r) ∈ g.links → Applied p g f (.callToReturn e.node r) e.fact
  | call {e : PathEdge ν φ} {entry : ν} : Entailed p g f e → (e.node, .call entry) ∈ g.links →
      Applied p g f (.call e.node entry) e.fact
  | ret {caller : PathEdge ν φ} {exit r : ν} {exitFact : φ} :
      Crossing (Entailed p g f) g f caller exit exitFact r →
      Applied p g f (.ret exit r caller.node) exitFact

/-- Flow functions are applied along links. -/
theorem Applied.has {p : Problem ν φ σ} {g : Supergraph ν} {f : Transfer ν → φ → List φ}
    {t : Transfer ν} {d : φ} (h : Applied p g f t d) : g.Has t := by
  cases h with
  | normal _ hlink => exact hlink
  | callToReturn _ hlink => exact hlink
  | call _ hlink => exact hlink
  | ret hcross =>
    obtain ⟨-, -, -, -, -, -, -, -, hret⟩ := hcross
    exact hret

/-- Flow functions are applied to facts that hold where the transfer starts. -/
theorem Applied.exists_entailed {p : Problem ν φ σ} {g : Supergraph ν}
    {f : Transfer ν → φ → List φ} {t : Transfer ν} {d : φ} (h : Applied p g f t d) :
    ∃ source, Entailed p g f ⟨source, t.source, d⟩ := by
  cases h with
  | normal he _ => exact ⟨_, he⟩
  | callToReturn he _ => exact ⟨_, he⟩
  | call he _ => exact ⟨_, he⟩
  | ret hcross =>
    obtain ⟨-, entryFact, -, -, -, hexit, -⟩ := hcross
    exact ⟨entryFact, hexit⟩

/-- A way through a callee brings back path edges of the caller's context. -/
theorem Entailed.of_crossing {p : Problem ν φ σ} {g : Supergraph ν} {f : Transfer ν → φ → List φ}
    {caller : PathEdge ν φ} {exit r : ν} {exitFact d : φ}
    (hcross : Crossing (Entailed p g f) g f caller exit exitFact r)
    (hd : d ∈ f (.ret exit r caller.node) exitFact) : Entailed p g f ⟨caller.source, r, d⟩ := by
  obtain ⟨entry, entryFact, hcaller, hcall, hentry, hexit, hisExit, howner, hret⟩ := hcross
  exact .ret hcaller hcall hentry hexit hisExit howner hret hd

/-- What holds of the zero fact and of the seeds, and is kept along links, holds of every fact. -/
theorem Entailed.forall_facts {p : Problem ν φ σ} {g : Supergraph ν} {f : Transfer ν → φ → List φ}
    {P : φ → Prop} (hzero : P p.zero) (hseeds : ∀ n d, (n, d) ∈ p.seeds → P d)
    (hflow : ∀ t d d', g.Has t → P d → d' ∈ f t d → P d') {e : PathEdge ν φ}
    (he : Entailed p g f e) : P e.source ∧ P e.fact := by
  induction he with
  | seed hseed => exact ⟨hzero, hseeds _ _ hseed⟩
  | normal _ hlink hd ih => exact ⟨ih.1, hflow (.normal _ _) _ _ hlink ih.2 hd⟩
  | callToReturn _ hlink hd ih => exact ⟨ih.1, hflow (.callToReturn _ _) _ _ hlink ih.2 hd⟩
  | call _ hlink hd ih =>
    have hentry := hflow (.call _ _) _ _ hlink ih.2 hd
    exact ⟨hentry, hentry⟩
  | ret _ _ _ _ _ _ hlink hd ihcaller ihexit =>
    exact ⟨ihcaller.1, hflow (.ret _ _ _) _ _ hlink ihexit.2 hd⟩

/-- What holds of the seeds where they are, and is carried along links from node to node, holds of
every fact where it is. -/
theorem Entailed.forall_at {p : Problem ν φ σ} {g : Supergraph ν} {f : Transfer ν → φ → List φ}
    {P : ν → φ → Prop} (hseeds : ∀ n d, (n, d) ∈ p.seeds → P n d)
    (hflow : ∀ t d d', g.Has t → P t.source d → d' ∈ f t d → P t.target d') {e : PathEdge ν φ}
    (he : Entailed p g f e) : P e.node e.fact := by
  induction he with
  | seed hseed => exact hseeds _ _ hseed
  | normal _ hlink hd ih => exact hflow (.normal _ _) _ _ hlink ih hd
  | callToReturn _ hlink hd ih => exact hflow (.callToReturn _ _) _ _ hlink ih hd
  | call _ hlink hd ih => exact hflow (.call _ _) _ _ hlink ih hd
  | ret _ _ _ _ _ _ hlink hd _ ihexit => exact hflow (.ret _ _ _) _ _ hlink ihexit hd

/-- A fact is entailed only before seeds and targets of links. -/
theorem Entailed.node_mem {p : Problem ν φ σ} {g : Supergraph ν} {f : Transfer ν → φ → List φ}
    {e : PathEdge ν φ} (he : Entailed p g f e) :
    e.node ∈ p.seeds.map (·.1) ++ g.links.map (·.2.target) := by
  rw [List.mem_append, List.mem_map, List.mem_map]
  cases he with
  | seed hseed => exact .inl ⟨_, hseed, rfl⟩
  | normal _ hlink _ => exact .inr ⟨_, hlink, rfl⟩
  | callToReturn _ hlink _ => exact .inr ⟨_, hlink, rfl⟩
  | call _ hlink _ => exact .inr ⟨_, hlink, rfl⟩
  | ret _ _ _ _ _ _ hlink _ => exact .inr ⟨_, hlink, rfl⟩

/-- Path edges and summaries as sets. -/
structure Tables (ν φ : Type) where
  edges : Set (PathEdge ν φ)
  summaries : Set (Summary ν φ)

/-- Tables to which the rules of tabulation add nothing. -/
structure Tables.Closed (p : Problem ν φ σ) (g : Supergraph ν) (f : Transfer ν → φ → List φ)
    (T : Tables ν φ) : Prop where
  seed : ∀ n d, (n, d) ∈ p.seeds → ⟨p.zero, n, d⟩ ∈ T.edges
  normal : ∀ e ∈ T.edges, ∀ m, (e.node, .normal m) ∈ g.links → ∀ d ∈ f (.normal e.node m) e.fact,
    ⟨e.source, m, d⟩ ∈ T.edges
  callToReturn : ∀ e ∈ T.edges, ∀ r, (e.node, .callToReturn r) ∈ g.links →
    ∀ d ∈ f (.callToReturn e.node r) e.fact, ⟨e.source, r, d⟩ ∈ T.edges
  call : ∀ e ∈ T.edges, ∀ entry, (e.node, .call entry) ∈ g.links →
    ∀ d ∈ f (.call e.node entry) e.fact, ⟨d, entry, d⟩ ∈ T.edges
  ret : ∀ caller exit exitFact r, Crossing (· ∈ T.edges) g f caller exit exitFact r →
    ∀ d ∈ f (.ret exit r caller.node) exitFact,
      ⟨caller.source, r, d⟩ ∈ T.edges ∧ ⟨caller.node, caller.fact, d⟩ ∈ T.summaries

/-- The least tables to which the rules of tabulation add nothing. -/
def Tables.IsLeastClosed (p : Problem ν φ σ) (g : Supergraph ν) (f : Transfer ν → φ → List φ)
    (T : Tables ν φ) : Prop :=
  T.Closed p g f ∧ ∀ T' : Tables ν φ, T'.Closed p g f →
    T.edges ⊆ T'.edges ∧ T.summaries ⊆ T'.summaries

/-- Everything that follows from a problem. -/
def Tables.entailed (p : Problem ν φ σ) (g : Supergraph ν) (f : Transfer ν → φ → List φ) :
    Tables ν φ :=
  ⟨{e | Entailed p g f e}, {s | EntailedSummary p g f s}⟩

namespace Tables

variable {p : Problem ν φ σ} {g : Supergraph ν} {f : Transfer ν → φ → List φ} {T : Tables ν φ}

/-- What follows from a problem is in all closed tables. -/
theorem Closed.mem_of_entailed (hT : T.Closed p g f) {e : PathEdge ν φ}
    (he : Entailed p g f e) : e ∈ T.edges := by
  induction he with
  | seed hseed => exact hT.seed _ _ hseed
  | normal _ hlink hd ih => exact hT.normal _ ih _ hlink _ hd
  | callToReturn _ hlink hd ih => exact hT.callToReturn _ ih _ hlink _ hd
  | call _ hlink hd ih => exact hT.call _ ih _ hlink _ hd
  | ret _ hcall hentry _ hisExit howner hret hd ihcaller ihexit =>
    exact (hT.ret _ _ _ _ ⟨_, _, ihcaller, hcall, hentry, ihexit, hisExit, howner, hret⟩ _ hd).1

/-- A way through a callee along entailed path edges is one in all closed tables. -/
theorem Closed.crossing_of_entailed (hT : T.Closed p g f) {caller : PathEdge ν φ} {exit r : ν}
    {exitFact : φ} (hcross : Crossing (Entailed p g f) g f caller exit exitFact r) :
    Crossing (· ∈ T.edges) g f caller exit exitFact r := by
  obtain ⟨entry, entryFact, hcaller, hcall, hentry, hexit, hrest⟩ := hcross
  exact ⟨entry, entryFact, hT.mem_of_entailed hcaller, hcall, hentry, hT.mem_of_entailed hexit,
    hrest⟩

/-- The summaries that follow from a problem are in all closed tables. -/
theorem Closed.mem_of_entailedSummary (hT : T.Closed p g f) {s : Summary ν φ}
    (hs : EntailedSummary p g f s) : s ∈ T.summaries := by
  obtain ⟨caller, exit, exitFact, r, hcross, hd, hsite, hfact⟩ := hs
  have hmem := (hT.ret _ _ _ _ (hT.crossing_of_entailed hcross) _ hd).2
  rwa [← hsite, ← hfact] at hmem

/-- What follows from a problem is closed under the rules. -/
theorem closed_entailed : (entailed p g f).Closed p g f where
  seed _ _ hseed := .seed hseed
  normal _ he _ hlink _ hd := .normal he hlink hd
  callToReturn _ he _ hlink _ hd := .callToReturn he hlink hd
  call _ he _ hlink _ hd := .call he hlink hd
  ret _ _ _ _ hcross _ hd := ⟨.of_crossing hcross hd, _, _, _, _, hcross, hd, rfl, rfl⟩

/-- What follows from a problem is the least that is closed under the rules. -/
theorem isLeastClosed_entailed : (entailed p g f).IsLeastClosed p g f :=
  ⟨closed_entailed, fun _ hT =>
    ⟨fun _ he => hT.mem_of_entailed he, fun _ hs => hT.mem_of_entailedSummary hs⟩⟩

end Tables

end TaintTrail

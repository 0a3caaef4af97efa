import TaintTrail.Tabulation.Basic

/-!
# Solving tabulation problems

Path edges are followed in the order in which they were found. Following one applies the flow
functions of all links that leave its node. At a call the callee is entered, the caller is noted,
and what is known already about the callee is applied; at an exit the way through the callee is
noted and applied to all callers known so far. So whichever of the two comes later combines them.
A run ends when every path edge has been followed, or when a limit is reached.
-/

namespace TaintTrail.Run

variable {ν φ σ : Type} [DecidableEq ν] [DecidableEq φ]

/-- Records a path edge and its fact, if it is new, and lets it wait to be followed. -/
def propagate (run : Run ν φ σ) (source : φ) (node : ν) (fact : φ) : Run ν φ σ :=
  if ⟨source, node, fact⟩ ∈ run.edges then run
  else { run with
    edges := run.edges.push ⟨source, node, fact⟩
    waiting := run.waiting ++ [⟨source, node, fact⟩]
    facts := run.facts.insert (node, fact) }

/-- Applies a flow function: the facts that come out, each once, and the run after that. -/
def transfer (p : Problem ν φ σ) (t : Transfer ν) (fact : φ) (run : Run ν φ σ) :
    List φ × Run ν φ σ :=
  let (facts, store) := p.flow t fact run.store
  (facts.eraseDups, { run with store })

/-- Goes to another node of the procedure by a flow function. -/
def follow (p : Problem ν φ σ) (t : Transfer ν) (source : φ) (target : ν) (fact : φ)
    (run : Run ν φ σ) : Run ν φ σ :=
  let (facts, run) := transfer p t fact run
  facts.foldl (fun run fact => run.propagate source target fact) run

/-- Returns from an exit to a caller. -/
def returnTo (p : Problem ν φ σ) (exit : ν) (exitFact : φ) (returnSite : ν) (caller : Incoming ν φ)
    (run : Run ν φ σ) : Run ν φ σ :=
  let (facts, run) := transfer p (.ret exit returnSite caller.site) exitFact run
  facts.foldl (fun run fact =>
    { run with summaries := run.summaries.insert ⟨caller.site, caller.fact, fact⟩ }.propagate
      caller.source returnSite fact) run

/-- Applies an end summary that was there before the caller. -/
def reuse (p : Problem ν φ σ) (returnSite : ν) (caller : Incoming ν φ) (run : Run ν φ σ)
    (s : EndSummary ν φ) : Run ν φ σ :=
  returnTo p s.exit s.fact returnSite caller { run with reuses := run.reuses + 1 }

/-- Enters a callee with a fact on behalf of a caller. -/
def enter (p : Problem ν φ σ) (g : Supergraph ν) (run : Run ν φ σ) (caller : Incoming ν φ) :
    Run ν φ σ :=
  let run := run.propagate caller.entryFact caller.entry caller.entryFact
  let run := { run with incoming := run.incoming.insert caller }
  match g.returnSite? caller.site with
  | none => run
  | some returnSite =>
    let known := run.endSummaries.filter fun s =>
      s.entry = caller.entry && s.entryFact = caller.entryFact
    known.foldl (reuse p returnSite caller) run

/-- Follows a link of a node with a fact, in the context of a source fact. Returns are followed
from the exit. -/
def followLink (p : Problem ν φ σ) (g : Supergraph ν) (e : PathEdge ν φ) (run : Run ν φ σ) :
    Link ν → Run ν φ σ
  | .normal target => follow p (.normal e.node target) e.source target e.fact run
  | .callToReturn returnSite =>
    follow p (.callToReturn e.node returnSite) e.source returnSite e.fact run
  | .call entry =>
    let (facts, run) := transfer p (.call e.node entry) e.fact run
    facts.foldl (fun run fact => enter p g run ⟨entry, fact, e.node, e.source, e.fact⟩) run
  | .ret _ _ => run

/-- Returns from an exit along the links to the return site of a caller. -/
def leave (p : Problem ν φ σ) (g : Supergraph ν) (e : PathEdge ν φ) (run : Run ν φ σ)
    (caller : Incoming ν φ) : Run ν φ σ :=
  (g.linksFrom e.node).foldl (fun run link =>
    match link with
    | .ret returnSite site =>
      if site = caller.site then returnTo p e.node e.fact returnSite caller run else run
    | _ => run) run

/-- Notes the way through a procedure and returns to all callers known so far. -/
def followExit (p : Problem ν φ σ) (g : Supergraph ν) (e : PathEdge ν φ) (run : Run ν φ σ) :
    Run ν φ σ :=
  match g.entryOf? e.node with
  | none => run
  | some entry =>
    let run := { run with
      endSummaries := run.endSummaries.insert ⟨entry, e.source, e.node, e.fact⟩ }
    (run.incoming.filter fun caller =>
      caller.entry = entry && caller.entryFact = e.source).foldl (leave p g e) run

/-- Follows a path edge. -/
def followEdge (p : Problem ν φ σ) (g : Supergraph ν) (run : Run ν φ σ) (e : PathEdge ν φ) :
    Run ν φ σ :=
  let run := (g.linksFrom e.node).foldl (followLink p g e) run
  if g.isExit e.node then followExit p g e run else run

/-- Takes up a path edge that waits to be followed. -/
def takeUp (run : Run ν φ σ) (e : PathEdge ν φ) : Run ν φ σ :=
  { run with waiting := run.waiting.erase e, followed := run.followed + 1 }

/-- Follows path edges until there is none left or the given number has been followed. -/
def loop (p : Problem ν φ σ) (g : Supergraph ν) : Nat → Run ν φ σ → Run ν φ σ
  | 0, run => run
  | n + 1, run =>
    match run.waiting with
    | [] => run
    | e :: _ => loop p g n (followEdge p g (run.takeUp e) e)

/-- The run before any path edge has been followed. -/
def start (p : Problem ν φ σ) (store : σ) : Run ν φ σ :=
  p.seeds.foldl (fun run (node, fact) => run.propagate p.zero node fact) { store }

/-- Solves a problem, following at most the given number of path edges. -/
def solve (p : Problem ν φ σ) (g : Supergraph ν) (limit : Nat) (store : σ) : Run ν φ σ :=
  loop p g limit (start p store)

end TaintTrail.Run

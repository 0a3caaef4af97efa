import TaintTrail.Supergraph.Basic

/-!
# Tabulation problems

A problem gives the facts that hold at the start and, for each way of going from one node to
another, the facts that one fact turns into. Facts hold before their node runs. The flow functions
may read and change a store, in which a problem keeps what it finds out on the way.
-/

namespace TaintTrail

/-- A way of going from one node to another. -/
inductive Transfer (ν : Type) where
  /-- From a node to one of its procedure. -/
  | normal (source target : ν)
  /-- From a call site to the entry of the called procedure. -/
  | call (site entry : ν)
  /-- From an exit to the return site of a call site. -/
  | ret (exit returnSite site : ν)
  /-- From a call site past the call to its return site. -/
  | callToReturn (site returnSite : ν)
  deriving DecidableEq, Repr

/-- A tabulation problem over nodes `ν` and facts `φ` with a store `σ`. -/
structure Problem (ν φ σ : Type) where
  /-- The fact that holds wherever control can get. -/
  zero : φ
  /-- The facts that hold at the start. -/
  seeds : List (ν × φ)
  /-- The facts that a fact turns into, and the store after that. -/
  flow : Transfer ν → φ → σ → List φ × σ

/-- A fact holds before a node if `source` holds at the entry of the node's procedure. -/
structure PathEdge (ν φ : Type) where
  source : φ
  node : ν
  fact : φ
  deriving DecidableEq, Repr

/-- A call site with a fact, in the context of a source fact, brought a fact to an entry. -/
structure Incoming (ν φ : Type) where
  entry : ν
  entryFact : φ
  site : ν
  source : φ
  fact : φ
  deriving DecidableEq, Repr

/-- A fact at an entry leads to a fact at an exit of the procedure. -/
structure EndSummary (ν φ : Type) where
  entry : ν
  entryFact : φ
  exit : ν
  fact : φ
  deriving DecidableEq, Repr

/-- A fact at a call site leads through the callee to a fact at the return site. -/
structure Summary (ν φ : Type) where
  site : ν
  fact : φ
  returned : φ
  deriving DecidableEq, Repr

/-- The tables of a run. -/
structure Run (ν φ σ : Type) where
  /-- The path edges in the order in which they were found. -/
  edges : Array (PathEdge ν φ) := #[]
  /-- The path edges that are still to be followed, in the order in which they were found. -/
  waiting : List (PathEdge ν φ) := []
  /-- The nodes with the facts that were found before them, whatever they were found from. -/
  facts : List (ν × φ) := []
  /-- How many path edges have been followed. -/
  followed : Nat := 0
  incoming : List (Incoming ν φ) := []
  endSummaries : List (EndSummary ν φ) := []
  summaries : List (Summary ν φ) := []
  /-- How often an end summary was applied to a later caller. -/
  reuses : Nat := 0
  store : σ

namespace Run

variable {ν φ σ : Type} [DecidableEq ν] [DecidableEq φ]

/-- Whether no path edge is left to be followed, so that the run did not end because of a limit. -/
def isComplete (run : Run ν φ σ) : Bool := run.waiting.isEmpty

/-- The facts before a node, each once. -/
def factsAt (run : Run ν φ σ) (n : ν) : List φ :=
  (run.facts.filter (·.1 = n)).map (·.2)

/-- The facts before a node in the context of a source fact. -/
def factsFrom (run : Run ν φ σ) (n : ν) (source : φ) : List φ :=
  ((run.edges.toList.filter fun e => e.node = n && e.source = source).map (·.fact)).eraseDups

/-- The nodes before which some fact holds, each once. -/
def nodes (run : Run ν φ σ) : List ν := (run.facts.map (·.1)).eraseDups

/-- The nodes before which a fact holds, each once. -/
def nodesWith (run : Run ν φ σ) (fact : φ) : List ν :=
  (run.facts.filter (·.2 = fact)).map (·.1)

end Run

end TaintTrail

/-!
# Supergraphs

The graph of all procedures of a program at once. Besides the links inside a procedure there are
those from call sites to entries, from exits back to the return sites of calls, and from call sites
past the call to their return sites.
-/

namespace TaintTrail

/-- A link from a node. -/
inductive Link (ν : Type) where
  /-- To another node of the procedure. -/
  | normal (target : ν)
  /-- From a call site to the entry of the called procedure. -/
  | call (entry : ν)
  /-- From an exit to the return site of a call site. -/
  | ret (returnSite site : ν)
  /-- From a call site to its return site. -/
  | callToReturn (returnSite : ν)
  deriving DecidableEq, Repr

/-- A graph of procedures. -/
structure Supergraph (ν : Type) where
  /-- All links, each with the node it leaves, in the order in which they are followed. -/
  links : List (ν × Link ν) := []
  /-- The nodes where procedures start. -/
  entries : List ν := []
  /-- The nodes where procedures end. -/
  exits : List ν := []
  /-- Nodes with the entry of their procedure. Of several pairs for a node the last counts. -/
  owners : List (ν × ν) := []

/-- The node that a link leads to. -/
def Link.target {ν : Type} : Link ν → ν
  | .normal target => target
  | .call entry => entry
  | .ret returnSite _ => returnSite
  | .callToReturn returnSite => returnSite

namespace Supergraph

variable {ν : Type} [DecidableEq ν]

/-- The links that leave a node, in order. -/
def linksFrom (g : Supergraph ν) (n : ν) : List (Link ν) :=
  g.links.filterMap fun (source, link) => if source = n then some link else none

/-- The entry of the procedure of a node. -/
def entryOf? (g : Supergraph ν) (n : ν) : Option ν :=
  g.owners.foldl (fun found (node, entry) => if node = n then some entry else found) none

/-- Where control goes on after a call. -/
def returnSite? (g : Supergraph ν) (site : ν) : Option ν :=
  (g.linksFrom site).findSome? fun
    | .callToReturn returnSite => some returnSite
    | _ => none

/-- Whether a node is an exit. -/
def isExit (g : Supergraph ν) (n : ν) : Bool := n ∈ g.exits

end Supergraph

end TaintTrail

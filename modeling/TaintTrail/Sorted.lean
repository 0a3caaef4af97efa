/-!
# Sorted lists

Finite sets and finite maps as lists in strictly increasing order of their elements or keys, so that
two sets or maps with the same content are the same list.
-/

namespace TaintTrail.Sorted

variable {α κ β : Type}

/-- Adds an element to a sorted set. -/
def insert [Ord α] (a : α) : List α → List α
  | [] => [a]
  | b :: bs =>
    match compare a b with
    | .lt => a :: b :: bs
    | .eq => b :: bs
    | .gt => b :: insert a bs

/-- The sorted set of the elements of a list. -/
def ofList [Ord α] (xs : List α) : List α := xs.foldl (fun set a => insert a set) []

/-- Changes the value of a key in a sorted map, which is `none` if the key is new. -/
def alter [Ord κ] (key : κ) (f : Option β → β) : List (κ × β) → List (κ × β)
  | [] => [(key, f none)]
  | (k, b) :: rest =>
    match compare key k with
    | .lt => (key, f none) :: (k, b) :: rest
    | .eq => (k, f (some b)) :: rest
    | .gt => (k, b) :: alter key f rest

/-- Adds an element to the set of a key in a sorted map of sorted sets. -/
def insertAt [Ord κ] [Ord α] (key : κ) (a : α) (map : List (κ × List α)) : List (κ × List α) :=
  alter key (fun old => insert a (old.getD [])) map

/-- Sets the value of a key in a sorted map. -/
def put [Ord κ] (key : κ) (value : β) (map : List (κ × β)) : List (κ × β) :=
  alter key (fun _ => value) map

/-- The sorted map of a list of keys and values, where a later value of a key wins. -/
def ofPairs [Ord κ] (pairs : List (κ × β)) : List (κ × β) :=
  pairs.foldl (fun map (key, value) => put key value map) []

end TaintTrail.Sorted

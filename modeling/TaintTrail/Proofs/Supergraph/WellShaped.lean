import TaintTrail.Supergraph.Basic

/-!
# Well-shaped supergraphs

What the links of a supergraph have to do with its procedures: links inside a procedure and links
past a call stay in it, calls lead to entries, and an exit is linked back to exactly the return
sites of the calls of its procedure.
-/

namespace TaintTrail.Supergraph

variable {ν : Type} [DecidableEq ν]

/-- The links fit the procedures. -/
structure WellShaped (g : Supergraph ν) : Prop where
  normal_entryOf : ∀ n m, (n, .normal m) ∈ g.links → g.entryOf? m = g.entryOf? n
  callToReturn_entryOf : ∀ c r, (c, .callToReturn r) ∈ g.links → g.entryOf? r = g.entryOf? c
  call_entryOf : ∀ c entry, (c, .call entry) ∈ g.links → g.entryOf? entry = some entry
  ret_iff : ∀ x r c, (x, .ret r c) ∈ g.links ↔
    g.isExit x = true ∧ ∃ entry, g.entryOf? x = some entry ∧ (c, .call entry) ∈ g.links ∧
      g.returnSite? c = some r

/-- The links that leave a node are the links of the graph with that node. -/
@[simp] theorem mem_linksFrom {g : Supergraph ν} {n : ν} {link : Link ν} :
    link ∈ g.linksFrom n ↔ (n, link) ∈ g.links := by
  simp only [linksFrom, List.mem_filterMap, Option.ite_none_right_eq_some, Option.some.injEq]
  constructor
  · rintro ⟨⟨n', link'⟩, hmem, hn, hlink⟩
    rwa [← hn, ← hlink]
  · exact fun hmem => ⟨(n, link), hmem, rfl, rfl⟩

/-- A return site is linked past the call. -/
theorem callToReturn_mem_of_returnSite? {g : Supergraph ν} {c r : ν}
    (h : g.returnSite? c = some r) : (c, .callToReturn r) ∈ g.links := by
  obtain ⟨link, hlink, hr⟩ := List.exists_of_findSome?_eq_some h
  cases link with
  | callToReturn returnSite =>
    obtain rfl : returnSite = r := by simpa using hr
    exact mem_linksFrom.mp hlink
  | _ => simp at hr

/-- From an exit of a procedure the link back to a call of it leads to the call's return site. -/
theorem WellShaped.ret_mem_iff {g : Supergraph ν} (hg : g.WellShaped) {x c entry r : ν}
    (hexit : g.isExit x = true) (hentry : g.entryOf? x = some entry)
    (hcall : (c, .call entry) ∈ g.links) :
    (x, .ret r c) ∈ g.links ↔ g.returnSite? c = some r := by
  rw [hg.ret_iff]
  constructor
  · rintro ⟨-, -, -, -, hsite⟩
    exact hsite
  · exact fun hsite => ⟨hexit, entry, hentry, hcall, hsite⟩

end TaintTrail.Supergraph

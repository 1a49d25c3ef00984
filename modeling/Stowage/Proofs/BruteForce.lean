import Stowage.Proofs.Building
import Stowage.Proofs.Packing.Variables
import Stowage.Proofs.Searching

/-!
# Exhaustive search equals brute force

A packing is added to a state without propagators, and the placements of its items are searched for.
What the search finds is what a brute-force enumeration would find: the lists of values for the items,
within the domains and within the bins, for which the size of the items in every bin is a value of its
load.

* `Packing.Placement` — what brute force looks for.
* `Packing.placement_iff` — placements are the solutions, restricted to the items.
* `State.search_finds_the_placements` — the theorem.
-/

set_option autoImplicit false

namespace Stowage

namespace Packing

/-- The values are bins for the items, taken from their domains, and the sizes of the items in every bin
add up to a value of its load. -/
structure Placement (p : Packing) (ds : Domains) (values : List Int) : Prop where
  length : values.length = p.numItems
  inDomains : ∀ i < p.numItems, values[i]?.getD 0 ∈ ds.domain (p.item i)
  inBins : ∀ v ∈ values, 0 ≤ v ∧ v < p.numBins
  loads : ∀ d < p.numDims, ∀ b < p.numBins,
    (p.weigh d fun i => values[i]? == some (b : Int)) ∈ ds.domain (p.load d b)

variable {p : Packing} {ds : Domains} {values : List Int}

/-- An assignment places the items that the values of the items place. -/
theorem weigh_values {assignment : Var → Int}
    (same : ∀ i < p.numItems, values[i]? = some (assignment (p.item i))) (d b : Nat) :
    (p.weigh d fun i => values[i]? == some (b : Int)) = p.weigh d (p.placedBy assignment b) := by
  refine p.weigh_congr fun i hi => ?_
  rw [same i hi, placedBy, Bool.eq_iff_iff, beq_iff_eq, beq_iff_eq, Option.some.injEq]

/-- **A solution places its items.** -/
theorem Solution.placement {assignment : Var → Int} (solution : p.Solution assignment)
    (shaped : p.Shaped) (exist : ∀ x ∈ p.vars, x < ds.count) (admits : ds.Admits assignment) :
    p.Placement ds (p.items.toList.map assignment) := by
  have entry (i : Nat) (hi : i < p.numItems) :
      (p.items.toList.map assignment)[i]? = some (assignment (p.item i)) := by
    rw [List.getElem?_map, getElem?_items hi]
    rfl
  refine ⟨by simp [numItems], fun i hi => ?_, fun v hv => ?_, fun d hd b hb => ?_⟩
  · rw [entry i hi]
    exact admits _ (exist _ (item_mem_vars hi))
  · obtain ⟨i, hi, rfl⟩ := List.getElem_of_mem hv
    have bound : i < p.numItems := by simpa [numItems] using hi
    have value := (List.getElem?_eq_getElem hi).symm.trans (entry i bound)
    rw [Option.some.inj value]
    exact solution.inBins i bound
  · rw [weigh_values entry, ← solution.loads d hd b hb]
    exact admits _ (exist _ (load_mem_vars shaped hd hb))

/-- **A placement is extended to a solution**: every load gets the size of its bin, and every variable
that has nothing to do with the packing gets some value. -/
theorem Placement.exists_solution (placement : p.Placement ds values) (shaped : p.Shaped)
    (distinct : p.vars.Nodup) (healthy : ds.Healthy) :
    ∃ assignment, (ds.Admits assignment ∧ p.Solution assignment) ∧
      values = p.items.toList.map assignment := by
  have choice (x : Var) : ∃ v ∈ ds.domain x,
      (∀ i < p.numItems, p.item i = x → v = values[i]?.getD 0) ∧
        ∀ d < p.numDims, ∀ b < p.numBins, p.load d b = x →
          v = p.weigh d fun i => values[i]? == some (b : Int) := by
    by_cases item : ∃ i < p.numItems, p.item i = x
    · obtain ⟨i, hi, rfl⟩ := item
      refine ⟨_, placement.inDomains i hi, fun j hj same => ?_, fun d hd b hb same => ?_⟩
      · rw [item_inj distinct hj hi same]
      · exact absurd same.symm (item_ne_load shaped distinct hi hd hb)
    by_cases load : ∃ d < p.numDims, ∃ b < p.numBins, p.load d b = x
    · obtain ⟨d, hd, b, hb, rfl⟩ := load
      refine ⟨_, placement.loads d hd b hb, fun i hi same => ?_, fun d' hd' b' hb' same => ?_⟩
      · exact absurd ⟨i, hi, same⟩ item
      · obtain ⟨rfl, rfl⟩ := load_inj shaped distinct hd' hb' hd hb same
        rfl
    · exact ⟨_, (healthy x).lower_mem, fun i hi same => absurd ⟨i, hi, same⟩ item,
        fun d hd b hb same => absurd ⟨d, hd, b, hb, same⟩ load⟩
  choose assignment inside onItems onLoads using choice
  have entry (i : Nat) (hi : i < p.numItems) : values[i]? = some (assignment (p.item i)) := by
    rw [onItems _ i hi rfl]
    have bound : i < values.length := by rw [placement.length]; exact hi
    simp [bound]
  refine ⟨assignment, ⟨fun x _ => inside x, fun i hi => ?_, fun d hd b hb => ?_⟩, ?_⟩
  · exact placement.inBins _ (List.mem_of_getElem? (entry i hi))
  · rw [onLoads _ d hd b hb rfl, weigh_values entry]
  · refine List.ext_getElem? fun i => ?_
    by_cases hi : i < p.numItems
    · rw [entry i hi, List.getElem?_map, getElem?_items hi]
      rfl
    · have outside := Nat.not_lt.1 hi
      rw [List.getElem?_eq_none (placement.length ▸ outside),
        List.getElem?_eq_none (by simpa [numItems] using outside)]

/-- **Placements are the solutions, restricted to the items.** -/
theorem placement_iff (shaped : p.Shaped) (distinct : p.vars.Nodup)
    (exist : ∀ x ∈ p.vars, x < ds.count) (healthy : ds.Healthy) :
    p.Placement ds values ↔ ∃ assignment, (ds.Admits assignment ∧ p.Solution assignment) ∧
      values = p.items.toList.map assignment := by
  constructor
  · exact fun placement => placement.exists_solution shaped distinct healthy
  · rintro ⟨assignment, ⟨admits, solution⟩, rfl⟩
    exact solution.placement shaped exist admits

end Packing

namespace State

/-- The items of the only packing are searched for. -/
theorem searchable_of_hosts {t : State} {p : Packing} {q : Packer} (shaped : p.Shaped)
    (cons : t.Consistent) (quiet : t.Quiet) (hosts : t.Hosts q) (same : q.packing = p.sort)
    (exist : ∀ x ∈ p.vars, x < t.domains.count) : Searchable p.items.toList t := by
  refine ⟨cons, quiet, hosts.onlyPackings, fun x hx => exist x (List.mem_append_left _ hx),
    fun id r runs i hi => ?_⟩
  obtain ⟨-, rfl⟩ := hosts.eq_of_runs runs
  rw [same, Packing.numItems_sort shaped] at hi
  rw [same, Packing.item_sort shaped hi]
  exact List.mem_of_getElem? (Packing.getElem?_items (Packing.rename_lt shaped hi))

/-- **Exhaustive search equals brute force.**  The builder finds that there is no placement of the items
within the initial domains, or the search finds each of them once and no others, provided that its
limits are large enough, whatever rule chooses the items. -/
theorem search_finds_the_placements {s : State} {request : Request} {p : Packing} {rule : SearchRule}
    (reached : Reached false s) (alone : s.propagators = #[]) (root : s.checkpoint = 0)
    (checked : request.checked = .ok p) (distinct : request.packing.vars.Nodup)
    (exist : ∀ x ∈ request.packing.vars, x < s.domains.count) (chooses : rule.Chooses) :
    ∃ result t, request.add s = .ok (result, t) ∧
      (result = .error .infeasiblePropagator ∧
          (∀ values, ¬request.packing.Placement s.domains values) ∨
        ∃ nodes found u, result = .ok 0 ∧ found.Nodup ∧
          (∀ values, values ∈ found ↔ request.packing.Placement s.domains values) ∧
          ∀ maxNodes maxSolutions, nodes < maxNodes → found.length < maxSolutions →
            ∃ g, t.search ⟨request.packing.items.toList, rule, maxNodes, maxSolutions, false⟩ =
              .ok (g, u) ∧ g.solutions.toList = found) := by
  obtain ⟨shaped, rfl⟩ := Request.checked_eq_ok checked
  have typed : request.kind = .vector → request.packing.sort.policy = .disabled :=
    Request.disabled_of_vector
  obtain ⟨m, conflict, t, -, reachedM, domains, hosts, -, propagate, add⟩ :=
    addPacking_alone typed reached alone root (Packing.wellFormed_sort shaped)
      (Packing.known_sort shaped exist)
  obtain ⟨evolves, settled, sound⟩ := propagate_spec reachedM.consistent propagate
  have placement (values : List Int) : request.packing.Placement s.domains values ↔ _ :=
    Packing.placement_iff shaped distinct exist reached.consistent.healthy
  -- the solutions of the state in which the packing was installed are those of the request
  have solution (a : Var → Int) :
      m.Solution a ↔ s.domains.Admits a ∧ request.packing.Solution a := by
    rw [← Packing.solution_sort_iff shaped, ← domains]
    constructor
    · exact fun h => ⟨h.admits, h.packings 0 _ hosts.runs⟩
    · rintro ⟨admits, packing⟩
      refine ⟨admits, fun id q runs => ?_⟩
      obtain ⟨-, rfl⟩ := hosts.eq_of_runs runs
      exact packing
  rw [Request.add_eq, checked]
  refine ⟨_, t, add, ?_⟩
  cases conflict with
  | some c =>
    refine .inl ⟨rfl, fun values found => ?_⟩
    obtain ⟨a, both, -⟩ := (placement values).1 found
    cases (sound a hosts.onlyPackings ((solution a).2 both)).1
  | none =>
    obtain ⟨consT, quietT, within⟩ := settled rfl
    obtain ⟨q, hostsT, -, same, -⟩ := hosts.of_cores evolves.cores
    have existT : ∀ x ∈ request.packing.vars, x < t.domains.count := by
      rw [evolves.count, domains]
      exact exist
    have searchable := searchable_of_hosts shaped consT quietT hostsT same existT
    obtain ⟨nodes, found, u, finds, lists, -⟩ :=
      searchNode_spec chooses searchable (Nat.lt_succ_of_le (List.length_filter_le _ _))
    refine .inr ⟨nodes, found, u, rfl, lists.nodup, fun values => ?_,
      fun maxNodes maxSolutions enough room => ?_⟩
    · rw [lists.mem, placement]
      refine exists_congr fun a => and_congr_left' ?_
      rw [← solution]
      constructor
      · intro h
        exact h.of_cores evolves.cores.symm (within.admits evolves.count h.admits)
      · intro h
        exact h.of_cores evolves.cores (sound a hosts.onlyPackings h).2
    · obtain ⟨g, done, -, solutions⟩ :=
        finds maxNodes maxSolutions .none (by simpa [Findings.none] using enough)
          (by simpa [Findings.none] using room)
      exact ⟨g, done, by simpa [Findings.none] using solutions⟩

/-- The items of sizes 5, 4 and 1 are to be placed in two bins for at most 6. -/
def crowdedRequest : Request :=
  .single #[0, 1, 2] #[5, 4, 1] #[3, 4] .dynamic crowdedPacking.numbered

/-- The search for the placements of items of which the two largest compete for a bin: they are never
placed in the same one. -/
theorem crowded_search_finds_the_placements :
    ∃ result t, crowdedRequest.add crowdedVars = .ok (result, t) ∧
      ∃ nodes found u, result = .ok 0 ∧ found.Nodup ∧
        (∀ values, values ∈ found ↔ crowdedRequest.packing.Placement crowdedVars.domains values) ∧
        (∀ maxNodes maxSolutions, nodes < maxNodes → found.length < maxSolutions →
          ∃ g, t.search ⟨crowdedRequest.packing.items.toList, .first, maxNodes, maxSolutions, false⟩ =
            .ok (g, u) ∧ g.solutions.toList = found) ∧
        [0, 1, 0] ∈ found ∧ [0, 0, 1] ∉ found := by
  have checked : crowdedRequest.checked = .ok crowdedPacking := by cbv
  have exist : ∀ x ∈ crowdedRequest.packing.vars, x < crowdedVars.domains.count := by
    have count : crowdedVars.domains.count = 5 := by cbv
    rw [count]
    decide
  obtain ⟨result, t, add, rest⟩ := search_finds_the_placements reached_crowdedVars (by cbv) (by cbv)
    checked (by decide) exist SearchRule.chooses_first
  have accepted : (crowdedRequest.add crowdedVars).toOption.map (·.1.toOption.isSome) = some true := by cbv
  rcases rest with ⟨refused, -⟩ | ⟨nodes, found, u, fine, nodup, placement, search⟩
  · rw [add, refused] at accepted
    cases accepted
  · refine ⟨result, t, add, nodes, found, u, fine, nodup, placement, search, (placement _).2 ?_, ?_⟩
    · exact ⟨by decide, by decide +kernel, by decide, by decide +kernel⟩
    · intro member
      have full := ((placement _).1 member).loads 0 (by decide) 0 (by decide)
      exact absurd full (by decide +kernel)

end State

end Stowage

import Stowage.Proofs.BigItems
import Stowage.Proofs.Scripts

/-!
# Scripts are confluent

Two scripts start in the same state, post the same predicates, each in an order of its own, and propagate
now and then.  What one of them arrives at is closed, so it lies within all that the other one goes
through; hence both meet an inconsistency, or both arrive at the same domains and the same loads.

* `Ledger.Matches.same` — ledgers of the same domains.
* `State.Heir.surrounds` — what a script arrives at lies within the state it started in.
* `State.follow_within` — and within what another script arrives at.
* `State.scripts_are_confluent` — the theorem.
-/

set_option autoImplicit false

namespace Stowage

/-! ## Ledgers of the same domains -/

/-- What two ledgers agree on, the total loads apart. -/
structure Ledger.Same (p : Packing) (l m : Ledger) : Prop where
  candidates : ∀ b < p.numBins, (l.bin b).candidates = (m.bin b).candidates
  available : ∀ b < p.numBins, l.isAvailable b = m.isAvailable b
  required : ∀ d < p.numDims, ∀ b < p.numBins, (l.entry d b).required = (m.entry d b).required

/-- **Ledgers that match domains with the same values agree.** -/
theorem Ledger.Matches.same {p : Packing} {ds es : Domains} {l m : Ledger} (hl : l.Matches p ds)
    (hm : m.Matches p es) (healthy : ds.Healthy) (healthy' : es.Healthy)
    (same : ∀ x v, v ∈ ds.domain x ↔ v ∈ es.domain x) : Ledger.Same p l m := by
  have fixed : ∀ x, (ds.domain x).isFixed = (es.domain x).isFixed := by
    intro x
    obtain ⟨lower, upper⟩ := (healthy x).bounds_eq (healthy' x) (same x)
    rw [Domain.isFixed, Domain.isFixed, lower, upper]
  have value : ∀ x, (ds.domain x).fixedValue? = (es.domain x).fixedValue? := by
    intro x
    obtain ⟨lower, -⟩ := (healthy x).bounds_eq (healthy' x) (same x)
    rw [Domain.fixedValue?, Domain.fixedValue?, fixed, lower]
  have candidates : ∀ b < p.numBins, (l.bin b).candidates = (m.bin b).candidates := by
    intro b hb
    apply List.Pairwise.eq_of_mem_iff (hl.ascending b hb) (hm.ascending b hb)
    intro i
    rw [hl.candidates b hb, hm.candidates b hb, fixed, same]
  refine ⟨candidates, fun b hb => ?_, fun d hd b hb => ?_⟩
  · rw [Bool.eq_iff_iff, hl.available b hb, hm.available b hb, candidates b hb]
  · rw [hl.required d hd b hb, hm.required d hd b hb]
    simp only [value]

theorem Errand.post_mem_append {q : Predicate} {script : List Errand} {mark : Bool} :
    .post q ∈ script ++ [.propagate mark] ↔ .post q ∈ script := by
  simp

namespace State

variable {s t u : State} {p : Packer} {a b : List Errand} {m m' : Bool}

/-! ## One script within another -/

/-- **What a script arrives at lies within the state it started in**, and is closed. -/
theorem Heir.surrounds (heir : Heir s t) (reached : Reached false s) (hosts : s.Hosts p)
    (quiet : t.Quiet) (distinct : p.packing.policy = .dynamic → p.packing.vars.Nodup) :
    p.packing.Surrounds p.packing.policy t.domains (t.store.ledger p) s.domains
      (s.store.ledger p) := by
  have wf := (reached.consistent.installed 0 p hosts.runs).wf
  refine ⟨heir.closed hosts quiet, wf, heir.within, fun b hb => ?_⟩
  by_cases dynamic : p.packing.policy = .dynamic
  · exact .inl (heir.extended hosts quiet dynamic (distinct dynamic) hb)
  · exact .inr ⟨dynamic, (heir.firstSmall p hosts dynamic b).ge⟩

/-- What two states with the same packing have in common when they cannot be told apart by it. -/
structure Agrees (p : Packer) (t u : State) : Prop extends
    Ledger.Same p.packing (t.store.ledger p) (u.store.ledger p) where
  domains : ∀ x v, v ∈ t.domains.domain x ↔ v ∈ u.domains.domain x
  total : ∀ d < p.packing.numDims, ∀ b < p.packing.numBins,
    ((t.store.ledger p).entry d b).total = ((u.store.ledger p).entry d b).total

section

variable (reached : Reached false s) (hosts : s.Hosts p)
  (distinct : p.packing.policy = .dynamic → p.packing.vars.Nodup)
  (exist : ∀ q, .post q ∈ b → q.var < s.domains.count)
  (posts : ∀ q, .post q ∈ b → .post q ∈ a)

include reached hosts distinct exist posts

/-- **A script that posts no more than another one** meets no inconsistency if the other one meets none;
it arrives at domains around those of the other one, and at loads that are no smaller. -/
theorem follow_within (done : s.follow (a ++ [.propagate m]) = .ok (some t)) :
    ∃ u, s.follow (b ++ [.propagate m']) = .ok (some u) ∧ t.domains.Within u.domains ∧
      ∀ d < p.packing.numDims, ∀ b < p.packing.numBins,
        ((t.store.ledger p).entry d b).total ≤ ((u.store.ledger p).entry d b).total := by
  obtain ⟨heir, holds⟩ := follow_heir reached done
  have around := heir.surrounds reached hosts (quiet_of_follow reached done) distinct
  have before : ∀ q, .post q ∈ b ++ [.propagate m'] → .post q ∈ b := fun _ => Errand.post_mem_append.1
  have posted : ∀ q, .post q ∈ b ++ [.propagate m'] →
      ∀ v ∈ t.domains.domain q.var, q.holds v = true :=
    fun q member => holds q (List.mem_append_left _ (posts q (before q member)))
  obtain ⟨u, doneU, r, hostsU, packing, surrounds⟩ :=
    follow_around reached hosts around (fun q member => exist q (before q member)) posted
  refine ⟨u, doneU, surrounds.within, fun d hd c hc => ?_⟩
  have heirU := (follow_heir reached doneU).1
  have consU := heirU.reached.consistent
  obtain ⟨r', hostsU', -, -, layout⟩ := hosts.of_cores heirU.cores
  obtain ⟨-, rfl⟩ := hostsU.eq_of_runs hostsU'.runs
  have same : u.store.ledger r' = u.store.ledger p := Store.ledger_congr packing layout _
  rw [same] at surrounds
  have tracks := (consU.ready 0 r' hostsU.runs).tracks
  rw [packing, show (r'.desk u.store).ledger = u.store.ledger p from same] at tracks
  have wf := (reached.consistent.installed 0 p hosts.runs).wf
  exact surrounds.total_le wf consU.healthy tracks hc hd

end

/-- **Scripts are confluent.**  Two scripts start in a state whose only propagator is a packing, over
distinct variables if its big items are extended.  They post the same predicates, propagate and add
checkpoints where they like, and propagate in the end.  Then both fail, or both arrive at the same
domains, and at the same candidates, availability, required and total load of every bin.  They fail with
an inconsistency, unless a variable that they post to may be the largest value. -/
theorem scripts_are_confluent (reached : Reached false s) (hosts : s.Hosts p)
    (distinct : p.packing.policy = .dynamic → p.packing.vars.Nodup)
    (exist : ∀ q, .post q ∈ a → q.var < s.domains.count)
    (posts : ∀ q, Errand.post q ∈ a ↔ .post q ∈ b) (m m' : Bool) :
    (s.Fails (a ++ [.propagate m]) ∧ s.Fails (b ++ [.propagate m']) ∧
        ((∀ q, .post q ∈ a → s.domains.upper q.var < maxValue) →
          s.follow (a ++ [.propagate m]) = .ok none ∧ s.follow (b ++ [.propagate m']) = .ok none)) ∨
      ∃ t u, s.follow (a ++ [.propagate m]) = .ok (some t) ∧
        s.follow (b ++ [.propagate m']) = .ok (some u) ∧ Agrees p t u := by
  have exist' : ∀ q, .post q ∈ b → q.var < s.domains.count := fun q member => exist q ((posts q).2 member)
  obtain ⟨first, low⟩ := follow_cases (a ++ [.propagate m]) reached hosts.onlyPackings
    fun q member => exist q (Errand.post_mem_append.1 member)
  obtain ⟨second, low'⟩ := follow_cases (b ++ [.propagate m']) reached hosts.onlyPackings
    fun q member => exist' q (Errand.post_mem_append.1 member)
  rcases first with ⟨t, first⟩ | fails
  · right
    obtain ⟨u, second, within, total⟩ :=
      follow_within reached hosts distinct exist' (fun q => (posts q).2) first
    obtain ⟨t', first', within', total'⟩ :=
      follow_within reached hosts distinct exist (fun q => (posts q).1) second
    cases first.symm.trans first'
    have heirT := (follow_heir reached first).1
    have heirU := (follow_heir reached second).1
    have domains : ∀ x v, v ∈ t.domains.domain x ↔ v ∈ u.domains.domain x :=
      fun x v => ⟨within x v, within' x v⟩
    have matchesT := heirT.matches hosts (quiet_of_follow reached first)
    have matchesU := heirU.matches hosts (quiet_of_follow reached second)
    have same := matchesT.same matchesU heirT.reached.consistent.healthy
      heirU.reached.consistent.healthy domains
    exact ⟨t, u, first, second, same, domains,
      fun d hd b hb => le_antisymm (total d hd b hb) (total' d hd b hb)⟩
  · rcases second with ⟨u, second⟩ | fails'
    · obtain ⟨t, done, -⟩ :=
        follow_within reached hosts distinct exist (fun q => (posts q).1) second
      rcases fails with fails | fails
      · cases fails.symm.trans done
      · cases fails.symm.trans done
    · refine .inl ⟨fails, fails', fun below => ⟨fails.resolve_right (low fun q member => ?_),
        fails'.resolve_right (low' fun q member => ?_)⟩⟩
      · exact below q (Errand.post_mem_append.1 member)
      · exact below q ((posts q).2 (Errand.post_mem_append.1 member))

/-- The smallest item is put in the first bin, and the load of that bin is bounded, in one order and in the
other; the largest item then has to go to the second bin. -/
theorem crowdedSettled_scripts_agree :
    ∃ t u, Reached false crowdedSettled ∧ crowdedSettled.Hosts crowdedPacker ∧
      crowdedPacking.vars.Nodup ∧
      crowdedSettled.follow ([.post (.equals 2 0), .post (.atMost 3 5)] ++ [.propagate false]) =
        .ok (some t) ∧
      crowdedSettled.follow ([.post (.atMost 3 5), .propagate true, .post (.equals 2 0)] ++
        [.propagate true]) = .ok (some u) ∧
      Agrees crowdedPacker t u ∧ (0 : Int) ∉ t.domains.domain 0 := by
  have reached := settled_crowdedSettled.reached
  have hosts : crowdedSettled.Hosts crowdedPacker := by
    unfold Hosts
    cbv
  have distinct : crowdedPacking.vars.Nodup := by decide
  have count : crowdedSettled.domains.count = 5 := by cbv
  have exist : ∀ q, Errand.post q ∈ [Errand.post (.equals 2 0), .post (.atMost 3 5)] →
      q.var < crowdedSettled.domains.count := by
    rw [count]
    intro q member
    simp only [List.mem_cons, Errand.post.injEq, List.not_mem_nil, or_false] at member
    rcases member with rfl | rfl
    · decide
    · decide
  have posts : ∀ q, Errand.post q ∈ [Errand.post (.equals 2 0), .post (.atMost 3 5)] ↔
      .post q ∈ [Errand.post (.atMost 3 5), .propagate true, .post (.equals 2 0)] := by
    intro q
    simp [or_comm]
  have fine : (crowdedSettled.follow ([.post (.equals 2 0), .post (.atMost 3 5)] ++
      [.propagate false])).toOption.map (fun t => t.map fun t => (t.domains.domain 0).contains 0) =
        some (some false) := by cbv
  rcases scripts_are_confluent reached hosts (fun _ => distinct) exist posts false true with
    ⟨broken | broken, -, -⟩ | ⟨t, u, first, second, agrees⟩
  · rw [broken] at fine
    cases fine
  · rw [broken] at fine
    cases fine
  · rw [first] at fine
    exact ⟨t, u, reached, hosts, distinct, first, second, agrees,
      Domain.contains_eq_false_iff.1 (Option.some.inj (Option.some.inj fine))⟩

end State

end Stowage

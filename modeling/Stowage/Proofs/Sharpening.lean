import Stowage.Proofs.BigItems
import Stowage.Proofs.BruteForce
import Stowage.Proofs.Scripts

/-!
# Big items only sharpen

The same packing is added to three copies of a state, with its big items extended, left as they are at
first, and without any.  The same predicates are posted to all of them, each followed by a propagation.
The more is known about big items, the more values are removed; but no solution is lost, so it makes no
difference in the end once all items are fixed.

* `Request.run` — what is done with a copy.
* `State.follow_sharper` — a packing that knows less removes less.
* `State.upholds_solution` — a solution rules out an inconsistency.
* `State.big_items_only_sharpen` — the theorem.
-/

set_option autoImplicit false

namespace Stowage

namespace Packing

variable {p : Packing}

/-- The variables are the same when the items are sorted. -/
theorem vars_sort_perm (shaped : p.Shaped) : p.sort.vars.Perm p.vars :=
  (rearrange_perm (orderOf_firstRow shaped)).append_right p.loadVars

end Packing

/-- Posts predicates one by one, each followed by a propagation. -/
def Errand.oneByOne (posts : List Predicate) : List Errand :=
  posts.flatMap fun q => [.post q, .propagate false]

/-- Adds the packing to a state and posts predicates one by one; there is no state afterwards if an
inconsistency was met. -/
def Request.run (request : Request) (s : State) (posts : List Predicate) :
    Except Fault (Option State) := do
  let (result, t) ← request.add s
  match result with
  | .ok _ => t.follow (Errand.oneByOne posts)
  | .error _ => return none

/-- An inconsistency is met, or the range of the values is left where one would have been met. -/
def Request.Fails (request : Request) (s : State) (posts : List Predicate) : Prop :=
  request.run s posts = .ok none ∨ request.run s posts = .error .overflow

namespace Errand

variable {posts : List Predicate} {q : Predicate}

theorem post_mem_oneByOne : .post q ∈ .propagate false :: oneByOne posts ↔ q ∈ posts := by
  simp [oneByOne]

theorem oneByOne_eq (posts : List Predicate) : .propagate false :: oneByOne posts =
    (posts.flatMap fun q => [.propagate false, .post q]) ++ [.propagate false] := by
  induction posts with
  | nil => rfl
  | cons q posts ih => simpa [oneByOne] using ih

end Errand

namespace State

variable {s t m n : State} {p q : Packer} {posts : List Predicate} {script : List Errand}

/-- A solution that satisfies all that is posted rules out an inconsistency. -/
theorem upholds_solution {assignment : Var → Int}
    (holds : ∀ q, .post q ∈ script → q.holds (assignment q.var) = true) :
    Upholds script fun s => s.OnlyPackings ∧ s.Solution assignment where
  post {s q} member exist cons := by
    rintro ⟨only, solution⟩
    have inside : assignment q.var ∈ s.domains.domain q.var := solution.admits q.var exist
    have fits := cons.healthy.fits inside (holds q member)
    obtain ⟨posting, t, post, none, members⟩ := post_cases cons exist fits
    have left : posting ≠ .emptied := by
      intro emptied
      have fails := none emptied _ inside
      rw [holds q member] at fails
      cases fails
    have evolves := evolves_post post
    refine ⟨posting, t, post, left, onlyPackings_of_cores only evolves.cores,
      solution.of_cores evolves.cores fun x hx => ?_⟩
    refine (members left x _).2 ⟨solution.admits x (evolves.count ▸ hx), ?_⟩
    rintro rfl
    exact holds q member
  propagate cons := by
    rintro ⟨only, solution⟩
    obtain ⟨⟨conflict, t⟩, step⟩ := propagate_ok cons only.grounded
    obtain ⟨evolves, -, sound⟩ := propagate_spec cons step
    obtain ⟨rfl, admits⟩ := sound _ only solution
    exact ⟨t, step, onlyPackings_of_cores only evolves.cores, solution.of_cores evolves.cores admits⟩
  checkpointed := by
    rintro s ⟨only, solution⟩
    exact ⟨only, solution.admits, solution.packings⟩

/-! ## Trials -/

/-- A request is tried on a copy of a state: `m` is the copy with the packing installed, and `q` is the
packing there. -/
structure Trial (s : State) (posts : List Predicate) (request : Request) (m : State) (q : Packer) :
    Prop where
  shaped : request.packing.Shaped
  reached : Reached false m
  domains : m.domains = s.domains
  hosts : m.Hosts q
  packing : q.packing = request.packing.sort
  run : request.run s posts = m.follow (.propagate false :: Errand.oneByOne posts)

variable {items : Array Var} {sizes : Array Int} {loads : Array Var} {first second : BigItems}
  {numbered : Numbered #[loads]}

theorem vars_single : (Request.single items sizes loads first numbered).packing.vars =
    items.toList ++ loads.toList := by
  simp [Request.packing, Packing.vars, Packing.loadVars]

/-- **A packing is added and predicates are posted**: the packing is installed, and then a script is
followed. -/
theorem exists_trial (numbered : Numbered #[loads]) (posts : List Predicate) (policy : BigItems)
    (reached : Reached false s) (alone : s.propagators = #[]) (root : s.checkpoint = 0)
    (valid : Packing.checkSizes items.size sizes.toList = .ok ())
    (exist : ∀ x ∈ items.toList ++ loads.toList, x < s.domains.count) :
    ∃ m q, Trial s posts (.single items sizes loads policy numbered) m q := by
  have checked : (Request.single items sizes loads policy numbered).checked =
      .ok (Request.single items sizes loads policy numbered).packing.sort := by
    simp only [Request.checked, Packing.single?, valid, bind, Except.bind]
    rfl
  obtain ⟨shaped, -⟩ := Request.checked_eq_ok checked
  have single : PackingKind.single ≠ .vector := by decide
  obtain ⟨m, conflict, t, -, reachedM, domains, hosts, -, propagate, add⟩ :=
    addPacking_alone (fun vector => absurd vector single) reached alone root
      (Packing.wellFormed_sort shaped) (Packing.known_sort shaped (vars_single ▸ exist))
  refine ⟨m, _, shaped, reachedM, domains, hosts, rfl, ?_⟩
  have added := (Request.add_eq (.single items sizes loads policy numbered) s).trans (checked ▸ add)
  simp only [Request.run, added, follow, errand, propagate, bind, Except.bind]
  cases conflict with
  | none => rfl
  | some c => rfl

namespace Trial

variable (trial : Trial s posts (.single items sizes loads first numbered) m p)

include trial

/-- A trial succeeds or fails, and it does not leave the range of the values if the variables posted to are
smaller than the largest value. -/
theorem returns (known : ∀ q ∈ posts, q.var < s.domains.count) :
    ((∃ t, (Request.single items sizes loads first numbered).run s posts = .ok (some t)) ∨
        (Request.single items sizes loads first numbered).Fails s posts) ∧
      ((∀ q ∈ posts, s.domains.upper q.var < maxValue) →
        (Request.single items sizes loads first numbered).run s posts ≠ .error .overflow) := by
  have exist : ∀ q, .post q ∈ Errand.propagate false :: Errand.oneByOne posts →
      q.var < m.domains.count :=
    fun q member => trial.domains ▸ known q (Errand.post_mem_oneByOne.1 member)
  obtain ⟨ends, low⟩ := follow_cases _ trial.reached trial.hosts.onlyPackings exist
  rw [Request.Fails, trial.run]
  exact ⟨ends, fun below => low fun q member =>
    trial.domains ▸ below q (Errand.post_mem_oneByOne.1 member)⟩

theorem heir (done : (Request.single items sizes loads first numbered).run s posts = .ok (some t)) :
    Heir m t ∧ t.Quiet ∧ ∀ q ∈ posts, ∀ v ∈ t.domains.domain q.var, q.holds v = true := by
  rw [trial.run] at done
  obtain ⟨heir, holds⟩ := follow_heir trial.reached done
  exact ⟨heir, quiet_of_follow trial.reached (Errand.oneByOne_eq posts ▸ done),
    fun q member => holds q (Errand.post_mem_oneByOne.2 member)⟩

/-- If the posts leave at most one value to a variable, it is fixed in the end. -/
theorem isFixed_of_posts (done : (Request.single items sizes loads first numbered).run s posts = .ok (some t))
    {x : Var} {v : Int} (only : ∀ w ∈ s.domains.domain x,
      (∀ q ∈ posts, q.var = x → q.holds w = true) → w = v) :
    (t.domains.domain x).isFixed = true := by
  obtain ⟨heir, -, holds⟩ := trial.heir done
  apply (heir.reached.consistent.healthy x).isFixed_of_forall_eq
  intro w member
  apply only w (trial.domains ▸ heir.within x w member)
  rintro q inside rfl
  exact holds q inside w member

variable (trial' : Trial s posts (.single items sizes loads second numbered) n q)
  (known : ∀ q ∈ posts, q.var < s.domains.count)

include trial' known

/-- **A packing that knows less about big items removes less.** -/
theorem sharpens
    (less : first = .dynamic ∧ (items.toList ++ loads.toList).Nodup ∨ second = .disabled)
    (done : (Request.single items sizes loads first numbered).run s posts = .ok (some t)) :
    ∃ u, (Request.single items sizes loads second numbered).run s posts = .ok (some u) ∧
      t.domains.Within u.domains := by
  obtain ⟨heir, quiet, holds⟩ := trial.heir done
  have same : q.packing.withPolicy first = p.packing := by
    rw [trial.packing, trial'.packing]
    rfl
  have closed := heir.closed trial.hosts quiet
  have wf := (trial.reached.consistent.installed 0 p trial.hosts.runs).wf
  have within : t.domains.Within n.domains := by
    rw [trial'.domains, ← trial.domains]
    exact heir.within
  have around : q.packing.Surrounds first t.domains (t.store.ledger p) n.domains
      (n.store.ledger q) := by
    rcases less with ⟨dynamic, distinct⟩ | disabled
    · refine ⟨same.symm ▸ closed, same.symm ▸ wf, within, fun b hb => .inl ?_⟩
      have policy : p.packing.policy = .dynamic := by
        rw [trial.packing]
        exact dynamic
      have vars : p.packing.vars.Nodup := by
        rw [trial.packing, (Packing.vars_sort_perm trial.shaped).nodup_iff, vars_single]
        exact distinct
      have bound : b < p.packing.numBins := by
        rw [← same]
        exact hb
      have extended := heir.extended trial.hosts quiet policy vars bound
      rw [← same] at extended
      exact extended
    · have policy : q.packing.policy = .disabled := by
        rw [trial'.packing]
        exact disabled
      exact trial'.reached.consistent.surrounds_of_disabled trial'.hosts.runs policy (same.symm ▸ wf)
        (same.symm ▸ closed) within
  rw [trial'.run]
  obtain ⟨u, done', r, -, -, stays⟩ := follow_around trial'.reached trial'.hosts around
    (fun q member => trial'.domains ▸ known q (Errand.post_mem_oneByOne.1 member))
    fun q member => holds q (Errand.post_mem_oneByOne.1 member)
  exact ⟨u, done', stays.within⟩

/-- **Where all items end up fixed, nothing is lost**: what is found then is a solution. -/
theorem succeeds (done : (Request.single items sizes loads second numbered).run s posts = .ok (some t))
    (fixed : ∀ x ∈ items, (t.domains.domain x).isFixed = true) :
    ∃ u, (Request.single items sizes loads first numbered).run s posts = .ok (some u) := by
  obtain ⟨heir, quiet, holds⟩ := trial'.heir done
  obtain ⟨r, hostsT, -, packing, -⟩ := trial'.hosts.of_cores heir.cores
  have solved : t.Solution t.domains.lower := by
    refine heir.reached.consistent.solution_lower quiet fun id r' runs i hi => ?_
    obtain ⟨-, rfl⟩ := hostsT.eq_of_runs runs
    apply fixed
    rw [packing, trial'.packing, Packing.numItems_sort trial'.shaped] at hi
    rw [packing, trial'.packing, Packing.item_sort trial'.shaped hi]
    have member := Packing.getElem?_items (Packing.rename_lt trial'.shaped hi)
    exact Array.mem_toList_iff.1 (List.mem_of_getElem? member)
  have placed : p.packing.Solution t.domains.lower := by
    have solution := solved.packings 0 r hostsT.runs
    rw [packing, trial'.packing] at solution
    rw [trial.packing]
    exact ⟨solution.inBins, solution.loads⟩
  have solution : m.Solution t.domains.lower := by
    have admits := heir.within.admits heir.count solved.admits
    rw [trial'.domains, ← trial.domains] at admits
    refine ⟨admits, fun id r' runs => ?_⟩
    obtain ⟨-, rfl⟩ := trial.hosts.eq_of_runs runs
    exact placed
  have satisfied : ∀ q, .post q ∈ Errand.propagate false :: Errand.oneByOne posts →
      q.holds (t.domains.lower q.var) = true := fun q member =>
    holds q (Errand.post_mem_oneByOne.1 member) _ (heir.reached.consistent.healthy q.var).lower_mem
  obtain ⟨u, done', -⟩ := (upholds_solution satisfied).follow trial.reached
    (fun q member => trial.domains ▸ known q (Errand.post_mem_oneByOne.1 member))
    ⟨trial.hosts.onlyPackings, solution⟩
  exact ⟨u, trial.run.trans done'⟩

end Trial

/-- **Big items only sharpen.**  A packing of one dimension is added to copies of a state without
propagators, over distinct variables, and predicates are posted one by one, each followed by a
propagation.  Every run succeeds or fails; it fails with an inconsistency, unless a variable that is
posted to may be the largest value.  If the run succeeds where big items are extended, then so it does
where they are left as they were at first, and no value is removed there that is kept where they are
extended; in the same way, where there are big items compared with where there are none.  If the posts
leave at most one value to every item, or every item is fixed in the end even without big items, then all
runs succeed or all of them fail. -/
theorem big_items_only_sharpen {items : Array Var} {sizes : Array Int} {loads : Array Var}
    (numbered : Numbered #[loads]) (posts : List Predicate)
    (reached : Reached false s) (alone : s.propagators = #[]) (root : s.checkpoint = 0)
    (valid : Packing.checkSizes items.size sizes.toList = .ok ())
    (distinct : (items.toList ++ loads.toList).Nodup)
    (exist : ∀ x ∈ items.toList ++ loads.toList, x < s.domains.count)
    (known : ∀ q ∈ posts, q.var < s.domains.count) :
    let run := fun policy => (Request.single items sizes loads policy numbered).run s posts
    let fails := fun policy => (Request.single items sizes loads policy numbered).Fails s posts
    (∀ policy, ((∃ t, run policy = .ok (some t)) ∨ fails policy) ∧
        ((∀ q ∈ posts, s.domains.upper q.var < maxValue) → run policy ≠ .error .overflow)) ∧
      (∀ t, run .dynamic = .ok (some t) →
        ∃ u, run .static = .ok (some u) ∧ t.domains.Within u.domains) ∧
      (∀ t, run .static = .ok (some t) →
        ∃ u, run .disabled = .ok (some u) ∧ t.domains.Within u.domains) ∧
      ((∀ x ∈ items, ∃ v, ∀ w ∈ s.domains.domain x,
            (∀ q ∈ posts, q.var = x → q.holds w = true) → w = v) ∨
          (∀ t, run .disabled = .ok (some t) → ∀ x ∈ items, (t.domains.domain x).isFixed = true) →
        (∀ policy, ∃ t, run policy = .ok (some t)) ∨ ∀ policy, fails policy) := by
  have trial := fun policy =>
    exists_trial numbered posts policy reached alone root valid exist
  obtain ⟨m, p, extending⟩ := trial .dynamic
  obtain ⟨n, q, staying⟩ := trial .static
  obtain ⟨o, r, without⟩ := trial .disabled
  have returns : ∀ policy, _ := fun policy =>
    match trial policy with
    | ⟨_, _, tried⟩ => tried.returns known
  have fewer := fun t => extending.sharpens (t := t) staying known (.inl ⟨rfl, distinct⟩)
  have fewest := fun t => staying.sharpens (t := t) without known (.inr rfl)
  refine ⟨returns, fewer, fewest, fun fixing => ?_⟩
  by_cases succeeds : ∃ t, (Request.single items sizes loads .disabled numbered).run s posts = .ok (some t)
  · left
    obtain ⟨t, plain⟩ := succeeds
    have fixed : ∀ x ∈ items, (t.domains.domain x).isFixed = true := by
      rcases fixing with posted | fixed
      · intro x member
        obtain ⟨v, only⟩ := posted x member
        exact without.isFixed_of_posts plain only
      · exact fixed t plain
    obtain ⟨u, dynamic⟩ := extending.succeeds without known plain fixed
    obtain ⟨v, static, -⟩ := fewer u dynamic
    intro policy
    cases policy with
    | disabled => exact ⟨t, plain⟩
    | static => exact ⟨v, static⟩
    | dynamic => exact ⟨u, dynamic⟩
  · right
    have static : ¬∃ t, (Request.single items sizes loads .static numbered).run s posts = .ok (some t) :=
      fun ⟨t, done⟩ => succeeds ((fewest t done).imp fun _ => And.left)
    have dynamic : ¬∃ t, (Request.single items sizes loads .dynamic numbered).run s posts = .ok (some t) :=
      fun ⟨t, done⟩ => static ((fewer t done).imp fun _ => And.left)
    intro policy
    refine (returns policy).1.resolve_left ?_
    cases policy with
    | disabled => exact succeeds
    | static => exact static
    | dynamic => exact dynamic

/-- The items of size three exclude each other when the first bin holds no more than five.  Only where big
items are extended this is noticed, and a sixth of the second load is removed; when the items are placed
afterwards, no inconsistency is met anywhere. -/
theorem excluding_big_items_only_sharpen :
    let run := fun policy posts => (Request.single #[0, 1, 2] #[3, 3, 1] #[3, 4] policy).run crowdedVars posts
    (∃ t u v, run .dynamic [.atMost 3 5] = .ok (some t) ∧ run .static [.atMost 3 5] = .ok (some u) ∧
      run .disabled [.atMost 3 5] = .ok (some v) ∧ t.domains.Within u.domains ∧
      u.domains.Within v.domains ∧ t.domains.upper 3 = 4 ∧ u.domains.upper 3 = 5) ∧
    ∀ policy, ∃ t, run policy [.atMost 3 5, .equals 0 0, .equals 1 1, .equals 2 0] = .ok (some t) := by
  have count : crowdedVars.domains.count = 5 := by cbv
  have valid : Packing.checkSizes (#[0, 1, 2] : Array Var).size (#[3, 3, 1] : Array Int).toList =
      .ok () := by cbv
  have distinct : ((#[0, 1, 2] : Array Var).toList ++ (#[3, 4] : Array Var).toList).Nodup := by decide
  have exist : ∀ x ∈ (#[0, 1, 2] : Array Var).toList ++ (#[3, 4] : Array Var).toList,
      x < crowdedVars.domains.count := by
    rw [count]
    decide
  have sharpens := fun posts known => big_items_only_sharpen (by decide) posts
    reached_crowdedVars (by cbv) (by cbv) valid distinct exist known
  have upper : ∀ policy, ((Request.single #[0, 1, 2] #[3, 3, 1] #[3, 4] policy).run crowdedVars
      [.atMost 3 5]).toOption.map (fun t => t.map fun t => t.domains.upper 3) =
        some (some (if policy = .dynamic then 4 else 5)) := by
    intro policy
    cases policy <;> cbv
  have placed : ((Request.single #[0, 1, 2] #[3, 3, 1] #[3, 4] .disabled).run crowdedVars
      [.atMost 3 5, .equals 0 0, .equals 1 1, .equals 2 0]).toOption.map (·.isSome) =
        some true := by cbv
  constructor
  · obtain ⟨returns, fewer, fewest, -⟩ := sharpens [.atMost 3 5] (by rw [count]; decide)
    have fine : ∃ t, (Request.single #[0, 1, 2] #[3, 3, 1] #[3, 4] .dynamic).run crowdedVars
        [.atMost 3 5] = .ok (some t) := by
      rcases (returns .dynamic).1 with done | broken | broken
      · exact done
      · have none := upper .dynamic
        rw [broken] at none
        cases none
      · have none := upper .dynamic
        rw [broken] at none
        cases none
    dsimp only at fewer fewest
    obtain ⟨t, dynamic⟩ := fine
    obtain ⟨u, static, within⟩ := fewer t dynamic
    obtain ⟨v, plain, within'⟩ := fewest u static
    have first := upper .dynamic
    have second := upper .static
    rw [dynamic] at first
    rw [static] at second
    exact ⟨t, u, v, dynamic, static, plain, within, within',
      Option.some.inj (Option.some.inj first), Option.some.inj (Option.some.inj second)⟩
  · obtain ⟨-, -, -, same⟩ := sharpens [.atMost 3 5, .equals 0 0, .equals 1 1, .equals 2 0]
      (by rw [count]; decide)
    refine (same (.inl ?_)).resolve_right fun fails => ?_
    · intro x member
      have item : x = 0 ∨ x = 1 ∨ x = 2 := by simpa using member
      rcases item with rfl | rfl | rfl
      · exact ⟨0, fun w _ satisfied => of_decide_eq_true (satisfied (.equals 0 0) (by decide) rfl)⟩
      · exact ⟨1, fun w _ satisfied => of_decide_eq_true (satisfied (.equals 1 1) (by decide) rfl)⟩
      · exact ⟨0, fun w _ satisfied => of_decide_eq_true (satisfied (.equals 2 0) (by decide) rfl)⟩
    · rcases fails .disabled with broken | broken
      · rw [broken] at placed
        cases placed
      · rw [broken] at placed
        cases placed

end State

end Stowage

import Stowage.Proofs.FixedPoints
import Stowage.Proofs.Hosting
import Stowage.Proofs.Rooted

/-!
# Scripts

A script posts predicates and propagates, and may add checkpoints after propagations.  It ends early
when it meets an inconsistency.

* `Errand`, `State.follow` — what a script does.
* `State.Heir` — what is left of a state when a script was followed to its end; `State.follow_heir`.
* `State.Fails`, `State.follow_cases` — a script ends, or it fails with an inconsistency or an overflow.
* `State.Upholds.follow` — what makes sure that a script meets no inconsistency.
-/

set_option autoImplicit false

namespace Stowage

/-- A step of a script. -/
inductive Errand where
  | post (q : Predicate)
  /-- A propagation, after which a checkpoint is added if it is marked. -/
  | propagate (mark : Bool)
  deriving DecidableEq, Repr

namespace State

/-- Takes a step; there is no state afterwards if an inconsistency was met. -/
def errand (s : State) : Errand → Except Fault (Option State)
  | .post q => do
    let (posting, t) ← s.post q
    return if posting = .emptied then none else some t
  | .propagate mark => do
    let (conflict, t) ← s.propagate
    if conflict.isSome then return none
    else if mark then return some (← t.checkpointed)
    else return some t

/-- Follows a script until it ends or an inconsistency is met. -/
def follow (s : State) : List Errand → Except Fault (Option State)
  | [] => return some s
  | e :: script => do
    match ← s.errand e with
    | none => return none
    | some t => t.follow script

variable {s t u : State} {q : Predicate} {mark : Bool} {script : List Errand}

/-! ## One step -/

theorem post_cases (cons : s.Consistent) (exist : q.var < s.domains.count) (fits : s.domains.Fits q) :
    ∃ posting t, s.post q = .ok (posting, t) ∧
      (posting = .emptied → ∀ v ∈ s.domains.domain q.var, q.holds v = false) ∧
      (posting ≠ .emptied → ∀ x v, v ∈ t.domains.domain x ↔
        v ∈ s.domains.domain x ∧ (x = q.var → q.holds v = true)) := by
  rcases Domains.post_cases cons.healthy exist fits with ⟨post, -⟩ | ⟨ds, post, -⟩ | ⟨ds, post, none⟩
  · exact ⟨_, _, post_ok post, nofun, Domains.mem_post_iff cons.healthy post⟩
  · exact ⟨_, _, post_ok post, nofun, Domains.mem_post_iff cons.healthy post⟩
  · exact ⟨_, _, post_ok post, fun _ => none, fun left => absurd rfl left⟩

theorem post_overflows (exist : q.var < s.domains.count) (tight : ¬s.domains.Fits q) :
    s.post q = .error .overflow := by
  simp only [State.post, Domains.post_of_not_fits exist tight, bind, Except.bind]

theorem errand_post (cons : s.Consistent) (h : s.errand (.post q) = .ok (some t)) :
    ∃ posting, s.post q = .ok (posting, t) ∧ posting ≠ .emptied ∧ ∀ x v,
      v ∈ t.domains.domain x ↔ v ∈ s.domains.domain x ∧ (x = q.var → q.holds v = true) := by
  simp only [errand, bind, Except.bind, pure, Except.pure] at h
  split at h
  · cases h
  · rename_i result post
    obtain ⟨posting, u⟩ := result
    split at h
    · cases h
    · rename_i left
      cases h
      obtain ⟨ds, posted, rfl⟩ := post_eq_ok post
      exact ⟨posting, post, left, Domains.mem_post_iff cons.healthy posted left⟩

theorem errand_propagate (h : s.errand (.propagate mark) = .ok (some t)) :
    ∃ u, s.propagate = .ok (none, u) ∧ if mark then u.checkpointed = .ok t else u = t := by
  simp only [errand, bind, Except.bind, pure, Except.pure] at h
  split at h
  · cases h
  · rename_i result step
    obtain ⟨conflict, u⟩ := result
    cases conflict with
    | some c => simp at h
    | none =>
      refine ⟨u, step, ?_⟩
      cases mark with
      | false => simpa using h
      | true =>
        simp only [Option.isSome_none, Bool.false_eq_true, if_false, if_true] at h ⊢
        split at h
        · cases h
        · rename_i v marked
          cases h
          exact marked

/-- A propagation without an inconsistency, after which a checkpoint can be added. -/
theorem errand_propagate_eq (reached : Reached false s) (step : s.propagate = .ok (none, t))
    (mark : Bool) : s.errand (.propagate mark) =
      .ok (some (if mark then { t with store := t.store.mark } else t)) := by
  have quiet := ((propagate_spec reached.consistent step).2.1 rfl).2.1
  simp only [errand, step, bind, Except.bind]
  cases mark with
  | false => rfl
  | true =>
    simp only [checkpointed_of_quiet quiet]
    rfl

theorem follow_cons {e : Errand} (h : s.follow (e :: script) = .ok (some t)) :
    ∃ u, s.errand e = .ok (some u) ∧ u.follow script = .ok (some t) := by
  simp only [follow, bind, Except.bind, pure, Except.pure] at h
  split at h
  · cases h
  · rename_i result step
    cases result with
    | none => cases h
    | some u => exact ⟨u, step, h⟩

theorem follow_append {first last : List Errand} (h : s.follow (first ++ last) = .ok (some t)) :
    ∃ u, s.follow first = .ok (some u) ∧ u.follow last = .ok (some t) := by
  induction first generalizing s with
  | nil => exact ⟨s, rfl, h⟩
  | cons e first ih =>
    obtain ⟨v, step, rest⟩ := follow_cons h
    obtain ⟨u, before, after⟩ := ih rest
    exact ⟨u, by simp only [follow, step, bind, Except.bind]; exact before, after⟩

/-! ## What is left of a state -/

/-- What is left of a state when a script was followed to its end. -/
structure Heir (s t : State) : Prop where
  reached : Reached false t
  cores : t.propagators.map Propagator.core = s.propagators.map Propagator.core
  count : t.domains.count = s.domains.count
  within : t.domains.Within s.domains
  /-- Unless big items are extended, the first small position of every bin stays. -/
  firstSmall : ∀ p, s.Hosts p → p.packing.policy ≠ .dynamic → ∀ b,
    ((t.store.ledger p).bin b).firstSmall = ((s.store.ledger p).bin b).firstSmall

theorem Heir.refl (reached : Reached false s) : Heir s s :=
  ⟨reached, rfl, rfl, fun _ _ member => member, fun _ _ _ _ => rfl⟩

theorem Heir.trans (h : Heir s t) (h' : Heir t u) : Heir s u := by
  refine ⟨h'.reached, h'.cores.trans h.cores, h'.count.trans h.count,
    fun x v member => h.within x v (h'.within x v member), fun p hosts fixed b => ?_⟩
  obtain ⟨r, hostsT, -, packing, layout⟩ := hosts.of_cores h.cores
  have later := h'.firstSmall r hostsT (packing ▸ fixed) b
  rw [Store.ledger_congr packing layout, Store.ledger_congr packing layout] at later
  exact later.trans (h.firstSmall p hosts fixed b)

theorem heir_post {posting : Posting} (reached : Reached false s) (step : s.post q = .ok (posting, t))
    (left : posting ≠ .emptied) : Heir s t := by
  have reachedT := Reached.post reached step
  rw [decide_eq_false left] at reachedT
  have evolves := evolves_post step
  obtain ⟨ds, post, rfl⟩ := post_eq_ok step
  have narrows := Domains.narrows_of_post reached.consistent.healthy post left
  exact ⟨reachedT, evolves.cores, evolves.count, narrows.subset, fun _ _ _ _ => rfl⟩

theorem heir_propagate (reached : Reached false s) (step : s.propagate = .ok (none, t)) : Heir s t := by
  have cons := reached.consistent
  obtain ⟨evolves, settled, -⟩ := propagate_spec cons step
  refine ⟨.propagate reached step, evolves.cores, evolves.count, (settled rfl).2.2,
    fun p hosts fixed b => ?_⟩
  have wf := (cons.installed 0 p hosts.runs).wf
  have keeping : s.Keeping p.packing fun _ l =>
      ∀ b, (l.bin b).firstSmall = ((s.store.ledger p).bin b).firstSmall :=
    ⟨p, hosts, rfl, fun _ => rfl⟩
  obtain ⟨r, hostsT, -, same⟩ := (keeping.propagate (Packing.keeps_firstSmall wf fixed _) cons step).1 rfl
  obtain ⟨r', hostsT', -, packing, layout⟩ := hosts.of_cores evolves.cores
  obtain ⟨-, rfl⟩ := hostsT.eq_of_runs hostsT'.runs
  have kept := same b
  rwa [Store.ledger_congr packing layout] at kept

theorem heir_checkpointed (reached : Reached false s) (step : s.checkpointed = .ok t) : Heir s t := by
  have reachedT := Reached.checkpointed reached step
  obtain ⟨-, rfl⟩ := checkpointed_eq_ok step
  exact ⟨reachedT, rfl, rfl, fun _ _ member => member, fun _ _ _ _ => rfl⟩

/-- What a propagation leaves, perhaps with a checkpoint. -/
theorem heir_errand_propagate (reached : Reached false s)
    (h : s.errand (.propagate mark) = .ok (some t)) : Heir s t ∧ t.Quiet := by
  obtain ⟨u, step, rest⟩ := errand_propagate h
  have heir := heir_propagate reached step
  have quiet := ((propagate_spec reached.consistent step).2.1 rfl).2.1
  cases mark with
  | false =>
    cases rest
    exact ⟨heir, quiet⟩
  | true =>
    refine ⟨heir.trans (heir_checkpointed heir.reached rest), ?_⟩
    obtain ⟨-, rfl⟩ := checkpointed_eq_ok rest
    exact ⟨quiet.queue, quiet.pending⟩

/-- **A script that was followed to its end narrows the domains to what it has posted.** -/
theorem follow_heir (reached : Reached false s) (h : s.follow script = .ok (some t)) :
    Heir s t ∧ ∀ q, .post q ∈ script → ∀ v ∈ t.domains.domain q.var, q.holds v = true := by
  induction script generalizing s with
  | nil =>
    cases h
    exact ⟨.refl reached, fun q member => by cases member⟩
  | cons e script ih =>
    obtain ⟨u, step, rest⟩ := follow_cons h
    cases e with
    | post r =>
      obtain ⟨posting, post, left, members⟩ := errand_post reached.consistent step
      have first := heir_post reached post left
      obtain ⟨heir, holds⟩ := ih first.reached rest
      refine ⟨first.trans heir, fun q member v hv => ?_⟩
      rcases List.mem_cons.1 member with same | later
      · cases same
        exact ((members _ v).1 (heir.within _ v hv)).2 rfl
      · exact holds q later v hv
    | propagate mark =>
      obtain ⟨first, -⟩ := heir_errand_propagate reached step
      obtain ⟨heir, holds⟩ := ih first.reached rest
      refine ⟨first.trans heir, fun q member => ?_⟩
      exact holds q ((List.mem_cons.1 member).resolve_left nofun)

/-- A script that ends with a propagation leads to a fixed point. -/
theorem quiet_of_follow {body : List Errand} (reached : Reached false s)
    (h : s.follow (body ++ [.propagate mark]) = .ok (some t)) : t.Quiet := by
  obtain ⟨u, before, last⟩ := follow_append h
  obtain ⟨v, step, done⟩ := follow_cons last
  cases done
  exact (heir_errand_propagate (follow_heir reached before).1.reached step).2

section

variable {p : Packer} (heir : Heir s t) (hosts : s.Hosts p) (quiet : t.Quiet)

include heir hosts quiet

theorem Heir.closed : p.packing.Closed t.domains (t.store.ledger p) := by
  obtain ⟨q, hostsT, -, packing, layout⟩ := hosts.of_cores heir.cores
  have closed := heir.reached.closed quiet hostsT.runs
  rwa [packing, Store.ledger_congr packing layout] at closed

/-- At a fixed point the big items have been extended where they can be. -/
theorem Heir.extended (dynamic : p.packing.policy = .dynamic) (distinct : p.packing.vars.Nodup)
    {b : Nat} (hb : b < p.packing.numBins) : ((t.store.ledger p).bin b).Extended p.packing
      (p.packing.freeSpace (t.store.ledger p) t.domains 0 b) := by
  obtain ⟨q, hostsT, -, packing, layout⟩ := hosts.of_cores heir.cores
  have extended := heir.reached.extended quiet hostsT.runs
    (packing ▸ dynamic) (packing ▸ distinct) (packing ▸ hb)
  rwa [packing, Store.ledger_congr packing layout] at extended

/-- At a fixed point the ledger matches the domains. -/
theorem Heir.matches : (t.store.ledger p).Matches p.packing t.domains := by
  obtain ⟨q, hostsT, -, packing, layout⟩ := hosts.of_cores heir.cores
  have cons := heir.reached.consistent
  have ledger : (t.store.ledger q).Matches q.packing t.domains :=
    (cons.revised quiet hostsT.runs).matches quiet.pending (cons.installed 0 q hostsT.runs).wf
  rwa [packing, Store.ledger_congr packing layout] at ledger

end

/-! ## Following a script -/

/-- A script meets an inconsistency, or leaves the range of the values where it would have met one. -/
def Fails (s : State) (script : List Errand) : Prop :=
  s.follow script = .ok none ∨ s.follow script = .error .overflow

/-- A step that does not fault, unless it posts a predicate that does not fit. -/
theorem errand_cases (reached : Reached false s) (only : s.OnlyPackings) (e : Errand)
    (exist : ∀ q, e = .post q → q.var < s.domains.count) :
    s.errand e = .ok none ∨ (∃ u, s.errand e = .ok (some u) ∧ Heir s u) ∨
      s.errand e = .error .overflow ∧ ∃ q, e = .post q ∧ maxValue ≤ s.domains.upper q.var := by
  cases e with
  | post q =>
    by_cases fits : s.domains.Fits q
    · obtain ⟨posting, t, post, -⟩ := post_cases reached.consistent (exist q rfl) fits
      simp only [errand, post, bind, Except.bind]
      by_cases emptied : posting = .emptied
      · exact .inl (by rw [if_pos emptied]; rfl)
      · exact .inr (.inl ⟨t, by rw [if_neg emptied]; rfl, heir_post reached post emptied⟩)
    · refine .inr (.inr ⟨?_, q, rfl, not_lt.1 fun below => fits (Domains.fits_of_upper_lt below)⟩)
      simp only [errand, post_overflows (exist q rfl) fits, bind, Except.bind]
  | propagate mark =>
    obtain ⟨⟨conflict, t⟩, step⟩ := propagate_ok reached.consistent only.grounded
    cases conflict with
    | some c =>
      simp only [errand, step, bind, Except.bind]
      exact .inl rfl
    | none =>
      have done := errand_propagate_eq reached step mark
      exact .inr (.inl ⟨_, done, (heir_errand_propagate reached done).1⟩)

/-- **A script ends or fails**, as long as there are only packings and it posts to variables that exist;
it leaves no range if the variables it posts to are smaller than the largest value. -/
theorem follow_cases (script : List Errand) (reached : Reached false s) (only : s.OnlyPackings)
    (exist : ∀ q, .post q ∈ script → q.var < s.domains.count) :
    ((∃ t, s.follow script = .ok (some t)) ∨ s.Fails script) ∧
      ((∀ q, .post q ∈ script → s.domains.upper q.var < maxValue) →
        s.follow script ≠ .error .overflow) := by
  induction script generalizing s with
  | nil => exact ⟨.inl ⟨s, rfl⟩, fun _ => nofun⟩
  | cons e script ih =>
    rcases errand_cases reached only e fun q same => exist q (same ▸ List.mem_cons_self) with
      stops | ⟨u, step, heir⟩ | ⟨overflows, q, rfl, top⟩
    · simp only [Fails, follow, stops, bind, Except.bind]
      exact ⟨.inr (.inl rfl), fun _ => nofun⟩
    · obtain ⟨rest, below⟩ := ih heir.reached (onlyPackings_of_cores only heir.cores)
        fun q member => heir.count ▸ exist q (List.mem_cons_of_mem _ member)
      simp only [Fails, follow, step, bind, Except.bind]
      refine ⟨rest, fun low => below fun q member => ?_⟩
      exact lt_of_le_of_lt (heir.within.upper_le heir.reached.consistent.healthy q.var)
        (low q (List.mem_cons_of_mem _ member))
    · simp only [Fails, follow, overflows, bind, Except.bind]
      exact ⟨.inr (.inr trivial), fun low => absurd (low q List.mem_cons_self) (not_lt.2 top)⟩

/-- What holds of a state and of all that a script makes of it, and rules out an inconsistency. -/
structure Upholds (script : List Errand) (K : State → Prop) : Prop where
  post : ∀ {s : State} {q : Predicate}, .post q ∈ script → q.var < s.domains.count → s.Consistent →
    K s → ∃ posting t, s.post q = .ok (posting, t) ∧ posting ≠ .emptied ∧ K t
  propagate : ∀ {s : State}, s.Consistent → K s → ∃ t, s.propagate = .ok (none, t) ∧ K t
  checkpointed : ∀ {s : State}, K s → K { s with store := s.store.mark }

/-- **Such a script is followed to its end.** -/
theorem Upholds.follow {K : State → Prop} (upholds : Upholds script K) (reached : Reached false s)
    (exist : ∀ q, .post q ∈ script → q.var < s.domains.count) (holds : K s) :
    ∃ t, s.follow script = .ok (some t) ∧ K t := by
  induction script generalizing s with
  | nil => exact ⟨s, rfl, holds⟩
  | cons e script ih =>
    have later : Upholds script K :=
      ⟨fun member => upholds.post (List.mem_cons_of_mem _ member), upholds.propagate,
        upholds.checkpointed⟩
    suffices first : ∃ u, s.errand e = .ok (some u) ∧ Heir s u ∧ K u by
      obtain ⟨u, step, heir, holds⟩ := first
      obtain ⟨t, rest, done⟩ := ih later heir.reached
        (fun q member => heir.count ▸ exist q (List.mem_cons_of_mem _ member)) holds
      exact ⟨t, by simp only [State.follow, step, bind, Except.bind]; exact rest, done⟩
    cases e with
    | post q =>
      obtain ⟨posting, u, post, left, holds⟩ := upholds.post List.mem_cons_self
        (exist q List.mem_cons_self) reached.consistent holds
      refine ⟨u, ?_, heir_post reached post left, holds⟩
      simp [errand, post, left, bind, Except.bind, pure, Except.pure]
    | propagate mark =>
      obtain ⟨u, step, holds⟩ := upholds.propagate reached.consistent holds
      have done := errand_propagate_eq reached step mark
      refine ⟨_, done, (heir_errand_propagate reached done).1, ?_⟩
      cases mark with
      | false => exact holds
      | true => exact upholds.checkpointed holds

/-! ## Around closed domains -/

section

variable {p : Packing} {policy : BigItems} {inner : Domains} {account : Ledger}

/-- Closed domains in which all that is posted holds stay within. -/
theorem upholds_surrounds (wf : p.WellFormed)
    (holds : ∀ q, .post q ∈ script → ∀ v ∈ inner.domain q.var, q.holds v = true) :
    Upholds script fun s => s.Keeping p (p.Surrounds policy inner account) where
  post {s q} member exist cons keeping := by
    obtain ⟨r, hosts, rfl, around⟩ := keeping
    have least := (around.closed.healthy q.var).lower_mem
    have fits := cons.healthy.fits (around.within _ _ least) (holds q member _ least)
    obtain ⟨posting, t, post, none, members⟩ := post_cases cons exist fits
    have left : posting ≠ .emptied := by
      intro emptied
      have fails := none emptied _ (around.within _ _ least)
      rw [holds q member _ least] at fails
      cases fails
    have within : inner.Within t.domains := by
      intro x v inside
      refine (members left x v).2 ⟨around.within x v inside, ?_⟩
      rintro rfl
      exact holds q member v inside
    obtain ⟨ds, -, rfl⟩ := post_eq_ok post
    exact ⟨posting, _, post, left, r, hosts, rfl, around.closed, around.wf, within, around.sharp⟩
  propagate cons keeping := keeping.surrounds wf cons
  checkpointed keeping := by
    obtain ⟨r, hosts, rfl, around⟩ := keeping
    exact ⟨r, hosts, rfl, around.closed, around.wf, around.within, around.sharp⟩

/-- **Around closed domains in which all that is posted holds, a script meets no inconsistency.** -/
theorem follow_around {r : Packer} (reached : Reached false s) (hosts : s.Hosts r)
    (around : r.packing.Surrounds policy inner account s.domains (s.store.ledger r))
    (exist : ∀ q, .post q ∈ script → q.var < s.domains.count)
    (holds : ∀ q, .post q ∈ script → ∀ v ∈ inner.domain q.var, q.holds v = true) :
    ∃ t, s.follow script = .ok (some t) ∧
      t.Keeping r.packing (r.packing.Surrounds policy inner account) := by
  have wf := (reached.consistent.installed 0 r hosts.runs).wf
  exact (upholds_surrounds wf holds).follow reached exist ⟨r, hosts, rfl, around⟩

end

end State

end Stowage

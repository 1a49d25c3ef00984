import Stowage.Proofs.Packing.Relisting
import Stowage.Proofs.Sharpening

/-!
# The order of the items does not matter

The same packing is added to two copies of a state, with its items listed in another order, and its
dimensions too if there are several.  Then the same predicates are posted to both copies, each followed by
a propagation.  What one copy arrives at is closed under the rules of the packing of the other one, so the
other one meets no inconsistency either, and removes no value more.

* `Request.relist`, `Request.checked_relist` — a request with its items and dimensions in another order.
* `State.Twins` — the copies with the packings installed.
* `State.Alike`, `State.Twins.follow_alike` — both copies fail in the same way, or arrive at the same
  domains.
* `State.order_of_items_does_not_matter` — the theorem.
-/

set_option autoImplicit false

namespace Stowage

namespace Packing

/-! ## The checks -/

theorem firstNegative?_eq_none {sizes : List Int} (nonneg : ∀ size ∈ sizes, 0 ≤ size) (item : Nat) :
    firstNegative? item sizes = none := by
  induction sizes generalizing item with
  | nil => rfl
  | cons first sizes ih =>
    have := nonneg first List.mem_cons_self
    rw [firstNegative?, if_neg (by omega)]
    exact ih (fun size hs => nonneg size (List.mem_cons_of_mem _ hs)) _

theorem checkSizes_eq_ok_iff {numItems : Nat} {sizes : List Int} :
    checkSizes numItems sizes = .ok () ↔
      sizes.length = numItems ∧ (∀ size ∈ sizes, 0 ≤ size) ∧ sumOf sizes ≤ maxValue := by
  constructor
  · intro h
    obtain ⟨length, nonneg⟩ := checkSizes_eq_ok h
    refine ⟨length, nonneg, ?_⟩
    simp only [checkSizes, firstNegative?_eq_none nonneg, bind, Except.bind] at h
    split at h
    · cases h
    · exact of_decide_eq_true (demand_eq_ok.1 h)
  · rintro ⟨rfl, nonneg, total⟩
    simp [checkSizes, firstNegative?_eq_none nonneg, demand, total, bind, Except.bind]

theorem checkSizes_rearrange {row : Array Int} {order : List Nat} {n : Nat}
    (perm : order.Perm (List.range n)) (h : checkSizes n row.toList = .ok ()) :
    checkSizes n (rearrange order row).toList = .ok () := by
  obtain ⟨rfl, nonneg, total⟩ := checkSizes_eq_ok_iff.1 h
  have same : (rearrange order row).toList.Perm row.toList := rearrange_perm perm
  refine checkSizes_eq_ok_iff.2 ⟨same.length_eq, fun size hs => nonneg size (same.mem_iff.1 hs), ?_⟩
  rw [sumOf_eq_sum, same.sum_eq]
  exact total

theorem forM_of_all {α : Type} {f : α → Except ConstraintError Unit} {l : List α}
    (h : ∀ a ∈ l, f a = .ok ()) : l.forM f = .ok () := by
  induction l with
  | nil => rfl
  | cons a l ih =>
    change (f a >>= fun _ => l.forM f) = .ok ()
    rw [h a List.mem_cons_self]
    exact ih fun b hb => h b (List.mem_cons_of_mem _ hb)

/-- What the check of several dimensions asks for. -/
theorem vector?_eq_ok_iff {items : Array Var} {sizes : Array (Array Int)} {loads : Array (Array Var)}
    {numbered : Numbered loads} {p : Packing} : vector? items sizes loads numbered = .ok p ↔
      (0 < sizes.size ∧ loads.size = sizes.size ∧
        (∀ row ∈ sizes, checkSizes items.size row.toList = .ok ()) ∧
        ∀ row ∈ loads, row.size = (loads[0]?.getD #[]).size) ∧
      p = sort ⟨items, sizes, loads, .disabled, numbered⟩ := by
  constructor
  · intro h
    obtain ⟨shaped, rfl⟩ := vector?_eq_ok h
    refine ⟨⟨shaped.dims, shaped.loadRows.1, ?_, shaped.loadRows.2⟩, rfl⟩
    simp only [vector?, bind, Except.bind] at h
    split at h <;> [cases h; skip]
    split at h <;> [cases h; skip]
    split at h <;> [cases h; rename_i checked]
    exact fun row hrow => forM_eq_ok checked row (Array.mem_toList_iff.2 hrow)
  · rintro ⟨⟨some, same, checked, bins⟩, rfl⟩
    have nonempty : (!sizes.isEmpty) = true := by simpa [Array.size_pos_iff] using some
    have rows : sizes.toList.forM (fun row => checkSizes items.size row.toList) = .ok () :=
      forM_of_all fun row hrow => checked row (Array.mem_toList_iff.1 hrow)
    have widths : loads.toList.find? (fun row => row.size != (loads[0]?.getD #[]).size) = none := by
      apply List.find?_eq_none.2
      intro row hrow
      simp [bins row (Array.mem_toList_iff.1 hrow)]
    simp only [vector?, demand, nonempty, same, rows, widths, beq_self_eq_true, if_true, bind,
      Except.bind]
    rfl

theorem single?_eq_ok_iff {items : Array Var} {sizes : Array Int} {loads : Array Var}
    {policy : BigItems} {numbered : Numbered #[loads]} {p : Packing} :
    single? items sizes loads policy numbered = .ok p ↔
      checkSizes items.size sizes.toList = .ok () ∧
        p = sort ⟨items, #[sizes], #[loads], policy, numbered⟩ := by
  constructor
  · intro h
    refine ⟨?_, (single?_eq_ok h).2⟩
    simp only [single?, bind, Except.bind] at h
    split at h
    · cases h
    · assumption
  · rintro ⟨checked, rfl⟩
    simp only [single?, checked, bind, Except.bind]
    rfl

/-- The variables are the same when items and dimensions are rearranged. -/
theorem vars_relist_perm {p : Packing} (shaped : p.Shaped) {order dims : List Nat}
    (items : order.Perm (List.range p.numItems)) (dimensions : dims.Perm (List.range p.numDims)) :
    (p.relist order dims).vars.Perm p.vars := by
  have loads : dims.Perm (List.range p.loads.size) := by
    rw [shaped.loadRows.1]
    exact dimensions
  exact (rearrange_perm items).append ((rearrange_perm loads).flatMap_right _)

end Packing

/-! ## Requests -/

namespace Request

/-- The request with its items, and its dimensions if there are several, in another order. -/
def relist (order dims : List Nat) : Request → Request
  | .single items sizes loads policy numbered =>
    .single (Packing.rearrange order items) (Packing.rearrange order sizes) loads policy numbered
  | .vector items sizes loads numbered =>
    .vector (Packing.rearrange order items)
      (Packing.rearrange dims (sizes.map (Packing.rearrange order))) (Packing.rearrange dims loads)
      (Packing.numbered_rearrange numbered dims)

variable {request : Request} {order dims : List Nat} {p : Packing}

theorem packing_relist (dimensions : dims.Perm (List.range request.packing.numDims)) :
    (request.relist order dims).packing = request.packing.relist order dims := by
  cases request with
  | single items sizes loads policy numbered =>
    have only : dims = [0] := List.perm_singleton.1 dimensions
    subst only
    simp [relist, packing, Packing.relist, Packing.rearrange]
  | vector items sizes loads numbered => rfl

/-- **A request is checked whatever the order of its items.** -/
theorem checked_relist (checked : request.checked = .ok p)
    (items : order.Perm (List.range request.packing.numItems))
    (dimensions : dims.Perm (List.range request.packing.numDims)) :
    (request.relist order dims).checked = .ok (request.relist order dims).packing.sort := by
  have shaped := (checked_eq_ok checked).1
  cases request with
  | single itemVars sizes loads policy numbered =>
    obtain ⟨valid, -⟩ := Packing.single?_eq_ok_iff.1 checked
    apply Packing.single?_eq_ok_iff.2
    have size : (Packing.rearrange order itemVars).size = itemVars.size :=
      (Packing.relists_relist shaped items dimensions).items.eq
    rw [size]
    exact ⟨Packing.checkSizes_rearrange items valid, rfl⟩
  | vector itemVars sizes loads numbered =>
    obtain ⟨⟨some, same, valid, bins⟩, -⟩ := Packing.vector?_eq_ok_iff.1 checked
    have relists := Packing.relists_relist shaped items dimensions
    have size : (Packing.rearrange order itemVars).size = itemVars.size := relists.items.eq
    have rows : (Packing.rearrange dims (sizes.map (Packing.rearrange order))).size = sizes.size :=
      relists.dims.eq
    have columns : (Packing.rearrange dims loads).size = loads.size := by
      have perm : dims.Perm (List.range loads.size) := same.symm ▸ dimensions
      simpa using (Packing.rearrange_perm perm).length_eq
    apply Packing.vector?_eq_ok_iff.2
    refine ⟨⟨rows.symm ▸ some, by rw [columns, rows, same], ?_, ?_⟩, rfl⟩
    · intro row hrow
      obtain ⟨old, hold, rfl⟩ := Array.mem_map.1 (Packing.mem_of_mem_rearrange hrow)
      rw [size]
      exact Packing.checkSizes_rearrange items (valid old hold)
    · intro row hrow
      exact (bins row (Packing.mem_of_mem_rearrange hrow)).trans relists.bins.symm

end Request

namespace State

variable {s t u m n : State} {p q : Packer} {item dim : Nat → Nat} {script : List Errand} {mark : Bool}

/-! ## Two copies -/

/-- Two copies of a state in which packings are installed that list the same items, extend their big items
or have none, and are over distinct variables. -/
structure Twins (m n : State) (p q : Packer) (item dim : Nat → Nat) : Prop where
  reached : Reached false m
  reached' : Reached false n
  hosts : m.Hosts p
  hosts' : n.Hosts q
  domains : n.domains = m.domains
  relists : Packing.Relists p.packing q.packing item dim
  policy : p.packing.policy ≠ .static
  distinct : p.packing.vars.Nodup
  distinct' : q.packing.vars.Nodup

theorem Twins.symm (h : Twins m n p q item dim) : ∃ back dimBack, Twins n m q p back dimBack := by
  obtain ⟨back, dimBack, relists⟩ := h.relists.symm
  exact ⟨back, dimBack, h.reached', h.reached, h.hosts', h.hosts, h.domains.symm, relists,
    h.relists.policy ▸ h.policy, h.distinct', h.distinct⟩

/-- **What a script arrives at on one copy is around no less than what it arrives at on the other.** -/
theorem Twins.follow_within (h : Twins m n p q item dim)
    (exist : ∀ r, .post r ∈ script → r.var < m.domains.count)
    (done : m.follow (script ++ [.propagate mark]) = .ok (some t)) :
    ∃ u, n.follow (script ++ [.propagate mark]) = .ok (some u) ∧ t.domains.Within u.domains := by
  obtain ⟨heir, holds⟩ := follow_heir h.reached done
  have quiet := quiet_of_follow h.reached done
  have closed := heir.closed h.hosts quiet
  have wf := (h.reached.consistent.installed 0 p h.hosts.runs).wf
  have wf' := (h.reached'.consistent.installed 0 q h.hosts'.runs).wf
  have within : t.domains.Within n.domains := h.domains ▸ heir.within
  have around : q.packing.Surrounds q.packing.policy t.domains (Ledger.ofDomains q.packing t.domains)
      n.domains (n.store.ledger q) := by
    by_cases dynamic : p.packing.policy = .dynamic
    · have mirrors := h.relists.mirrors_of_extended closed wf' wf dynamic
        fun b hb => heir.extended h.hosts quiet dynamic h.distinct hb
      refine ⟨h.relists.closed_ofDomains closed wf' mirrors, wf', within, fun b hb => .inl ?_⟩
      apply Ledger.extended_ofDomains wf' _ hb
      rw [h.relists.policy, dynamic]
      decide
    · have disabled : p.packing.policy = .disabled := by
        have := h.policy
        cases policy : p.packing.policy <;> simp_all
      have mirrors := h.relists.mirrors_of_disabled closed wf' disabled
      exact h.reached'.consistent.surrounds_of_disabled h.hosts'.runs
        (h.relists.policy.trans disabled) wf' (h.relists.closed_ofDomains closed wf' mirrors) within
  have before : ∀ r, .post r ∈ script ++ [.propagate mark] → .post r ∈ script := by
    intro r member
    exact (List.mem_append.1 member).resolve_right fun last => by simp at last
  obtain ⟨u, done', r, -, -, stays⟩ := follow_around h.reached' h.hosts' around
    (fun r member => h.domains ▸ exist r (before r member)) holds
  exact ⟨u, done', stays.within⟩

/-- Two scripts fail in the same way, or arrive at the same domains. -/
def Alike (r r' : Except Fault (Option State)) : Prop :=
  r = .ok none ∧ r' = .ok none ∨ r = .error .overflow ∧ r' = .error .overflow ∨
    ∃ u v, r = .ok (some u) ∧ r' = .ok (some v) ∧
      ∀ x w, w ∈ u.domains.domain x ↔ w ∈ v.domains.domain x

/-! ## Step by step -/

theorem follow_singleton (s : State) (e : Errand) : s.follow [e] = s.errand e := by
  simp only [follow, bind, Except.bind, pure, Except.pure]
  cases s.errand e with
  | error fault => rfl
  | ok r => cases r <;> rfl

theorem follow_append_eq (s : State) (first last : List Errand) :
    s.follow (first ++ last) = (do
      match ← s.follow first with
      | none => return none
      | some t => t.follow last) := by
  induction first generalizing s with
  | nil => rfl
  | cons e first ih =>
    simp only [List.cons_append, follow, bind, Except.bind]
    cases s.errand e with
    | error fault => rfl
    | ok r =>
      cases r with
      | none => rfl
      | some t => exact ih t

/-- **A post to copies with the same domains leaves them alike.** -/
theorem post_alike {r : Predicate} (reached : Reached false s) (reached' : Reached false t)
    (exist : r.var < s.domains.count) (exist' : r.var < t.domains.count)
    (same : ∀ x w, w ∈ s.domains.domain x ↔ w ∈ t.domains.domain x) :
    Alike (s.errand (.post r)) (t.errand (.post r)) := by
  have cons := reached.consistent
  have cons' := reached'.consistent
  have fits : s.domains.Fits r ↔ t.domains.Fits r := by
    rw [Domains.Fits, Domains.Fits,
      (cons.healthy r.var).overflows_eq (cons'.healthy r.var) (same r.var)]
  by_cases tight : s.domains.Fits r
  swap
  · refine .inr (.inl ⟨?_, ?_⟩)
    · simp only [errand, post_overflows exist tight, bind, Except.bind]
    · simp only [errand, post_overflows exist' (tight ∘ fits.2), bind, Except.bind]
  obtain ⟨posting, u, post, none, members⟩ := post_cases cons exist tight
  obtain ⟨posting', v, post', none', members'⟩ := post_cases cons' exist' (fits.1 tight)
  have least (posting : Posting) (t s : State) (reached : Reached false s)
      (post : s.post r = .ok (posting, t)) (left : posting ≠ .emptied) :
      ∃ w, w ∈ t.domains.domain r.var :=
    ⟨_, ((heir_post reached post left).reached.consistent.healthy r.var).lower_mem⟩
  by_cases left : posting = .emptied
  · have left' : posting' = .emptied := by
      by_contra some
      obtain ⟨w, member⟩ := least posting' v t reached' post' some
      obtain ⟨inside, holds⟩ := (members' some _ w).1 member
      have fails := none left w ((same _ w).2 inside)
      rw [holds rfl] at fails
      cases fails
    left
    simp [errand, post, post', left, left', bind, Except.bind, pure, Except.pure]
  · have left' : posting' ≠ .emptied := by
      intro emptied
      obtain ⟨w, member⟩ := least posting u s reached post left
      obtain ⟨inside, holds⟩ := (members left _ w).1 member
      have fails := none' emptied w ((same _ w).1 inside)
      rw [holds rfl] at fails
      cases fails
    refine .inr (.inr ⟨u, v, ?_, ?_, fun x w => ?_⟩)
    · simp [errand, post, left, bind, Except.bind, pure, Except.pure]
    · simp [errand, post', left', bind, Except.bind, pure, Except.pure]
    · rw [members left, members' left', same]

/-- **A script leaves both copies alike.**  The last step is what counts: a post treats the same domains
alike, and a propagation closes them. -/
theorem Twins.follow_alike (h : Twins m n p q item dim) (script : List Errand)
    (exist : ∀ r, .post r ∈ script → r.var < m.domains.count) :
    Alike (m.follow script) (n.follow script) := by
  induction script using List.reverseRecOn with
  | nil => exact .inr (.inr ⟨m, n, rfl, rfl, fun x w => by rw [h.domains]⟩)
  | append_singleton script e ih =>
    have known : ∀ r, .post r ∈ script → r.var < m.domains.count :=
      fun r member => exist r (List.mem_append_left _ member)
    have last (s : State) (r : Except Fault (Option State)) (done : s.follow script = r) :
        s.follow (script ++ [e]) = (do
          match ← r with
          | none => return none
          | some t => t.errand e) := by
      rw [follow_append_eq, done]
      cases r with
      | error fault => rfl
      | ok t =>
        cases t with
        | none => rfl
        | some t => exact follow_singleton t e
    rcases ih known with ⟨done, done'⟩ | ⟨done, done'⟩ | ⟨u, v, done, done', same⟩
    · rw [last m _ done, last n _ done']
      exact .inl ⟨rfl, rfl⟩
    · rw [last m _ done, last n _ done']
      exact .inr (.inl ⟨rfl, rfl⟩)
    have heir := (follow_heir h.reached done).1
    have heir' := (follow_heir h.reached' done').1
    have now := last m _ done
    have now' := last n _ done'
    cases e with
    | post r =>
      rw [now, now']
      have inside : r.var < m.domains.count := exist r (List.mem_append_right _ List.mem_cons_self)
      exact post_alike heir.reached heir'.reached (heir.count ▸ inside)
        (by rw [heir'.count, h.domains]; exact inside) same
    | propagate mark =>
      obtain ⟨back, dimBack, h'⟩ := h.symm
      have known' : ∀ r, .post r ∈ script → r.var < n.domains.count := h.domains ▸ known
      have only := onlyPackings_of_cores h.hosts.onlyPackings heir.cores
      have only' := onlyPackings_of_cores h.hosts'.onlyPackings heir'.cores
      rcases errand_cases heir.reached only (.propagate mark) nofun with
        stops | ⟨t, step, -⟩ | ⟨-, _, other, -⟩
      · rcases errand_cases heir'.reached only' (.propagate mark) nofun with
          stops' | ⟨t', step', -⟩ | ⟨-, _, other, -⟩
        · exact .inl ⟨now.trans stops, now'.trans stops'⟩
        · obtain ⟨t, fine, -⟩ := h'.follow_within known' (now'.trans step')
          cases (now.trans stops).symm.trans fine
        · cases other
      · obtain ⟨t', fine, within⟩ := h.follow_within known (now.trans step)
        obtain ⟨t'', fine', within'⟩ := h'.follow_within known' fine
        cases (now.trans step).symm.trans fine'
        exact .inr (.inr ⟨t, t', now.trans step, fine, fun x w => ⟨within x w, within' x w⟩⟩)
      · cases other

/-- **The order of the items does not matter.**  A packing over distinct variables, with its big items
extended or without any, is added to copies of a state without propagators, with its items listed in
different orders, and its dimensions too if there are several.  Then it is refused in both copies or in
none; and when predicates are posted one by one, each followed by a propagation, both copies meet an
inconsistency at the same time, or leave the range of the values, and have the same domains until
then. -/
theorem order_of_items_does_not_matter {request : Request} {packing : Packing} {order dims : List Nat}
    (reached : Reached false s) (alone : s.propagators = #[]) (root : s.checkpoint = 0)
    (checked : request.checked = .ok packing) (policy : request.packing.policy ≠ .static)
    (distinct : request.packing.vars.Nodup)
    (exist : ∀ x ∈ request.packing.vars, x < s.domains.count)
    (items : order.Perm (List.range request.packing.numItems))
    (dimensions : dims.Perm (List.range request.packing.numDims)) :
    ∃ result t u, request.add s = .ok (result, t) ∧
      (request.relist order dims).add s = .ok (result, u) ∧
      (result = .error .infeasiblePropagator ∨
        result = .ok 0 ∧ ∀ posts script, (∀ r ∈ posts, r.var < s.domains.count) →
          script <+: Errand.oneByOne posts → Alike (t.follow script) (u.follow script)) := by
  have checked' := Request.checked_relist checked items dimensions
  obtain ⟨shaped, rfl⟩ := Request.checked_eq_ok checked
  obtain ⟨shaped', -⟩ := Request.checked_eq_ok checked'
  have packing : (request.relist order dims).packing = request.packing.relist order dims :=
    Request.packing_relist dimensions
  have vars := Packing.vars_relist_perm shaped items dimensions
  rw [← packing] at vars
  have typed : request.kind = .vector → request.packing.sort.policy = .disabled :=
    Request.disabled_of_vector
  have typed' : (request.relist order dims).kind = .vector →
      (request.relist order dims).packing.sort.policy = .disabled := Request.disabled_of_vector
  obtain ⟨m, conflict, t, -, reachedM, domains, hosts, -, propagate, add⟩ :=
    addPacking_alone typed reached alone root (Packing.wellFormed_sort shaped)
      (Packing.known_sort shaped exist)
  obtain ⟨n, conflict', u, -, reachedN, domains', hosts', -, propagate', add'⟩ :=
    addPacking_alone typed' reached alone root (Packing.wellFormed_sort shaped')
      (Packing.known_sort shaped' fun x member => exist x (vars.mem_iff.1 member))
  have listed := Packing.relists_relist shaped items dimensions
  rw [← packing] at listed
  -- from one sorted packing to the given one, to the rearranged one, to the other sorted one
  obtain ⟨back, dimBack, unsorted⟩ := (Packing.relists_sort shaped).symm
  have relists := (unsorted.trans listed).trans (Packing.relists_sort shaped')
  have twins : Twins m n (s.installedAs request.kind request.packing.sort)
      (s.installedAs (request.relist order dims).kind (request.relist order dims).packing.sort) _ _ :=
    ⟨reachedM, reachedN, hosts, hosts', domains'.trans domains.symm, relists, policy,
      (Packing.vars_sort_perm shaped).nodup_iff.2 distinct,
      (Packing.vars_sort_perm shaped').nodup_iff.2 (vars.nodup_iff.2 distinct)⟩
  have first := (Request.add_eq request s).trans (checked ▸ add)
  have second := (Request.add_eq (request.relist order dims) s).trans (checked' ▸ add')
  have after {v w : State} {c : Option Conflict} (step : v.propagate = .ok (c, w))
      (script : List Errand) : v.follow (.propagate false :: script) =
        if c.isSome then .ok none else w.follow script := by
    simp only [follow, errand, step, bind, Except.bind]
    cases c <;> rfl
  have start := twins.follow_alike [.propagate false] (by simp)
  rw [after propagate, after propagate'] at start
  have same : conflict'.isNone = conflict.isNone := by
    cases conflict with
    | none =>
      cases conflict' with
      | none => rfl
      | some c => rcases start with ⟨done, -⟩ | ⟨done, -⟩ | ⟨_, _, -, done, -⟩ <;> cases done
    | some c =>
      cases conflict' with
      | none => rcases start with ⟨-, done⟩ | ⟨-, done⟩ | ⟨_, _, done, -, -⟩ <;> cases done
      | some c' => rfl
  refine ⟨_, t, u, first, same ▸ second, ?_⟩
  cases conflict with
  | some c => exact .inl rfl
  | none =>
    obtain rfl : conflict' = none := Option.isNone_iff_eq_none.1 same
    refine .inr ⟨rfl, fun posts script known stops => ?_⟩
    have alike := twins.follow_alike (.propagate false :: script) fun r member => by
      rw [domains]
      refine known r (Errand.post_mem_oneByOne.1 ?_)
      rcases List.mem_cons.1 member with same | later
      · cases same
      · exact List.mem_cons_of_mem _ (stops.subset later)
    rwa [after propagate, after propagate'] at alike

/-- Two items of the same size, to be placed in one bin. -/
def smallPair : Request := .single #[0, 1] #[1, 1] #[2] .dynamic

theorem smallPair_order_does_not_matter :
    ∃ result t u, smallPair.add small = .ok (result, t) ∧
      (smallPair.relist [1, 0] [0]).add small = .ok (result, u) ∧ result = .ok 0 ∧
      Alike (t.follow (Errand.oneByOne [.atMost 2 1])) (u.follow (Errand.oneByOne [.atMost 2 1])) := by
  have count : small.domains.count = 3 := by cbv
  have checked : smallPair.checked =
      .ok ⟨#[0, 1], #[#[1, 1]], #[#[2]], .dynamic, by decide⟩ := by cbv
  have exist : ∀ x ∈ smallPair.packing.vars, x < small.domains.count := by
    rw [count]
    decide
  have items : [1, 0].Perm (List.range smallPair.packing.numItems) := by decide
  have dimensions : [0].Perm (List.range smallPair.packing.numDims) := by decide
  obtain ⟨result, t, u, first, second, outcome⟩ := order_of_items_does_not_matter reached_small
    (by cbv) (by cbv) checked (by decide) (by decide) exist items dimensions
  refine ⟨result, t, u, first, second, ?_⟩
  rcases outcome with refused | ⟨accepted, alike⟩
  · have fine : (smallPair.add small).toOption.map (·.1.toOption.isSome) = some true := by cbv
    rw [first, refused] at fine
    cases fine
  · refine ⟨accepted, alike [.atMost 2 1] _ ?_ List.prefix_rfl⟩
    rw [count]
    decide

end State

end Stowage

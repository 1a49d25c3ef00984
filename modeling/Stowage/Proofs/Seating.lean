import Stowage.Proofs.Mirroring
import Stowage.Proofs.Packing.Sorting

/-!
# A packing takes its seat

When a packing is installed among other propagators and on its own, it registers for the same events and
starts with the same ledger.  Other propagators that are installed before or afterwards do not matter.

* `enrol`, `State.watches_of_install` — the watchers after propagators have registered.
* `Domains.Mirrors.ofDomains` — the ledger with which a packing is installed.
* `State.Mirrors.install_other`, `State.Mirrors.install_own` — propagators are installed.
-/

set_option autoImplicit false

namespace Stowage

variable {seat : Option Seat} {φ : Var → Var} {vars : List Var} {p : Packing}

/-! ## Registrations -/

/-- The watchers of a variable after propagators have registered. -/
def enrol (registrations : List Registration) (x : Var) (list : List (Event × Watch)) :
    List (Event × Watch) :=
  registrations.foldl (fun l r => if r.var = x then State.register l r.events r.watch else l) list

theorem enrol_append (first second : List Registration) (x : Var) (list : List (Event × Watch)) :
    enrol (first ++ second) x list = enrol second x (enrol first x list) := List.foldl_append ..

/-- A registration of the packing in the state of its own. -/
def Registration.relabel (φ : Var → Var) (r : Registration) : Registration :=
  ⟨φ r.var, r.events, ⟨0, r.watch.place⟩⟩

theorem registrationsFrom_relabel (id : Nat) (events : List Event) (place : Nat) (xs : List Var) :
    registrationsFrom 0 events place (xs.map φ) =
      (registrationsFrom id events place xs).map (Registration.relabel φ) := by
  simp [registrationsFrom, List.zipIdx_map, Registration.relabel]

theorem mem_registrationsFrom {id place : Nat} {events : List Event} {xs : List Var} {r : Registration}
    (h : r ∈ registrationsFrom id events place xs) : r.var ∈ xs ∧ r.watch.propagator = id := by
  obtain ⟨⟨x, j⟩, member, rfl⟩ := List.mem_map.1 h
  exact ⟨List.fst_mem_of_mem_zipIdx member, rfl⟩

theorem propagator_of_mem_registrations {blueprint : Blueprint} {id : Nat} {r : Registration}
    (h : r ∈ blueprint.registrations id) : r.watch.propagator = id := by
  cases blueprint with
  | packing kind p =>
    rcases List.mem_append.1 h with item | load
    · exact (mem_registrationsFrom item).2
    · exact (mem_registrationsFrom load).2
  | precedence p => exact (mem_registrationsFrom h).2
  | probe vars events priority skipped rules => exact (mem_registrationsFrom h).2

theorem registrations_relabel (kind : PackingKind) (p : Packing) (φ : Var → Var) (id : Nat) :
    (Blueprint.packing kind (p.relabel φ)).registrations 0 =
      ((Blueprint.packing kind p).registrations id).map (Registration.relabel φ) := by
  have items : (p.relabel φ).items.toList = p.items.toList.map φ := by simp [Packing.relabel]
  have loads : (p.relabel φ).loads.toList.flatMap Array.toList =
      (p.loads.toList.flatMap Array.toList).map φ := by
    simp [Packing.relabel, List.flatMap_map, List.map_flatMap]
  simp only [Blueprint.registrations, items, loads, Packing.numItems_relabel, registrationsFrom_relabel id,
    List.map_append]

theorem var_of_mem_registrations {kind : PackingKind} {id : Nat} {r : Registration}
    (h : r ∈ (Blueprint.packing kind p).registrations id) : r.var ∈ p.vars := by
  rcases List.mem_append.1 h with item | load
  · exact List.mem_append_left _ (mem_registrationsFrom item).1
  · exact List.mem_append_right _ (mem_registrationsFrom load).1

namespace State

variable {s t : State}

theorem watches_of_watchAll {id place : Nat} {events : List Event} {xs : List Var}
    (h : s.watchAll id events place xs = .ok t) (y : Var) :
    t.watches y = enrol (registrationsFrom id events place xs) y (s.watches y) := by
  induction xs generalizing s place with
  | nil =>
    cases h
    rfl
  | cons x xs ih =>
    simp only [State.watchAll, bind, Except.bind] at h
    split at h
    · cases h
    · rename_i u first
      have one : u.watches y =
          if x = y then register (s.watches y) events ⟨id, place⟩ else s.watches y := by
        rw [watches_of_watch first]
        by_cases same : y = x
        · rw [if_pos same, if_pos same.symm, same]
        · rw [if_neg same, if_neg (Ne.symm same)]
      rw [ih h, one]
      rfl

/-- What the watchers are after a propagator was installed. -/
theorem watches_of_install {blueprint : Blueprint} {id : Nat} (h : s.install blueprint = .ok (id, t))
    (y : Var) : t.watches y = enrol (blueprint.registrations id) y (s.watches y) := by
  have same {u v : State} (watchers : v.watchers = u.watchers) : v.watches y = u.watches y := by
    rw [watches, watches, watchers]
  cases blueprint with
  | packing kind p =>
    simp only [State.install, installPacking, bind, Except.bind] at h
    split at h
    · cases h
    split at h
    · cases h
    rename_i u items
    split at h
    · cases h
    rename_i v loads
    obtain ⟨number, watchers, -⟩ := addPropagator_eq_ok h
    have next : id = s.nextPropagator := number.trans
      ((nextPropagator_of_watchAll loads).trans (nextPropagator_of_watchAll items))
    subst next
    rw [same watchers]
    refine (watches_of_watchAll loads y).trans ?_
    rw [watches_of_watchAll items, ← enrol_append]
    rfl
  | precedence p =>
    simp only [State.install, bind, Except.bind] at h
    split at h
    · cases h
    rename_i u watch
    obtain ⟨number, watchers, -⟩ := addPropagator_eq_ok h
    have next : id = s.nextPropagator := number.trans (nextPropagator_of_watchAll watch)
    subst next
    rw [same watchers, watches_of_watchAll watch]
    rfl
  | probe vars events priority skipped rules =>
    simp only [State.install, bind, Except.bind] at h
    split at h
    · cases h
    rename_i u watch
    obtain ⟨number, watchers, -⟩ := addPropagator_eq_ok h
    have number : id = u.nextPropagator := number
    have next : id = s.nextPropagator := number.trans (nextPropagator_of_watchAll watch)
    subst next
    rw [same watchers]
    exact watches_of_watchAll watch y

/-- A propagator that is installed is the last one, and can narrow what its blueprint says. -/
theorem propagators_of_install {blueprint : Blueprint} {id : Nat}
    (h : s.install blueprint = .ok (id, t)) : id = s.propagators.size ∧
      ∃ prop, t.propagators = s.propagators.push prop ∧ prop.scope = blueprint.scope := by
  have kept {u : State} {place : Nat} {events : List Event} {xs : List Var}
      (watch : s.watchAll s.nextPropagator events place xs = .ok u) : u.propagators = s.propagators := by
    rw [(watching_of_watchAll watch).frame]
  cases blueprint with
  | packing kind p =>
    obtain ⟨-, number, watchers, queue, rfl, -⟩ := installPacking_eq_ok h
    exact ⟨number, _, rfl, rfl⟩
  | precedence p =>
    simp only [State.install, bind, Except.bind] at h
    split at h
    · cases h
    rename_i u watch
    obtain ⟨number, -, props⟩ := addPropagator_eq_ok h
    rw [kept watch] at props
    exact ⟨number.trans (nextPropagator_of_watchAll watch), _, props, rfl⟩
  | probe vars events priority skipped rules =>
    simp only [State.install, bind, Except.bind] at h
    split at h
    · cases h
    rename_i u watch
    obtain ⟨number, -, props⟩ := addPropagator_eq_ok h
    have number : id = u.nextPropagator := number
    have props : t.propagators = u.propagators.push _ := props
    rw [kept watch] at props
    exact ⟨number.trans (nextPropagator_of_watchAll watch), _, props, rfl⟩

end State

/-! ## What the packing is told -/

section

variable {l : List (Event × Watch)} {w : Watch} {registrations : List Registration} {x : Var}

theorem told_eq_nil (other : ∀ v ∈ l, isSeated seat v.2.propagator = false) : told seat l = [] := by
  rw [told, List.filter_eq_nil_iff.2 fun v member => by simp [other v member], List.map_nil]

theorem told_register_other (events : List Event) (other : isSeated seat w.propagator = false) :
    told seat (State.register l events w) = told seat l := by
  unfold State.register
  induction Event.listed events generalizing l with
  | nil => rfl
  | cons e rest ih =>
    rw [List.foldl_cons, ih]
    split
    · rfl
    · rw [told_append, told_singleton, if_neg (by simp [other]), List.append_nil]

/-- Whether the packing watches for an event, among others and on its own. -/
theorem mem_told_iff {e : Event} (mine : isSeated seat w.propagator = true) :
    (e, ⟨0, w.place⟩) ∈ told seat l ↔ (e, w) ∈ l := by
  obtain ⟨a, own, number⟩ := isSeated_iff.1 mine
  unfold told
  rw [List.mem_map]
  constructor
  · rintro ⟨⟨f, v⟩, member, same⟩
    obtain ⟨member, seated⟩ := List.mem_filter.1 member
    obtain ⟨b, own', number'⟩ := isSeated_iff.1 seated
    simp only [Prod.mk.injEq, Watch.mk.injEq, true_and] at same
    obtain ⟨rfl, place⟩ := same
    cases Staffed.eq_of_mem own own'
    have watch : v = w := by
      obtain ⟨id, place⟩ := v
      obtain ⟨id', place'⟩ := w
      simp_all
    exact watch ▸ member
  · intro member
    exact ⟨(e, w), List.mem_filter.2 ⟨member, mine⟩, rfl⟩

theorem told_register_own (events : List Event) (mine : isSeated seat w.propagator = true) :
    told seat (State.register l events w) = State.register (told seat l) events ⟨0, w.place⟩ := by
  unfold State.register
  induction Event.listed events generalizing l with
  | nil => rfl
  | cons e rest ih =>
    have present : (told seat l).contains (e, ⟨0, w.place⟩) = l.contains (e, w) := by
      rw [Bool.eq_iff_iff, List.contains_iff_mem, List.contains_iff_mem, mem_told_iff mine]
    rw [List.foldl_cons, List.foldl_cons, ih, present]
    split
    · rfl
    · rw [told_append, told_singleton, if_pos mine]

theorem told_enrol_other (other : ∀ r ∈ registrations, isSeated seat r.watch.propagator = false) :
    told seat (enrol registrations x l) = told seat l := by
  unfold enrol
  induction registrations generalizing l with
  | nil => rfl
  | cons r rest ih =>
    rw [List.foldl_cons, ih fun r' member => other r' (List.mem_cons_of_mem _ member)]
    split
    · exact told_register_other _ (other r List.mem_cons_self)
    · rfl

theorem told_enrol_own (inj : Set.InjOn φ {x | x ∈ vars}) (inside : x ∈ vars)
    (mine : ∀ r ∈ registrations, isSeated seat r.watch.propagator = true ∧ r.var ∈ vars) :
    told seat (enrol registrations x l) =
      enrol (registrations.map (Registration.relabel φ)) (φ x) (told seat l) := by
  unfold enrol
  induction registrations generalizing l with
  | nil => rfl
  | cons r rest ih =>
    obtain ⟨seated, own⟩ := mine r List.mem_cons_self
    have asks : (Registration.relabel φ r).var = φ x ↔ r.var = x := inj.eq_iff own inside
    rw [List.map_cons, List.foldl_cons, List.foldl_cons,
      ih fun r' member => mine r' (List.mem_cons_of_mem _ member)]
    simp only [asks]
    split
    · rw [told_register_own _ seated]
      rfl
    · rfl

theorem enrol_of_not_mem (outside : ∀ r ∈ registrations, r.var ≠ x) :
    enrol registrations x l = l := by
  unfold enrol
  induction registrations generalizing l with
  | nil => rfl
  | cons r rest ih =>
    rw [List.foldl_cons, if_neg (outside r List.mem_cons_self),
      ih fun r' member => outside r' (List.mem_cons_of_mem _ member)]

end

/-! ## The first ledger -/

namespace Domains.Mirrors

variable {ds es : Domains} (h : Mirrors φ p.vars ds es)

include h

theorem itemsOf (b : Nat) : (p.relabel φ).itemsOf es b = p.itemsOf ds b := by
  rw [Packing.itemsOf, Packing.itemList_relabel, Packing.itemsOf]
  refine List.filter_congr fun i member => ?_
  rw [h.item (List.mem_range.1 member)]

/-- The domains say the same about a bin under other names. -/
theorem tally (b : Nat) : (p.relabel φ).tally es b = p.tally ds b := by
  have placed : ∀ i ∈ p.itemsOf ds b, (p.relabel φ).isPlaced es i = p.isPlaced ds i := fun i member => by
    rw [Packing.isPlaced, h.item (List.mem_range.1 (List.mem_filter.1 member).1), Packing.isPlaced]
  have fixed : (p.itemsOf ds b).filter ((p.relabel φ).isPlaced es) =
      (p.itemsOf ds b).filter (p.isPlaced ds) := List.filter_congr placed
  have loose : (p.itemsOf ds b).filter (fun i => !(p.relabel φ).isPlaced es i) =
      (p.itemsOf ds b).filter fun i => !p.isPlaced ds i :=
    List.filter_congr fun i member => by rw [placed i member]
  unfold Packing.tally
  simp only [h.itemsOf, fixed, loose]
  rfl

variable (shaped : p.Shaped)

include shaped

theorem plainBin {b : Nat} (hb : b < p.numBins) :
    Ledger.plainBin (p.relabel φ) es b = Ledger.plainBin p ds b := by
  have entries : p.dimList.map (fun d => (⟨(p.tally ds b).requiredIn d, (p.tally ds b).totalIn d,
      es.lower ((p.relabel φ).load d b), es.upper ((p.relabel φ).load d b)⟩ : Entry)) =
      p.dimList.map fun d => ⟨(p.tally ds b).requiredIn d, (p.tally ds b).totalIn d,
        ds.lower (p.load d b), ds.upper (p.load d b)⟩ := by
    refine List.map_congr_left fun d member => ?_
    obtain ⟨lower, upper⟩ := h.load shaped (List.mem_range.1 member) hb
    rw [lower, upper]
  simp only [Ledger.plainBin, h.tally, Packing.dimList_relabel, entries]

theorem firstBin {b : Nat} (hb : b < p.numBins) :
    Ledger.firstBin (p.relabel φ) es b = Ledger.firstBin p ds b := by
  obtain ⟨-, upper⟩ := h.load shaped shaped.dims hb
  simp only [Ledger.firstBin, h.plainBin shaped hb, upper]
  rfl

/-- The variables exist under their other names. -/
theorem known (here : p.Known ds) : (p.relabel φ).Known es := by
  have exist {x : Var} (inside : x ∈ p.vars) (known : x < ds.count) : φ x < es.count :=
    of_decide_eq_true ((h.has inside).trans (decide_eq_true known))
  refine ⟨fun i hi => ?_, fun d hd b hb => ?_⟩
  · rw [Packing.numItems_relabel] at hi
    rw [Packing.item_relabel hi]
    exact exist (Packing.item_mem_vars hi) (here.items i hi)
  · rw [Packing.numBins_relabel] at hb
    rw [Packing.load_relabel shaped hd hb]
    exact exist (Packing.load_mem_vars shaped hd hb) (here.loads d hd b hb)

/-- **A packing starts with the same ledger under other names.** -/
theorem ofDomains : Ledger.ofDomains (p.relabel φ) es = Ledger.ofDomains p ds := by
  have bins : p.binList.map (Ledger.firstBin (p.relabel φ) es) = p.binList.map (Ledger.firstBin p ds) :=
    List.map_congr_left fun b member => h.firstBin shaped (List.mem_range.1 member)
  have available : p.binList.filter (fun b => !(Ledger.plainBin (p.relabel φ) es b).candidates.isEmpty) =
      p.binList.filter fun b => !(Ledger.plainBin p ds b).candidates.isEmpty :=
    List.filter_congr fun b member => by rw [h.plainBin shaped (List.mem_range.1 member)]
  have sums : p.dimList.map (fun d => (⟨sumOf (p.binList.map fun b => es.lower ((p.relabel φ).load d b)),
      sumOf (p.binList.map fun b => es.upper ((p.relabel φ).load d b))⟩ : Sums)) =
      p.dimList.map fun d => ⟨sumOf (p.binList.map fun b => ds.lower (p.load d b)),
        sumOf (p.binList.map fun b => ds.upper (p.load d b))⟩ := by
    refine List.map_congr_left fun d hd => ?_
    have loads (b : Nat) (hb : b ∈ p.binList) := h.load shaped (List.mem_range.1 hd) (List.mem_range.1 hb)
    rw [List.map_congr_left fun b hb => (loads b hb).1, List.map_congr_left fun b hb => (loads b hb).2]
  simp only [Ledger.ofDomains, Ledger.plain, Packing.binList_relabel, Packing.dimList_relabel, bins, available,
    sums]

end Domains.Mirrors

/-! ## Installing -/

/-- The packing is added to both lists of propagators. -/
theorem Staffed.push {props props' : Array Propagator} (h : Staffed φ p none props props') {q : Packer}
    (packing : q.packing = p) (alone : props'.size = 0) (layout : Layout) :
    Staffed φ p (some ⟨props.size, q.layout, layout⟩) (props.push (.packing q))
      (props'.push (.packing (q.relabel φ layout))) where
  others j new found outside x inside := by
    rw [Array.getElem?_push] at found
    split at found
    next last =>
      rw [isSeated_iff.2 ⟨_, rfl, last.symm⟩] at outside
      cases outside
    next => exact h.others j new found rfl x inside
  seated a own := by
    cases own
    refine ⟨q, Array.getElem?_push_size, packing, rfl, ?_⟩
    rw [Array.getElem?_push, if_pos alone.symm]
  sole j bound := by
    rw [Array.size_push, alone] at bound
    exact ⟨Nat.lt_one_iff.1 bound, rfl⟩

theorem Awaits.enqueue {queue queue' after after' : Queue} (h : Awaits none queue queue') {a : Seat}
    (here : Queue.Enqueued queue a.id after) (there : Queue.Enqueued queue' 0 after') :
    Awaits (some a) after after' := by
  intro j
  rw [there.mem j, h j]
  constructor
  · rintro (⟨b, none, -⟩ | rfl)
    · cases none
    · exact ⟨a, rfl, rfl, (here.mem a.id).2 (.inr rfl)⟩
  · rintro ⟨b, -, rfl, -⟩
    exact .inr rfl

theorem Heeds.enrol {watches watches' : Var → List (Event × Watch)} (h : Heeds φ p.vars none watches watches')
    (inj : Set.InjOn φ {x | x ∈ p.vars}) {a : Seat} (kind : PackingKind)
    (fresh : ∀ x, told (some a) (watches x) = []) :
    Heeds φ p.vars (some a) (fun x => enrol ((Blueprint.packing kind p).registrations a.id) x (watches x))
      fun x => enrol ((Blueprint.packing kind (p.relabel φ)).registrations 0) x (watches' x) where
  inside x inside := by
    rw [h.inside x inside, told_enrol_own inj inside fun r member => ⟨?_, var_of_mem_registrations member⟩,
      fresh, told_none, registrations_relabel kind p φ a.id]
    rw [propagator_of_mem_registrations member]
    exact isSeated_iff.2 ⟨_, rfl, rfl⟩
  outside x outside := by
    rw [enrol_of_not_mem fun r member same => ?_, fresh]
    exact outside (same ▸ var_of_mem_registrations member)

namespace State.Mirrors

variable {s t s' : State}

/-- Another propagator that cannot narrow the variables of the packing is installed. -/
theorem install_other (h : s.Mirrors φ p seat t) (cons : s.Consistent) {blueprint : Blueprint}
    (typed : blueprint.Typed) (apart : ∀ x ∈ p.vars, x ∉ blueprint.scope) {id : Nat}
    (step : s.install blueprint = .ok (id, s')) : s'.Mirrors φ p seat t := by
  obtain ⟨prop, installs⟩ := cons.installs typed step
  obtain ⟨number, prop', added, scope⟩ := propagators_of_install step
  obtain rfl : prop = prop' := Array.push_inj_right.1 (installs.propagators.symm.trans added)
  have old : ∀ a ∈ seat, a.id < s.propagators.size := fun a own => by
    obtain ⟨q, here, -⟩ := h.staffed.seated a own
    exact Runs.lt here
  have other : isSeated seat id = false := Bool.eq_false_iff.2 fun seated => by
    obtain ⟨a, own, same⟩ := isSeated_iff.1 seated
    exact absurd (old a own) (Nat.not_lt.2 (number.symm.trans same.symm).le)
  have told' (x : Var) : told seat (s'.watches x) = told seat (s.watches x) := by
    rw [watches_of_install step]
    exact told_enrol_other fun r member => by rwa [propagator_of_mem_registrations member]
  have checkpoint : s'.checkpoint = s.checkpoint := congrArg Domains.checkpoint installs.domains
  refine ⟨⟨?_, fun k hk => ?_, h.store.checkpoint.trans checkpoint.symm⟩, ⟨fun x inside => ?_,
    fun x outside => ?_⟩, ⟨fun j new found outside x inside => ?_, fun a own => ?_, h.staffed.sole⟩,
    h.awaits.other other fun j apart => ?_⟩
  · refine h.store.now.alters ?_ (fun _ _ => List.not_mem_nil) fun a own => ?_
    · have domains : s'.store.domains = s.store.domains := installs.domains
      rw [domains]
      exact .refl _
    · obtain ⟨q, here, packing, layout, -⟩ := h.staffed.seated a own
      rw [← packing, ← layout]
      exact installs.ledger_eq (cons.allotted.regular a.id q here).keeps
  · have hk : k < s.checkpoint := checkpoint ▸ hk
    refine (h.store.past k hk).alters ?_ (fun _ _ => List.not_mem_nil) fun a own => ?_
    · rw [installs.domains_view]
      exact .refl _
    · obtain ⟨q, here, packing, layout, -⟩ := h.staffed.seated a own
      rw [← packing, ← layout]
      exact installs.ledger_view cons.toFrame (cons.allotted.regular a.id q here).keeps hk
  · rw [told', h.heeds.inside x inside]
  · rw [told', h.heeds.outside x outside]
  · rcases installs.found found with before | ⟨-, same⟩
    · exact h.staffed.others j new before outside x inside
    · rw [← same, scope]
      exact apart x inside
  · obtain ⟨q, here, rest⟩ := h.staffed.seated a own
    refine ⟨q, ?_, rest⟩
    rw [installs.propagators, Array.getElem?_push, if_neg (Nat.ne_of_lt (old a own))]
    exact here
  · rw [installs.queue.mem]
    exact or_iff_left fun same => apart (same.trans number.symm)

/-- **The packing is installed in both states.** -/
theorem install_own (h : s.Mirrors φ p none t) (inj : Set.InjOn φ {x | x ∈ p.vars})
    (cons : s.Consistent) (cons' : t.Consistent) {kind : PackingKind} {id : Nat}
    (step : s.install (.packing kind p) = .ok (id, s')) :
    ∃ t', t.install (.packing kind (p.relabel φ)) = .ok (0, t') ∧
      s'.Mirrors φ p (some ⟨id, (s.installedAs kind p).layout,
        (t.installedAs kind (p.relabel φ)).layout⟩) t' := by
  obtain ⟨shape, number, watchers, queue, rfl, watched, enqueued⟩ := installPacking_eq_ok step
  obtain ⟨wf, root⟩ := Packing.wellFormed_of_checkShape shape
  have root' : t.checkpoint = 0 := h.store.checkpoint.trans root
  have alone : t.propagators.size = 0 := by
    by_contra some
    cases (h.staffed.sole 0 (Nat.pos_of_ne_zero some)).2
  have shape' : (p.relabel φ).checkShape t.checkpoint = .ok () := by
    rw [root']
    exact Packing.checkShape_of_wellFormed (Packing.wellFormed_relabel wf)
  obtain ⟨⟨id', t'⟩, step'⟩ : ∃ r, t.install (.packing kind (p.relabel φ)) = .ok r :=
    installPacking_ok cons'.toFrame shape'
      (h.store.now.domains.known wf.toShaped (known_of_watchedBy cons wf watched))
  obtain ⟨-, number', watchers', queue', rfl, -, enqueued'⟩ := installPacking_eq_ok step'
  subst number
  rw [alone] at number' enqueued'
  subst number'
  -- nobody can have registered under the number of the packing before
  have fresh (x : Var) : told (some ⟨s.propagators.size, (s.installedAs kind p).layout,
      (t.installedAs kind (p.relabel φ)).layout⟩) (s.watches x) = [] := by
    refine told_eq_nil fun v member => Bool.eq_false_iff.2 fun seated => ?_
    obtain ⟨a, own, same⟩ := isSeated_iff.1 seated
    cases own
    exact absurd (cons.watched x v member) (Nat.not_lt.2 same.le)
  have heeds := h.heeds.enrol inj kind fresh
  simp only [← watches_of_install step, ← watches_of_install step'] at heeds
  refine ⟨_, step', ⟨⟨⟨h.store.now.domains, fun a own => ?_, h.store.now.own⟩, fun k hk => ?_,
    h.store.checkpoint⟩, heeds, h.staffed.push (q := s.installedAs kind p) rfl alone _,
    h.awaits.enqueue enqueued enqueued'⟩⟩
  · cases own
    exact (ledger_withPacking (Packing.wellFormed_relabel wf)).trans
      ((h.store.now.domains.ofDomains wf.toShaped).trans (ledger_withPacking wf).symm)
  · have below : k < s.checkpoint := hk
    omega

end State.Mirrors

end Stowage

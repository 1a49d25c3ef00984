import Stowage.Packing.Recomputation
import Stowage.Proofs.Packing.Resting
import Stowage.Proofs.Packing.Surrounding

/-!
# Recomputing a packing

The rules applied from nothing lead to the largest closed domains within the given ones.  A round works
with the tallies of the domains it has begun with; they are the entries of a ledger without big items
that was read off those domains, and such a ledger goes on tracking the domains as they get narrower.

* `Packing.IsClosed` — no rule removes a value, whichever candidates are big.
* `Packing.recomputing` — the contract of a recomputation: closed domains stay within.
* `Packing.scratch` — the desk that a round amounts to.
* `Packing.recomputeRound_runs` — a round removes a value, or the domains are closed.
* `Packing.recompute_cases` — a recomputation ends with the largest closed domains, or there are none.
* `Packing.IsClosed.recompute` — it leaves closed domains alone.
-/

set_option autoImplicit false

namespace Stowage

/-! ## Volumes -/

namespace Domains

theorem volume_eq_sum_domains (ds : Domains) :
    ds.volume = ∑ x ∈ Finset.range ds.count, (ds.domain x).size := by
  have entry : ∀ x : Fin ds.table.values.toList.length,
      (ds.table.values.toList[(x : Nat)]).size = (ds.domain x).size := by
    intro x
    have bound : (x : Nat) < ds.table.values.size := x.isLt
    simp [domain, Trailed.get?, bound]
  have length : ds.table.values.toList.length = ds.count := rfl
  rw [volume_eq_sum, ← Fin.sum_univ_fun_getElem, Finset.sum_congr rfl fun x _ => entry x,
    Fin.sum_univ_eq_sum_range fun x => (ds.domain x).size, length]

theorem Within.volume_le {a b : Domains} (h : Within a b) (count : a.count = b.count)
    (healthy : a.Healthy) (healthy' : b.Healthy) : a.volume ≤ b.volume := by
  rw [volume_eq_sum_domains, volume_eq_sum_domains, count]
  refine Finset.sum_le_sum fun x _ => ?_
  exact Domain.size_le_of_forall_mem (healthy' x).holes_nodup (healthy x).holes_nodup (h x)

end Domains

namespace Packing

variable {p : Packing} {ds start inner : Domains} {d b i : Nat}

/-! ## The policy does not matter -/

theorem WellFormed.withPolicy (wf : p.WellFormed) {policy : BigItems}
    (single : p.numDims = 1 ∨ policy = .disabled) : (p.withPolicy policy).WellFormed :=
  ⟨⟨wf.dims, wf.sizeRows, wf.loadRows, wf.nonneg, single⟩, wf.antitone⟩

theorem revisitItems_withPolicy (p : Packing) (policy : BigItems) :
    (p.withPolicy policy).revisitItems = p.revisitItems := by
  funext b t items
  induction items with
  | nil => rfl
  | cons i rest ih =>
    rw [revisitItems, revisitItems, ih]
    rfl

theorem recompute_withPolicy (p : Packing) (policy : BigItems) :
    (p.withPolicy policy).recompute = p.recompute := by
  have round : (p.withPolicy policy).recomputeRound = p.recomputeRound := by
    unfold recomputeRound
    rw [revisitItems_withPolicy]
    rfl
  unfold recompute
  rw [round]
  rfl

/-- No rule of the packing removes a value, whichever candidates are big. -/
def IsClosed (p : Packing) (ds : Domains) : Prop :=
  ∃ policy l, (p.withPolicy policy).WellFormed ∧ (p.withPolicy policy).Closed ds l

theorem Closed.isClosed {l : Ledger} (closed : p.Closed ds l) (wf : p.WellFormed) : p.IsClosed ds :=
  ⟨p.policy, l, wf, closed⟩

/-- All items are confined to the bins. -/
def InBins (p : Packing) (ds : Domains) : Prop :=
  ∀ i < p.numItems, ∀ v ∈ ds.domain (p.item i), 0 ≤ v ∧ v < p.numBins

theorem InBins.narrow {a b : Domains} (inside : p.InBins a) (h : Domains.Narrows a b) : p.InBins b :=
  fun i hi v member => inside i hi v (h.subset _ v member)

/-- The bins are values, so that nothing that is posted of an item leaves their range. -/
theorem InBins.upper_lt {ds : Domains} (inside : p.InBins ds) (healthy : ds.Healthy) {i : Nat}
    (hi : i < p.numItems) : ds.upper (p.item i) < maxValue :=
  lt_of_lt_of_le (inside i hi _ (healthy _).upper_mem).2 p.numBins_le

def confine (p : Packing) : Call Domains Unit :=
  p.itemList.forM fun i => do
    Domains.impose (.atLeast (p.item i) 0)
    Domains.impose (.atMost (p.item i) p.lastBin)

/-! ## The contract -/

/-- The contract of a recomputation: the domains get narrower, but not below closed ones. -/
def recomputing (p : Packing) : Contract Domains where
  inv ds := ds.Healthy ∧ p.Known ds
  rel s t := Domains.Narrows s t ∧ (t = s ∨ t.volume < s.volume) ∧
    ∀ inner, p.IsClosed inner → inner.Within s → inner.Within t
  fail s _ := ∀ inner, p.IsClosed inner → ¬inner.Within s
  refl inv := ⟨.refl inv.1, .inl rfl, fun _ _ within => within⟩
  trans := by
    rintro s t u ⟨narrows, less, keeps⟩ ⟨narrows', less', keeps'⟩
    refine ⟨narrows.trans narrows', ?_, fun inner closed within =>
      keeps' inner closed (keeps inner closed within)⟩
    have := narrows.volume
    have := narrows'.volume
    rcases less with rfl | less
    · exact less'
    · exact .inr (by omega)
  fail_of_rel _ rel fail inner closed within := fail inner closed (rel.2.2 inner closed within)

/-- A rule has removed a value, or nothing has happened since `done` holds already. -/
def Outcome (s : Domains) (done : Domains → Prop) (changed : Bool) (t : Domains) : Prop :=
  (changed = true → t.volume < s.volume) ∧ (changed = false → s = t ∧ done t)

section

variable {done done' : Domains → Prop} {x y : Call Domains Bool}

theorem Outcome.mono {s t : Domains} {changed : Bool} (h : Outcome s done changed t)
    (imp : s = t → done t → done' t) : Outcome s done' changed t :=
  ⟨h.1, fun quiet => ⟨(h.2 quiet).1, imp (h.2 quiet).1 (h.2 quiet).2⟩⟩

theorem runs_both (inv : (recomputing p).inv ds) (first : (recomputing p).Runs x ds (Outcome ds done))
    (second : ∀ t, (recomputing p).inv t → (recomputing p).rel ds t →
      (recomputing p).Runs y t (Outcome t done')) :
    (recomputing p).Runs (do
      let changed ← x
      let later ← y
      return changed || later) ds (Outcome ds fun t => done t ∧ done' t) := by
  refine .bind inv first fun changed t invT rel outcome => ?_
  refine .bind invT (second t invT rel) fun later u invU rel' outcome' => .pure invU ⟨?_, ?_⟩
  · intro either
    have := rel.1.volume
    have := rel'.1.volume
    rcases Bool.or_eq_true_iff.1 either with now | now
    · have := outcome.1 now
      omega
    · have := outcome'.1 now
      omega
  · intro neither
    obtain ⟨now, now'⟩ := Bool.or_eq_false_iff.1 neither
    obtain ⟨rfl, holds⟩ := outcome.2 now
    obtain ⟨rfl, holds'⟩ := outcome'.2 now'
    exact ⟨rfl, holds, holds'⟩

theorem runs_sweep {α : Type} {round : α → Call Domains Bool} {K : α → Domains → Prop} {l : List α}
    (inv : (recomputing p).inv ds)
    (step : ∀ a ∈ l, ∀ t, (recomputing p).inv t → (recomputing p).rel ds t →
      (recomputing p).Runs (round a) t (Outcome t (K a))) :
    (recomputing p).Runs (Call.sweep round l) ds (Outcome ds fun t => ∀ a ∈ l, K a t) := by
  refine (Contract.Runs.sweep (I := fun _ => True) (m := Domains.volume) (N := Eq) (K := K) inv
    trivial (fun t u rel => rel.1.volume) (fun _ => rfl) (fun _ _ _ => Eq.trans)
    (fun a ha t invT rel _ => (step a ha t invT rel).mono fun changed u _ _ outcome =>
      ⟨trivial, outcome.1, outcome.2⟩)
    fun a _ t u same holds => same ▸ holds).mono fun changed t _ _ outcome => ?_
  exact ⟨outcome.2.1, outcome.2.2⟩

end

/-- **Imposing a predicate that holds in all closed domains within.** -/
theorem runs_of_imposes {α : Type} {call : Call Domains α} {q : Predicate} {quiet loud : α}
    (inv : (recomputing p).inv ds) (imposes : Domains.Imposes q call quiet loud ds)
    (sound : ∀ inner, p.IsClosed inner → inner.Within ds → ∀ v ∈ inner.domain q.var,
      q.holds v = true) :
    (recomputing p).Runs call ds fun a t =>
      (a = quiet ∧ t = ds ∨ a = loud ∧ t.volume < ds.volume) ∧
        ∀ v ∈ t.domain q.var, q.holds v = true := by
  rcases imposes with ⟨result, all⟩ | ⟨after, result, narrows, less, members⟩ | ⟨after, result, -, none⟩
  · exact .intro result inv ((recomputing p).refl inv) ⟨.inl ⟨rfl, rfl⟩, all⟩
  · refine .intro result ⟨narrows.healthy, inv.2.narrow narrows⟩
      ⟨narrows, .inr less, fun inner closed within x v member => ?_⟩
      ⟨.inr ⟨rfl, less⟩, fun v member => ((members _ _).1 member).2 rfl⟩
    refine (members x v).2 ⟨within x v member, ?_⟩
    rintro rfl
    exact sound inner closed within v member
  · refine .intro_fail result fun inner closed within => ?_
    obtain ⟨_, _, _, account⟩ := closed
    have member := (account.healthy q.var).lower_mem
    have holds := sound inner ⟨_, _, ‹_›, account⟩ within _ member
    rw [none _ (within _ _ member)] at holds
    cases holds

theorem runs_rule {call : Call Domains Bool} {q : Predicate} {done : Domains → Prop}
    (inv : (recomputing p).inv ds) (imposes : Domains.Imposes q call false true ds)
    (sound : ∀ inner, p.IsClosed inner → inner.Within ds → ∀ v ∈ inner.domain q.var,
      q.holds v = true)
    (conclude : ∀ t : Domains, t.Healthy → (∀ v ∈ t.domain q.var, q.holds v = true) → done t) :
    (recomputing p).Runs call ds (Outcome ds done) := by
  refine (runs_of_imposes inv imposes sound).mono fun changed t invT _ post => ?_
  obtain ⟨⟨rfl, rfl⟩ | ⟨rfl, less⟩, all⟩ := post
  · exact ⟨nofun, fun _ => ⟨rfl, conclude _ invT.1 all⟩⟩
  · exact ⟨fun _ => less, nofun⟩

/-! ## A round -/

/-- The desk that a round amounts to which has begun with the domains `start`. -/
def scratch (p : Packing) (start ds : Domains) : Desk :=
  let (layout, cells) := Layout.allocate p start .empty
  ⟨ds, cells, layout, Ledger.ofDomains p start, .initial, .zero⟩

/-- The desk is one on which the packing can be revised. -/
theorem valid_scratch (inv : (recomputing p).inv ds)
    (tracks : (Ledger.ofDomains p start).Tracks p ds) : (p.scratch start ds).Valid p :=
  ⟨inv.1, inv.2, tracks, List.nodup_nil, fun some => absurd rfl some⟩

section

variable (plain : p.policy = .disabled)

include plain

theorem bin_scratch (start : Domains) (hb : b < p.numBins) :
    (Ledger.ofDomains p start).bin b = Ledger.plainBin p start b := by
  rw [Ledger.bin_ofDomains hb, Ledger.firstBin, if_pos plain]

theorem entry_scratch (start : Domains) (hd : d < p.numDims) (hb : b < p.numBins) :
    (Ledger.ofDomains p start).entry d b =
      { required := (p.tally start b).requiredIn d
        total := (p.tally start b).totalIn d
        seenLower := start.lower (p.load d b)
        seenUpper := start.upper (p.load d b) } := by
  rw [Ledger.entry, bin_scratch plain start hb, Ledger.entry_plainBin hd]

/-- Without big items a candidate leaves with its size. -/
theorem removalDelta_scratch (start : Domains) (hb : b < p.numBins) (d i : Nat) :
    ((Ledger.ofDomains p start).bin b).removalDelta p d i = -p.size d i := by
  rw [bin_scratch plain start hb]
  simp [Bin.removalDelta, Bin.isBig, Ledger.plainBin]

/-- **Closed domains are surrounded.** -/
theorem surrounds_scratch (start : Domains) (closed : p.IsClosed inner) (within : inner.Within ds) :
    ∃ policy l, p.Surrounds policy inner l ds (Ledger.ofDomains p start) := by
  obtain ⟨policy, l, wf', closed⟩ := closed
  refine ⟨policy, l, closed, wf', within, fun b hb => .inr ⟨?_, ?_⟩⟩
  · rw [plain]
    decide
  · rw [bin_scratch plain start hb]
    exact Nat.zero_le _

variable (wf : p.WellFormed) (inv : (recomputing p).inv ds)

include wf inv

/-- **A rule removes no value of closed domains.** -/
theorem holds_of_isClosed {q : Predicate} {bin? : Option Nat}
    (tracks : (Ledger.ofDomains p start).Tracks p ds) (rule : Desk.Rule p (p.scratch start ds) q bin?)
    (closed : p.IsClosed inner) (within : inner.Within ds) :
    ∀ v ∈ inner.domain q.var, q.holds v = true := by
  obtain ⟨policy, l, around⟩ := surrounds_scratch plain start closed within
  exact rule.holds_within wf (valid_scratch inv tracks) around

/-! ### Loads -/

omit plain wf in
/-- **The bounds of a load are tightened.** -/
theorem tighten_runs (hd : d < p.numDims) (hb : b < p.numBins) {least greatest : Int}
    (sound : ∀ inner, p.IsClosed inner → inner.Within ds →
      least ≤ inner.lower (p.load d b) ∧ inner.upper (p.load d b) ≤ greatest) :
    (recomputing p).Runs (do
      let raised ← Domains.raise (p.load d b) least
      let sunk ← Domains.sink (p.load d b) greatest
      return raised || sunk) ds
      (Outcome ds fun t => least ≤ t.lower (p.load d b) ∧ t.upper (p.load d b) ≤ greatest) := by
  refine runs_both inv ?_ fun t invT rel => ?_
  · have imposes := Domains.imposes_raise inv.1 (inv.2.loads d hd b hb) least
    refine runs_rule inv imposes (fun inner closed within v member => ?_) fun t healthy all => ?_
    · have low := (sound inner closed within).1
      exact decide_eq_true (low.trans (Domain.lower_le_of_mem member))
    · exact of_decide_eq_true (all _ (healthy _).lower_mem)
  · have imposes := Domains.imposes_sink invT.1 (invT.2.loads d hd b hb) greatest
    refine runs_rule invT imposes (fun inner closed within v member => ?_) fun u healthy all => ?_
    · have high := (sound inner closed fun x w hw => rel.1.subset x w (within x w hw)).2
      exact decide_eq_true ((Domain.le_upper_of_mem member).trans high)
    · exact of_decide_eq_true (all _ (healthy _).upper_mem)

theorem tightenToTally_runs (tracks : (Ledger.ofDomains p start).Tracks p ds) (hd : d < p.numDims)
    (hb : b < p.numBins) :
    (recomputing p).Runs (p.tightenToTally b (p.tally start b) d) ds
      (Outcome ds fun t => (p.tally start b).requiredIn d ≤ t.lower (p.load d b) ∧
        t.upper (p.load d b) ≤ (p.tally start b).totalIn d) := by
  refine tighten_runs inv hd hb fun inner closed within => ?_
  obtain ⟨policy, l, around⟩ := surrounds_scratch plain start closed within
  have required := around.required_le wf inv.1 tracks hb hd
  have total := around.le_total wf inv.1 tracks hb hd
  rw [entry_scratch plain start hd hb] at required total
  exact ⟨required, total⟩

/-- What the loads of dimension `d` have to satisfy together. -/
structure LevelIn (p : Packing) (start ds : Domains) (d : Nat) : Prop where
  enclosed : p.sumLoads ds.lower d ≤ p.totalSize d ∧ p.totalSize d ≤ p.sumLoads ds.upper d
  balanced : ∀ b < p.numBins, (p.tally start b).candidates ≠ [] →
    p.totalSize d - (p.sumLoads ds.upper d - ds.upper (p.load d b)) ≤ ds.lower (p.load d b) ∧
      ds.upper (p.load d b) ≤ p.totalSize d - (p.sumLoads ds.lower d - ds.lower (p.load d b))

/-- A load is tightened to what the other bins leave to it.  The sums are those of wider domains. -/
theorem rebalanceLoad_runs {wide : Domains} (narrows : Domains.Narrows wide ds)
    (tracks : (Ledger.ofDomains p start).Tracks p ds) (hd : d < p.numDims) (hb : b < p.numBins) :
    (recomputing p).Runs
      (p.rebalanceLoad d (p.sumLoads wide.lower d) (p.sumLoads wide.upper d) b (p.tally start b)) ds
      (Outcome ds fun t =>
        p.totalSize d - (p.sumLoads wide.upper d - t.upper (p.load d b)) ≤ t.lower (p.load d b) ∧
          t.upper (p.load d b) ≤
            p.totalSize d - (p.sumLoads wide.lower d - t.lower (p.load d b))) := by
  refine .get_bind ((tighten_runs inv hd hb fun inner closed within => ?_).mono
    fun changed t _ _ outcome => outcome.mono fun same bounds => ?_)
  · obtain ⟨policy, l, around⟩ := surrounds_scratch plain start closed within
    have required := around.required_le wf inv.1 tracks hb hd
    have total := around.le_total wf inv.1 tracks hb hd
    rw [entry_scratch plain start hd hb] at required total
    have rest := around.rest_le hd hb
      (fun c _ => (around.upper_le (p.load d c)).trans (narrows.upper_le (p.load d c)))
      (narrows.upper_le (p.load d b))
    have leave := around.le_rest hd hb
      (fun c _ => (narrows.le_lower (p.load d c)).trans (around.le_lower (p.load d c)))
      (narrows.le_lower (p.load d b))
    rw [← p.sum_binList] at rest leave
    exact ⟨max_le required rest, le_min total leave⟩
  · subst same
    exact ⟨(le_max_right _ _).trans bounds.1, bounds.2.trans (min_le_right _ _)⟩

/-- **The loads of a dimension are balanced.** -/
theorem rebalance_runs (tracks : (Ledger.ofDomains p start).Tracks p ds) (hd : d < p.numDims) :
    (recomputing p).Runs (p.rebalance (p.binList.map fun b => (b, p.tally start b)) d) ds
      (Outcome ds fun t => p.LevelIn start t d) := by
  refine .get_bind (.ite (fun outside => ?_) fun enclosed => ?_)
  · refine .conflict fun inner closed within => ?_
    obtain ⟨policy, l, around⟩ := surrounds_scratch plain ds closed within
    have enclose := around.sums_enclose hd (fun _ _ => le_refl _) (fun _ _ => le_refl _)
    rw [← p.sum_binList, ← p.sum_binList] at enclose
    simp only [sumLoads] at outside
    omega
  · refine (runs_sweep (K := fun pair t =>
        p.totalSize d - (p.sumLoads ds.upper d - t.upper (p.load d pair.1)) ≤
            t.lower (p.load d pair.1) ∧
          t.upper (p.load d pair.1) ≤
            p.totalSize d - (p.sumLoads ds.lower d - t.lower (p.load d pair.1))) inv
      fun pair member t invT rel => ?_).mono fun changed t _ _ outcome =>
        outcome.mono fun same balanced => ⟨?_, fun b hb some => ?_⟩
    · obtain ⟨b, hb, rfl⟩ := List.mem_map.1 (List.mem_filter.1 member).1
      exact rebalanceLoad_runs plain wf invT rel.1 (tracks.narrow inv.1 rel.1) hd
        (List.mem_range.1 hb)
    · subst same
      omega
    · subst same
      refine balanced (b, p.tally start b) (List.mem_filter.2 ⟨?_, by simpa using some⟩)
      exact List.mem_map.2 ⟨b, List.mem_range.2 hb, rfl⟩

/-! ### Candidates -/

/-- Item `i` passes both tests for bin `b`, if it is still a candidate. -/
def Tested (p : Packing) (start ds : Domains) (b i : Nat) : Prop :=
  (b : Int) ∈ ds.domain (p.item i) → (ds.domain (p.item i)).isFixed = false →
    p.Passes (p.scratch start ds) b i

omit wf inv in
theorem fits_scratch (hb : b < p.numBins) (i : Nat) : p.fits (p.scratch start ds) b i =
    p.dimList.all fun d =>
      decide ((p.tally start b).requiredIn d + p.size d i ≤ ds.upper (p.load d b)) := by
  rw [Bool.eq_iff_iff, fits, List.all_eq_true, List.all_eq_true]
  refine forall₂_congr fun d hd => ?_
  rw [scratch, entry_scratch plain start (List.mem_range.1 hd) hb]

omit wf inv in
theorem isNeeded_scratch (hb : b < p.numBins) (i : Nat) : p.isNeeded (p.scratch start ds) b i =
    p.dimList.all fun d =>
      decide ((p.tally start b).totalIn d - p.size d i < ds.lower (p.load d b)) := by
  rw [Bool.eq_iff_iff, isNeeded, List.all_eq_true, List.all_eq_true]
  refine forall₂_congr fun d hd => ?_
  rw [scratch, entry_scratch plain start (List.mem_range.1 hd) hb,
    removalDelta_scratch plain start hb, ← sub_eq_add_neg]

/-- **The candidates of a bin are visited.** -/
theorem revisitItems_runs (tracks : (Ledger.ofDomains p start).Tracks p ds) (confined : p.InBins ds)
    (hb : b < p.numBins)
    {items : List Nat} (ascending : items.Pairwise (· < ·))
    (inside : ∀ i ∈ items, i ∈ (p.tally start b).candidates) :
    (recomputing p).Runs (p.revisitItems b (p.tally start b) items) ds
      (Outcome ds fun t => ∀ i ∈ items, p.Tested start t b i) := by
  have candidate : ∀ i ∈ items, i ∈ ((Ledger.ofDomains p start).bin b).candidates := by
    intro i hi
    rw [bin_scratch plain start hb]
    exact inside i hi
  induction items generalizing ds with
  | nil => exact .pure inv ⟨nofun, fun _ => ⟨rfl, fun _ member => by cases member⟩⟩
  | cons i rest ih =>
    obtain ⟨later, ascending⟩ := List.pairwise_cons.1 ascending
    have here := candidate i List.mem_cons_self
    have bound := (tracks.accounts b hb).bounded i here
    -- after a rule for the first item the others are visited in narrower domains
    have go : ∀ t, (recomputing p).inv t → (recomputing p).rel ds t →
        (recomputing p).Runs (p.revisitItems b (p.tally start b) rest) t
          (Outcome t fun u => ∀ j ∈ rest, p.Tested start u b j) := fun t invT rel =>
      ih invT (tracks.narrow inv.1 rel.1) (confined.narrow rel.1) ascending
        (fun j hj => inside j (List.mem_cons_of_mem _ hj))
        fun j hj => candidate j (List.mem_cons_of_mem _ hj)
    have apply : ∀ {q : Predicate} {bin? : Option Nat}, q.var = p.item i →
        Desk.Rule p (p.scratch start ds) q bin? →
        (∀ t : Domains, t.Healthy → (∀ v ∈ t.domain q.var, q.holds v = true) →
          p.Tested start t b i) →
        (recomputing p).Runs (do
          let changed ← Domains.imposeNew q
          let later ← p.revisitItems b (p.tally start b) rest
          return changed || later) ds
          (Outcome ds fun t => ∀ j ∈ i :: rest, p.Tested start t b j) := by
      intro q bin? var rule conclude
      have exist : q.var < ds.count := var ▸ inv.2.items i bound
      have fits : ds.Fits q := Domains.fits_of_upper_lt (var ▸ confined.upper_lt inv.1 bound)
      have first := runs_rule inv (Domains.imposes_imposeNew inv.1 exist fits)
        (fun inner closed within => holds_of_isClosed plain wf inv tracks rule closed within) conclude
      exact (runs_both inv first go).mono fun changed t _ _ outcome =>
        outcome.mono fun _ tested => List.forall_mem_cons.2 tested
    rw [revisitItems]
    refine .get_bind ?_
    simp only [← fits_scratch plain hb, ← isNeeded_scratch plain hb]
    refine .ite (fun full => ?_) fun fits => .ite (fun needed => ?_) fun notNeeded => ?_
    · have full : p.fits (p.scratch start ds) b i = false := by simpa using full
      refine apply rfl (.exclude hb here full) fun t healthy all member => ?_
      exact absurd rfl (of_decide_eq_true (all _ member))
    · refine apply rfl (.force hb here needed) fun t healthy all member open' => ?_
      have fixed := (healthy (p.item i)).isFixed_of_forall_eq fun v hv => of_decide_eq_true (all v hv)
      exact absurd (fixed.symm.trans open') (by decide)
    · have passes : p.Passes (p.scratch start ds) b i :=
        ⟨by simpa using fits, by simpa using notNeeded⟩
      refine .ite (fun single => ?_) fun _ => ?_
      · -- the remaining items are smaller
        refine .pure inv ⟨nofun, fun _ => ⟨rfl, List.forall_mem_cons.2 ⟨fun _ _ => passes, ?_⟩⟩⟩
        intro j hj _ _
        have small : ((p.scratch start ds).ledger.bin b).isBig i = false := by
          rw [scratch, bin_scratch plain start hb]
          simp [Bin.isBig, Ledger.plainBin]
        exact passes.of_le wf (by simpa using single) small (Nat.le_of_lt (later j hj))
          ((tracks.accounts b hb).bounded j (candidate j (List.mem_cons_of_mem _ hj)))
      · refine (go ds inv ((recomputing p).refl inv)).mono fun changed t _ _ outcome =>
          outcome.mono fun same tested => List.forall_mem_cons.2 ⟨fun _ _ => same ▸ passes, tested⟩

/-! ### A whole round -/

omit plain wf inv in
theorem sum_ofDomains (ds : Domains) (hd : d < p.numDims) :
    (Ledger.ofDomains p ds).sum d = ⟨p.sumLoads ds.lower d, p.sumLoads ds.upper d⟩ := by
  simp [Ledger.sum, Ledger.ofDomains, Ledger.plain, dimList, sumLoads, hd]

/-- **Domains that pass all tests of a round are closed.** -/
theorem closed_of_tested (confined : p.InBins ds)
    (tight : ∀ b < p.numBins, ∀ d < p.numDims, (p.tally ds b).requiredIn d ≤ ds.lower (p.load d b) ∧
      ds.upper (p.load d b) ≤ (p.tally ds b).totalIn d)
    (level : ∀ d < p.numDims, p.LevelIn ds ds d)
    (tested : ∀ b < p.numBins, ∀ i ∈ (p.tally ds b).candidates, p.Tested ds ds b i) :
    p.Closed ds (Ledger.ofDomains p ds) := by
  have tracks := Ledger.tracks_ofDomains wf ds
  have candidates : ∀ b < p.numBins, ∀ i ∈ ((Ledger.ofDomains p ds).bin b).candidates,
      i ∈ (p.tally ds b).candidates ∧ (b : Int) ∈ ds.domain (p.item i) ∧
        (ds.domain (p.item i)).isFixed = false := by
    intro b hb i hi
    rw [bin_scratch plain ds hb] at hi
    exact ⟨hi, (Ledger.mem_candidates_plainBin.1 hi).2⟩
  have rest : (p.scratch ds ds).AtRest p := by
    refine ⟨⟨fun d hd => ?_, fun b hb d hd => ?_⟩, fun b hb i hi => ?_⟩
    · rw [scratch, sum_ofDomains ds hd]
      exact (level d hd).enclosed
    · obtain ⟨inside, some⟩ := (tracks.available b).1 hb
      rw [bin_scratch plain ds inside] at some
      obtain ⟨least, greatest⟩ := (level d hd).balanced b inside some
      constructor
      · rw [scratch, sum_ofDomains ds hd]
        exact least
      · rw [scratch, sum_ofDomains ds hd]
        exact greatest
    · have inside := ((tracks.available b).1 hb).1
      obtain ⟨candidate, member, open'⟩ := candidates b inside i hi
      exact tested b inside i candidate member open'
  refine rest.closed wf (valid_scratch inv tracks) (fun d hd b hb => ?_) confined
    (fun b hb i hi => (candidates b hb i hi).2) fun d hd b hb => ?_
  · rw [scratch, entry_scratch plain ds hd hb]
    exact ⟨rfl, rfl⟩
  · rw [Desk.TightAt, scratch, entry_scratch plain ds hd hb]
    exact tight b hb d hd

/-- **A round removes a value, or the domains are closed.** -/
theorem recomputeRound_runs (confined : p.InBins ds) :
    (recomputing p).Runs p.recomputeRound ds
      (Outcome ds fun t => p.Closed t (Ledger.ofDomains p t)) := by
  have tracks := Ledger.tracks_ofDomains wf ds
  have tallies : p.tallies ds = .ok (p.binList.map fun b => (b, p.tally ds b)) := by
    have all : p.itemList.all (p.isConfined ds) = true := by
      refine List.all_eq_true.2 fun i hi => ?_
      have low := (confined i (List.mem_range.1 hi) _ (inv.1 _).lower_mem).1
      have high := (confined i (List.mem_range.1 hi) _ (inv.1 _).upper_mem).2
      simp [isConfined, low, high]
    have complete := inv.2.isComplete wf.toShaped
    simp [Packing.tallies, require, complete, all, bind, Except.bind, pure, Except.pure]
  have pair : ∀ a ∈ p.binList.map fun b => (b, p.tally ds b), ∃ b < p.numBins, a = (b, p.tally ds b) := by
    intro a ha
    obtain ⟨b, hb, rfl⟩ := List.mem_map.1 ha
    exact ⟨b, List.mem_range.1 hb, rfl⟩
  have tighten : (recomputing p).Runs
      (Call.sweep (fun a => Call.sweep (p.tightenToTally a.1 a.2) p.dimList)
        (p.binList.map fun b => (b, p.tally ds b))) ds
      (Outcome ds fun t => ∀ a ∈ p.binList.map fun b => (b, p.tally ds b), ∀ d ∈ p.dimList,
        a.2.requiredIn d ≤ t.lower (p.load d a.1) ∧ t.upper (p.load d a.1) ≤ a.2.totalIn d) :=
    runs_sweep inv fun a ha t invT rel => by
      obtain ⟨b, hb, rfl⟩ := pair a ha
      refine runs_sweep invT fun d hd u invU relU => ?_
      have narrows := rel.1.trans relU.1
      exact tightenToTally_runs plain wf invU (tracks.narrow inv.1 narrows) (List.mem_range.1 hd) hb
  have balance : ∀ t, (recomputing p).inv t → (recomputing p).rel ds t →
      (recomputing p).Runs
        (Call.sweep (p.rebalance (p.binList.map fun b => (b, p.tally ds b))) p.dimList) t
        (Outcome t fun u => ∀ d ∈ p.dimList, p.LevelIn ds u d) := fun t invT rel =>
    runs_sweep invT fun d hd u invU relU =>
      rebalance_runs plain wf invU (tracks.narrow inv.1 (rel.1.trans relU.1)) (List.mem_range.1 hd)
  have visit : ∀ t, (recomputing p).inv t → (recomputing p).rel ds t →
      (recomputing p).Runs
        (Call.sweep (fun a => p.revisitItems a.1 a.2 a.2.candidates)
          (p.binList.map fun b => (b, p.tally ds b))) t
        (Outcome t fun u => ∀ a ∈ p.binList.map fun b => (b, p.tally ds b),
          ∀ i ∈ a.2.candidates, p.Tested ds u a.1 i) := fun t invT rel =>
    runs_sweep invT fun a ha u invU relU => by
      obtain ⟨b, hb, rfl⟩ := pair a ha
      have ascending : (p.tally ds b).candidates.Pairwise (· < ·) :=
        (Ledger.accounts_plainBin p ds b 0).ascending
      have narrows := rel.1.trans relU.1
      exact revisitItems_runs plain wf invU (tracks.narrow inv.1 narrows) (confined.narrow narrows) hb
        ascending fun i hi => hi
  have whole := runs_both inv (runs_both inv tighten balance) visit
  simp only [bind_assoc, pure_bind] at whole
  refine .get_bind ?_
  rw [tallies]
  refine whole.mono fun changed t invT _ outcome => outcome.mono fun same done => ?_
  subst same
  obtain ⟨⟨tight, level⟩, tested⟩ := done
  have listed : ∀ b < p.numBins, (b, p.tally ds b) ∈ p.binList.map fun b => (b, p.tally ds b) :=
    fun b hb => List.mem_map.2 ⟨b, List.mem_range.2 hb, rfl⟩
  exact closed_of_tested plain wf inv confined
    (fun b hb d hd => tight _ (listed b hb) d (List.mem_range.2 hd))
    (fun d hd => level d (List.mem_range.2 hd)) fun b hb => tested _ (listed b hb)

/-! ## A whole recomputation -/

/-- **The items are restricted to the bins.** -/
theorem confine_runs : (recomputing p).Runs p.confine ds fun _ t => p.InBins t := by
  refine (Contract.Runs.forM (I := fun _ => True)
    (K := fun i (t : Domains) => ∀ v ∈ t.domain (p.item i), 0 ≤ v ∧ v < (p.numBins : Int)) inv trivial
    (fun i hi t invT _ _ => ?_) fun i hi t u _ rel inside v member => ?_).mono
      fun _ t _ _ confined i hi => confined.2 i (List.mem_range.2 hi)
  · have item := List.mem_range.1 hi
    have tracks := Ledger.tracks_ofDomains wf t
    have low : Desk.Rule p (p.scratch t t) (.atLeast (p.item i) 0) none := .confineLow item
    refine .bind invT (runs_of_imposes invT
      (Domains.imposes_impose invT.1 (invT.2.items i item) (Domains.fits_atLeast t _ 0))
      fun inner => holds_of_isClosed plain wf invT tracks low) fun _ u invU _ post => ?_
    have tracksU := Ledger.tracks_ofDomains wf u
    have high : Desk.Rule p (p.scratch u u) (.atMost (p.item i) p.lastBin) none :=
      .confineHigh item
    refine (runs_of_imposes invU
      (Domains.imposes_impose invU.1 (invU.2.items i item) (Domains.fits_atMost u _ p.lastBin))
      fun inner => holds_of_isClosed plain wf invU tracksU high).mono fun _ w _ rel post' =>
        ⟨trivial, fun v member => ?_⟩
    have above : 0 ≤ v := of_decide_eq_true (post.2 v (rel.1.subset _ v member))
    have below : v ≤ p.lastBin := of_decide_eq_true (post'.2 v member)
    simp only [lastBin] at below
    omega
  · exact inside v (rel.1.subset _ v member)

/-- **A recomputation ends with closed domains**, and with all closed domains within them. -/
theorem recompute_runs :
    (recomputing p).Runs p.recompute ds fun _ t => p.Closed t (Ledger.ofDomains p t) := by
  refine .bind inv (confine_runs plain wf inv) fun _ t invT _ confined => .get_bind ?_
  refine (Contract.Runs.untilStable (m := Domains.volume)
    (I := fun u => p.InBins u) (F := fun u => p.Closed u (Ledger.ofDomains p u)) invT
    confined (Nat.lt_succ_self _) fun u invU _ inside => ?_).mono fun _ u _ _ done => done.2
  refine (recomputeRound_runs plain wf invU inside).mono fun changed w _ rel outcome =>
    ⟨inside.narrow rel.1, outcome.1,
      fun quiet => (outcome.2 quiet).2⟩

end

section

variable (wf : p.WellFormed) (healthy : ds.Healthy) (known : p.Known ds)

include wf healthy known

/-- Big items or not, the packing is recomputed like the one without. -/
theorem recompute_plain_runs :
    (recomputing (p.withPolicy .disabled)).Runs p.recompute ds fun _ t => p.IsClosed t := by
  have plain : (p.withPolicy .disabled).WellFormed := wf.withPolicy (.inr rfl)
  rw [← p.recompute_withPolicy .disabled]
  exact (recompute_runs rfl plain ⟨healthy, known.items, known.loads⟩).mono
    fun _ _ _ _ closed => ⟨.disabled, _, plain, closed⟩

/-- **A recomputation ends with the largest closed domains**, or finds that there are none.  It does
not fault. -/
theorem recompute_cases :
    (∃ t, p.recompute ds = .ok () t ∧ Domains.Narrows ds t ∧ p.IsClosed t ∧
      ∀ inner, p.IsClosed inner → inner.Within ds → inner.Within t) ∨
    ∃ cause t, p.recompute ds = .error (.inconsistent cause) t ∧
      ∀ inner, p.IsClosed inner → ¬inner.Within ds := by
  have runs := recompute_plain_runs wf healthy known
  unfold Contract.Runs at runs
  split at runs
  · rename_i t result
    obtain ⟨-, ⟨narrows, -, keeps⟩, closed⟩ := runs
    exact .inl ⟨t, result, narrows, closed, keeps⟩
  · rename_i cause t result
    exact .inr ⟨cause, t, result, runs⟩
  · exact runs.elim

omit healthy in
/-- **A recomputation leaves closed domains alone.** -/
theorem IsClosed.recompute (closed : p.IsClosed ds) : p.recompute ds = .ok () ds := by
  have healthy : ds.Healthy := closed.elim fun _ h => h.elim fun _ h => h.2.healthy
  have runs := recompute_plain_runs wf healthy known
  unfold Contract.Runs at runs
  split at runs
  · rename_i t result
    obtain ⟨-, ⟨narrows, less, keeps⟩, -⟩ := runs
    have within := keeps ds closed fun _ _ member => member
    have volume := within.volume_le narrows.count.symm healthy narrows.healthy
    obtain rfl := less.resolve_right (by omega)
    exact result
  · exact absurd (fun _ _ member => member) (runs ds closed)
  · exact runs.elim

end

end Packing

end Stowage

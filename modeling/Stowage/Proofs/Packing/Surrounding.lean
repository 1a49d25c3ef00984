import Stowage.Proofs.Packing.Closed
import Stowage.Proofs.Packing.Extending
import Stowage.Proofs.Packing.Steps

/-!
# Closed domains within larger ones

Whatever a packing derives from domains, in whatever order and with whatever the ledger remembers, it
removes no value of closed domains within them, and finds no inconsistency.

* `Packing.Surrounds` — closed domains lie within the domains of a ledger.
* `Packing.Surrounds.required_le`, `Packing.Surrounds.le_total`, `Packing.Surrounds.not_mem_of_full`,
  `Packing.Surrounds.eq_of_needed` — what the ledger derives holds in the closed domains.
* `Desk.Rule.holds_within`, `Desk.Step.surrounds` — a rule, and a step.
* `Packing.Surrounds.call` — a whole call.
-/

set_option autoImplicit false

namespace Stowage

namespace Packing

/-- Closed domains `inner`, with their own ledger `account`, lie within the domains of a ledger that
tracks them. -/
structure Surrounds (p : Packing) (policy : BigItems) (inner : Domains) (account : Ledger)
    (ds : Domains) (l : Ledger) : Prop where
  closed : (p.withPolicy policy).Closed inner account
  wf : (p.withPolicy policy).WellFormed
  within : inner.Within ds
  /-- Candidates that are big in the larger domains are big in the closed ones: either the big items
  are extended there as far as possible, or fewer have been big from the start. -/
  sharp : ∀ b < p.numBins, (account.bin b).Extended p (p.freeSpace account inner 0 b) ∨
    p.policy ≠ .dynamic ∧ (l.bin b).firstSmall ≤ (account.bin b).firstSmall

variable {p : Packing} {policy : BigItems} {inner ds : Domains} {account l : Ledger} {b d i : Nat}

section

variable (h : p.Surrounds policy inner account ds l)

include h

/-- An item that is fixed in the larger domains is fixed to the same value in the closed ones. -/
theorem Surrounds.mem_iff_of_isFixed (healthy : ds.Healthy) {x : Var}
    (fixed : (ds.domain x).isFixed = true) {v : Int} : v ∈ inner.domain x ↔ v ∈ ds.domain x := by
  refine ⟨h.within x v, fun member => ?_⟩
  have least := (h.closed.healthy x).lower_mem
  rw [((healthy x).mem_iff_of_isFixed fixed).1 member,
    ← ((healthy x).mem_iff_of_isFixed fixed).1 (h.within x _ least)]
  exact least

theorem Surrounds.le_lower (x : Var) : ds.lower x ≤ inner.lower x :=
  Domain.lower_le_of_mem (h.within x _ (h.closed.healthy x).lower_mem)

theorem Surrounds.upper_le (x : Var) : inner.upper x ≤ ds.upper x :=
  Domain.le_upper_of_mem (h.within x _ (h.closed.healthy x).upper_mem)

theorem Surrounds.lower_le_upper (x : Var) : inner.lower x ≤ inner.upper x :=
  (h.closed.healthy x).lower_le_upper

/-- What the closed domains place in a bin has room there. -/
theorem Surrounds.weigh_le_upper (hd : d < p.numDims) (hb : b < p.numBins) :
    p.weigh d (p.placedIn inner (account.bin b) b) ≤ inner.upper (p.load d b) := by
  have required : (account.entry d b).required =
      p.weigh d (p.placedIn inner (account.bin b) b) := (h.closed.accounts b hb).required d hd
  rw [← required]
  exact (h.closed.tight d hd b hb).1.trans (h.lower_le_upper _)

/-- What is placed in the larger domains is placed in the closed ones. -/
theorem Surrounds.placedIn_of_placedIn (healthy : ds.Healthy) (tracks : l.Tracks p ds)
    (hb : b < p.numBins) (hi : i < p.numItems) (settled : p.placedIn ds (l.bin b) b i = true) :
    p.placedIn inner (account.bin b) b i = true := by
  have fixed := tracks.placed b hb i hi settled
  have inside := (h.mem_iff_of_isFixed healthy fixed).2 (placedIn_eq_true_iff.1 settled).1
  refine placedIn_eq_true_iff.2 ⟨inside, fun candidate => ?_⟩
  have single : ∀ v ∈ inner.domain (p.item i), v = (ds.domain (p.item i)).lower :=
    fun v member => ((healthy _).mem_iff_of_isFixed fixed).1 (h.within _ v member)
  have open' := (h.closed.candidates b hb i candidate).2
  have closed' := (h.closed.healthy (p.item i)).isFixed_of_forall_eq single
  exact absurd (closed'.symm.trans open') (by decide)

/-- What may be in a bin in the closed domains may be there in the larger ones. -/
theorem Surrounds.reserved (hb : b < p.numBins)
    (inside : p.placedIn inner (account.bin b) b i = true ∨ i ∈ (account.bin b).candidates) :
    p.placedIn ds (l.bin b) b i = true ∨ i ∈ (l.bin b).candidates := by
  have member : (b : Int) ∈ ds.domain (p.item i) := by
    apply h.within
    rcases inside with placed | candidate
    · exact (placedIn_eq_true_iff.1 placed).1
    · exact (h.closed.candidates b hb i candidate).1
  by_cases candidate : i ∈ (l.bin b).candidates
  · exact .inr candidate
  · exact .inl (placedIn_eq_true_iff.2 ⟨member, candidate⟩)

/-- Candidates that are big in the larger domains exclude each other in the closed ones. -/
theorem Surrounds.exclusive (outer : p.WellFormed) (healthy : ds.Healthy) (tracks : l.Tracks p ds)
    (hb : b < p.numBins) {j : Nat} (hi : i ∈ (account.bin b).candidates)
    (hj : j ∈ (account.bin b).candidates) (before : i < j) (less : j < (l.bin b).firstSmall) :
    p.freeSpace account inner 0 b < p.size 0 i + p.size 0 j := by
  have acc := h.closed.accounts b hb
  have keeps := fun n bound => h.placedIn_of_placedIn healthy tracks hb (i := n) bound
  have candidate : ∀ n, n ∈ (account.bin b).candidates → n ∈ (l.bin b).candidates := by
    intro n hn
    refine (h.reserved hb (.inr hn)).resolve_left fun settled => ?_
    exact absurd hn (placedIn_eq_true_iff.1 (keeps n (acc.bounded n hn) settled)).2
  have clash := (tracks.accounts b hb).exclusive i j
    (Bin.isBigCandidate_iff.2 ⟨candidate i hi, before.trans less⟩)
    (Bin.isBigCandidate_iff.2 ⟨candidate j hj, less⟩) (Nat.ne_of_lt before)
  have heavier := p.weigh_mono outer (d := 0) keeps
  have required : (account.entry 0 b).required =
      p.weigh 0 (p.placedIn inner (account.bin b) b) := acc.required 0 outer.dims
  have upper := h.upper_le (p.load 0 b)
  simp only [freeSpace, required]
  omega

/-- Two candidates that are big in the larger domains are big in the closed ones. -/
theorem Surrounds.isBig (outer : p.WellFormed) (healthy : ds.Healthy) (tracks : l.Tracks p ds)
    (hb : b < p.numBins) {j : Nat} (hi : i ∈ (account.bin b).candidates)
    (hj : j ∈ (account.bin b).candidates) (before : i < j) (less : j < (l.bin b).firstSmall) :
    (account.bin b).isBig i = true ∧ (account.bin b).isBig j = true := by
  rcases h.sharp b hb with extended | ⟨-, fewer⟩
  · have last : (account.bin b).isBig j = true :=
      extended.isBig (h.closed.accounts b hb).ascending
        (fun k hk m hm => h.exclusive outer healthy tracks hb hk hm) hi hj before less
    have below : j < (account.bin b).firstSmall := of_decide_eq_true last
    exact ⟨decide_eq_true (before.trans below), last⟩
  · exact ⟨decide_eq_true (by omega), decide_eq_true (by omega)⟩

/-- **The accounts of a bin of the larger domains cover those of the closed domains.** -/
theorem Surrounds.covers (outer : p.WellFormed) (healthy : ds.Healthy) (tracks : l.Tracks p ds)
    (hb : b < p.numBins) :
    Bin.Covers p policy (p.placedIn inner (account.bin b) b) (account.bin b)
      (p.placedIn ds (l.bin b) b) (ds.upper (p.load 0 b)) (l.bin b) := by
  have acc := h.closed.accounts b hb
  have room := h.weigh_le_upper outer.dims hb
  have upper := h.upper_le (p.load 0 b)
  refine ⟨⟨_, acc⟩, tracks.accounts b hb,
    fun i hi => h.placedIn_of_placedIn healthy tracks hb hi, fun i _ => h.reserved hb,
    room.trans upper, fun i hi => ?_, h.closed.bigPlaced_eq_false h.wf hb,
    fun i j bigI bigJ different hi hj => ?_⟩
  · have fits : (account.entry 0 b).required + p.size 0 i ≤ inner.upper (p.load 0 b) :=
      h.closed.fits b hb i hi 0 outer.dims
    have required : (account.entry 0 b).required =
        p.weigh 0 (p.placedIn inner (account.bin b) b) := acc.required 0 outer.dims
    omega
  · have belowI := (Bin.isBigCandidate_iff.1 bigI).2
    have belowJ := (Bin.isBigCandidate_iff.1 bigJ).2
    rcases Nat.lt_or_gt_of_ne different with before | before
    · exact h.isBig outer healthy tracks hb hi hj before belowJ
    · exact (h.isBig outer healthy tracks hb hj hi before belowI).symm

end

/-! ## What the ledger derives -/

section

variable (h : p.Surrounds policy inner account ds l) (wf : p.WellFormed) (healthy : ds.Healthy)
  (tracks : l.Tracks p ds) (hb : b < p.numBins)

include h wf healthy tracks hb

/-- **No bin requires more in the larger domains.** -/
theorem Surrounds.required_le (hd : d < p.numDims) :
    (l.entry d b).required ≤ inner.lower (p.load d b) := by
  have less := (h.covers wf healthy tracks hb).required_le wf d
  have outer : (l.entry d b).required = p.weigh d (p.placedIn ds (l.bin b) b) :=
    (tracks.accounts b hb).required d hd
  have required : (account.entry d b).required =
      p.weigh d (p.placedIn inner (account.bin b) b) := (h.closed.accounts b hb).required d hd
  have tight : (account.entry d b).required ≤ inner.lower (p.load d b) :=
    (h.closed.tight d hd b hb).1
  omega

/-- **No bin allows less in the larger domains.** -/
theorem Surrounds.total_le (hd : d < p.numDims) : (account.entry d b).total ≤ (l.entry d b).total :=
  (h.covers wf healthy tracks hb).total_le wf h.wf hd

theorem Surrounds.le_total (hd : d < p.numDims) :
    inner.upper (p.load d b) ≤ (l.entry d b).total :=
  (h.closed.tight d hd b hb).2.trans (h.total_le wf healthy tracks hb hd)

/-- **A candidate that does not fit is not in the bin.** -/
theorem Surrounds.not_mem_of_full (hi : i ∈ (l.bin b).candidates) (hd : d < p.numDims)
    (full : ds.upper (p.load d b) < (l.entry d b).required + p.size d i) :
    (b : Int) ∉ inner.domain (p.item i) := by
  intro member
  have covers := h.covers wf healthy tracks hb
  have upper := h.upper_le (p.load d b)
  have outer : (l.entry d b).required = p.weigh d (p.placedIn ds (l.bin b) b) :=
    (tracks.accounts b hb).required d hd
  by_cases candidate : i ∈ (account.bin b).candidates
  · have fits : (account.entry d b).required + p.size d i ≤ inner.upper (p.load d b) :=
      h.closed.fits b hb i candidate d hd
    have required : (account.entry d b).required =
        p.weigh d (p.placedIn inner (account.bin b) b) := (h.closed.accounts b hb).required d hd
    have := covers.required_le wf d
    omega
  · have := covers.required_add_le wf d hi (placedIn_eq_true_iff.2 ⟨member, candidate⟩)
    have := h.weigh_le_upper hd hb
    omega

/-- **A candidate that the bin needs is in it.** -/
theorem Surrounds.eq_of_needed (hi : i ∈ (l.bin b).candidates)
    (needed : ∀ d < p.numDims,
      (l.entry d b).total + (l.bin b).removalDelta p d i < ds.lower (p.load d b)) :
    ∀ v ∈ inner.domain (p.item i), v = b := by
  intro v member
  by_contra other
  have covers := h.covers wf healthy tracks hb
  by_cases candidate : i ∈ (account.bin b).candidates
  · obtain ⟨d, hd, enough⟩ := h.closed.notNeeded b hb i candidate
    have less : (account.entry d b).total + (account.bin b).removalDelta (p.withPolicy policy) d i ≤
        (l.entry d b).total + (l.bin b).removalDelta p d i :=
      covers.total_add_removalDelta_le wf h.wf hi candidate hd
    have enough : inner.lower (p.load d b) ≤
        (account.entry d b).total + (account.bin b).removalDelta (p.withPolicy policy) d i := enough
    have := needed d hd
    have := h.le_lower (p.load d b)
    omega
  · have free : p.placedIn inner (account.bin b) b i = false := by
      by_contra placed
      have placed : p.placedIn inner (account.bin b) b i = true := by simpa using placed
      have fixed := h.closed.placed b hb i ((tracks.accounts b hb).bounded i hi) placed
      have single : ∀ w ∈ inner.domain (p.item i), w = (inner.domain (p.item i)).lower :=
        fun w => ((h.closed.healthy (p.item i)).mem_iff_of_isFixed fixed).1
      exact other ((single v member).trans (single b (placedIn_eq_true_iff.1 placed).1).symm)
    have dims : 0 < p.numDims := wf.dims
    have less : (account.entry 0 b).total ≤ (l.entry 0 b).total + (l.bin b).removalDelta p 0 i :=
      covers.total_le_add_removalDelta wf h.wf hi candidate free dims
    have tight : inner.upper (p.load 0 b) ≤ (account.entry 0 b).total :=
      (h.closed.tight 0 dims b hb).2
    have := needed 0 dims
    have := h.le_lower (p.load 0 b)
    have := h.lower_le_upper (p.load 0 b)
    omega

/-- **A candidate that is fixed to the bin can be placed there.** -/
theorem Surrounds.place_ne_none (hi : i ∈ (l.bin b).candidates)
    (fixed : (ds.domain (p.item i)).fixedValue? = some (b : Int)) : (l.bin b).place p i ≠ none := by
  intro blocked
  obtain ⟨isFixed, value⟩ := Domain.fixedValue?_eq_some_iff.1 fixed
  have member : (b : Int) ∈ inner.domain (p.item i) :=
    (h.mem_iff_of_isFixed healthy isFixed).2 (value ▸ (healthy _).lower_mem)
  have full := (tracks.accounts b hb).lt_of_place_eq_none hi blocked
  have outer : (l.entry 0 b).required = p.weigh 0 (p.placedIn ds (l.bin b) b) :=
    (tracks.accounts b hb).required 0 wf.dims
  exact h.not_mem_of_full wf healthy tracks hb hi wf.dims (outer ▸ full) member

end

/-! ## What the other bins leave to a bin -/

section

variable (h : p.Surrounds policy inner account ds l) (hd : d < p.numDims)

include h hd

/-- The loads can add up to the size of the items. -/
theorem Surrounds.sums_enclose {low high : Nat → Int}
    (lower : ∀ c < p.numBins, low c ≤ ds.lower (p.load d c))
    (upper : ∀ c < p.numBins, ds.upper (p.load d c) ≤ high c) :
    ∑ c ∈ Finset.range p.numBins, low c ≤ p.totalSize d ∧
      p.totalSize d ≤ ∑ c ∈ Finset.range p.numBins, high c := by
  have enclosed : ∑ c ∈ Finset.range p.numBins, inner.lower (p.load d c) ≤ p.totalSize d ∧
      p.totalSize d ≤ ∑ c ∈ Finset.range p.numBins, inner.upper (p.load d c) := h.closed.enclosed d hd
  constructor
  · refine le_trans (Finset.sum_le_sum fun c hc => ?_) enclosed.1
    exact (lower c (Finset.mem_range.1 hc)).trans (h.le_lower _)
  · refine enclosed.2.trans (Finset.sum_le_sum fun c hc => ?_)
    exact (h.upper_le _).trans (upper c (Finset.mem_range.1 hc))

variable (hb : b < p.numBins) {bound : Nat → Int} {here : Int}

include hb

/-- **A bin takes what the others cannot take**, by any upper bounds of their loads. -/
theorem Surrounds.rest_le (upper : ∀ c < p.numBins, inner.upper (p.load d c) ≤ bound c)
    (within : here ≤ bound b) :
    p.totalSize d - (∑ c ∈ Finset.range p.numBins, bound c - here) ≤ inner.lower (p.load d b) := by
  have balanced : p.totalSize d ≤ inner.lower (p.load d b) +
      ∑ c ∈ (Finset.range p.numBins).erase b, inner.upper (p.load d c) :=
    (h.closed.balanced d hd b hb).1
  have others : ∑ c ∈ (Finset.range p.numBins).erase b, inner.upper (p.load d c) ≤
      ∑ c ∈ (Finset.range p.numBins).erase b, bound c :=
    Finset.sum_le_sum fun c hc => upper c (Finset.mem_range.1 (Finset.mem_of_mem_erase hc))
  have split := Finset.add_sum_erase (Finset.range p.numBins) bound (Finset.mem_range.2 hb)
  omega

/-- **A bin leaves the others what they need**, by any lower bounds of their loads. -/
theorem Surrounds.le_rest (lower : ∀ c < p.numBins, bound c ≤ inner.lower (p.load d c))
    (within : bound b ≤ here) :
    inner.upper (p.load d b) ≤ p.totalSize d - (∑ c ∈ Finset.range p.numBins, bound c - here) := by
  have balanced : inner.upper (p.load d b) +
      ∑ c ∈ (Finset.range p.numBins).erase b, inner.lower (p.load d c) ≤ p.totalSize d :=
    (h.closed.balanced d hd b hb).2
  have others : ∑ c ∈ (Finset.range p.numBins).erase b, bound c ≤
      ∑ c ∈ (Finset.range p.numBins).erase b, inner.lower (p.load d c) :=
    Finset.sum_le_sum fun c hc => lower c (Finset.mem_range.1 (Finset.mem_of_mem_erase hc))
  have split := Finset.add_sum_erase (Finset.range p.numBins) bound (Finset.mem_range.2 hb)
  omega

end

end Packing

namespace Desk

variable {p : Packing} {policy : BigItems} {inner : Domains} {account : Ledger} {s t : Desk}
  {q : Predicate} {bin? : Option Nat}

/-- **A rule removes no value of the closed domains.** -/
theorem Rule.holds_within (rule : Rule p s q bin?) (wf : p.WellFormed) (valid : s.Valid p)
    (h : p.Surrounds policy inner account s.domains s.ledger) :
    ∀ v ∈ inner.domain q.var, q.holds v = true := by
  intro v member
  cases rule with
  | @raise d b bound hd hb le =>
    have required := h.required_le wf valid.healthy valid.tracks hb hd
    have rest := h.rest_le hd hb
      (fun c hc => (h.upper_le _).trans (valid.tracks.seenUpper d hd c hc))
      (valid.tracks.seenUpper d hd b hb)
    rw [← valid.tracks.sumUpper d hd] at rest
    refine decide_eq_true (le.trans ((max_le required rest).trans ?_))
    exact Domain.lower_le_of_mem member
  | @sink d b bound hd hb le =>
    have total := h.le_total wf valid.healthy valid.tracks hb hd
    have rest := h.le_rest hd hb
      (fun c hc => (valid.tracks.seenLower d hd c hc).trans (h.le_lower _))
      (valid.tracks.seenLower d hd b hb)
    rw [← valid.tracks.sumLower d hd] at rest
    refine decide_eq_true (le_trans ?_ ((le_min total rest).trans le))
    exact Domain.le_upper_of_mem member
  | @confineLow i hi => exact decide_eq_true (h.closed.confined i hi v member).1
  | @confineHigh i hi =>
    exact decide_eq_true (Int.le_sub_one_of_lt (h.closed.confined i hi v member).2)
  | @exclude b i hb hi full =>
    simp only [Packing.fits, List.all_eq_false, decide_eq_true_eq, not_le] at full
    obtain ⟨d, hd, full⟩ := full
    refine decide_eq_true fun same : v = b => ?_
    subst same
    exact h.not_mem_of_full wf valid.healthy valid.tracks hb hi (List.mem_range.1 hd) full member
  | @force b i hb hi needed =>
    simp only [Packing.isNeeded, List.all_eq_true, decide_eq_true_eq] at needed
    refine decide_eq_true (h.eq_of_needed wf valid.healthy valid.tracks hb hi (fun d hd => ?_) v
      member)
    exact needed d (List.mem_range.2 hd)

/-- Where big items are not extended after installation, the first small position stays. -/
theorem Step.firstSmall_eq (step : Step p s t) (valid : s.Valid p) (fixed : p.policy ≠ .dynamic)
    {c : Nat} : (t.ledger.bin c).firstSmall = (s.ledger.bin c).firstSmall := by
  have size : ∀ b < p.numBins, b < s.ledger.bins.size := fun b hb => by
    rw [valid.tracks.bins]
    exact hb
  cases step with
  | narrow rule narrowed => rfl
  | @withdraw b i hb hi lost =>
    rw [ledger_enter, Ledger.bin_update, Ledger.bin_put _ (size b hb)]
    split
    · rename_i same
      rw [same]
      rfl
    · rfl
  | @place b i new hb hi isFixed placed =>
    rw [ledger_enter, Ledger.bin_update, Ledger.bin_put _ (size b hb)]
    split
    · rename_i same
      rw [same]
      exact (Bin.placement_of_place placed).firstSmall
    · rfl
  | extend hb marked => exact absurd (valid.dynamic (List.ne_nil_of_mem marked)) fixed
  | @record d b hd hb =>
    rw [Packing.ledger_recorded, Ledger.bin_record _ (size b hb)]
    split
    · rename_i same
      rw [same]
    · rfl
  | mark b => rfl
  | plan marked => rfl
  | count counters => rfl

/-- **A step leaves the closed domains within.** -/
theorem Step.surrounds (step : Step p s t) (wf : p.WellFormed) (valid : s.Valid p)
    (h : p.Surrounds policy inner account s.domains s.ledger) :
    p.Surrounds policy inner account t.domains t.ledger := by
  have within : inner.Within t.domains := by
    cases step with
    | @narrow q bin? ds rule narrowed =>
      intro x v member
      refine (narrowed.members x v).2 ⟨h.within x v member, ?_⟩
      rintro rfl
      exact rule.holds_within wf valid h v member
    | withdraw hb hi lost => exact h.within
    | place hb hi fixed placed => exact h.within
    | extend hb marked => exact h.within
    | record hd hb => exact h.within
    | mark b => exact h.within
    | plan marked => exact h.within
    | count counters => exact h.within
  refine ⟨h.closed, h.wf, within, fun b hb => (h.sharp b hb).imp_right fun ⟨fixed, fewer⟩ => ?_⟩
  exact ⟨fixed, by rwa [step.firstSmall_eq valid fixed]⟩

/-- **A step finds no inconsistency.** -/
theorem Blocked.not_surrounds (blocked : Blocked p s) (wf : p.WellFormed) (valid : s.Valid p) :
    ¬p.Surrounds policy inner account s.domains s.ledger := by
  intro h
  cases blocked with
  | @narrow q bin? rule none =>
    have member := (h.closed.healthy q.var).lower_mem
    have holds := rule.holds_within wf valid h _ member
    rw [none _ (h.within _ _ member)] at holds
    cases holds
  | @sum d hd outside =>
    have enclose := h.sums_enclose hd (fun c hc => valid.tracks.seenLower d hd c hc)
      (fun c hc => valid.tracks.seenUpper d hd c hc)
    rw [← valid.tracks.sumLower d hd, ← valid.tracks.sumUpper d hd] at enclose
    omega
  | place hb hi fixed excluded =>
    exact h.place_ne_none wf valid.healthy valid.tracks hb hi fixed excluded

end Desk

namespace Packing

variable {p : Packing} {policy : BigItems} {inner : Domains} {account : Ledger} {s t : Desk}

/-- A call leaves the first small position of a bin, unless big items are extended. -/
theorem call_firstSmall (wf : p.WellFormed) (valid : s.Valid p) (fixed : p.policy ≠ .dynamic)
    (result : p.call s = .ok () t) (b : Nat) :
    (t.ledger.bin b).firstSmall = (s.ledger.bin b).firstSmall := by
  have path := ((call_permits wf valid).ok result).2.path
  exact (Desk.Path.preserves (P := fun u => (u.ledger.bin b).firstSmall = (s.ledger.bin b).firstSmall)
    wf (fun u v validU same step => (step.firstSmall_eq validU fixed).trans same) valid rfl path).2

/-- **A call leaves the closed domains within.** -/
theorem Surrounds.call (h : p.Surrounds policy inner account s.domains s.ledger)
    (wf : p.WellFormed) (valid : s.Valid p) (result : p.call s = .ok () t) :
    p.Surrounds policy inner account t.domains t.ledger := by
  have path := ((call_permits wf valid).ok result).2.path
  exact (Desk.Path.preserves wf (fun u v validU around step => step.surrounds wf validU around)
    valid h path).2

/-- **A call around closed domains finds no inconsistency.** -/
theorem Surrounds.call_ne_inconsistent (h : p.Surrounds policy inner account s.domains s.ledger)
    (wf : p.WellFormed) (valid : s.Valid p) (cause : Inconsistency) :
    p.call s ≠ .error (.inconsistent cause) t := by
  intro result
  obtain ⟨u, leads, blocked, -⟩ := (call_permits wf valid).inconsistent result
  obtain ⟨validU, around⟩ := Desk.Path.preserves wf
    (fun u v validU around step => step.surrounds wf validU around) valid h leads.path
  exact blocked.not_surrounds wf validU around

end Packing

end Stowage

import Stowage.Packing.Fitting
import Stowage.Proofs.Packing.Changes
import Stowage.Proofs.Posting

/-!
# The ledger tracks the domains

The ledger of a packing may lag behind the domains: an item that has lost a bin, or has been placed
in one, stays a candidate until the ledger is brought in line.  What the ledger says holds all the
same, of every solution that the domains admit.

* `Ledger.Tracks` — the invariant.
* `Ledger.Tracks.narrow` — narrowing the domains keeps it.
* `Ledger.Tracks.update`, `Ledger.Tracks.put`, `Ledger.Tracks.record` — changes of the ledger keep it.
* `Ledger.tracks_ofDomains` — the ledger with which a packing is installed has it.
-/

set_option autoImplicit false

namespace Stowage

namespace Packing

/-- All variables of the packing exist. -/
structure Known (p : Packing) (ds : Domains) : Prop where
  items : ∀ i < p.numItems, p.item i < ds.count
  loads : ∀ d < p.numDims, ∀ b < p.numBins, p.load d b < ds.count

/-- Item `i` counts as placed in bin `b`: its domain contains the bin, and it is no candidate. -/
def placedIn (p : Packing) (ds : Domains) (bin : Bin) (b i : Nat) : Bool :=
  (ds.domain (p.item i)).contains (b : Int) && !bin.isCandidate i

variable {p : Packing} {ds : Domains} {bin : Bin} {b i : Nat}

theorem placedIn_eq_true_iff : p.placedIn ds bin b i = true ↔
    (b : Int) ∈ ds.domain (p.item i) ∧ i ∉ bin.candidates := by
  simp [placedIn, Domain.contains_eq_true_iff, Bin.isCandidate]

theorem Known.narrow {after : Domains} (known : p.Known ds) (h : Domains.Narrows ds after) :
    p.Known after :=
  ⟨fun i hi => h.count ▸ known.items i hi, fun d hd b hb => h.count ▸ known.loads d hd b hb⟩

/-! ## What can be accessed -/

theorem Known.hasItem (known : p.Known ds) (shaped : p.Shaped) (hi : i < p.numItems) :
    p.hasItem ds i = true := by
  simp only [Packing.hasItem, Domains.has, Bool.and_eq_true, decide_eq_true_eq,
    Array.all_eq_true_iff_forall_mem]
  exact ⟨⟨hi, known.items i hi⟩, fun row mem => by rw [shaped.sizeRows row mem]; exact hi⟩

theorem Known.hasLoad (known : p.Known ds) (shaped : p.Shaped) {d : Nat} (hd : d < p.numDims)
    (hb : b < p.numBins) : p.hasLoad ds d b = true := by
  have row : d < p.loads.size := by
    rw [shaped.loadRows.1]
    exact hd
  simp only [Packing.hasLoad, Domains.has, Bool.and_eq_true, decide_eq_true_eq,
    Array.getElem?_eq_getElem row, Option.getD_some]
  refine ⟨⟨row, ?_⟩, known.loads d hd b hb⟩
  rw [shaped.loadRows.2 _ (Array.getElem_mem row)]
  exact hb

/-- **Of a packing that was installed all items and loads can be accessed.** -/
theorem Known.isComplete (known : p.Known ds) (shaped : p.Shaped) : p.isComplete ds = true := by
  simp only [Packing.isComplete, Bool.and_eq_true, List.all_eq_true]
  exact ⟨fun i hi => known.hasItem shaped (List.mem_range.1 hi), fun d hd b hb =>
    known.hasLoad shaped (List.mem_range.1 hd) (List.mem_range.1 hb)⟩

end Packing

namespace Ledger

/-- What the ledger of a packing holds is right, as far as it goes. -/
structure Tracks (p : Packing) (ds : Domains) (l : Ledger) : Prop where
  bins : l.bins.size = p.numBins
  sums : l.sums.size = p.numDims
  accounts : ∀ b < p.numBins,
    (l.bin b).Accounts p (p.placedIn ds (l.bin b) b) (ds.upper (p.load 0 b))
  /-- An item that counts as placed is fixed. -/
  placed : ∀ b < p.numBins, ∀ i < p.numItems, p.placedIn ds (l.bin b) b i = true →
    (ds.domain (p.item i)).isFixed = true
  available : ∀ b, b ∈ l.available ↔ b < p.numBins ∧ (l.bin b).candidates ≠ []
  ascending : l.available.Pairwise (· < ·)
  seenLower : ∀ d < p.numDims, ∀ b < p.numBins, (l.entry d b).seenLower ≤ ds.lower (p.load d b)
  seenUpper : ∀ d < p.numDims, ∀ b < p.numBins, ds.upper (p.load d b) ≤ (l.entry d b).seenUpper
  sumLower : ∀ d < p.numDims,
    (l.sum d).lower = ∑ b ∈ Finset.range p.numBins, (l.entry d b).seenLower
  sumUpper : ∀ d < p.numDims,
    (l.sum d).upper = ∑ b ∈ Finset.range p.numBins, (l.entry d b).seenUpper

variable {p : Packing} {ds : Domains} {l : Ledger} {b i d : Nat}

theorem Tracks.availableNodup (tracks : l.Tracks p ds) : l.available.Nodup :=
  tracks.ascending.imp Nat.ne_of_lt

theorem Tracks.hasEntry (tracks : l.Tracks p ds) (shaped : p.Shaped) (known : p.Known ds)
    (hd : d < p.numDims) (hb : b < p.numBins) : p.hasEntry ds l d b = true := by
  simp only [Packing.hasEntry, known.hasLoad shaped hd hb, Bool.true_and, Bool.and_eq_true,
    decide_eq_true_eq]
  rw [tracks.bins, (tracks.accounts b hb).entries, tracks.sums]
  exact ⟨⟨hb, hd⟩, hd⟩

theorem Tracks.hasBin (tracks : l.Tracks p ds) (shaped : p.Shaped) (known : p.Known ds)
    (hb : b < p.numBins) : p.hasBin ds l b = true := by
  simp only [Packing.hasBin, Bool.and_eq_true, decide_eq_true_eq, List.all_eq_true]
  exact ⟨⟨hb, fun d hd => tracks.hasEntry shaped known (List.mem_range.1 hd) hb⟩, fun i hi =>
    known.hasItem shaped ((tracks.accounts b hb).bounded i hi)⟩

/-! ## Narrowing the domains -/

/-- **Narrowing the domains leaves the ledger right.**  An item that counts as placed is fixed, and so
keeps its bin. -/
theorem Tracks.narrow (tracks : l.Tracks p ds) (healthy : ds.Healthy) {after : Domains}
    (h : Domains.Narrows ds after) : l.Tracks p after := by
  have same : ∀ b < p.numBins, ∀ i < p.numItems,
      p.placedIn after (l.bin b) b i = p.placedIn ds (l.bin b) b i := by
    intro b hb i hi
    rw [Bool.eq_iff_iff]
    constructor
    · intro now
      obtain ⟨member, closed⟩ := Packing.placedIn_eq_true_iff.1 now
      exact Packing.placedIn_eq_true_iff.2 ⟨h.subset _ _ member, closed⟩
    · intro before
      obtain ⟨member, closed⟩ := Packing.placedIn_eq_true_iff.1 before
      have fixed := tracks.placed b hb i hi before
      exact Packing.placedIn_eq_true_iff.2 ⟨(h.mem_iff_of_isFixed healthy fixed).2 member, closed⟩
  refine { tracks with
    accounts := fun b hb => ((tracks.accounts b hb).congr (same b hb)).shrink (h.upper_le _)
    placed := fun b hb i hi now => ?_
    seenLower := fun d hd b hb => (tracks.seenLower d hd b hb).trans (h.le_lower _)
    seenUpper := fun d hd b hb => (h.upper_le _).trans (tracks.seenUpper d hd b hb) }
  rw [same b hb i hi] at now
  exact h.isFixed healthy (tracks.placed b hb i hi now)

/-- Only the domains of the variables of the packing matter. -/
theorem Tracks.congr (tracks : l.Tracks p ds) (wf : p.WellFormed) {other : Domains}
    (items : ∀ i < p.numItems, other.domain (p.item i) = ds.domain (p.item i))
    (loads : ∀ d < p.numDims, ∀ b < p.numBins,
      other.domain (p.load d b) = ds.domain (p.load d b)) : l.Tracks p other := by
  have same : ∀ b, ∀ i < p.numItems,
      p.placedIn other (l.bin b) b i = p.placedIn ds (l.bin b) b i :=
    fun b i hi => by rw [Packing.placedIn, Packing.placedIn, items i hi]
  refine { tracks with
    accounts := fun b hb => ?_
    placed := fun b hb i hi now => ?_
    seenLower := fun d hd b hb => ?_
    seenUpper := fun d hd b hb => ?_ }
  · rw [Domains.upper, loads 0 wf.dims b hb]
    exact (tracks.accounts b hb).congr (same b)
  · rw [items i hi]
    exact tracks.placed b hb i hi (same b i hi ▸ now)
  · rw [Domains.lower, loads d hd b hb]
    exact tracks.seenLower d hd b hb
  · rw [Domains.upper, loads d hd b hb]
    exact tracks.seenUpper d hd b hb

/-! ## What the ledger says of the solutions -/

section

variable (tracks : l.Tracks p ds) (wf : p.WellFormed) (healthy : ds.Healthy) (known : p.Known ds)
  {assignment : Var → Int} (solution : p.Solution assignment) (admits : ds.Admits assignment)

include known admits in
theorem lower_le_load (hd : d < p.numDims) (hb : b < p.numBins) :
    ds.lower (p.load d b) ≤ assignment (p.load d b) :=
  Domain.lower_le_of_mem (admits _ (known.loads d hd b hb))

include known admits in
theorem load_le_upper (hd : d < p.numDims) (hb : b < p.numBins) :
    assignment (p.load d b) ≤ ds.upper (p.load d b) :=
  Domain.le_upper_of_mem (admits _ (known.loads d hd b hb))

include tracks healthy known admits in
/-- A solution places every item where it counts as placed. -/
theorem Tracks.placedBy_of_placedIn (hb : b < p.numBins) (hi : i < p.numItems)
    (h : p.placedIn ds (l.bin b) b i = true) : p.placedBy assignment b i = true := by
  have fixed := tracks.placed b hb i hi h
  have bin := ((healthy _).mem_iff_of_isFixed fixed).1 (Packing.placedIn_eq_true_iff.1 h).1
  have value := ((healthy _).mem_iff_of_isFixed fixed).1 (admits _ (known.items i hi))
  rw [Packing.placedBy, value, bin]
  exact beq_self_eq_true _

include known admits in
/-- A solution places in a bin only items that count as placed there and candidates. -/
theorem candidate_of_placedBy (hi : i < p.numItems) (h : p.placedBy assignment b i = true) :
    p.placedIn ds (l.bin b) b i = true ∨ i ∈ (l.bin b).candidates := by
  by_cases candidate : i ∈ (l.bin b).candidates
  · exact .inr candidate
  · have value : assignment (p.item i) = b := by simpa [Packing.placedBy] using h
    have member := admits _ (known.items i hi)
    rw [value] at member
    exact .inl (Packing.placedIn_eq_true_iff.2 ⟨member, candidate⟩)

include wf known solution admits in
theorem fits_of_solution (hb : b < p.numBins) :
    p.weigh 0 (p.placedBy assignment b) ≤ ds.upper (p.load 0 b) := by
  rw [← solution.loads 0 wf.dims b hb]
  exact load_le_upper known admits wf.dims hb

include tracks wf healthy known solution admits

/-- Every solution gives a bin at least its required load. -/
theorem Tracks.required_le (hd : d < p.numDims) (hb : b < p.numBins) :
    (l.entry d b).required ≤ assignment (p.load d b) := by
  rw [solution.loads d hd b hb, entry, (tracks.accounts b hb).required d hd]
  exact p.weigh_mono wf fun i hi => tracks.placedBy_of_placedIn healthy known admits hb hi

/-- Every solution gives a bin at most its total load. -/
theorem Tracks.le_total (hd : d < p.numDims) (hb : b < p.numBins) :
    assignment (p.load d b) ≤ (l.entry d b).total := by
  rw [solution.loads d hd b hb]
  exact Bin.Accounts.weigh_le_total (tracks.accounts b hb) wf
    (fun i hi => tracks.placedBy_of_placedIn healthy known admits hb hi)
    (fun i hi => candidate_of_placedBy known admits hi)
    (fits_of_solution wf known solution admits hb) hd

/-- A solution that places a candidate in the bin gives it the required load and the candidate. -/
theorem Tracks.required_add_le (hd : d < p.numDims) (hb : b < p.numBins)
    (hi : i ∈ (l.bin b).candidates) (inside : assignment (p.item i) = b) :
    (l.entry d b).required + p.size d i ≤ assignment (p.load d b) := by
  have accounts := tracks.accounts b hb
  rw [solution.loads d hd b hb, entry, accounts.required d hd]
  exact Bin.add_size_le_weigh wf
    (fun j hj => tracks.placedBy_of_placedIn healthy known admits hb hj)
    (accounts.bounded i hi) (accounts.unplaced i hi) (by simp [Packing.placedBy, inside])

/-- A solution that places a candidate elsewhere gives the bin at most the total load without it. -/
theorem Tracks.le_total_without (hd : d < p.numDims) (hb : b < p.numBins)
    (hi : i ∈ (l.bin b).candidates) (outside : assignment (p.item i) ≠ b) :
    assignment (p.load d b) ≤ (l.entry d b).total + (l.bin b).removalDelta p d i := by
  have accounts := tracks.accounts b hb
  have bound := Bin.Accounts.weigh_le_total (accounts.withdraw wf hi) wf
    (fun j hj => tracks.placedBy_of_placedIn healthy known admits hb hj)
    (fun j hj placed => ?_) (fits_of_solution wf known solution admits hb) hd
  · rw [Bin.entry_withdraw (by rw [accounts.entries]; exact hd)] at bound
    rw [solution.loads d hd b hb]
    exact bound
  · refine (candidate_of_placedBy known admits hj placed).imp id fun candidate => ?_
    refine (Bin.mem_without accounts.ascending).2 ⟨candidate, fun same => outside ?_⟩
    subst same
    simpa [Packing.placedBy] using placed

/-- A solution cannot place a candidate that does not fit beside a big item placed in the bin. -/
theorem Tracks.place_ne_none (hb : b < p.numBins) (hi : i ∈ (l.bin b).candidates)
    (inside : assignment (p.item i) = b) : (l.bin b).place p i ≠ none := by
  intro blocked
  have accounts := tracks.accounts b hb
  have full := accounts.lt_of_place_eq_none hi blocked
  have need := tracks.required_add_le wf healthy known solution admits wf.dims hb hi inside
  have room := load_le_upper known admits wf.dims hb
  have required := accounts.required 0 wf.dims
  rw [entry] at need
  omega

end

/-! ## Changes of the ledger -/

theorem bin_put (l : Ledger) (h : b < l.bins.size) (new : Bin) (c : Nat) :
    (l.put b new).bin c = if c = b then new else l.bin c := by
  simp only [bin, put, Array.getElem?_setIfInBounds]
  by_cases same : b = c
  · subst same
    simp [h]
  · simp [same, Ne.symm same]

@[simp] theorem bin_update (l : Ledger) (b : Nat) (new : Bin) (c : Nat) :
    (l.update b new).bin c = (l.put b new).bin c := rfl

/-- What has to be checked when a bin of the ledger is replaced. -/
structure Fits (p : Packing) (ds : Domains) (l : Ledger) (b : Nat) (new : Bin) : Prop where
  accounts : new.Accounts p (p.placedIn ds new b) (ds.upper (p.load 0 b))
  placed : ∀ i < p.numItems, p.placedIn ds new b i = true → (ds.domain (p.item i)).isFixed = true
  candidates : new.candidates.Sublist (l.bin b).candidates
  seen : ∀ d < p.numDims, (new.entry d).seenLower = (l.entry d b).seenLower ∧
    (new.entry d).seenUpper = (l.entry d b).seenUpper

/-- Of another ledger with the bins of `put`, too. -/
theorem bin_of_bins {l m : Ledger} {new : Bin} (h : b < l.bins.size)
    (bins : m.bins = (l.put b new).bins) (c : Nat) : m.bin c = if c = b then new else l.bin c := by
  rw [← bin_put l h new c, Ledger.bin, Ledger.bin, bins]

/-- A bin that is replaced keeps the bounds last seen of its loads. -/
theorem Fits.seen_eq {m : Ledger} {new : Bin} (fits : l.Fits p ds b new) (h : b < l.bins.size)
    (bins : m.bins = (l.put b new).bins) (hd : d < p.numDims) (c : Nat) :
    (m.entry d c).seenLower = (l.entry d c).seenLower ∧
      (m.entry d c).seenUpper = (l.entry d c).seenUpper := by
  rw [Ledger.entry, bin_of_bins h bins]
  split
  · rename_i same
    exact same ▸ fits.seen d hd
  · exact ⟨rfl, rfl⟩

theorem Tracks.replace (tracks : l.Tracks p ds) (hb : b < p.numBins) {new : Bin}
    (fits : l.Fits p ds b new) {m : Ledger} (bins : m.bins = (l.put b new).bins)
    (sums : m.sums = l.sums)
    (available : ∀ c, c ∈ m.available ↔ c < p.numBins ∧ (m.bin c).candidates ≠ [])
    (ascending : m.available.Pairwise (· < ·)) : m.Tracks p ds := by
  have size : b < l.bins.size := by rw [tracks.bins]; exact hb
  have bin := bin_of_bins size bins
  have seen : ∀ d < p.numDims, ∀ c, _ := fun d hd => fits.seen_eq size bins hd
  have sum : ∀ d, m.sum d = l.sum d := fun d => by rw [Ledger.sum, Ledger.sum, sums]
  refine ⟨?_, by rw [sums]; exact tracks.sums, fun c hc => ?_, fun c hc i hi placed => ?_, available,
    ascending, fun d hd c hc => ?_, fun d hd c hc => ?_, fun d hd => ?_, fun d hd => ?_⟩
  · rw [bins, ← tracks.bins]
    exact Array.size_setIfInBounds
  · rw [bin]
    split
    · rename_i same
      exact same ▸ fits.accounts
    · exact tracks.accounts c hc
  · rw [bin] at placed
    split at placed
    · rename_i same
      exact fits.placed i hi (same ▸ placed)
    · exact tracks.placed c hc i hi placed
  · rw [(seen d hd c).1]
    exact tracks.seenLower d hd c hc
  · rw [(seen d hd c).2]
    exact tracks.seenUpper d hd c hc
  · rw [sum, tracks.sumLower d hd]
    exact Finset.sum_congr rfl fun c _ => (seen d hd c).1.symm
  · rw [sum, tracks.sumUpper d hd]
    exact Finset.sum_congr rfl fun c _ => (seen d hd c).2.symm

/-- **A bin is replaced by one with fewer candidates.** -/
theorem Tracks.update (tracks : l.Tracks p ds) (hb : b < p.numBins) {new : Bin}
    (fits : l.Fits p ds b new) : (l.update b new).Tracks p ds := by
  have size : b < l.bins.size := by rw [tracks.bins]; exact hb
  refine tracks.replace hb fits rfl rfl (fun c => ?_) ?_
  · rw [bin_update, bin_put l size]
    by_cases same : c = b
    · subst same
      simp only [Ledger.update, if_true, List.isEmpty_iff, hb, true_and]
      split
      · rename_i empty
        simp [tracks.availableNodup.mem_erase_iff, empty]
      · rename_i some
        refine iff_of_true ((tracks.available c).2 ⟨hb, fun none => some ?_⟩) some
        exact List.sublist_nil.1 (none ▸ fits.candidates)
    · rw [if_neg same, ← tracks.available c]
      simp only [Ledger.update]
      split
      · simp [tracks.availableNodup.mem_erase_iff, same]
      · rfl
  · simp only [Ledger.update]
    split
    · exact tracks.ascending.sublist List.erase_sublist
    · exact tracks.ascending

/-- **A bin is replaced by one with the same candidates.** -/
theorem Tracks.put (tracks : l.Tracks p ds) (hb : b < p.numBins) {new : Bin}
    (fits : l.Fits p ds b new) (same : new.candidates = (l.bin b).candidates) :
    (l.put b new).Tracks p ds := by
  have size : b < l.bins.size := by rw [tracks.bins]; exact hb
  refine tracks.replace hb fits rfl rfl (fun c => ?_) tracks.ascending
  rw [bin_put l size]
  split
  · rename_i here
    subst here
    rw [same]
    exact tracks.available c
  · exact tracks.available c

/-! ### Items -/

/-- A candidate that has lost the bin can be withdrawn. -/
theorem Tracks.fits_withdraw (tracks : l.Tracks p ds) (wf : p.WellFormed) (hb : b < p.numBins)
    (hi : i ∈ (l.bin b).candidates) (lost : (b : Int) ∉ ds.domain (p.item i)) :
    l.Fits p ds b ((l.bin b).withdraw p i) := by
  have accounts := tracks.accounts b hb
  have same : p.placedIn ds ((l.bin b).withdraw p i) b = p.placedIn ds (l.bin b) b := by
    funext j
    rw [Bool.eq_iff_iff, Packing.placedIn_eq_true_iff, Packing.placedIn_eq_true_iff]
    refine and_congr_right fun member => not_congr ?_
    refine (Bin.mem_without accounts.ascending).trans (and_iff_left fun here => lost ?_)
    exact here ▸ member
  refine ⟨?_, fun j hj placed => ?_, List.erase_sublist, fun d hd => ?_⟩
  · rw [same]
    exact accounts.withdraw wf hi
  · exact tracks.placed b hb j hj (same ▸ placed)
  · rw [Bin.entry_withdraw (by rw [accounts.entries]; exact hd)]
    exact ⟨rfl, rfl⟩

/-- A candidate that is fixed to the bin can be placed in it. -/
theorem Tracks.fits_place (tracks : l.Tracks p ds) (wf : p.WellFormed) (hb : b < p.numBins)
    (hi : i ∈ (l.bin b).candidates) (inside : (b : Int) ∈ ds.domain (p.item i))
    (fixed : (ds.domain (p.item i)).isFixed = true) {new : Bin}
    (h : Bin.Placement p (l.bin b) i new) : l.Fits p ds b new := by
  have accounts := tracks.accounts b hb
  have candidates : ∀ j, j ∈ new.candidates ↔ j ∈ (l.bin b).candidates ∧ j ≠ i := by
    intro j
    rw [h.candidates]
    exact Bin.mem_without accounts.ascending
  have more : p.placedIn ds new b = fun j => p.placedIn ds (l.bin b) b j || j == i := by
    funext j
    rw [Bool.eq_iff_iff, Bool.or_eq_true, Packing.placedIn_eq_true_iff,
      Packing.placedIn_eq_true_iff, candidates, beq_iff_eq]
    constructor
    · rintro ⟨member, out⟩
      by_cases same : j = i
      · exact .inr same
      · exact .inl ⟨member, fun candidate => out ⟨candidate, same⟩⟩
    · rintro (⟨member, out⟩ | rfl)
      · exact ⟨member, fun candidate => out candidate.1⟩
      · exact ⟨inside, fun candidate => candidate.2 rfl⟩
  refine ⟨?_, fun j hj placed => ?_, ?_, fun d hd => ?_⟩
  · rw [more]
    exact accounts.place wf hi h
  · rw [more] at placed
    rcases (Bool.or_eq_true _ _).mp placed with before | now
    · exact tracks.placed b hb j hj before
    · rw [beq_iff_eq.1 now]
      exact fixed
  · rw [h.candidates]
    exact List.erase_sublist
  · exact h.seen d (by rw [accounts.entries]; exact hd)

theorem Tracks.fits_extendBig (tracks : l.Tracks p ds) (wf : p.WellFormed)
    (enabled : p.policy ≠ .disabled) (hb : b < p.numBins) :
    l.Fits p ds b ((l.bin b).extendBig p (p.freeSpace l ds 0 b)).2 ∧
      ((l.bin b).extendBig p (p.freeSpace l ds 0 b)).2.candidates = (l.bin b).candidates := by
  have accounts := tracks.accounts b hb
  have extended := accounts.extendBig wf enabled
  rcases Bin.extendBig_eq accounts (p.freeSpace l ds 0 b) with same | ⟨a, -, -, same⟩
  · rw [same]
    exact ⟨⟨accounts, tracks.placed b hb, .refl _, fun d _ => ⟨rfl, rfl⟩⟩, rfl⟩
  · have candidates : ((l.bin b).extendBig p (p.freeSpace l ds 0 b)).2.candidates =
        (l.bin b).candidates := by rw [same]; rfl
    have placed : p.placedIn ds ((l.bin b).extendBig p (p.freeSpace l ds 0 b)).2 b =
        p.placedIn ds (l.bin b) b := by
      funext j
      rw [Packing.placedIn, Packing.placedIn, Bin.isCandidate, Bin.isCandidate, candidates]
    refine ⟨⟨?_, fun j hj h => ?_, ?_, fun d hd => ?_⟩, candidates⟩
    · rw [placed]
      exact extended
    · exact tracks.placed b hb j hj (placed ▸ h)
    · rw [candidates]
    · rw [same]
      simp only
      rw [Bin.entry_enlarge _ (by rw [accounts.entries]; exact hd)]
      exact ⟨rfl, rfl⟩

/-! ### Loads -/

theorem bin_record (l : Ledger) (h : b < l.bins.size) (d : Nat) (lower upper : Int) (c : Nat) :
    (l.record d b lower upper).bin c =
      if c = b then
        { l.bin b with
          entries := (l.bin b).entries.modify d fun e =>
            { e with seenLower := lower, seenUpper := upper } }
      else l.bin c := by
  simp only [bin, record, Array.getElem?_modify]
  by_cases same : b = c
  · subst same
    simp [h]
  · simp [same, Ne.symm same]

theorem entry_record (l : Ledger) (hb : b < l.bins.size) (hd : d < (l.bin b).entries.size)
    (lower upper : Int) (e c : Nat) :
    (l.record d b lower upper).entry e c =
      if e = d ∧ c = b then { l.entry d b with seenLower := lower, seenUpper := upper }
      else l.entry e c := by
  rw [entry, bin_record l hb]
  by_cases same : c = b
  · subst same
    simp only [if_true, and_true, Bin.entry, entry, Array.getElem?_modify]
    by_cases here : d = e
    · subst here
      simp [hd]
    · simp [here, Ne.symm here]
  · simp [same, entry]

theorem candidates_record (l : Ledger) (h : b < l.bins.size) (d : Nat) (lower upper : Int)
    (c : Nat) : ((l.record d b lower upper).bin c).candidates = (l.bin c).candidates := by
  rw [bin_record l h]
  split
  · rename_i same
    rw [same]
  · rfl

theorem sum_record (l : Ledger) (hd : d < l.sums.size) (lower upper : Int) (e : Nat) :
    (l.record d b lower upper).sum e =
      if e = d then
        ⟨(l.sum d).lower + (lower - (l.entry d b).seenLower),
          (l.sum d).upper + (upper - (l.entry d b).seenUpper)⟩
      else l.sum e := by
  simp only [sum, record, Array.getElem?_modify]
  by_cases same : d = e
  · subst same
    simp [hd]
  · simp [same, Ne.symm same]

/-- The sum of values of which one is replaced. -/
theorem sum_replace {n : Nat} {f g : Nat → Int} (hb : b < n)
    (same : ∀ c < n, c ≠ b → g c = f c) :
    ∑ c ∈ Finset.range n, g c = (∑ c ∈ Finset.range n, f c) + (g b - f b) := by
  have rest : ∑ c ∈ (Finset.range n).erase b, g c = ∑ c ∈ (Finset.range n).erase b, f c :=
    Finset.sum_congr rfl fun c hc =>
      same c (Finset.mem_range.1 (Finset.mem_of_mem_erase hc)) (Finset.ne_of_mem_erase hc)
  have old := Finset.add_sum_erase (Finset.range n) f (Finset.mem_range.2 hb)
  have new := Finset.add_sum_erase (Finset.range n) g (Finset.mem_range.2 hb)
  omega

/-- The bounds of a load say nothing about the loads that are required and possible. -/
theorem amounts_record (bin : Bin) (d : Nat) (lower upper : Int) (e : Nat) :
    (Bin.entry { bin with entries := bin.entries.modify d fun e =>
      { e with seenLower := lower, seenUpper := upper } } e).required = (bin.entry e).required ∧
      (Bin.entry { bin with entries := bin.entries.modify d fun e =>
        { e with seenLower := lower, seenUpper := upper } } e).total = (bin.entry e).total := by
  simp only [Bin.entry, Array.getElem?_modify]
  cases bin.entries[e]? with
  | none => simp
  | some entry => by_cases same : d = e <;> simp [same]

/-- In the ledger they say nothing about them either. -/
theorem amounts_entry_record (l : Ledger) (h : b < l.bins.size) (d : Nat) (lower upper : Int)
    (e c : Nat) :
    ((l.record d b lower upper).entry e c).required = (l.entry e c).required ∧
      ((l.record d b lower upper).entry e c).total = (l.entry e c).total := by
  rw [entry, entry, bin_record l h]
  split
  · rename_i same
    rw [same]
    exact amounts_record (l.bin b) d lower upper e
  · exact ⟨rfl, rfl⟩

/-- The bounds of a load say nothing about the items. -/
theorem accounts_record {placed : Nat → Bool} {capacity : Int} {bin : Bin} (lower upper : Int)
    (accounts : bin.Accounts p placed capacity) :
    Bin.Accounts p placed capacity
      { bin with
        entries := bin.entries.modify d fun e => { e with seenLower := lower, seenUpper := upper } } := by
  have entry := amounts_record bin d lower upper
  refine { accounts with
    entries := Array.size_modify.trans accounts.entries
    required := fun e he => (entry e).1.trans (accounts.required e he)
    total := fun e he => (entry e).2.trans (accounts.total e he) }

/-- **The bounds of a load are taken note of.** -/
theorem Tracks.record (tracks : l.Tracks p ds) (hd : d < p.numDims) (hb : b < p.numBins) :
    (l.record d b (ds.lower (p.load d b)) (ds.upper (p.load d b))).Tracks p ds := by
  have sizeB : b < l.bins.size := by rw [tracks.bins]; exact hb
  have sizeD : d < (l.bin b).entries.size := by rw [(tracks.accounts b hb).entries]; exact hd
  have bin := bin_record l sizeB d (ds.lower (p.load d b)) (ds.upper (p.load d b))
  have entry := entry_record l sizeB sizeD (ds.lower (p.load d b)) (ds.upper (p.load d b))
  have sum := sum_record (b := b) l (by rw [tracks.sums]; exact hd) (ds.lower (p.load d b))
    (ds.upper (p.load d b))
  have candidates := candidates_record l sizeB d (ds.lower (p.load d b)) (ds.upper (p.load d b))
  have placed : ∀ c, p.placedIn ds ((l.record d b (ds.lower (p.load d b))
      (ds.upper (p.load d b))).bin c) c = p.placedIn ds (l.bin c) c := by
    intro c
    funext j
    rw [Packing.placedIn, Packing.placedIn, Bin.isCandidate, Bin.isCandidate, candidates]
  refine ⟨Array.size_modify.trans tracks.bins, Array.size_modify.trans tracks.sums,
    fun c hc => ?_, fun c hc i hi h => ?_, fun c => ?_, tracks.ascending, fun e he c hc => ?_,
    fun e he c hc => ?_, fun e he => ?_, fun e he => ?_⟩
  · rw [placed, bin]
    split
    · rename_i same
      subst same
      exact accounts_record _ _ (tracks.accounts c hc)
    · exact tracks.accounts c hc
  · rw [placed] at h
    exact tracks.placed c hc i hi h
  · rw [candidates]
    exact tracks.available c
  · rw [entry]
    split
    · rename_i same
      rw [same.1, same.2]
    · exact tracks.seenLower e he c hc
  · rw [entry]
    split
    · rename_i same
      rw [same.1, same.2]
    · exact tracks.seenUpper e he c hc
  · rw [sum]
    split
    · rename_i same
      subst same
      rw [sum_replace (f := fun c => (l.entry e c).seenLower) hb fun c _ hc => by
        simp [entry, hc], tracks.sumLower e he]
      simp [entry]
    · rename_i different
      rw [tracks.sumLower e he]
      exact Finset.sum_congr rfl fun c _ => by simp [entry, different]
  · rw [sum]
    split
    · rename_i same
      subst same
      rw [sum_replace (f := fun c => (l.entry e c).seenUpper) hb fun c _ hc => by
        simp [entry, hc], tracks.sumUpper e he]
      simp [entry]
    · rename_i different
      rw [tracks.sumUpper e he]
      exact Finset.sum_congr rfl fun c _ => by simp [entry, different]

/-! ## The ledger of the current domains -/

theorem mem_candidates_plainBin :
    i ∈ (plainBin p ds b).candidates ↔
      i < p.numItems ∧ (b : Int) ∈ ds.domain (p.item i) ∧ (ds.domain (p.item i)).isFixed = false := by
  simp [plainBin, Packing.tally, Packing.itemsOf, Packing.itemList, Packing.isPlaced,
    Domain.contains_eq_true_iff, and_comm]

theorem entry_plainBin (hd : d < p.numDims) :
    (plainBin p ds b).entry d =
      { required := (p.tally ds b).requiredIn d
        total := (p.tally ds b).totalIn d
        seenLower := ds.lower (p.load d b)
        seenUpper := ds.upper (p.load d b) } := by
  simp [Bin.entry, plainBin, Packing.dimList, hd]

theorem requiredIn_tally (hd : d < p.numDims) :
    (p.tally ds b).requiredIn d = p.weigh d fun i =>
      (ds.domain (p.item i)).contains b && p.isPlaced ds i := by
  simp only [Tally.requiredIn, Packing.tally, Packing.itemsOf, Packing.weigh, List.filter_filter]
  simp [Packing.dimList, hd, Bool.and_comm]

theorem totalIn_tally (hd : d < p.numDims) :
    (p.tally ds b).totalIn d = p.weigh d fun i => (ds.domain (p.item i)).contains b := by
  simp [Tally.totalIn, Packing.tally, Packing.itemsOf, Packing.weigh, Packing.dimList, hd]

/-- An item that contains the bin and is no candidate is fixed. -/
theorem placedIn_plainBin (hi : i < p.numItems) :
    p.placedIn ds (plainBin p ds b) b i =
      ((ds.domain (p.item i)).contains b && p.isPlaced ds i) := by
  rw [Bool.eq_iff_iff, Packing.placedIn_eq_true_iff, mem_candidates_plainBin, Bool.and_eq_true,
    Domain.contains_eq_true_iff, Packing.isPlaced]
  simp only [hi, true_and, not_and, Bool.not_eq_false]
  exact and_congr_right fun member => ⟨fun h => h member, fun h _ => h⟩

theorem accounts_plainBin (p : Packing) (ds : Domains) (b : Nat) (capacity : Int) :
    (plainBin p ds b).Accounts p (p.placedIn ds (plainBin p ds b) b) capacity := by
  have noneBig : ∀ i, (plainBin p ds b).isBig i = false := fun i => by simp [Bin.isBig, plainBin]
  have noBigCandidate : ∀ i, (plainBin p ds b).isBigCandidate i = false := fun i => by
    rw [Bin.isBigCandidate, noneBig, Bool.and_false]
  have weight : ∀ d, p.weigh d (p.placedIn ds (plainBin p ds b) b) = p.weigh d fun i =>
      (ds.domain (p.item i)).contains b && p.isPlaced ds i :=
    fun d => p.weigh_congr fun i hi => placedIn_plainBin hi
  refine ⟨?_, fun i hi => (mem_candidates_plainBin.1 hi).1, fun i hi => ?_, ?_, fun d hd => ?_,
    fun d hd => ?_, fun i j hi => ?_, fun flag => ?_, fun _ => ⟨rfl, rfl⟩⟩
  · exact (List.pairwise_lt_range.filter _).filter _
  · rw [Packing.placedIn, Bin.isCandidate_iff.2 hi]
    exact Bool.and_false _
  · simp [plainBin, Packing.dimList]
  · rw [entry_plainBin hd, weight]
    exact requiredIn_tally hd
  · have share : (plainBin p ds b).bigShare p d = 0 := by
      have first : (plainBin p ds b).firstBig? = none := by
        rw [Bin.firstBig?]
        cases (plainBin p ds b).candidates.head? with
        | none => rfl
        | some i => simp [Option.filter, noneBig]
      simp [Bin.bigShare, first, Bin.sizeOr0]
    have small : p.weigh d (plainBin p ds b).isSmallCandidate = p.weigh d fun i =>
        (ds.domain (p.item i)).contains b && !p.isPlaced ds i := by
      refine p.weigh_congr fun i hi => ?_
      rw [Bool.eq_iff_iff, Bin.isSmallCandidate, noneBig, Bool.and_eq_true, Bin.isCandidate_iff,
        mem_candidates_plainBin, Bool.and_eq_true, Domain.contains_eq_true_iff, Packing.isPlaced]
      simp [hi]
    rw [entry_plainBin hd, weight, share, small, add_zero]
    simp only
    rw [totalIn_tally hd, p.weigh_split d _ (p.isPlaced ds)]
  · rw [noBigCandidate] at hi
    cases hi
  · cases flag

theorem fits_firstBin (wf : p.WellFormed) (ds : Domains) (b : Nat) :
    (firstBin p ds b).Accounts p (p.placedIn ds (firstBin p ds b) b) (ds.upper (p.load 0 b)) ∧
      (firstBin p ds b).candidates = (plainBin p ds b).candidates ∧
      ∀ d < p.numDims,
        ((firstBin p ds b).entry d).seenLower = ds.lower (p.load d b) ∧
        ((firstBin p ds b).entry d).seenUpper = ds.upper (p.load d b) := by
  have accounts := accounts_plainBin p ds b (ds.upper (p.load 0 b))
  have seen : ∀ d < p.numDims, ((plainBin p ds b).entry d).seenLower = ds.lower (p.load d b) ∧
      ((plainBin p ds b).entry d).seenUpper = ds.upper (p.load d b) :=
    fun d hd => by simp [entry_plainBin hd]
  by_cases disabled : p.policy = .disabled
  · simp only [firstBin, disabled, if_true]
    exact ⟨accounts, trivial, seen⟩
  · have extended := accounts.extendBig wf disabled
    simp only [firstBin, disabled, if_false]
    rcases Bin.extendBig_eq accounts
      (ds.upper (p.load 0 b) - ((plainBin p ds b).entry 0).required) with same | ⟨a, -, -, same⟩
    · rw [same]
      exact ⟨accounts, rfl, seen⟩
    · rw [same] at extended ⊢
      refine ⟨extended, rfl, fun d hd => ?_⟩
      rw [Bin.entry_enlarge _ (by rw [accounts.entries]; exact hd)]
      exact seen d hd

theorem bin_ofDomains (hb : b < p.numBins) : (ofDomains p ds).bin b = firstBin p ds b := by
  simp [bin, ofDomains, Packing.binList, hb]

/-- **The ledger with which a packing is installed tracks the domains.** -/
theorem tracks_ofDomains (wf : p.WellFormed) (ds : Domains) : (ofDomains p ds).Tracks p ds := by
  have seen : ∀ d < p.numDims, ∀ b < p.numBins,
      ((ofDomains p ds).entry d b).seenLower = ds.lower (p.load d b) ∧
      ((ofDomains p ds).entry d b).seenUpper = ds.upper (p.load d b) := by
    intro d hd b hb
    rw [entry, bin_ofDomains hb]
    exact (fits_firstBin wf ds b).2.2 d hd
  have sum : ∀ d < p.numDims, (ofDomains p ds).sum d =
      ⟨∑ b ∈ Finset.range p.numBins, ds.lower (p.load d b),
        ∑ b ∈ Finset.range p.numBins, ds.upper (p.load d b)⟩ := by
    intro d hd
    rw [← p.sum_binList fun b => ds.lower (p.load d b), ← p.sum_binList fun b => ds.upper (p.load d b)]
    simp [Ledger.sum, ofDomains, plain, Packing.dimList, hd]
  refine ⟨by simp [ofDomains, Packing.binList], by simp [ofDomains, plain, Packing.dimList],
    fun b hb => ?_, fun b hb i hi placed => ?_, fun b => ?_, ?_, fun d hd b hb => ?_,
    fun d hd b hb => ?_, fun d hd => ?_, fun d hd => ?_⟩
  · rw [bin_ofDomains hb]
    exact (fits_firstBin wf ds b).1
  · have same : p.placedIn ds ((ofDomains p ds).bin b) b i = p.placedIn ds (plainBin p ds b) b i := by
      rw [bin_ofDomains hb, Packing.placedIn, Packing.placedIn, Bin.isCandidate, Bin.isCandidate,
        (fits_firstBin wf ds b).2.1]
    rw [same, placedIn_plainBin hi] at placed
    exact ((Bool.and_eq_true _ _).mp placed).2
  · have shape : b ∈ (ofDomains p ds).available ↔
        b < p.numBins ∧ (plainBin p ds b).candidates ≠ [] := by
      simp [ofDomains, plain, Packing.binList]
    rw [shape]
    refine and_congr_right fun hb => ?_
    rw [bin_ofDomains hb, (fits_firstBin wf ds b).2.1]
  · exact List.pairwise_lt_range.filter _
  · exact ((seen d hd b hb).1).le
  · exact ((seen d hd b hb).2).ge
  · rw [sum d hd]
    exact Finset.sum_congr rfl fun b hb => ((seen d hd b (Finset.mem_range.1 hb)).1).symm
  · rw [sum d hd]
    exact Finset.sum_congr rfl fun b hb => ((seen d hd b (Finset.mem_range.1 hb)).2).symm

end Ledger

end Stowage

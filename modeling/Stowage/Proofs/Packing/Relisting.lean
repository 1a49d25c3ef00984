import Stowage.Proofs.Packing.Crowding
import Stowage.Proofs.Packing.Freshness
import Stowage.Proofs.Packing.Sorting
import Stowage.Proofs.Packing.Surrounding

/-!
# The same items in another order

Two packings list the same items and the same dimensions, each in an order of its own.  Domains that are
closed under the rules of one of them are closed under those of the other.

* `Packing.Relists` — the packing `q` lists what `p` lists; an equivalence.
* `Packing.relists_sort`, `Packing.relists_relist` — sorted items, and rearranged items and dimensions.
* `Ledger.Reads` — the candidates are read off the domains.
* `Packing.Relists.closed_ofDomains` — the theorem.
-/

set_option autoImplicit false

namespace Stowage

namespace Packing

/-! ## Renaming the numbers below a bound -/

section

variable {m n : Nat} {f : Nat → Nat}

/-- Renames the numbers below `m` to those below `n`. -/
def Renames (f : Nat → Nat) (m n : Nat) : Prop := ((List.range m).map f).Perm (List.range n)

theorem Renames.eq (h : Renames f m n) : m = n := by
  have := h.length_eq
  simpa using this

theorem Renames.lt (h : Renames f m n) {i : Nat} (hi : i < m) : f i < n :=
  List.mem_range.1 (h.mem_iff.1 (List.mem_map_of_mem (List.mem_range.2 hi)))

theorem Renames.exists (h : Renames f m n) {j : Nat} (hj : j < n) : ∃ i < m, f i = j := by
  obtain ⟨i, hi, same⟩ := List.mem_map.1 (h.mem_iff.2 (List.mem_range.2 hj))
  exact ⟨i, List.mem_range.1 hi, same⟩

theorem Renames.inj (h : Renames f m n) {i j : Nat} (hi : i < m) (hj : j < m) (same : f i = f j) :
    i = j := by
  have nodup : ((List.range m).map f).Nodup := h.nodup_iff.2 List.nodup_range
  exact List.inj_on_of_nodup_map nodup (List.mem_range.2 hi) (List.mem_range.2 hj) same

theorem renames_id (n : Nat) : Renames id n n := by
  rw [Renames, List.map_id]

theorem Renames.comp {k : Nat} {g : Nat → Nat} (h : Renames f m n) (h' : Renames g k m) :
    Renames (f ∘ g) k n := by
  unfold Renames at h' ⊢
  rw [← List.map_map]
  exact (h'.map f).trans h

theorem Renames.inverse (h : Renames f m n) :
    ∃ g, Renames g n m ∧ ∀ j < n, f (g j) = j := by
  choose g bound back using fun j (hj : j < n) => h.exists hj
  refine ⟨fun j => if hj : j < n then g j hj else 0, ?_, fun j hj => ?_⟩
  · apply List.Subperm.perm_of_length_le
    · apply List.subperm_of_subset
      · refine List.Nodup.map_on (fun i hi j hj same => ?_) List.nodup_range
        rw [List.mem_range] at hi hj
        rw [dif_pos hi, dif_pos hj] at same
        rw [← back i hi, ← back j hj, same]
      · intro i hi
        obtain ⟨j, hj, rfl⟩ := List.mem_map.1 hi
        rw [List.mem_range] at hj
        rw [dif_pos hj]
        exact List.mem_range.2 (bound j hj)
    · simp [h.eq]
  · dsimp only
    rw [dif_pos hj]
    exact back j hj

/-- Positions of a list that rearranges the numbers below `n`. -/
theorem renames_of_perm {order : List Nat} (perm : order.Perm (List.range n)) :
    Renames (fun j => order[j]?.getD 0) n n := by
  have length : order.length = n := by
    have := perm.length_eq
    simpa using this
  have same : (List.range n).map (fun j => order[j]?.getD 0) = order := by
    refine List.ext_getElem (by simp [length]) fun j hj hj' => ?_
    simp [hj']
  rw [Renames, same]
  exact perm

end

/-! ## Packings that list the same items -/

/-- The packing `q` lists the items and dimensions of `p`: its item `i` is item `item i` of `p`, and its
dimension `d` is dimension `dim d`. -/
structure Relists (p q : Packing) (item dim : Nat → Nat) : Prop where
  items : Renames item q.numItems p.numItems
  dims : Renames dim q.numDims p.numDims
  bins : q.numBins = p.numBins
  policy : q.policy = p.policy
  item_eq : ∀ i < q.numItems, q.item i = p.item (item i)
  size_eq : ∀ d < q.numDims, ∀ i < q.numItems, q.size d i = p.size (dim d) (item i)
  load_eq : ∀ d < q.numDims, ∀ b < q.numBins, q.load d b = p.load (dim d) b

variable {p q r : Packing} {item item' dim dim' : Nat → Nat} {ds : Domains} {l m : Ledger}
  {b d i : Nat}

theorem Relists.refl (p : Packing) : Relists p p id id where
  items := by rw [Renames, List.map_id]
  dims := by rw [Renames, List.map_id]
  bins := rfl
  policy := rfl
  item_eq _ _ := rfl
  size_eq _ _ _ _ := rfl
  load_eq _ _ _ _ := rfl

theorem Relists.symm (h : Relists p q item dim) : ∃ back dimBack, Relists q p back dimBack := by
  obtain ⟨back, items, undo⟩ := h.items.inverse
  obtain ⟨dimBack, dims, undoDim⟩ := h.dims.inverse
  refine ⟨back, dimBack, items, dims, h.bins.symm, h.policy.symm, fun i hi => ?_,
    fun d hd i hi => ?_, fun d hd b hb => ?_⟩
  · rw [h.item_eq _ (items.lt hi), undo i hi]
  · rw [h.size_eq _ (dims.lt hd) _ (items.lt hi), undo i hi, undoDim d hd]
  · rw [h.load_eq _ (dims.lt hd) b (h.bins ▸ hb), undoDim d hd]

theorem Relists.trans (h : Relists p q item dim) (h' : Relists q r item' dim') :
    Relists p r (item ∘ item') (dim ∘ dim') where
  items := h.items.comp h'.items
  dims := h.dims.comp h'.dims
  bins := h'.bins.trans h.bins
  policy := h'.policy.trans h.policy
  item_eq i hi := (h'.item_eq i hi).trans (h.item_eq _ (h'.items.lt hi))
  size_eq d hd i hi :=
    (h'.size_eq d hd i hi).trans (h.size_eq _ (h'.dims.lt hd) _ (h'.items.lt hi))
  load_eq d hd b hb := (h'.load_eq d hd b hb).trans (h.load_eq _ (h'.dims.lt hd) b (h'.bins ▸ hb))

theorem relists_sort (shaped : p.Shaped) : Relists p p.sort p.rename id := by
  have items := numItems_sort shaped
  have dims : p.sort.numDims = p.numDims := Array.size_map
  refine ⟨?_, dims ▸ renames_id _, rfl, rfl, fun i hi => ?_, fun d _ i hi => ?_, fun _ _ _ _ => rfl⟩
  · rw [items]
    have perm := orderOf_firstRow shaped
    rw [← map_rename shaped] at perm
    exact perm
  · exact item_sort shaped (items ▸ hi)
  · exact size_sort shaped (items ▸ hi) d

theorem mem_of_mem_rearrange {α : Type} {order : List Nat} {row : Array α} {a : α}
    (h : a ∈ rearrange order row) : a ∈ row := by
  unfold rearrange at h
  obtain ⟨i, -, entry⟩ := List.mem_filterMap.1 (List.mem_toArray.1 h)
  exact Array.mem_of_getElem? entry

theorem numbered_rearrange {loads : Array (Array Var)} (numbered : Numbered loads) (dims : List Nat) :
    Numbered (rearrange dims loads) := fun row member =>
  numbered row (Array.mem_toList_iff.2 (mem_of_mem_rearrange (Array.mem_toList_iff.1 member)))

/-- The packing with its items and its dimensions in another order. -/
def relist (p : Packing) (order dims : List Nat) : Packing :=
  ⟨rearrange order p.items, rearrange dims (p.sizes.map (rearrange order)), rearrange dims p.loads,
    p.policy, numbered_rearrange p.numbered dims⟩

/-- **A packing with its items and dimensions rearranged lists the same.** -/
theorem relists_relist (shaped : p.Shaped) {order dims : List Nat}
    (items : order.Perm (List.range p.numItems)) (dimensions : dims.Perm (List.range p.numDims)) :
    Relists p (p.relist order dims) (fun j => order[j]?.getD 0) (fun d => dims[d]?.getD 0) := by
  have inside : ∀ i ∈ order, i < p.items.size := fun i hi => List.mem_range.1 (items.mem_iff.1 hi)
  have insideDims : ∀ d ∈ dims, d < p.numDims := fun d hd => List.mem_range.1 (dimensions.mem_iff.1 hd)
  have insideLoads : ∀ d ∈ dims, d < p.loads.size := by
    rw [shaped.loadRows.1]
    exact insideDims
  have insideSizes : ∀ d ∈ dims, d < (p.sizes.map (rearrange order)).size := by
    rw [Array.size_map]
    exact insideDims
  have length : order.length = p.numItems := by simpa using items.length_eq
  have lengthDims : dims.length = p.numDims := by simpa using dimensions.length_eq
  have numItems : (p.relist order dims).numItems = p.numItems :=
    (size_rearrange order p.items inside).trans length
  have numDims : (p.relist order dims).numDims = p.numDims :=
    (size_rearrange dims _ insideSizes).trans lengthDims
  have renamesItems := renames_of_perm items
  have renamesDims := renames_of_perm dimensions
  have row {d : Nat} (hd : d < p.numDims) : (p.loads[d]?.getD #[]).size = p.numBins := by
    have bound : d < p.loads.size := shaped.loadRows.1.symm ▸ hd
    rw [Array.getElem?_eq_getElem bound]
    exact shaped.loadRows.2 _ (Array.getElem_mem bound)
  refine ⟨numItems ▸ renamesItems, numDims ▸ renamesDims, ?_, rfl, fun i hi => ?_,
    fun d hd i hi => ?_, fun d hd b hb => ?_⟩
  · have first : 0 < dims.length := lengthDims ▸ shaped.dims
    show ((rearrange dims p.loads)[0]?.getD #[]).size = p.numBins
    rw [getElem?_rearrange dims p.loads #[] insideLoads first]
    exact row (renamesDims.lt shaped.dims)
  · exact getElem?_rearrange order p.items 0 inside (length ▸ numItems ▸ hi)
  · rw [numItems] at hi
    rw [numDims] at hd
    have bound : dims[d]?.getD 0 < p.sizes.size := renamesDims.lt hd
    have width := shaped.sizeRows _ (Array.getElem_mem bound)
    show ((rearrange dims (p.sizes.map (rearrange order)))[d]?.getD #[])[i]?.getD 0 = _
    rw [getElem?_rearrange dims _ #[] insideSizes (lengthDims ▸ hd), Array.getElem?_map,
      Array.getElem?_eq_getElem bound]
    rw [Packing.size, Array.getElem?_eq_getElem bound]
    exact getElem?_rearrange order _ 0 (fun j hj => width ▸ inside j hj) (length ▸ hi)
  · rw [numDims] at hd
    show ((rearrange dims p.loads)[d]?.getD #[])[b]?.getD 0 = _
    rw [getElem?_rearrange dims p.loads #[] insideLoads (lengthDims ▸ hd)]
    rfl

section

variable (h : Relists p q item dim)

include h

/-- What a test weighs does not depend on the order. -/
theorem Relists.weigh_eq (hd : d < q.numDims) {test test' : Nat → Bool}
    (same : ∀ i < q.numItems, test' i = test (item i)) :
    q.weigh d test' = p.weigh (dim d) test :=
  weigh_rename h.items (h.size_eq d hd) same

theorem Relists.totalSize_eq (hd : d < q.numDims) : q.totalSize d = p.totalSize (dim d) := by
  rw [totalSize_eq_weigh, totalSize_eq_weigh]
  exact h.weigh_eq hd fun _ _ => rfl

end

end Packing

/-! ## Candidates read off the domains -/

/-- The candidates of every bin are the items that may be placed in it but need not. -/
def Ledger.Reads (p : Packing) (ds : Domains) (l : Ledger) : Prop :=
  ∀ b < p.numBins, ∀ i, i ∈ (l.bin b).candidates ↔
    i < p.numItems ∧ (b : Int) ∈ ds.domain (p.item i) ∧ (ds.domain (p.item i)).isFixed = false

namespace Ledger

variable {p : Packing} {ds : Domains} {l : Ledger} {b i : Nat}

theorem Reads.placedIn_iff (reads : l.Reads p ds) (hb : b < p.numBins) (hi : i < p.numItems) :
    p.placedIn ds (l.bin b) b i = true ↔
      (b : Int) ∈ ds.domain (p.item i) ∧ (ds.domain (p.item i)).isFixed = true := by
  rw [Packing.placedIn_eq_true_iff, reads b hb, and_congr_right_iff]
  intro member
  simp [hi, member]

theorem reads_ofDomains (wf : p.WellFormed) (ds : Domains) : (ofDomains p ds).Reads p ds := by
  intro b hb i
  rw [bin_ofDomains hb, (fits_firstBin wf ds b).2.1]
  exact mem_candidates_plainBin

/-- When a packing is installed, no big item counts as placed. -/
theorem bigPlaced_ofDomains (hb : b < p.numBins) (ds : Domains) :
    ((ofDomains p ds).bin b).bigPlaced = false := by
  rw [bin_ofDomains hb, firstBin]
  split
  · rfl
  · rcases Bin.extendBig_eq (accounts_plainBin p ds b 0)
      (ds.upper (p.load 0 b) - ((plainBin p ds b).entry 0).required) with same | ⟨a, -, -, same⟩
    · rw [same]
      rfl
    · rw [same]
      rfl

end Ledger

namespace Packing

variable {p q : Packing} {item dim : Nat → Nat} {ds : Domains} {l m : Ledger} {b d i : Nat}

theorem Closed.reads (closed : p.Closed ds l) : l.Reads p ds := by
  intro b hb i
  constructor
  · intro candidate
    exact ⟨(closed.accounts b hb).bounded i candidate, closed.candidates b hb i candidate⟩
  · rintro ⟨hi, member, open'⟩
    by_contra absent
    have fixed := closed.placed b hb i hi (placedIn_eq_true_iff.2 ⟨member, absent⟩)
    exact absurd (fixed.symm.trans open') (by decide)

/-! ## What is read off the domains -/

section

variable (h : Relists p q item dim) (reads : l.Reads p ds) (reads' : m.Reads q ds)
  (hb : b < q.numBins)

include h reads reads' hb

theorem Relists.placedIn_eq (hi : i < q.numItems) :
    q.placedIn ds (m.bin b) b i = p.placedIn ds (l.bin b) b (item i) := by
  rw [Bool.eq_iff_iff, reads'.placedIn_iff hb hi, reads.placedIn_iff (h.bins ▸ hb) (h.items.lt hi),
    h.item_eq i hi]

theorem Relists.weigh_placedIn (hd : d < q.numDims) :
    q.weigh d (q.placedIn ds (m.bin b) b) = p.weigh (dim d) (p.placedIn ds (l.bin b) b) :=
  h.weigh_eq hd fun _ hi => h.placedIn_eq reads reads' hb hi

/-- The candidates of a bin are the same items. -/
theorem Relists.candidates_perm (ascending : (l.bin b).candidates.Pairwise (· < ·))
    (ascending' : (m.bin b).candidates.Pairwise (· < ·)) :
    ((m.bin b).candidates.map item).Perm (l.bin b).candidates := by
  have bound : ∀ i ∈ (m.bin b).candidates, i < q.numItems := fun i hi => ((reads' b hb i).1 hi).1
  apply (List.perm_ext_iff_of_nodup _ (ascending.imp Nat.ne_of_lt)).2
  · intro j
    rw [List.mem_map, reads b (h.bins ▸ hb)]
    constructor
    · rintro ⟨i, hi, rfl⟩
      have open' := ((reads' b hb i).1 hi).2
      rw [h.item_eq i (bound i hi)] at open'
      exact ⟨h.items.lt (bound i hi), open'⟩
    · rintro ⟨hj, open'⟩
      obtain ⟨i, hi, rfl⟩ := h.items.exists hj
      rw [← h.item_eq i hi] at open'
      exact ⟨i, (reads' b hb i).2 ⟨hi, open'⟩, rfl⟩
  · exact List.Nodup.map_on (fun i hi j hj => h.items.inj (bound i hi) (bound j hj))
      (ascending'.imp Nat.ne_of_lt)

theorem Relists.sizeOf_candidates (ascending : (l.bin b).candidates.Pairwise (· < ·))
    (ascending' : (m.bin b).candidates.Pairwise (· < ·)) (hd : d < q.numDims) :
    ((m.bin b).candidates.map (q.size d)).Perm ((l.bin b).candidates.map (p.size (dim d))) := by
  have renamed : (m.bin b).candidates.map (q.size d) =
      ((m.bin b).candidates.map item).map (p.size (dim d)) := by
    rw [List.map_map]
    refine List.map_congr_left fun i hi => ?_
    exact h.size_eq d hd i ((reads' b hb i).1 hi).1
  rw [renamed]
  exact (h.candidates_perm reads reads' hb ascending ascending').map _

end

theorem pairwise_candidateSizes {bin : Bin} (wf : p.WellFormed)
    (ascending : bin.candidates.Pairwise (· < ·)) (bounded : ∀ i ∈ bin.candidates, i < p.numItems) :
    (bin.candidateSizes p).Pairwise fun a b => b ≤ a := by
  refine List.pairwise_map.2 (ascending.imp_of_mem fun {i j} _ hj less => ?_)
  exact wf.antitone i j (Nat.le_of_lt less) (bounded j hj)

/-! ## Closed domains -/

/-- What closed domains have in common with closed domains of the packing that lists the same items. -/
structure Mirrors (p q : Packing) (dim : Nat → Nat) (l m : Ledger) : Prop where
  required : ∀ b < q.numBins, ∀ d < q.numDims, (m.entry d b).required = (l.entry (dim d) b).required
  total : ∀ b < q.numBins, ∀ d < q.numDims, (m.entry d b).total = (l.entry (dim d) b).total
  /-- For every candidate there is one that counts the same. -/
  twin : ∀ b < q.numBins, ∀ i ∈ (m.bin b).candidates, ∃ j ∈ (l.bin b).candidates,
    ∀ d < q.numDims, q.size d i = p.size (dim d) j ∧
      (m.bin b).removalDelta q d i = (l.bin b).removalDelta p (dim d) j

section

variable (closed : p.Closed ds l) (wf' : q.WellFormed) (h : Relists p q item dim)

include closed wf' h

theorem Relists.required_ofDomains (hb : b < q.numBins) (hd : d < q.numDims) :
    ((Ledger.ofDomains q ds).entry d b).required = (l.entry (dim d) b).required := by
  have accounts := closed.accounts b (h.bins ▸ hb)
  have accounts' := (Ledger.tracks_ofDomains wf' ds).accounts b hb
  rw [Ledger.entry, Ledger.entry, accounts'.required d hd, accounts.required _ (h.dims.lt hd)]
  exact h.weigh_placedIn closed.reads (Ledger.reads_ofDomains wf' ds) hb hd

/-- **Without big items every candidate counts in full**, whatever the order. -/
theorem Relists.mirrors_of_disabled (disabled : p.policy = .disabled) :
    Mirrors p q dim l (Ledger.ofDomains q ds) := by
  have disabled' : q.policy = .disabled := h.policy.trans disabled
  have reads := closed.reads
  have reads' := Ledger.reads_ofDomains wf' ds
  have accounts := fun b (hb : b < q.numBins) => closed.accounts b (h.bins ▸ hb)
  have accounts' := (Ledger.tracks_ofDomains wf' ds).accounts
  have released {p : Packing} {bin : Bin} (plain : bin.firstSmall = 0) (d i : Nat) :
      bin.removalDelta p d i = -p.size d i := by
    simp [Bin.removalDelta, Bin.isBig, plain]
  refine ⟨fun b hb d hd => h.required_ofDomains closed wf' hb hd, fun b hb d hd => ?_,
    fun b hb i hi => ?_⟩
  · have placed := h.weigh_placedIn reads reads' hb hd
    have sizes := h.sizeOf_candidates reads reads' hb (accounts b hb).ascending
      (accounts' b hb).ascending hd
    rw [Ledger.entry, Ledger.entry, (accounts' b hb).total_eq_of_disabled disabled' hd,
      (accounts b hb).total_eq_of_disabled disabled (h.dims.lt hd), placed]
    exact congrArg _ sizes.sum_eq
  · have bound := (accounts' b hb).bounded i hi
    have perm := h.candidates_perm reads reads' hb (accounts b hb).ascending
      (accounts' b hb).ascending
    refine ⟨item i, perm.mem_iff.1 (List.mem_map_of_mem hi), fun d hd => ?_⟩
    have size := h.size_eq d hd i bound
    rw [released ((accounts' b hb).plain disabled').1, released ((accounts b hb).plain disabled).1]
    exact ⟨size, congrArg _ size⟩

/-- **Where the big items are extended the candidates count by their sizes**, whatever the order of
candidates of equal size. -/
theorem Relists.mirrors_of_extended (wf : p.WellFormed) (dynamic : p.policy = .dynamic)
    (extended : ∀ b < p.numBins, (l.bin b).Extended p (p.freeSpace l ds 0 b)) :
    Mirrors p q dim l (Ledger.ofDomains q ds) := by
  have policy : q.policy = .dynamic := h.policy.trans dynamic
  have single : q.numDims = 1 := wf'.single.resolve_right (by rw [policy]; decide)
  have reads := closed.reads
  have reads' := Ledger.reads_ofDomains wf' ds
  have only : ∀ d < q.numDims, d = 0 ∧ dim d = 0 := by
    intro d hd
    have := h.dims.lt hd
    have := h.dims.eq
    omega
  have first := (only 0 wf'.dims).2
  have same (b : Nat) (hb : b < q.numBins) :
      (l.bin b).candidateSizes p = ((Ledger.ofDomains q ds).bin b).candidateSizes q ∧
        ((l.bin b).entry 0).total = (((Ledger.ofDomains q ds).bin b).entry 0).total ∧
        ∀ j (hj : j < (l.bin b).candidates.length)
          (hj' : j < ((Ledger.ofDomains q ds).bin b).candidates.length),
          (l.bin b).removalDelta p 0 (l.bin b).candidates[j] =
            ((Ledger.ofDomains q ds).bin b).removalDelta q 0
              ((Ledger.ofDomains q ds).bin b).candidates[j] := by
    have hb' : b < p.numBins := h.bins ▸ hb
    have accounts := closed.accounts b hb'
    have accounts' := (Ledger.tracks_ofDomains wf' ds).accounts b hb
    have placed := h.weigh_placedIn reads reads' hb wf'.dims
    have sizes := h.sizeOf_candidates reads reads' hb accounts.ascending accounts'.ascending wf'.dims
    have load := h.load_eq 0 wf'.dims b hb
    rw [first] at placed sizes load
    have equal : (l.bin b).candidateSizes p = ((Ledger.ofDomains q ds).bin b).candidateSizes q :=
      List.Perm.eq_of_pairwise (fun x y _ _ (le : y ≤ x) (ge : x ≤ y) => le_antisymm ge le)
        (pairwise_candidateSizes wf accounts.ascending accounts.bounded)
        (pairwise_candidateSizes wf' accounts'.ascending accounts'.bounded) sizes.symm
    have free := extended b hb'
    have free' := Ledger.extended_ofDomains wf' (by rw [policy]; decide) hb ds
    rw [freeSpace, Ledger.entry, accounts.required 0 wf.dims] at free
    rw [freeSpace, Ledger.entry, accounts'.required 0 wf'.dims, load] at free'
    rw [load] at accounts'
    exact ⟨equal, accounts.same_of_sizes accounts' wf wf' placed.symm equal free free'
      (closed.bigPlaced_eq_false wf hb') (Ledger.bigPlaced_ofDomains hb ds)⟩
  refine ⟨fun b hb d hd => h.required_ofDomains closed wf' hb hd, fun b hb d hd => ?_,
    fun b hb i hi => ?_⟩
  · obtain ⟨rfl, zero⟩ := only d hd
    rw [zero]
    exact (same b hb).2.1.symm
  · obtain ⟨j, hj', rfl⟩ := List.mem_iff_getElem.1 hi
    obtain ⟨sizes, -, released⟩ := same b hb
    have length := congrArg List.length sizes
    rw [Bin.candidateSizes, Bin.candidateSizes, List.length_map, List.length_map] at length
    have hj : j < (l.bin b).candidates.length := length ▸ hj'
    refine ⟨(l.bin b).candidates[j], List.getElem_mem hj, fun d hd => ?_⟩
    obtain ⟨rfl, zero⟩ := only d hd
    have size := congrArg (Bin.sizeAt · j) sizes
    simp only [Bin.sizeAt_candidateSizes hj, Bin.sizeAt_candidateSizes hj'] at size
    rw [zero]
    exact ⟨size.symm, (released j hj hj').symm⟩

/-- **Domains that are closed under the rules of a packing are closed under those of every packing that
lists the same items.** -/
theorem Relists.closed_ofDomains (mirrors : Mirrors p q dim l (Ledger.ofDomains q ds)) :
    q.Closed ds (Ledger.ofDomains q ds) := by
  have tracks := Ledger.tracks_ofDomains wf' ds
  have bins := h.bins
  have sums (d : Nat) (hd : d < q.numDims) (bound : Var → Int) (s : Finset Nat)
      (inside : ∀ b ∈ s, b < q.numBins) :
      ∑ b ∈ s, bound (q.load d b) = ∑ b ∈ s, bound (p.load (dim d) b) :=
    Finset.sum_congr rfl fun b hb => by rw [h.load_eq d hd b (inside b hb)]
  have all (b : Nat) (hb : b ∈ Finset.range q.numBins) : b < q.numBins := Finset.mem_range.1 hb
  have others (b c : Nat) (hc : c ∈ (Finset.range q.numBins).erase b) : c < q.numBins :=
    all c (Finset.mem_of_mem_erase hc)
  constructor
  · exact closed.healthy
  · intro i hi
    rw [h.item_eq i hi, bins]
    exact closed.confined _ (h.items.lt hi)
  · exact tracks.accounts
  · exact tracks.placed
  · exact fun b hb i hi => ((Ledger.reads_ofDomains wf' ds b hb i).1 hi).2
  · intro d hd b hb
    rw [mirrors.required b hb d hd, mirrors.total b hb d hd, h.load_eq d hd b hb]
    exact closed.tight _ (h.dims.lt hd) b (bins ▸ hb)
  · intro d hd
    rw [sums d hd ds.lower _ all, sums d hd ds.upper _ all, h.totalSize_eq hd, bins]
    exact closed.enclosed _ (h.dims.lt hd)
  · intro d hd b hb
    rw [sums d hd ds.upper _ (others b), sums d hd ds.lower _ (others b), h.totalSize_eq hd,
      h.load_eq d hd b hb, bins]
    exact closed.balanced _ (h.dims.lt hd) b (bins ▸ hb)
  · intro b hb i hi d hd
    obtain ⟨j, hj, twin⟩ := mirrors.twin b hb i hi
    rw [mirrors.required b hb d hd, (twin d hd).1, h.load_eq d hd b hb]
    exact closed.fits b (bins ▸ hb) j hj _ (h.dims.lt hd)
  · intro b hb i hi
    obtain ⟨j, hj, twin⟩ := mirrors.twin b hb i hi
    obtain ⟨d', hd', enough⟩ := closed.notNeeded b (bins ▸ hb) j hj
    obtain ⟨d, hd, rfl⟩ := h.dims.exists hd'
    refine ⟨d, hd, ?_⟩
    rw [mirrors.total b hb d hd, (twin d hd).2, h.load_eq d hd b hb]
    exact enough

end

end Packing

end Stowage

import Stowage.Proofs.Packing.Journal

/-!
# A ledger only dwindles

As long as a packing does not go back, its ledger knows more and more: candidates leave the bins and bins
without candidates leave the list of those available, the required loads rise and the total loads sink.  The
total load changes by a delta that depends on which candidates are big, but it never rises: the candidate that
takes the place of the largest big one is no larger, since the items are sorted.

* `Bin.Dwindles`, `Ledger.Dwindles` — how a bin, and a ledger, is related to what becomes of it.
* `Bin.Accounts.dwindles_withdraw`, `Bin.Accounts.dwindles_place`, `Bin.Accounts.dwindles_extendBig` — the
  changes of a bin.
* `Desk.Step.dwindles`, `Desk.Along.dwindles` — every step of a call, and all moments of a call.
* `Ledger.Ordered`, `Desk.Valid.ordered` — the required loads lie below the total loads.
-/

set_option autoImplicit false

namespace Stowage

/-! ## The changes of a bin -/

/-- What may become of a bin. -/
structure Bin.Dwindles (p : Packing) (bin new : Bin) : Prop where
  /-- No candidate comes back. -/
  candidates : new.candidates ⊆ bin.candidates
  /-- What was big remains big. -/
  firstSmall : bin.firstSmall ≤ new.firstSmall
  required : ∀ d < p.numDims, (bin.entry d).required ≤ (new.entry d).required
  total : ∀ d < p.numDims, (new.entry d).total ≤ (bin.entry d).total

namespace Bin

variable {p : Packing} {placed : Nat → Bool} {capacity : Int} {bin new : Bin} {d i : Nat}

theorem Dwindles.refl (p : Packing) (bin : Bin) : bin.Dwindles p bin :=
  ⟨fun _ h => h, le_rfl, fun _ _ => le_rfl, fun _ _ => le_rfl⟩

theorem Dwindles.trans {last : Bin} (h : bin.Dwindles p new) (h' : new.Dwindles p last) :
    bin.Dwindles p last where
  candidates _ member := h.candidates (h'.candidates member)
  firstSmall := h.firstSmall.trans h'.firstSmall
  required d hd := (h.required d hd).trans (h'.required d hd)
  total d hd := (h'.total d hd).trans (h.total d hd)

/-- **A candidate that leaves the bin never raises the total load.** -/
theorem Accounts.removalDelta_nonpos (acc : bin.Accounts p placed capacity) (wf : p.WellFormed)
    (d i : Nat) : bin.removalDelta p d i ≤ 0 := by
  -- the next big candidate is no larger, since the items are sorted
  have next : sizeOr0 p (bin.nextBig? i) ≤ p.size 0 i := by
    cases found : bin.nextBig? i with
    | none => simpa [sizeOr0] using wf.nonneg 0 i
    | some c =>
      obtain ⟨here, -⟩ := Option.filter_eq_some_iff.1 found
      have after : i < c := by simpa using List.find?_some here
      exact wf.antitone i c after.le (acc.bounded c (List.mem_of_find?_eq_some here))
  have size := wf.nonneg d i
  unfold removalDelta
  split
  · omega
  · rename_i first
    obtain rfl : d = 0 := by
      by_contra other
      exact first (.inl other)
    split <;> omega

theorem Accounts.dwindles_withdraw (acc : bin.Accounts p placed capacity) (wf : p.WellFormed)
    (i : Nat) : bin.Dwindles p (bin.withdraw p i) := by
  have entry : ∀ d < p.numDims, (bin.withdraw p i).entry d = _ := fun d hd =>
    entry_withdraw (by rw [acc.entries]; exact hd)
  refine ⟨List.erase_subset, le_rfl, fun d hd => ?_, fun d hd => ?_⟩
  · rw [entry d hd]
  · rw [entry d hd]
    have delta := acc.removalDelta_nonpos wf d i
    show (bin.entry d).total + bin.removalDelta p d i ≤ (bin.entry d).total
    omega

/-- **A candidate that moves into the bin never raises the total load.**  If it is big, the largest big
candidate counted in its place. -/
theorem Accounts.dwindles_place (acc : bin.Accounts p placed capacity) (wf : p.WellFormed)
    (hi : i ∈ bin.candidates) (h : Placement p bin i new) : bin.Dwindles p new := by
  have size : ∀ d < p.numDims, d < bin.entries.size := fun d hd => by rw [acc.entries]; exact hd
  refine ⟨?_, h.firstSmall.ge, fun d hd => ?_, fun d hd => ?_⟩
  · rw [h.candidates]
    exact List.erase_subset
  · rw [h.required d (size d hd)]
    have := wf.nonneg d i
    omega
  · rw [h.total d (size d hd)]
    split
    · rename_i big
      have largest : p.size 0 i ≤ sizeOr0 p bin.firstBig? := by
        cases first : bin.firstBig? with
        | none =>
          have candidate : bin.isBigCandidate i = true := by
            rw [isBigCandidate, isCandidate_iff.2 hi, big.2]
            rfl
          rw [firstBig?_eq_none acc.ascending first i] at candidate
          cases candidate
        | some f =>
          exact wf.antitone f i ((firstBig?_eq_some acc.ascending first).2 i hi) (acc.bounded i hi)
      omega
    · omega

theorem sizeOf_nonneg (wf : p.WellFormed) (d : Nat) (items : List Nat) : 0 ≤ p.sizeOf d items := by
  rw [Packing.sizeOf, Packing.sumOf_eq_sum]
  refine List.sum_nonneg fun size member => ?_
  obtain ⟨i, -, rfl⟩ := List.mem_map.1 member
  exact wf.nonneg d i

/-- **Further candidates become big, and count less.** -/
theorem Accounts.dwindles_extendBig (acc : bin.Accounts p placed capacity) (wf : p.WellFormed)
    (free : Int) : bin.Dwindles p (bin.extendBig p free).2 := by
  rcases extendBig_eq acc free with same | ⟨a, -, anchor, same⟩
  · rw [same]
    exact .refl p bin
  · rw [same]
    have entry : ∀ d < p.numDims, (bin.enlarge p (bin.added p free a)).entry d = _ := fun d hd =>
      entry_enlarge _ (by rw [acc.entries]; exact hd)
    refine ⟨fun _ h => h, ?_, fun d hd => ?_, fun d hd => ?_⟩
    · -- a candidate that is added comes after the big ones, so it was not big
      show bin.firstSmall ≤ ((bin.added p free a).getLast?.map (· + 1)).getD bin.firstSmall
      cases last : (bin.added p free a).getLast? with
      | none => exact le_rfl
      | some c =>
        obtain ⟨member, after⟩ := mem_of_mem_added (List.mem_of_getLast? last)
        have small : ¬bin.isBig c = true := fun big =>
          Nat.not_le.2 after ((anchor?_eq_some acc.ascending anchor).2.1 c member big)
        have : bin.firstSmall ≤ c := by simpa [isBig] using small
        exact this.trans (Nat.le_succ c)
    · rw [entry d hd]
    · rw [entry d hd]
      have added := sizeOf_nonneg wf 0 (bin.added p free a)
      show (bin.entry d).total - (if d = 0 then _ else 0) ≤ (bin.entry d).total
      split <;> omega

theorem Accounts.total_le_totalSize (acc : bin.Accounts p placed capacity) (wf : p.WellFormed)
    (hd : d < p.numDims) : (bin.entry d).total ≤ p.totalSize d := by
  refine (acc.total_le wf hd).trans ?_
  have apart : p.weigh d placed + p.weigh d (fun i => bin.candidates.contains i && !placed i) ≤
      p.weigh d fun _ => true := by
    rw [p.weigh_split d (fun _ => true) placed]
    have placedPart : p.weigh d placed = p.weigh d fun i => true && placed i :=
      p.weigh_congr fun i _ => (Bool.true_and _).symm
    have openPart : p.weigh d (fun i => bin.candidates.contains i && !placed i) ≤
        p.weigh d fun i => true && !placed i :=
      p.weigh_mono wf fun i _ h => by simpa using ((Bool.and_eq_true _ _).mp h).2
    omega
  have unplaced : p.weigh d (fun i => bin.candidates.contains i && !placed i) =
      p.weigh d bin.candidates.contains := by
    refine p.weigh_congr fun i _ => ?_
    cases member : bin.candidates.contains i with
    | false => rfl
    | true =>
      rw [acc.unplaced i (List.contains_iff_mem.1 member)]
      rfl
  rw [p.sizeOf_eq_weigh acc.ascending acc.bounded, p.totalSize_eq_weigh, ← unplaced]
  exact apart

/-- **The required load lies below the total load.** -/
theorem Accounts.required_le_total (acc : bin.Accounts p placed capacity) (wf : p.WellFormed)
    (hd : d < p.numDims) : (bin.entry d).required ≤ (bin.entry d).total := by
  have small := p.weigh_nonneg wf d bin.isSmallCandidate
  have big : 0 ≤ bin.bigShare p d := Accounts.bigShare_nonneg wf d
  rw [acc.required d hd, acc.total d hd]
  omega

end Bin

/-! ## The steps of a call -/

/-- What may become of a ledger: all its bins dwindle, and none becomes available again. -/
structure Ledger.Dwindles (p : Packing) (l m : Ledger) : Prop where
  bins : ∀ b < p.numBins, (l.bin b).Dwindles p (m.bin b)
  available : m.available ⊆ l.available

/-- Every required load lies between 0 and the total load, which the size of all items bounds. -/
def Ledger.Ordered (p : Packing) (l : Ledger) : Prop := ∀ d < p.numDims, ∀ b < p.numBins,
  0 ≤ (l.entry d b).required ∧ (l.entry d b).required ≤ (l.entry d b).total ∧
    (l.entry d b).total ≤ p.totalSize d

namespace Ledger

variable {p : Packing} {l m : Ledger}

theorem Dwindles.refl (p : Packing) (l : Ledger) : l.Dwindles p l :=
  ⟨fun _ _ => .refl p _, fun _ h => h⟩

theorem Dwindles.trans {n : Ledger} (h : l.Dwindles p m) (h' : m.Dwindles p n) : l.Dwindles p n :=
  ⟨fun b hb => (h.bins b hb).trans (h'.bins b hb), fun _ member => h.available (h'.available member)⟩

theorem dwindles_of_bin {b : Nat} {new : Bin} (dwindles : (l.bin b).Dwindles p new)
    (bins : ∀ c, m.bin c = if c = b then new else l.bin c) (available : m.available ⊆ l.available) :
    l.Dwindles p m := by
  refine ⟨fun c _ => ?_, available⟩
  rw [bins]
  split
  · rename_i same
    exact same ▸ dwindles
  · exact .refl p _

end Ledger

namespace Desk

variable {p : Packing} {s t : Desk}

theorem Valid.ordered (valid : s.Valid p) (wf : p.WellFormed) : s.ledger.Ordered p := by
  intro d hd b hb
  have accounts := valid.tracks.accounts b hb
  refine ⟨?_, accounts.required_le_total wf hd, accounts.total_le_totalSize wf hd⟩
  rw [Ledger.entry, accounts.required d hd]
  exact p.weigh_nonneg wf d _

/-- **With every step the ledger dwindles.** -/
theorem Step.dwindles (wf : p.WellFormed) (valid : s.Valid p) (step : Step p s t) :
    s.ledger.Dwindles p t.ledger := by
  have size {b : Nat} (hb : b < p.numBins) : b < s.ledger.bins.size := by
    rw [valid.tracks.bins]
    exact hb
  have updated {b : Nat} {new : Bin} (hb : b < p.numBins) (dwindles : (s.ledger.bin b).Dwindles p new) :
      s.ledger.Dwindles p (s.ledger.update b new) := by
    refine Ledger.dwindles_of_bin dwindles (Ledger.bin_put s.ledger (size hb) new) ?_
    unfold Ledger.update
    split
    · exact List.erase_subset
    · exact fun _ h => h
  cases step with
  | narrow rule narrowed => exact .refl p _
  | withdraw hb hi lost =>
    exact updated hb ((valid.tracks.accounts _ hb).dwindles_withdraw wf _)
  | place hb hi fixed placed =>
    exact updated hb ((valid.tracks.accounts _ hb).dwindles_place wf hi (Bin.placement_of_place placed))
  | extend hb marked =>
    exact Ledger.dwindles_of_bin ((valid.tracks.accounts _ hb).dwindles_extendBig wf _)
      (Ledger.bin_put s.ledger (size hb) _) fun _ h => h
  | @record d b hd hb =>
    refine Ledger.dwindles_of_bin ?_ (Ledger.bin_record s.ledger (size hb) d _ _) fun _ h => h
    have amounts := Ledger.amounts_record (s.ledger.bin b) d (s.domains.lower (p.load d b))
      (s.domains.upper (p.load d b))
    exact ⟨fun _ h => h, le_rfl, fun e _ => (amounts e).1.ge, fun e _ => (amounts e).2.le⟩
  | mark b => exact .refl p _
  | plan marked => exact .refl p _
  | count counters => exact .refl p _

theorem Leads.dwindles (wf : p.WellFormed) (valid : s.Valid p) (leads : Leads p s t) :
    s.ledger.Dwindles p t.ledger :=
  (leads.path.preserves (P := fun u => s.ledger.Dwindles p u.ledger) wf
    (fun _ _ validU dwindles step => dwindles.trans (step.dwindles wf validU)) valid (.refl p _)).2

/-- The ledgers of the desks that were noted. -/
def ledgersOf (notes : List Remark) : List Ledger := notes.map fun n => n.desk.ledger

/-- **At all moments that are noted the ledger has dwindled**, and it goes on to do so. -/
theorem Along.dwindles {notes : List Remark} (wf : p.WellFormed) (valid : s.Valid p)
    (along : Along p s notes t) :
    (s.ledger :: (ledgersOf notes ++ [t.ledger])).Pairwise (Ledger.Dwindles p) := by
  induction along with
  | leads leads => simpa [ledgersOf] using leads.dwindles wf valid
  | @note s t n more leads rest ih =>
    have first := leads.dwindles wf valid
    have later := ih (leads.valid wf valid)
    refine List.pairwise_cons.2 ⟨fun l member => ?_, later⟩
    rcases List.mem_cons.1 member with rfl | member
    · exact first
    · exact first.trans ((List.pairwise_cons.1 later).1 l member)

end Desk

end Stowage

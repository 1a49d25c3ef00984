import Stowage.Proofs.Packing.Tracking

/-!
# The form of a ledger

A ledger that is read off cells has one bin for every bin of the packing, with one entry for every dimension,
lists what there is in ascending order, and has big items only where they are enabled.  That much holds of
every ledger, whatever the domains are, also after an inconsistency: every change of the ledger keeps it.

* `Bin.Formed`, `Ledger.Formed` — the form of a bin and of a ledger.
* `Ledger.Tracks.formed` — a ledger that tracks the domains has the form.
* `Ledger.Formed.update`, `Ledger.Formed.put`, `Ledger.Formed.record` — changes of the ledger keep it.
-/

set_option autoImplicit false

namespace Stowage

namespace Bin

/-- The form of a bin, whatever the amounts in it are. -/
structure Formed (p : Packing) (bin : Bin) : Prop where
  entries : bin.entries.size = p.numDims
  ascending : bin.candidates.Pairwise (· < ·)
  bounded : ∀ i ∈ bin.candidates, i < p.numItems
  plain : p.policy = .disabled → bin.firstSmall = 0 ∧ bin.bigPlaced = false

variable {p : Packing} {bin new : Bin} {i : Nat}

theorem Accounts.formed {placed : Nat → Bool} {capacity : Int} (acc : bin.Accounts p placed capacity) :
    bin.Formed p := ⟨acc.entries, acc.ascending, acc.bounded, acc.plain⟩

namespace Formed

theorem nodup (formed : bin.Formed p) : bin.candidates.Nodup := formed.ascending.imp Nat.ne_of_lt

/-- Where no item is big, none is placed as a big one. -/
theorem enabled (formed : bin.Formed p) :
    (bin.bigPlaced = true → p.policy ≠ .disabled) ∧ ∀ i, bin.isBig i = true → p.policy ≠ .disabled := by
  refine ⟨fun flag disabled => ?_, fun i big disabled => ?_⟩
  · cases (formed.plain disabled).2.symm.trans flag
  · rw [Bin.isBig, (formed.plain disabled).1, decide_eq_true_eq] at big
    exact absurd big (Nat.not_lt_zero i)

theorem leave (formed : bin.Formed p) (candidates : new.candidates = bin.candidates.erase i)
    (firstSmall : new.firstSmall = bin.firstSmall) (size : new.entries.size = bin.entries.size)
    (plain : p.policy = .disabled → new.bigPlaced = false) : new.Formed p where
  entries := size.trans formed.entries
  ascending := candidates ▸ formed.ascending.sublist List.erase_sublist
  bounded j member := formed.bounded j (List.mem_of_mem_erase (candidates ▸ member))
  plain disabled := ⟨firstSmall.trans (formed.plain disabled).1, plain disabled⟩

theorem withdraw (formed : bin.Formed p) (i : Nat) : (bin.withdraw p i).Formed p :=
  formed.leave (i := i) rfl rfl Array.size_mapIdx fun disabled => by
    simp [Bin.withdraw, settleBig, (formed.plain disabled).2]

theorem place (formed : bin.Formed p) (placed : bin.place p i = some new) : new.Formed p := by
  obtain ⟨candidates, firstSmall, size, -, -, flag, -⟩ := placement_of_place placed
  refine formed.leave candidates firstSmall size fun disabled => ?_
  obtain ⟨noneBig, notPlaced⟩ := formed.plain disabled
  simp [flag, notPlaced, Bin.isBig, noneBig]

theorem extendBig (formed : bin.Formed p) (enabled : p.policy ≠ .disabled) (free : Int) :
    (bin.extendBig p free).2.Formed p := by
  have plain (new : Bin) : p.policy = .disabled → new.firstSmall = 0 ∧ new.bigPlaced = false :=
    fun disabled => absurd disabled enabled
  unfold Bin.extendBig
  split
  · exact formed
  · dsimp only
    split
    · exact ⟨formed.entries, formed.ascending, formed.bounded, plain _⟩
    · exact ⟨Array.size_modify.trans formed.entries, formed.ascending, formed.bounded, plain _⟩

end Formed

end Bin

namespace Ledger

/-- The form of a ledger, whatever the amounts in it are. -/
structure Formed (p : Packing) (l : Ledger) : Prop where
  bins : l.bins.size = p.numBins
  sums : l.sums.size = p.numDims
  bin : ∀ b < p.numBins, (l.bin b).Formed p
  ascending : l.available.Pairwise (· < ·)
  below : ∀ b ∈ l.available, b < p.numBins

variable {p : Packing} {l m : Ledger} {ds : Domains} {b d : Nat} {new : Bin}

theorem Tracks.formed (tracks : l.Tracks p ds) : l.Formed p :=
  ⟨tracks.bins, tracks.sums, fun b hb => (tracks.accounts b hb).formed, tracks.ascending,
    fun b member => ((tracks.available b).1 member).1⟩

namespace Formed

theorem availableNodup (formed : l.Formed p) : l.available.Nodup := formed.ascending.imp Nat.ne_of_lt

theorem lt_size (formed : l.Formed p) (hb : b < p.numBins) : b < l.bins.size := hb.trans_eq formed.bins.symm

theorem replace (formed : l.Formed p) (hb : b < p.numBins) (fits : new.Formed p)
    (bins : m.bins = (l.put b new).bins) (sums : m.sums = l.sums)
    (available : m.available.Sublist l.available) : m.Formed p where
  bins := by
    rw [bins, put, Array.size_setIfInBounds]
    exact formed.bins
  sums := by
    rw [sums]
    exact formed.sums
  bin c hc := by
    rw [bin_of_bins (formed.lt_size hb) bins]
    split
    · exact fits
    · exact formed.bin c hc
  ascending := formed.ascending.sublist available
  below c member := formed.below c (available.subset member)

theorem put (formed : l.Formed p) (hb : b < p.numBins) (fits : new.Formed p) : (l.put b new).Formed p :=
  formed.replace hb fits rfl rfl (.refl _)

theorem update (formed : l.Formed p) (hb : b < p.numBins) (fits : new.Formed p) :
    (l.update b new).Formed p := by
  refine formed.replace hb fits rfl rfl ?_
  show List.Sublist (if _ then _ else _) _
  split
  · exact List.erase_sublist
  · exact .refl _

theorem record (formed : l.Formed p) (hb : b < p.numBins) (lower upper : Int) :
    (l.record d b lower upper).Formed p where
  bins := Array.size_modify.trans formed.bins
  sums := Array.size_modify.trans formed.sums
  bin c hc := by
    obtain ⟨entries, ascending, bounded, plain⟩ := formed.bin c hc
    rw [bin_record l (formed.lt_size hb)]
    split
    · subst c
      exact ⟨Array.size_modify.trans entries, ascending, bounded, plain⟩
    · exact ⟨entries, ascending, bounded, plain⟩
  ascending := formed.ascending
  below := formed.below

end Formed

end Ledger

end Stowage

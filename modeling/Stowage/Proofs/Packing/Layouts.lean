import Stowage.Proofs.Ownership
import Stowage.Proofs.Packing.Pages

/-!
# The cells of a packing

Where the cells of the sets and integers of a packing are apart, they can be written to as if the sets and
integers were separate: what the cells hold is a page, a write changes the page, and the ledger of a page is
read off the cells.

* `Layout.Has`, `Layout.Owns` — the cells of a set or integer, and those of the packing.
* `Layout.Apart` — no cell belongs to two sets or integers.
* `Layout.Shows` — the cells hold a page.
* `Layout.alters_writes`, `Layout.Shows.writes` — writes change the cells of the packing only, and the page.
* `Layout.formed_ledger` — what is read off cells has the form of a ledger.
* `Layout.ledger_of_shows` — the ledger of a page is read off the cells.
* `Layout.ledger_congr` — what is read off depends on no cells but those of the packing.
-/

set_option autoImplicit false

namespace Stowage

namespace Layout

/-- The cell is in the block of a set of the packing, or it holds one of its integers. -/
def Has (l : Layout) (p : Packing) : SetKey ⊕ NumberKey → Nat → Prop
  | .inl g, cell => g ∈ p.setKeys ∧ (l.set g).Owns cell
  | .inr f, cell => f ∈ p.numberKeys ∧ l.cell p f = cell

def Owns (l : Layout) (p : Packing) (cell : Nat) : Prop := ∃ key, l.Has p key cell

/-- No cell belongs to two sets or integers. -/
def Apart (l : Layout) (p : Packing) : Prop :=
  ∀ key key' cell, l.Has p key cell → l.Has p key' cell → key = key'

/-- The cells hold a page. -/
structure Shows (l : Layout) (p : Packing) (c : Cells) (page : Page) : Prop where
  sets : ∀ g ∈ p.setKeys, (l.set g).Represents c (page.sets g)
  numbers : ∀ f ∈ p.numberKeys, l.cell p f < c.size ∧ c.read (l.cell p f) = page.numbers f

variable {l : Layout} {p : Packing} {c d : Cells} {page : Page} {w : Write} {ws : List Write}

theorem Shows.lt_size (shows' : l.Shows p c page) {cell : Nat} (owns : l.Owns p cell) : cell < c.size := by
  obtain ⟨g | f, inside, owns⟩ := owns
  · exact owns.2.trans_lt (shows'.sets g inside).allocated
  · exact owns ▸ (shows'.numbers f inside).1

/-- What the cells of others hold does not matter. -/
theorem Shows.congr (shows' : l.Shows p c page) (size : c.size ≤ d.size)
    (same : ∀ cell, l.Owns p cell → d.read cell = c.read cell) : l.Shows p d page where
  sets g inside := (shows'.sets g inside).congr size fun cell owns => same cell ⟨.inl g, inside, owns⟩
  numbers f inside := by
    obtain ⟨exist, read⟩ := shows'.numbers f inside
    exact ⟨exist.trans_le size, (same _ ⟨.inr f, inside, rfl⟩).trans read⟩

/-! ## Writing -/

theorem alters_write (within : w.Within p) : Cells.Alters (l.Owns p) c (l.write p c w) := by
  cases w with
  | remove g i => exact ((l.set g).alters_remove c i).mono fun cell owns => ⟨.inl g, within, owns⟩
  | assign f value => exact Cells.alters_write ⟨.inr f, within, rfl⟩ c value
  | increase f amount => exact Cells.alters_add ⟨.inr f, within, rfl⟩ c amount

/-- **Writes change no cell but those of the packing.** -/
theorem alters_writes (within : ∀ w ∈ ws, w.Within p) : Cells.Alters (l.Owns p) c (l.writes p c ws) := by
  induction ws generalizing c with
  | nil => exact .refl _ c
  | cons w ws ih =>
    exact (alters_write (within w List.mem_cons_self)).trans
      (ih fun w member => within w (List.mem_cons_of_mem _ member))

theorem Shows.assign (apart : l.Apart p) (shows' : l.Shows p c page) {f : NumberKey}
    (inside : f ∈ p.numberKeys) (value : Int) :
    l.Shows p (c.write (l.cell p f) value)
      { page with numbers := Function.update page.numbers f value } where
  sets g member := by
    refine (shows'.sets g member).congr (c.size_write _ _).ge fun cell owns =>
      c.read_write_of_ne (fun same => ?_) value
    cases apart (.inl g) (.inr f) cell ⟨member, owns⟩ ⟨inside, same⟩
  numbers k member := by
    obtain ⟨exist, read⟩ := shows'.numbers k member
    refine ⟨exist.trans_eq (c.size_write _ _).symm, ?_⟩
    rw [Cells.read_write c (shows'.numbers f inside).1]
    by_cases same : k = f
    · subst same
      simp only [if_true, Function.update_self]
    · have other : l.cell p f ≠ l.cell p k := fun cells =>
        same (Sum.inr.inj (apart (.inr k) (.inr f) _ ⟨member, rfl⟩ ⟨inside, cells⟩))
      exact ((if_neg other).trans read).trans (Function.update_of_ne same _ _).symm

theorem Shows.becomes (apart : l.Apart p) (shows' : l.Shows p c page) {g : SetKey} (inside : g ∈ p.setKeys)
    {S : Finset Nat} (becomes : (l.set g).Becomes c d S) :
    l.Shows p d { page with sets := Function.update page.sets g S } where
  sets h member := by
    by_cases same : h = g
    · subst same
      simp only [Function.update_self]
      exact becomes.represents
    · simp only [Function.update_of_ne same]
      refine (shows'.sets h member).congr becomes.size.ge fun cell owns => becomes.others cell fun owns' => ?_
      exact same (Sum.inl.inj (apart (.inl h) (.inl g) cell ⟨member, owns⟩ ⟨inside, owns'⟩))
  numbers f member := by
    obtain ⟨exist, read⟩ := shows'.numbers f member
    refine ⟨exist.trans_eq becomes.size.symm, (becomes.others _ fun owns => ?_).trans read⟩
    cases apart (.inr f) (.inl g) _ ⟨member, rfl⟩ ⟨inside, owns⟩

theorem Shows.write (apart : l.Apart p) (shows' : l.Shows p c page) (within : w.Within p) :
    l.Shows p (l.write p c w) (page.write w) := by
  cases w with
  | remove g i => exact shows'.becomes apart within ((shows'.sets g within).remove i).2
  | assign f value => exact shows'.assign apart within value
  | increase f amount =>
    have assigned := shows'.assign apart within (c.read (l.cell p f) + amount)
    rw [(shows'.numbers f within).2] at assigned
    rw [Layout.write, Cells.add, (shows'.numbers f within).2]
    exact assigned

/-- **Writes change the page.** -/
theorem Shows.writes (apart : l.Apart p) (shows' : l.Shows p c page) (within : ∀ w ∈ ws, w.Within p) :
    l.Shows p (l.writes p c ws) (page.writes ws) := by
  induction ws generalizing c page with
  | nil => exact shows'
  | cons w ws ih =>
    exact ih (shows'.write apart (within w List.mem_cons_self)) fun w member =>
      within w (List.mem_cons_of_mem _ member)

/-! ## Reading -/

section

variable (same : ∀ cell, l.Owns p cell → d.read cell = c.read cell)

include same

theorem number_congr {f : NumberKey} (inside : f ∈ p.numberKeys) : l.number p d f = l.number p c f :=
  same _ ⟨.inr f, inside, rfl⟩

theorem contains_congr {g : SetKey} (inside : g ∈ p.setKeys) : (l.set g).contains d = (l.set g).contains c :=
  funext (BitSet.contains_congr fun cell owns => same cell ⟨.inl g, inside, owns⟩)

theorem bin_congr {b : Nat} (hb : b < p.numBins) : l.bin p d b = l.bin p c b := by
  have entries : (p.dimList.map fun e => (⟨l.number p d (.required e b), l.number p d (.total e b),
        l.number p d (.seenLower e b), l.number p d (.seenUpper e b)⟩ : Entry)) =
      p.dimList.map fun e => ⟨l.number p c (.required e b), l.number p c (.total e b),
        l.number p c (.seenLower e b), l.number p c (.seenUpper e b)⟩ := by
    refine List.map_congr_left fun e member => ?_
    have he := List.mem_range.1 member
    rw [number_congr same (f := .required e b) (Packing.mem_numberKeys.2 ⟨he, hb⟩),
      number_congr same (f := .total e b) (Packing.mem_numberKeys.2 ⟨he, hb⟩),
      number_congr same (f := .seenLower e b) (Packing.mem_numberKeys.2 ⟨he, hb⟩),
      number_congr same (f := .seenUpper e b) (Packing.mem_numberKeys.2 ⟨he, hb⟩)]
  unfold bin
  rw [contains_congr same (Packing.mem_setKeys_candidates.2 hb), entries]
  by_cases disabled : p.policy = .disabled
  · simp only [if_pos disabled]
  · simp only [if_neg disabled,
      number_congr same (f := .firstSmall b) (Packing.mem_numberKeys.2 ⟨disabled, hb⟩),
      number_congr same (f := .bigPlaced b) (Packing.mem_numberKeys.2 ⟨disabled, hb⟩)]

/-- **What the cells of others hold does not matter to the ledger.** -/
theorem ledger_congr : l.ledger p d = l.ledger p c := by
  have bins : p.binList.map (l.bin p d) = p.binList.map (l.bin p c) :=
    List.map_congr_left fun b member => bin_congr same (List.mem_range.1 member)
  have sums : (p.dimList.map fun e => (⟨l.number p d (.sumLower e), l.number p d (.sumUpper e)⟩ : Sums)) =
      p.dimList.map fun e => ⟨l.number p c (.sumLower e), l.number p c (.sumUpper e)⟩ := by
    refine List.map_congr_left fun e member => ?_
    have he := List.mem_range.1 member
    rw [number_congr same (f := .sumLower e) (Packing.mem_numberKeys.2 he),
      number_congr same (f := .sumUpper e) (Packing.mem_numberKeys.2 he)]
  have available : l.available.contains d = l.available.contains c :=
    contains_congr same Packing.mem_setKeys_available
  rw [ledger, ledger, bins, sums, available]

end

theorem formed_bin (l : Layout) (p : Packing) (c : Cells) (b : Nat) : (l.bin p c b).Formed p where
  entries := by simp [bin, Packing.dimList]
  ascending := List.pairwise_lt_range.filter _
  bounded i member := List.mem_range.1 (List.mem_of_mem_filter member)
  plain disabled := by simp [bin, disabled]

/-- **Whatever the cells hold has the form of a ledger.** -/
theorem formed_ledger (l : Layout) (p : Packing) (c : Cells) : (l.ledger p c).Formed p where
  bins := by simp [ledger, Packing.binList]
  sums := by simp [ledger, Packing.dimList]
  bin b hb := by
    have here : (l.ledger p c).bin b = l.bin p c b := by simp [ledger, Ledger.bin, Packing.binList, hb]
    rw [here]
    exact formed_bin l p c b
  ascending := List.pairwise_lt_range.filter _
  below b member := List.mem_range.1 (List.mem_of_mem_filter member)

section

variable {m : Ledger} (shows' : l.Shows p c m.page) (formed : m.Formed p)

include shows' formed

theorem bin_of_shows {b : Nat} (hb : b < p.numBins) : l.bin p c b = m.bin b := by
  have form := formed.bin b hb
  have candidates : p.itemList.filter ((l.set (.candidates b)).contains c) = (m.bin b).candidates := by
    have represents := shows'.sets _ (Packing.mem_setKeys_candidates.2 hb)
    refine List.Pairwise.eq_of_mem_iff (List.pairwise_lt_range.filter _) form.ascending fun i => ?_
    rw [List.mem_filter, represents.contains, decide_eq_true_iff, Packing.itemList, List.mem_range,
      show i ∈ m.page.sets (.candidates b) ↔ i ∈ (m.bin b).candidates from List.mem_toFinset]
    exact ⟨And.right, fun member => ⟨form.bounded i member, member⟩⟩
  have number {f : NumberKey} (inside : f ∈ p.numberKeys) : l.number p c f = m.page.numbers f :=
    (shows'.numbers f inside).2
  have entries : (p.dimList.map fun e => (⟨l.number p c (.required e b), l.number p c (.total e b),
        l.number p c (.seenLower e b), l.number p c (.seenUpper e b)⟩ : Entry)).toArray =
      (m.bin b).entries := by
    refine Array.ext (by simp [Packing.dimList, form.entries]) fun e inside inside' => ?_
    have he : e < p.numDims := inside'.trans_eq form.entries
    have entry : (m.bin b).entries[e] = m.entry e b := by
      simp [Ledger.entry, Bin.entry, inside']
    simp only [Packing.dimList, List.getElem_toArray, List.getElem_map, List.getElem_range, entry]
    rw [number (f := .required e b) (Packing.mem_numberKeys.2 ⟨he, hb⟩),
      number (f := .total e b) (Packing.mem_numberKeys.2 ⟨he, hb⟩),
      number (f := .seenLower e b) (Packing.mem_numberKeys.2 ⟨he, hb⟩),
      number (f := .seenUpper e b) (Packing.mem_numberKeys.2 ⟨he, hb⟩)]
    rfl
  unfold bin
  rw [candidates, entries]
  by_cases disabled : p.policy = .disabled
  · obtain ⟨firstSmall, bigPlaced⟩ := form.plain disabled
    rw [if_pos disabled, if_pos disabled, ← firstSmall, ← bigPlaced]
  · rw [if_neg disabled, if_neg disabled,
      number (f := .firstSmall b) (Packing.mem_numberKeys.2 ⟨disabled, hb⟩),
      number (f := .bigPlaced b) (Packing.mem_numberKeys.2 ⟨disabled, hb⟩)]
    have flag : ((if (m.bin b).bigPlaced then 1 else 0 : Int) != 0) = (m.bin b).bigPlaced := by
      cases (m.bin b).bigPlaced <;> rfl
    show Bin.mk _ _ _ ((if (m.bin b).bigPlaced then 1 else 0 : Int) != 0) = m.bin b
    rw [flag]
    rfl

/-- **The ledger is read off the cells that hold its page.** -/
theorem ledger_of_shows : l.ledger p c = m := by
  have bins : (p.binList.map (l.bin p c)).toArray = m.bins := by
    refine Array.ext (by simp [Packing.binList, formed.bins]) fun b inside inside' => ?_
    have found : m.bins[b] = m.bin b := by simp [Ledger.bin, inside']
    simp only [Packing.binList, List.getElem_toArray, List.getElem_map, List.getElem_range, found]
    exact bin_of_shows shows' formed (inside'.trans_eq formed.bins)
  have available : p.binList.filter (l.available.contains c) = m.available := by
    have represents : l.available.Represents c m.available.toFinset :=
      shows'.sets _ Packing.mem_setKeys_available
    refine List.Pairwise.eq_of_mem_iff (List.pairwise_lt_range.filter _) formed.ascending fun b => ?_
    rw [List.mem_filter, represents.contains, decide_eq_true_iff, Packing.binList, List.mem_range,
      List.mem_toFinset]
    exact ⟨And.right, fun member => ⟨formed.below b member, member⟩⟩
  have sums : (p.dimList.map fun e =>
      (⟨l.number p c (.sumLower e), l.number p c (.sumUpper e)⟩ : Sums)).toArray = m.sums := by
    refine Array.ext (by simp [Packing.dimList, formed.sums]) fun e inside inside' => ?_
    have he : e < p.numDims := inside'.trans_eq formed.sums
    have found : m.sums[e] = m.sum e := by simp [Ledger.sum, inside']
    simp only [Packing.dimList, List.getElem_toArray, List.getElem_map, List.getElem_range, found]
    rw [number, (shows'.numbers (.sumLower e) (Packing.mem_numberKeys.2 he)).2, number,
      (shows'.numbers (.sumUpper e) (Packing.mem_numberKeys.2 he)).2]
    rfl
  rw [ledger, bins, available, sums]

end

end Layout

end Stowage

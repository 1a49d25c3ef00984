import Stowage.Packing.Layout
import Stowage.Proofs.Packing.Extending
import Stowage.Proofs.Packing.Forms

/-!
# What a packing writes

The ledger of a packing is kept in sets and integers of its own: for every bin the set of its candidates,
the set of the available bins, and in every dimension the loads and the sums.  Every change of the ledger
is a list of writes to these.

* `Packing.setKeys`, `Packing.numberKeys` — the sets and integers, in the order in which they are added.
* `Ledger.page` — their contents; `Ledger.page_put` — a bin is replaced.
* `Page.writes` — writes to them; `Write.Within` — to those that the packing has.
* `Ledger.page_withdraw`, `Ledger.page_place`, `Ledger.page_record`, `Ledger.page_extend` — what each change
  of the ledger writes.
* `Ledger.sets_insertions`, `Ledger.page_ofDomains` — what is written when a packing is installed.
-/

set_option autoImplicit false

namespace Stowage

/-- The contents of the sets and integers of a packing. -/
@[ext]
structure Page where
  sets : SetKey → Finset Nat
  numbers : NumberKey → Int

namespace Packing

def setKeys (p : Packing) : List SetKey := p.binList.map .candidates ++ [.available]

/-- The elements of a set are smaller than this. -/
def capacity (p : Packing) : SetKey → Nat
  | .candidates _ => p.numItems
  | .available => p.numBins

def numberKeys (p : Packing) : List NumberKey :=
  p.matrix .required ++ p.matrix .total ++ p.dimList.map .sumLower ++ p.dimList.map .sumUpper ++
    p.matrix .seenLower ++ p.matrix .seenUpper ++
    if p.policy = .disabled then [] else p.binList.map .firstSmall ++ p.binList.map .bigPlaced

end Packing

/-- The write is to a set or an integer of the packing. -/
def Write.Within (p : Packing) : Write → Prop
  | .remove g _ => g ∈ p.setKeys
  | .assign f _ => f ∈ p.numberKeys
  | .increase f _ => f ∈ p.numberKeys

namespace Page

def write (page : Page) : Write → Page
  | .remove g i => { page with sets := Function.update page.sets g ((page.sets g).erase i) }
  | .assign f value => { page with numbers := Function.update page.numbers f value }
  | .increase f amount =>
    { page with numbers := Function.update page.numbers f (page.numbers f + amount) }

/-- Changes sets and integers one after the other. -/
def writes (page : Page) (ws : List Write) : Page := ws.foldl write page

variable {page : Page}

@[simp] theorem writes_nil : page.writes [] = page := rfl

@[simp] theorem writes_cons (w : Write) (ws : List Write) :
    page.writes (w :: ws) = (page.write w).writes ws := rfl

@[simp] theorem writes_append (ws ws' : List Write) :
    page.writes (ws ++ ws') = (page.writes ws).writes ws' := List.foldl_append

theorem writes_increases (f : Nat → NumberKey) (amount : Nat → Int) (n : Nat) :
    page.writes ((List.range n).map fun d => .increase (f d) (amount d)) =
      { page with
        numbers := fun k => page.numbers k + ∑ d ∈ Finset.range n, if f d = k then amount d else 0 } := by
  induction n with
  | zero => simp
  | succ n ih =>
    rw [List.range_succ, List.map_append, writes_append, ih]
    refine Page.ext rfl (funext fun k => ?_)
    simp only [List.map_cons, List.map_nil, writes_cons, writes_nil, write, Function.update_apply,
      Finset.sum_range_succ, eq_comm (a := k)]
    split
    next same =>
      subst same
      exact add_assoc _ _ _
    next => rw [add_zero]

end Page

/-- The bin that an integer is kept about. -/
def NumberKey.bin? : NumberKey → Option Nat
  | .required _ b | .total _ b | .seenLower _ b | .seenUpper _ b | .firstSmall b | .bigPlaced b => some b
  | .sumLower _ | .sumUpper _ => none

/-- What is kept about a bin. -/
def Bin.number (bin : Bin) : NumberKey → Int
  | .required d _ => (bin.entry d).required
  | .total d _ => (bin.entry d).total
  | .seenLower d _ => (bin.entry d).seenLower
  | .seenUpper d _ => (bin.entry d).seenUpper
  | .firstSmall _ => (bin.firstSmall : Int)
  | .bigPlaced _ => if bin.bigPlaced then 1 else 0
  | .sumLower _ | .sumUpper _ => 0

theorem Bin.entry_of_le {bin : Bin} {d : Nat} (outside : bin.entries.size ≤ d) :
    bin.entry d = ⟨0, 0, 0, 0⟩ := by
  rw [Bin.entry, Array.getElem?_eq_none outside, Option.getD_none]

namespace Ledger

/-- What the sets and integers of a packing hold. -/
def page (l : Ledger) : Page where
  sets
    | .candidates b => (l.bin b).candidates.toFinset
    | .available => l.available.toFinset
  numbers
    | .required d b => (l.entry d b).required
    | .total d b => (l.entry d b).total
    | .sumLower d => (l.sum d).lower
    | .sumUpper d => (l.sum d).upper
    | .seenLower d b => (l.entry d b).seenLower
    | .seenUpper d b => (l.entry d b).seenUpper
    | .firstSmall b => ((l.bin b).firstSmall : Int)
    | .bigPlaced b => if (l.bin b).bigPlaced then 1 else 0

variable {p : Packing} {l : Ledger} {ds : Domains} {b i d : Nat}

/-- Where a bin is replaced, only what is kept about this bin changes. -/
theorem page_put (exist : b < l.bins.size) (new : Bin) :
    (l.put b new).page =
      ⟨Function.update l.page.sets (.candidates b) new.candidates.toFinset,
        fun k => if k.bin? = some b then new.number k else l.page.numbers k⟩ := by
  refine Page.ext (funext fun g => ?_) (funext fun k => ?_)
  · cases g with
    | candidates c => by_cases same : c = b <;> simp [Ledger.page, bin_put l exist, same]
    | available => rfl
  · cases k with
    | required e c | total e c | seenLower e c | seenUpper e c | firstSmall c | bigPlaced c =>
      by_cases same : c = b <;>
        simp [Ledger.page, Ledger.entry, bin_put l exist, NumberKey.bin?, Bin.number, same]
    | sumLower e | sumUpper e => rfl

/-! ## The page after each change -/

theorem toFinset_erase {list : List Nat} (nodup : list.Nodup) :
    (list.erase i).toFinset = list.toFinset.erase i := by
  ext j
  rw [List.mem_toFinset, nodup.mem_erase_iff, Finset.mem_erase, List.mem_toFinset]

theorem writes_leaving {page : Page} (b : Nat) (flag : Bool) (rest : Bin) :
    page.writes (leaving b flag rest) =
      { sets := fun g =>
          if g = .available ∧ rest.candidates.isEmpty then (page.sets .available).erase b else page.sets g
        numbers := fun k =>
          if k = .bigPlaced b ∧ (flag && rest.firstBig?.isNone) then 0 else page.numbers k } := by
  refine Page.ext (funext fun g => ?_) (funext fun k => ?_) <;>
    by_cases empty : rest.candidates.isEmpty <;> by_cases settles : flag && rest.firstBig?.isNone <;>
      simp [leaving, Page.write, Function.update_apply, empty, settles]

/-- The bin that a candidate leaves is replaced. -/
theorem page_leave (formed : l.Formed p) (hb : b < p.numBins) {new : Bin} {flag : Bool} {after : Page}
    (candidates : new.candidates = (l.bin b).candidates.erase i)
    (settled : new.bigPlaced = (flag && ((l.bin b).without i).firstBig?.isSome))
    (sets : after.sets =
      Function.update l.page.sets (.candidates b) ((l.page.sets (.candidates b)).erase i))
    (flags : ∀ c, after.numbers (.bigPlaced c) =
      if c = b then if flag then 1 else 0 else l.page.numbers (.bigPlaced c))
    (numbers : ∀ k, (∀ c, k ≠ .bigPlaced c) → after.numbers k = (l.put b new).page.numbers k) :
    (l.update b new).page = after.writes (leaving b flag ((l.bin b).without i)) := by
  have exist := formed.lt_size hb
  have nodup := (formed.bin b hb).nodup
  rw [writes_leaving]
  refine Page.ext (funext fun g => ?_) (funext fun k => ?_)
  · rw [sets]
    cases g with
    | candidates c =>
      by_cases same : c = b
      · subst same
        simp [Ledger.page, bin_put l exist, candidates, toFinset_erase nodup]
      · simp [Ledger.page, bin_put l exist, same]
    | available =>
      by_cases empty : ((l.bin b).candidates.erase i).isEmpty
      · simp [Ledger.page, update, Bin.without, candidates, empty, toFinset_erase formed.availableNodup]
      · simp [Ledger.page, update, Bin.without, candidates, empty, put]
  · by_cases other : ∀ c, k ≠ .bigPlaced c
    · have put : (l.update b new).page.numbers k = (l.put b new).page.numbers k := by cases k <;> rfl
      exact put.trans ((if_neg fun settles => other b settles.1).trans (numbers k other)).symm
    · obtain ⟨c, rfl⟩ := not_forall_not.1 other
      by_cases same : c = b
      · subst same
        cases flag <;> cases first : ((l.bin c).without i).firstBig? <;>
          simp [Ledger.page, bin_put l exist, flags, settled, first]
      · simp [Ledger.page, bin_put l exist, flags, same]

/-- **A candidate that leaves a bin is written off.** -/
theorem page_withdraw (formed : l.Formed p) (hb : b < p.numBins) :
    (l.update b ((l.bin b).withdraw p i)).page = l.page.writes (l.withdrawal p b i) := by
  have exist := formed.lt_size hb
  have entry (d : Nat) : ((l.bin b).withdraw p i).entry d =
      { (l.bin b).entry d with
        total := ((l.bin b).entry d).total +
          if d < p.numDims then (l.bin b).removalDelta p d i else 0 } := by
    rw [← (formed.bin b hb).entries]
    by_cases inside : d < (l.bin b).entries.size
    · rw [Bin.entry_withdraw inside, if_pos inside]
    · have outside := Nat.le_of_not_lt inside
      have size : ((l.bin b).withdraw p i).entries.size = (l.bin b).entries.size := Array.size_mapIdx
      rw [Bin.entry_of_le outside, Bin.entry_of_le (size.trans_le outside), if_neg inside, add_zero]
  have firstSmall : ((l.bin b).withdraw p i).firstSmall = (l.bin b).firstSmall := rfl
  rw [withdrawal, Page.writes_append, Packing.dimList, Page.writes_increases, Page.writes_cons]
  refine page_leave formed hb rfl rfl rfl (fun c => ?_) (fun k other => ?_)
  · by_cases same : c = b
    · subst same
      simp [Ledger.page, Page.write]
    · simp [same, Page.write]
  · rw [page_put exist]
    cases k with
    | required e c | total e c | seenLower e c | seenUpper e c | firstSmall c =>
      by_cases same : b = c
      · subst same
        simp [Ledger.page, Ledger.entry, NumberKey.bin?, Bin.number, Page.write, entry, firstSmall]
      · simp [Ledger.page, NumberKey.bin?, Page.write, same, Ne.symm same]
    | sumLower e | sumUpper e => simp [Ledger.page, NumberKey.bin?, Page.write]
    | bigPlaced c => exact absurd rfl (other c)

/-- **A candidate that moves into a bin is written off, and its size is added.** -/
theorem page_place (formed : l.Formed p) (wf : p.WellFormed) (hb : b < p.numBins) {new : Bin}
    (placed : (l.bin b).place p i = some new) :
    (l.update b new).page = l.page.writes (l.placement p b i) := by
  have exist := formed.lt_size hb
  have entries := (formed.bin b hb).entries
  obtain ⟨candidates, firstSmall, size, required, seen, flag, -, total⟩ := Bin.placement_of_place placed
  have entry (d : Nat) : new.entry d =
      ⟨((l.bin b).entry d).required + if d < p.numDims then p.size d i else 0,
        ((l.bin b).entry d).total +
          if d = 0 then
            if (l.bin b).isBig i then p.size 0 i - Bin.sizeOr0 p (l.bin b).firstBig? else 0
          else 0,
        ((l.bin b).entry d).seenLower, ((l.bin b).entry d).seenUpper⟩ := by
    by_cases inside : d < (l.bin b).entries.size
    · rw [if_pos (inside.trans_eq entries), ← required d inside, ← ite_and, ← total d inside,
        ← (seen d inside).1, ← (seen d inside).2]
    · have outside := Nat.le_of_not_lt inside
      have other : d ≠ 0 := (wf.dims.trans_le (entries.symm.trans_le outside)).ne'
      rw [Bin.entry_of_le outside, Bin.entry_of_le (size.trans_le outside),
        if_neg (entries ▸ inside), if_neg other]
      rfl
  rw [placement, Page.writes_append, Page.writes_append, Page.writes_cons, Page.writes_cons,
    Packing.dimList, Page.writes_increases]
  refine page_leave formed hb candidates flag ?_ (fun c => ?_) (fun k other => ?_)
  · cases (l.bin b).isBig i <;> simp [Page.write]
  · by_cases same : c = b
    · subst same
      cases (l.bin c).isBig i <;> simp [Ledger.page, Page.write]
    · cases (l.bin b).isBig i <;> simp [Ledger.page, Page.write, same]
  · have flags (page : Page) :
        (page.writes (if (l.bin b).isBig i then [.assign (.bigPlaced b) 1] else [])).numbers k =
          page.numbers k := by
      split
      · exact Function.update_of_ne (other b) _ _
      · rfl
    rw [flags, page_put exist]
    cases k with
    | required e c | total e c | seenLower e c | seenUpper e c =>
      by_cases same : b = c
      · subst same
        by_cases zero : e = 0 <;>
          simp [Ledger.page, Ledger.entry, NumberKey.bin?, Bin.number, Page.write, entry, zero]
      · simp [Ledger.page, NumberKey.bin?, Page.write, same, Ne.symm same]
    | firstSmall c =>
      by_cases same : c = b <;> simp [Ledger.page, NumberKey.bin?, Bin.number, Page.write, firstSmall, same]
    | sumLower e | sumUpper e => simp [Ledger.page, NumberKey.bin?, Page.write]
    | bigPlaced c => exact absurd rfl (other c)

/-- **The bounds of a load are taken note of, and the sums are updated.** -/
theorem page_record (formed : l.Formed p) (hd : d < p.numDims) (hb : b < p.numBins)
    (lower upper : Int) :
    (l.record d b lower upper).page = l.page.writes (l.noting d b lower upper) := by
  have exist := formed.lt_size hb
  have row : d < (l.bin b).entries.size := hd.trans_eq (formed.bin b hb).entries.symm
  have entry := l.entry_record exist row lower upper
  have bin := l.bin_record exist d lower upper
  have sum := l.sum_record (b := b) (hd.trans_eq formed.sums.symm) lower upper
  refine Page.ext (funext fun g => ?_) (funext fun k => ?_)
  · cases g with
    | candidates c =>
      by_cases same : c = b <;> simp [Ledger.page, noting, Page.write, bin, same]
    | available => rfl
  · cases k with
    | required e c | total e c | seenLower e c | seenUpper e c =>
      by_cases same : e = d ∧ c = b
      · obtain ⟨rfl, rfl⟩ := same
        simp [Ledger.page, noting, Page.write, entry]
      · simp [Ledger.page, noting, Page.write, entry, same]
    | sumLower e | sumUpper e =>
      by_cases same : e = d
      · subst same
        simp [Ledger.page, noting, Page.write, sum]
      · simp [Ledger.page, noting, Page.write, sum, same]
    | firstSmall c | bigPlaced c =>
      by_cases same : c = b <;> simp [Ledger.page, noting, Page.write, bin, same]

theorem writes_enlargement {page : Page} (b : Nat) (added : List Nat) :
    page.writes (enlargement p b added) =
      { page with
        numbers := fun k =>
          if k = .firstSmall b then (added.getLast?.map fun c => ((c + 1 : Nat) : Int)).getD (page.numbers k)
          else if k = .total 0 b then page.numbers k - p.sizeOf 0 added
          else page.numbers k } := by
  induction added using List.reverseRecOn with
  | nil => simp [enlargement, Packing.sizeOf, Packing.sumOf_eq_sum]
  | append_singleton added c ih =>
    have split : enlargement p b (added ++ [c]) = enlargement p b added ++ enlargement p b [c] :=
      List.flatMap_append
    rw [split, Page.writes_append, ih]
    refine Page.ext rfl (funext fun k => ?_)
    by_cases first : k = .firstSmall b
    · subst first
      simp [enlargement, Page.write]
    · by_cases total : k = .total 0 b
      · subst total
        simp [enlargement, Page.write, Packing.sizeOf, Packing.sumOf_eq_sum]
        ring
      · simp [enlargement, Page.write, first, total]

theorem page_congr {m : Ledger} (bin : ∀ c, m.bin c = l.bin c) (available : m.available = l.available)
    (sums : m.sums = l.sums) : m.page = l.page := by
  refine Page.ext (funext fun g => ?_) (funext fun k => ?_)
  · cases g with
    | candidates c => exact congrArg (fun bin : Bin => bin.candidates.toFinset) (bin c)
    | available => exact congrArg List.toFinset available
  · cases k <;> simp only [Ledger.page, entry, bin, sum, sums]

theorem page_put_self (exist : b < l.bins.size) : (l.put b (l.bin b)).page = l.page :=
  page_congr (fun c => by
    rw [bin_put l exist]
    split
    next same => rw [same]
    next => rfl) rfl rfl

/-- Candidates become big in a bin that holds no big item. -/
theorem page_enlarge (exist : b < l.bins.size) (entries : (l.bin b).entries.size = p.numDims)
    (wf : p.WellFormed) (notPlaced : (l.bin b).bigPlaced = false) (added : List Nat) :
    (l.put b ((l.bin b).enlarge p added)).page = l.page.writes (enlargement p b added) := by
  rw [writes_enlargement]
  have entry (d : Nat) : ((l.bin b).enlarge p added).entry d =
      { (l.bin b).entry d with
        total := ((l.bin b).entry d).total - if d = 0 then p.sizeOf 0 added else 0 } := by
    by_cases inside : d < (l.bin b).entries.size
    · exact Bin.entry_enlarge added inside
    · have outside := Nat.le_of_not_lt inside
      have size : ((l.bin b).enlarge p added).entries.size = (l.bin b).entries.size := Array.size_modify
      have other : d ≠ 0 := (wf.dims.trans_le (entries.symm.trans_le outside)).ne'
      rw [Bin.entry_of_le outside, Bin.entry_of_le (size.trans_le outside), if_neg other, sub_zero]
  rw [page_put exist]
  refine Page.ext ?_ (funext fun k => ?_)
  · exact Function.update_eq_self (.candidates b) l.page.sets
  · cases k with
    | required e c | total e c | seenLower e c | seenUpper e c =>
      by_cases same : b = c
      · subst same
        by_cases zero : e = 0 <;>
          simp [Ledger.page, Ledger.entry, NumberKey.bin?, Bin.number, entry, zero]
      · simp [NumberKey.bin?, Ne.symm same]
    | firstSmall c =>
      by_cases same : b = c
      · subst same
        cases last : added.getLast? <;>
          simp [Ledger.page, NumberKey.bin?, Bin.number, Bin.enlarge, last]
      · simp [NumberKey.bin?, Ne.symm same]
    | bigPlaced c =>
      by_cases same : b = c
      · subst same
        simp [Ledger.page, NumberKey.bin?, Bin.number, Bin.enlarge, notPlaced]
      · simp [NumberKey.bin?, Ne.symm same]
    | sumLower e | sumUpper e => rfl

theorem page_release (exist : b < l.bins.size) :
    (l.put b { l.bin b with bigPlaced := false }).page =
      l.page.writes (if (l.bin b).bigPlaced then [.assign (.bigPlaced b) 0] else []) := by
  cases flag : (l.bin b).bigPlaced with
  | false =>
    have same : { l.bin b with bigPlaced := false } = l.bin b := by rw [← flag]
    rw [same]
    exact page_put_self exist
  | true =>
    rw [page_put exist]
    refine Page.ext ?_ (funext fun k => ?_)
    · exact Function.update_eq_self (.candidates b) l.page.sets
    · cases k with
      | required e c | total e c | seenLower e c | seenUpper e c | firstSmall c | bigPlaced c =>
        by_cases same : b = c
        · subst same
          simp [Ledger.page, Ledger.entry, Bin.entry, NumberKey.bin?, Bin.number, Page.write]
        · simp [NumberKey.bin?, Page.write, Ne.symm same]
      | sumLower e | sumUpper e => simp [NumberKey.bin?, Page.write]

/-- **Candidates become big, one after the other.** -/
theorem page_extend (exist : b < l.bins.size) (entries : (l.bin b).entries.size = p.numDims)
    (wf : p.WellFormed) (free : Int) :
    (l.put b ((l.bin b).extendBig p free).2).page = l.page.writes (extension p free b (l.bin b)) := by
  by_cases held : (l.bin b).bigPlaced = true ∧ (l.bin b).firstBig?.isSome = true
  · rw [extension, if_pos held, Bin.extendBig, if_pos held, page_put_self exist, Page.writes_nil]
  rw [extension, if_neg held, Page.writes_append, ← page_release exist]
  generalize released : ({ l.bin b with bigPlaced := false } : Bin) = bin
  have notPlaced : bin.bigPlaced = false := released ▸ rfl
  have whole : (l.bin b).extendBig p free = bin.extendBig p free := by
    rw [Bin.extendBig, if_neg held, Bin.extendBig, if_neg (by simp [notPlaced]), ← released]
  have anchored : (l.bin b).anchor? = bin.anchor? := released ▸ rfl
  have here : (l.put b bin).bin b = bin := by rw [bin_put l exist, if_pos rfl]
  have again (new : Bin) : (l.put b bin).put b new = l.put b new := by
    simp only [put, Array.setIfInBounds_setIfInBounds]
  rw [whole, anchored]
  cases anchor : bin.anchor? with
  | none =>
    have same : bin.extendBig p free = (0, bin) := by
      rw [Bin.extendBig, if_neg (by simp [notPlaced]), ← released]
      rw [← released] at anchor
      simp only [anchor]
    rw [same, Option.elim_none, Page.writes_nil]
  | some a =>
    have enlarged := page_enlarge (l := l.put b bin) (p := p) (by simpa [put] using exist)
      (by rw [here, ← released]; exact entries) wf (by rw [here, notPlaced]) (bin.added p free a)
    rw [again, here] at enlarged
    rw [Bin.extendBig_of_anchor notPlaced anchor, Option.elim_some, enlarged, ← released]
    rfl

/-! ## What is written when a packing is installed -/

theorem bin_plain (p : Packing) (ds : Domains) (b : Nat) :
    (plain p ds).bin b = if b < p.numBins then plainBin p ds b else .blank := by
  by_cases hb : b < p.numBins <;> simp [bin, plain, Packing.binList, hb]

/-- **The sets are filled with what they hold at first.** -/
theorem mem_insertions {g : SetKey} {i : Nat} :
    (g, i) ∈ insertions p ds ↔ i ∈ (plain p ds).page.sets g := by
  cases g with
  | candidates b =>
    by_cases hb : b < p.numBins
    · simp [insertions, Ledger.page, bin_plain, hb, mem_candidates_plainBin, Packing.itemList,
        Packing.binList, Packing.isPlaced, Domain.contains_eq_true_iff, and_assoc, and_comm]
    · simp [insertions, Ledger.page, bin_plain, hb, Packing.binList, Bin.blank]
  | available => simp [insertions, Ledger.page, plain]

/-- The big items of the bins before the `n`-th are extended. -/
theorem page_extended (wf : p.WellFormed) (ds : Domains) (enabled : p.policy ≠ .disabled) {n : Nat}
    (all : n ≤ p.numBins) : ∃ l : Ledger, l.bins.size = p.numBins ∧
      (∀ c, l.bin c = if c < n then firstBin p ds c else (plain p ds).bin c) ∧
      l.available = (plain p ds).available ∧ l.sums = (plain p ds).sums ∧
      l.page = (plain p ds).page.writes ((List.range n).flatMap fun b =>
        extension p (ds.upper (p.load 0 b) - ((plainBin p ds b).entry 0).required) b
          (plainBin p ds b)) := by
  induction n with
  | zero => exact ⟨plain p ds, by simp [plain, Packing.binList], fun c => rfl, rfl, rfl, rfl⟩
  | succ n ih =>
    obtain ⟨l, size, bin, available, sums, page⟩ := ih (Nat.le_of_succ_le all)
    have exist : n < l.bins.size := size ▸ all
    have here : l.bin n = plainBin p ds n := by
      rw [bin, if_neg (Nat.lt_irrefl n), bin_plain, if_pos (Nat.lt_of_succ_le all)]
    refine ⟨l.put n (firstBin p ds n), by simp [put, size], fun c => ?_, available, sums, ?_⟩
    · rw [bin_put l exist, bin]
      grind
    · rw [List.range_succ, List.flatMap_append, Page.writes_append, ← page, List.flatMap_singleton,
        firstBin, if_neg enabled, ← here]
      exact page_extend exist (here ▸ (accounts_plainBin p ds n 0).entries) wf _

/-- **The big items of all bins are extended.** -/
theorem page_ofDomains (wf : p.WellFormed) (ds : Domains) :
    (ofDomains p ds).page = (plain p ds).page.writes (extensions p ds) := by
  by_cases disabled : p.policy = .disabled
  · have same : firstBin p ds = plainBin p ds := funext fun b => if_pos disabled
    rw [extensions, if_pos disabled, Page.writes_nil, ofDomains, same]
    rfl
  obtain ⟨l, -, bin, available, sums, page⟩ := page_extended wf ds disabled (Nat.le_refl _)
  rw [extensions, if_neg disabled]
  refine (page_congr (m := ofDomains p ds) (l := l) (fun c => ?_) available.symm sums.symm).trans page
  rw [bin, bin_plain]
  by_cases inside : c < p.numBins
  · rw [if_pos inside, bin_ofDomains inside]
  · rw [if_neg inside, if_neg inside]
    simp [Ledger.bin, ofDomains, Packing.binList, inside]

end Ledger

/-! ## The writes are to the sets and integers of the packing -/

namespace Packing

variable {p : Packing} {b d : Nat}

theorem mem_setKeys_candidates : .candidates b ∈ p.setKeys ↔ b < p.numBins := by
  simp [setKeys, binList]

theorem mem_setKeys_available : .available ∈ p.setKeys := by simp [setKeys]

theorem mem_numberKeys {k : NumberKey} : k ∈ p.numberKeys ↔
    match k with
    | .required d b | .total d b | .seenLower d b | .seenUpper d b => d < p.numDims ∧ b < p.numBins
    | .sumLower d | .sumUpper d => d < p.numDims
    | .firstSmall b | .bigPlaced b => p.policy ≠ .disabled ∧ b < p.numBins := by
  by_cases disabled : p.policy = .disabled <;> cases k <;>
    simp [numberKeys, matrix, dimList, binList, disabled]

end Packing

namespace Ledger

variable {p : Packing} {l : Ledger} {ds : Domains} {b i d : Nat}

theorem within_leaving (hb : b < p.numBins) {flag : Bool} (enabled : flag = true → p.policy ≠ .disabled)
    (rest : Bin) : ∀ w ∈ leaving b flag rest, w.Within p := by
  intro w member
  rcases List.mem_append.1 member with settled | gone
  · by_cases settles : (flag && rest.firstBig?.isNone) = true
    · rw [if_pos settles] at settled
      obtain rfl := List.mem_singleton.1 settled
      exact Packing.mem_numberKeys.2 ⟨enabled (Bool.and_eq_true_iff.1 settles).1, hb⟩
    · rw [if_neg settles] at settled
      cases settled
  · split at gone
    · obtain rfl := List.mem_singleton.1 gone
      exact Packing.mem_setKeys_available
    · cases gone

theorem within_withdrawal (formed : l.Formed p) (hb : b < p.numBins) :
    ∀ w ∈ l.withdrawal p b i, w.Within p := by
  intro w member
  rcases List.mem_append.1 member with totals | later
  · obtain ⟨d, inside, rfl⟩ := List.mem_map.1 totals
    exact Packing.mem_numberKeys.2 ⟨List.mem_range.1 inside, hb⟩
  · rcases List.mem_cons.1 later with rfl | last
    · exact Packing.mem_setKeys_candidates.2 hb
    · exact within_leaving hb (formed.bin b hb).enabled.1 _ w last

theorem within_placement (formed : l.Formed p) (wf : p.WellFormed) (hb : b < p.numBins) :
    ∀ w ∈ l.placement p b i, w.Within p := by
  obtain ⟨placed, big⟩ := (formed.bin b hb).enabled
  intro w member
  rcases List.mem_append.1 member with before | last
  · rcases List.mem_append.1 before with first | second
    · rcases List.mem_cons.1 first with rfl | required
      · exact Packing.mem_setKeys_candidates.2 hb
      · obtain ⟨d, inside, rfl⟩ := List.mem_map.1 required
        exact Packing.mem_numberKeys.2 ⟨List.mem_range.1 inside, hb⟩
    · rcases List.mem_cons.1 second with rfl | flag
      · exact Packing.mem_numberKeys.2 ⟨wf.dims, hb⟩
      · split at flag
        next isBig =>
          obtain rfl := List.mem_singleton.1 flag
          exact Packing.mem_numberKeys.2 ⟨big i isBig, hb⟩
        next => cases flag
  · exact within_leaving hb (fun flag => (Bool.or_eq_true_iff.1 flag).elim placed (big i)) _ w last

theorem within_noting (hd : d < p.numDims) (hb : b < p.numBins) (lower upper : Int) :
    ∀ w ∈ l.noting d b lower upper, w.Within p := by
  have inside : ∀ w ∈ l.noting d b lower upper, w.Within p ↔ True := by
    simp [noting, Write.Within, Packing.mem_numberKeys, hd, hb]
  exact fun w member => (inside w member).2 trivial

theorem within_extension (wf : p.WellFormed) (enabled : p.policy ≠ .disabled) (hb : b < p.numBins)
    (free : Int) (bin : Bin) : ∀ w ∈ extension p free b bin, w.Within p := by
  intro w member
  unfold extension at member
  split at member
  · cases member
  rcases List.mem_append.1 member with flag | more
  · split at flag
    · obtain rfl := List.mem_singleton.1 flag
      exact Packing.mem_numberKeys.2 ⟨enabled, hb⟩
    · cases flag
  · cases anchor : bin.anchor? with
    | none =>
      rw [anchor] at more
      cases more
    | some a =>
      rw [anchor] at more
      obtain ⟨c, -, either⟩ := List.mem_flatMap.1 more
      rcases List.mem_cons.1 either with rfl | other
      · exact Packing.mem_numberKeys.2 ⟨enabled, hb⟩
      · obtain rfl := List.mem_singleton.1 other
        exact Packing.mem_numberKeys.2 ⟨wf.dims, hb⟩

theorem within_insertions {g : SetKey} {i : Nat} (member : (g, i) ∈ insertions p ds) :
    g ∈ p.setKeys ∧ i < p.capacity g := by
  rcases List.mem_append.1 member with candidate | available
  · obtain ⟨i, item, bins⟩ := List.mem_flatMap.1 candidate
    obtain ⟨b, bin, same⟩ := List.mem_map.1 bins
    cases same
    exact ⟨Packing.mem_setKeys_candidates.2 (List.mem_range.1 (List.mem_of_mem_filter bin)),
      List.mem_range.1 (List.mem_of_mem_filter item)⟩
  · obtain ⟨b, bin, same⟩ := List.mem_map.1 available
    cases same
    exact ⟨Packing.mem_setKeys_available, List.mem_range.1 (List.mem_of_mem_filter bin)⟩

theorem within_extensions (wf : p.WellFormed) (ds : Domains) : ∀ w ∈ extensions p ds, w.Within p := by
  intro w member
  unfold extensions at member
  split at member
  · cases member
  next enabled =>
    obtain ⟨b, bin, extends'⟩ := List.mem_flatMap.1 member
    exact within_extension wf enabled (List.mem_range.1 bin) _ _ w extends'

end Ledger

end Stowage

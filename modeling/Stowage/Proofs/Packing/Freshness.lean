import Stowage.Proofs.Packing.Closed
import Stowage.Proofs.Packing.Extending
import Stowage.Proofs.Packing.Steps
import Stowage.Proofs.Packing.Variables

/-!
# Big items that are extended in time

Where big items are extended, a bin is marked whenever its free space shrinks or a candidate leaves it.
So a bin that is not marked has its big items extended, unless a big item is placed in it.  This needs
the variables of the packing to be distinct: otherwise a load can shrink when another is sunk.

* `Desk.Fresh` — every bin is marked, or has its big items extended.
* `Desk.Step.fresh` — every step keeps it.
* `Desk.Heeds` — what holds between two calls, when others narrow the domains.
* `Ledger.fresh_ofDomains` — the ledger with which a packing is installed has it.
-/

set_option autoImplicit false

namespace Stowage

namespace Desk

/-- The big items of bin `b` are extended, or will be, or a big item is placed in it. -/
def FreshAt (p : Packing) (desk : Desk) (b : Nat) : Prop :=
  b ∈ desk.agenda.marked ∨ (desk.ledger.bin b).bigPlaced = true ∨
    (desk.ledger.bin b).Extended p (p.freeSpace desk.ledger desk.domains 0 b)

/-- The big items of all bins are extended, or will be. -/
def Fresh (p : Packing) (desk : Desk) : Prop := ∀ b < p.numBins, desk.FreshAt p b

variable {p : Packing} {s t : Desk} {q : Predicate} {bin? : Option Nat} {b c : Nat}

/-! ## Marks -/

theorem mem_mark {a : Agenda} : c ∈ (a.mark b).marked ↔ c = b ∨ c ∈ a.marked := by
  unfold Agenda.mark
  split
  · rename_i present
    have member : b ∈ a.marked := by simpa using present
    exact ⟨.inr, fun h => h.elim (fun same => same ▸ member) id⟩
  · exact List.mem_cons

theorem mem_markBin_of_mem {a : Agenda} (h : c ∈ a.marked) : c ∈ (p.markBin b a).marked := by
  unfold Packing.markBin
  split
  · exact mem_mark.2 (.inr h)
  · exact h

theorem mem_markBin_self (dynamic : p.policy = .dynamic) (b : Nat) (a : Agenda) :
    b ∈ (p.markBin b a).marked := by
  rw [Packing.markBin, if_pos dynamic]
  exact mem_mark.2 (.inl rfl)

/-! ## What freshness depends on -/

/-- Of a bin, the candidates and the big ones among them matter, and its free space. -/
theorem FreshAt.congr (h : s.FreshAt p b)
    (marks : b ∈ s.agenda.marked → b ∈ t.agenda.marked)
    (candidates : (t.ledger.bin b).candidates = (s.ledger.bin b).candidates)
    (firstSmall : (t.ledger.bin b).firstSmall = (s.ledger.bin b).firstSmall)
    (bigPlaced : (t.ledger.bin b).bigPlaced = (s.ledger.bin b).bigPlaced)
    (free : p.freeSpace t.ledger t.domains 0 b = p.freeSpace s.ledger s.domains 0 b) :
    t.FreshAt p b := by
  rcases h with marked | placed | extended
  · exact .inl (marks marked)
  · exact .inr (.inl (bigPlaced.trans placed))
  · refine .inr (.inr ?_)
    rw [free]
    exact extended.congr candidates firstSmall

theorem FreshAt.of_bin_eq (h : s.FreshAt p b)
    (marks : b ∈ s.agenda.marked → b ∈ t.agenda.marked)
    (bin : t.ledger.bin b = s.ledger.bin b) (domains : t.domains = s.domains) : t.FreshAt p b := by
  refine h.congr marks (by rw [bin]) (by rw [bin]) (by rw [bin]) ?_
  rw [Packing.freeSpace, Packing.freeSpace, entry_eq_of_bin_eq bin, domains]

/-- **A rule that does not mark a bin leaves the upper bound of its load.** -/
theorem Rule.upper_eq (rule : Rule p s q bin?) (wf : p.WellFormed) (dynamic : p.policy = .dynamic)
    (distinct : p.vars.Nodup) (valid : s.Valid p) {ds : Domains}
    (narrowed : Domains.NarrowedBy q s.domains ds) (hb : b < p.numBins) (other : bin? ≠ some b) :
    ds.upper (p.load 0 b) = s.domains.upper (p.load 0 b) := by
  have single : p.numDims = 1 := wf.single.resolve_right (by rw [dynamic]; decide)
  have dims : 0 < p.numDims := wf.dims
  -- it is enough that the upper bound satisfies the predicate
  suffices keeps : p.load 0 b = q.var → q.holds (s.domains.upper (p.load 0 b)) = true by
    have stays := (narrowed.members (p.load 0 b) _).2 ⟨(valid.healthy _).upper_mem, keeps⟩
    exact le_antisymm (narrowed.narrows.upper_le _) (Domain.le_upper_of_mem stays)
  intro same
  cases rule with
  | @raise d c bound hd hc le =>
    have least := (narrowed.members (p.load 0 b) _).1 (narrowed.narrows.healthy _).lower_mem
    have low : bound ≤ (ds.domain (p.load 0 b)).lower := of_decide_eq_true (least.2 same)
    have high := Domain.le_upper_of_mem least.1
    exact decide_eq_true (low.trans high)
  | @sink d c bound hd hc le =>
    obtain rfl : d = 0 := by omega
    obtain ⟨-, rfl⟩ := Packing.load_inj wf.toShaped distinct dims hb dims hc same
    exact absurd rfl other
  | @confineLow i hi => exact absurd same.symm (Packing.item_ne_load wf.toShaped distinct hi dims hb)
  | @confineHigh i hi => exact absurd same.symm (Packing.item_ne_load wf.toShaped distinct hi dims hb)
  | @exclude c i hc hi full =>
    have bound := (valid.tracks.accounts c hc).bounded i hi
    exact absurd same.symm (Packing.item_ne_load wf.toShaped distinct bound dims hb)
  | @force c i hc hi needed =>
    have bound := (valid.tracks.accounts c hc).bounded i hi
    exact absurd same.symm (Packing.item_ne_load wf.toShaped distinct bound dims hb)

/-! ## Steps -/

theorem FreshAt.update (h : s.FreshAt p c) (dynamic : p.policy = .dynamic)
    (size : b < s.ledger.bins.size) (new : Bin) (ws : List Write) :
    FreshAt p (enter p (s.ledger.update b new) ws { s with agenda := p.markBin b s.agenda }) c := by
  by_cases same : c = b
  · subst same
    exact .inl (mem_markBin_self dynamic c s.agenda)
  · refine h.of_bin_eq mem_markBin_of_mem ?_ rfl
    rw [ledger_enter, Ledger.bin_update, Ledger.bin_put _ size, if_neg same]

/-- The bounds of a load are recorded, which has nothing to do with the big items. -/
theorem FreshAt.record {d : Nat} {lower upper : Int} (h : s.FreshAt p c)
    (size : b < s.ledger.bins.size) (entries : d < (s.ledger.bin b).entries.size) (ws : List Write) :
    FreshAt p (s.enter p (s.ledger.record d b lower upper) ws) c := by
  obtain ⟨entries', bin⟩ : ∃ entries', (s.ledger.record d b lower upper).bin c =
      { s.ledger.bin c with entries := entries' } := by
    rw [Ledger.bin_record s.ledger size]
    split
    · rename_i same
      exact ⟨_, by rw [same]⟩
    · exact ⟨_, rfl⟩
  refine h.congr id (by rw [ledger_enter, bin]) (by rw [ledger_enter, bin]) (by rw [ledger_enter, bin]) ?_
  simp only [Packing.freeSpace, ledger_enter, domains_enter, Ledger.entry_record _ size entries]
  split
  · rename_i same
    rw [same.1, same.2]
  · rfl

theorem freshAt_extended (valid : s.Valid p) (wf : p.WellFormed) (hb : b < p.numBins)
    (agenda : Agenda) : FreshAt p { p.extended s b with agenda := agenda } b := by
  have accounts := valid.tracks.accounts b hb
  have size : b < s.ledger.bins.size := valid.tracks.bins.symm ▸ hb
  have bin : (p.extended s b).ledger.bin b =
      ((s.ledger.bin b).extendBig p (p.freeSpace s.ledger s.domains 0 b)).2 := by
    rw [Packing.ledger_extended, Ledger.bin_put _ size, if_pos rfl]
  have free : p.freeSpace (p.extended s b).ledger s.domains 0 b =
      p.freeSpace s.ledger s.domains 0 b := by
    rw [Packing.freeSpace, Packing.freeSpace, Ledger.entry, bin, accounts.entry_extendBig _ wf.dims]
    rfl
  cases flag : (s.ledger.bin b).bigPlaced with
  | true =>
    -- while a big item is placed, the extension changes nothing
    refine .inr (.inl ?_)
    show ((p.extended s b).ledger.bin b).bigPlaced = true
    rcases Bin.extendBig_eq accounts (p.freeSpace s.ledger s.domains 0 b) with same | ⟨_, notPlaced, -⟩
    · rw [bin, same]
      exact flag
    · rw [flag] at notPlaced
      cases notPlaced
  | false =>
    refine .inr (.inr ?_)
    show ((p.extended s b).ledger.bin b).Extended p
      (p.freeSpace (p.extended s b).ledger s.domains 0 b)
    rw [free, bin]
    exact Bin.extended_extendBig accounts wf _ flag

/-- **Every step keeps the big items extended in time.** -/
theorem Step.fresh (step : Step p s t) (wf : p.WellFormed) (dynamic : p.policy = .dynamic)
    (distinct : p.vars.Nodup) (valid : s.Valid p) (fresh : s.Fresh p) : t.Fresh p := by
  intro c hc
  have before := fresh c hc
  have size : ∀ b < p.numBins, b < s.ledger.bins.size := fun b hb => by
    rw [valid.tracks.bins]
    exact hb
  cases step with
  | @narrow q bin? ds rule narrowed =>
    by_cases marked : bin? = some c
    · subst marked
      exact .inl (mem_markBin_self dynamic c s.agenda)
    · have upper := rule.upper_eq wf dynamic distinct valid narrowed hc marked
      refine before.congr (fun member => ?_) rfl rfl rfl ?_
      · cases bin? with
        | none => exact member
        | some b => exact mem_markBin_of_mem member
      · rw [Packing.freeSpace, upper]
        rfl
  | @withdraw b i hb hi lost => exact before.update dynamic (size b hb) _ _
  | @place b i new hb hi fixed placed => exact before.update dynamic (size b hb) _ _
  | @extend b hb marked =>
    by_cases same : c = b
    · subst same
      exact freshAt_extended valid wf hc _
    · refine before.of_bin_eq (fun member => ?_) ?_ rfl
      · exact (List.mem_erase_of_ne same).2 member
      · show (p.extended s b).ledger.bin c = _
        rw [Packing.ledger_extended, Ledger.bin_put _ (size b hb), if_neg same]
  | @record d b hd hb =>
    exact before.record (size b hb) (hd.trans_eq (valid.tracks.accounts b hb).entries.symm) _
  | mark b => exact before.of_bin_eq mem_markBin_of_mem rfl rfl
  | @plan a marked => exact before.of_bin_eq (fun member => marked ▸ member) rfl rfl
  | count counters => exact before.of_bin_eq id rfl rfl

/-! ## Between two calls -/

/-- The big items of all bins are extended, or will be, once the packing has heard of the loads for
which `news` is left. -/
def Heeds (p : Packing) (desk : Desk) (news : Nat → Prop) : Prop :=
  ∀ b < p.numBins, desk.FreshAt p b ∨
    (desk.ledger.entry 0 b).seenUpper ≠ desk.domains.upper (p.load 0 b) ∧ news b

theorem Fresh.heeds (fresh : s.Fresh p) (news : Nat → Prop) : s.Heeds p news :=
  fun b hb => .inl (fresh b hb)

/-- When no news is left, the packing is up to date. -/
theorem Heeds.fresh {news : Nat → Prop} (heeds : s.Heeds p news) (none : ∀ b, ¬news b) :
    s.Fresh p := fun b hb => (heeds b hb).resolve_right fun other => none b other.2

/-- **Others may narrow the domains**, as long as news of the loads is left. -/
theorem Heeds.narrow {news more : Nat → Prop} (heeds : s.Heeds p news) (valid : s.Valid p)
    (dims : 0 < p.numDims) (ledger : t.ledger = s.ledger) (agenda : t.agenda = s.agenda)
    (narrower : ∀ b < p.numBins, t.domains.upper (p.load 0 b) ≤ s.domains.upper (p.load 0 b))
    (imp : ∀ b < p.numBins, news b → more b)
    (tell : ∀ b < p.numBins, t.domains.upper (p.load 0 b) ≠ s.domains.upper (p.load 0 b) → more b) :
    t.Heeds p more := by
  intro b hb
  have seen := valid.tracks.seenUpper 0 dims b hb
  have less := narrower b hb
  rw [ledger]
  by_cases same : t.domains.upper (p.load 0 b) = s.domains.upper (p.load 0 b)
  · rcases heeds b hb with fresh | ⟨moved, news⟩
    · refine .inl (fresh.congr (by rw [agenda]; exact id) (by rw [ledger]) (by rw [ledger])
        (by rw [ledger]) ?_)
      rw [Packing.freeSpace, Packing.freeSpace, ledger, same]
    · exact .inr ⟨by omega, imp b hb news⟩
  · exact .inr ⟨by omega, tell b hb same⟩

/-- Marks of bins that are not available do not matter. -/
theorem Fresh.unmark (fresh : s.Fresh p) (valid : s.Valid p)
    (unmarked : ∀ b ∈ s.ledger.available, b ∉ s.agenda.marked) {ds : Domains} {cells : Cells}
    {layout : Layout} {a : Agenda} {counters : Counters}
    (upper : ∀ b < p.numBins, ds.upper (p.load 0 b) = s.domains.upper (p.load 0 b)) :
    Fresh p ⟨ds, cells, layout, s.ledger, a, counters⟩ := by
  intro b hb
  rcases fresh b hb with marked | placed | extended
  · refine .inr (.inr fun i anchor c member => ?_)
    have available := (valid.tracks.available b).2 ⟨hb, List.ne_nil_of_mem member⟩
    exact absurd marked (unmarked b available)
  · exact .inr (.inl placed)
  · refine .inr (.inr ?_)
    rw [Packing.freeSpace]
    simp only [upper b hb]
    exact extended

/-- **In closed domains no candidate can become big any more.** -/
theorem Fresh.extended (fresh : s.Fresh p) (wf : p.WellFormed) (unmarked : s.agenda.marked = [])
    (closed : p.Closed s.domains s.ledger) {b : Nat} (hb : b < p.numBins) :
    (s.ledger.bin b).Extended p (p.freeSpace s.ledger s.domains 0 b) := by
  rcases fresh b hb with marked | placed | extended
  · rw [unmarked] at marked
    cases marked
  · rw [closed.bigPlaced_eq_false wf hb] at placed
    cases placed
  · exact extended

end Desk

/-! ## Installation -/

namespace Ledger

variable {p : Packing}

/-- When a packing is installed, its big items are extended. -/
theorem extended_ofDomains (wf : p.WellFormed) (enabled : p.policy ≠ .disabled) {b : Nat}
    (hb : b < p.numBins) (ds : Domains) :
    ((ofDomains p ds).bin b).Extended p (p.freeSpace (ofDomains p ds) ds 0 b) := by
  have accounts := accounts_plainBin p ds b 0
  have bin : (ofDomains p ds).bin b = ((plainBin p ds b).extendBig p
      (ds.upper (p.load 0 b) - ((plainBin p ds b).entry 0).required)).2 := by
    rw [bin_ofDomains hb, firstBin, if_neg enabled]
  rw [Packing.freeSpace, entry, bin, accounts.entry_extendBig _ wf.dims]
  exact Bin.extended_extendBig accounts wf _ rfl

/-- **The ledger with which a packing is installed has its big items extended.** -/
theorem fresh_ofDomains (wf : p.WellFormed) (dynamic : p.policy = .dynamic) (ds : Domains)
    (cells : Cells) (layout : Layout) (a : Agenda) (counters : Counters) :
    Desk.Fresh p ⟨ds, cells, layout, ofDomains p ds, a, counters⟩ :=
  fun _ hb => .inr (.inr (extended_ofDomains wf (by rw [dynamic]; decide) hb ds))

end Ledger

namespace Packing

variable {p : Packing} {s t : Desk}

/-- **A call keeps the big items extended in time.** -/
theorem call_fresh (wf : p.WellFormed) (dynamic : p.policy = .dynamic) (distinct : p.vars.Nodup)
    (valid : s.Valid p) (fresh : s.Fresh p) (result : p.call s = .ok () t) : t.Fresh p := by
  have path := ((call_permits wf valid).ok result).2.path
  exact (Desk.Path.preserves wf (fun u v validU freshU step =>
    step.fresh wf dynamic distinct validU freshU) valid fresh path).2

end Packing

end Stowage

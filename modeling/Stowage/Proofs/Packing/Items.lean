import Stowage.Packing.Bookkeeping
import Stowage.Proofs.Packing.Desk

/-!
# Bringing the ledger in line with an item

* `Desk.moves_replace` — a bin of the ledger is replaced.
* `Packing.assignItem_runs`, `Packing.removeItem_runs` — an item is, or can no longer be, placed in a
  bin.
* `Packing.synchroniseItem_runs` — both, for all bins: the item stays a candidate only where its domain
  allows it to be placed or not.
-/

set_option autoImplicit false

namespace Stowage

namespace Desk

variable {p : Packing} {s t : Desk} {b : Nat}

/-- Operations that tighten loads keep to the contract of those that change the ledger. -/
theorem progress_of_tightening {α : Type} {call : Call Desk α} {Q : α → Desk → Prop}
    (h : (tightening p).Runs call s Q) : (progressing p).Runs call s Q :=
  h.transfer rfl (fun _ _ inv rel post => ⟨inv, rel.toProgress, post⟩) fun _ fail => fail

theorem entry_eq_of_bin_eq {l m : Ledger} {c d : Nat} (h : m.bin c = l.bin c) :
    m.entry d c = l.entry d c := by
  rw [Ledger.entry, Ledger.entry, h]

/-- With fewer candidates, the ledger is in line with whatever it was in line before. -/
theorem isSynchronised_of_sublist {l m : Ledger} {ds : Domains} {i : Nat}
    (fewer : ∀ c, (m.bin c).candidates.Sublist (l.bin c).candidates)
    (h : p.isSynchronised l ds i = true) : p.isSynchronised m ds i = true := by
  simp only [Packing.isSynchronised, List.all_eq_true, Bool.or_eq_true, Bool.not_eq_true'] at h ⊢
  intro c hc
  refine (h c hc).imp (fun out => ?_) id
  rw [Bin.isCandidate_eq_false_iff] at out ⊢
  exact fun member => out ((fewer c).subset member)

/-- **A bin of the ledger is replaced.** -/
theorem moves_replace {new : Bin} {m : Ledger} {a : Agenda} (valid : s.Valid p)
    (fits : s.ledger.Fits p s.domains b new)
    (bin : ∀ c, m.bin c = if c = b then new else s.ledger.bin c)
    (size : m.bins.size = s.ledger.bins.size)
    (started : s.agenda.started = true → a.started = true) (ws : List Write) :
    Moves p s (enter p m ws { s with agenda := a }) := by
  have fewer : ∀ c, (m.bin c).candidates.Sublist (s.ledger.bin c).candidates := by
    intro c
    rw [bin]
    split
    · rename_i same
      exact same ▸ fits.candidates
    · exact .refl _
  refine ⟨.refl valid.healthy, fun _ _ h => h, size, fewer, fun i known => ?_,
    fun d hd c _ known => ?_, started⟩
  · exact known.imp (isSynchronised_of_sublist fewer) id
  · refine known.imp (fun known => ?_) id
    by_cases same : c = b
    · subst same
      have seen := fits.seen d hd
      have entry : m.entry d c = new.entry d := by rw [Ledger.entry, bin, if_pos rfl]
      simpa [Ledger.isRecorded, entry, seen.1, seen.2] using known
    · have entry : m.entry d c = s.ledger.entry d c :=
        entry_eq_of_bin_eq (by rw [bin, if_neg same])
      simpa [Ledger.isRecorded, entry] using known

/-- After a bin was replaced its loads are tightened; the loads of the other bins stay tight. -/
theorem progress_of_replace {new : Bin} {m : Ledger} {a : Agenda} {ws : List Write}
    (moves : Moves p s (enter p m ws { s with agenda := a }))
    (bin : ∀ c, m.bin c = if c = b then new else s.ledger.bin c)
    (frame : a = { s.agenda with marked := a.marked })
    (rel : Tightens p (enter p m ws { s with agenda := a }) t)
    (here : ∀ d < p.numDims, s.TightAt p d b → t.TightAt p d b) : Progress p s t := by
  refine ⟨⟨moves.trans rel.toMoves, fun d hd c hc tight => ?_⟩, ?_⟩
  · by_cases same : c = b
    · subst same
      exact here d hd tight
    · refine rel.tight d hd c hc ?_
      have entry : m.entry d c = s.ledger.entry d c :=
        entry_eq_of_bin_eq (by rw [bin, if_neg same])
      simpa [TightAt, entry] using tight
  · have later := rel.agenda
    rw [later, agenda_enter]
    simp only
    rw [frame]

end Desk

namespace Packing

variable {p : Packing} {s : Desk} {i b : Nat}

/-- **An item that is fixed to a bin is placed in it.** -/
theorem assignItem_runs (wf : p.WellFormed) (valid : s.Valid p) (hb : b < p.numBins)
    (hi : i < p.numItems) (fixed : (s.domains.domain (p.item i)).fixedValue? = some (b : Int)) :
    (Desk.progressing p).Runs (p.assignItem i b) s fun _ t =>
      i ∉ (t.ledger.bin b).candidates := by
  obtain ⟨isFixed, value⟩ := Domain.fixedValue?_eq_some_iff.1 fixed
  refine ensureItem_runs wf valid (ensureBin_runs wf valid ?_ hb) hi
  refine .get_bind (.ite (fun candidate => ?_) fun absent => ?_)
  · have member := Bin.isCandidate_iff.1 candidate
    cases placed : (s.ledger.bin b).place p i with
    | none =>
      refine .conflict ⟨fun a solution admits => ?_, .refl _, id⟩
      refine valid.tracks.place_ne_none wf valid.healthy valid.known solution admits hb member ?_ placed
      rw [← value]
      exact ((valid.healthy _).mem_iff_of_isFixed isFixed).1 (admits _ (valid.known.items i hi))
    | some new =>
      have placement := Bin.placement_of_place placed
      have size : b < s.ledger.bins.size := by rw [valid.tracks.bins]; exact hb
      have inside : (b : Int) ∈ s.domains.domain (p.item i) := value ▸ (valid.healthy _).lower_mem
      have fits := valid.tracks.fits_place wf hb member inside isFixed placement
      have moves := Desk.moves_replace (m := s.ledger.update b new) (a := p.markBin b s.agenda) valid
        fits (Ledger.bin_put s.ledger size new) Array.size_setIfInBounds
        (by rw [Desk.markBin_frame]; exact id) (s.ledger.placement p b i)
      have marks := Desk.markBin_marked b valid.marks valid.dynamic
      have valid' : Desk.Valid p
          (Desk.enter p (s.ledger.update b new) (s.ledger.placement p b i)
            { s with agenda := p.markBin b s.agenda }) :=
        ⟨valid.healthy, valid.known, valid.tracks.update hb fits, marks.1, marks.2⟩
      have tightened := Contract.Runs.forM (C := Desk.tightening p) (I := fun _ => True)
        (K := fun d t => t.TightAt p d b) (l := p.dimList) valid' trivial
        (fun d hd t validT _ _ => (tightenToEntry_runs wf validT (List.mem_range.1 hd) hb).mono
          fun _ _ _ _ tight => ⟨trivial, tight⟩)
        fun d hd t u _ rel tight => rel.tight d (List.mem_range.1 hd) b hb tight
      refine tightened.transfer rfl (fun _ t validT rel ⟨_, tight⟩ => ⟨validT, ?_, ?_⟩)
        fun t fail => moves.refutes fail
      · exact Desk.progress_of_replace moves (Ledger.bin_put s.ledger size new)
          (Desk.markBin_frame p b _) rel fun d hd _ => tight d (List.mem_range.2 hd)
      · rw [rel.sameCandidates, Desk.ledger_enter, Ledger.bin_update, Ledger.bin_put s.ledger size, if_pos rfl,
          placement.candidates]
        exact fun member => ((Bin.mem_without (valid.tracks.accounts b hb).ascending).1 member).2 rfl
  · exact .pure valid fun member => absent (Bin.isCandidate_iff.2 member)

/-- **An item that has lost a bin is removed from its candidates.** -/
theorem removeItem_runs (wf : p.WellFormed) (valid : s.Valid p) (hb : b < p.numBins)
    (hi : i < p.numItems) (lost : (b : Int) ∉ s.domains.domain (p.item i)) :
    (Desk.progressing p).Runs (p.removeItem i b) s fun _ t =>
      i ∉ (t.ledger.bin b).candidates := by
  refine ensureItem_runs wf valid (ensureBin_runs wf valid ?_ hb) hi
  refine .get_bind (.ite (fun candidate => ?_) fun absent => ?_)
  · have member := Bin.isCandidate_iff.1 candidate
    have size : b < s.ledger.bins.size := by rw [valid.tracks.bins]; exact hb
    have accounts := valid.tracks.accounts b hb
    have fits := valid.tracks.fits_withdraw wf hb member lost
    have moves := Desk.moves_replace (m := s.ledger.update b ((s.ledger.bin b).withdraw p i))
      (a := p.markBin b s.agenda) valid fits (Ledger.bin_put s.ledger size _)
      Array.size_setIfInBounds (by rw [Desk.markBin_frame]; exact id) (s.ledger.withdrawal p b i)
    have marks := Desk.markBin_marked b valid.marks valid.dynamic
    have valid' : Desk.Valid p
        (Desk.enter p (s.ledger.update b ((s.ledger.bin b).withdraw p i)) (s.ledger.withdrawal p b i)
          { s with agenda := p.markBin b s.agenda }) :=
      ⟨valid.healthy, valid.known, valid.tracks.update hb fits, marks.1, marks.2⟩
    have sunk := Contract.Runs.forM (C := Desk.tightening p) (I := fun _ => True)
      (K := fun d t => t.domains.upper (p.load d b) ≤ (t.ledger.entry d b).total) (l := p.dimList)
      (f := fun d => do let _ ← p.sinkToTotal d b) valid' trivial
      (fun d hd t validT _ _ => .bind validT (sinkToTotal_runs wf validT (List.mem_range.1 hd) hb)
        fun _ u validU _ post => .pure validU ⟨trivial, post.1⟩)
      fun d _ t u _ rel low => by
        rw [(rel.entries d b).2]
        exact (rel.narrows.upper_le _).trans low
    refine sunk.transfer rfl (fun _ t validT rel ⟨_, low⟩ => ⟨validT, ?_, ?_⟩)
      fun t fail => moves.refutes fail
    · refine Desk.progress_of_replace moves (Ledger.bin_put s.ledger size _)
        (Desk.markBin_frame p b _) rel fun d hd tight => ⟨?_, low d (List.mem_range.2 hd)⟩
      have required : (t.ledger.entry d b).required = (s.ledger.entry d b).required := by
        rw [(rel.entries d b).1, Desk.ledger_enter, Ledger.entry, Ledger.bin_update, Ledger.bin_put s.ledger size,
          if_pos rfl, Bin.entry_withdraw (by rw [accounts.entries]; exact hd)]
        rfl
      rw [required]
      exact tight.1.trans (rel.narrows.le_lower _)
    · rw [rel.sameCandidates, Desk.ledger_enter, Ledger.bin_update, Ledger.bin_put s.ledger size, if_pos rfl]
      exact fun member => ((Bin.mem_without accounts.ascending).1 member).2 rfl
  · exact .pure valid fun member => absent (Bin.isCandidate_iff.2 member)

theorem placement?_eq_some_iff {ds : Domains} : p.placement? ds i = some b ↔
    (ds.domain (p.item i)).fixedValue? = some (b : Int) ∧ b < p.numBins := by
  simp only [placement?, Option.map_eq_some_iff, Option.filter_eq_some_iff, Bool.and_eq_true,
    decide_eq_true_eq]
  constructor
  · rintro ⟨v, ⟨value, low, high⟩, rfl⟩
    rw [value, Int.toNat_of_nonneg low]
    exact ⟨rfl, by omega⟩
  · rintro ⟨value, high⟩
    exact ⟨b, ⟨value, by omega, by omega⟩, by simp⟩

/-- Item `i` is a candidate only of bins that its domain contained, and to none of which it was
fixed. -/
def StaysOnly (p : Packing) (ds : Domains) (desk : Desk) (i : Nat) : Prop :=
  ∀ b < p.numBins, i ∈ (desk.ledger.bin b).candidates →
    (b : Int) ∈ ds.domain (p.item i) ∧ (ds.domain (p.item i)).fixedValue? ≠ some (b : Int)

/-- **The ledger is brought in line with an item.** -/
theorem synchroniseItem_runs (wf : p.WellFormed) (valid : s.Valid p) (hi : i < p.numItems) :
    (Desk.progressing p).Runs (p.synchroniseItem i) s fun _ t => p.StaysOnly s.domains t i := by
  have inside := Contract.Runs.forM (C := Desk.progressing p) (I := fun _ => True)
    (K := fun b t => i ∈ (t.ledger.bin b).candidates → (b : Int) ∈ s.domains.domain (p.item i))
    (l := p.binList)
    (f := fun b => do
      p.ensureBin b
      let desk ← get
      if (desk.ledger.bin b).isCandidate i &&
          !(desk.domains.domain (p.item i)).contains (b : Int) then
        p.removeItem i b)
    valid trivial
    (fun b hb t validT rel _ => by
      have hb' := List.mem_range.1 hb
      refine ensureBin_runs wf validT (.get_bind (.ite (fun both => ?_) fun other => ?_)) hb'
      · simp only [Bool.and_eq_true, Bool.not_eq_true', Domain.contains_eq_false_iff] at both
        exact (removeItem_runs wf validT hb' hi both.2).mono
          fun _ u _ _ gone => ⟨trivial, fun member => absurd member gone⟩
      · refine .pure validT ⟨trivial, fun member => ?_⟩
        simp only [Bin.isCandidate_iff.2 member, Bool.true_and, Bool.not_eq_true', Bool.not_eq_false]
          at other
        exact rel.narrows.subset _ _ other)
    fun b _ t u _ rel here member => here ((rel.candidates b).subset member)
  refine ensureItem_runs wf valid ?_ hi
  refine .bind valid inside fun _ t validT rel ⟨_, stays⟩ => .get_bind ?_
  have contained : ∀ b < p.numBins, i ∈ (t.ledger.bin b).candidates →
      (b : Int) ∈ s.domains.domain (p.item i) := fun b hb => stays b (List.mem_range.2 hb)
  have fixedLater : ∀ b : Nat, (s.domains.domain (p.item i)).fixedValue? = some (b : Int) →
      (t.domains.domain (p.item i)).fixedValue? = some (b : Int) := by
    intro b fixed
    obtain ⟨isFixed, value⟩ := Domain.fixedValue?_eq_some_iff.1 fixed
    have member := rel.narrows.subset _ _ (validT.healthy (p.item i)).lower_mem
    exact Domain.fixedValue?_eq_some_iff.2 ⟨rel.narrows.isFixed valid.healthy isFixed,
      (((valid.healthy _).mem_iff_of_isFixed isFixed).1 member).trans value⟩
  cases placement : p.placement? t.domains i with
  | none =>
    refine .pure validT fun b hb member => ⟨contained b hb member, fun fixed => ?_⟩
    rw [placement?_eq_some_iff.2 ⟨fixedLater b fixed, hb⟩] at placement
    cases placement
  | some c =>
    obtain ⟨fixed, hc⟩ := placement?_eq_some_iff.1 placement
    refine (assignItem_runs wf validT hc hi fixed).mono fun _ u _ relU gone b hb member =>
      ⟨contained b hb ((relU.candidates b).subset member), fun fixedB => ?_⟩
    have same := fixedLater b fixedB
    rw [fixed, Option.some.injEq, Int.ofNat_inj] at same
    subst same
    exact gone member

/-- Afterwards the ledger is in line with the item. -/
theorem knowsItem_of_staysOnly {t : Desk} (rel : Desk.Moves p s t)
    (stays : p.StaysOnly s.domains t i) : t.KnowsItem p i := by
  rcases rel.narrows.changed (p.item i) with same | waits
  · left
    simp only [isSynchronised, List.all_eq_true, Bool.or_eq_true, Bool.and_eq_true,
      Bool.not_eq_true', same]
    intro b hb
    by_cases member : i ∈ (t.ledger.bin b).candidates
    · obtain ⟨contains, open'⟩ := stays b (List.mem_range.1 hb) member
      exact .inr ⟨contains, by simpa using open'⟩
    · exact .inl (Bin.isCandidate_eq_false_iff.2 member)
  · exact .inr waits

end Packing

end Stowage

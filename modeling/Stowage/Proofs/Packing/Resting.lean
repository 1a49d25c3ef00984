import Stowage.Proofs.Packing.Closed
import Stowage.Proofs.Packing.Steps

/-!
# A call ends at rest

A revision repeats its rounds until one of them changes nothing.  That round has applied all rules in
vain: the loads are balanced, and every candidate fits and is not needed.  The visit of a bin may end
early, since the smaller candidates pass when a larger one does.

* `Desk.Balanced`, `Desk.AtRest` — no rule for the loads, and none for the candidates, removes a value.
* `Packing.balance_quiet`, `Packing.visitItems_quiet`, `Packing.fitRound_quiet` — what has been checked
  when nothing changed.
* `Packing.call_atRest` — a call ends at rest.
* `Desk.Rests` — what others leave of that.
* `Desk.AtRest.closed` — the domains are closed when the ledger agrees with them.
-/

set_option autoImplicit false

namespace Stowage

namespace Packing

/-- Item `i` passes both tests for bin `b`. -/
def Passes (p : Packing) (desk : Desk) (b i : Nat) : Prop :=
  p.fits desk b i = true ∧ p.isNeeded desk b i = false

end Packing

namespace Desk

/-- Bin `b` has to take no more because of the others, and to leave no more to them, by the sums of the
bounds last seen. -/
structure BalancedAt (p : Packing) (desk : Desk) (d b : Nat) : Prop where
  least : p.totalSize d - ((desk.ledger.sum d).upper - desk.domains.upper (p.load d b)) ≤
    desk.domains.lower (p.load d b)
  greatest : desk.domains.upper (p.load d b) ≤
    p.totalSize d - ((desk.ledger.sum d).lower - desk.domains.lower (p.load d b))

/-- No rule for the loads removes a value. -/
structure Balanced (p : Packing) (desk : Desk) : Prop where
  /-- The loads can add up to the size of the items. -/
  enclosed : ∀ d < p.numDims,
    (desk.ledger.sum d).lower ≤ p.totalSize d ∧ p.totalSize d ≤ (desk.ledger.sum d).upper
  balanced : ∀ b ∈ desk.ledger.available, ∀ d < p.numDims, desk.BalancedAt p d b

/-- No rule for the loads and the candidates removes a value. -/
structure AtRest (p : Packing) (desk : Desk) : Prop extends Balanced p desk where
  passes : ∀ b ∈ desk.ledger.available, ∀ i ∈ (desk.ledger.bin b).candidates, p.Passes desk b i

end Desk

namespace Packing

variable {p : Packing} {s t : Desk} {d b i j : Nat}

theorem passes_iff : p.Passes s b i ↔
    (∀ d < p.numDims, (s.ledger.entry d b).required + p.size d i ≤ s.domains.upper (p.load d b)) ∧
      ∃ d < p.numDims, s.domains.lower (p.load d b) ≤
        (s.ledger.entry d b).total + (s.ledger.bin b).removalDelta p d i := by
  simp [Passes, fits, isNeeded, dimList]

/-- The tests read one bin, and the bounds of its loads. -/
theorem Passes.congr (h : p.Passes s b i) (bin : t.ledger.bin b = s.ledger.bin b)
    (lower : ∀ d < p.numDims, t.domains.lower (p.load d b) = s.domains.lower (p.load d b))
    (upper : ∀ d < p.numDims, t.domains.upper (p.load d b) = s.domains.upper (p.load d b)) :
    p.Passes t b i := by
  obtain ⟨fits, d, hd, free⟩ := passes_iff.1 h
  refine passes_iff.2 ⟨fun e he => ?_, d, hd, ?_⟩
  · rw [upper e he, Desk.entry_eq_of_bin_eq bin]
    exact fits e he
  · rw [lower d hd, Desk.entry_eq_of_bin_eq bin, bin]
    exact free

/-- **With a single dimension, the smaller candidates pass when one does that is not big.** -/
theorem Passes.of_le (h : p.Passes s b i) (wf : p.WellFormed) (single : p.numDims = 1)
    (small : (s.ledger.bin b).isBig i = false) (before : i ≤ j) (hj : j < p.numItems) :
    p.Passes s b j := by
  obtain ⟨fits, d, hd, free⟩ := passes_iff.1 h
  obtain rfl : d = 0 := by omega
  have smaller : p.size 0 j ≤ p.size 0 i := wf.antitone i j before hj
  have smallJ : (s.ledger.bin b).isBig j = false := by
    simp only [Bin.isBig, decide_eq_false_iff_not] at small ⊢
    omega
  have delta : ∀ k, (s.ledger.bin b).isBig k = false →
      (s.ledger.bin b).removalDelta p 0 k = -p.size 0 k := by
    intro k hk
    simp [Bin.removalDelta, hk]
  rw [delta i small] at free
  refine passes_iff.2 ⟨fun e he => ?_, 0, hd, ?_⟩
  · obtain rfl : e = 0 := by omega
    have := fits 0 hd
    omega
  · rw [delta j smallJ]
    omega

/-! ## Loads -/

section

variable {ds after : Domains} {x : Var} {bound : Int}

theorem raise_quiet (h : Domains.raise x bound ds = .ok false after) :
    after = ds ∧ bound ≤ ds.lower x := by
  replace h := (Call.ensure_bind_eq_ok_iff.1 h).2
  rw [Call.get_bind_eq_ok_iff] at h
  split at h
  · rename_i holds
    exact ⟨(Call.pure_eq_ok_iff.1 h).2, holds⟩
  · split at h
    · cases h
    · obtain ⟨_, _, -, last⟩ := Call.bind_eq_ok_iff.1 h
      cases (Call.pure_eq_ok_iff.1 last).1

theorem sink_quiet (h : Domains.sink x bound ds = .ok false after) :
    after = ds ∧ ds.upper x ≤ bound := by
  replace h := (Call.ensure_bind_eq_ok_iff.1 h).2
  rw [Call.get_bind_eq_ok_iff] at h
  split at h
  · rename_i holds
    exact ⟨(Call.pure_eq_ok_iff.1 h).2, holds⟩
  · split at h
    · cases h
    · obtain ⟨_, _, -, last⟩ := Call.bind_eq_ok_iff.1 h
      cases (Call.pure_eq_ok_iff.1 last).1

theorem onDomains_eq_ok {α : Type} {call : Call Domains α} {a : α}
    (h : Desk.onDomains call s = .ok a t) :
    ∃ ds, call s.domains = .ok a ds ∧ t = { s with domains := ds } := by
  simp only [Desk.onDomains, Call.focus] at h
  split at h
  · rename_i a ds result
    cases h
    exact ⟨ds, result, rfl⟩
  · cases h

end

section

variable {bound : Int}

theorem raiseLoad_quiet (h : p.raiseLoad d b bound s = .ok false t) :
    t = s ∧ bound ≤ s.domains.lower (p.load d b) := by
  obtain ⟨changed, u, raised, rest⟩ :=
    Call.bind_eq_ok_iff.1 (Call.ensure_bind_eq_ok_iff.1 h).2
  obtain ⟨ds, narrowed, rfl⟩ := onDomains_eq_ok raised
  cases changed with
  | true =>
    obtain ⟨_, _, -, last⟩ := Call.bind_eq_ok_iff.1 rest
    cases (Call.pure_eq_ok_iff.1 last).1
  | false =>
    obtain ⟨rfl, holds⟩ := raise_quiet narrowed
    exact ⟨(Call.pure_eq_ok_iff.1 rest).2, holds⟩

theorem sinkLoad_quiet (h : p.sinkLoad d b bound s = .ok false t) :
    t = s ∧ s.domains.upper (p.load d b) ≤ bound := by
  obtain ⟨changed, u, sunk, rest⟩ := Call.bind_eq_ok_iff.1 (Call.ensure_bind_eq_ok_iff.1 h).2
  obtain ⟨ds, narrowed, rfl⟩ := onDomains_eq_ok sunk
  cases changed with
  | true =>
    obtain ⟨_, _, -, rest⟩ := Call.bind_eq_ok_iff.1 rest
    by_cases zero : d = 0
    · rw [if_pos zero] at rest
      obtain ⟨_, _, -, last⟩ := Call.bind_eq_ok_iff.1 rest
      cases (Call.pure_eq_ok_iff.1 last).1
    · rw [if_neg zero] at rest
      cases (Call.pure_eq_ok_iff.1 rest).1
  | false =>
    obtain ⟨rfl, holds⟩ := sink_quiet narrowed
    exact ⟨(Call.pure_eq_ok_iff.1 rest).2, holds⟩

end

theorem balanceLoad_quiet (h : p.balanceLoad b d s = .ok false t) :
    t = s ∧ s.BalancedAt p d b := by
  rw [balanceLoad, Call.get_bind_eq_ok_iff] at h
  obtain ⟨raised, u, first, rest⟩ := Call.bind_eq_ok_iff.1 h
  rw [Call.get_bind_eq_ok_iff] at rest
  obtain ⟨sunk, v, second, last⟩ := Call.bind_eq_ok_iff.1 rest
  obtain ⟨quiet, rfl⟩ := Call.pure_eq_ok_iff.1 last
  obtain ⟨rfl, rfl⟩ := Bool.or_eq_false_iff.1 quiet.symm
  obtain ⟨rfl, least⟩ := raiseLoad_quiet first
  obtain ⟨rfl, greatest⟩ := sinkLoad_quiet second
  exact ⟨rfl, (le_max_right _ _).trans least, greatest.trans (min_le_right _ _)⟩

theorem checkSum_quiet (h : p.checkSum d s = .ok ⟨⟩ t) :
    t = s ∧ (s.ledger.sum d).lower ≤ p.totalSize d ∧ p.totalSize d ≤ (s.ledger.sum d).upper := by
  replace h := (Call.ensure_bind_eq_ok_iff.1 h).2
  rw [Call.get_bind_eq_ok_iff] at h
  split at h
  · exact absurd h Call.conflict_ne_ok
  · split at h
    · exact absurd h Call.conflict_ne_ok
    · exact ⟨(Call.pure_eq_ok_iff.1 h).2, by omega, by omega⟩

theorem balanceRound_quiet (nodup : s.ledger.available.Nodup)
    (h : p.balanceRound s = .ok false t) : t = s ∧ s.Balanced p := by
  obtain ⟨_, u, checks, rest⟩ := Call.bind_eq_ok_iff.1 h
  obtain ⟨rfl, enclosed⟩ := Call.forM_quiet (fun d _ v result => checkSum_quiet result) checks
  rw [Call.get_bind_eq_ok_iff] at rest
  have inner : ∀ b v, Call.sweep (p.balanceLoad b) p.dimList u = .ok false v →
      v = u ∧ ∀ d ∈ p.dimList, u.BalancedAt p d b := by
    intro b v swept
    refine (Call.sweep_quiet (I := fun w => w = u) (N := fun _ _ => True)
      (K := fun d _ => u.BalancedAt p d b) List.nodup_range rfl (fun _ => trivial)
      (fun _ _ _ _ _ => trivial) (fun d hd w x same _ result => ?_) swept).imp_right (·.2)
    subst same
    obtain ⟨same, balanced⟩ := balanceLoad_quiet result
    exact ⟨same, trivial, balanced, fun _ _ _ kept => kept⟩
  obtain ⟨same, -, balanced⟩ := Call.sweep_quiet (I := fun w => w = u) (N := fun _ _ => True)
    (K := fun b _ => ∀ d ∈ p.dimList, u.BalancedAt p d b) nodup rfl (fun _ => trivial)
    (fun _ _ _ _ _ => trivial)
    (fun b hb w x same _ result => by
      subst same
      obtain ⟨same, balanced⟩ := inner b x result
      exact ⟨same, trivial, balanced, fun _ _ _ kept => kept⟩) rest
  exact ⟨same, fun d hd => enclosed d (List.mem_range.2 hd),
    fun b hb d hd => balanced b hb d (List.mem_range.2 hd)⟩

section

variable (wf : p.WellFormed) (valid : s.Valid p)

include wf valid

/-- **Balancing ends with balanced loads.** -/
theorem balance_quiet (h : p.balance s = .ok () t) : t.Valid p ∧ t.Balanced p := by
  rw [balance, Call.get_bind_eq_ok_iff] at h
  obtain ⟨u, validU, last⟩ := Call.untilStable_eq_ok (I := Desk.Valid p) valid
    (fun v w changed validV result => ((balanceRound_permits wf validV).ok result).1) h
  obtain ⟨rfl, balanced⟩ := balanceRound_quiet validU.tracks.availableNodup last
  exact ⟨validU, balanced⟩

/-! ## Candidates -/

/-- **A visit that changes nothing has found that all candidates pass.** -/
theorem visitItems_quiet (hb : b < p.numBins) {items : List Nat} (ascending : items.Pairwise (· < ·))
    (h : p.visitItems b items s = .ok false t) :
    t = s ∧ ∀ i ∈ items, i ∈ (s.ledger.bin b).candidates → p.Passes s b i := by
  induction items with
  | nil =>
    exact ⟨(Call.pure_eq_ok_iff.1 h).2, fun _ member => by cases member⟩
  | cons i rest ih =>
    obtain ⟨later, ascending⟩ := List.pairwise_cons.1 ascending
    have changed : ∀ {call : Call Desk Unit} {u : Desk},
        (do call; let _ ← p.visitItems b rest; return true : Call Desk Bool) u ≠ .ok false t := by
      intro call u result
      obtain ⟨_, _, -, result⟩ := Call.bind_eq_ok_iff.1 result
      obtain ⟨_, _, -, result⟩ := Call.bind_eq_ok_iff.1 result
      cases (Call.pure_eq_ok_iff.1 result).1
    replace h := (Call.ensure_bind_eq_ok_iff.1 (Call.ensure_bind_eq_ok_iff.1 h).2).2
    rw [Call.get_bind_eq_ok_iff] at h
    split at h
    · rename_i absent
      obtain ⟨same, passes⟩ := ih ascending h
      refine ⟨same, List.forall_mem_cons.2 ⟨fun candidate => ?_, passes⟩⟩
      simp [Bin.isCandidate_iff.2 candidate] at absent
    · split at h
      · exact absurd h changed
      · rename_i fits
        split at h
        · exact absurd h changed
        · rename_i notNeeded
          have here : p.Passes s b i := ⟨by simpa using fits, by simpa using notNeeded⟩
          split at h
          · -- the remaining items are smaller
            rename_i enough
            simp only [Bool.and_eq_true, beq_iff_eq, Bool.not_eq_true'] at enough
            refine ⟨(Call.pure_eq_ok_iff.1 h).2, List.forall_mem_cons.2 ⟨fun _ => here, ?_⟩⟩
            intro j hj candidate
            exact here.of_le wf enough.1 enough.2 (Nat.le_of_lt (later j hj))
              ((valid.tracks.accounts b hb).bounded j candidate)
          · obtain ⟨same, passes⟩ := ih ascending h
            exact ⟨same, List.forall_mem_cons.2 ⟨fun _ => here, passes⟩⟩

omit wf valid in
theorem extendIfMarked_quiet (h : p.extendIfMarked b s = .ok false t) :
    t.domains = s.domains ∧ (t.ledger = s.ledger ∨ t.ledger = (p.extended s b).ledger) := by
  rw [extendIfMarked, Call.get_bind_eq_ok_iff] at h
  split at h
  · obtain ⟨_, u, planned, rest⟩ := Call.bind_eq_ok_iff.1 h
    cases planned
    obtain ⟨_, v, counted, rest⟩ := Call.bind_eq_ok_iff.1 (Call.ensure_bind_eq_ok_iff.1 rest).2
    cases counted
    rw [Call.get_bind_eq_ok_iff] at rest
    obtain ⟨_, w, put, rest⟩ := Call.bind_eq_ok_iff.1 rest
    cases put
    split at rest
    · obtain ⟨-, rfl⟩ := Call.pure_eq_ok_iff.1 rest
      exact ⟨rfl, .inr rfl⟩
    · rw [sinkToTotal, Call.get_bind_eq_ok_iff] at rest
      obtain ⟨rfl, -⟩ := sinkLoad_quiet rest
      exact ⟨rfl, .inr rfl⟩
  · obtain ⟨-, rfl⟩ := Call.pure_eq_ok_iff.1 h
    exact ⟨rfl, .inl rfl⟩

omit wf in
/-- **A visit that changes nothing leaves the domains and the other bins as they were.** -/
theorem visitBin_quiet (wf : p.WellFormed) (available : b ∈ s.ledger.available)
    (h : p.visitBin b s = .ok false t) :
    t.Valid p ∧ t.domains = s.domains ∧ t.ledger.sums = s.ledger.sums ∧
      t.ledger.available = s.ledger.available ∧ (∀ c, c ≠ b → t.ledger.bin c = s.ledger.bin c) ∧
      ∀ i ∈ (t.ledger.bin b).candidates, p.Passes t b i := by
  have hb := ((valid.tracks.available b).1 available).1
  rw [visitBin, Call.get_bind_eq_ok_iff, if_pos (by simpa [Ledger.isAvailable] using available)] at h
  obtain ⟨extended, u, first, rest⟩ := Call.bind_eq_ok_iff.1 h
  obtain ⟨fitted, v, second, last⟩ := Call.bind_eq_ok_iff.1 rest
  obtain ⟨quiet, rfl⟩ := Call.pure_eq_ok_iff.1 last
  obtain ⟨rfl, rfl⟩ := Bool.or_eq_false_iff.1 quiet.symm
  have validU := ((extendIfMarked_permits wf valid hb).ok first).1
  obtain ⟨domains, ledger⟩ := extendIfMarked_quiet first
  replace second := (Call.ensure_bind_eq_ok_iff.1 second).2
  rw [Call.get_bind_eq_ok_iff] at second
  obtain ⟨rfl, passes⟩ := visitItems_quiet wf validU hb (validU.tracks.accounts b hb).ascending second
  refine ⟨validU, domains, ?_, ?_, fun c other => ?_, fun i hi => passes i hi hi⟩
  · rcases ledger with same | same <;> rw [same]
    rfl
  · rcases ledger with same | same <;> rw [same]
    rfl
  · rcases ledger with same | same <;> rw [same]
    rw [ledger_extended, Ledger.bin_put _ (by rw [valid.tracks.bins]; exact hb), if_neg other]

/-- **A round that changes nothing has found that all candidates pass.** -/
theorem fitRound_quiet (h : p.fitRound s = .ok false t) :
    t.domains = s.domains ∧ t.ledger.sums = s.ledger.sums ∧
      t.ledger.available = s.ledger.available ∧
      ∀ b ∈ t.ledger.available, ∀ i ∈ (t.ledger.bin b).candidates, p.Passes t b i := by
  rw [fitRound, Call.get_bind_eq_ok_iff] at h
  obtain ⟨-, ⟨domains, sums, available⟩, passes⟩ := Call.sweep_quiet (I := Desk.Valid p)
    (N := fun t u => u.domains = t.domains ∧ u.ledger.sums = t.ledger.sums ∧
      u.ledger.available = t.ledger.available)
    (K := fun b u => ∀ i ∈ (u.ledger.bin b).candidates, p.Passes u b i)
    valid.tracks.availableNodup valid (fun _ => ⟨rfl, rfl, rfl⟩)
    (fun t u v h h' => ⟨h'.1.trans h.1, h'.2.1.trans h.2.1, h'.2.2.trans h.2.2⟩)
    (fun b hb t u validT near result => by
      have here : b ∈ t.ledger.available := by
        rw [near.2.2]
        exact hb
      obtain ⟨validU, domains, sums, available, others, passes⟩ := visitBin_quiet validT wf here result
      refine ⟨validU, ⟨domains, sums, available⟩, passes, fun c _ other kept i hi => ?_⟩
      rw [others c other] at hi
      exact (kept i hi).congr (others c other) (fun _ _ => by rw [domains]) fun _ _ => by rw [domains]) h
  exact ⟨domains, sums, available, fun b hb => passes b (available ▸ hb)⟩

theorem settleRound_quiet (h : p.settleRound s = .ok false t) : t.AtRest p := by
  obtain ⟨_, u, balanced, fitted⟩ := Call.bind_eq_ok_iff.1 h
  obtain ⟨validU, balanced⟩ := balance_quiet wf valid balanced
  obtain ⟨domains, sums, available, passes⟩ := fitRound_quiet wf validU fitted
  have sum : ∀ d, t.ledger.sum d = u.ledger.sum d := fun d => by rw [Ledger.sum, Ledger.sum, sums]
  refine ⟨⟨fun d hd => ?_, fun b hb d hd => ?_⟩, passes⟩
  · rw [sum]
    exact balanced.enclosed d hd
  · obtain ⟨least, greatest⟩ := balanced.balanced b (available ▸ hb) d hd
    constructor
    · rw [sum, domains]
      exact least
    · rw [sum, domains]
      exact greatest

/-! ## A whole call -/

theorem finish_atRest (h : p.finish s = .ok () t) : t.AtRest p := by
  rw [finish, Call.get_bind_eq_ok_iff] at h
  obtain ⟨_, u, worked, rest⟩ := Call.bind_eq_ok_iff.1 h
  have validU := ((workOff_permits wf valid _).ok worked).1
  rw [Call.get_bind_eq_ok_iff] at rest
  have round : ∀ v w changed, v.Valid p → p.settleRound v = .ok changed w → w.Valid p := by
    intro v w changed validV result
    exact ((Contract.Permits.bind validV (balance_permits wf validV) fun _ _ validX _ =>
      fitRound_permits wf validX).ok result).1
  obtain ⟨v, validV, last⟩ := Call.untilStable_eq_ok validU round rest
  exact settleRound_quiet wf validV last

theorem begin_atRest {first : Bool}
    (h : (if first then do
        p.start
        Desk.plan fun a => { a with started := true }
        p.finish
      else p.finish : Call Desk Unit) s = .ok () t) : t.AtRest p := by
  split at h
  · obtain ⟨_, u, started, rest⟩ := Call.bind_eq_ok_iff.1 h
    have validU := ((start_permits wf valid).ok started).1
    obtain ⟨_, v, planned, rest⟩ := Call.bind_eq_ok_iff.1 rest
    have validV := ((Desk.replan_permits wf validU rfl).ok planned).1
    exact finish_atRest wf validV rest
  · exact finish_atRest wf valid h

theorem revise_atRest (h : p.revise s = .ok () t) : t.AtRest p := by
  rw [revise, Call.get_bind_eq_ok_iff] at h
  split at h
  · obtain ⟨_, u, recorded, rest⟩ := Call.bind_eq_ok_iff.1 h
    have validU := ((recordLoads_permits wf valid).ok recorded).1
    obtain ⟨_, v, planned, rest⟩ := Call.bind_eq_ok_iff.1 rest
    have validV := ((Desk.replan_permits wf validU rfl).ok planned).1
    exact begin_atRest wf validV rest
  · exact begin_atRest wf valid h

/-- **A call ends at rest.** -/
theorem call_atRest (h : p.call s = .ok () t) : t.AtRest p := by
  obtain ⟨_, u, counted, rest⟩ := Call.bind_eq_ok_iff.1 h
  have validU := ((Desk.count_permits wf valid _).ok counted).1
  unfold countConflict at rest
  split at rest
  · cases rest
  · exact revise_atRest wf validU rest

end

end Packing

/-! ## Closed domains -/

namespace Desk

variable {p : Packing} {desk : Desk}

/-- Once all loads are recorded, no rule removes a value. -/
def Rests (p : Packing) (desk : Desk) : Prop := desk.Recorded p → desk.AtRest p

/-- Of the domains, the bounds of the loads matter. -/
theorem AtRest.congr (rest : desk.AtRest p) (valid : desk.Valid p) {other : Desk}
    (ledger : other.ledger = desk.ledger)
    (bounds : ∀ d < p.numDims, ∀ b < p.numBins,
      other.domains.lower (p.load d b) = desk.domains.lower (p.load d b) ∧
        other.domains.upper (p.load d b) = desk.domains.upper (p.load d b)) : other.AtRest p := by
  have inside : ∀ b ∈ other.ledger.available, b ∈ desk.ledger.available ∧ b < p.numBins := by
    rw [ledger]
    exact fun b hb => ⟨hb, ((valid.tracks.available b).1 hb).1⟩
  refine ⟨⟨fun d hd => ?_, fun b hb d hd => ?_⟩, fun b hb i hi => ?_⟩
  · rw [ledger]
    exact rest.enclosed d hd
  · obtain ⟨available, bound⟩ := inside b hb
    obtain ⟨least, greatest⟩ := rest.balanced b available d hd
    obtain ⟨lower, upper⟩ := bounds d hd b bound
    constructor
    · rw [ledger, lower, upper]
      exact least
    · rw [ledger, lower, upper]
      exact greatest
  · obtain ⟨available, bound⟩ := inside b hb
    rw [ledger] at hi
    exact (rest.passes b available i hi).congr (by rw [ledger])
      (fun d hd => (bounds d hd b bound).1) fun d hd => (bounds d hd b bound).2

/-- **Others may narrow the domains.**  If all loads are recorded afterwards, their bounds are what they
were. -/
theorem Rests.narrow (rests : desk.Rests p) (valid : desk.Valid p) {other : Desk}
    (ledger : other.ledger = desk.ledger)
    (narrower : ∀ d < p.numDims, ∀ b < p.numBins,
      desk.domains.lower (p.load d b) ≤ other.domains.lower (p.load d b) ∧
        other.domains.upper (p.load d b) ≤ desk.domains.upper (p.load d b)) : other.Rests p := by
  intro recorded
  have bounds : ∀ d < p.numDims, ∀ b < p.numBins,
      ((desk.ledger.entry d b).seenLower = desk.domains.lower (p.load d b) ∧
        (desk.ledger.entry d b).seenUpper = desk.domains.upper (p.load d b)) ∧
      other.domains.lower (p.load d b) = desk.domains.lower (p.load d b) ∧
        other.domains.upper (p.load d b) = desk.domains.upper (p.load d b) := by
    intro d hd b hb
    have now := recorded d hd b hb
    rw [ledger] at now
    have seenLower := valid.tracks.seenLower d hd b hb
    have seenUpper := valid.tracks.seenUpper d hd b hb
    have := narrower d hd b hb
    exact ⟨⟨by omega, by omega⟩, by omega, by omega⟩
  exact (rests fun d hd b hb => (bounds d hd b hb).1).congr valid ledger
    fun d hd b hb => (bounds d hd b hb).2

/-- **At rest, the domains are closed**, if the ledger agrees with them.  A bin without candidates is
balanced too, since its load is fixed. -/
theorem AtRest.closed (rest : desk.AtRest p) (wf : p.WellFormed) (valid : desk.Valid p)
    (recorded : desk.Recorded p)
    (confined : ∀ i < p.numItems, ∀ v ∈ desk.domains.domain (p.item i), 0 ≤ v ∧ v < p.numBins)
    (candidates : ∀ b < p.numBins, ∀ i ∈ (desk.ledger.bin b).candidates,
      (b : Int) ∈ desk.domains.domain (p.item i) ∧ (desk.domains.domain (p.item i)).isFixed = false)
    (tight : ∀ d < p.numDims, ∀ b < p.numBins, desk.TightAt p d b) :
    p.Closed desk.domains desk.ledger := by
  have sums : ∀ d < p.numDims, desk.ledger.SumsUp p desk.domains d :=
    fun d hd => recorded.sumsUp valid hd
  have available : ∀ b < p.numBins, ∀ i ∈ (desk.ledger.bin b).candidates,
      b ∈ desk.ledger.available :=
    fun b hb i hi => (valid.tracks.available b).2 ⟨hb, List.ne_nil_of_mem hi⟩
  refine ⟨valid.healthy, confined, valid.tracks.accounts, valid.tracks.placed, candidates, tight,
    fun d hd => ?_, fun d hd b hb => ?_, fun b hb i hi => ?_, fun b hb i hi => ?_⟩
  · rw [← (sums d hd).lower, ← (sums d hd).upper]
    exact rest.enclosed d hd
  · have lower := Finset.add_sum_erase (Finset.range p.numBins)
      (fun c => desk.domains.lower (p.load d c)) (Finset.mem_range.2 hb)
    have upper := Finset.add_sum_erase (Finset.range p.numBins)
      (fun c => desk.domains.upper (p.load d c)) (Finset.mem_range.2 hb)
    rw [← (sums d hd).lower] at lower
    rw [← (sums d hd).upper] at upper
    by_cases member : b ∈ desk.ledger.available
    · obtain ⟨least, greatest⟩ := rest.balanced b member d hd
      constructor <;> omega
    · have empty : (desk.ledger.bin b).candidates = [] := by
        by_contra some
        exact member ((valid.tracks.available b).2 ⟨hb, some⟩)
      have accounts := valid.tracks.accounts b hb
      have total := accounts.total_le wf hd
      rw [empty, ← accounts.required d hd] at total
      have none : p.sizeOf d [] = 0 := rfl
      have least : (desk.ledger.entry d b).required ≤ _ := (tight d hd b hb).1
      have greatest : _ ≤ (desk.ledger.entry d b).total := (tight d hd b hb).2
      simp only [Ledger.entry] at least greatest
      have enclosed := rest.enclosed d hd
      have bounds := (valid.healthy (p.load d b)).lower_le_upper
      simp only [Domains.lower, Domains.upper] at *
      constructor <;> omega
  · exact (Packing.passes_iff.1 (rest.passes b (available b hb i hi) i hi)).1
  · exact (Packing.passes_iff.1 (rest.passes b (available b hb i hi) i hi)).2

end Desk

end Stowage

import Stowage.Proofs.FixedPoints
import Stowage.Proofs.Precedences
import Stowage.Proofs.Packing.Freshness
import Stowage.Proofs.Packing.Resting

/-!
# Propagators miss nothing

Between two calls others may narrow the domains.  A packing that does not wait to be called is at rest,
and the bounds satisfy a precedence that does not, unless the propagator has still to hear of a bound
that moved; then it will wait.

* `Packer.Attends`, `Packer.Settles` — what holds of a packing between two calls, and when it has
  nothing left to do.
* `Propagator.Attends`, `Propagator.Settles` — the same for propagators of all kinds.
* `Propagator.Attends.carry`, `.hear`, `.called` — others narrow the domains, the propagator hears of a
  variable, it is called.
-/

set_option autoImplicit false

namespace Stowage

/-! ## Packings -/

namespace Packer

variable {p q : Packer} {s t : Store} {waits waits' : Prop} {news more : Nat → Prop}

/-- What holds of a packing between two calls, given whether it waits to be called and of which loads it
has still to hear. -/
structure Attends (p : Packer) (s : Store) (waits : Prop) (news : Nat → Prop) : Prop where
  rests : ¬waits → (p.desk s).Rests p.packing
  /-- With distinct variables, big items are extended in time. -/
  heeds : p.packing.policy = .dynamic → p.packing.vars.Nodup → (p.desk s).Heeds p.packing news

theorem Attends.carry (h : p.Attends s waits news) (wf : p.packing.WellFormed)
    (valid : (p.desk s).Valid p.packing) (ledger : t.ledger p = s.ledger p)
    (narrower : ∀ d < p.packing.numDims, ∀ b < p.packing.numBins,
      s.domains.lower (p.packing.load d b) ≤ t.domains.lower (p.packing.load d b) ∧
        t.domains.upper (p.packing.load d b) ≤ s.domains.upper (p.packing.load d b))
    (wakes : waits → waits') (imp : ∀ b < p.packing.numBins, news b → more b)
    (tell : ∀ b < p.packing.numBins,
      t.domains.upper (p.packing.load 0 b) ≠ s.domains.upper (p.packing.load 0 b) → more b) :
    p.Attends t waits' more where
  rests idle := (h.rests fun busy => idle (wakes busy)).narrow valid ledger narrower
  heeds dynamic distinct := (h.heeds dynamic distinct).narrow valid wf.dims ledger rfl
    (fun b hb => (narrower 0 wf.dims b hb).2) imp tell

/-- A packing hears of the variable at a place. -/
theorem Attends.hear {place : Nat} {agenda : Agenda} (h : p.Attends s waits news)
    (valid : (p.desk s).Valid p.packing)
    (noticed : p.packing.Noticed (s.ledger p) s.domains place p.agenda agenda) (wakes : waits → waits')
    (imp : ∀ b < p.packing.numBins, news b → place = p.packing.loadPlace 0 b ∨ more b) :
    Attends { p with agenda := agenda } s waits' more := by
  constructor
  · intro idle
    exact (h.rests fun busy => idle (wakes busy)).narrow valid rfl
      fun _ _ _ _ => ⟨le_refl _, le_refl _⟩
  · intro dynamic distinct b hb
    have mark : b ∈ p.agenda.marked → b ∈ agenda.marked := noticed.keptMarks b
    rcases h.heeds dynamic distinct b hb with fresh | ⟨moved, left⟩
    · exact .inl (fresh.congr mark rfl rfl rfl rfl)
    · rcases imp b hb left with here | later
      · -- the packing hears of this load
        refine .inl (.inl ((noticed.marked dynamic b hb here).resolve_right fun recorded => ?_))
        simp only [Ledger.isRecorded, Bool.and_eq_true, beq_iff_eq] at recorded
        exact moved recorded.2.symm
      · exact .inr ⟨moved, later⟩

theorem Attends.called {desk : Desk} (h : p.Attends s waits news) (regular : p.Regular s.cells)
    (valid : (p.desk s).Valid p.packing) (told : ∀ b, ¬news b)
    (result : p.packing.call (p.desk s) = .ok () desk) (waits' : Prop) (more : Nat → Prop) :
    (p.afterCall desk).Attends desk.store waits' more := by
  have wf := regular.wf
  have after : (p.afterCall desk).desk desk.store = desk := (regular.leaves (.inl result)).desk
  constructor
  · intro _ _
    rw [after]
    exact Packing.call_atRest wf valid result
  · intro dynamic distinct
    rw [after]
    have fresh := (h.heeds dynamic distinct).fresh told
    exact (Packing.call_fresh wf dynamic distinct valid fresh result).heeds _

/-- What holds of a packing that has nothing left to do. -/
structure Settles (p : Packer) (s : Store) : Prop where
  atRest : (p.rested s).AtRest p.packing
  fresh : p.packing.policy = .dynamic → p.packing.vars.Nodup → (p.rested s).Fresh p.packing

/-- The ledger and the bounds of the loads matter. -/
theorem Settles.congr (h : p.Settles s) (valid : (p.rested s).Valid p.packing)
    (dims : 0 < p.packing.numDims) (packing : q.packing = p.packing)
    (ledger : t.ledger q = s.ledger p)
    (bounds : ∀ d < p.packing.numDims, ∀ b < p.packing.numBins,
      t.domains.lower (p.packing.load d b) = s.domains.lower (p.packing.load d b) ∧
        t.domains.upper (p.packing.load d b) = s.domains.upper (p.packing.load d b)) :
    q.Settles t := by
  constructor
  · rw [packing]
    exact h.atRest.congr valid ledger bounds
  · rw [packing, rested, ledger]
    intro dynamic distinct
    exact (h.fresh dynamic distinct).unmark valid (fun _ _ => List.not_mem_nil)
      fun b hb => (bounds 0 dims b hb).2

/-- **A packing without anything left to do has settled.** -/
theorem Attends.settles (h : p.Attends s waits news) (idle : ¬waits) (told : ∀ b, ¬news b)
    (quiet : s.domains.pending = .empty) (revised : (p.desk s).Revised p.packing) : p.Settles s := by
  constructor
  · have recorded : (p.desk s).Recorded p.packing := fun d hd b hb => revised.seen_eq quiet hd hb
    exact (h.rests idle recorded).congr revised.toValid rfl fun _ _ _ _ => ⟨rfl, rfl⟩
  · intro dynamic distinct
    exact ((h.heeds dynamic distinct).fresh told).unmark revised.toValid revised.unmarked
      fun _ _ => rfl

theorem Settles.attends (h : p.Settles s) (valid : (p.rested s).Valid p.packing) (waits : Prop)
    (news : Nat → Prop) : p.Attends s waits news := by
  constructor
  · intro _ _
    exact h.atRest.congr valid rfl fun _ _ _ _ => ⟨rfl, rfl⟩
  · intro dynamic distinct
    have fresh : Desk.Fresh p.packing (p.desk s) :=
      (h.fresh dynamic distinct).unmark valid (fun _ _ => List.not_mem_nil) fun _ _ => rfl
    exact fresh.heeds news

end Packer

/-! ## Propagators of all kinds -/

namespace Propagator

/-- A variable whose bounds matter to a propagator, with the place under which it knows it. -/
def Knows : Propagator → Var → Nat → Prop
  | .packing p, x, place => ∃ d < p.packing.numDims, ∃ b < p.packing.numBins,
    x = p.packing.load d b ∧ place = p.packing.loadPlace d b
  | .precedence p, x, place => p.vars[place]? = some x
  | .probe _, _, _ => False

/-- What holds of a propagator between two calls, given whether it waits to be called and of which
variables, at which places, it has still to hear. -/
def Attends (prop : Propagator) (s : Store) (waits : Prop) (news : Var → Nat → Prop) : Prop :=
  match prop with
  | .packing p => p.Attends s waits fun b => news (p.packing.load 0 b) (p.packing.loadPlace 0 b)
  | .precedence p => waits ∨ p.Holds s.domains ∨
    ∃ (x : Var) (place : Nat), p.vars[place]? = some x ∧ news x place
  | .probe _ => True

/-- What holds of a propagator that has nothing left to do. -/
def Settles (prop : Propagator) (s : Store) : Prop :=
  match prop with
  | .packing p => p.Settles s
  | .precedence p => p.Holds s.domains
  | .probe _ => True

/-- The desk of a packing can be worked on. -/
def Sound (prop : Propagator) (s : Store) : Prop :=
  ∀ p, prop = .packing p → p.Regular s.cells ∧ (p.desk s).Valid p.packing

variable {prop new : Propagator} {s t : Store} {waits waits' : Prop} {news more : Var → Nat → Prop}

/-- **Others may narrow the domains.** -/
theorem Attends.carry (h : prop.Attends s waits news) (sound : prop.Sound s)
    (ledger : ∀ p, prop = .packing p → t.ledger p = s.ledger p)
    (narrower : ∀ x place, prop.Knows x place →
      s.domains.lower x ≤ t.domains.lower x ∧ t.domains.upper x ≤ s.domains.upper x)
    (wakes : waits → waits') (imp : ∀ x place, prop.Knows x place → news x place → more x place)
    (tell : ∀ x place, prop.Knows x place →
      t.domains.lower x ≠ s.domains.lower x ∨ t.domains.upper x ≠ s.domains.upper x → more x place) :
    prop.Attends t waits' more := by
  cases prop with
  | packing p =>
    obtain ⟨⟨wf, -, -⟩, valid⟩ := sound p rfl
    exact Packer.Attends.carry h wf valid (ledger p rfl)
      (fun d hd b hb => narrower _ _ ⟨d, hd, b, hb, rfl, rfl⟩) wakes
      (fun b hb => imp _ _ ⟨0, wf.dims, b, hb, rfl, rfl⟩)
      fun b hb moved => tell _ _ ⟨0, wf.dims, b, hb, rfl, rfl⟩ (.inr moved)
  | precedence p =>
    rcases h with busy | holds | ⟨x, place, own, left⟩
    · exact .inl (wakes busy)
    · right
      by_contra none
      obtain ⟨broken, unheard⟩ := not_or.1 none
      have still : ∀ (x : Var) (place : Nat), p.vars[place]? = some x →
          t.domains.lower x = s.domains.lower x ∧ t.domains.upper x = s.domains.upper x := by
        intro x place own
        by_contra moved
        exact unheard ⟨x, place, own, tell x place own (not_and_or.1 moved)⟩
      obtain ⟨lowerLeft, upperLeft⟩ := still p.left 0 rfl
      obtain ⟨lowerRight, upperRight⟩ := still p.right 1 rfl
      apply broken
      rw [Precedence.Holds, lowerLeft, upperLeft, lowerRight, upperRight]
      exact holds
    · exact .inr (.inr ⟨x, place, own, imp x place own left⟩)
  | probe p => exact h

/-- The domains stay as they are, as far as the propagator knows them. -/
theorem Attends.keep (h : prop.Attends s waits news) (sound : prop.Sound s)
    (ledger : ∀ p, prop = .packing p → t.ledger p = s.ledger p)
    (same : ∀ x place, prop.Knows x place → t.domains.domain x = s.domains.domain x)
    (wakes : waits → waits') (imp : ∀ x place, prop.Knows x place → news x place → more x place) :
    prop.Attends t waits' more := by
  have lower : ∀ x place, prop.Knows x place → t.domains.lower x = s.domains.lower x :=
    fun x place knows => congrArg Domain.lower (same x place knows)
  have upper : ∀ x place, prop.Knows x place → t.domains.upper x = s.domains.upper x :=
    fun x place knows => congrArg Domain.upper (same x place knows)
  refine h.carry sound ledger (fun x place knows => ?_) wakes imp fun x place knows moved => ?_
  · exact ⟨(lower x place knows).ge, (upper x place knows).le⟩
  · exact absurd moved (not_or.2 ⟨fun h => h (lower x place knows), fun h => h (upper x place knows)⟩)

/-- **A propagator hears of the variable at a place.** -/
theorem Attends.hear {place : Nat} {heard : Heard} (h : prop.Attends s waits news)
    (sound : prop.Sound s) (hears : prop.Hears s place heard) (wakes : waits → waits')
    (woken : heard.wake = true → waits')
    (imp : ∀ x own, prop.Knows x own → news x own → place = own ∨ more x own) :
    heard.propagator.Attends { s with cells := heard.cells } waits' more := by
  cases prop with
  | packing p =>
    obtain ⟨⟨wf, -, -⟩, valid⟩ := sound p rfl
    obtain ⟨cells, agenda, same, noticed, -⟩ := hears.packing p rfl
    rw [same, cells]
    exact Packer.Attends.hear h valid noticed wakes
      fun b hb => imp _ _ ⟨0, wf.dims, b, hb, rfl, rfl⟩
  | precedence p =>
    rw [core_eq_precedence hears.core]
    exact .inl (woken (hears.precedence p rfl))
  | probe p =>
    cases same : heard.propagator with
    | packing q => cases same ▸ hears.core
    | precedence q => cases same ▸ hears.core
    | probe q => trivial

/-- The domains after a precedence was called without finding an inconsistency. -/
theorem call_precedence {p : Precedence} {id : Nat} {called : Called}
    (h : (Propagator.precedence p).call id s = .ok called) (fine : called.inconsistency = none) :
    called.propagator = .precedence p ∧ p.revise s.domains = .ok () called.store.domains := by
  simp only [Propagator.call] at h
  unfold afterCall at h
  split at h
  · rename_i ds result
    cases h
    exact ⟨rfl, result⟩
  · cases h
    cases fine
  · cases h

/-- **A propagator is called**, and finds no inconsistency. -/
theorem Attends.called {id : Nat} {called : Called} (h : prop.Attends s waits news)
    (sound : prop.Sound s) (healthy : s.domains.Healthy)
    (exist : ∀ x place, prop.Knows x place → x < s.domains.count) (told : ∀ x place, ¬news x place)
    (call : prop.call id s = .ok called) (fine : called.inconsistency = none) (waits' : Prop)
    (tell : ∀ x place, called.store.domains.lower x ≠ s.domains.lower x ∨
      called.store.domains.upper x ≠ s.domains.upper x → more x place) :
    called.propagator.Attends called.store waits' more := by
  cases prop with
  | packing p =>
    obtain ⟨regular, valid⟩ := sound p rfl
    obtain ⟨desk, cause, rfl, ⟨-, result⟩ | ⟨_, rfl, -⟩⟩ := Packer.exists_desk_of_call call
    · exact Packer.Attends.called h regular valid (fun b => told _ _) result _ _
    · cases fine
  | precedence p =>
    obtain ⟨same, revise⟩ := call_precedence call fine
    rw [same]
    right
    obtain ⟨-, after⟩ := Precedence.holds_of_revise healthy revise
    exact after.imp_right fun ⟨x, place, own, moved⟩ => ⟨x, place, own, tell x place moved⟩
  | probe p =>
    have calls := call_spec healthy (fun _ same => by cases same) call
    cases same : called.propagator with
    | packing q => cases same ▸ calls.core
    | precedence q => cases same ▸ calls.core
    | probe q => trivial

/-- A propagator that waits from the beginning. -/
theorem Attends.begin (busy : waits) (fresh : ∀ p, prop = .packing p →
      p.packing.policy = .dynamic → (p.desk s).Fresh p.packing) : prop.Attends s waits news := by
  cases prop with
  | packing p => exact ⟨fun idle => absurd busy idle, fun dynamic _ => (fresh p rfl dynamic).heeds _⟩
  | precedence p => exact .inl busy
  | probe p => trivial

/-- **A propagator without anything left to do has settled.** -/
theorem Attends.settles (h : prop.Attends s waits news) (idle : ¬waits)
    (told : ∀ x place, ¬news x place) (quiet : s.domains.pending = .empty)
    (revised : ∀ p, prop = .packing p → (p.desk s).Revised p.packing) : prop.Settles s := by
  cases prop with
  | packing p => exact Packer.Attends.settles h idle (fun b => told _ _) quiet (revised p rfl)
  | precedence p =>
    rcases h with busy | holds | ⟨x, place, -, left⟩
    · exact absurd busy idle
    · exact holds
    · exact absurd left (told x place)
  | probe p => trivial

theorem Settles.attends (h : prop.Settles s)
    (valid : ∀ p, prop = .packing p → (p.rested s).Valid p.packing) (waits : Prop)
    (news : Var → Nat → Prop) : prop.Attends s waits news := by
  cases prop with
  | packing p => exact Packer.Settles.attends h (valid p rfl) _ _
  | precedence p => exact .inr (.inl h)
  | probe p => trivial

/-- Neither the agenda and the counters matter, nor other domains. -/
theorem Settles.congr (h : prop.Settles s) (core : prop.core = new.core)
    (valid : ∀ p, prop = .packing p → 0 < p.packing.numDims ∧ (p.rested s).Valid p.packing)
    (ledger : ∀ p, prop = .packing p → t.ledger p = s.ledger p)
    (same : ∀ x place, prop.Knows x place → t.domains.domain x = s.domains.domain x) :
    new.Settles t := by
  cases new with
  | packing q =>
    obtain ⟨p, rfl, -, packing, layout⟩ := core_eq_packing core
    obtain ⟨dims, valid⟩ := valid p rfl
    have same' : t.ledger q = s.ledger p :=
      (Store.ledger_congr packing.symm layout.symm t).trans (ledger p rfl)
    refine Packer.Settles.congr h valid dims packing.symm same' fun d hd b hb => ?_
    have domain := same _ _ ⟨d, hd, b, hb, rfl, rfl⟩
    exact ⟨congrArg Domain.lower domain, congrArg Domain.upper domain⟩
  | precedence p =>
    cases core_eq_precedence core
    have left := same p.left 0 rfl
    have right := same p.right 1 rfl
    obtain ⟨uppers, lowers⟩ := h
    simp only [Domains.upper, Domains.lower] at uppers lowers
    simp only [Settles, Precedence.Holds, Domains.upper, Domains.lower, left, right]
    exact ⟨uppers, lowers⟩
  | probe p => trivial

end Propagator

end Stowage

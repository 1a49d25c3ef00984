import Stowage.Proofs.Agreement
import Stowage.Proofs.Undo

/-!
# What a trail hands over

A trail answers as a chronicle does, which dates everything: every entry with the time at which it was
pushed, every checkpoint with the time at which it was created.  Going back to checkpoint `k` takes from
the chronicle the entries that are not older than checkpoint `k + 1`.  No positions or counts are
involved, so nothing can be cut at the wrong place.

How many of the entries handed over are taken does not matter to what stays on the trail.

* `Trail.Operation`, `Trail.run` — what can be done to a trail, one thing after the other.
* `Chronicle.run` — the same with dates.
* `Chronicle.Dates` — the chronicle dates what is on the trail; one lemma for each operation.
* `Trail.run_as_chronicle` — all operations are answered as by a chronicle.
-/

set_option autoImplicit false

namespace Stowage

/-- What can be done to a trail. -/
inductive Trail.Operation (α : Type) where
  | push (a : α)
  /-- Adds a checkpoint. -/
  | mark
  /-- Goes back to checkpoint `k` and takes the first `taken` of the entries handed over. -/
  | rewind (k taken : Nat)
  deriving DecidableEq, Repr

open Trail (Operation)

/-- The entries on a trail, newest first, and its checkpoints, all dated. -/
structure Chronicle (α : Type) where
  /-- The number of operations so far. -/
  time : Nat
  /-- For every checkpoint but the first the time at which it was created. -/
  created : List Nat
  /-- The entries with the times at which they were pushed, newest first. -/
  dated : List (Nat × α)
  deriving DecidableEq, Repr

variable {α : Type}

namespace Trail

/-- The entries taken by an operation, and the trail afterwards. -/
def perform (t : Trail α) : Operation α → Except Fault (List α × Trail α)
  | .push a => return ([], t.push a)
  | .mark => return ([], t.mark)
  | .rewind k taken => do
    let (handed, t) ← t.rewind k
    return (handed.take taken, t)

/-- The entries taken by operations performed one after the other, and the trail afterwards. -/
def run (t : Trail α) (script : List (Operation α)) : Except Fault (List (List α) × Trail α) :=
  inTurn perform t script

end Trail

namespace Chronicle

def empty : Chronicle α := ⟨0, [], []⟩

/-- The entries pushed at some moment or later, newest first. -/
def since (c : Chronicle α) (moment : Nat) : List (Nat × α) :=
  c.dated.filter fun e => decide (moment ≤ e.1)

/-- The entries pushed before some moment, newest first. -/
def before (c : Chronicle α) (moment : Nat) : List (Nat × α) :=
  c.dated.filter fun e => !decide (moment ≤ e.1)

/-- The entries taken by an operation, and the chronicle afterwards. -/
def perform (c : Chronicle α) : Operation α → Except Fault (List α × Chronicle α)
  | .push a => return ([], { c with time := c.time + 1, dated := (c.time, a) :: c.dated })
  | .mark => return ([], { c with time := c.time + 1, created := c.created ++ [c.time] })
  | .rewind k taken =>
    match c.created[k]? with
    | none => throw .precondition
    | some moment =>
      return (((c.since moment).map Prod.snd).take taken,
        ⟨c.time + 1, c.created.take k, c.before moment⟩)

/-- The entries taken by operations performed one after the other, and the chronicle afterwards. -/
def run (c : Chronicle α) (script : List (Operation α)) :
    Except Fault (List (List α) × Chronicle α) := inTurn perform c script

/-- The trail has the entries of the chronicle, in the same order, and its checkpoints. -/
structure Tells (c : Chronicle α) (t : Trail α) : Prop where
  entries : t.entries = c.dated.map Prod.snd
  checkpoint : t.checkpoint = c.created.length

/-- The chronicle dates what is on the trail. -/
structure Dates (c : Chronicle α) (t : Trail α) : Prop extends c.Tells t where
  /-- The entries stand from the newest to the oldest. -/
  ordered : c.dated.Pairwise fun newer older => older.1 < newer.1
  pushed : ∀ e ∈ c.dated, e.1 < c.time
  /-- A checkpoint was created when the entries older than it were on the trail. -/
  starts : ∀ k moment, c.created[k]? = some moment → t.startAfter k = (c.before moment).length
  /-- The checkpoints stand from the oldest to the newest. -/
  ascending : c.created.Pairwise (· < ·)
  past : ∀ moment ∈ c.created, moment < c.time

variable {c : Chronicle α} {t : Trail α}

theorem dates_empty : Dates (empty : Chronicle α) Trail.empty where
  entries := rfl
  ordered := .nil
  pushed _ member := nomatch member
  checkpoint := rfl
  starts _ _ found := nomatch found
  ascending := .nil
  past _ member := nomatch member

theorem since_append_before (ordered : c.dated.Pairwise fun newer older => older.1 < newer.1)
    (moment : Nat) : c.since moment ++ c.before moment = c.dated := by
  unfold since before
  generalize c.dated = dated at ordered ⊢
  induction dated with
  | nil => rfl
  | cons e older ih =>
    obtain ⟨newest, ordered⟩ := List.pairwise_cons.1 ordered
    by_cases recent : moment ≤ e.1
    · simp only [List.filter_cons, recent, decide_true, if_true, Bool.not_true, Bool.false_eq_true,
        if_false, List.cons_append, ih ordered]
    · have early : ∀ other ∈ older, ¬moment ≤ other.1 := fun other member =>
        fun late => recent (late.trans (newest other member).le)
      have none_recent : older.filter (fun e => decide (moment ≤ e.1)) = [] :=
        List.filter_eq_nil_iff.2 fun other member late =>
          early other member (of_decide_eq_true late)
      have all_old : older.filter (fun e => !decide (moment ≤ e.1)) = older :=
        List.filter_eq_self.2 fun other member => by simpa using early other member
      simp [recent, none_recent, all_old]

/-- What was pushed before some moment is among what was pushed before a later one. -/
theorem before_before (c : Chronicle α) {first second : Nat} (order : first ≤ second) :
    (⟨c.time, c.created, c.before second⟩ : Chronicle α).before first = c.before first := by
  unfold before
  rw [List.filter_filter]
  refine List.filter_congr fun e _ => ?_
  by_cases late : second ≤ e.1
  · simp [late, order.trans late]
  · simp [late]

namespace Dates

theorem push (h : c.Dates t) (a : α) :
    Dates { c with time := c.time + 1, dated := (c.time, a) :: c.dated } (t.push a) where
  entries := by rw [Trail.entries_push, h.entries, List.map_cons]
  ordered := List.pairwise_cons.2 ⟨h.pushed, h.ordered⟩
  pushed := List.forall_mem_cons.2
    ⟨Nat.lt_succ_self _, fun e member => Nat.lt_succ_of_lt (h.pushed e member)⟩
  checkpoint := h.checkpoint
  starts k moment found := by
    obtain ⟨inside, -⟩ := List.getElem?_eq_some_iff.1 found
    have old := h.past moment (List.mem_of_getElem? found)
    rw [Trail.startAfter_push t a (h.checkpoint ▸ inside), h.starts k moment found]
    simp [before, old.le]
  ascending := h.ascending
  past moment member := Nat.lt_succ_of_lt (h.past moment member)

theorem mark (h : c.Dates t) :
    Dates { c with time := c.time + 1, created := c.created ++ [c.time] } t.mark where
  entries := h.entries
  ordered := h.ordered
  pushed e member := Nat.lt_succ_of_lt (h.pushed e member)
  checkpoint := by rw [Trail.checkpoint_mark, h.checkpoint, List.length_append, List.length_singleton]
  starts k moment found := by
    rcases Nat.lt_trichotomy k c.created.length with inside | rfl | outside
    · rw [List.getElem?_append_left inside] at found
      rw [Trail.startAfter_mark t (h.checkpoint ▸ inside.le)]
      exact h.starts k moment found
    · rw [List.getElem?_append_right (Nat.le_refl _), Nat.sub_self] at found
      obtain rfl : c.time = moment := Option.some.inj found
      -- the new checkpoint is younger than everything on the trail
      have all_old : c.dated.filter (fun e => !decide (c.time ≤ e.1)) = c.dated :=
        List.filter_eq_self.2 fun e member => by simpa using h.pushed e member
      rw [← h.checkpoint, Trail.startAfter_mark t (Nat.le_refl _),
        Trail.startAfter_of_le t (Nat.le_refl _)]
      have size : t.entries.length = t.log.size := by simp [Trail.entries]
      rw [← size, h.entries, List.length_map, before, all_old]
    · rw [List.getElem?_append_right outside.le] at found
      obtain ⟨inside, -⟩ := List.getElem?_eq_some_iff.1 found
      rw [List.length_singleton] at inside
      omega
  ascending := by
    refine List.pairwise_append.2 ⟨h.ascending, List.pairwise_singleton _ _, fun moment member last
      single => ?_⟩
    rw [List.mem_singleton.1 single]
    exact h.past moment member
  past moment member := by
    rcases List.mem_append.1 member with old | new
    · exact Nat.lt_succ_of_lt (h.past moment old)
    · rw [List.mem_singleton.1 new]
      exact Nat.lt_succ_self _

/-- The entries handed over are those that are not older than the checkpoint, and the older ones stay. -/
theorem unwind_eq (h : c.Dates t) {k moment : Nat} (found : c.created[k]? = some moment) :
    (t.unwind k).1 = (c.since moment).map Prod.snd ∧
      (t.unwind k).2.entries = (c.before moment).map Prod.snd := by
  have split : (t.unwind k).1 ++ (t.unwind k).2.entries =
      (c.since moment).map Prod.snd ++ (c.before moment).map Prod.snd := by
    rw [← Trail.entries_unwind, h.entries, ← List.map_append, since_append_before h.ordered]
  have kept : (t.unwind k).2.entries.length = t.startAfter k := by
    have start := t.startAfter_le k
    simp only [Trail.unwind, Trail.upTo, Trail.entries, List.length_reverse, Array.length_toList,
      Array.size_extract]
    omega
  refine List.append_inj' split ?_
  rw [kept, h.starts k moment found, List.length_map]

theorem rewind (h : c.Dates t) {k moment : Nat} (found : c.created[k]? = some moment) :
    Dates ⟨c.time + 1, c.created.take k, c.before moment⟩ (t.unwind k).2 where
  entries := (h.unwind_eq found).2
  ordered := h.ordered.filter _
  pushed e member := Nat.lt_succ_of_lt (h.pushed e (List.mem_of_mem_filter member))
  checkpoint := by rw [Trail.checkpoint_unwind, h.checkpoint, List.length_take]
  starts j other earlier := by
    have inner : j < k := by
      obtain ⟨inside, -⟩ := List.getElem?_eq_some_iff.1 earlier
      exact lt_of_lt_of_le inside (List.length_take_le _ _)
    rw [List.getElem?_take_of_lt inner] at earlier
    have order : other ≤ moment := by
      obtain ⟨first, rfl⟩ := List.getElem?_eq_some_iff.1 earlier
      obtain ⟨second, rfl⟩ := List.getElem?_eq_some_iff.1 found
      exact (List.pairwise_iff_getElem.1 h.ascending j k first second inner).le
    show (t.upTo k).startAfter j = _
    rw [Trail.startAfter_upTo t inner.le, h.starts j other earlier]
    exact congrArg List.length (c.before_before order).symm
  ascending := h.ascending.sublist (List.take_sublist _ _)
  past other member := Nat.lt_succ_of_lt (h.past other (List.mem_of_mem_take member))

/-- One operation is answered as by the chronicle, which dates what it leaves on the trail. -/
theorem perform (h : c.Dates t) (op : Operation α) :
    Parallel (Same fun t c => Dates c t) (t.perform op) (c.perform op) := by
  cases op with
  | push a => exact .ok ⟨rfl, h.push a⟩
  | mark => exact .ok ⟨rfl, h.mark⟩
  | rewind k taken =>
    simp only [Trail.perform, Trail.rewind, Chronicle.perform, require]
    cases found : c.created[k]? with
    | none =>
      have late : ¬k < t.checkpoint := by
        rw [h.checkpoint]
        exact Nat.not_lt.2 (List.getElem?_eq_none_iff.1 found)
      rw [decide_eq_false late]
      exact .error .precondition
    | some moment =>
      have early : k < t.checkpoint := by
        rw [h.checkpoint]
        exact (List.getElem?_eq_some_iff.1 found).1
      rw [decide_eq_true early]
      exact .ok ⟨congrArg (List.take taken) (h.unwind_eq found).1, h.rewind found⟩

end Dates

end Chronicle

/-- **A trail hands over, newest first, what was pushed since the checkpoint was created**, and keeps what
is older, however many of the entries are taken. -/
theorem Trail.run_as_chronicle (script : List (Operation α)) :
    Parallel (Same fun t c => Chronicle.Tells c t) (empty.run script) (Chronicle.empty.run script) :=
  (Parallel.inTurn (fun _ _ op dates => Chronicle.Dates.perform dates op) Chronicle.dates_empty
    script).mono fun _ _ same => ⟨same.1, same.2.toTells⟩

end Stowage

import Stowage.Proofs.Histories

/-!
# Going back and doing it again

Whatever is done to the domains after a checkpoint, going back to it gives every variable of then its
domain of then, also if domains became empty in between or checkpoints were added and left.  Variables
are not taken back: those added since have the domain that they were added with.  So what was done since
can be done again, to domains that only have some more variables at the end, with the same answers.

* `Domains.Operation`, `Domains.run` — what can be done to the domains, one thing after the other.
* `Domains.restore_run` — the view of a checkpoint before a run is that of before, with the variables
  that the run added.
* `Domains.run_extend` — a run is the same on domains with more variables.
* `Domains.exists_mark` — where the checkpoint after a given one was added last.
* `Domains.going_back_undoes` — going back undoes exactly, and the same can be done again.
-/

set_option autoImplicit false

namespace Stowage

namespace Domains

/-! ## Runs -/

/-- What can be done to the domains. -/
inductive Operation where
  /-- Adds a variable with the values between two bounds. -/
  | create (lower upper : Int)
  | post (q : Predicate)
  /-- Adds a checkpoint. -/
  | mark
  /-- Goes back to checkpoint `k`. -/
  | revert (k : Nat)
  deriving DecidableEq, Repr

/-- What an operation answers. -/
inductive Answer where
  | created (x : Var)
  | posted (posting : Posting)
  | done
  deriving DecidableEq, Repr

/-- The answer of an operation and the domains afterwards. -/
def perform (ds : Domains) : Operation → Except Fault (Answer × Domains)
  | .create lower upper => do
    let (x, after) ← ds.create lower upper
    return (.created x, after)
  | .post q => do
    let (posting, after) ← ds.post q
    return (.posted posting, after)
  | .mark => return (.done, ds.mark)
  | .revert k => do
    let after ← ds.revert k
    return (.done, after)

/-- The answers of operations performed one after the other, and the domains afterwards. -/
def run (ds : Domains) : List Operation → Except Fault (List Answer × Domains)
  | [] => return ([], ds)
  | op :: script => do
    let (answer, ds) ← ds.perform op
    let (answers, ds) ← ds.run script
    return (answer :: answers, ds)

/-- The domain of the variable that an operation adds. -/
def Operation.initial? : Operation → Option Domain
  | .create lower upper => some (.interval lower upper)
  | .post _ => none
  | .mark => none
  | .revert _ => none

/-- The domains that variables are added with. -/
def initials (script : List Operation) : List Domain := script.filterMap Operation.initial?

theorem initials_cons (op : Operation) (script : List Operation) :
    initials (op :: script) = op.initial?.toList ++ initials script := by
  unfold initials
  rw [List.filterMap_cons]
  cases op.initial? with
  | none => rfl
  | some d => rfl

theorem initials_append (first second : List Operation) :
    initials (first ++ second) = initials first ++ initials second := List.filterMap_append

/-- A return is to a checkpoint after `k`. -/
def Operation.StaysAfter (k : Nat) : Operation → Prop
  | .create _ _ => True
  | .post _ => True
  | .mark => True
  | .revert j => k < j

variable {ds mid now : Domains} {op : Operation} {answer : Answer} {script : List Operation}
  {answers : List Answer} {k : Nat}

/-- What an operation that succeeds has done. -/
inductive Performs (ds : Domains) : Operation → Answer → Domains → Prop
  | create {lower upper : Int} (proper : (Domain.interval lower upper).Proper) :
    Performs ds (.create lower upper) (.created ds.count) (ds.withNew (.interval lower upper))
  | post {q : Predicate} {posting : Posting} {after : Domains}
    (step : ds.post q = .ok (posting, after)) : Performs ds (.post q) (.posted posting) after
  | mark : Performs ds .mark .done ds.mark
  | revert {k : Nat} (earlier : k < ds.checkpoint) :
    Performs ds (.revert k) .done (ds.restore k)

theorem performs_of_perform (h : ds.perform op = .ok (answer, now)) : Performs ds op answer now := by
  cases op with
  | create lower upper =>
    simp only [perform, bind, Except.bind, pure, Except.pure] at h
    split at h
    · cases h
    next step =>
      obtain ⟨new, proper, after⟩ := create_eq_ok step
      cases h
      rw [new, after]
      exact .create proper
  | post q =>
    simp only [perform, bind, Except.bind, pure, Except.pure] at h
    split at h
    · cases h
    next step =>
      cases h
      exact .post step
  | mark =>
    cases h
    exact .mark
  | revert k =>
    simp only [perform, bind, Except.bind, pure, Except.pure] at h
    split at h
    · cases h
    next step =>
      obtain ⟨earlier, after⟩ := revert_eq_ok step
      cases h
      rw [after]
      exact .revert earlier

/-- Where all logged writes have their places, going back to an earlier checkpoint succeeds. -/
theorem revert_eq (lawful : ds.table.Lawful) (earlier : k < ds.checkpoint) :
    ds.revert k = .ok (ds.restore k) := by
  simp only [revert, require, decide_eq_true earlier, lawful.canUndo k, if_true, bind, Except.bind,
    pure, Except.pure]

theorem Reached.perform (reached : ds.Reached) (h : Performs ds op answer now) : now.Reached := by
  cases h with
  | create proper => exact .create reached (create_of_proper ds proper)
  | post step => exact .post reached step
  | mark => exact .mark reached
  | revert earlier => exact .revert reached (revert_eq reached.always_orderly.lawful earlier)

theorem run_cons_eq_ok : ds.run (op :: script) = .ok (answers, now) ↔ ∃ answer mid later,
    ds.perform op = .ok (answer, mid) ∧ mid.run script = .ok (later, now) ∧
      answers = answer :: later := by
  constructor
  · intro h
    simp only [run, bind, Except.bind, pure, Except.pure] at h
    split at h
    · cases h
    next first =>
      split at h
      · cases h
      next rest =>
        cases h
        exact ⟨_, _, _, first, rest, rfl⟩
  · rintro ⟨answer, mid, later, step, rest, rfl⟩
    simp only [run, step, rest, bind, Except.bind, pure, Except.pure]

/-- A run of two parts is a run of the first and then one of the second. -/
theorem run_append_eq_ok {first second : List Operation} :
    ds.run (first ++ second) = .ok (answers, now) ↔ ∃ before mid later,
      ds.run first = .ok (before, mid) ∧ mid.run second = .ok (later, now) ∧
        answers = before ++ later := by
  induction first generalizing ds answers with
  | nil =>
    constructor
    · exact fun h => ⟨[], ds, answers, rfl, h, rfl⟩
    · rintro ⟨before, mid, later, done, rest, rfl⟩
      cases done
      exact rest
  | cons op first ih =>
    rw [List.cons_append, run_cons_eq_ok]
    constructor
    · rintro ⟨answer, next, _, step, both, rfl⟩
      obtain ⟨before, mid, later, done, rest, rfl⟩ := ih.1 both
      exact ⟨answer :: before, mid, later, run_cons_eq_ok.2 ⟨_, _, _, step, done, rfl⟩, rest, rfl⟩
    · rintro ⟨_, mid, later, done, rest, rfl⟩
      obtain ⟨answer, next, before, step, inner, rfl⟩ := run_cons_eq_ok.1 done
      exact ⟨answer, next, before ++ later, step, ih.2 ⟨_, _, _, inner, rest, rfl⟩, rfl⟩

theorem Reached.run (reached : ds.Reached) (h : ds.run script = .ok (answers, now)) :
    now.Reached := by
  induction script generalizing ds answers with
  | nil =>
    cases h
    exact reached
  | cons op script ih =>
    obtain ⟨answer, mid, later, step, rest, -⟩ := run_cons_eq_ok.1 h
    exact ih (reached.perform (performs_of_perform step)) rest

/-! ## Going back -/

theorem Performs.count (h : Performs ds op answer now) :
    now.count = ds.count + op.initial?.toList.length := by
  cases h with
  | create proper => exact count_withNew ..
  | post step => exact (undoable_of_post step).count
  | mark => rfl
  | revert earlier => exact Trailed.size_restore _ _

/-- One operation adds its variable to the view of an earlier checkpoint and leaves the rest alone. -/
theorem Performs.restore (lawful : ds.table.Lawful) (earlier : k < ds.checkpoint)
    (stays : op.StaysAfter k) (h : Performs ds op answer now) :
    now.table.restore k = (ds.table.restore k).extend op.initial?.toList ∧ k < now.checkpoint := by
  cases h with
  | create proper => exact ⟨Trailed.restore_grow lawful _ k, earlier⟩
  | post step =>
    have recovers := (undoable_of_post step).recovers
    exact ⟨recovers.restore k earlier, earlier.trans_eq recovers.checkpoint.symm⟩
  | mark =>
    exact ⟨Trailed.restore_mark _ earlier.le, ds.checkpoint_mark ▸ Nat.lt_succ_of_lt earlier⟩
  | @revert j later =>
    refine ⟨Trailed.restore_restore _ (Nat.le_of_lt stays), ?_⟩
    show k < (ds.table.restore j).checkpoint
    rw [Trailed.checkpoint_restore]
    exact lt_min stays earlier

theorem count_run (h : ds.run script = .ok (answers, now)) :
    now.count = ds.count + (initials script).length := by
  induction script generalizing ds answers with
  | nil =>
    cases h
    rfl
  | cons op script ih =>
    obtain ⟨answer, mid, later, step, rest, -⟩ := run_cons_eq_ok.1 h
    rw [ih rest, (performs_of_perform step).count, initials_cons, List.length_append]
    omega

/-- A run that stays after a checkpoint adds its variables to the view of it and leaves the rest alone. -/
theorem restore_run (reached : ds.Reached) (earlier : k < ds.checkpoint)
    (stays : ∀ op ∈ script, op.StaysAfter k) (h : ds.run script = .ok (answers, now)) :
    now.table.restore k = (ds.table.restore k).extend (initials script) ∧ k < now.checkpoint := by
  induction script generalizing ds answers with
  | nil =>
    cases h
    exact ⟨rfl, earlier⟩
  | cons op script ih =>
    obtain ⟨answer, mid, later, step, rest, -⟩ := run_cons_eq_ok.1 h
    obtain ⟨first, stays⟩ := List.forall_mem_cons.1 stays
    have performs := performs_of_perform step
    obtain ⟨view, earlier⟩ := performs.restore reached.always_orderly.lawful earlier first
    obtain ⟨views, earlier⟩ := ih (reached.perform performs) earlier stays rest
    exact ⟨by rw [views, view, Trailed.extend_extend, ← initials_cons], earlier⟩

/-! ## Doing it again -/

/-- The answer if there are `n` more variables. -/
def Answer.shift (n : Nat) : Answer → Answer
  | .created x => .created (x + n)
  | .posted posting => .posted posting
  | .done => .done

theorem domain_extend {second : Domains} {more : List Domain}
    (same : second.table = ds.table.extend more) {x : Var} (exist : x < ds.count) :
    second.domain x = ds.domain x := by
  have inside : x < ds.table.size := exist
  rw [domain, domain, same, Trailed.get?_extend, if_pos inside]

/-- More variables at the end do not change what a post does. -/
theorem post_extend {second after : Domains} {q : Predicate} {posting : Posting} {more : List Domain}
    (same : second.table = ds.table.extend more) (step : ds.post q = .ok (posting, after)) :
    ∃ again, second.post q = .ok (posting, again) ∧ again.table = after.table.extend more := by
  have exist := lt_count_of_post step
  have exist' : q.var < second.count := by
    rw [count, same, Trailed.size_extend]
    exact Nat.lt_add_right _ exist
  have post : ds.narrow q (ds.domain q.var) = (posting, after) := narrow_of_post step
  have fits : second.Fits q := by
    rw [Fits, domain_extend same exist]
    exact fits_of_post step
  have post' : second.post q = .ok (second.narrow q (ds.domain q.var)) := by
    rw [post_of_fits exist' fits, domain_extend same exist]
  have table : second.table.overwrite q.var (·.kept q.comparison q.value)
        ((ds.domain q.var).narrow q.comparison q.value) =
      (ds.table.overwrite q.var (·.kept q.comparison q.value)
        ((ds.domain q.var).narrow q.comparison q.value)).extend more := by
    rw [same]
    exact Trailed.overwrite_extend exist _ _ _
  rw [post']
  simp only [narrow] at post ⊢
  split at post
  next entailed =>
    cases post
    exact ⟨_, by rw [if_pos entailed], same⟩
  next open' =>
    rw [if_neg open']
    split at post
    next crossed =>
      cases post
      exact ⟨_, by rw [if_pos crossed], table⟩
    next left =>
      cases post
      exact ⟨_, by rw [if_neg left], table⟩

/-- More variables at the end do not change what an operation does, if the first of them is the one that
it adds: that one counts as added, and another one like it is added at the end. -/
theorem Performs.again {second : Domains} {rest : List Domain} (lawful : ds.table.Lawful)
    (same : second.table = ds.table.extend (op.initial?.toList ++ rest))
    (h : Performs ds op answer now) :
    ∃ again, second.perform op = .ok (answer.shift (op.initial?.toList ++ rest).length, again) ∧
      again.table = now.table.extend (rest ++ op.initial?.toList) := by
  cases h with
  | @create lower upper proper =>
    have count : second.count = ds.count + (Domain.interval lower upper :: rest).length := by
      rw [Domains.count, same, Trailed.size_extend]
      rfl
    refine ⟨second.withNew (.interval lower upper), ?_, ?_⟩
    · simp only [perform, create_of_proper second proper, count, bind, Except.bind, pure, Except.pure]
      rfl
    · simp only [withNew, same, Trailed.grow_extend]
      rfl
  | @post q posting _ step =>
    obtain ⟨again, done, table⟩ := post_extend same step
    refine ⟨again, ?_, ?_⟩
    · simp only [perform, done, bind, Except.bind, pure, Except.pure]
      rfl
    · show again.table = now.table.extend (rest ++ [])
      rw [List.append_nil]
      exact table
  | mark =>
    refine ⟨second.mark, rfl, ?_⟩
    show second.table.mark = ds.table.mark.extend (rest ++ [])
    rw [same, Trailed.mark_extend, List.append_nil]
    rfl
  | @revert j earlier =>
    have lawful' : second.table.Lawful := same ▸ lawful.extend _
    have earlier' : j < second.checkpoint := by
      rw [checkpoint, same, Trailed.checkpoint_extend]
      exact earlier
    refine ⟨second.restore j, ?_, ?_⟩
    · simp only [perform, revert_eq lawful' earlier', bind, Except.bind, pure, Except.pure]
      rfl
    · show second.table.restore j = (ds.table.restore j).extend (rest ++ [])
      rw [same, Trailed.restore_extend lawful, List.append_nil]
      rfl

/-- **A run can be repeated where all its variables are there already**, with the same answers; it adds
others like them at the end. -/
theorem run_extend (reached : ds.Reached) {second : Domains} {rest : List Domain}
    (same : second.table = ds.table.extend (initials script ++ rest))
    (h : ds.run script = .ok (answers, now)) :
    ∃ again, second.run script =
        .ok (answers.map (Answer.shift (initials script ++ rest).length), again) ∧
      again.table = now.table.extend (rest ++ initials script) := by
  induction script generalizing ds second rest answers with
  | nil =>
    cases h
    exact ⟨second, rfl, by simpa [initials] using same⟩
  | cons op script ih =>
    obtain ⟨answer, mid, later, step, others, rfl⟩ := run_cons_eq_ok.1 h
    rw [initials_cons, List.append_assoc] at same
    have performs := performs_of_perform step
    obtain ⟨next, step', table⟩ := performs.again reached.always_orderly.lawful same
    rw [List.append_assoc] at table
    obtain ⟨again, others', tables⟩ := ih (reached.perform performs) table others
    refine ⟨again, ?_, ?_⟩
    · have length : (initials (op :: script) ++ rest).length =
          (op.initial?.toList ++ (initials script ++ rest)).length := by
        rw [initials_cons, List.append_assoc]
      have length' : (initials script ++ (rest ++ op.initial?.toList)).length =
          (op.initial?.toList ++ (initials script ++ rest)).length := by
        simp only [List.length_append]
        omega
      rw [length'] at others'
      rw [length]
      exact run_cons_eq_ok.2 ⟨_, _, _, step', others', rfl⟩
    · rw [tables, initials_cons, List.append_assoc]

/-! ## Where a checkpoint was added -/

/-- The script led through the domains `ds`, where the checkpoint after `k` was added for the last time;
since then the operations `since` have led to `now`. -/
structure Since (k : Nat) (script since : List Operation) (ds : Domains) (later : List Answer)
    (now : Domains) : Prop where
  before : ∃ before answers, script = before ++ .mark :: since ∧ empty.run before = .ok (answers, ds)
  checkpoint : ds.checkpoint = k
  stays : ∀ op ∈ since, op.StaysAfter k
  run : ds.run (.mark :: since) = .ok (later, now)

theorem Since.snoc {since : List Operation} {later : List Answer}
    (h : Since k script since ds later mid) (step : mid.perform op = .ok (answer, now))
    (stays : op.StaysAfter k) :
    Since k (script ++ [op]) (since ++ [op]) ds (later ++ [answer]) now := by
  obtain ⟨before, answers, rfl, done⟩ := h.before
  refine ⟨⟨before, answers, by simp, done⟩, h.checkpoint, ?_, ?_⟩
  · intro other member
    rcases List.mem_append.1 member with member | member
    · exact h.stays other member
    · obtain rfl := List.mem_singleton.1 member
      exact stays
  · have last : mid.run [op] = .ok ([answer], now) := run_cons_eq_ok.2 ⟨_, _, _, step, rfl, rfl⟩
    exact run_append_eq_ok.2 ⟨_, _, _, h.run, last, rfl⟩

/-- Every checkpoint but the first has been added, for the last time at some point of the script. -/
theorem exists_since (h : empty.run script = .ok (answers, now)) (earlier : k < now.checkpoint) :
    ∃ since ds later, Since k script since ds later now := by
  induction script using List.reverseRecOn generalizing answers now with
  | nil =>
    cases h
    cases earlier
  | append_singleton script op ih =>
    obtain ⟨before, mid, _, done, last, rfl⟩ := run_append_eq_ok.1 h
    obtain ⟨answer, _, _, step, rest, rfl⟩ := run_cons_eq_ok.1 last
    cases rest
    -- the checkpoint is there already, and the operation stays after it, unless it has just been added
    have old (inside : k < mid.checkpoint) (stays : op.StaysAfter k) :
        ∃ since ds later, Since k (script ++ [op]) since ds later now := by
      obtain ⟨since, ds, later, since'⟩ := ih done inside
      exact ⟨_, _, _, since'.snoc step stays⟩
    cases performs_of_perform step with
    | create proper => exact old earlier trivial
    | post posted =>
      exact old (earlier.trans_eq (undoable_of_post posted).recovers.checkpoint) trivial
    | mark =>
      rw [checkpoint_mark] at earlier
      rcases Nat.lt_or_eq_of_le (Nat.le_of_lt_succ earlier) with inside | rfl
      · exact old inside trivial
      · exact ⟨[], mid, _, ⟨script, before, rfl, done⟩, rfl, fun _ member => (nomatch member), last⟩
    | @revert j inside =>
      have below : (mid.restore j).checkpoint = min j mid.checkpoint := Trailed.checkpoint_restore _ _
      rw [below] at earlier
      exact old (earlier.trans_le (min_le_right _ _)) (earlier.trans_le (min_le_left _ _))

/-! ## Going back and doing it again -/

/-- Going back from `now` to `back` restores `ds` but for the variables that have been added since. -/
structure Returns (script : List Operation) (ds now back : Domains) : Prop where
  checkpoint : back.checkpoint = ds.checkpoint
  count : back.count = now.count
  old : ∀ x < ds.count, back.domain x = ds.domain x
  /-- Variables added since are as they were added. -/
  new : ∀ x, ds.count ≤ x → x < now.count → (initials script)[x]? = some (back.domain x)

/-- What was done since can be done again: the answers are the same, but for the names of the variables
added, and so are the domains. -/
def Repeats (since : List Operation) (later : List Answer) (ds now back : Domains) : Prop :=
  ∃ again, back.run (.mark :: since) = .ok (later.map (Answer.shift (now.count - ds.count)), again) ∧
    again.checkpoint = now.checkpoint ∧ ∀ x < now.count, again.domain x = now.domain x

namespace Since

variable {since : List Operation} {later : List Answer}

theorem reached (h : Since k script since ds later now) : ds.Reached := by
  obtain ⟨before, answers, -, done⟩ := h.before
  exact .run .empty done

theorem run_mark (h : Since k script since ds later now) :
    ∃ rest, ds.mark.run since = .ok (rest, now) := by
  obtain ⟨_, _, rest, mark, run, -⟩ := run_cons_eq_ok.1 h.run
  cases mark
  exact ⟨rest, run⟩

theorem count (h : Since k script since ds later now) :
    now.count = ds.count + (initials since).length := by
  obtain ⟨rest, run⟩ := h.run_mark
  have counted : now.count = ds.mark.count + (initials since).length := count_run run
  exact counted

/-- Going back gives the table of then with the variables added since. -/
theorem restore (h : Since k script since ds later now) :
    (now.restore k).table = ds.table.extend (initials since) := by
  obtain ⟨rest, run⟩ := h.run_mark
  have above : k < ds.mark.checkpoint := by
    rw [checkpoint_mark, h.checkpoint]
    exact Nat.lt_succ_self k
  have view := (restore_run h.reached.mark above h.stays run).1
  have here : ds.mark.table.restore k = ds.table := by
    rw [← h.checkpoint]
    exact Trailed.restore_mark_self ds.table
  exact view.trans (congrArg (Trailed.extend · _) here)

theorem returns (h : Since k script since ds later now) : Returns script ds now (now.restore k) where
  checkpoint := by
    rw [Domains.checkpoint, h.restore, Trailed.checkpoint_extend]
    rfl
  count := Trailed.size_restore _ _
  old _ exist := domain_extend h.restore exist
  new x new exist := by
    obtain ⟨before, answers, rfl, done⟩ := h.before
    have earliest : (initials before).length = ds.count :=
      ((count_run done).trans (Nat.zero_add _)).symm
    have position : x - ds.count < (initials since).length := by
      have := h.count
      omega
    have outside : ¬x < ds.table.size := Nat.not_lt.2 new
    rw [initials_append, List.getElem?_append_right (earliest ▸ new), earliest, initials_cons,
      Domains.domain, h.restore, Trailed.get?_extend, if_neg outside]
    show (initials since)[x - ds.count]? = some ((initials since)[x - ds.count]?.getD _)
    rw [List.getElem?_eq_getElem position]
    rfl

theorem repeats (h : Since k script since ds later now) :
    Repeats since later ds now (now.restore k) := by
  have same : (now.restore k).table = ds.table.extend (initials (.mark :: since) ++ []) := by
    rw [List.append_nil]
    exact h.restore
  obtain ⟨again, run, table⟩ := run_extend h.reached same h.run
  have more : now.count - ds.count = (initials (.mark :: since) ++ []).length := by
    rw [List.append_nil, h.count]
    exact Nat.add_sub_cancel_left _ _
  refine ⟨again, by rw [more]; exact run, ?_, fun x exist => domain_extend table exist⟩
  rw [Domains.checkpoint, table, Trailed.checkpoint_extend]
  rfl

end Since

/-- **Going back undoes exactly**, whatever was done since the checkpoint, and the same can be done
again. -/
theorem going_back_undoes (h : empty.run script = .ok (answers, now)) (earlier : k < now.checkpoint) :
    ∃ since ds later back, Since k script since ds later now ∧ now.revert k = .ok back ∧
      back.checkpoint = k ∧ Returns script ds now back ∧ Repeats since later ds now back := by
  obtain ⟨since, ds, later, since'⟩ := exists_since h earlier
  have lawful := (Reached.empty.run h).always_orderly.lawful
  have returns := since'.returns
  exact ⟨since, ds, later, now.restore k, since', revert_eq lawful earlier,
    returns.checkpoint.trans since'.checkpoint, returns, since'.repeats⟩

/-- A hole is made within bounds that have narrowed by then, one of the inner checkpoints is left, a
domain is emptied and posted to again, and a variable comes in between. -/
def nestedScript : List Operation :=
  [.create 0 9, .post (.differs 0 4), .mark, .post (.differs 0 6), .mark, .post (.atLeast 0 5),
    .create 1 3, .post (.differs 1 2), .revert 1, .post (.atLeast 0 4), .post (.differs 0 5),
    .post (.equals 0 6), .post (.atMost 0 3), .mark, .post (.atLeast 1 2)]

/-- The values, the holes and the new variable come back as they were. -/
theorem nested_going_back_undoes :
    ∃ answers now, empty.run nestedScript = .ok (answers, now) ∧ 0 < now.checkpoint ∧
      (now.domain 0).isEmpty = true ∧ ∃ since ds later back, Since 0 nestedScript since ds later now ∧
        now.revert 0 = .ok back ∧ Returns nestedScript ds now back ∧
        Repeats since later ds now back ∧ back.domain 0 = ⟨0, 9, [4]⟩ ∧
        back.domain 1 = .interval 1 3 := by
  have run : ∃ result, empty.run nestedScript = .ok result ∧ result.2.checkpoint = 2 ∧
      (result.2.domain 0).isEmpty = true ∧ ∃ back, result.2.revert 0 = .ok back ∧
        back.domain 0 = ⟨0, 9, [4]⟩ ∧ back.domain 1 = .interval 1 3 :=
    ⟨_, by cbv, rfl, rfl, _, by cbv, rfl, rfl⟩
  obtain ⟨⟨answers, now⟩, run, checkpoint, crossed, back, reverted, first, second⟩ := run
  have earlier : 0 < now.checkpoint := checkpoint ▸ Nat.succ_pos 1
  obtain ⟨since, ds, later, back', since', reverted', -, returns, repeats⟩ :=
    going_back_undoes run earlier
  cases reverted.symm.trans reverted'
  exact ⟨answers, now, run, earlier, crossed, since, ds, later, back, since', reverted, returns,
    repeats, first, second⟩

end Domains

end Stowage

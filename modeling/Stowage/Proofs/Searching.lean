import Stowage.Proofs.Branching

/-!
# Searching

A search that is not stopped by its limits finds every solution once.  At a leaf there is one; at an
inner node the solutions are split by the values of the variable that is fixed next, and since every
branch returns to the node, each is searched from what the node holds.

* `SearchRule.Chooses` — what is asked of the rule.
* `Finds`, `Lists` — what a part of a search does when its limits are not reached, and what a list of
  findings has to be.
* `State.tryValue_spec`, `State.tryValues_spec`, `State.searchNode_spec` — one branch, all branches, and
  all nodes below one.
-/

set_option autoImplicit false

namespace Stowage

/-! ## Rules -/

namespace SearchRule

/-- As long as some of the variables are not fixed, the rule fixes one of them. -/
def Chooses (rule : SearchRule) : Prop :=
  ∀ (s : State) (xs : List Var), (∀ x ∈ xs, x < s.domains.count) →
    (rule s xs = .ok none ∧ ∀ x ∈ xs, (s.domains.domain x).isFixed = true) ∨
      ∃ x ∈ xs, rule s xs = .ok (some x) ∧ (s.domains.domain x).isFixed = false

theorem chooses_first : SearchRule.first.Chooses := by
  intro s xs exist
  induction xs with
  | nil => exact .inl ⟨rfl, fun x hx => by cases hx⟩
  | cons x xs ih =>
    have fetched := Domains.fetch_eq (exist x List.mem_cons_self)
    have rest := ih fun y hy => exist y (List.mem_cons_of_mem _ hy)
    unfold first
    rw [fetched]
    by_cases fixed : (s.domains.domain x).isFixed = true
    · simp only [bind, Except.bind, fixed, if_true]
      rcases rest with ⟨none, all⟩ | ⟨y, hy, some, loose⟩
      · refine .inl ⟨none, fun y hy => ?_⟩
        rcases List.mem_cons.1 hy with rfl | hy
        · exact fixed
        · exact all y hy
      · exact .inr ⟨y, List.mem_cons_of_mem _ hy, some, loose⟩
    · have loose : (s.domains.domain x).isFixed = false := by simpa using fixed
      refine .inr ⟨x, List.mem_cons_self, ?_, loose⟩
      simp only [bind, Except.bind, loose]
      rfl

end SearchRule

/-! ## Findings -/

@[simp] theorem Findings.nodes_addConflict (f : Findings) (c : Conflict) :
    (f.addConflict c).nodes = f.nodes := by
  unfold addConflict
  split <;> rfl

@[simp] theorem Findings.solutions_addConflict (f : Findings) (c : Conflict) :
    (f.addConflict c).solutions = f.solutions := by
  unfold addConflict
  split <;> rfl

theorem isExhausted_eq_false {plan : SearchPlan} {f : Findings} (nodes : f.nodes < plan.maxNodes)
    (solutions : f.solutions.size < plan.maxSolutions) : plan.isExhausted f = false := by
  unfold SearchPlan.isExhausted
  rw [decide_eq_false (by omega), decide_eq_false (by omega)]
  rfl

/-! ## Parts of a search -/

variable {vars : List Var} {rule : SearchRule}

/-- As long as the limits are not reached, this part of a search makes some number of choices from state
`s`, finds new solutions, and ends in state `t`. -/
def Finds (vars : List Var) (rule : SearchRule)
    (part : SearchPlan → Findings × State → Except Fault (Findings × State)) (s : State)
    (nodes : Nat) (new : List (List Int)) (t : State) : Prop :=
  ∀ (maxNodes maxSolutions : Nat) (f : Findings), f.nodes + nodes < maxNodes →
    f.solutions.size + new.length < maxSolutions →
      ∃ g, part ⟨vars, rule, maxNodes, maxSolutions, false⟩ (f, s) = .ok (g, t) ∧
        g.nodes = f.nodes + nodes ∧ g.solutions.toList = f.solutions.toList ++ new

/-- The list holds, once each, the values that the assignments with a property give to the
variables. -/
structure Lists (vars : List Var) (holds : (Var → Int) → Prop) (new : List (List Int)) : Prop where
  nodup : new.Nodup
  mem : ∀ values, values ∈ new ↔ ∃ assignment, holds assignment ∧ values = vars.map assignment

theorem Finds.append {s t u : State} {n m : Nat} {new later : List (List Int)}
    {first second : SearchPlan → Findings × State → Except Fault (Findings × State)}
    (h : Finds vars rule first s n new t) (h' : Finds vars rule second t m later u) :
    Finds vars rule (fun plan found => first plan found >>= second plan) s (n + m) (new ++ later)
      u := by
  intro maxNodes maxSolutions f nodes solutions
  rw [List.length_append] at solutions
  obtain ⟨g, firstDone, nodesG, solutionsG⟩ := h maxNodes maxSolutions f (by omega) (by omega)
  have size : g.solutions.size = f.solutions.size + new.length := by
    rw [← Array.length_toList, solutionsG, List.length_append, Array.length_toList]
  obtain ⟨e, secondDone, nodesE, solutionsE⟩ := h' maxNodes maxSolutions g (by omega) (by omega)
  refine ⟨e, ?_, by omega, ?_⟩
  · simp only [firstDone, bind, Except.bind]
    exact secondDone
  · rw [solutionsE, solutionsG, List.append_assoc]

/-- The assignments are split by the value of one of the variables. -/
theorem Lists.append {holds : (Var → Int) → Prop} {x : Var} {v : Int} {values : List Int}
    {new later : List (List Int)} (member : x ∈ vars) (absent : v ∉ values)
    (h : Lists vars (fun a => holds a ∧ a x = v) new)
    (h' : Lists vars (fun a => holds a ∧ a x ∈ values) later) :
    Lists vars (fun a => holds a ∧ a x ∈ v :: values) (new ++ later) := by
  refine ⟨List.nodup_append'.2 ⟨h.nodup, h'.nodup, fun found inNew inLater => ?_⟩, fun found => ?_⟩
  · obtain ⟨a, ⟨-, value⟩, same⟩ := (h.mem found).1 inNew
    obtain ⟨b, ⟨-, other⟩, same'⟩ := (h'.mem found).1 inLater
    have agree : a x = b x := List.map_inj_left.1 (same.symm.trans same') x member
    rw [← agree, value] at other
    exact absent other
  · rw [List.mem_append, h.mem, h'.mem]
    constructor
    · rintro (⟨a, ⟨holds, value⟩, same⟩ | ⟨a, ⟨holds, value⟩, same⟩)
      · exact ⟨a, ⟨holds, value ▸ List.mem_cons_self⟩, same⟩
      · exact ⟨a, ⟨holds, List.mem_cons_of_mem _ value⟩, same⟩
    · rintro ⟨a, ⟨holds, value⟩, same⟩
      rcases List.mem_cons.1 value with value | value
      · exact .inl ⟨a, ⟨holds, value⟩, same⟩
      · exact .inr ⟨a, ⟨holds, value⟩, same⟩

namespace State

variable {s t : State} {x : Var} {v : Int} {depth : Nat}

/-- A settled state of packings whose items are among the given variables. -/
structure Searchable (vars : List Var) (s : State) : Prop where
  consistent : s.Consistent
  quiet : s.Quiet
  only : s.OnlyPackings
  exist : ∀ x ∈ vars, x < s.domains.count
  covers : ∀ id p, s.Runs id p → ∀ i < p.packing.numItems, p.packing.item i ∈ vars

theorem Searchable.of_cores (h : Searchable vars s)
    (cores : t.propagators.map Propagator.core = s.propagators.map Propagator.core)
    (count : t.domains.count = s.domains.count) (consistent : t.Consistent) (quiet : t.Quiet) :
    Searchable vars t := by
  refine ⟨consistent, quiet, onlyPackings_of_cores h.only cores, ?_, fun id q runs i hi => ?_⟩
  · rw [count]
    exact h.exist
  · obtain ⟨p, hp, -, packing, -⟩ := runs_of_cores cores runs
    rw [← packing] at hi ⊢
    exact h.covers id p hp i hi

theorem Searchable.resumes (h : Searchable vars s) (resumes : Resumes s t) : Searchable vars t :=
  h.of_cores resumes.cores (congrArg Domains.count resumes.domains) resumes.consistent resumes.quiet

theorem Resumes.solution_iff (h : Resumes s t) {assignment : Var → Int} :
    t.Solution assignment ↔ s.Solution assignment := by
  constructor
  · intro solution
    exact solution.of_cores h.cores.symm (h.domains ▸ solution.admits)
  · intro solution
    exact solution.of_cores h.cores (h.domains ▸ solution.admits)

theorem Resumes.unfixed (h : Resumes s t) (xs : List Var) : t.unfixed xs = s.unfixed xs := by
  unfold State.unfixed
  rw [h.domains]

/-- **One value is tried.** -/
theorem tryValue_spec (h : Searchable vars s) (member : x ∈ vars) (value : v ∈ s.domains.domain x)
    (loose : (s.domains.domain x).isFixed = false) (deep : s.unfixed vars ≤ depth)
    (below : ∀ t, Searchable vars t → t.unfixed vars < depth →
      ∃ nodes new u, Finds vars rule (fun plan => searchNode plan depth) t nodes new u ∧
        Lists vars t.Solution new ∧ Resumes t u) :
    ∃ nodes new t,
      Finds vars rule (fun plan found => tryValue plan (searchNode plan depth) x s.checkpoint found v)
        s (nodes + 1) new t ∧
      Lists vars (fun a => s.Solution a ∧ a x = v) new ∧ Resumes s t := by
  have exist := h.exist x member
  obtain ⟨conflict, t, branch, branches⟩ := h.consistent.branch h.quiet h.only exist value
  cases conflict with
  | some c =>
    obtain ⟨r, back, resumes⟩ := branches.retains.resume branches.frame
    refine ⟨0, [], r, ?_, ⟨List.nodup_nil, fun values => ⟨fun hv => (by cases hv), ?_⟩⟩, resumes⟩
    · intro maxNodes maxSolutions f nodes solutions
      refine ⟨Findings.addConflict { f with nodes := f.nodes + 1 } c, ?_, ?_, ?_⟩
      · have goesOn : SearchPlan.isExhausted ⟨vars, rule, maxNodes, maxSolutions, false⟩ f = false :=
          isExhausted_eq_false (show f.nodes < maxNodes by omega)
            (show f.solutions.size < maxSolutions by omega)
        simp only [tryValue, goesOn, branch, back, bind, Except.bind, pure, Except.pure,
          Bool.false_eq_true, if_false]
      · rw [Findings.nodes_addConflict]
      · rw [Findings.solutions_addConflict, List.append_nil]
    · rintro ⟨a, ⟨solution, own⟩, -⟩
      cases (branches.solutions a solution own).1
  | none =>
    obtain ⟨consT, quietT, -, -⟩ := branches.settled rfl
    have searchable : Searchable vars t :=
      h.of_cores branches.retains.cores branches.retains.count consT quietT
    have fewer := branches.unfixed_lt rfl h.consistent member loose
    obtain ⟨nodes, new, u, finds, lists, resumesU⟩ := below t searchable (by omega)
    obtain ⟨r, back, resumes⟩ := (branches.retains.resumes resumesU).resume resumesU.consistent.toFrame
    refine ⟨nodes, new, r, ?_, ⟨lists.nodup, fun values => (lists.mem values).trans ?_⟩, resumes⟩
    · intro maxNodes maxSolutions f nodesF solutionsF
      obtain ⟨g, found, nodesG, solutionsG⟩ := finds maxNodes maxSolutions
        { f with nodes := f.nodes + 1 } (by simp only; omega) solutionsF
      have goesOn : SearchPlan.isExhausted ⟨vars, rule, maxNodes, maxSolutions, false⟩ f = false :=
        isExhausted_eq_false (show f.nodes < maxNodes by omega)
          (show f.solutions.size < maxSolutions by omega)
      refine ⟨g, ?_, by simp only at nodesG; omega, solutionsG⟩
      simp only [tryValue, goesOn, branch, found, back, bind, Except.bind, pure, Except.pure,
        Bool.false_eq_true, if_false]
    · refine exists_congr fun a => and_congr_left' ?_
      exact branches.solution_iff rfl exist

/-- **All values are tried**, one after the other, each from what the node holds. -/
theorem tryValues_spec {values : List Int} {k : Nat} (h : Searchable vars s) (now : k = s.checkpoint)
    (member : x ∈ vars) (nodup : values.Nodup) (inside : ∀ v ∈ values, v ∈ s.domains.domain x)
    (loose : (s.domains.domain x).isFixed = false) (deep : s.unfixed vars ≤ depth)
    (below : ∀ t, Searchable vars t → t.unfixed vars < depth →
      ∃ nodes new u, Finds vars rule (fun plan => searchNode plan depth) t nodes new u ∧
        Lists vars t.Solution new ∧ Resumes t u) :
    ∃ nodes new t,
      Finds vars rule (fun plan found => values.foldlM (tryValue plan (searchNode plan depth) x k) found)
        s nodes new t ∧
      values.length ≤ nodes ∧ Lists vars (fun a => s.Solution a ∧ a x ∈ values) new ∧
      Resumes s t := by
  induction values generalizing s with
  | nil =>
    refine ⟨0, [], s, fun maxNodes maxSolutions f _ _ => ⟨f, rfl, rfl, by simp⟩, Nat.le_refl _,
      ⟨List.nodup_nil, fun found => ?_⟩, .refl h.consistent h.quiet⟩
    simp
  | cons v values ih =>
    obtain ⟨absent, nodup⟩ := List.nodup_cons.1 nodup
    subst now
    obtain ⟨n, new, t, finds, lists, resumes⟩ :=
      tryValue_spec h member (inside v List.mem_cons_self) loose deep below
    obtain ⟨m, later, u, finds', enough, lists', resumes'⟩ :=
      ih (h.resumes resumes) resumes.checkpoint.symm nodup
        (fun w hw => by rw [resumes.domains]; exact inside w (List.mem_cons_of_mem _ hw))
        (by rw [resumes.domains]; exact loose) (by rw [resumes.unfixed]; exact deep)
    refine ⟨n + 1 + m, new ++ later, u, finds.append finds', ?_, lists.append member absent ?_,
      resumes.trans resumes'⟩
    · rw [List.length_cons]
      omega
    · refine ⟨lists'.nodup, fun found => (lists'.mem found).trans ?_⟩
      refine exists_congr fun a => and_congr_left' (and_congr_left' resumes.solution_iff)

theorem lists_lower (h : Searchable vars s)
    (fixed : ∀ x ∈ vars, (s.domains.domain x).isFixed = true) :
    Lists vars s.Solution [vars.map s.domains.lower] := by
  refine ⟨List.nodup_singleton _, fun values => ?_⟩
  rw [List.mem_singleton]
  constructor
  · rintro rfl
    refine ⟨s.domains.lower, h.consistent.solution_lower h.quiet fun id p runs i hi => ?_, rfl⟩
    exact fixed _ (h.covers id p runs i hi)
  · rintro ⟨a, solution, rfl⟩
    refine List.map_congr_left fun x hx => ?_
    exact ((h.consistent.healthy x).mem_iff_of_isFixed (fixed x hx)).1
      (solution.admits x (h.exist x hx))

/-- **All nodes below a node.** -/
theorem searchNode_spec (chooses : rule.Chooses) (h : Searchable vars s)
    (deep : s.unfixed vars < depth) :
    ∃ nodes new t, Finds vars rule (fun plan => searchNode plan depth) s nodes new t ∧
      Lists vars s.Solution new ∧ Resumes s t := by
  induction depth generalizing s with
  | zero => omega
  | succ depth ih =>
    rcases chooses s vars h.exist with ⟨none, fixed⟩ | ⟨x, member, some, loose⟩
    · refine ⟨0, [vars.map s.domains.lower], s, ?_, lists_lower h fixed,
        .refl h.consistent h.quiet⟩
      intro maxNodes maxSolutions f nodes solutions
      refine ⟨{ f with solutions := f.solutions.push (vars.map s.domains.lower) }, ?_, rfl, ?_⟩
      · simp only [searchNode, checkNode, none, bind, Except.bind, pure, Except.pure,
          Bool.false_eq_true, if_false]
      · exact Array.toList_push
    · obtain ⟨nodes, new, t, finds, enough, lists, resumes⟩ :=
        tryValues_spec h rfl member (Domain.nodup_values (s.domains.domain x))
          (fun v hv => Domain.mem_values.1 hv) loose (by omega) fun t => ih
      refine ⟨nodes, new, t, ?_, ⟨lists.nodup, fun found => (lists.mem found).trans ?_⟩, resumes⟩
      · intro maxNodes maxSolutions f nodesF solutionsF
        have proper := h.consistent.healthy x
        have all : (s.domains.domain x).smallestValues (maxNodes - f.nodes) =
            (s.domains.domain x).values := by
          refine Domain.smallestValues_eq proper.holes_nodup ?_
          rw [← Domain.length_values proper.holes_nodup]
          omega
        obtain ⟨g, done, found⟩ := finds maxNodes maxSolutions f nodesF solutionsF
        refine ⟨g, ?_, found⟩
        simp only [searchNode, checkNode, some, all, bind, Except.bind, pure, Except.pure,
          Bool.false_eq_true, if_false]
        exact done
      · refine exists_congr fun a => and_congr_left' ⟨And.left, fun solution => ⟨solution, ?_⟩⟩
        exact Domain.mem_values.2 (solution.admits x (h.exist x member))

end State

end Stowage

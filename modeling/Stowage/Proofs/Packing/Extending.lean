import Stowage.Proofs.Packing.Changes

/-!
# No candidate can become big any more

The big items of a bin are extended when every other candidate fits beside the smallest of them.  Any
candidates that exclude each other are then among them.

* `Bin.Extended` — the property.
* `Bin.extended_extendBig` — extending the big items establishes it.
* `Bin.Extended.isBig` — candidates that exclude each other are big.
-/

set_option autoImplicit false

namespace Stowage

namespace Bin

/-- Every candidate after the smallest big one, or after the largest if none is big, fits beside it. -/
def Extended (p : Packing) (free : Int) (bin : Bin) : Prop :=
  ∀ a, bin.anchor? = some a → ∀ c ∈ bin.candidates, a < c → p.size 0 a + p.size 0 c ≤ free

variable {p : Packing} {placed : Nat → Bool} {capacity free : Int} {bin : Bin}

/-- Only the candidates and the first small position matter. -/
theorem Extended.congr {other : Bin} (h : bin.Extended p free)
    (candidates : other.candidates = bin.candidates)
    (firstSmall : other.firstSmall = bin.firstSmall) : other.Extended p free := by
  have same : other.anchor? = bin.anchor? := by
    have big : other.isBig = bin.isBig := by
      funext i
      rw [isBig, isBig, firstSmall]
    rw [anchor?, anchor?, big, candidates]
  intro a anchor c member
  rw [same] at anchor
  rw [candidates] at member
  exact h a anchor c member

/-- **Candidates that exclude each other are big.**  The first that is not big fits beside the smallest
big one, or beside the largest candidate if none is big. -/
theorem Extended.isBig (h : bin.Extended p free) (ascending : bin.candidates.Pairwise (· < ·)) {n : Nat}
    (exclusive : ∀ i ∈ bin.candidates, ∀ j ∈ bin.candidates, i < j → j < n →
      free < p.size 0 i + p.size 0 j) {i j : Nat} (hi : i ∈ bin.candidates)
    (hj : j ∈ bin.candidates) (before : i < j) (less : j < n) : bin.isBig j = true := by
  by_contra small
  cases anchor : bin.anchor? with
  | none =>
    rw [anchor?_eq_none anchor] at hi
    cases hi
  | some a =>
    obtain ⟨member, last, kind⟩ := anchor?_eq_some ascending anchor
    have after : a < j := by
      rcases kind with big | head
      · simp only [Bin.isBig, decide_eq_true_eq] at big small
        omega
      · have := head_le ascending head hi
        omega
    have fits := h a anchor j hj after
    have clash := exclusive a member j hj after less
    omega

/-- The chain ends where the next candidate fits beside its predecessor; the smaller ones do as well. -/
theorem fits_after_chain {size : Nat → Int} {bound : Nat}
    (antitone : ∀ i j, i ≤ j → j < bound → size j ≤ size i) {a : Nat} {rest tail : List Nat}
    (ascending : (a :: rest).Pairwise (· < ·)) (bounded : ∀ c ∈ a :: rest, c < bound)
    (shape : rest = chain size free a rest ++ tail) {last : Nat}
    (end' : (a :: chain size free a rest).getLast? = some last) {c : Nat} (hc : c ∈ tail) :
    size last + size c ≤ free := by
  induction rest generalizing a with
  | nil =>
    obtain ⟨-, rfl⟩ := List.append_eq_nil_iff.1 shape.symm
    cases hc
  | cons b rest ih =>
    obtain ⟨-, later⟩ := List.pairwise_cons.1 ascending
    by_cases fits : size a + size b ≤ free
    · rw [chain, if_pos fits] at shape end'
      obtain rfl : a = last := by simpa using end'
      have inside : c ∈ b :: rest := by
        rw [shape]
        exact hc
      have smaller : size c ≤ size b := by
        refine antitone b c ?_ (bounded c (List.mem_cons_of_mem _ inside))
        rcases List.mem_cons.1 inside with rfl | after
        · exact Nat.le_refl _
        · exact Nat.le_of_lt ((List.pairwise_cons.1 later).1 c after)
      omega
    · rw [chain, if_neg fits] at shape end'
      rw [List.getLast?_cons_cons] at end'
      exact ih later (fun d hd => bounded d (List.mem_cons_of_mem _ hd))
        (List.cons.inj shape).2 end'

/-- Where no big item is placed, the anchor decides what becomes big. -/
theorem extendBig_of_anchor {a : Nat} (notPlaced : bin.bigPlaced = false)
    (anchor : bin.anchor? = some a) (free : Int) :
    bin.extendBig p free = (p.sizeOf 0 (bin.added p free a), bin.enlarge p (bin.added p free a)) := by
  have unset : { bin with bigPlaced := false } = bin := by
    cases bin
    cases notPlaced
    rfl
  rw [Bin.extendBig, if_neg (by simp [notPlaced])]
  simp only [unset, anchor]
  rfl

/-- The smallest big candidate after some became big is the last of them. -/
theorem anchor?_enlarge {a b : Nat} (ascending : bin.candidates.Pairwise (· < ·))
    (some : bin.added p free a ≠ [])
    (anchor : (bin.enlarge p (bin.added p free a)).anchor? = Option.some b) :
    (bin.added p free a).getLast? = Option.some b := by
  obtain ⟨init, last, split⟩ := (List.eq_nil_or_concat' (bin.added p free a)).resolve_left some
  have lastIn : last ∈ bin.added p free a := by simp [split]
  have lastCandidate := (mem_of_mem_added lastIn).1
  -- the candidates of the new bin are those of the old one
  have sorted : (bin.enlarge p (bin.added p free a)).candidates.Pairwise (· < ·) := ascending
  obtain ⟨member, most, kind⟩ := anchor?_eq_some sorted anchor
  have low : last ≤ b :=
    most last lastCandidate ((isBig_enlarge ascending some lastCandidate).2 (.inr lastIn))
  have high : b ≤ last := by
    rcases kind with big | head
    · have bound : (bin.enlarge p (bin.added p free a)).firstSmall = last + 1 := by
        simp [enlarge, split]
      simp only [Bin.isBig, bound, decide_eq_true_eq] at big
      omega
    · exact head_le sorted head lastCandidate
  rw [split, Nat.le_antisymm high low]
  simp

/-- **Extending the big items leaves none to be extended**, unless a big item is placed in the bin. -/
theorem extended_extendBig (acc : bin.Accounts p placed capacity) (wf : p.WellFormed) (free : Int)
    (notPlaced : bin.bigPlaced = false) : (bin.extendBig p free).2.Extended p free := by
  cases anchor : bin.anchor? with
  | none =>
    intro a _ c member
    have candidates : (bin.extendBig p free).2.candidates = bin.candidates := by
      rcases extendBig_eq acc free with same | ⟨_, -, -, same⟩ <;> rw [same]
      rfl
    rw [candidates, anchor?_eq_none anchor] at member
    cases member
  | some a =>
    rw [extendBig_of_anchor notPlaced anchor]
    intro b anchorB c member after
    obtain ⟨memberA, -, -⟩ := anchor?_eq_some acc.ascending anchor
    obtain ⟨tail, shape⟩ := chain_startsWith (p.size 0) free a
      (bin.candidates.filter fun c => decide (a < c))
    have ascending : (a :: bin.candidates.filter fun c => decide (a < c)).Pairwise (· < ·) :=
      List.pairwise_cons.2 ⟨fun c hc => by simpa using (List.mem_filter.1 hc).2,
        acc.ascending.filter _⟩
    have bounded : ∀ c ∈ a :: bin.candidates.filter (fun c => decide (a < c)), c < p.numItems := by
      intro c hc
      rcases List.mem_cons.1 hc with rfl | hc
      · exact acc.bounded _ memberA
      · exact acc.bounded c (List.mem_filter.1 hc).1
    have last : (a :: bin.added p free a).getLast? = some b := by
      by_cases nothing : bin.added p free a = []
      · rw [nothing, enlarge_nil notPlaced, anchor] at anchorB
        rw [nothing]
        exact anchorB
      · have found := anchor?_enlarge acc.ascending nothing anchorB
        rw [List.getLast?_cons, found]
        rfl
    -- what comes after the new anchor was not added
    have inTail : c ∈ tail := by
      have whole : c ∈ bin.added p free a ++ tail := by
        rw [added, shape]
        refine List.mem_filter.2 ⟨member, decide_eq_true ?_⟩
        refine lt_of_le_of_lt ?_ after
        rcases List.mem_cons.1 (List.mem_of_getLast? last) with rfl | inside
        · exact Nat.le_refl _
        · exact Nat.le_of_lt (mem_of_mem_added inside).2
      refine (List.mem_append.1 whole).resolve_left fun inside => ?_
      obtain ⟨init, split⟩ := List.getLast?_eq_some_iff.1 last
      have sorted : (init ++ [b]).Pairwise (· < ·) :=
        split ▸ ascending.sublist ((chain_startsWith _ _ _ _).sublist.cons_cons a)
      rcases List.mem_append.1 (split ▸ List.mem_cons_of_mem a inside) with before | same
      · have := (List.pairwise_append.1 sorted).2.2 c before b List.mem_cons_self
        omega
      · have : c = b := by simpa using same
        omega
    exact fits_after_chain wf.antitone ascending bounded shape.symm last inTail

end Bin

end Stowage

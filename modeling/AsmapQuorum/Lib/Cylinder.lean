import AsmapQuorum.Lib.PrefixOverwrite
import Mathlib.Algebra.GroupWithZero.Nat
import Mathlib.Data.Fintype.BigOperators
import Mathlib.Data.Set.Card
import Mathlib.Data.Set.Finite.List
import Mathlib.Order.CompletePartialOrder

/-!
# Counting the words below prefixes

The words of one length over a finite alphabet, sorted by what they start with.

* `cylinder n p` — the words of length `n` that start with `p`; there are as many as words of the
  remaining length (`ncard_cylinder`), and none in common with those of a prefix that parts
  (`disjoint_cylinder_iff`).
* `ncard_cylinders` — **below prefixes that part from each other the words add up.**
-/

namespace PrefixOverwrite

variable {α : Type*}

/-- The words of length `n` that start with `p`. -/
def cylinder (n : ℕ) (p : List α) : Set (List α) := {w | w.length = n ∧ p <+: w}

/-- The words of length `n` that start with a prefix of the list. -/
def cylinders (n : ℕ) (P : List (List α)) : Set (List α) := {w | w.length = n ∧ ∃ p ∈ P, p <+: w}

theorem cylinders_cons (n : ℕ) (p : List α) (P : List (List α)) :
    cylinders n (p :: P) = cylinder n p ∪ cylinders n P := by
  ext w
  simp only [cylinders, cylinder, List.mem_cons, exists_eq_or_imp, Set.mem_ofPred_eq, Set.mem_union,
    ← and_or_left]

theorem disjoint_cylinder_cylinders [Preorder α] {n : ℕ} {p : List α} {P : List (List α)}
    (h : ∀ q ∈ P, Before p q) : Disjoint (cylinder n p) (cylinders n P) := by
  refine Set.disjoint_left.2 fun w hp hP => ?_
  obtain ⟨-, q, hq, hqw⟩ := hP
  rcases List.prefix_or_prefix_of_prefix hp.2 hqw with hpq | hqp
  · exact (h q hq).not_nested.1 hpq
  · exact (h q hq).not_nested.2 hqp

/-- Two prefixes have a word in common exactly if one of them extends the other. -/
theorem disjoint_cylinder_iff [Inhabited α] {n : ℕ} {p q : List α} (hp : p.length ≤ n)
    (hq : q.length ≤ n) : Disjoint (cylinder n p) (cylinder n q) ↔ ¬p <+: q ∧ ¬q <+: p := by
  have hword : ∀ r : List α, r.length ≤ n →
      r ++ List.replicate (n - r.length) default ∈ cylinder n r := by
    intro r hr
    refine ⟨?_, List.prefix_append ..⟩
    rw [List.length_append, List.length_replicate, Nat.add_sub_of_le hr]
  rw [Set.disjoint_left]
  constructor
  · intro h
    refine ⟨fun hpq => ?_, fun hqp => ?_⟩
    · obtain ⟨hlen, hpfx⟩ := hword q hq
      exact h ⟨hlen, hpq.trans hpfx⟩ ⟨hlen, hpfx⟩
    · obtain ⟨hlen, hpfx⟩ := hword p hp
      exact h ⟨hlen, hpfx⟩ ⟨hlen, hqp.trans hpfx⟩
  · intro h w hpw hqw
    rcases List.prefix_or_prefix_of_prefix hpw.2 hqw.2 with hpq | hqp
    · exact h.1 hpq
    · exact h.2 hqp

variable [Fintype α]

theorem ncard_words (n : ℕ) : {w : List α | w.length = n}.ncard = Fintype.card α ^ n := by
  have hcard : Nat.card (List.Vector α n) = Fintype.card α ^ n := by
    rw [Nat.card_eq_fintype_card, card_vector]
  exact hcard

theorem finite_cylinders (n : ℕ) (P : List (List α)) : (cylinders n P).Finite :=
  (List.finite_length_eq α n).subset fun _ hw => hw.1

theorem finite_cylinder (n : ℕ) (p : List α) : (cylinder n p).Finite :=
  (List.finite_length_eq α n).subset fun _ hw => hw.1

/-- **A prefix leaves the words of the remaining length.** -/
theorem ncard_cylinder {n : ℕ} {p : List α} (h : p.length ≤ n) :
    (cylinder n p).ncard = Fintype.card α ^ (n - p.length) := by
  have himage : cylinder n p = (p ++ ·) '' {w : List α | w.length = n - p.length} := by
    ext w
    constructor
    · rintro ⟨hw, u, rfl⟩
      refine ⟨u, ?_, rfl⟩
      rw [Set.mem_ofPred_eq, ← hw, List.length_append, Nat.add_sub_cancel_left]
    · rintro ⟨u, hu, rfl⟩
      refine ⟨?_, List.prefix_append p u⟩
      rw [List.length_append, show u.length = n - p.length from hu, Nat.add_sub_of_le h]
  rw [himage, Set.ncard_image_of_injective _ (List.append_right_injective p), ncard_words]

/-- **Below prefixes that part from each other the words add up.** -/
theorem ncard_cylinders [Preorder α] {n : ℕ} {P : List (List α)} (hP : P.Pairwise Before)
    (hlen : ∀ p ∈ P, p.length ≤ n) :
    (cylinders n P).ncard = (P.map fun p => Fintype.card α ^ (n - p.length)).sum := by
  induction P with
  | nil =>
    have hempty : cylinders n ([] : List (List α)) = ∅ := by
      ext w
      simp [cylinders]
    rw [hempty, Set.ncard_empty]
    rfl
  | cons p P ih =>
    rw [List.pairwise_cons] at hP
    rw [List.forall_mem_cons] at hlen
    rw [cylinders_cons, Set.ncard_union_eq (disjoint_cylinder_cylinders hP.1) (finite_cylinder n p)
      (finite_cylinders n P), ncard_cylinder hlen.1, ih hP.2 hlen.2, List.map_cons, List.sum_cons]

omit [Fintype α] in
theorem cylinders_subset {n : ℕ} {p : List α} {P : List (List α)} (h : ∀ q ∈ P, p <+: q) :
    cylinders n P ⊆ cylinder n p := by
  rintro w ⟨hw, q, hq, hqw⟩
  exact ⟨hw, (h q hq).trans hqw⟩

/-- There are fewer words below prefixes than words at all exactly if some word is below none. -/
theorem ncard_cylinders_lt_iff {n : ℕ} {P : List (List α)} :
    (cylinders n P).ncard < Fintype.card α ^ n ↔ ∃ w : List α, w.length = n ∧
    ∀ p ∈ P, ¬p <+: w := by
  have hsub : cylinders n P ⊆ {w | w.length = n} := fun _ hw => hw.1
  rw [← ncard_words]
  constructor
  · intro hlt
    obtain ⟨w, hw, hnot⟩ := Set.exists_mem_notMem_of_ncard_lt_ncard hlt (finite_cylinders n P)
    exact ⟨w, hw, fun p hp hpw => hnot ⟨hw, p, hp, hpw⟩⟩
  · rintro ⟨w, hw, hnone⟩
    refine Set.ncard_lt_ncard ⟨hsub, fun hall => ?_⟩ (List.finite_length_eq α n)
    obtain ⟨-, p, hp, hpw⟩ := hall (show w ∈ {w : List α | w.length = n} from hw)
    exact hnone p hp hpw

end PrefixOverwrite

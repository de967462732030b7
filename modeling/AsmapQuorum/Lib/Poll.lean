import Mathlib.Algebra.BigOperators.Group.Finset.Basic
import Mathlib.Algebra.Order.BigOperators.Group.Finset
import Mathlib.Data.Finset.Card
import Mathlib.Order.Lattice

/-!
# Polls with one voice each

A poll is a finite set of voters and, for every voter, a partial function from questions to answers:
a voter gives at most one answer to a question.  What follows from that alone:

* `Poll.sum_votes_le` — the votes on one question never outnumber the voters;
* `Poll.Decided` — the answer a threshold rule picks: most votes, and the least answer on a tie.
  `Decided.unique` makes it a partial function of the question;
* `Poll.agreement` — **quorum intersection**: two polls whose voters, counted together with those
  that answered them differently, are fewer than two thresholds never decide one question
  differently.
-/

/-- Voters, and what each of them answers. -/
structure Poll (σ κ ν : Type*) where
  voters : Finset σ
  ballot : σ → κ → Option ν

namespace Poll

variable {σ κ ν : Type*} [DecidableEq σ] [DecidableEq ν]

/-! ### Counting -/

/-- Who answers `a` to `k`. -/
def supporters (P : Poll σ κ ν) (k : κ) (a : ν) : Finset σ :=
  P.voters.filter fun s => P.ballot s k = some a

def votes (P : Poll σ κ ν) (k : κ) (a : ν) : ℕ := (P.supporters k a).card

omit [DecidableEq σ] in
theorem mem_supporters {P : Poll σ κ ν} {k : κ} {a : ν} {s : σ} :
    s ∈ P.supporters k a ↔ s ∈ P.voters ∧ P.ballot s k = some a := by
  rw [supporters, Finset.mem_filter]

/-- **Nobody is counted twice on one question.** -/
theorem sum_votes_le (P : Poll σ κ ν) (k : κ) (answers : Finset ν) :
    ∑ a ∈ answers, P.votes k a ≤ P.voters.card := by
  have hdisj : (answers : Set ν).PairwiseDisjoint (P.supporters k) := by
    intro a _ b _ hab
    rw [Function.onFun, Finset.disjoint_left]
    intro s ha hb
    rw [mem_supporters] at ha hb
    exact hab (Option.some.inj (ha.2.symm.trans hb.2))
  calc ∑ a ∈ answers, P.votes k a = (answers.biUnion (P.supporters k)).card :=
        (Finset.card_biUnion hdisj).symm
    _ ≤ P.voters.card := by
        apply Finset.card_le_card
        intro s hs
        obtain ⟨a, -, ha⟩ := Finset.mem_biUnion.1 hs
        exact (mem_supporters.1 ha).1

/-! ### The threshold rule -/

variable [LinearOrder ν]

/-- `a` has votes, at least the threshold of them, and no other answer has more; of the answers with
as many, it is the least. -/
structure Decided (P : Poll σ κ ν) (threshold : ℕ) (k : κ) (a : ν) : Prop where
  pos : 1 ≤ P.votes k a
  quorum : threshold ≤ P.votes k a
  best : ∀ b, P.votes k b ≤ P.votes k a
  least : ∀ b, P.votes k b = P.votes k a → a ≤ b

omit [DecidableEq σ] in
theorem Decided.unique {P : Poll σ κ ν} {t : ℕ} {k : κ} {a b : ν} (ha : P.Decided t k a)
    (hb : P.Decided t k b) : a = b := by
  have hvotes : P.votes k a = P.votes k b := le_antisymm (hb.best a) (ha.best b)
  exact le_antisymm (ha.least b hvotes.symm) (hb.least a hvotes)

omit [DecidableEq σ] in
/-- The decision reads the votes on its own question only. -/
theorem Decided.congr {P Q : Poll σ κ ν} {t : ℕ} {k : κ} {a : ν} (h : P.Decided t k a)
    (hvotes : ∀ b, P.votes k b = Q.votes k b) : Q.Decided t k a where
  pos := hvotes a ▸ h.pos
  quorum := hvotes a ▸ h.quorum
  best b := by
    rw [← hvotes, ← hvotes]
    exact h.best b
  least b hb := h.least b (by rwa [hvotes, hvotes])

/-! ### Two polls -/

omit [LinearOrder ν] in
/-- Two large sets of supporters share a voter outside any small set. -/
theorem exists_common_supporter {P Q : Poll σ κ ν} {t : ℕ} {k : κ} {a b : ν}
    (ha : t ≤ P.votes k a) (hb : t ≤ Q.votes k b) {F : Finset σ}
    (hF : (P.voters ∪ Q.voters).card + F.card < 2 * t) :
    ∃ s ∈ P.supporters k a ∩ Q.supporters k b, s ∉ F := by
  apply Finset.exists_mem_notMem_of_card_lt_card
  have hunion : (P.supporters k a ∪ Q.supporters k b).card ≤ (P.voters ∪ Q.voters).card :=
    Finset.card_le_card (Finset.union_subset_union (Finset.filter_subset _ _)
      (Finset.filter_subset _ _))
  have hcount := Finset.card_union_add_card_inter (P.supporters k a) (Q.supporters k b)
  rw [votes] at ha hb
  omega

/-- **Quorum intersection.**  A voter outside `F` that is in both polls answers both alike. -/
theorem agreement {P Q : Poll σ κ ν} {t : ℕ} {F : Finset σ}
    (hF : (P.voters ∪ Q.voters).card + F.card < 2 * t)
    (hsame : ∀ s ∈ P.voters ∩ Q.voters, s ∉ F → P.ballot s = Q.ballot s) {k : κ} {a b : ν}
    (ha : P.Decided t k a) (hb : Q.Decided t k b) : a = b := by
  obtain ⟨s, hs, hsF⟩ := exists_common_supporter ha.quorum hb.quorum hF
  rw [Finset.mem_inter, mem_supporters, mem_supporters] at hs
  obtain ⟨⟨hsP, hsa⟩, hsQ, hsb⟩ := hs
  rw [hsame s (Finset.mem_inter.2 ⟨hsP, hsQ⟩) hsF, hsb] at hsa
  exact (Option.some.inj hsa).symm

end Poll

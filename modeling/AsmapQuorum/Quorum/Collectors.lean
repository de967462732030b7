import Mathlib.Data.Finset.Sort
import Mathlib.Data.List.Dedup
import Mathlib.Data.String.Basic

/-!
# Collectors and peers

`collect` divides the route collectors among the peers it knows: the peers are sorted, and each
takes every `n`-th collector from its own position on.

* `assignedCollectors`, `targets` — the assignment, and what is downloaded for it.
* `mem_assignedCollectors` — a peer is assigned the collectors whose position is its own, up to the
  number of peers.
* `downloads_partition_iff` — consistent views **divide the downloads exactly when there are no more
  peers than collectors**: a peer with nothing to do downloads everything.
-/

namespace AsmapQuorum

/-- All participants that a node sees, in their common order.  The set is iterated in descending
order, as good as any before the list is sorted. -/
def participants (localPeerId : String) (peers : Finset String) : List String :=
  ((peers.sort (· ≥ ·) ++ [localPeerId]).insertionSort (· ≤ ·)).dedup

def assignedCollectors (collectors : List ℕ) (localPeerId : String) (peers : Finset String) :
    List ℕ :=
  let participants := participants localPeerId peers
  if participants.isEmpty then collectors
  else
    let localIndex := (participants.idxOf? localPeerId).getD 0
    collectors.zipIdx.filterMap fun (collector, idx) =>
      if idx % participants.length = localIndex then some collector else none

/-- The collectors that `from_collectors` downloads: all of them where none is named. -/
def targets (collectors : List ℕ) : List ℕ :=
  if collectors.isEmpty then List.range 25 else collectors

/-- What a node downloads that sees all the other peers. -/
def downloads (collectors : List ℕ) (peers : Finset String) (peer : String) : List ℕ :=
  targets (assignedCollectors collectors peer (peers.erase peer))

/-! ### Consistent views -/

/-- Every node of a network sees the same participants in the same order. -/
theorem participants_erase {peers : Finset String} {peer : String} (h : peer ∈ peers) :
    participants peer (peers.erase peer) = peers.sort := by
  have hmem : ∀ p, p ∈ participants peer (peers.erase peer) ↔ p ∈ peers.sort := by
    intro p
    rw [participants, List.mem_dedup, List.mem_insertionSort, List.mem_append, Finset.mem_sort,
      Finset.mem_sort, Finset.mem_erase, List.mem_singleton]
    constructor
    · rintro (⟨-, hp⟩ | rfl)
      · exact hp
      · exact h
    · intro hp
      by_cases heq : p = peer
      · exact .inr heq
      · exact .inl ⟨heq, hp⟩
  have hperm : (participants peer (peers.erase peer)).Perm peers.sort :=
    (List.perm_ext_iff_of_nodup (List.nodup_dedup _) (Finset.sort_nodup ..)).2 hmem
  refine hperm.eq_of_pairwise (fun _ _ _ _ hab hba => le_antisymm hab hba) ?_
    (Finset.pairwise_sort _ _)
  exact (List.pairwise_insertionSort (· ≤ ·) _).sublist (List.dedup_sublist _)

theorem getD_idxOf? {α : Type*} [DecidableEq α] {l : List α} {a : α} (h : a ∈ l) :
    (l.idxOf? a).getD 0 = l.idxOf a := by
  cases hi : l.idxOf? a with
  | none => exact absurd h (List.idxOf?_eq_none_iff.1 hi)
  | some i =>
    have hidx : l.idxOf a = (l.idxOf? a).getD l.length := List.findIdx_eq_getD_findIdx?
    rw [hidx, hi]
    rfl

/-- **A peer is assigned the collectors at its own position**, up to the number of peers. -/
theorem mem_assignedCollectors {collectors : List ℕ} {peers : Finset String} {peer : String}
    (h : peer ∈ peers) {c : ℕ} :
    c ∈ assignedCollectors collectors peer (peers.erase peer) ↔
      ∃ k, collectors[k]? = some c ∧ k % peers.card = peers.sort.idxOf peer := by
  have hmem : peer ∈ peers.sort := (Finset.mem_sort _).2 h
  have hne : ¬peers.sort.isEmpty = true := by
    rw [List.isEmpty_iff]
    exact List.ne_nil_of_mem hmem
  unfold assignedCollectors
  rw [participants_erase h]
  dsimp only
  rw [if_neg hne, getD_idxOf? hmem, Finset.length_sort, List.mem_filterMap]
  constructor
  · rintro ⟨⟨collector, k⟩, hk, hsome⟩
    rw [List.mk_mem_zipIdx_iff_getElem?] at hk
    dsimp only at hsome
    split at hsome
    · next hidx =>
      cases hsome
      exact ⟨k, hk, hidx⟩
    · cases hsome
  · rintro ⟨k, hk, hidx⟩
    exact ⟨(c, k), List.mk_mem_zipIdx_iff_getElem?.2 hk, if_pos hidx⟩

section Views

variable {collectors : List ℕ} {peers : Finset String} {peer peer' : String}

/-- The position of a peer among the participants. -/
theorem idxOf_lt_card (h : peer ∈ peers) : peers.sort.idxOf peer < peers.card := by
  rw [← Finset.length_sort (· ≤ ·)]
  exact List.idxOf_lt_length_of_mem ((Finset.mem_sort _).2 h)

/-- Every position is some peer's. -/
theorem exists_idxOf_eq {k : ℕ} (hk : k < peers.card) :
    ∃ peer ∈ peers, peers.sort.idxOf peer = k := by
  rw [← Finset.length_sort (· ≤ ·)] at hk
  have hmem : (peers.sort (· ≤ ·))[k] ∈ peers := (Finset.mem_sort (· ≤ ·)).1 (List.getElem_mem hk)
  have hidx : (peers.sort (· ≤ ·)).idxOf (peers.sort (· ≤ ·))[k] = k :=
    (Finset.sort_nodup peers (· ≤ ·)).idxOf_getElem k hk
  exact ⟨_, hmem, hidx⟩

theorem eq_of_idxOf_eq (h : peer ∈ peers)
    (heq : peers.sort.idxOf peer = peers.sort.idxOf peer') : peer = peer' :=
  (List.idxOf_inj ((Finset.mem_sort _).2 h)).1 heq

/-- A collector is assigned to one peer only. -/
theorem eq_of_mem_assigned (hnodup : collectors.Nodup) (h : peer ∈ peers) (h' : peer' ∈ peers)
    {c : ℕ} (hc : c ∈ assignedCollectors collectors peer (peers.erase peer))
    (hc' : c ∈ assignedCollectors collectors peer' (peers.erase peer')) : peer = peer' := by
  rw [mem_assignedCollectors h] at hc
  rw [mem_assignedCollectors h'] at hc'
  obtain ⟨k, hk, hidx⟩ := hc
  obtain ⟨k', hk', hidx'⟩ := hc'
  have hlt : k < collectors.length := (List.getElem?_eq_some_iff.1 hk).1
  obtain rfl : k = k' := (List.getElem?_inj hlt hnodup).1 (hk.trans hk'.symm)
  exact eq_of_idxOf_eq h (hidx.symm.trans hidx')

/-- Every collector is assigned to some peer, and nothing else is. -/
theorem exists_mem_assigned (hpos : peers.Nonempty) {c : ℕ} :
    (∃ peer ∈ peers, c ∈ assignedCollectors collectors peer (peers.erase peer)) ↔
      c ∈ collectors := by
  constructor
  · rintro ⟨peer, hpeer, hc⟩
    obtain ⟨k, hk, -⟩ := (mem_assignedCollectors hpeer).1 hc
    exact List.mem_of_getElem? hk
  · intro hc
    obtain ⟨k, hk⟩ := List.getElem?_of_mem hc
    obtain ⟨peer, hpeer, hidx⟩ := exists_idxOf_eq (Nat.mod_lt k hpos.card_pos)
    exact ⟨peer, hpeer, (mem_assignedCollectors hpeer).2 ⟨k, hk, hidx.symm⟩⟩

/-- A peer has a collector exactly if there are more collectors than peers before it. -/
theorem assignedCollectors_eq_nil_iff (h : peer ∈ peers) :
    assignedCollectors collectors peer (peers.erase peer) = [] ↔
      collectors.length ≤ peers.sort.idxOf peer := by
  rw [List.eq_nil_iff_forall_not_mem]
  constructor
  · intro hnone
    by_contra hlt
    push Not at hlt
    refine hnone collectors[peers.sort.idxOf peer] ((mem_assignedCollectors h).2 ?_)
    exact ⟨_, List.getElem?_eq_getElem hlt, Nat.mod_eq_of_lt (idxOf_lt_card h)⟩
  · intro hle c hc
    obtain ⟨k, hk, hidx⟩ := (mem_assignedCollectors h).1 hc
    have hlt : k < collectors.length := (List.getElem?_eq_some_iff.1 hk).1
    have hmod := Nat.mod_le k peers.card
    omega

theorem downloads_of_ne_nil
    (h : assignedCollectors collectors peer (peers.erase peer) ≠ []) :
    downloads collectors peers peer = assignedCollectors collectors peer (peers.erase peer) := by
  rw [downloads, targets, if_neg (by rwa [List.isEmpty_iff])]

theorem downloads_of_eq_nil (h : assignedCollectors collectors peer (peers.erase peer) = []) :
    downloads collectors peers peer = List.range 25 := by
  rw [downloads, targets, h]
  rfl

end Views

/-! ### Dividing the downloads -/

/-- No collector is downloaded by two peers, and together they download the ones that were named. -/
def Partitions (collectors : List ℕ) (peers : Finset String) : Prop :=
  (∀ peer ∈ peers, ∀ peer' ∈ peers, peer ≠ peer' →
    (downloads collectors peers peer).Disjoint (downloads collectors peers peer')) ∧
  ∀ c, (∃ peer ∈ peers, c ∈ downloads collectors peers peer) ↔ c ∈ collectors

/-- **The downloads are divided exactly when there are no more peers than collectors.** -/
theorem downloads_partition_iff {collectors : List ℕ} {peers : Finset String}
    (hnodup : collectors.Nodup) (hpos : peers.Nonempty) :
    Partitions collectors peers ↔ peers.card ≤ collectors.length := by
  constructor
  · rintro ⟨hdisjoint, hunion⟩
    by_contra hlt
    push Not at hlt
    -- the first peer without a collector downloads collector 0 too
    obtain ⟨idle, hidle, hidx⟩ := exists_idxOf_eq hlt
    have hnone : assignedCollectors collectors idle (peers.erase idle) = [] :=
      (assignedCollectors_eq_nil_iff hidle).2 hidx.ge
    have hzero : 0 ∈ downloads collectors peers idle := by
      rw [downloads_of_eq_nil hnone]
      decide
    obtain ⟨peer, hpeer, hassigned⟩ :=
      (exists_mem_assigned hpos).2 ((hunion 0).1 ⟨idle, hidle, hzero⟩)
    have hbusy := List.ne_nil_of_mem hassigned
    have hother : peer ≠ idle := by
      rintro rfl
      exact hbusy hnone
    apply hdisjoint peer hpeer idle hidle hother (a := 0) _ hzero
    rwa [downloads_of_ne_nil hbusy]
  · intro hle
    have hbusy : ∀ peer ∈ peers, downloads collectors peers peer =
        assignedCollectors collectors peer (peers.erase peer) := by
      intro peer hpeer
      apply downloads_of_ne_nil
      rw [ne_eq, assignedCollectors_eq_nil_iff hpeer]
      have hidx := idxOf_lt_card hpeer
      omega
    refine ⟨fun peer hpeer peer' hpeer' hother c hc hc' => ?_, fun c => ?_⟩
    · rw [hbusy peer hpeer] at hc
      rw [hbusy peer' hpeer'] at hc'
      exact hother (eq_of_mem_assigned hnodup hpeer hpeer' hc hc')
    · rw [← exists_mem_assigned hpos]
      apply exists_congr
      intro peer
      apply and_congr_right
      intro hpeer
      rw [hbusy peer hpeer]

/-- Three collectors, two peers. -/
theorem downloads_partition_iff_two_peers :
    Partitions [3, 5, 7] {"alice", "bob"} ↔ ({"alice", "bob"} : Finset String).card ≤ 3 :=
  downloads_partition_iff (by decide) ⟨"alice", by decide⟩

/-- One collector, two peers: the second downloads all 25. -/
theorem downloads_of_idle_peer : ¬∀ (collectors : List ℕ) (peers : Finset String), collectors ≠ [] →
    collectors.Nodup → peers.Nonempty → Partitions collectors peers := by
  intro hall
  have hthree := (hall [3] {"alice", "bob"} (by decide) (by decide) ⟨"alice", by decide⟩).2 0
  have hzero : 0 ∈ downloads [3] {"alice", "bob"} "bob" := by decide +kernel
  exact absurd (hthree.1 ⟨"bob", by decide, hzero⟩) (by decide)

end AsmapQuorum

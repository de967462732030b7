import Mathlib.Data.List.Nodup
import Mathlib.Order.Nat

/-!
# Footprints

A heap is a list of cells, a cell's place its identity.  A structure in it has a footprint, the
identities of its cells; a program that changes the structure touches no other cell, but may make
new ones.

* `Changed` — what such a program does to the heap and to the footprint.
* `Changed.trans` — one after the other; `Changed.frame` — what surrounds the structure stays as it
  is; `Changed.left`, `Changed.right` — a change of one of the two parts below a cell.
-/

namespace Footprint

variable {α : Type*} {heap heap' heap'' : List α} {f f' f'' : List ℕ}

structure Changed (heap heap' : List α) (f f' : List ℕ) : Prop where
  keep : ∀ j < heap.length, j ∉ f → heap'[j]? = heap[j]?
  fresh : ∀ j ∈ f', j ∈ f ∨ heap.length ≤ j
  nodup : f'.Nodup
  length_le : heap.length ≤ heap'.length

namespace Changed

theorem refl (hf : f.Nodup) : Changed heap heap f f where
  keep _ _ _ := rfl
  fresh _ hj := .inl hj
  nodup := hf
  length_le := le_rfl

theorem trans (h : Changed heap heap' f f') (h' : Changed heap' heap'' f' f'') :
    Changed heap heap'' f f'' where
  keep := by
    intro j hj hnot
    have hnot' : j ∉ f' := by
      intro hmem
      obtain hold | hnew := h.fresh j hmem
      · exact hnot hold
      · omega
    rw [h'.keep j (hj.trans_le h.length_le) hnot', h.keep j hj hnot]
  fresh := by
    intro j hj
    obtain hold | hnew := h'.fresh j hj
    · exact h.fresh j hold
    · exact .inr (h.length_le.trans hnew)
  nodup := h'.nodup
  length_le := h.length_le.trans h'.length_le

/-- Part of the structure is given up. -/
theorem shrink (h : Changed heap heap' f f') (hsub : f''.Sublist f') :
    Changed heap heap' f f'' where
  keep := h.keep
  fresh j hj := h.fresh j (hsub.subset hj)
  nodup := h.nodup.sublist hsub
  length_le := h.length_le

theorem set {i : ℕ} (hi : i ∈ f) (hf : f.Nodup) (a : α) : Changed heap (heap.set i a) f f where
  keep := by
    intro j _ hnot
    have hne : i ≠ j := fun heq => hnot (heq ▸ hi)
    rw [List.getElem?_set_ne hne]
  fresh _ hj := .inl hj
  nodup := hf
  length_le := by rw [List.length_set]

theorem push (hf : f.Nodup) (hlt : ∀ j ∈ f, j < heap.length) (a : α) :
    Changed heap (heap ++ [a]) f (f ++ [heap.length]) where
  keep _ hj _ := List.getElem?_append_left hj
  fresh := by
    intro j hj
    obtain hold | hnew := List.mem_append.1 hj
    · exact .inl hold
    · exact .inr (List.mem_singleton.1 hnew).ge
  nodup := by
    rw [List.nodup_append]
    refine ⟨hf, List.nodup_singleton _, ?_⟩
    intro i hi j hj heq
    have hi := hlt i hi
    rw [heq, List.mem_singleton.1 hj] at hi
    exact absurd hi (lt_irrefl _)
  length_le := by
    rw [List.length_append]
    exact Nat.le_add_right _ _

/-- A cell next to the structure stays. -/
theorem getElem?_of_disjoint {g : List ℕ} (h : Changed heap heap' f f')
    (hlt : ∀ j ∈ g, j < heap.length) (hdisj : f.Disjoint g) : ∀ j ∈ g, heap'[j]? = heap[j]? :=
  fun j hj => h.keep j (hlt j hj) fun hmem => hdisj hmem hj

/-- **What surrounds the structure** stays where it is. -/
theorem frame {A B : List ℕ} (h : Changed heap heap' f f') (hnodup : (A ++ f ++ B).Nodup)
    (hlt : ∀ j ∈ A ++ f ++ B, j < heap.length) : Changed heap heap' (A ++ f ++ B)
    (A ++ f' ++ B) where
  keep := by
    intro j hj hnot
    refine h.keep j hj fun hmem => hnot ?_
    exact List.mem_append_left B (List.mem_append_right A hmem)
  fresh := by
    intro j hj
    obtain hj | hj := List.mem_append.1 hj
    · obtain hj | hj := List.mem_append.1 hj
      · exact .inl (List.mem_append_left B (List.mem_append_left f hj))
      · obtain hold | hnew := h.fresh j hj
        · exact .inl (List.mem_append_left B (List.mem_append_right A hold))
        · exact .inr hnew
    · exact .inl (List.mem_append_right (A ++ f) hj)
  nodup := by
    obtain ⟨hAf, hB, hABdisj⟩ := List.nodup_append'.1 hnodup
    obtain ⟨hA, -, hAdisj⟩ := List.nodup_append'.1 hAf
    have hapart : ∀ j ∈ f', j ∉ A ∧ j ∉ B := by
      intro j hj
      obtain hold | hnew := h.fresh j hj
      · exact ⟨fun hmem => hAdisj hmem hold,
          fun hmem => hABdisj (List.mem_append_right A hold) hmem⟩
      · refine ⟨fun hmem => ?_, fun hmem => ?_⟩
        · exact absurd (hlt j (List.mem_append_left B (List.mem_append_left f hmem)))
            (not_lt.2 hnew)
        · exact absurd (hlt j (List.mem_append_right (A ++ f) hmem)) (not_lt.2 hnew)
    refine List.nodup_append'.2 ⟨List.nodup_append'.2 ⟨hA, h.nodup, ?_⟩, hB, ?_⟩
    · intro j hjA hjf
      exact (hapart j hjf).1 hjA
    · intro j hj hjB
      obtain hjA | hjf := List.mem_append.1 hj
      · exact hABdisj (List.mem_append_left f hjA) hjB
      · exact (hapart j hjf).2 hjB
  length_le := h.length_le

/-! ### A cell over two parts -/

variable {i : ℕ} {g : List ℕ}

/-- A change of the left part leaves the cell and the right part. -/
theorem left (h : Changed heap heap' f f') (hnodup : (i :: (f ++ g)).Nodup)
    (hlt : ∀ j ∈ i :: (f ++ g), j < heap.length) :
    heap'[i]? = heap[i]? ∧ (∀ j ∈ g, heap'[j]? = heap[j]?) ∧
      Changed heap heap' (i :: (f ++ g)) (i :: (f' ++ g)) := by
  obtain ⟨hi, hparts⟩ := List.nodup_cons.1 hnodup
  obtain ⟨-, -, hdisj⟩ := List.nodup_append'.1 hparts
  have hg : ∀ j ∈ g, j < heap.length :=
    fun j hj => hlt j (List.mem_cons_of_mem i (List.mem_append_right f hj))
  have hframe : Changed heap heap' ([i] ++ f ++ g) ([i] ++ f' ++ g) := h.frame hnodup hlt
  refine ⟨h.keep i (hlt i List.mem_cons_self) ?_, h.getElem?_of_disjoint hg hdisj, hframe⟩
  exact fun hmem => hi (List.mem_append_left g hmem)

/-- A change of the right part leaves the cell and the left part. -/
theorem right (h : Changed heap heap' f f') (hnodup : (i :: (g ++ f)).Nodup)
    (hlt : ∀ j ∈ i :: (g ++ f), j < heap.length) :
    heap'[i]? = heap[i]? ∧ (∀ j ∈ g, heap'[j]? = heap[j]?) ∧
      Changed heap heap' (i :: (g ++ f)) (i :: (g ++ f')) := by
  obtain ⟨hi, hparts⟩ := List.nodup_cons.1 hnodup
  obtain ⟨-, -, hdisj⟩ := List.nodup_append'.1 hparts
  have hapart : f.Disjoint g := fun j hf hg => hdisj hg hf
  have hg : ∀ j ∈ g, j < heap.length :=
    fun j hj => hlt j (List.mem_cons_of_mem i (List.mem_append_left f hj))
  have hframe : Changed heap heap' (i :: (g ++ f)) (i :: (g ++ f')) := by
    have hnodup' := hnodup
    have hlt' := hlt
    rw [← List.cons_append, ← List.append_nil (i :: g ++ f)] at hnodup' hlt'
    have hwhole := h.frame hnodup' hlt'
    rwa [List.append_nil, List.append_nil] at hwhole
  refine ⟨h.keep i (hlt i List.mem_cons_self) ?_, h.getElem?_of_disjoint hg hapart, hframe⟩
  exact fun hmem => hi (List.mem_append_right g hmem)

end Changed

end Footprint

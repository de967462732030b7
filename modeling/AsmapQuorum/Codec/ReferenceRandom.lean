import AsmapQuorum.Codec.ReferenceTrie
import AsmapQuorum.Codec.Testgen
import AsmapQuorum.Lib.Skeleton

/-!
# Random maps and the reference

`ASMap.from_random` of `contrib/asmap/asmap.py`, of which `random_map` is a port.  It grows a trie
of lists that are changed in place, and keeps the leaves by identity; the crate keeps their paths,
and builds the map by updates.

* `Reference.fromRandom` — `from_random`, over a heap of lists and any source of random numbers.
* `Stored` — a heap holds a skeleton, at a footprint: the trie as it is while it grows.
* `Grown` — the leaves that the two keep are the holes of one skeleton.
* `Grown.holds` — once the leaves are filled in, the heap holds a trie, which `_set_trie` merges in
  place.
* `randomMap_spec` — **on the same draws the two build the same map**.
-/

namespace AsmapQuorum

open Footprint PrefixOverwrite

namespace Reference

/-! ### `from_random` -/

/-- The functions of `random` that are called. -/
structure Random (G : Type) where
  randrange : ℕ → ℕ → G → Except PyError (ℕ × G)
  random : G → ℚ × G

section FromRandom

variable {G : Type} (R : Random G)

def splitLoop : List ℕ → Heap → List ℕ → G → Except PyError (Heap × List ℕ × G)
  | [], heap, leaves, g => .ok (heap, leaves, g)
  | i :: is, heap, leaves, g => do
    let (idx, g) ← R.randrange 0 i g
    match takeLeaf leaves i idx with
    | none => .error .IndexError
    | some (leaf, leaves) =>
      let (left, heap) := newList heap []
      let heap := append heap leaf (.node left)
      let (right, heap) := newList heap []
      let heap := append heap leaf (.node right)
      let left ← child heap leaf 0
      let right ← child heap leaf 1
      splitLoop is heap (leaves ++ [left, right]) g

/-- What is appended to a leaf. -/
def drawAsn (maxAsn : ℕ) (unassignedProb : ℚ) (g : G) : Except PyError (ℕ × G) :=
  let (share, g) := R.random g
  if share ≥ unassignedProb then R.randrange 1 (maxAsn + 1) g else .ok (0, g)

def fillLoop (maxAsn : ℕ) (unassignedProb : ℚ) : List ℕ → Heap → G → Except PyError (Heap × G)
  | [], heap, g => .ok (heap, g)
  | leaf :: leaves, heap, g => do
    let (asn, g) ← drawAsn R maxAsn unassignedProb g
    fillLoop maxAsn unassignedProb leaves (append heap leaf (.asn asn)) g

/-- `from_random`: the trie that is grown becomes that of a new object. -/
def fromRandom (numLeaves maxAsn : ℕ) (unassignedProb : ℚ) (g : G) :
    Except PyError (PyMap × G) := do
  check (numLeaves ≥ 1)
  check (maxAsn ≥ 1 ∨ unassignedProb = 1)
  check (canEncode coderAsn maxAsn)
  check (0 ≤ unassignedProb ∧ unassignedProb ≤ 1)
  let (trie, heap) := newList [] []
  let (heap, leaves, g) ← splitLoop R (List.range' 1 (numLeaves - 1)) heap [trie] g
  let (heap, g) ← fillLoop R maxAsn unassignedProb leaves heap g
  let ret ← PyMap.setTrie ⟨heap, trie⟩
  return (ret, g)

end FromRandom

/-- The generator of the crate, as the source of the random numbers. -/
def splitMix64 : Random SplitMix64 where
  randrange min max rng :=
    match rng.range (BitVec.ofNat 64 min) (BitVec.ofNat 64 max) with
    | .ok (v, rng) => .ok (v.toNat, rng)
    | .error _ => .error .ValueError
  random := SplitMix64.nextF64

/-! ### The heap while the trie grows -/

section Heap

variable {heap : Heap} {leaf id j : ℕ}

/-- The heap after a leaf got its two lists. -/
def grow (heap : Heap) (leaf : ℕ) : Heap :=
  append (append (heap ++ [[]]) leaf (.node heap.length) ++ [[]]) leaf (.node (heap.length + 1))

theorem getElem?_append_of_ne (item : Item) (h : leaf ≠ j) :
    (append heap leaf item)[j]? = heap[j]? := by
  rw [append, List.getElem?_modify_ne _ _ h]

theorem getElem?_append_self {items : List Item} (h : heap[leaf]? = some items) (item : Item) :
    (append heap leaf item)[leaf]? = some (items ++ [item]) := by
  rw [append, List.getElem?_modify_eq, h]
  rfl

theorem length_append (item : Item) : (append heap leaf item).length = heap.length :=
  List.length_modify _ heap leaf

theorem getElem?_grow_leaf (h : heap[leaf]? = some []) :
    (grow heap leaf)[leaf]? = some [.node heap.length, .node (heap.length + 1)] := by
  have hstart : (heap ++ [[]])[leaf]? = some [] := by
    rw [List.getElem?_append_left (lt_of_getElem? h), h]
  have hfirst : (append (heap ++ [[]]) leaf (.node heap.length))[leaf]? =
      some [.node heap.length] :=
    getElem?_append_self hstart _
  have hsecond : (append (heap ++ [[]]) leaf (.node heap.length) ++ [[]])[leaf]? =
      some [.node heap.length] := by
    rw [List.getElem?_append_left (lt_of_getElem? hfirst), hfirst]
  exact getElem?_append_self hsecond _

theorem getElem?_grow_of_lt (hj : j < heap.length) (hne : leaf ≠ j) :
    (grow heap leaf)[j]? = heap[j]? := by
  have hfirst : (append (heap ++ [[]]) leaf (.node heap.length))[j]? = heap[j]? := by
    rw [getElem?_append_of_ne _ hne, List.getElem?_append_left hj]
  rw [grow, getElem?_append_of_ne _ hne, List.getElem?_append_left, hfirst]
  rw [length_append, List.length_append]
  omega

theorem getElem?_grow_new (h : heap[leaf]? = some []) : (grow heap leaf)[heap.length]? = some [] ∧
    (grow heap leaf)[heap.length + 1]? = some [] := by
  have hlt := lt_of_getElem? h
  constructor
  · rw [grow, getElem?_append_of_ne _ (by omega), List.getElem?_append_left,
      getElem?_append_of_ne _ (by omega), List.getElem?_concat_length]
    rw [length_append, List.length_append]
    exact Nat.lt_succ_self _
  · have hlength : heap.length + 1 = (append (heap ++ [[]]) leaf (.node heap.length)).length := by
      rw [length_append, List.length_append, List.length_singleton]
    rw [grow, getElem?_append_of_ne _ (by omega), hlength, List.getElem?_concat_length]

theorem length_grow : (grow heap leaf).length = heap.length + 2 := by
  rw [grow, length_append, List.length_append, length_append, List.length_append]
  rfl

/-- A leaf that grows becomes a node, with two new lists below it. -/
theorem changed_grow (h : heap[leaf]? = some []) :
    Changed heap (grow heap leaf) [leaf] (leaf :: ([heap.length] ++ [heap.length + 1])) where
  keep j hj hnot := getElem?_grow_of_lt hj fun heq => hnot (List.mem_singleton.2 heq.symm)
  fresh := by
    intro j hj
    obtain rfl | hnew := List.mem_cons.1 hj
    · exact .inl List.mem_cons_self
    · right
      obtain hj | hj := List.mem_append.1 hnew <;> rw [List.mem_singleton.1 hj]
      exact Nat.le_add_right _ _
  nodup := by
    have hlt := lt_of_getElem? h
    rw [List.nodup_cons, List.singleton_append, List.nodup_cons, List.mem_cons, List.mem_singleton,
      List.mem_singleton]
    exact ⟨by omega, by omega, List.nodup_singleton _⟩
  length_le := by
    rw [length_grow]
    exact Nat.le_add_right _ _

/-- The list at an identity is the skeleton of a trie whose leaves are still empty; its lists are
the footprint. -/
inductive Stored (heap : Heap) : ℕ → Skeleton ℕ → List ℕ → Prop
  | hole {id : ℕ} (h : heap[id]? = some []) : Stored heap id (.hole id) [id]
  | node {id a b : ℕ} {l r : Skeleton ℕ} {fl fr : List ℕ} (h : heap[id]? = some [.node a, .node b])
      (hl : Stored heap a l fl) (hr : Stored heap b r fr) : Stored heap id (.node l r)
      (id :: (fl ++ fr))

namespace Stored

variable {heap' : Heap} {s : Skeleton ℕ} {f : List ℕ}

theorem empty (h : Stored heap id s f) : ∀ d ∈ s.holes, heap[d.1]? = some [] := by
  induction h with
  | hole h =>
    intro d hd
    rw [List.mem_singleton.1 hd]
    exact h
  | node h hl hr ihl ihr =>
    intro d hd
    obtain ⟨e, he, rfl⟩ | ⟨e, he, rfl⟩ := Skeleton.mem_holes_node.1 hd
    · exact ihl e he
    · exact ihr e he

theorem mem_of_hole (h : Stored heap id s f) : ∀ d ∈ s.holes, d.1 ∈ f := by
  induction h with
  | hole h =>
    intro d hd
    rw [List.mem_singleton.1 hd]
    exact List.mem_cons_self
  | node h hl hr ihl ihr =>
    intro d hd
    obtain ⟨e, he, rfl⟩ | ⟨e, he, rfl⟩ := Skeleton.mem_holes_node.1 hd
    · exact List.mem_cons_of_mem _ (List.mem_append_left _ (ihl e he))
    · exact List.mem_cons_of_mem _ (List.mem_append_right _ (ihr e he))

theorem lt (h : Stored heap id s f) : ∀ j ∈ f, j < heap.length := by
  induction h with
  | hole h =>
    intro j hj
    rw [List.mem_singleton.1 hj]
    exact lt_of_getElem? h
  | node h hl hr ihl ihr =>
    intro j hj
    obtain rfl | hj := List.mem_cons.1 hj
    · exact lt_of_getElem? h
    · obtain hj | hj := List.mem_append.1 hj
      · exact ihl j hj
      · exact ihr j hj

/-- Lists outside the footprint may change. -/
theorem congr (h : Stored heap id s f) (hsame : ∀ j ∈ f, heap'[j]? = heap[j]?) :
    Stored heap' id s f := by
  induction h with
  | hole h => exact .hole ((hsame _ List.mem_cons_self).trans h)
  | node h hl hr ihl ihr =>
    refine .node ((hsame _ List.mem_cons_self).trans h) (ihl fun j hj => ?_) (ihr fun j hj => ?_)
    · exact hsame j (List.mem_cons_of_mem _ (List.mem_append_left _ hj))
    · exact hsame j (List.mem_cons_of_mem _ (List.mem_append_right _ hj))

/-- A leaf elsewhere splits nothing. -/
theorem split_eq (h : Stored heap id s f) (hleaf : leaf ∉ f) (a b : ℕ) : s.split leaf a b = s := by
  refine Skeleton.split_of_notMem (fun hmem => ?_) a b
  obtain ⟨d, hd, rfl⟩ := List.mem_map.1 hmem
  exact hleaf (h.mem_of_hole d hd)

/-- **A leaf that grows is a hole that is split**, and no list but it changes. -/
theorem grow (h : Stored heap id s f) (hf : f.Nodup) (hmem : leaf ∈ f)
    (hleaf : heap[leaf]? = some []) :
    ∃ f', Stored (grow heap leaf) id (s.split leaf heap.length (heap.length + 1)) f' ∧
      Changed heap (Reference.grow heap leaf) f f' := by
  induction h with
  | hole h =>
    obtain rfl := List.mem_singleton.1 hmem
    obtain ⟨hleft, hright⟩ := getElem?_grow_new hleaf
    rw [Skeleton.split, if_pos rfl]
    exact ⟨_, .node (getElem?_grow_leaf hleaf) (.hole hleft) (.hole hright), changed_grow hleaf⟩
  | @node id a b l r fl fr h hl hr ihl ihr =>
    have hne : leaf ≠ id := by
      intro heq
      rw [← heq, hleaf] at h
      cases h
    have hlt := (Stored.node h hl hr).lt
    obtain ⟨hfl, hfr, hdisj⟩ := List.nodup_append'.1 (List.nodup_cons.1 hf).2
    obtain hmem | hmem := List.mem_append.1 ((List.mem_cons.1 hmem).resolve_left hne)
    · obtain ⟨f', hstored, hchanged⟩ := ihl hfl hmem
      obtain ⟨hid, hright, hframe⟩ := hchanged.left hf hlt
      have hsplit := hr.split_eq (fun hother => hdisj hmem hother) heap.length (heap.length + 1)
      rw [Skeleton.split, hsplit]
      exact ⟨_, .node (hid.trans h) hstored (hr.congr hright), hframe⟩
    · obtain ⟨f', hstored, hchanged⟩ := ihr hfr hmem
      obtain ⟨hid, hleft, hframe⟩ := hchanged.right hf hlt
      have hsplit := hl.split_eq (fun hother => hdisj hother hmem) heap.length (heap.length + 1)
      rw [Skeleton.split, hsplit]
      exact ⟨_, .node (hid.trans h) (hl.congr hleft) hstored, hframe⟩

end Stored

end Heap

/-! ### Filling the leaves in -/

section Filled

variable {asns : ℕ → ℕ}

/-- The trie that a skeleton is filled in to. -/
def filled (asns : ℕ → ℕ) : Skeleton ℕ → TrieNode
  | .hole id => .Leaf (asns id)
  | .node l r => .Branch (filled asns l) (filled asns r)

theorem asnAt_filled {s : Skeleton ℕ} {d : ℕ × List Bool} (hd : d ∈ s.holes) {x : Stream' Bool}
    (hx : Covers d.2 x) : (filled asns s).asnAt x = asns d.1 := by
  induction s generalizing d x with
  | hole id => rw [List.mem_singleton.1 hd, filled, TrieNode.asnAt_leaf]
  | node l r ihl ihr =>
    rw [filled, TrieNode.asnAt_branch_node]
    obtain ⟨e, he, rfl⟩ | ⟨e, he, rfl⟩ := Skeleton.mem_holes_node.1 hd
    · obtain ⟨hhead, htail⟩ := (covers_cons _ _ x).1 hx
      rw [hhead, if_neg (by decide), ihl he htail]
    · obtain ⟨hhead, htail⟩ := (covers_cons _ _ x).1 hx
      rw [hhead, if_pos rfl, ihr he htail]

theorem length_asns_filled (s : Skeleton ℕ) : (filled asns s).asns.length = s.holes.length := by
  induction s with
  | hole id => rfl
  | node l r ihl ihr =>
    rw [filled, TrieNode.asns, List.length_append, ihl, ihr, Skeleton.length_holes_node]

/-- A heap that holds a skeleton holds the trie once its leaves are filled in. -/
theorem Stored.holds {heap heap' : Heap} {id : ℕ} {s : Skeleton ℕ} {f : List ℕ}
    (h : Stored heap id s f) (hset : ∀ d ∈ s.holes, heap'[d.1]? = some [.asn (asns d.1)])
    (hkeep : ∀ (j : ℕ) (items : List Item), heap[j]? = some items → items ≠ [] →
      heap'[j]? = some items) :
    Holds heap' id (filled asns s) f := by
  induction h with
  | hole h => exact .leaf (hset _ (List.mem_singleton_self _))
  | node h hl hr ihl ihr =>
    refine .branch (hkeep _ _ h (List.cons_ne_nil _ _)) (ihl fun d hd => ?_) (ihr fun d hd => ?_)
    · exact hset (d.1, false :: d.2) (Skeleton.mem_holes_node.2 (.inl ⟨d, hd, rfl⟩))
    · exact hset (d.1, true :: d.2) (Skeleton.mem_holes_node.2 (.inr ⟨d, hd, rfl⟩))

end Filled

/-! ### Merging -/

theorem asnAt_setTrie (t : TrieNode) : (setTrie t).asnAt = t.asnAt := by
  induction t with
  | Leaf v => rfl
  | Branch l r ihl ihr =>
    funext x
    rw [setTrie_Branch, TrieNode.asnAt_branch, TrieNode.asnAt_branch_node, ihl, ihr]

theorem canonical_setTrie (t : TrieNode) : (setTrie t).Canonical := by
  induction t with
  | Leaf v => trivial
  | Branch l r ihl ihr =>
    rw [setTrie_Branch]
    exact ihl.branch ihr

theorem length_asns_setTrie_le (t : TrieNode) : (setTrie t).asns.length ≤ t.asns.length := by
  have hbranch : ∀ l r : TrieNode, (l.branch r).asns.length ≤ l.asns.length + r.asns.length := by
    intro l r
    fun_cases TrieNode.branch l r <;> simp [TrieNode.asns]
  induction t with
  | Leaf v => exact le_rfl
  | Branch l r ihl ihr =>
    rw [setTrie_Branch, TrieNode.asns, List.length_append]
    exact (hbranch _ _).trans (Nat.add_le_add ihl ihr)

/-! ### The same draws -/

section Draws

variable (rng : SplitMix64) {params : RandomMapParams}

theorem randrange_eq {min max : ℕ} (h : min < max) (hsize : max < 2 ^ 64) :
    ∃ v rng', v.toNat < max ∧ rng.range (BitVec.ofNat 64 min)
      (BitVec.ofNat 64 max) = .ok (v, rng') ∧
      splitMix64.randrange min max rng = .ok (v.toNat, rng') := by
  have hmax : (BitVec.ofNat 64 max).toNat = max := by
    rw [BitVec.toNat_ofNat, Nat.mod_eq_of_lt hsize]
  have hlt : BitVec.ofNat 64 min < BitVec.ofNat 64 max := by
    rw [BitVec.lt_def, hmax, BitVec.toNat_ofNat, Nat.mod_eq_of_lt (h.trans hsize)]
    exact h
  obtain ⟨v, rng', hrange, -, hv⟩ := rng.range_lt hlt
  refine ⟨v, rng', hmax ▸ hv, hrange, ?_⟩
  show (match rng.range (BitVec.ofNat 64 min) (BitVec.ofNat 64 max) with
    | .ok (v, rng) => Except.ok (v.toNat, rng)
    | .error _ => .error PyError.ValueError) = _
  rw [hrange]

/-- The two draw the same ASN; a share below `1` has one to draw. -/
theorem drawAsn_eq (h : params.Admissible) :
    ∃ asn rng', asn ≤ params.maxAsn.toNat ∧ AsmapQuorum.drawAsn params rng = .ok (asn, rng') ∧
      drawAsn splitMix64 params.maxAsn.toNat params.unassignedProb rng = .ok (asn, rng') := by
  obtain ⟨-, hmax, -, -⟩ := h
  rw [AsmapQuorum.drawAsn, drawAsn]
  by_cases hshare : rng.nextF64.1 ≥ params.unassignedProb
  · have hone : 0 < params.maxAsn.toNat := by
      refine hmax.resolve_right fun hprob => ?_
      rw [hprob] at hshare
      exact absurd rng.nextF64_lt_one (not_lt.2 hshare)
    have hlt := params.maxAsn.isLt
    obtain ⟨v, rng', hv, hrange, hrandrange⟩ :=
      randrange_eq rng.nextF64.2 (Nat.succ_lt_succ hone)
        (show params.maxAsn.toNat + 1 < 2 ^ 64 by omega)
    have hbound : params.maxAsn.setWidth 64 + 1 = BitVec.ofNat 64 (params.maxAsn.toNat + 1) := by
      apply BitVec.eq_of_toNat_eq
      rw [BitVec.toNat_add, BitVec.toNat_setWidth_of_le (by decide), BitVec.toNat_ofNat]
      rfl
    have hasn : rng.nextF64.2.range 1 (params.maxAsn.setWidth 64 + 1) = .ok (v, rng') := by
      rw [hbound]
      exact hrange
    have hcast : (v.setWidth 32).toNat = v.toNat := by
      rw [BitVec.toNat_setWidth, Nat.mod_eq_of_lt (by omega)]
    refine ⟨v.toNat, rng', by omega, ?_, (if_pos hshare).trans hrandrange⟩
    dsimp only
    rw [if_pos hshare, hasn]
    simp only [bind, Except.bind, pure, Except.pure, hcast]
  · exact ⟨0, rng.nextF64.2, Nat.zero_le _, if_neg hshare, if_neg hshare⟩

end Draws

/-! ### Growing the trie -/

/-- The leaves of the two, which are the holes of the skeleton that the heap holds. -/
structure Grown (heap : Heap) (leaves : List (ℕ × List Bool)) (s : Skeleton ℕ) : Prop where
  stored : ∃ f, Stored heap 0 s f ∧ f.Nodup
  holes : s.holes.Perm leaves
  nodup : (leaves.map Prod.fst).Nodup

namespace Grown

variable {heap : Heap} {leaves : List (ℕ × List Bool)} {s : Skeleton ℕ}

theorem start : Grown [[]] [(0, [])] (.hole 0) where
  stored := ⟨[0], .hole rfl, List.nodup_singleton 0⟩
  holes := .refl _
  nodup := List.nodup_singleton 0

theorem empty (h : Grown heap leaves s) {d : ℕ × List Bool} (hd : d ∈ leaves) :
    heap[d.1]? = some [] := by
  obtain ⟨f, hstored, -⟩ := h.stored
  exact hstored.empty d (h.holes.mem_iff.2 hd)

/-- **A round of the loop**: the leaf that is taken is split. -/
theorem grow (h : Grown heap leaves s) {leaf : ℕ × List Bool} {rest : List (ℕ × List Bool)}
    (hperm : leaves.Perm (leaf :: rest)) : Grown (grow heap leaf.1)
      (rest ++ [(heap.length, leaf.2 ++ [false]), (heap.length + 1, leaf.2 ++ [true])])
      (s.split leaf.1 heap.length (heap.length + 1)) := by
  have hleaf : heap[leaf.1]? = some [] := h.empty (hperm.mem_iff.2 List.mem_cons_self)
  have hnodup : (leaf.1 :: rest.map Prod.fst).Nodup := (hperm.map Prod.fst).nodup_iff.1 h.nodup
  obtain ⟨hnot, hrest⟩ := List.nodup_cons.1 hnodup
  have hold : ∀ i ∈ rest.map Prod.fst, i < heap.length := by
    intro i hi
    obtain ⟨d, hd, rfl⟩ := List.mem_map.1 hi
    exact lt_of_getElem? (h.empty (hperm.mem_iff.2 (List.mem_cons_of_mem _ hd)))
  obtain ⟨f, hstored, hf⟩ := h.stored
  have hmem : leaf.1 ∈ f :=
    hstored.mem_of_hole leaf (h.holes.mem_iff.2 (hperm.mem_iff.2 List.mem_cons_self))
  obtain ⟨f', hstored', hchanged⟩ := hstored.grow hf hmem hleaf
  refine ⟨⟨f', hstored', hchanged.nodup⟩,
    Skeleton.holes_split_perm (h.holes.trans hperm) hnot _ _, ?_⟩
  rw [List.map_append, List.nodup_append]
  refine ⟨hrest, ?_, ?_⟩
  · simp
  · intro i hi j hj heq
    have hlt := hold i hi
    obtain rfl | rfl : j = heap.length ∨ j = heap.length + 1 := by simpa using hj
    · omega
    · omega

end Grown

theorem takeLeaf_map {α β : Type} (f : α → β) (leaves : List α) (i idx : ℕ) :
    takeLeaf (leaves.map f) i idx = (takeLeaf leaves i idx).map fun r => (f r.1, r.2.map f) := by
  rw [takeLeaf, takeLeaf, List.getElem?_map, List.getLast?_map, ← List.map_dropLast]
  cases leaves[idx]? with
  | none => rfl
  | some leaf =>
    cases leaves.getLast? with
    | none => rfl
    | some last =>
      by_cases hidx : idx + 1 < i
      · simp [hidx, List.map_set]
      · simp [hidx]

/-- A round of the reference's loop. -/
theorem splitLoop_cons {heap : Heap} {ids rest : List ℕ} {i v leaf : ℕ} {rng rng' : SplitMix64}
    (is : List ℕ) (hdraw : splitMix64.randrange 0 i rng = .ok (v, rng'))
    (htake : takeLeaf ids i v = some (leaf, rest)) (hleaf : heap[leaf]? = some []) :
    splitLoop splitMix64 (i :: is) heap ids rng =
      splitLoop splitMix64 is (grow heap leaf) (rest ++ [heap.length, heap.length + 1]) rng' := by
  have hgrow : append (newList (append (newList heap []).2 leaf (.node (newList heap []).1)) []).2
      leaf
      (.node (newList (append (newList heap []).2 leaf (.node (newList heap []).1)) []).1) =
        grow heap leaf := by
    have hlength : (append (heap ++ [[]]) leaf (.node heap.length)).length = heap.length + 1 := by
      rw [length_append, List.length_append, List.length_singleton]
    rw [newList, newList, grow, hlength]
  have hleft : child (grow heap leaf) leaf 0 = .ok heap.length := by
    rw [child, getElem?_grow_leaf hleaf]
    rfl
  have hright : child (grow heap leaf) leaf 1 = .ok (heap.length + 1) := by
    rw [child, getElem?_grow_leaf hleaf]
    rfl
  rw [splitLoop]
  simp only [hdraw, htake, hgrow, hleft, hright, bind, Except.bind]

/-- **The loop that splits the leaves**, in both. -/
theorem splitLoop_eq {heap : Heap} {leaves : List (ℕ × List Bool)} {s : Skeleton ℕ} (n : ℕ)
    (h : Grown heap leaves s) (hpos : 0 < leaves.length) (hsize : leaves.length + n ≤ 2 ^ 64)
    (rng : SplitMix64) :
    ∃ heap' leaves' s' rng', Grown heap' leaves' s' ∧ leaves'.length = leaves.length + n ∧
      AsmapQuorum.splitLoop (List.range' leaves.length n) (leaves.map Prod.snd) rng =
        .ok (leaves'.map Prod.snd, rng') ∧
      splitLoop splitMix64 (List.range' leaves.length n) heap (leaves.map Prod.fst) rng =
        .ok (heap', leaves'.map Prod.fst, rng') := by
  induction n generalizing heap leaves s rng with
  | zero => exact ⟨heap, leaves, s, rng, h, rfl, rfl, rfl⟩
  | succ n ih =>
    obtain ⟨v, rng', hv, hrange, hrandrange⟩ := randrange_eq rng hpos (by omega)
    have hbelow : rng.below (BitVec.ofNat 64 leaves.length) = .ok (v, rng') := by
      have hlt : 0 < BitVec.ofNat 64 leaves.length := by
        rw [BitVec.lt_def, BitVec.toNat_ofNat, Nat.mod_eq_of_lt (by omega)]
        exact hpos
      rw [← rng.range_zero hlt]
      exact hrange
    obtain ⟨leaf, rest, htake, hperm⟩ := takeLeaf_perm hv
    have hleaf : heap[leaf.1]? = some [] := h.empty (hperm.mem_iff.2 List.mem_cons_self)
    have hpaths : takeLeaf (leaves.map Prod.snd) leaves.length v.toNat = some (leaf.2,
      rest.map Prod.snd) := by
      rw [takeLeaf_map, htake]
      rfl
    have hids : takeLeaf (leaves.map Prod.fst) leaves.length v.toNat = some (leaf.1,
      rest.map Prod.fst) := by
      rw [takeLeaf_map, htake]
      rfl
    let next := rest ++ [(heap.length, leaf.2 ++ [false]), (heap.length + 1, leaf.2 ++ [true])]
    have hnext : next.length = leaves.length + 1 := by
      rw [hperm.length_eq, List.length_cons, List.length_append]
      rfl
    obtain ⟨heap', leaves', s', rng'', hgrown, hlength, hcrate, href⟩ :=
      ih (h.grow hperm) (show 0 < next.length by omega)
        (show next.length + n ≤ 2 ^ 64 by omega) rng'
    change leaves'.length = next.length + n at hlength
    change AsmapQuorum.splitLoop (List.range' next.length n) (next.map Prod.snd) rng' = _ at hcrate
    change splitLoop splitMix64 (List.range' next.length n) _ (next.map Prod.fst) rng' = _ at href
    rw [hnext, List.map_append] at hcrate href
    refine ⟨heap', leaves', s', rng'', hgrown, by omega, ?_, ?_⟩
    · rw [List.range'_succ, AsmapQuorum.splitLoop]
      simp only [hbelow, splitLeaf, hpaths, bind, Except.bind]
      exact hcrate
    · rw [List.range'_succ, splitLoop_cons _ hrandrange hids hleaf]
      exact href

/-! ### Filling the trie -/

/-- What a heap has become once every leaf has an ASN. -/
structure Filled (heap heap' : Heap) (leaves : List (ℕ × List Bool)) (asns : ℕ → ℕ) : Prop where
  set : ∀ d ∈ leaves, ∀ items, heap[d.1]? = some items →
    heap'[d.1]? = some (items ++ [.asn (asns d.1)])
  keep : ∀ j ∉ leaves.map Prod.fst, heap'[j]? = heap[j]?

theorem Filled.cons {heap heap' : Heap} {leaves : List (ℕ × List Bool)} {asns : ℕ → ℕ}
    {d : ℕ × List Bool} {asn : ℕ} (h : Filled (append heap d.1 (.asn asn)) heap' leaves asns)
    (hd : d.1 ∉ leaves.map Prod.fst) :
    Filled heap heap' (d :: leaves) (Function.update asns d.1 asn) where
  set := by
    intro e he items hitems
    obtain rfl | he := List.mem_cons.1 he
    · rw [h.keep e.1 hd, getElem?_append_self hitems, Function.update_self]
    · have hne : d.1 ≠ e.1 := fun heq => hd (heq ▸ List.mem_map_of_mem he)
      rw [Function.update_of_ne hne.symm]
      exact h.set e he items ((getElem?_append_of_ne _ hne).trans hitems)
  keep := by
    intro j hj
    rw [List.map_cons, List.mem_cons, not_or] at hj
    rw [h.keep j hj.2, getElem?_append_of_ne _ (Ne.symm hj.1)]

/-- **Once the leaves are filled in, the heap holds the trie**, each list in one place. -/
theorem Grown.holds {heap heap' : Heap} {leaves : List (ℕ × List Bool)} {s : Skeleton ℕ}
    {asns : ℕ → ℕ} (h : Grown heap leaves s) (hfilled : Filled heap heap' leaves asns) :
    PyMap.Is ⟨heap', 0⟩ ⟨filled asns s⟩ := by
  obtain ⟨f, hstored, hf⟩ := h.stored
  refine ⟨f, hstored.holds (fun d hd => ?_) (fun j items hj hne => ?_), hf⟩
  · have hmem := h.holes.mem_iff.1 hd
    exact hfilled.set d hmem [] (h.empty hmem)
  · have hnot : j ∉ leaves.map Prod.fst := by
      intro hmem
      obtain ⟨d, hd, rfl⟩ := List.mem_map.1 hmem
      exact hne (Option.some.inj (hj.symm.trans (h.empty hd)))
    rw [hfilled.keep j hnot, hj]

/-- **The loop that gives the leaves their ASNs**, in both. -/
theorem fillLoop_eq {params : RandomMapParams} (h : params.Admissible)
    {leaves : List (ℕ × List Bool)} (hnodup : (leaves.map Prod.fst).Nodup) (heap : Heap)
    (rng : SplitMix64) :
    ∃ asns heap' rng', (∀ id, asns id ≤ params.maxAsn.toNat) ∧ Filled heap heap' leaves asns ∧
      entriesLoop params (leaves.map Prod.snd) rng = .ok (leaves.map fun d => (d.2, asns d.1),
        rng') ∧
      fillLoop splitMix64 params.maxAsn.toNat params.unassignedProb (leaves.map Prod.fst) heap rng =
        .ok (heap', rng') := by
  induction leaves generalizing heap rng with
  | nil => exact ⟨fun _ => 0, heap, rng, fun _ => Nat.zero_le _, ⟨by simp, fun _ _ => rfl⟩, rfl,
    rfl⟩
  | cons d leaves ih =>
    obtain ⟨hnot, hrest⟩ := List.nodup_cons.1 hnodup
    obtain ⟨asn, rng', hasn, hcrate, href⟩ := drawAsn_eq rng h
    obtain ⟨asns, heap', rng'', hasns, hfilled, hentries, hfill⟩ :=
      ih hrest (append heap d.1 (.asn asn)) rng'
    have htail : (leaves.map fun e => (e.2, Function.update asns d.1 asn e.1)) =
        leaves.map fun e => (e.2, asns e.1) := by
      apply List.map_congr_left
      intro e he
      have hne : e.1 ≠ d.1 := fun heq => hnot (heq ▸ List.mem_map_of_mem he)
      rw [Function.update_of_ne hne]
    refine ⟨Function.update asns d.1 asn, heap', rng'', ?_, hfilled.cons hnot, ?_, ?_⟩
    · intro id
      by_cases hid : id = d.1
      · rw [hid, Function.update_self]
        exact hasn
      · rw [Function.update_of_ne hid]
        exact hasns id
    · rw [List.map_cons, List.map_cons, entriesLoop, htail, Function.update_self, bind_ok hcrate]
      dsimp only
      rw [bind_ok hentries]
      rfl
    · rw [List.map_cons, fillLoop, bind_ok href]
      exact hfill

/-! ### The maps -/

/-- **Updates with the paths** build what merging the filled skeleton does. -/
theorem updateMulti_eq_setTrie {heap : Heap} {leaves : List (ℕ × List Bool)} {s : Skeleton ℕ}
    {asns : ℕ → ℕ} (h : Grown heap leaves s) :
    (ASMap.new.updateMulti (leaves.map fun d => (d.2, asns d.1))).trie = setTrie
      (filled asns s) := by
  apply TrieNode.asnAt_injective
  · exact ASMap.Reachable.canonical (.updateMulti .new _)
  · exact canonical_setTrie _
  funext x
  obtain ⟨d, hd, hx⟩ := s.exists_covers x
  have hpaths : ((leaves.map fun d => (d.2, asns d.1)).map Prod.fst).Nodup := by
    rw [List.map_map]
    exact (h.holes.map Prod.snd).nodup_iff.1 s.nodup_paths
  have hlongest : Longest (leaves.map fun d => (d.2, asns d.1)) x (d.2, asns d.1) := by
    refine ⟨List.mem_map_of_mem (h.holes.mem_iff.1 hd), hx, ?_⟩
    intro e he hcov
    obtain ⟨d', hd', rfl⟩ := List.mem_map.1 he
    rw [Skeleton.eq_of_covers (h.holes.mem_iff.2 hd') hd hcov hx]
  rw [TrieNode.asnAt_updateMulti, assignMulti_of_longest _ hpaths hlongest, asnAt_setTrie,
    asnAt_filled hd hx]

/-- Merging leaves no more leaves than were grown. -/
theorem length_asns_updateMulti_le {heap : Heap} {leaves : List (ℕ × List Bool)} {s : Skeleton ℕ}
    (h : Grown heap leaves s) (asns : ℕ → ℕ) :
    (ASMap.new.updateMulti (leaves.map fun d => (d.2, asns d.1))).asns.length ≤ leaves.length := by
  calc (ASMap.new.updateMulti (leaves.map fun d => (d.2, asns d.1))).trie.asns.length
      _ = (setTrie (filled asns s)).asns.length := by rw [updateMulti_eq_setTrie h]
      _ ≤ (filled asns s).asns.length := length_asns_setTrie_le _
      _ = leaves.length := by rw [length_asns_filled, h.holes.length_eq]

/-- The assertions of `from_random`. -/
theorem fromRandom_eq {G : Type} (R : Random G) {params : RandomMapParams} (h : params.Admissible)
    (g : G) :
    fromRandom R params.numLeaves.toNat params.maxAsn.toNat params.unassignedProb g =
      if 1 ≤ params.maxAsn.toNat ∧ params.maxAsn.toNat ≤ 33521664 then do
        let (heap, leaves, g) ← splitLoop R (List.range' 1 (params.numLeaves.toNat - 1)) [[]] [0] g
        let (heap, g) ← fillLoop R params.maxAsn.toNat params.unassignedProb leaves heap g
        let ret ← PyMap.setTrie ⟨heap, 0⟩
        return (ret, g)
      else .error .AssertionError := by
  obtain ⟨hleaves, hmax, hprob⟩ := h
  have hcheckLeaves : check (params.numLeaves.toNat ≥ 1) = .ok () := if_pos (decide_eq_true hleaves)
  have hcheckMax : check (params.maxAsn.toNat ≥ 1 ∨ params.unassignedProb = 1) = .ok () :=
    if_pos (decide_eq_true hmax)
  have hcheckProb : check (0 ≤ params.unassignedProb ∧ params.unassignedProb ≤ 1) = .ok () :=
    if_pos (decide_eq_true hprob)
  rw [fromRandom, bind_ok hcheckLeaves, bind_ok hcheckMax]
  by_cases hcan : 1 ≤ params.maxAsn.toNat ∧ params.maxAsn.toNat ≤ 33521664
  · have hcheckAsn : check (canEncode coderAsn params.maxAsn.toNat) = .ok () :=
      if_pos (canEncode_coderAsn.2 hcan)
    rw [bind_ok hcheckAsn, bind_ok hcheckProb, if_pos hcan]
    rfl
  · have hcheckAsn : check (canEncode coderAsn params.maxAsn.toNat) = .error .AssertionError :=
      if_neg fun hasn => hcan (canEncode_coderAsn.1 hasn)
    rw [hcheckAsn, if_neg hcan]
    rfl

/-- **`random_map`** returns, whatever the generator: a map of the codec, with as many leaves as
asked for or fewer, and no ASN above the largest.  On the same draws **`from_random`** returns an
object that holds this map and leaves the generator as it does, unless the largest ASN has no
encoding: the reference asserts that it has one. -/
theorem randomMap_spec (rng : SplitMix64) {params : RandomMapParams} (h : params.Admissible) :
    ∃ m rng', randomMap rng params = .ok (m, rng') ∧ m.Reachable ∧
      m.asns.length ≤ params.numLeaves.toNat ∧ (∀ v ∈ m.asns, v ≤ params.maxAsn.toNat) ∧
      (1 ≤ params.maxAsn.toNat ∧ params.maxAsn.toNat ≤ 33521664 → ∃ p : PyMap, p.Is m ∧
        fromRandom splitMix64 params.numLeaves.toNat params.maxAsn.toNat params.unassignedProb rng =
          .ok (p, rng')) ∧
      (¬(1 ≤ params.maxAsn.toNat ∧ params.maxAsn.toNat ≤ 33521664) →
        fromRandom splitMix64 params.numLeaves.toNat params.maxAsn.toNat params.unassignedProb rng =
          .error .AssertionError) := by
  have hleaves := h.1
  have hlt := params.numLeaves.isLt
  obtain ⟨heap, leaves, s, rng', hgrown, hlength, hsplit, hsplitRef⟩ :=
    splitLoop_eq (params.numLeaves.toNat - 1) Grown.start Nat.zero_lt_one
      (show 1 + (params.numLeaves.toNat - 1) ≤ 2 ^ 64 by omega) rng
  rw [List.length_singleton, List.map_singleton] at hsplit hsplitRef
  obtain ⟨asns, heap', rng'', hasns, hfilled, hentries, hfill⟩ :=
    fillLoop_eq h hgrown.nodup heap rng'
  refine ⟨ASMap.new.updateMulti (leaves.map fun d => (d.2, asns d.1)), rng'', ?_,
    .updateMulti .new _, ?_, ?_, ?_⟩
  · rw [randomMap, if_pos h, bind_ok hsplit]
    dsimp only
    rw [bind_ok hentries]
    rfl
  · refine (length_asns_updateMulti_le hgrown asns).trans ?_
    rw [hlength, List.length_singleton]
    omega
  · apply ASMap.asns_updateMulti_le
    · intro v hv
      rw [List.mem_singleton.1 hv]
      exact Nat.zero_le _
    · intro e he
      obtain ⟨d, -, rfl⟩ := List.mem_map.1 he
      exact hasns d.1
  · obtain ⟨p, hset, his⟩ := PyMap.setTrie_is (hgrown.holds hfilled)
    refine ⟨fun hcan => ⟨p, ?_, ?_⟩, fun hcan => ?_⟩
    · have hmap : ASMap.new.updateMulti (leaves.map fun d => (d.2, asns d.1)) =
          ⟨setTrie (filled asns s)⟩ :=
        congrArg ASMap.mk (updateMulti_eq_setTrie hgrown)
      rw [hmap]
      exact his
    · rw [fromRandom_eq splitMix64 h, if_pos hcan, bind_ok hsplitRef]
      dsimp only
      rw [bind_ok hfill]
      dsimp only
      rw [bind_ok hset]
      rfl
    · rw [fromRandom_eq splitMix64 h, if_neg hcan]

theorem randomMap_spec_ten : RandomMapParams.Admissible ⟨10, 6, 1 / 2⟩ ∧
    ∃ m rng', randomMap (.new 1234) ⟨10, 6, 1 / 2⟩ = .ok (m, rng') ∧ m.Reachable ∧
    m.asns.length ≤ 10 ∧
      (∀ v ∈ m.asns, v ≤ 6) ∧
      ∃ p : PyMap, p.Is m ∧ fromRandom splitMix64 10 6 (1 / 2) (.new 1234) = .ok (p, rng') := by
  have hadmissible : RandomMapParams.Admissible ⟨10, 6, 1 / 2⟩ := by
    refine ⟨by decide, .inl (by decide), ?_, ?_⟩ <;> norm_num
  obtain ⟨m, rng', hmap, hreachable, hlength, hasns, hport, -⟩ :=
    randomMap_spec (.new 1234) hadmissible
  exact ⟨hadmissible, m, rng', hmap, hreachable, hlength, hasns, hport (by decide)⟩

end Reference

end AsmapQuorum

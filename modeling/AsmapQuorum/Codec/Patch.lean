import AsmapQuorum.Codec.Compare
import AsmapQuorum.Codec.Print

/-!
# Entry lists and differences as patches

What the lists of `to_entries` and of `diff` are good for: applied to a map, in any order, they make
another one.

* `Describes.extendsMap` — a map rebuilt from a list that describes another extends it.
* `ASMap.toEntries_overlapping` — **the overlapping list rebuilds the map.**
* `TrieNode.entriesFlat_ordered` — the flat list goes from left to right, and no prefix lies in
  another; `ASMap.toEntries_flat` — **the flat list is a partition of the assigned space.**
* `Changes s t pfx D` — the list tells what changes below `pfx` from one trie to another: in order,
  only what changes (`sound`), all of it (`complete`), and no finer than the leaves of both
  (`coarse`).
* `TrieNode.diff_changes` — the recursion of `diff` lists the changes, whatever the shapes of the
  tries; `ASMap.diff_spec` — **the differences are a patch.**
-/

namespace AsmapQuorum

open PrefixOverwrite

/-! ### Rebuilding -/

/-- **A map rebuilt from a list that describes it** extends it, in any order. -/
theorem Describes.extendsMap {m : ASMap} {fill : Bool} {L M : List ASNEntry}
    (h : Describes fill m.trie [] (some 0) L) (hp : L.Perm M) :
    (ASMap.new.updateMulti M).extendsMap m = true := by
  refine TrieNode.extendsTrie_iff.2 fun x hx => ?_
  rw [TrieNode.asnAt_updateMulti, TrieNode.asnAt_new, ← assignMulti_perm _ hp h.nodup]
  rcases h.restores 0 (.inr rfl) x with heq | ⟨-, hzero⟩
  · exact heq
  · exact absurd hzero hx

theorem Describes.ne_zero {t : TrieNode} {fill : Bool} {pfx : List Bool} {ctx : Ctx}
    {L : List ASNEntry} (h : Describes fill t pfx ctx L) : ∀ e ∈ L, e.2 ≠ 0 := by
  intro e he
  obtain ⟨d, hd, -, hasn⟩ := h.sourced e he
  rw [hasn]
  exact (TrieNode.pos_of_mem_flat hd).ne'

namespace ASMap

/-- **Overlapping entries rebuild the map**: without `fill` the map itself, with `fill` one that
extends it, whatever the order they are applied in.  Their prefixes are distinct and none assigns
ASN 0. -/
theorem toEntries_overlapping {m : ASMap} (hm : m.trie.Canonical) :
    ∃ L F, m.toEntries false true = .ok L ∧ m.toEntries true true = .ok F ∧
      (∀ M, L.Perm M → new.updateMulti M = m) ∧
      (∀ M, F.Perm M → (new.updateMulti M).extendsMap m = true) ∧
      ∀ K ∈ [L, F], (K.map Prod.fst).Nodup ∧ ∀ e ∈ K, e.2 ≠ 0 := by
  obtain ⟨L, hL, hdescL⟩ := m.toEntries_spec false true
  obtain ⟨F, hF, hdescF⟩ := m.toEntries_spec true true
  refine ⟨L, F, hL, hF, fun M hM => hdescL.updateMulti hm hM, fun M hM => hdescF.extendsMap hM, ?_⟩
  intro K hK
  rcases List.mem_pair.1 hK with rfl | rfl
  · exact ⟨hdescL.nodup, hdescL.ne_zero⟩
  · exact ⟨hdescF.nodup, hdescF.ne_zero⟩

/-- One network inside another, and a gap. -/
theorem toEntries_overlapping_nested :
    let m := new.updateMulti [([true], 5), ([true, false, true], 7), ([false, true], 5)]
    ∃ L F, m.toEntries false true = .ok L ∧ m.toEntries true true = .ok F ∧
      (∀ M, L.Perm M → new.updateMulti M = m) ∧
      (∀ M, F.Perm M → (new.updateMulti M).extendsMap m = true) ∧
      ∀ K ∈ [L, F], (K.map Prod.fst).Nodup ∧ ∀ e ∈ K, e.2 ≠ 0 :=
  toEntries_overlapping (canonical_updateMulti (show new.trie.Canonical from trivial) _)

end ASMap

/-! ### Flat lists -/

namespace TrieNode

/-- The path ends at a leaf of this ASN. -/
inductive LeafAt : TrieNode → List Bool → ℕ → Prop where
  | here (v : ℕ) : LeafAt (Leaf v) [] v
  | left {l r : TrieNode} {p : List Bool} {v : ℕ} : LeafAt l p v → LeafAt (Branch l r)
      (false :: p) v
  | right {l r : TrieNode} {p : List Bool} {v : ℕ} : LeafAt r p v → LeafAt (Branch l r)
      (true :: p) v

/-- The assigned leaves are the leaves with an ASN. -/
theorem mem_flat_iff {t : TrieNode} {p : List Bool} {v : ℕ} :
    (p, v) ∈ t.flat ↔ t.LeafAt p v ∧ v ≠ 0 := by
  induction t generalizing p v with
  | Leaf w =>
    rw [mem_flat_leaf]
    constructor
    · rintro ⟨hw, heq⟩
      cases heq
      exact ⟨.here w, hw.ne'⟩
    · rintro ⟨h, hv⟩
      cases h
      exact ⟨Nat.pos_of_ne_zero hv, rfl⟩
  | Branch l r ihl ihr =>
    rw [mem_flat_branch]
    constructor
    · rintro (⟨⟨q, w⟩, hd, heq⟩ | ⟨⟨q, w⟩, hd, heq⟩)
      · cases heq
        exact ⟨.left (ihl.1 hd).1, (ihl.1 hd).2⟩
      · cases heq
        exact ⟨.right (ihr.1 hd).1, (ihr.1 hd).2⟩
    · rintro ⟨h, hv⟩
      cases h with
      | left h => exact .inl ⟨_, ihl.2 ⟨h, hv⟩, rfl⟩
      | right h => exact .inr ⟨_, ihr.2 ⟨h, hv⟩, rfl⟩

/-- **The flat list goes from left to right**, and no prefix in it lies in another. -/
theorem entriesFlat_ordered (fill : Bool) (t : TrieNode) (pfx : List Bool) :
    ((t.entriesFlat fill pfx).map Prod.fst).Pairwise Before := by
  induction t generalizing pfx with
  | Leaf v =>
    rw [entriesFlat]
    split
    · exact List.pairwise_singleton _ _
    · exact List.Pairwise.nil
  | Branch l r ihl ihr =>
    have hbelow : ∀ (t : TrieNode) (b : Bool), ∀ p ∈ (t.entriesFlat fill (pfx ++ [b])).map Prod.fst,
        pfx ++ [b] <+: p := by
      intro t b p hp
      obtain ⟨e, he, rfl⟩ := List.mem_map.1 hp
      exact (entriesFlat_describes fill t (pfx ++ [b])).below e he
    have happend := pairwise_before_append (show false < true by decide) (ihl (pfx ++ [false]))
      (ihr (pfx ++ [true])) (hbelow l false) (hbelow r true)
    rw [← List.map_append] at happend
    rw [entriesFlat]
    split
    · split
      · exact List.pairwise_singleton _ _
      · exact happend
    · exact happend

/-- Collapsing does not make the list longer. -/
theorem length_entriesFlat_le (t : TrieNode) (pfx : List Bool) :
    (t.entriesFlat true pfx).length ≤ (t.entriesFlat false pfx).length := by
  induction t generalizing pfx with
  | Leaf v => exact le_rfl
  | Branch l r ihl ihr =>
    have hl := ihl (pfx ++ [false])
    have hr := ihr (pfx ++ [true])
    rw [entriesFlat_branch_false, List.length_append]
    have happend : ((Branch l r).entriesFlat true pfx).length ≤
        (l.entriesFlat true (pfx ++ [false]) ++ r.entriesFlat true (pfx ++ [true])).length := by
      rw [entriesFlat]
      split
      · next first second rest heq =>
        rw [heq]
        split
        · exact Nat.succ_le_succ (Nat.zero_le _)
        · exact le_rfl
      · exact le_rfl
    rw [List.length_append] at happend
    omega

end TrieNode

namespace ASMap

/-- **The flat list is a partition of the assigned space.**  It goes from left to right in disjoint
prefixes and assigns no ASN 0.  Without `fill` it is the assigned leaves, which rebuild the map in
any order; with `fill` it is not longer, and what it rebuilds extends the map. -/
theorem toEntries_flat {m : ASMap} (hm : m.trie.Canonical) :
    ∃ L F, m.toEntries false false = .ok L ∧ m.toEntries true false = .ok F ∧
      (∀ K ∈ [L, F], ((K.map Prod.fst).Pairwise fun p q => p < q ∧ ¬p <+: q ∧ ¬q <+: p) ∧
        ∀ e ∈ K, e.2 ≠ 0) ∧
      (∀ p v, (p, v) ∈ L ↔ m.trie.LeafAt p v ∧ v ≠ 0) ∧
      (∀ M, L.Perm M → new.updateMulti M = m) ∧
      (∀ M, F.Perm M → (new.updateMulti M).extendsMap m = true) ∧ F.length ≤ L.length := by
  have hdesc := fun fill => entriesFlat_describes fill m.trie []
  refine ⟨_, _, rfl, rfl, ?_, ?_, fun M hM => (hdesc false).updateMulti hm hM,
    fun M hM => (hdesc true).extendsMap hM, m.trie.length_entriesFlat_le []⟩
  · intro K hK
    rcases List.mem_pair.1 hK with rfl | rfl
    · exact ⟨pairwise_of_before (m.trie.entriesFlat_ordered false []), (hdesc false).ne_zero⟩
    · exact ⟨pairwise_of_before (m.trie.entriesFlat_ordered true []), (hdesc true).ne_zero⟩
  · intro p v
    rw [toEntriesFlat_false, TrieNode.mem_flat_iff]

/-- Two networks of one ASN with a gap between them, beside another. -/
theorem toEntries_flat_gap :
    let m := new.updateMulti [([false, false], 5), ([false, true, true], 5), ([true], 7)]
    ∃ L F, m.toEntries false false = .ok L ∧ m.toEntries true false = .ok F ∧
      (∀ K ∈ [L, F], ((K.map Prod.fst).Pairwise fun p q => p < q ∧ ¬p <+: q ∧ ¬q <+: p) ∧
        ∀ e ∈ K, e.2 ≠ 0) ∧
      (∀ p v, (p, v) ∈ L ↔ m.trie.LeafAt p v ∧ v ≠ 0) ∧
      (∀ M, L.Perm M → new.updateMulti M = m) ∧
      (∀ M, F.Perm M → (new.updateMulti M).extendsMap m = true) ∧ F.length ≤ L.length :=
  toEntries_flat (canonical_updateMulti (show new.trie.Canonical from trivial) _)

end ASMap

/-! ### Differences -/

/-- The list tells what changes below `pfx` from the trie `s` to the trie `t`. -/
structure Changes (s t : TrieNode) (pfx : List Bool) (D : List ASNDiff) : Prop where
  below : ∀ c ∈ D, pfx <+: c.1
  ordered : (D.map Prod.fst).Pairwise Before
  sound : ∀ c ∈ D, c.2.1 ≠ c.2.2 ∧
    ∀ x, Covers c.1 (pfx ++ₛ x) → s.asnAt x = c.2.1 ∧ t.asnAt x = c.2.2
  complete : ∀ x, s.asnAt x ≠ t.asnAt x → ∃ c ∈ D, Covers c.1 (pfx ++ₛ x)
  coarse : ∀ c ∈ D, ∀ u, pfx ++ u <+: c.1 → pfx ++ u ≠ c.1 → s.lookup u = none ∨ t.lookup u = none

namespace Changes

variable {s t : TrieNode} {pfx : List Bool} {D A B : List ASNDiff}

theorem leaf (a b : ℕ) (pfx : List Bool) :
    Changes (.Leaf a) (.Leaf b) pfx (if a ≠ b then [(pfx, a, b)] else []) := by
  split
  · next hne =>
    refine ⟨?_, List.pairwise_singleton _ _, ?_, fun x _ => ?_, ?_⟩
    · intro c hc
      rw [List.mem_singleton.1 hc]
    · intro c hc
      rw [List.mem_singleton.1 hc]
      exact ⟨hne, fun _ _ => ⟨rfl, rfl⟩⟩
    · exact ⟨_, List.mem_singleton_self _, covers_append pfx x⟩
    · intro c hc u hu hproper
      rw [List.mem_singleton.1 hc] at hu hproper
      exact absurd (hu.eq_of_length_le (by simp)) hproper
  · next heq => exact ⟨by simp, List.Pairwise.nil, by simp, fun _ hne => absurd hne heq, by simp⟩

/-- **The changes of the two halves** are those of the whole, where one of the tries has halves. -/
theorem append (ha : Changes s.children.1 t.children.1 (pfx ++ [false]) A)
    (hb : Changes s.children.2 t.children.2 (pfx ++ [true]) B)
    (hroot : s.lookup [] = none ∨ t.lookup [] = none) : Changes s t pfx (A ++ B) := by
  refine ⟨?_, ?_, ?_, fun x hne => ?_, ?_⟩
  · intro c hc
    rcases List.mem_append.1 hc with hc | hc
    · exact (List.prefix_append _ _).trans (ha.below c hc)
    · exact (List.prefix_append _ _).trans (hb.below c hc)
  · rw [List.map_append]
    exact pairwise_before_append (show false < true by decide) ha.ordered hb.ordered
      (List.forall_mem_map.2 ha.below) (List.forall_mem_map.2 hb.below)
  · intro c hc
    rcases List.mem_append.1 hc with hc | hc
    · refine ⟨(ha.sound c hc).1, fun x hx => ?_⟩
      have hbit := head_eq_of_covers (ha.below c hc) hx
      rw [append_head_tail, hbit] at hx
      rw [TrieNode.asnAt_children s, TrieNode.asnAt_children t, hbit]
      exact (ha.sound c hc).2 _ hx
    · refine ⟨(hb.sound c hc).1, fun x hx => ?_⟩
      have hbit := head_eq_of_covers (hb.below c hc) hx
      rw [append_head_tail, hbit] at hx
      rw [TrieNode.asnAt_children s, TrieNode.asnAt_children t, hbit]
      exact (hb.sound c hc).2 _ hx
  · rw [TrieNode.asnAt_children s, TrieNode.asnAt_children t] at hne
    rw [append_head_tail]
    cases hbit : x.head with
    | false =>
      rw [hbit] at hne
      obtain ⟨c, hc, hx⟩ := ha.complete x.tail hne
      exact ⟨c, List.mem_append_left _ hc, hx⟩
    | true =>
      rw [hbit] at hne
      obtain ⟨c, hc, hx⟩ := hb.complete x.tail hne
      exact ⟨c, List.mem_append_right _ hc, hx⟩
  · intro c hc u hu hproper
    cases u with
    | nil => exact hroot
    | cons b u =>
      rw [← List.singleton_append, ← List.append_assoc] at hu hproper
      have hhalf : pfx ++ [b] <+: c.1 := (List.prefix_append _ _).trans hu
      rw [TrieNode.lookup_children s, TrieNode.lookup_children t]
      rcases List.mem_append.1 hc with hc | hc
      · obtain rfl := eq_of_prefix_snoc hhalf (ha.below c hc)
        exact ha.coarse c hc u hu hproper
      · obtain rfl := eq_of_prefix_snoc hhalf (hb.below c hc)
        exact hb.coarse c hc u hu hproper

end Changes

namespace TrieNode

theorem diffLeaf_changes (a : ℕ) (new : TrieNode) (pfx : List Bool) :
    Changes (Leaf a) new pfx (new.diffLeaf a pfx) := by
  induction new generalizing pfx with
  | Leaf b => exact .leaf a b pfx
  | Branch l r ihl ihr => exact Changes.append (s := Leaf a) (ihl _) (ihr _) (.inr rfl)

/-- **`diff` lists the changes**: the four combinations of a leaf and a branch are two
inductions. -/
theorem diff_changes (old new : TrieNode) (pfx : List Bool) :
    Changes old new pfx (old.diff new pfx) := by
  induction old generalizing new pfx with
  | Leaf a => exact diffLeaf_changes a new pfx
  | Branch l r ihl ihr => exact Changes.append (s := Branch l r) (ihl _ _) (ihr _ _) (.inl rfl)

end TrieNode

namespace Changes

variable {a b : ASMap} {D : List ASNDiff}

/-- What a change says, on the paths that start with its prefix. -/
theorem asnAt_append {s t : TrieNode} (h : Changes s t [] D) {c : ASNDiff} (hc : c ∈ D)
    (x : Stream' Bool) : s.asnAt (c.1 ++ₛ x) = c.2.1 ∧ t.asnAt (c.1 ++ₛ x) = c.2.2 :=
  (h.sound c hc).2 _ (covers_append c.1 x)

/-- **Applied in any order, the changes make the other map.** -/
theorem foldl_update (h : Changes a.trie b.trie [] D) (ha : a.trie.Canonical)
    (hb : b.trie.Canonical) {M : List ASNDiff} (hM : D.Perm M) :
    M.foldl (fun m c => m.update c.1 c.2.2) a = b := by
  have hcanonical : (M.foldl (fun m c => m.update c.1 c.2.2) a).trie.Canonical :=
    List.foldlRecOn (motive := fun m : ASMap => m.trie.Canonical) M _ ha fun _ hm c _ =>
      TrieNode.Canonical.update hm c.1 c.2.2
  have hfold : M.foldl (fun m c => m.update c.1 c.2.2) a =
      (M.map fun c => (c.1, c.2.2)).foldl (fun m e => m.update e.1 e.2) a := by
    rw [List.foldl_map]
  refine ASMap.ext_asnAt hcanonical hb (funext fun x => ?_)
  rw [hfold, TrieNode.asnAt_foldl_update, assignAll_apply]
  cases hlast : ((M.map fun c => (c.1, c.2.2)).filter fun e => Covers e.1 x).getLast? with
  | none =>
    rw [List.getLast?_eq_none_iff, List.filter_eq_nil_iff] at hlast
    by_contra hne
    obtain ⟨c, hc, hx⟩ := h.complete x hne
    exact hlast _ (List.mem_map_of_mem (hM.mem_iff.1 hc)) (decide_eq_true hx)
  | some e =>
    obtain ⟨hmem, hx⟩ := List.mem_filter.1 (List.mem_of_getLast? hlast)
    obtain ⟨c, hc, rfl⟩ := List.mem_map.1 hmem
    exact ((h.sound c (hM.mem_iff.2 hc)).2 x (of_decide_eq_true hx)).2.symm

theorem eq_nil_iff (h : Changes a.trie b.trie [] D) (ha : a.trie.Canonical)
    (hb : b.trie.Canonical) :
    D = [] ↔ a = b := by
  constructor
  · rintro rfl
    refine ASMap.ext_asnAt ha hb (funext fun x => ?_)
    by_contra hne
    obtain ⟨c, hc, -⟩ := h.complete x hne
    cases hc
  · rintro rfl
    refine List.eq_nil_iff_forall_not_mem.2 fun c hc => (h.sound c hc).1 ?_
    obtain ⟨hold, hnew⟩ := h.asnAt_append hc (Stream'.const true)
    exact hold.symm.trans hnew

/-- A map extends another one that only takes assignments away from it. -/
theorem extendsMap_iff (h : Changes a.trie b.trie [] D) :
    a.extendsMap b = true ↔ ∀ c ∈ D, c.2.2 = 0 := by
  rw [ASMap.extendsMap, TrieNode.extendsTrie_iff]
  constructor
  · intro hext c hc
    obtain ⟨hold, hnew⟩ := h.asnAt_append hc (Stream'.const true)
    by_contra hne
    have hsame := hext (c.1 ++ₛ Stream'.const true) (by rwa [hnew])
    rw [hold, hnew] at hsame
    exact (h.sound c hc).1 hsame
  · intro hzero x hx
    by_contra hne
    obtain ⟨c, hc, hcov⟩ := h.complete x hne
    exact hx (((h.sound c hc).2 x hcov).2.trans (hzero c hc))

end Changes

namespace ASMap

/-- A path that is looked up differently extends a listed prefix. -/
theorem exists_mem_diff {a b : ASMap} {p : List Bool} (hpa : a.trie.depth ≤ p.length)
    (hpb : b.trie.depth ≤ p.length) (hne : a.lookup p ≠ b.lookup p) : ∃ c ∈ a.diff b,
    c.1 <+: p := by
  have h : Changes a.trie b.trie [] (a.diff b) := TrieNode.diff_changes a.trie b.trie []
  have hdiffer : a.trie.asnAt (p ++ₛ Stream'.const true) ≠ b.trie.asnAt
      (p ++ₛ Stream'.const true) := by
    intro heq
    exact hne (by rw [lookup_eq_asnAt hpa (Stream'.const true), lookup_eq_asnAt hpb, heq])
  obtain ⟨c, hc, hx⟩ := h.complete _ hdiffer
  have hlen := TrieNode.length_le_of_mem_diff hc
  rw [List.length_nil] at hlen
  rw [Stream'.nil_append_stream, covers_append_iff _ (by omega)] at hx
  exact ⟨c, hc, hx⟩

/-- **`diff` is a complete, sound and disjoint patch.** -/
theorem diff_spec {a b : ASMap} (ha : a.trie.Canonical) (hb : b.trie.Canonical) :
    (((a.diff b).map Prod.fst).Pairwise fun p q => p < q ∧ ¬p <+: q ∧ ¬q <+: p) ∧
    (∀ p old new, (p, old, new) ∈ a.diff b →
      old ≠ new ∧ a.lookup p = some old ∧ b.lookup p = some new) ∧
    (∀ p, a.trie.depth ≤ p.length → b.trie.depth ≤ p.length → a.lookup p ≠ b.lookup p →
      ∃! c, c ∈ a.diff b ∧ c.1 <+: p) ∧
    (∀ M, (a.diff b).Perm M → M.foldl (fun m c => m.update c.1 c.2.2) a = b) ∧
    (a.diff b = [] ↔ a = b) ∧
    (a.extendsMap b = true ↔ ∀ p old new, (p, old, new) ∈ a.diff b → new = 0) := by
  have h : Changes a.trie b.trie [] (a.diff b) := TrieNode.diff_changes a.trie b.trie []
  refine ⟨pairwise_of_before h.ordered, ?_, ?_, fun M => h.foldl_update ha hb,
    h.eq_nil_iff ha hb, ?_⟩
  · intro p old new hc
    exact ⟨(h.sound _ hc).1, ha.lookup_eq fun x => (h.asnAt_append hc x).1,
      hb.lookup_eq fun x => (h.asnAt_append hc x).2⟩
  · intro p hpa hpb hne
    obtain ⟨c, hc, hp⟩ := exists_mem_diff hpa hpb hne
    exact ⟨c, ⟨hc, hp⟩, fun d hd => eq_of_prefix_of_before h.ordered hd.1 hc hd.2 hp⟩
  · rw [h.extendsMap_iff]
    exact ⟨fun hzero p old new hc => hzero _ hc, fun hzero c hc => hzero c.1 c.2.1 c.2.2 hc⟩

/-- A network taken away, and one moved to another ASN inside a branch of the other map. -/
theorem diff_spec_moved :
    let a := new.updateMulti [([true], 5), ([false, true], 7)]
    let b := new.updateMulti [([true, false, true], 6), ([true], 5)]
    (((a.diff b).map Prod.fst).Pairwise fun p q => p < q ∧ ¬p <+: q ∧ ¬q <+: p) ∧
    (∀ p old new, (p, old, new) ∈ a.diff b →
      old ≠ new ∧ a.lookup p = some old ∧ b.lookup p = some new) ∧
    (∀ p, a.trie.depth ≤ p.length → b.trie.depth ≤ p.length → a.lookup p ≠ b.lookup p →
      ∃! c, c ∈ a.diff b ∧ c.1 <+: p) ∧
    (∀ M, (a.diff b).Perm M → M.foldl (fun m c => m.update c.1 c.2.2) a = b) ∧
    (a.diff b = [] ↔ a = b) ∧
    (a.extendsMap b = true ↔ ∀ p old new, (p, old, new) ∈ a.diff b → new = 0) :=
  diff_spec (canonical_updateMulti (show new.trie.Canonical from trivial) _)
    (canonical_updateMulti (show new.trie.Canonical from trivial) _)

end ASMap

end AsmapQuorum

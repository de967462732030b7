import AsmapQuorum.Codec.Encoder
import AsmapQuorum.Lib.ContextTable

/-!
# Entry lists: `to_entries`

The assignments of a map as a list, flat or overlapping.  The overlapping list is found by a dynamic
program over contexts, like the program of the encoder: the context `some k` is an enclosing entry
that maps the whole range to `k`, the context `none` is no enclosing entry at all.

* `TrieNode.entriesMinimal` — the recursion of the source; its one indexing that could abort is an
  `Except.error` here, and never does.
* `Describes fill t pfx ctx L` — the list describes the subtree at `pfx`: its entries lie below
  `pfx`, above assigned leaves, and applied shortest first they map every path as the trie does;
  with `fill`, every path the trie assigns.
* `entriesFlat_describes`, `TrieNode.entriesMinimal_spec` — **both recursions describe the trie**,
  and so do the lists of `ASMap.toEntries` (`ASMap.toEntries_spec`).
-/

namespace AsmapQuorum

open FiniteMap PrefixOverwrite ContextTable

/-! ### The recursion -/

/-- A table of entry lists, one per context. -/
abbrev EntryTable := FiniteMap.Map Ctx (List ASNEntry)

namespace EntryTable

def shorter (cand old : List ASNEntry) : Bool := cand.length < old.length

/-- The contexts of either table: `Some` ascending, then `None`. -/
def order (left right : EntryTable) : List Ctx :=
  let union := (left.keys ++ right.keys).dedup.insertionSort Ctx.le
  union.filter Option.isSome ++ if none ∈ union then [none] else []

/-- One `candidate` call whose two halves exist. -/
def candidate (ret : EntryTable) (c : Ctx × List ASNEntry × List ASNEntry) :
    Except Panic EntryTable :=
  offerM shorter (fun ab => .ok (ab.1 ++ ab.2)) ret c

/-- The ASNs of the contexts `some k`, ascending. -/
def snapshot (ret : EntryTable) : List ℕ := (ret.keys.filterMap id).insertionSort (· ≤ ·)

/-- One round of the `if !hole` loop: one entry for the whole node, then the fix-ups below it. -/
def cover (pfx : List Bool) (ret : EntryTable) (asn : ℕ) : Except Panic EntryTable :=
  match ret.lookup (some asn) with
  | none => .error .unwrapNone
  | some fixups => candidate ret (none, [(pfx, asn)], fixups)

/-- Contexts that do not beat the list without a context are dropped. -/
def prune (ret : EntryTable) : EntryTable := ContextTable.prune List.length ret

/-- Under a hole only the contexts `none` and `some 0` may stay. -/
def retainHole (ret : EntryTable) : EntryTable :=
  FiniteMap.retain (fun ctx _ => ctx.isNone || ctx == some 0) ret

end EntryTable

open EntryTable

namespace TrieNode

/-- `to_entries_minimal`'s `recurse`: the table of a subtree, and whether it has a hole. -/
def entriesMinimal (fill : Bool) : TrieNode → List Bool → Except Panic (EntryTable × Bool)
  | Leaf 0, _ => .ok (AList.singleton (if fill then none else some 0) [], true)
  | Leaf (v + 1), pfx =>
    .ok ((AList.singleton (some (v + 1)) []).insert none [(pfx, v + 1)], false)
  | Branch left right, pfx => do
    let (leftMap, lhole) ← left.entriesMinimal fill (pfx ++ [false])
    let (rightMap, rhole) ← right.entriesMinimal fill (pfx ++ [true])
    let hole := !fill && (lhole || rhole)
    let ret ← (candidates (order leftMap rightMap) leftMap rightMap).foldlM candidate ∅
    let ret ← if hole then .ok ret else (snapshot ret).foldlM (cover pfx) ret
    let ret := prune ret
    return (if hole then retainHole ret else ret, hole)

end TrieNode

namespace ASMap

/-- The minimal overlapping list: the ambient context of the whole map is `0`. -/
def toEntriesMinimal (m : ASMap) (fill : Bool) : Except Panic (List ASNEntry) := do
  let (res, _) ← m.trie.entriesMinimal fill []
  match res.lookup (some 0) with
  | some entries => return entries
  | none => return (res.lookup none).getD []

/-- `ASMap::to_entries`. -/
def toEntries (m : ASMap) (fill overlapping : Bool) : Except Panic (List ASNEntry) :=
  if overlapping then m.toEntriesMinimal fill else .ok (m.toEntriesFlat fill)

end ASMap

/-! ### What a list describes -/

/-- The list describes the subtree at `pfx` under the context. -/
structure Describes (fill : Bool) (t : TrieNode) (pfx : List Bool) (ctx : Ctx) (L : List ASNEntry) :
    Prop where
  below : ∀ e ∈ L, pfx <+: e.1
  sourced : ∀ e ∈ L, ∃ d ∈ t.flat, e.1 <+: pfx ++ d.1 ∧ e.2 = d.2
  nodup : (L.map Prod.fst).Nodup
  restores : ∀ d, ctx = none ∨ ctx = some d → ∀ x,
    assignMulti (fun _ => d) L (pfx ++ₛ x) = t.asnAt x ∨ fill = true ∧ t.asnAt x = 0

namespace Describes

variable {fill : Bool} {t l r : TrieNode} {pfx : List Bool} {ctx : Ctx} {L A B : List ASNEntry}

/-- Without a context is under every context. -/
theorem of_none (h : Describes fill t pfx none L) (ctx : Ctx) : Describes fill t pfx ctx L :=
  ⟨h.below, h.sourced, h.nodup, fun d _ => h.restores d (.inl rfl)⟩

/-- The empty list describes a leaf under its own ASN. -/
theorem nil_leaf (v : ℕ) : Describes fill (.Leaf v) pfx (some v) [] where
  below := by simp
  sourced := by simp
  nodup := List.nodup_nil
  restores d hd x := .inl (Option.some.inj (hd.resolve_left (by simp))).symm

theorem nil_leaf_zero (ctx : Ctx) : Describes true (.Leaf 0) pfx ctx [] where
  below := by simp
  sourced := by simp
  nodup := List.nodup_nil
  restores _ _ _ := .inr ⟨rfl, rfl⟩

theorem singleton_leaf {v : ℕ} (hv : 0 < v) (ctx : Ctx) :
    Describes fill (.Leaf v) pfx ctx [(pfx, v)] where
  below e he := by
    rw [List.mem_singleton.1 he]
  sourced e he := by
    rw [List.mem_singleton.1 he]
    exact ⟨([], v), TrieNode.mem_flat_leaf.2 ⟨hv, rfl⟩, by rw [List.append_nil], rfl⟩
  nodup := List.nodup_singleton _
  restores d _ x := by
    have hnodup : (([(pfx, v)] : List ASNEntry).map Prod.fst).Nodup := List.nodup_singleton _
    rw [assignMulti_cons_of_covers _ hnodup (covers_append pfx x) (by simp)]
    exact .inl rfl

/-- An entry below one half does not cover the paths of the other. -/
theorem not_covers_other (b : Bool) {L : List ASNEntry} (h : ∀ e ∈ L, pfx ++ [!b] <+: e.1)
    (x : Stream' Bool) : ∀ e ∈ L, ¬Covers e.1 ((pfx ++ [b]) ++ₛ x) := by
  intro e he hx
  rw [Stream'.append_append_stream] at hx
  have hbit : b = !b := head_eq_of_covers (h e he) hx
  exact Bool.not_ne_self b hbit.symm

/-- **Two halves make a branch.** -/
theorem append (ha : Describes fill l (pfx ++ [false]) ctx A)
    (hb : Describes fill r (pfx ++ [true]) ctx B) :
    Describes fill (.Branch l r) pfx ctx (A ++ B) := by
  have hnodup : ((A ++ B).map Prod.fst).Nodup := by
    rw [List.map_append, List.nodup_append]
    refine ⟨ha.nodup, hb.nodup, ?_⟩
    rintro p hp q hq rfl
    obtain ⟨e, he, rfl⟩ := List.mem_map.1 hp
    obtain ⟨e', he', heq⟩ := List.mem_map.1 hq
    have hfalse := ha.below e he
    have htrue := hb.below e' he'
    rw [heq] at htrue
    exact Bool.false_ne_true (eq_of_prefix_snoc hfalse htrue)
  refine ⟨?_, ?_, hnodup, ?_⟩
  · intro e he
    rcases List.mem_append.1 he with he | he
    · exact (List.prefix_append _ _).trans (ha.below e he)
    · exact (List.prefix_append _ _).trans (hb.below e he)
  · intro e he
    rcases List.mem_append.1 he with he | he
    · obtain ⟨d, hd, hpre, hasn⟩ := ha.sourced e he
      refine ⟨_, TrieNode.mem_flat_branch.2 (.inl ⟨d, hd, rfl⟩), ?_, hasn⟩
      rwa [List.append_assoc] at hpre
    · obtain ⟨d, hd, hpre, hasn⟩ := hb.sourced e he
      refine ⟨_, TrieNode.mem_flat_branch.2 (.inr ⟨d, hd, rfl⟩), ?_, hasn⟩
      rwa [List.append_assoc] at hpre
  · intro d hd x
    rw [append_head_tail, TrieNode.asnAt_branch_node]
    cases x.head with
    | false =>
      rw [assignMulti_append_left _ hnodup (not_covers_other false hb.below x.tail)]
      exact ha.restores d hd x.tail
    | true =>
      rw [assignMulti_append_right _ hnodup (not_covers_other true ha.below x.tail)]
      exact hb.restores d hd x.tail

/-- The entries of two halves lie strictly below the branch. -/
theorem append_ne (ha : Describes fill l (pfx ++ [false]) ctx A)
    (hb : Describes fill r (pfx ++ [true]) ctx B) : ∀ e ∈ A ++ B, e.1 ≠ pfx := by
  intro e he heq
  have hlen : pfx.length + 1 ≤ e.1.length := by
    rcases List.mem_append.1 he with he | he
    · simpa using (ha.below e he).length_le
    · simpa using (hb.below e he).length_le
  rw [heq] at hlen
  omega

/-- **One entry for the whole node, plus the fix-ups** that describe it under that entry. -/
theorem cover {k : ℕ} (h : Describes fill t pfx (some k) L) (hne : ∀ e ∈ L, e.1 ≠ pfx)
    (hk : ∃ d ∈ t.flat, d.2 = k) (ctx : Ctx) : Describes fill t pfx ctx ((pfx, k) :: L) := by
  have hnodup : (((pfx, k) :: L).map Prod.fst).Nodup := by
    rw [List.map_cons, List.nodup_cons]
    refine ⟨fun hmem => ?_, h.nodup⟩
    obtain ⟨e, he, heq⟩ := List.mem_map.1 hmem
    exact hne e he heq
  refine ⟨?_, ?_, hnodup, ?_⟩
  · intro e he
    rcases List.mem_cons.1 he with rfl | he
    · exact List.prefix_rfl
    · exact h.below e he
  · intro e he
    rcases List.mem_cons.1 he with rfl | he
    · obtain ⟨d, hd, rfl⟩ := hk
      exact ⟨d, hd, List.prefix_append _ _, rfl⟩
    · exact h.sourced e he
  · intro d _ x
    rw [assignMulti_cons_of_covers _ hnodup (covers_append pfx x) fun e he =>
      (h.below e he).length_le]
    exact h.restores k (.inr rfl) x

/-- With `fill`, entries that all carry one ASN collapse to one for the node itself. -/
theorem collapse (h : Describes true t pfx (some 0) L) (first : ASNEntry) (hfirst : first ∈ L)
    (hall : ∀ e ∈ L, e.2 = first.2) : Describes true t pfx (some 0) [(pfx, first.2)] where
  below e he := by
    rw [List.mem_singleton.1 he]
  sourced e he := by
    obtain ⟨d, hd, -, hasn⟩ := h.sourced first hfirst
    rw [List.mem_singleton.1 he]
    exact ⟨d, hd, List.prefix_append _ _, hasn⟩
  nodup := List.nodup_singleton _
  restores d hd x := by
    have hzero := h.restores 0 (.inr rfl) x
    have hnodup : (([(pfx, first.2)] : List ASNEntry).map Prod.fst).Nodup := List.nodup_singleton _
    rw [assignMulti_cons_of_covers _ hnodup (covers_append pfx x) (by simp)]
    show first.2 = t.asnAt x ∨ _
    -- what the old list gave the path was that ASN or none
    rcases assignMulti_eq_or (fun _ => 0) h.nodup (pfx ++ₛ x) with ⟨e, he, -, hval⟩ | hval
    · rw [hval, hall e he] at hzero
      exact hzero
    · rw [hval] at hzero
      exact .inr ⟨rfl, hzero.elim Eq.symm And.right⟩

end Describes

/-! ### The flat list -/

/-- **The flat list describes the trie** in unassigned surroundings. -/
theorem entriesFlat_describes (fill : Bool) (t : TrieNode) (pfx : List Bool) :
    Describes fill t pfx (some 0) (t.entriesFlat fill pfx) := by
  induction t generalizing pfx with
  | Leaf v =>
    rw [TrieNode.entriesFlat]
    split
    · next hv => exact .singleton_leaf hv _
    · next hv =>
      obtain rfl : v = 0 := by omega
      exact .nil_leaf 0
  | Branch l r ihl ihr =>
    have happend := (ihl (pfx ++ [false])).append (ihr (pfx ++ [true]))
    rw [TrieNode.entriesFlat]
    split
    · next first second rest heq =>
      split
      · next hcollapse =>
        rw [Bool.and_eq_true, List.all_eq_true] at hcollapse
        obtain ⟨rfl, hall⟩ := hcollapse
        refine happend.collapse first ?_ fun e he => beq_iff_eq.1 (hall e he)
        rw [heq]
        exact List.mem_cons_self
      · exact happend
    · exact happend

/-! ### The minimal list -/

/-- The list describes the subtree; under an enclosing entry it lies strictly below it, and the ASN
of that entry is `0` or one of the subtree. -/
structure Fixups (fill : Bool) (t : TrieNode) (pfx : List Bool) (ctx : Ctx) (L : List ASNEntry) :
    Prop where
  describes : Describes fill t pfx ctx L
  ne : ∀ k, ctx = some k → ∀ e ∈ L, e.1 ≠ pfx
  key : ∀ k, ctx = some k → k = 0 ∨ ∃ d ∈ t.flat, d.2 = k

/-- The table of a subtree. -/
abbrev EntryTable.For (fill : Bool) (t : TrieNode) (pfx : List Bool) (hole : Bool)
    (m : EntryTable) :
    Prop :=
  Table 0 (Fixups fill t pfx) hole m

namespace EntryTable.For

variable {fill : Bool} {t l r : TrieNode} {pfx : List Bool}

theorem leaf_zero :
    For fill (.Leaf 0) pfx (!fill) (AList.singleton (if fill then none else some 0) []) where
  good := by
    intro ctx L h
    rw [← AList.insert_empty] at h
    rcases eq_or_of_lookup_insert h with ⟨rfl, rfl⟩ | h
    · cases fill with
      | true => exact ⟨.nil_leaf_zero _, by simp, by simp⟩
      | false => exact ⟨.nil_leaf 0, by simp, by simp⟩
    · cases h
  zero_iff := by cases fill <;> simp
  none_iff := by cases fill <;> simp

theorem leaf_succ {v : ℕ} : For fill (.Leaf (v + 1)) pfx false
    ((AList.singleton (some (v + 1)) []).insert none [(pfx, v + 1)]) where
  good := by
    intro ctx L h
    rcases eq_or_of_lookup_insert h with ⟨rfl, rfl⟩ | h
    · exact ⟨.singleton_leaf (Nat.succ_pos v) none, by simp, by simp⟩
    · rw [← AList.insert_empty] at h
      rcases eq_or_of_lookup_insert h with ⟨rfl, rfl⟩ | h
      · refine ⟨.nil_leaf (v + 1), by simp, fun k hk => .inr ?_⟩
        cases hk
        exact ⟨([], v + 1), TrieNode.mem_flat_leaf.2 ⟨Nat.succ_pos v, rfl⟩, rfl⟩
      · cases h
  zero_iff := by simp
  none_iff := by simp

theorem mem_snapshot {m : EntryTable} {k : ℕ} : k ∈ snapshot m ↔ some k ∈ m := by
  rw [snapshot, List.mem_insertionSort, List.mem_filterMap, AList.mem_keys]
  simp

theorem mem_order {left right : EntryTable} {ctx : Ctx} :
    ctx ∈ order left right ↔ ctx ∈ left ∨ ctx ∈ right := by
  have hunion : ctx ∈ (left.keys ++ right.keys).dedup.insertionSort Ctx.le ↔
      ctx ∈ left ∨ ctx ∈ right := by
    rw [List.mem_insertionSort, List.mem_dedup, List.mem_append, ← AList.mem_keys, ← AList.mem_keys]
  rw [← hunion]
  unfold order
  cases ctx with
  | none =>
    by_cases hnone : none ∈ (left.keys ++ right.keys).dedup.insertionSort Ctx.le <;> simp [hnone]
  | some k =>
    by_cases hnone : none ∈ (left.keys ++ right.keys).dedup.insertionSort Ctx.le <;> simp [hnone]

/-- The ASN of a joined context is one of the two halves'. -/
theorem key_candidates {left right : EntryTable} {lhole rhole : Bool}
    (hl : For fill l (pfx ++ [false]) lhole left) (hr : For fill r (pfx ++ [true]) rhole right)
    {visited : List Ctx} (hvisited : ∀ ctx, ctx ∈ visited ↔ ctx ∈ left ∨ ctx ∈ right)
    {c : Ctx × List ASNEntry × List ASNEntry} (hc : c ∈ candidates visited left right) :
    ∀ k, c.1 = some k → k = 0 ∨ ∃ d ∈ (TrieNode.Branch l r).flat, d.2 = k := by
  intro k hk
  have hfrom := mem_of_candidates hvisited hc
  rw [hk] at hfrom
  rcases hfrom with hmem | hmem
  · obtain ⟨L, hL⟩ := exists_lookup hmem
    refine ((hl.good _ L hL).key k rfl).imp_right ?_
    rintro ⟨d, hd, hasn⟩
    exact ⟨_, TrieNode.mem_flat_branch.2 (.inl ⟨d, hd, rfl⟩), hasn⟩
  · obtain ⟨L, hL⟩ := exists_lookup hmem
    refine ((hr.good _ L hL).key k rfl).imp_right ?_
    rintro ⟨d, hd, hasn⟩
    exact ⟨_, TrieNode.mem_flat_branch.2 (.inr ⟨d, hd, rfl⟩), hasn⟩

/-- **A branch**: the candidates make a table for it, in whatever order the contexts are visited. -/
theorem join (ε : Type*) {left right : EntryTable} {lhole rhole : Bool}
    (hl : For fill l (pfx ++ [false]) lhole left) (hr : For fill r (pfx ++ [true]) rhole right)
    {visited : List Ctx} (hvisited : ∀ ctx, ctx ∈ visited ↔ ctx ∈ left ∨ ctx ∈ right) :
    ∃ ret, (candidates visited left right).foldlM
        (offerM shorter fun ab => (.ok (ab.1 ++ ab.2) : Except ε (List ASNEntry))) ∅ = .ok ret ∧
      For fill (.Branch l r) pfx (lhole || rhole) ret := by
  have hdescribes : ∀ c ∈ candidates visited left right,
      Describes fill l (pfx ++ [false]) c.1 c.2.1 → Describes fill r (pfx ++ [true]) c.1 c.2.2 →
        ∃ L, (.ok (c.2.1 ++ c.2.2) : Except ε (List ASNEntry)) = .ok L ∧
          Fixups fill (.Branch l r) pfx c.1 L := by
    intro c hc ha hb
    exact ⟨_, rfl, ha.append hb, fun k _ => ha.append_ne hb, key_candidates hl hr hvisited hc⟩
  exact (hl.mono fun _ _ => Fixups.describes).join (hr.mono fun _ _ => Fixups.describes)
    (fun ctx _ h => h.of_none ctx) (fun ctx _ h => h.of_none ctx) hvisited shorter
    (fun ab => .ok (ab.1 ++ ab.2)) hdescribes

/-- One covering entry. -/
theorem coverOne {m : EntryTable} (h : For fill t pfx false m) {k : ℕ} (hk : some k ∈ m) :
    ∃ m', EntryTable.cover pfx m k = .ok m' ∧ For fill t pfx false m' ∧
      ∀ k', some k' ∈ m' ↔ some k' ∈ m := by
  obtain ⟨fixups, hfixups⟩ := exists_lookup hk
  have hgood := h.good _ _ hfixups
  have hne : k ≠ 0 := by
    rintro rfl
    exact absurd (h.zero_iff.1 hk) (by decide)
  have hcover : Fixups fill t pfx none ((pfx, k) :: fixups) :=
    ⟨hgood.describes.cover (hgood.ne k rfl) ((hgood.key k rfl).resolve_left hne) none, by simp,
      by simp⟩
  refine ⟨offer shorter m none ((pfx, k) :: fixups), ?_, h.offer_none shorter hcover, fun k' => ?_⟩
  · unfold EntryTable.cover
    rw [hfixups]
    rfl
  · rw [mem_offer]
    simp

/-- The contexts of the table may be covered in any order. -/
theorem coverAll {m : EntryTable} (h : For fill t pfx false m) {keys : List ℕ}
    (hkeys : ∀ k ∈ keys, some k ∈ m) :
    ∃ m', keys.foldlM (EntryTable.cover pfx) m = .ok m' ∧ For fill t pfx false m' := by
  obtain ⟨m', hfold, htable, -⟩ := h.cover hkeys fun k m' hm' hk => coverOne hm' hk
  exact ⟨m', hfold, htable⟩

/-- What `recurse` hands out at the root: the list for unassigned surroundings, or the one for
any. -/
theorem exists_root {hole : Bool} {m : EntryTable} (h : For fill t pfx hole m) :
    ∃ L, (m.lookup (some 0)).or (m.lookup none) = some L ∧ Describes fill t pfx (some 0) L := by
  cases hzero : m.lookup (some 0) with
  | some L => exact ⟨L, rfl, (h.good _ _ hzero).describes⟩
  | none =>
    have hclosed : hole = false := by
      cases hole with
      | false => rfl
      | true => exact absurd (h.zero_iff.2 rfl) (AList.lookup_eq_none.1 hzero)
    obtain ⟨L, hL⟩ := exists_lookup (h.none_iff.2 hclosed)
    exact ⟨L, by rw [hL]; rfl, (h.good _ _ hL).describes.of_none _⟩

end EntryTable.For

/-- **The recursion of the minimal list** completes, and every list of its table describes the
subtree. -/
theorem TrieNode.entriesMinimal_spec (fill : Bool) (t : TrieNode) (pfx : List Bool) :
    ∃ m hole, t.entriesMinimal fill pfx = .ok (m, hole) ∧
    EntryTable.For fill t pfx (hole && !fill) m := by
  induction t generalizing pfx with
  | Leaf v =>
    cases v with
    | zero => exact ⟨_, true, rfl, by rw [Bool.true_and]; exact .leaf_zero⟩
    | succ v => exact ⟨_, false, rfl, EntryTable.For.leaf_succ⟩
  | Branch l r ihl ihr =>
    obtain ⟨left, lhole, hl, htl⟩ := ihl (pfx ++ [false])
    obtain ⟨right, rhole, hr, htr⟩ := ihr (pfx ++ [true])
    obtain ⟨ret, hjoin, htable⟩ := EntryTable.For.join Panic htl htr fun _ =>
      EntryTable.For.mem_order
    have hret : (candidates (order left right) left right).foldlM candidate ∅ = .ok ret := hjoin
    have hboth : (lhole && !fill || rhole && !fill) = (!fill && (lhole || rhole)) := by
      cases lhole <;> cases rhole <;> cases fill <;> rfl
    rw [hboth] at htable
    cases hhole : !fill && (lhole || rhole) with
    | true =>
      rw [hhole] at htable
      have hfill : fill = false := by cases fill <;> simp_all
      refine ⟨retainHole (prune ret), true, ?_, ?_⟩
      · simp only [entriesMinimal, hl, hr, hret, hhole, bind, Except.bind, pure, Except.pure,
          if_true]
      · rw [hfill] at htable ⊢
        exact (htable.prune List.length).retain (fun _ => rfl) fun _ _ => rfl
    | false =>
      rw [hhole] at htable
      obtain ⟨ret', hret', htable'⟩ := htable.coverAll fun _ => EntryTable.For.mem_snapshot.1
      refine ⟨prune ret', false, ?_, htable'.prune List.length⟩
      simp only [entriesMinimal, hl, hr, hret, hret', hhole, bind, Except.bind, pure, Except.pure,
        Bool.false_eq_true, if_false]

namespace ASMap

theorem toEntriesMinimal_of_table {m : ASMap} {fill hole : Bool} {table : EntryTable}
    (h : m.trie.entriesMinimal fill [] = .ok (table, hole)) :
    m.toEntriesMinimal fill = .ok (((table.lookup (some 0)).or (table.lookup none)).getD []) := by
  rw [toEntriesMinimal, h]
  cases hzero : table.lookup (some 0) with
  | some entries => simp only [bind, Except.bind, hzero, Option.some_or, Option.getD_some, pure,
    Except.pure]
  | none => simp only [bind, Except.bind, hzero, Option.none_or, pure, Except.pure]

theorem toEntriesMinimal_spec (m : ASMap) (fill : Bool) :
    ∃ L, m.toEntriesMinimal fill = .ok L ∧ Describes fill m.trie [] (some 0) L := by
  obtain ⟨table, hole, htable, hspec⟩ := m.trie.entriesMinimal_spec fill []
  obtain ⟨entries, hroot, hdescribes⟩ := hspec.exists_root
  refine ⟨entries, ?_, hdescribes⟩
  rw [toEntriesMinimal_of_table htable, hroot, Option.getD_some]

/-- **`to_entries`** never aborts, and its list describes the map. -/
theorem toEntries_spec (m : ASMap) (fill overlapping : Bool) :
    ∃ L, m.toEntries fill overlapping = .ok L ∧ Describes fill m.trie [] (some 0) L := by
  cases overlapping with
  | true => exact m.toEntriesMinimal_spec fill
  | false => exact ⟨_, rfl, entriesFlat_describes fill m.trie []⟩

end ASMap

/-- **A map is rebuilt from a list that describes it**, applied in any order. -/
theorem Describes.updateMulti {m : ASMap} (hm : m.trie.Canonical) {L M : List ASNEntry}
    (h : Describes false m.trie [] (some 0) L) (hp : L.Perm M) : ASMap.new.updateMulti M = m := by
  refine ASMap.ext_asnAt (ASMap.canonical_updateMulti (m := ASMap.new) trivial M) hm ?_
  funext x
  rw [TrieNode.asnAt_updateMulti, TrieNode.asnAt_new, ← assignMulti_perm _ hp h.nodup]
  rcases h.restores 0 (.inr rfl) x with hx | ⟨hfill, -⟩
  · exact hx
  · cases hfill

end AsmapQuorum

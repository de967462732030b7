import AsmapQuorum.Codec.Program
import AsmapQuorum.Lib.ContextTable
import Mathlib.Data.List.Dedup

/-!
# The encoder: `to_binnode`

`to_binnode` is a dynamic program over the trie.  For every subtree it keeps, for each *context*,
the smallest program it found: the context `some k` is "the ambient default is `k`", the context
`none` is "whatever the ambient default is".

* `TrieNode.toBinnode` — the recursion of the source, with its candidates in the order they are
  tried, the covering defaults, and the two `retain` passes.
* `Serves fill t n d` — under the default `d` the program `n` maps every path as `t` does; with
  `fill` it may map what `t` leaves unassigned.
* `ProgramTable` — the invariant of the tables, and `toBinnode_spec`, its induction over the trie:
  as long as every Jump candidate can be built, the recursion completes and all of its programs
  serve.
-/

namespace AsmapQuorum

open FiniteMap PrefixOverwrite ContextTable

/-- An ambient default, or `none` for any. -/
abbrev Ctx := Option ℕ

namespace Ctx

/-- The order of `BTreeSet<Option<u32>>`: `None` first. -/
def le : Ctx → Ctx → Prop
  | none, _ => True
  | some _, none => False
  | some a, some b => a ≤ b

instance : DecidableRel le := fun a b => by
  cases a <;> cases b <;> unfold le <;> infer_instance

end Ctx

/-- A table of programs, one per context. -/
abbrev Programs := FiniteMap.Map Ctx BinNode

namespace Programs

def smaller (cand old : BinNode) : Bool := cand.size < old.size

/-- The contexts of either table, in the order of the set `union`. -/
def contexts (left right : Programs) : List Ctx :=
  (left.keys ++ right.keys).dedup.insertionSort Ctx.le

/-- The pairs of programs tried for one context. -/
def pairsFor (left right : Programs) (ctx : Ctx) : List (Ctx × BinNode × BinNode) :=
  [(left.lookup ctx, right.lookup ctx), (left.lookup none, right.lookup ctx),
    (left.lookup ctx, right.lookup none)].filterMap fun
    | (some a, some b) => some (ctx, a, b)
    | _ => none

/-- Every pair of programs that is tried for a branch, with its context, in order. -/
def candidates (left right : Programs) : List (Ctx × BinNode × BinNode) :=
  (contexts left right).flatMap (pairsFor left right)

/-- One `candidate` call whose two programs exist. -/
def candidate (ret : Programs) (c : Ctx × BinNode × BinNode) : Except Panic Programs :=
  offerM smaller (fun ab => BinNode.branch ab.1 ab.2) ret c

/-- One round of the `if !hole` loop. -/
def cover (ret : Programs) (k : ℕ) : Except Panic Programs :=
  match ret.lookup (some k) with
  | none => .error .unwrapNone
  | some node => do
    let defaulted ← BinNode.default k node
    return offer smaller ret none defaulted

/-- The ASNs of the contexts `some k`, ascending. -/
def someKeys (ret : Programs) : List ℕ := (ret.keys.filterMap id).insertionSort (· ≤ ·)

/-- Contexts that do not beat the context-free program are dropped. -/
def prune (ret : Programs) : Programs :=
  match ret.lookup none with
  | some best => retain (fun ctx enc => ctx.isNone || enc.size < best.size) ret
  | none => ret

/-- Under a hole only the contexts `none` and `some 0` may stay. -/
def retainHole (ret : Programs) : Programs :=
  retain (fun ctx _ => ctx.isNone || ctx == some 0) ret

theorem pairsFor_eq (left right : Programs) (ctx : Ctx) :
    pairsFor left right ctx = pairs left right ctx := by
  unfold pairsFor pairs
  cases left.lookup ctx <;> cases right.lookup ctx <;> cases left.lookup none <;>
    cases right.lookup none <;> rfl

theorem candidates_eq (left right : Programs) :
    candidates left right = ContextTable.candidates (contexts left right) left right := by
  rw [candidates, funext (pairsFor_eq left right)]
  rfl

theorem prune_eq (ret : Programs) : prune ret = ContextTable.prune BinNode.size ret := by
  unfold prune ContextTable.prune
  cases ret.lookup none <;> rfl

theorem mem_contexts {left right : Programs} {ctx : Ctx} :
    ctx ∈ contexts left right ↔ ctx ∈ left ∨ ctx ∈ right := by
  rw [contexts, List.mem_insertionSort, List.mem_dedup, List.mem_append, ← AList.mem_keys,
    ← AList.mem_keys]

end Programs

open Programs

namespace TrieNode

/-- `to_binnode`'s `recurse`: the table of a subtree, and whether it has a hole. -/
def toBinnode (fill : Bool) : TrieNode → Except Panic (Programs × Bool)
  | Leaf 0 => .ok (AList.singleton (if fill then none else some 0) BinNode.endNode, true)
  | Leaf (v + 1) => do
    let node ← BinNode.leaf (v + 1)
    return ((AList.singleton none node).insert (some (v + 1)) BinNode.endNode, false)
  | Branch left right => do
    let (leftMap, leftHole) ← left.toBinnode fill
    let (rightMap, rightHole) ← right.toBinnode fill
    let hole := (leftHole || rightHole) && !fill
    let ret ← (candidates leftMap rightMap).foldlM candidate ∅
    let ret ← if hole then .ok ret else (someKeys ret).foldlM cover ret
    let ret := prune ret
    return (if hole then retainHole ret else ret, hole)

end TrieNode

namespace ASMap

/-- The program of the table for the ambient default `0`. -/
def toBinnode (m : ASMap) (fill : Bool) : Except Panic BinNode := do
  let (res, _) ← m.trie.toBinnode fill
  match res.lookup (some 0) with
  | some node => return node
  | none => return (res.lookup none).getD BinNode.endNode

end ASMap

/-! ### Jump candidates -/

/-- Of every pair of non-empty programs, the size of the left one is allowed by `p`. -/
def Programs.Jumps (p : ℕ → Prop) (left right : Programs) : Prop :=
  ∀ c ∈ candidates left right, c.2.1.isEnd = false → c.2.2.isEnd = false → p c.2.1.size

instance (p : ℕ → Prop) [DecidablePred p] (left right : Programs) :
    Decidable (Jumps p left right) :=
  inferInstanceAs (Decidable (∀ c ∈ candidates left right, _))

/-- The same of two finished recursions. -/
def Programs.JumpsOf (p : ℕ → Prop) :
    Except Panic (Programs × Bool) → Except Panic (Programs × Bool) → Prop
  | .ok (left, _), .ok (right, _) => Jumps p left right
  | _, _ => True

instance (p : ℕ → Prop) [DecidablePred p] (left right : Except Panic (Programs × Bool)) :
    Decidable (JumpsOf p left right) :=
  match left, right with
  | .ok (left, _), .ok (right, _) => inferInstanceAs (Decidable (Jumps p left right))
  | .error _, _ => isTrue trivial
  | .ok _, .error _ => isTrue trivial

/-- Every Jump candidate that `to_binnode` builds, anywhere in the trie, has a left program of a
size that `p` allows. -/
def TrieNode.Jumps (p : ℕ → Prop) (fill : Bool) : TrieNode → Prop
  | Leaf _ => True
  | Branch left right =>
    left.Jumps p fill ∧ right.Jumps p fill ∧ JumpsOf p (left.toBinnode fill) (right.toBinnode fill)

instance TrieNode.decidableJumps (p : ℕ → Prop) [DecidablePred p] (fill : Bool) :
    (t : TrieNode) → Decidable (t.Jumps p fill)
  | Leaf _ => isTrue trivial
  | Branch left right =>
    have := left.decidableJumps p fill
    have := right.decidableJumps p fill
    inferInstanceAs (Decidable (_ ∧ _ ∧ JumpsOf p (left.toBinnode fill) (right.toBinnode fill)))

/-- Every Jump candidate has its left program in the range of `CODER_JUMP`. -/
def ASMap.JumpsInRange (m : ASMap) (fill : Bool) : Prop := m.trie.Jumps (· ≤ jumpMax) fill

instance (m : ASMap) (fill : Bool) : Decidable (m.JumpsInRange fill) :=
  m.trie.decidableJumps (· ≤ jumpMax) fill

/-! ### What the programs of a table do -/

/-- Under the default `d`, the program maps every path as the trie does; with `fill`, every path the
trie assigns. -/
def Serves (fill : Bool) (t : TrieNode) (n : BinNode) (d : ℕ) : Prop :=
  ∀ x, (n.meaning d).asnAt x = t.asnAt x ∨ fill = true ∧ t.asnAt x = 0

/-- Without `fill` the program denotes the trie. -/
theorem Serves.meaning_eq {t : TrieNode} {n : BinNode} {d : ℕ} (h : Serves false t n d)
    (ht : t.Canonical) : n.meaning d = t := by
  refine TrieNode.asnAt_injective (n.canonical_meaning d) ht (funext fun x => ?_)
  rcases h x with hx | ⟨hfill, -⟩
  · exact hx
  · cases hfill

theorem Serves.branch {fill : Bool} {l r : TrieNode} {a b n : BinNode} {d : ℕ}
    (ha : Serves fill l a d) (hb : Serves fill r b d)
    (hn : n.meaning d = .branch (a.meaning d) (b.meaning d)) : Serves fill (.Branch l r) n d := by
  intro x
  rw [hn, TrieNode.asnAt_branch, TrieNode.asnAt_branch_node]
  split
  · exact hb x.tail
  · exact ha x.tail

/-- The program serves the trie under every default that the context stands for. -/
def ServesCtx (p : ℕ → Prop) (fill : Bool) (t : TrieNode) (ctx : Ctx) (n : BinNode) : Prop :=
  n.ProgramWith p ∧ ∀ d, ctx = none ∨ ctx = some d → Serves fill t n d

/-- **The invariant of a table.**  `hole` is what decides which contexts it must offer. -/
structure ProgramTable (p : ℕ → Prop) (fill : Bool) (t : TrieNode) (m : Programs) (hole : Bool) :
    Prop where
  serves : ∀ ctx n, m.lookup ctx = some n → ServesCtx p fill t ctx n
  key_le : ∀ k, some k ∈ m → k ≤ 33521664
  zero_iff : some 0 ∈ m ↔ (hole && !fill) = true
  none_iff : none ∈ m ↔ (hole && !fill) = false

namespace ProgramTable

variable {p : ℕ → Prop} {fill : Bool}

theorem leaf_zero : ProgramTable p fill (.Leaf 0)
    (AList.singleton (if fill then none else some 0) BinNode.endNode) true where
  serves := by
    intro ctx n h
    rw [← AList.insert_empty] at h
    rcases eq_or_of_lookup_insert h with ⟨rfl, rfl⟩ | h
    · refine ⟨.inl rfl, fun d hd x => ?_⟩
      cases fill with
      | true => exact .inr ⟨rfl, rfl⟩
      | false =>
        rcases hd with hd | hd
        · cases hd
        · exact .inl (Option.some.inj hd).symm
    · cases h
  key_le := by
    intro k hk
    rw [mem_singleton] at hk
    cases fill with
    | true => cases hk
    | false =>
      cases hk
      decide
  zero_iff := by cases fill <;> simp
  none_iff := by cases fill <;> simp

theorem leaf_succ {v : ℕ} {node : BinNode} (hv : v + 1 ≤ 33521664)
    (hnode : BinNode.leaf (v + 1) = .ok node) : ProgramTable p fill (.Leaf (v + 1))
    ((AList.singleton none node).insert (some (v + 1)) BinNode.endNode) false := by
  obtain ⟨n, hn, hval, hmean⟩ :=
    BinNode.leaf_spec (p := p) (canEncode_coderAsn.2 ⟨Nat.succ_pos v, hv⟩)
  obtain rfl : n = node := Except.ok.inj (hn.symm.trans hnode)
  refine ⟨?_, ?_, ?_, ?_⟩
  · intro ctx k h
    rcases eq_or_of_lookup_insert h with ⟨rfl, rfl⟩ | h
    · refine ⟨.inl rfl, fun d hd x => .inl ?_⟩
      rcases hd with hd | hd
      · cases hd
      · exact (Option.some.inj hd).symm
    · rw [← AList.insert_empty] at h
      rcases eq_or_of_lookup_insert h with ⟨rfl, rfl⟩ | h
      · exact ⟨.inr hval, fun d _ x => .inl (by rw [hmean]; rfl)⟩
      · cases h
  · intro k hk
    rw [AList.mem_insert, mem_singleton] at hk
    rcases hk with hk | hk
    · cases hk
      exact hv
    · cases hk
  · simp
  · simp

/-! ### A branch -/

variable {t l r : TrieNode} {m left right : Programs} {hole leftHole rightHole : Bool}

/-- What the program of a context is good for: it serves, and the ASN of the context can be
encoded. -/
def Good (p : ℕ → Prop) (fill : Bool) (t : TrieNode) (ctx : Ctx) (n : BinNode) : Prop :=
  ServesCtx p fill t ctx n ∧ ∀ k, ctx = some k → k ≤ 33521664

/-- The invariant is that of a context table. -/
theorem iff_table : ProgramTable p fill t m hole ↔ Table 0 (Good p fill t) (hole && !fill) m := by
  constructor
  · intro h
    refine ⟨fun ctx n hn => ⟨h.serves ctx n hn, ?_⟩, h.zero_iff, h.none_iff⟩
    rintro k rfl
    exact h.key_le k (mem_of_lookup hn)
  · intro h
    refine ⟨fun ctx n hn => (h.good ctx n hn).1, fun k hk => ?_, h.zero_iff, h.none_iff⟩
    obtain ⟨n, hn⟩ := exists_lookup hk
    exact (h.good _ n hn).2 k rfl

theorem serves_table (h : ProgramTable p fill t m hole) :
    Table 0 (ServesCtx p fill t) (hole && !fill) m :=
  (iff_table.1 h).mono fun _ _ => And.left

/-- Whatever serves in every context serves in this one. -/
theorem serves_of_none (ctx : Ctx) (n : BinNode) (h : ServesCtx p fill t none n) :
    ServesCtx p fill t ctx n :=
  ⟨h.1, fun d _ => h.2 d (.inl rfl)⟩

/-- Every candidate of a branch can be built, and serves it. -/
theorem branch_candidates (hp : ∀ size, 17 ≤ size → p size → BinNode.Buildable size)
    (hl : ProgramTable p fill l left leftHole) (hr : ProgramTable p fill r right rightHole)
    (hjump : Jumps p left right) {c : Ctx × BinNode × BinNode} (hc : c ∈ candidates left right) :
    ∃ n, BinNode.branch c.2.1 c.2.2 = .ok n ∧ ServesCtx p fill (.Branch l r) c.1 n := by
  have hjump := hjump c hc
  rw [candidates_eq] at hc
  obtain ⟨ha, hb⟩ := hl.serves_table.good_candidates hr.serves_table serves_of_none
    serves_of_none hc
  obtain ⟨n, hn, hprog, hmean⟩ := BinNode.branch_spec hp ha.1 hb.1 hjump
  exact ⟨n, hn, hprog, fun d hd => (ha.2 d hd).branch (hb.2 d hd) (hmean d)⟩

/-- The candidates of a branch make a table for it. -/
theorem candidates_spec (hp : ∀ size, 17 ≤ size → p size → BinNode.Buildable size)
    (hl : ProgramTable p fill l left leftHole) (hr : ProgramTable p fill r right rightHole)
    (hjump : Jumps p left right) :
    ∃ ret, (candidates left right).foldlM candidate ∅ = .ok ret ∧
      ProgramTable p fill (.Branch l r) ret ((leftHole || rightHole) && !fill) := by
  have hmake : ∀ c ∈ ContextTable.candidates (contexts left right) left right,
      ServesCtx p fill l c.1 c.2.1 → ServesCtx p fill r c.1 c.2.2 →
        ∃ n, BinNode.branch c.2.1 c.2.2 = .ok n ∧ Good p fill (.Branch l r) c.1 n := by
    intro c hc _ _
    obtain ⟨n, hn, hserve⟩ := branch_candidates hp hl hr hjump (candidates_eq left right ▸ hc)
    refine ⟨n, hn, hserve, fun k hk => ?_⟩
    have hfrom := mem_of_candidates (fun _ => mem_contexts) hc
    rw [hk] at hfrom
    exact hfrom.elim (hl.key_le k) (hr.key_le k)
  obtain ⟨ret, hret, htable⟩ := hl.serves_table.join hr.serves_table serves_of_none serves_of_none
    (fun _ => mem_contexts) smaller (fun ab => BinNode.branch ab.1 ab.2) hmake
  have hhole : (leftHole && !fill || rightHole && !fill) =
      ((leftHole || rightHole) && !fill && !fill) := by
    cases leftHole <;> cases rightHole <;> cases fill <;> rfl
  rw [hhole] at htable
  rw [candidates_eq]
  exact ⟨ret, hret, iff_table.2 htable⟩

/-! ### Covering defaults and the two retain passes -/

theorem prune (h : ProgramTable p fill t m hole) : ProgramTable p fill t m.prune hole := by
  rw [prune_eq, iff_table]
  exact (iff_table.1 h).prune BinNode.size

theorem retainHole (h : ProgramTable p fill t m hole) : ProgramTable p fill t m.retainHole hole :=
  iff_table.2 ((iff_table.1 h).retain (fun _ => rfl) fun _ _ => rfl)

/-- Where there is no hole, `0` is not a context. -/
theorem pos_of_mem (h : ProgramTable p fill t m hole) (hopen : (hole && !fill) = false) {k : ℕ}
    (hk : some k ∈ m) : 1 ≤ k := by
  rcases Nat.eq_zero_or_pos k with rfl | hpos
  · rw [h.zero_iff.1 hk] at hopen
    cases hopen
  · exact hpos

/-- Without a hole, the program of any context `some k` can be made the program of every context. -/
theorem cover (h : ProgramTable p fill t m hole) (hopen : (hole && !fill) = false) {k : ℕ}
    (hk : some k ∈ m) :
    ∃ m', Programs.cover m k = .ok m' ∧ ProgramTable p fill t m' hole ∧
      ∀ k', some k' ∈ m' ↔ some k' ∈ m := by
  obtain ⟨node, hnode⟩ := exists_lookup hk
  obtain ⟨hprog, hserve⟩ := h.serves _ _ hnode
  obtain ⟨n, hn, hval, hmean⟩ :=
    BinNode.default_spec (canEncode_coderAsn.2 ⟨h.pos_of_mem hopen hk, h.key_le k hk⟩) hprog
  have hany : Good p fill t none n := by
    refine ⟨⟨.inr hval, fun d _ x => ?_⟩, by simp⟩
    rw [hmean]
    exact hserve k (.inr rfl) x
  refine ⟨offer smaller m none n, ?_, ?_, fun k' => by simp [mem_offer]⟩
  · simp only [Programs.cover, hnode, hn, bind, Except.bind, pure, Except.pure]
  · rw [iff_table, hopen]
    exact (hopen ▸ iff_table.1 h).offer_none smaller hany

theorem mem_of_someKeys {k : ℕ} (hk : k ∈ someKeys m) : some k ∈ m := by
  rw [someKeys, List.mem_insertionSort, List.mem_filterMap] at hk
  obtain ⟨ctx, hctx, rfl⟩ := hk
  exact AList.mem_keys.2 hctx

theorem coverAll (h : ProgramTable p fill t m hole) (hopen : (hole && !fill) = false) :
    ∃ m', (someKeys m).foldlM Programs.cover m = .ok m' ∧ ProgramTable p fill t m' hole := by
  have htable := iff_table.1 h
  rw [hopen] at htable
  obtain ⟨m', hfold, htable', -⟩ := htable.cover (fun k => mem_of_someKeys) fun k m' hm' hk => by
    rw [← hopen, ← iff_table] at hm'
    obtain ⟨m'', hm'', htable'', hkeys⟩ := hm'.cover hopen hk
    rw [iff_table, hopen] at htable''
    exact ⟨m'', hm'', htable'', hkeys⟩
  refine ⟨m', hfold, iff_table.2 ?_⟩
  rwa [hopen]

/-- The program of the table for the ambient default `0`: that of the context `some 0`, or of
`none`. -/
theorem root (h : ProgramTable p fill t m hole) :
    ∃ node, ServesCtx p fill t (some 0) node ∧
      (m.lookup (some 0) = some node ∨ m.lookup (some 0) = none ∧ m.lookup none = some node) := by
  cases hzero : m.lookup (some 0) with
  | some node => exact ⟨node, h.serves _ _ hzero, .inl rfl⟩
  | none =>
    have hclosed : (hole && !fill) = false := by
      cases hopen : hole && !fill with
      | false => rfl
      | true => exact absurd (h.zero_iff.2 hopen) (AList.lookup_eq_none.1 hzero)
    obtain ⟨node, hnode⟩ := exists_lookup (h.none_iff.2 hclosed)
    exact ⟨node, serves_of_none _ _ (h.serves _ _ hnode), .inr ⟨rfl, hnode⟩⟩

end ProgramTable

/-! ### The recursion -/

section Recursion

variable {p : ℕ → Prop} {fill : Bool}

/-- **The encoder's recursion.**  With ASNs in range and Jump candidates that can be built it
completes, and every program of the table serves the subtree. -/
theorem TrieNode.toBinnode_spec (hp : ∀ size, 17 ≤ size → p size → BinNode.Buildable size)
    {t : TrieNode} (hasn : ∀ v ∈ t.asns, v ≤ 33521664) (hjump : t.Jumps p fill) :
    ∃ m hole, t.toBinnode fill = .ok (m, hole) ∧ ProgramTable p fill t m hole := by
  induction t with
  | Leaf v =>
    cases v with
    | zero => exact ⟨_, _, rfl, .leaf_zero⟩
    | succ v =>
      have hv : v + 1 ≤ 33521664 := hasn _ (by simp [asns])
      have hleaf := BinNode.leaf_eq (Nat.succ_pos v)
      refine ⟨_, _, ?_, .leaf_succ hv hleaf⟩
      simp only [toBinnode, hleaf, bind, Except.bind, pure, Except.pure]
  | Branch l r ihl ihr =>
    obtain ⟨hjl, hjr, hrange⟩ := hjump
    obtain ⟨left, leftHole, hl, htl⟩ := ihl (fun v hv => hasn v (by simp [asns, hv])) hjl
    obtain ⟨right, rightHole, hr, htr⟩ := ihr (fun v hv => hasn v (by simp [asns, hv])) hjr
    rw [hl, hr] at hrange
    obtain ⟨ret, hret, htable⟩ := ProgramTable.candidates_spec hp htl htr hrange
    cases hhole : (leftHole || rightHole) && !fill with
    | true =>
      rw [hhole] at htable
      refine ⟨_, true, ?_, htable.prune.retainHole⟩
      simp only [toBinnode, hl, hr, hret, hhole, bind, Except.bind, pure, Except.pure, if_true]
    | false =>
      rw [hhole] at htable
      obtain ⟨ret', hret', htable'⟩ := htable.coverAll rfl
      refine ⟨_, false, ?_, htable'.prune⟩
      simp only [toBinnode, hl, hr, hret, hret', hhole, bind, Except.bind, pure, Except.pure,
        Bool.false_eq_true, if_false]

/-- **`to_binnode`** returns a program that serves the map from the default `0`. -/
theorem ASMap.toBinnode_spec (hp : ∀ size, 17 ≤ size → p size → BinNode.Buildable size) {m : ASMap}
    (hasn : ∀ v ∈ m.asns, v ≤ 33521664) (hjump : m.trie.Jumps p fill) :
    ∃ n, m.toBinnode fill = .ok n ∧ n.ProgramWith p ∧ Serves fill m.trie n 0 := by
  obtain ⟨table, hole, htable, hspec⟩ := TrieNode.toBinnode_spec hp hasn hjump
  obtain ⟨node, ⟨hprog, hserve⟩, hroot⟩ := hspec.root
  refine ⟨node, ?_, hprog, hserve 0 (.inr rfl)⟩
  rcases hroot with hzero | ⟨hzero, hnone⟩
  · simp only [toBinnode, htable, hzero, bind, Except.bind, pure, Except.pure]
  · simp only [toBinnode, htable, hzero, hnone, Option.getD_some, bind, Except.bind, pure,
      Except.pure]

/-- Candidates that were all built include the Jumps. -/
theorem Programs.jumps_of_candidates {left right ret : Programs}
    (h : (candidates left right).foldlM candidate ∅ = .ok ret) :
    Jumps BinNode.Buildable left right := by
  intro c hc hleft hright
  have hfold : (candidates left right).foldlM
      (offerM smaller fun ab : BinNode × BinNode => BinNode.branch ab.1 ab.2) ∅ = .ok ret := h
  obtain ⟨n, hn⟩ := exists_of_foldlM_offerM hfold hc
  exact BinNode.buildable_of_branch hn hleft hright

/-- A recursion that completes has built all its Jump candidates. -/
theorem TrieNode.jumps_of_toBinnode {t : TrieNode} {r : Programs × Bool}
    (h : t.toBinnode fill = .ok r) : t.Jumps BinNode.Buildable fill := by
  induction t generalizing r with
  | Leaf v => trivial
  | Branch left right ihl ihr =>
    rw [toBinnode] at h
    obtain ⟨⟨leftMap, leftHole⟩, hl, h⟩ := bind_eq_ok.1 h
    obtain ⟨⟨rightMap, rightHole⟩, hr, h⟩ := bind_eq_ok.1 h
    obtain ⟨ret, hret, -⟩ := bind_eq_ok.1 h
    refine ⟨ihl hl, ihr hr, ?_⟩
    rw [hl, hr]
    exact jumps_of_candidates hret

/-- **A program that `to_binnode` returns** serves the map, whatever the sizes of its Jumps. -/
theorem ASMap.serves_of_toBinnode {m : ASMap} (hasn : ∀ v ∈ m.asns, v ≤ 33521664) {n : BinNode}
    (h : m.toBinnode fill = .ok n) : n.ProgramWith BinNode.Buildable ∧ Serves fill m.trie n 0 := by
  obtain ⟨r, hr, -⟩ := bind_eq_ok.1 h
  obtain ⟨n', hn', hspec⟩ := toBinnode_spec (fun _ _ hsize => hsize) hasn
    (TrieNode.jumps_of_toBinnode hr)
  obtain rfl : n' = n := Except.ok.inj (hn'.symm.trans h)
  exact hspec

end Recursion

end AsmapQuorum

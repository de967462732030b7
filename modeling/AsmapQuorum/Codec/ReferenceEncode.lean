import AsmapQuorum.Codec.ReferenceDecode

/-!
# The encoder and the reference

Both encoders run one dynamic program.  They differ in the order in which the contexts are visited,
in the maps that hold the candidates, and in the constructors: the reference asserts the range of
every operand when a node is built, the crate when it is written.

* `Builder` — the recursion of `to_binnode` with its constructors and its order as parameters; the
  crate's and the reference's recursions are instances (`toBinnode_eq_table`, `toTable_eq_table`).
* `Builder.table_spec`, `Builder.toBinnode_spec` — a builder whose constructors build what the
  crate's build, where they build it, comes to the same table and program, **in whatever order it
  visits the contexts**.
* `Reference.reference_follows` — the reference's constructors do; `encodeNode_eq`, `toBytes_pack` —
  its writer writes what the crate's does.
* `codec_eq_reference` — **the two codecs write the same bytes and read the same tries**.
-/

namespace AsmapQuorum

open FiniteMap ContextTable Programs

/-! ### The recursion with its parameters -/

/-- What the recursion of `to_binnode` is made of.  The order may differ from node to node: it is
given the path of the node. -/
structure Builder (ε : Type) where
  leaf : ℕ → Except ε BinNode
  branch : BinNode → BinNode → Except ε BinNode
  default : ℕ → BinNode → Except ε BinNode
  missing : ε
  /-- The program of a table with neither of the two contexts. -/
  neither : Except ε BinNode
  order : List Bool → Programs → Programs → List Ctx

namespace Builder

variable {ε : Type}

def cover (B : Builder ε) (ret : Programs) (k : ℕ) : Except ε Programs :=
  match ret.lookup (some k) with
  | none => .error B.missing
  | some node => do
    let defaulted ← B.default k node
    return offer smaller ret none defaulted

def table (B : Builder ε) (fill : Bool) : TrieNode → List Bool → Except ε (Programs × Bool)
  | .Leaf 0, _ => .ok (AList.singleton (if fill then none else some 0) BinNode.endNode, true)
  | .Leaf (v + 1), _ => do
    let node ← B.leaf (v + 1)
    return ((AList.singleton none node).insert (some (v + 1)) BinNode.endNode, false)
  | .Branch left right, path => do
    let (leftMap, leftHole) ← B.table fill left (path ++ [false])
    let (rightMap, rightHole) ← B.table fill right (path ++ [true])
    let hole := (leftHole || rightHole) && !fill
    let ret ← (ContextTable.candidates (B.order path leftMap rightMap) leftMap rightMap).foldlM
      (offerM smaller fun ab => B.branch ab.1 ab.2) ∅
    let ret ← if hole then .ok ret else (someKeys ret).foldlM B.cover ret
    let ret := ContextTable.prune BinNode.size ret
    return (if hole then retainHole ret else ret, hole)

def toBinnode (B : Builder ε) (fill : Bool) (trie : TrieNode) : Except ε BinNode := do
  let (res, _) ← B.table fill trie []
  match res.lookup (some 0) with
  | some node => return node
  | none =>
    match res.lookup none with
    | some node => return node
    | none => B.neither

/-- The crate's constructors, with the contexts visited in any order. -/
def crate (order : List Bool → Programs → Programs → List Ctx) : Builder Panic where
  leaf := BinNode.leaf
  branch := BinNode.branch
  default := BinNode.default
  missing := .unwrapNone
  neither := .ok BinNode.endNode
  order := order

def reference : Builder Reference.PyError where
  leaf := Reference.makeLeaf
  branch := Reference.makeBranch
  default := Reference.makeDefault
  missing := .KeyError
  neither := .error .KeyError
  order _ := Reference.sortedUnion

theorem cover_crate (order : List Bool → Programs → Programs → List Ctx) :
    (crate order).cover = Programs.cover := by
  funext ret k
  unfold cover Programs.cover
  cases ret.lookup (some k) <;> rfl

theorem cover_reference : reference.cover = Reference.cover := by
  funext ret k
  unfold cover Reference.cover
  cases ret.lookup (some k) <;> rfl

end Builder

theorem toBinnode_eq_table (fill : Bool) (t : TrieNode) (path : List Bool) :
    t.toBinnode fill = (Builder.crate fun _ => contexts).table fill t path := by
  induction t generalizing path with
  | Leaf v => cases v <;> rfl
  | Branch l r ihl ihr =>
    rw [TrieNode.toBinnode, Builder.table, ihl (path ++ [false]), ihr (path ++ [true]),
      Builder.cover_crate]
    simp only [candidates_eq, prune_eq]
    rfl

theorem toTable_eq_table (fill : Bool) (t : TrieNode) (path : List Bool) :
    Reference.toTable fill t = Builder.reference.table fill t path := by
  induction t generalizing path with
  | Leaf v => cases v <;> rfl
  | Branch l r ihl ihr =>
    have hprune : ∀ ret, Reference.dropLarger ret = ContextTable.prune BinNode.size ret := by
      intro ret
      unfold Reference.dropLarger ContextTable.prune
      cases ret.lookup none <;> rfl
    rw [Reference.toTable, Builder.table, ihl (path ++ [false]), ihr (path ++ [true]),
      Builder.cover_reference]
    simp only [hprune]
    rfl

namespace ASMap

/-- `to_binnode` that visits the contexts in the given order. -/
def toBinnodeIn (m : ASMap) (order : List Bool → Programs → Programs → List Ctx) (fill : Bool) :
    Except Panic BinNode := (Builder.crate order).toBinnode fill m.trie

/-- `to_binary` that visits the contexts in the given order. -/
def toBinaryIn (m : ASMap) (order : List Bool → Programs → Programs → List Ctx) (fill : Bool) :
    Except Panic (List UInt8) := do
  let binnode ← m.toBinnodeIn order fill
  let bits ← if binnode.isEnd then .ok [] else binnode.encode
  return packLoop bits 0 0

theorem toBinnodeIn_contexts (m : ASMap) (fill : Bool) :
    m.toBinnodeIn (fun _ => contexts) fill = m.toBinnode fill := by
  rw [toBinnodeIn, Builder.toBinnode, toBinnode, ← toBinnode_eq_table]
  congr 1
  funext table
  obtain ⟨res, hole⟩ := table
  dsimp only
  cases res.lookup (some 0) with
  | some node => rfl
  | none => cases res.lookup none <;> rfl

/-- In the order of the source this is `to_binary`. -/
theorem toBinaryIn_contexts (m : ASMap) (fill : Bool) :
    m.toBinaryIn (fun _ => contexts) fill = m.toBinary fill := by
  rw [toBinaryIn, toBinnodeIn_contexts, toBinary, toBits]
  cases m.toBinnode fill with
  | error p => rfl
  | ok n => cases hend : n.isEnd <;> simp [bind, Except.bind, pure, Except.pure, hend]

end ASMap

theorem toBinnode_eq_reference (fill : Bool) (trie : TrieNode) :
    Reference.toBinnode fill trie = Builder.reference.toBinnode fill trie := by
  rw [Reference.toBinnode, Builder.toBinnode, toTable_eq_table fill trie []]
  rfl

/-- An order of the contexts of two tables: each once. -/
def Visits (order : List Bool → Programs → Programs → List Ctx) : Prop :=
  ∀ path left right, (order path left right).Nodup ∧
    ∀ ctx, ctx ∈ order path left right ↔ ctx ∈ left ∨ ctx ∈ right

theorem visits_contexts : Visits fun _ => contexts := by
  refine fun _ left right => ⟨?_, fun _ => mem_contexts⟩
  exact (List.perm_insertionSort _ _).nodup_iff.2 (List.nodup_dedup _)

theorem visits_sortedUnion : Visits fun _ => Reference.sortedUnion := by
  refine fun _ left right => ⟨?_, fun ctx => ?_⟩
  · exact (List.perm_insertionSort _ _).nodup_iff.2 (List.nodup_dedup _)
  · unfold Reference.sortedUnion
    rw [List.mem_insertionSort, List.mem_dedup, List.mem_append, ← AList.mem_keys,
      ← AList.mem_keys]

/-! ### Builders that come to the same table -/

/-- Wherever the crate builds a valid program of operands in range, so does the builder, and the
same. -/
structure Builder.Follows {ε : Type} (B : Builder ε) : Prop where
  leaf : ∀ v n, coderAsn.canEncode v = true → BinNode.leaf v = .ok n → B.leaf v = .ok n
  branch : ∀ a b n, n.ProgramWith (· ≤ jumpMax) → BinNode.branch a b = .ok n → B.branch a b = .ok n
  default : ∀ v sub n, coderAsn.canEncode v = true → BinNode.default v sub = .ok n →
    B.default v sub = .ok n
  visits : Visits B.order

theorem Builder.crate_follows {order : List Bool → Programs → Programs → List Ctx}
    (h : Visits order) :
    (Builder.crate order).Follows :=
  ⟨fun _ _ _ => id, fun _ _ _ _ => id, fun _ _ _ _ => id, h⟩

theorem someKeys_congr {m n : Programs} (h : Same m n) : someKeys m = someKeys n := by
  have hp : (m.keys.filterMap id).Perm (n.keys.filterMap id) := h.perm_keys.filterMap id
  exact List.Perm.eq_of_pairwise' (List.pairwise_insertionSort (· ≤ ·) _)
    (List.pairwise_insertionSort (· ≤ ·) _)
    ((List.perm_insertionSort _ _).trans (hp.trans (List.perm_insertionSort _ _).symm))

section Table

variable {ε : Type} {B : Builder ε} {fill : Bool} {t l r : TrieNode}

/-- One covering default, in both maps. -/
theorem Builder.cover_same (hB : B.Follows) {hole : Bool} {m n : Programs}
    (h : ProgramTable (· ≤ jumpMax) fill t m hole) (hopen : (hole && !fill) = false)
    (hmn : Same m n) {k : ℕ} (hk : some k ∈ m) :
    ∃ m' n', Programs.cover m k = .ok m' ∧ B.cover n k = .ok n' ∧
      ProgramTable (· ≤ jumpMax) fill t m' hole ∧ (∀ k', some k' ∈ m' ↔ some k' ∈ m) ∧
        Same m' n' := by
  obtain ⟨m', hm', htable, hkeys⟩ := h.cover hopen hk
  obtain ⟨node, hnode⟩ := exists_lookup hk
  have hpos := h.pos_of_mem hopen hk
  have hcover := hm'
  simp only [Programs.cover, hnode] at hcover
  obtain ⟨defaulted, hdefault, hoffer⟩ := bind_eq_ok.1 hcover
  have hdefault' := hB.default _ _ _ (canEncode_coderAsn.2 ⟨hpos, h.key_le k hk⟩) hdefault
  obtain rfl : offer smaller m none defaulted = m' := Except.ok.inj hoffer
  refine ⟨_, offer smaller n none defaulted, hm', ?_, htable, hkeys, hmn.offer _ _ _⟩
  simp only [Builder.cover, ← hmn (some k), hnode, hdefault', bind, Except.bind, pure, Except.pure]

theorem Builder.coverAll_same (hB : B.Follows) {hole : Bool} {m n : Programs}
    (h : ProgramTable (· ≤ jumpMax) fill t m hole) (hopen : (hole && !fill) = false)
    (hmn : Same m n) :
    ∃ m' n', (someKeys m).foldlM Programs.cover m = .ok m' ∧
    (someKeys n).foldlM B.cover n = .ok n' ∧
      ProgramTable (· ≤ jumpMax) fill t m' hole ∧ Same m' n' := by
  obtain ⟨m', n', hm', hn', htable, -, hsame⟩ := foldlM_sim (f := Programs.cover) (g := B.cover)
    (R := fun s s' => ProgramTable (· ≤ jumpMax) fill t s hole ∧ (∀ k, some k ∈ s ↔ some k ∈ m) ∧
      Same s s')
    (L := someKeys m) (fun k hk s s' hs => by
      obtain ⟨m', n', hm', hn', htable, hmem, hsame⟩ :=
        B.cover_same hB hs.1 hopen hs.2.2 ((hs.2.1 k).2 (ProgramTable.mem_of_someKeys hk))
      exact ⟨m', n', hm', hn', htable, fun k' => (hmem k').trans (hs.2.1 k'), hsame⟩)
    (s := m) (t := n) ⟨h, fun _ => Iff.rfl, hmn⟩
  exact ⟨m', n', hm', someKeys_congr hmn ▸ hn', htable, hsame⟩

/-- The candidates of a branch, in both tables. -/
theorem Builder.candidates_same (hB : B.Follows) {lhole rhole : Bool}
    {left right left' right' : Programs} (hl : ProgramTable (· ≤ jumpMax) fill l left lhole)
    (hr : ProgramTable (· ≤ jumpMax) fill r right rhole)
    (hjump : Programs.Jumps (· ≤ jumpMax) left right) (hsl : Same left left')
    (hsr : Same right right') (path : List Bool) :
    ∃ ret ret', (Programs.candidates left right).foldlM candidate ∅ = .ok ret ∧
      (ContextTable.candidates (B.order path left' right') left' right').foldlM
        (offerM smaller fun ab => B.branch ab.1 ab.2) ∅ = .ok ret' ∧
      ProgramTable (· ≤ jumpMax) fill (.Branch l r) ret ((lhole || rhole) && !fill) ∧
        Same ret ret' := by
  have hp : ∀ size, 17 ≤ size → size ≤ jumpMax → BinNode.Buildable size :=
    fun _ => BinNode.buildable_of_le
  obtain ⟨ret, hret, htable⟩ := ProgramTable.candidates_spec hp hl hr hjump
  have hbranch : ∀ c ∈ ContextTable.candidates (contexts left right) left right, ∀ n,
      BinNode.branch c.2.1 c.2.2 = .ok n → B.branch c.2.1 c.2.2 = .ok n := by
    intro c hc n hn
    rw [← candidates_eq] at hc
    obtain ⟨n', hn', hserve⟩ := ProgramTable.branch_candidates hp hl hr hjump hc
    obtain rfl : n' = n := Except.ok.inj (hn'.symm.trans hn)
    exact hB.branch _ _ _ hserve.1 hn
  have hret₀ := hret
  rw [candidates_eq] at hret₀
  obtain ⟨hnodup, hmem⟩ := visits_contexts path left right
  obtain ⟨hnodup', hmem'⟩ := hB.visits path left' right'
  obtain ⟨ret', hret', hsame⟩ := same_join (fun ab => BinNode.branch ab.1 ab.2)
    (fun ab => B.branch ab.1 ab.2) hsl hsr hnodup hnodup' hmem hmem' hbranch hret₀
  exact ⟨ret, ret', hret, hret', htable, hsame⟩

/-- **The recursion of a builder** that follows the crate's comes to the same table. -/
theorem Builder.table_spec (hB : B.Follows) (hasn : ∀ v ∈ t.asns, v ≤ 33521664)
    (hjump : t.Jumps (· ≤ jumpMax) fill) (path : List Bool) :
    ∃ m m' hole, t.toBinnode fill = .ok (m, hole) ∧ B.table fill t path = .ok (m', hole) ∧
      ProgramTable (· ≤ jumpMax) fill t m hole ∧ Same m m' := by
  induction t generalizing path with
  | Leaf v =>
    cases v with
    | zero => exact ⟨_, _, true, rfl, rfl, .leaf_zero, fun _ => rfl⟩
    | succ v =>
      have hv : v + 1 ≤ 33521664 := hasn _ (by simp [TrieNode.asns])
      have hleaf := BinNode.leaf_eq (Nat.succ_pos v)
      have hleaf' := hB.leaf _ _ (canEncode_coderAsn.2 ⟨Nat.succ_pos v, hv⟩) hleaf
      refine ⟨_, _, false, ?_, ?_, .leaf_succ hv hleaf, fun _ => rfl⟩
      · simp only [TrieNode.toBinnode, hleaf, bind, Except.bind, pure, Except.pure]
      · simp only [Builder.table, hleaf', bind, Except.bind, pure, Except.pure]
  | Branch l r ihl ihr =>
    obtain ⟨hjl, hjr, hrange⟩ := hjump
    obtain ⟨left, left', lhole, hl, hl', htl, hsl⟩ :=
      ihl (fun v hv => hasn v (by simp [TrieNode.asns, hv])) hjl (path ++ [false])
    obtain ⟨right, right', rhole, hr, hr', htr, hsr⟩ :=
      ihr (fun v hv => hasn v (by simp [TrieNode.asns, hv])) hjr (path ++ [true])
    rw [hl, hr] at hrange
    obtain ⟨ret, ret', hret, hret', htable, hsame⟩ :=
      B.candidates_same hB htl htr hrange hsl hsr path
    cases hhole : (lhole || rhole) && !fill with
    | true =>
      rw [hhole] at htable
      refine ⟨ret.prune.retainHole, retainHole (ContextTable.prune BinNode.size ret'), true, ?_, ?_,
        htable.prune.retainHole, ?_⟩
      · simp only [TrieNode.toBinnode, hl, hr, hret, hhole, bind, Except.bind, pure, Except.pure,
          if_true]
      · simp only [Builder.table, hl', hr', hret', hhole, bind, Except.bind, pure, Except.pure,
          if_true]
      · rw [prune_eq]
        exact (same_prune hsame BinNode.size).retain _
    | false =>
      rw [hhole] at htable
      obtain ⟨all, all', hall, hall', htable', hsame'⟩ := B.coverAll_same hB htable rfl hsame
      refine ⟨all.prune, ContextTable.prune BinNode.size all', false, ?_, ?_, htable'.prune, ?_⟩
      · simp only [TrieNode.toBinnode, hl, hr, hret, hall, hhole, bind, Except.bind, pure,
          Except.pure, Bool.false_eq_true, if_false]
      · simp only [Builder.table, hl', hr', hret', hall', hhole, bind, Except.bind, pure,
          Except.pure, Bool.false_eq_true, if_false]
      · rw [prune_eq]
        exact same_prune hsame' BinNode.size

/-- **The program of a builder** that follows the crate's is the crate's. -/
theorem Builder.toBinnode_spec (hB : B.Follows) (hasn : ∀ v ∈ t.asns, v ≤ 33521664)
    (hjump : t.Jumps (· ≤ jumpMax) fill) :
    ∃ n, (⟨t⟩ : ASMap).toBinnode fill = .ok n ∧ B.toBinnode fill t = .ok n ∧
      n.ProgramWith (· ≤ jumpMax) := by
  obtain ⟨m, m', hole, hm, hm', htable, hsame⟩ := B.table_spec hB hasn hjump []
  obtain ⟨node, hserve, hroot⟩ := htable.root
  refine ⟨node, ?_, ?_, hserve.1⟩
  · rcases hroot with hzero | ⟨hzero, hnone⟩
    · simp only [ASMap.toBinnode, hm, hzero, bind, Except.bind, pure, Except.pure]
    · simp only [ASMap.toBinnode, hm, hzero, hnone, Option.getD_some, bind, Except.bind, pure,
        Except.pure]
  · rw [hsame (some 0), hsame none] at hroot
    rcases hroot with hzero | ⟨hzero, hnone⟩
    · simp only [Builder.toBinnode, hm', hzero, bind, Except.bind, pure, Except.pure]
    · simp only [Builder.toBinnode, hm', hzero, hnone, bind, Except.bind, pure, Except.pure]

end Table

namespace Reference

/-! ### The reference's constructors -/

section Constructors

variable {p : ℕ → Prop}

theorem newMatch_of_matchNode {v : ℕ} {sub n : BinNode} (hn : n.ProgramWith p)
    (h : BinNode.matchNode v sub = .ok n) : newMatch v sub = .ok n := by
  obtain ⟨size, rfl⟩ := BinNode.matchNode_ok h
  rcases hn with hend | ⟨-, hcan, rfl⟩
  · cases hend
  · exact newMatch_eq hcan sub

/-- Beside an empty program: a Match of the path `bit`, or fused with the Match it finds there. -/
theorem newMatch_fused {b n : BinNode} (hn : n.ProgramWith p) (bit : ℕ) (fuse : ℕ → ℕ)
    (h : (match b with
      | .Match v sub _ => if v ≤ 0xff then BinNode.matchNode (fuse v) sub
        else BinNode.matchNode bit b
      | _ => BinNode.matchNode bit b) = .ok n) :
    (match b with
      | .Match v sub _ => if v ≤ 0xff then newMatch (fuse v) sub else newMatch bit b
      | _ => newMatch bit b) = .ok n := by
  cases b with
  | Match v sub size =>
    by_cases hv : v ≤ 0xff
    · simp only [if_pos hv] at h ⊢
      exact newMatch_of_matchNode hn h
    · simp only [if_neg hv] at h ⊢
      exact newMatch_of_matchNode hn h
  | _ => exact newMatch_of_matchNode hn h

/-- A branch that the crate builds, with its operands in range, passes the assertions. -/
theorem makeBranch_of_branch {a b n : BinNode} (hn : n.ProgramWith (· ≤ jumpMax))
    (h : BinNode.branch a b = .ok n) : makeBranch a b = .ok n := by
  unfold BinNode.branch at h
  unfold makeBranch
  cases ha : a.isEnd with
  | true =>
    cases hb : b.isEnd with
    | true =>
      rw [ha, hb] at h
      exact congrArg Except.ok (Except.ok.inj h)
    | false =>
      simp only [ha, hb, Bool.and_false, Bool.false_eq_true, if_false, if_true] at h ⊢
      exact newMatch_fused hn 3 _ h
  | false =>
    cases hb : b.isEnd with
    | true =>
      simp only [ha, hb, Bool.and_true, Bool.false_eq_true, if_false, if_true] at h ⊢
      exact newMatch_fused hn 2 _ h
    | false =>
      obtain ⟨size, rfl⟩ := BinNode.branch_ok ha hb h
      rcases hn with hend | ⟨hl, -, hle, hsize⟩
      · cases hend
      · rw [BinNode.asU32_eq hle] at hsize
        rw [hsize]
        simp only [Bool.and_false, Bool.false_eq_true, if_false]
        exact newJump_eq (canEncode_coderJump.2 ⟨hl.le_size, hle⟩) b

theorem makeLeaf_of_leaf {v : ℕ} {n : BinNode} (hv : AsmapQuorum.coderAsn.canEncode v = true)
    (h : BinNode.leaf v = .ok n) : makeLeaf v = .ok n := by
  have hpos := (canEncode_coderAsn.1 hv).1
  obtain rfl : _ = n := Except.ok.inj ((BinNode.leaf_eq hpos).symm.trans h)
  have hcheck : check (decide (v > 0)) = .ok () := if_pos (decide_eq_true hpos)
  simp only [makeLeaf, hcheck, bind, Except.bind, newReturn_eq hv]

theorem makeDefault_of_default {v : ℕ} {sub n : BinNode}
    (hv : AsmapQuorum.coderAsn.canEncode v = true) (h : BinNode.default v sub = .ok n) :
    makeDefault v sub = .ok n := by
  have hpos := (canEncode_coderAsn.1 hv).1
  have hcheck : check (decide (v > 0)) = .ok () := if_pos (decide_eq_true hpos)
  have hdefault : ∀ sub : BinNode, sub.instruction = .Jump ∨ sub.instruction = .Match →
      BinNode.default v sub = .ok n → newDefault v sub = .ok n := by
    intro sub hs h
    obtain rfl : _ = n := Except.ok.inj ((BinNode.default_default hpos hs).symm.trans h)
    exact newDefault_eq hv sub
  simp only [makeDefault, hcheck, bind, Except.bind]
  cases sub with
  | Return w size => exact congrArg Except.ok (Except.ok.inj h)
  | Default w sub size => exact congrArg Except.ok (Except.ok.inj h)
  | Jump l r size => exact hdefault _ (.inl rfl) h
  | Match w sub size => exact hdefault _ (.inr rfl) h
  | End size =>
    obtain rfl : _ = n := Except.ok.inj ((BinNode.leaf_eq hpos).symm.trans h)
    exact newReturn_eq hv

end Constructors

/-- The reference's recursion is one that follows the crate's. -/
theorem reference_follows : Builder.reference.Follows where
  leaf _ _ := makeLeaf_of_leaf
  branch _ _ _ := makeBranch_of_branch
  default _ _ _ := makeDefault_of_default
  visits := visits_sortedUnion

/-! ### Writing -/

/-- A program is written the same. -/
theorem encodeNode_eq {n : BinNode} (hn : n.Valid) {w : List Bool} (h : n.encode = .ok w) :
    encodeNode n = .ok w := by
  induction n generalizing w with
  | Return v size =>
    obtain ⟨wi, wv, hi, hv, rfl⟩ := BinNode.encode_Return_ok h
    have hins : encode coderIns Instruction.Return.toNat = .ok wi := encode_eq regular_coderIns hi
    have harg : encode coderAsn v = .ok wv := encode_eq regular_coderAsn hv
    simp only [encodeNode, hins, harg, bind, Except.bind, pure, Except.pure]
  | Jump l r size ihl ihr =>
    obtain ⟨hl, hr, hle, -⟩ := hn
    obtain ⟨wi, wj, wl, wr, hi, hj, hwl, hwr, rfl⟩ := BinNode.encode_Jump_ok h
    rw [BinNode.asU32_eq hle] at hj
    have hins : encode coderIns Instruction.Jump.toNat = .ok wi := encode_eq regular_coderIns hi
    have harg : encode coderJump l.size = .ok wj := encode_eq regular_coderJump hj
    simp only [encodeNode, hins, harg, ihl hl hwl, ihr hr hwr, bind, Except.bind, pure, Except.pure]
  | Match v sub size ih =>
    obtain ⟨wi, wv, ws, hi, hv, hws, rfl⟩ := BinNode.encode_Match_ok h
    have hins : encode coderIns Instruction.Match.toNat = .ok wi := encode_eq regular_coderIns hi
    have harg : encode coderMatch v = .ok wv := encode_eq regular_coderMatch hv
    simp only [encodeNode, hins, harg, ih hn.1 hws, bind, Except.bind, pure, Except.pure]
  | Default v sub size ih =>
    obtain ⟨wi, wv, ws, hi, hv, hws, rfl⟩ := BinNode.encode_Default_ok h
    have hins : encode coderIns Instruction.Default.toNat = .ok wi := encode_eq regular_coderIns hi
    have harg : encode coderAsn v = .ok wv := encode_eq regular_coderAsn hv
    simp only [encodeNode, hins, harg, ih hn.1 hws, bind, Except.bind, pure, Except.pure]
  | End size => exact hn.elim

/-- **The packing loops**: what the reference adds up is what the crate sets bit by bit. -/
theorem pack_eq (bits : List Bool) {val : UInt8} {n : ℕ} (hn : n < 8) (hval : val.toNat < 2 ^ n) :
    pack bits val.toNat n = (packLoop bits val n).map UInt8.toNat := by
  induction bits generalizing val n with
  | nil =>
    unfold pack packLoop
    split <;> rfl
  | cons bit bits ih =>
    have hpush := toNat_pushBit hn hval bit
    have hadd : val.toNat + bit.toNat <<< n = (val ||| bit.toUInt8 <<< n.toUInt8).toNat := by
      rw [hpush, Nat.shiftLeft_eq, Nat.mul_comm, Nat.add_comm]
    rw [pack, packLoop, hadd]
    by_cases h : n + 1 = 8
    · have hrest : pack bits (0 : UInt8).toNat 0 = (packLoop bits 0 0).map UInt8.toNat :=
        ih (by decide) (by decide)
      rw [if_pos h, if_pos h, List.map_cons]
      exact congrArg _ hrest
    · rw [if_neg h, if_neg h]
      refine ih (by omega) ?_
      rw [hpush, Nat.pow_succ]
      cases bit <;> simp <;> omega

theorem toBytes_pack (bits : List Bool) : toBytes (pack bits 0 0) = .ok (packLoop bits 0 0) := by
  have hpack : pack bits (0 : UInt8).toNat 0 = (packLoop bits 0 0).map UInt8.toNat :=
    pack_eq bits (by decide) (by decide)
  rw [show (0 : UInt8).toNat = 0 from rfl] at hpack
  have hall : (pack bits 0 0).all (· < 256) = true := by
    rw [hpack, List.all_map, List.all_eq_true]
    exact fun byte _ => decide_eq_true byte.toNat_lt
  have hback : Nat.toUInt8 ∘ UInt8.toNat = id := funext fun byte => UInt8.ofNat_toNat
  rw [toBytes, if_pos hall, hpack, List.map_map, hback, List.map_id]

end Reference

/-! ### The two codecs -/

section Codec

variable {m : ASMap} {fill : Bool}

/-- A program that both recursions come to, and what it is written as. -/
theorem toBinary_eq {n : BinNode} (hn : n.ProgramWith (· ≤ jumpMax))
    (hm : m.toBinnode fill = .ok n) :
    ∃ bytes, m.toBinary fill = .ok bytes ∧
      (Reference.toBinnode fill m.trie = .ok n → Reference.toBinary fill m.trie = .ok bytes) ∧
        ∀ order, m.toBinnodeIn order fill = .ok n → m.toBinaryIn order fill = .ok bytes := by
  rcases hn with rfl | hval
  · have hbits : m.toBits fill = .ok [] := by
      simp only [ASMap.toBits, hm, bind, Except.bind]
      rfl
    refine ⟨packLoop [] 0 0, ?_, fun href => ?_, fun order horder => ?_⟩
    · simp only [ASMap.toBinary, hbits, bind, Except.bind, pure, Except.pure]
    · simp only [Reference.toBinary, href, bind, Except.bind]
      exact Reference.toBytes_pack []
    · simp only [ASMap.toBinaryIn, horder, bind, Except.bind]
      rfl
  · have hval : n.Valid := hval
    obtain ⟨w, hw⟩ := hval.exists_encode
    have hw' := Reference.encodeNode_eq hval hw
    have hbits : m.toBits fill = .ok w := by
      simp only [ASMap.toBits, hm, bind, Except.bind, hval.isEnd, Bool.false_eq_true, if_false, hw]
    refine ⟨packLoop w 0 0, ?_, fun href => ?_, fun order horder => ?_⟩
    · simp only [ASMap.toBinary, hbits, bind, Except.bind, pure, Except.pure]
    · simp only [Reference.toBinary, href, bind, Except.bind, hval.isEnd, Bool.false_eq_true,
        if_false, hw', Reference.toBytes_pack]
    · simp only [ASMap.toBinaryIn, horder, bind, Except.bind, pure, Except.pure, hval.isEnd,
        Bool.false_eq_true, if_false, hw]

/-- **The codec and the reference.**  For a map with encodable ASNs none of whose Jump candidates is
out of range, the crate writes byte for byte what the reference writes, in whatever order the
contexts are visited; and the two read every byte string alike, as the same trie or not at all. -/
theorem codec_eq_reference (hasn : ∀ v ∈ m.asns, v ≤ 33521664) (hjump : m.JumpsInRange fill) :
    (∃ bytes, m.toBinary fill = .ok bytes ∧ Reference.toBinary fill m.trie = .ok bytes ∧
      ∀ order, Visits order → m.toBinaryIn order fill = .ok bytes) ∧
    ∀ bindata, (∃ m', ASMap.fromBinary bindata = .ok m' ∧
        Reference.fromBinary bindata = .ok (some m'.trie)) ∨
      (ASMap.fromBinary bindata = .error .reject ∧ Reference.fromBinary bindata = .ok none) := by
  refine ⟨?_, Reference.fromBinary_eq⟩
  obtain ⟨n, hn, href, hprog⟩ :=
    Builder.reference.toBinnode_spec Reference.reference_follows hasn hjump
  obtain ⟨bytes, hbytes, hreference, horders⟩ := toBinary_eq hprog hn
  rw [← toBinnode_eq_reference] at href
  refine ⟨bytes, hbytes, hreference href, fun order horder => horders order ?_⟩
  obtain ⟨n', hn', hcrate, -⟩ :=
    (Builder.crate order).toBinnode_spec (Builder.crate_follows horder) hasn hjump
  obtain rfl : n' = n := Except.ok.inj (hn'.symm.trans hn)
  exact hcrate

/-- A map of two networks in two halves, which a Jump joins. -/
theorem codec_eq_reference_two_networks :
    let m := ASMap.new.updateMulti [([true], 5), ([false, true], 7), ([false, false], 9)]
    (∃ bytes, m.toBinary false = .ok bytes ∧ Reference.toBinary false m.trie = .ok bytes ∧
      ∀ order, Visits order → m.toBinaryIn order false = .ok bytes) ∧
    ∀ bindata, (∃ m', ASMap.fromBinary bindata = .ok m' ∧
        Reference.fromBinary bindata = .ok (some m'.trie)) ∨
      (ASMap.fromBinary bindata = .error .reject ∧ Reference.fromBinary bindata = .ok none) :=
  codec_eq_reference (by decide) (by decide)

end Codec

end AsmapQuorum

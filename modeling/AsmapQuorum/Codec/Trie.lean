import AsmapQuorum.Lib.PrefixOverwrite

/-!
# The ASMap prefix trie

The in-memory map of the codec: a binary trie whose leaves carry ASNs (`0` is "unassigned"), with
the operations of `trie.rs`.

* `TrieNode.update`, `ASMap.updateMulti`, `TrieNode.lookup`, `TrieNode.entriesFlat` — the functions
  of the source.
* `TrieNode.asnAt` — the meaning of a trie: the ASN it gives to every *infinite* bit path.  Update
  is one overwrite of that function (`asnAt_update`), so a whole `update_multi` is longest-prefix
  match (`asnAt_updateMulti`).
* `TrieNode.Canonical` — no branch has two equal leaves.  Every operation keeps it, and a canonical
  trie is determined by its meaning (`asnAt_injective`), which is why the derived `==` of the source
  compares maps and not representations.
* `ASMap.lookup_updateMulti` — **the same of the lookups**: the longest listed prefix decides, the
  last of several entries for it.
* `TrieNode.flat` — the assigned leaves, which is what the flat entry list comes to; **a map is
  rebuilt from it** (`updateMulti_flat`).
-/

namespace AsmapQuorum

open PrefixOverwrite

/-- A single `pfx bits -> ASN` assignment. -/
abbrev ASNEntry := List Bool × ℕ

inductive TrieNode where
  | Leaf (value : ℕ)
  | Branch (left right : TrieNode)
  deriving DecidableEq, Repr

namespace TrieNode

def leaf (value : ℕ) : TrieNode := Leaf value

/-- The merging constructor: a branch over two equal leaves is that leaf. -/
def branch : TrieNode → TrieNode → TrieNode
  | Leaf a, Leaf b => if a = b then Leaf a else Branch (Leaf a) (Leaf b)
  | l, r => Branch l r

/-- The two children an update descends into; a leaf is first split into two copies of itself. -/
def children : TrieNode → TrieNode × TrieNode
  | Leaf value => (Leaf value, Leaf value)
  | Branch left right => (left, right)

/-- `ASMap::update`'s inner recursion.  The offset of the source is the part of the path already
consumed, and the closing test that merges two equal leaves is `branch`'s. -/
def update : TrieNode → List Bool → ℕ → TrieNode
  | _, [], asn => leaf asn
  | node, bit :: rest, asn =>
    if bit then branch node.children.1 (update node.children.2 rest asn)
    else branch (update node.children.1 rest asn) node.children.2

def lookup : TrieNode → List Bool → Option ℕ
  | Leaf v, _ => some v
  | Branch _ _, [] => none
  | Branch left right, bit :: rest => (if bit then right else left).lookup rest

/-- The non-overlapping entry list.  With `fill`, a subtree whose entries all carry one ASN
collapses to a single entry for its own path. -/
def entriesFlat (fill : Bool) : TrieNode → List Bool → List ASNEntry
  | Leaf v, pfx => if v > 0 then [(pfx, v)] else []
  | Branch left right, pfx =>
    let ret := entriesFlat fill left (pfx ++ [false]) ++ entriesFlat fill right (pfx ++ [true])
    match ret with
    | first :: _ :: _ =>
      if fill && ret.all (fun e => e.2 == first.2) then [(pfx, first.2)] else ret
    | _ => ret

end TrieNode

/-- In-memory binary trie representation of an ASMap. -/
structure ASMap where
  trie : TrieNode
  deriving DecidableEq, Repr

namespace ASMap

/-- The empty map: everything unassigned. -/
def new : ASMap := ⟨TrieNode.leaf 0⟩

def update (m : ASMap) (pfx : List Bool) (asn : ℕ) : ASMap := ⟨m.trie.update pfx asn⟩

/-- Shortest prefix first, by a stable sort on the prefix length. -/
def updateMulti (m : ASMap) (entries : List ASNEntry) : ASMap :=
  (entries.insertionSort byLength).foldl (fun m e => m.update e.1 e.2) m

def lookup (m : ASMap) (pfx : List Bool) : Option ℕ := m.trie.lookup pfx

/-- `to_entries(fill, false)`. -/
def toEntriesFlat (m : ASMap) (fill : Bool) : List ASNEntry := m.trie.entriesFlat fill []

end ASMap

namespace TrieNode

/-! ### The meaning of a trie -/

/-- The ASN the trie gives to an infinite bit path. -/
def asnAt : TrieNode → Stream' Bool → ℕ
  | Leaf v, _ => v
  | Branch left right, x => if x.head then right.asnAt x.tail else left.asnAt x.tail

@[simp] theorem asnAt_leaf (v : ℕ) (x : Stream' Bool) : (Leaf v).asnAt x = v := rfl

theorem asnAt_branch_node (l r : TrieNode) (x : Stream' Bool) :
    (Branch l r).asnAt x = if x.head then r.asnAt x.tail else l.asnAt x.tail := rfl

@[simp] theorem asnAt_branch (l r : TrieNode) (x : Stream' Bool) :
    (branch l r).asnAt x = if x.head then r.asnAt x.tail else l.asnAt x.tail := by
  unfold branch
  split
  · split
    · subst_vars
      simp
    · rfl
  · rfl

theorem asnAt_children (t : TrieNode) (x : Stream' Bool) :
    t.asnAt x = if x.head then t.children.2.asnAt x.tail else t.children.1.asnAt x.tail := by
  cases t with
  | Leaf v => simp [children]
  | Branch l r => rfl

/-- **Update is one overwrite of the meaning.** -/
theorem asnAt_update (t : TrieNode) (p : List Bool) (asn : ℕ) :
    (t.update p asn).asnAt = assign t.asnAt p asn := by
  induction p generalizing t with
  | nil =>
    funext x
    simp [update, leaf, assign]
  | cons b p ih =>
    funext x
    simp only [update, assign, covers_cons]
    cases b <;> cases hx : x.head <;>
      simp [hx, ih, assign, asnAt_children t x]

theorem asnAt_foldl_update (m : ASMap) (L : List ASNEntry) :
    (L.foldl (fun m e => m.update e.1 e.2) m).trie.asnAt = assignAll m.trie.asnAt L := by
  induction L generalizing m with
  | nil => rfl
  | cons e L ih => rw [List.foldl_cons, ih, assignAll_cons, ASMap.update, asnAt_update]

/-- **`update_multi` overwrites shortest prefix first.** -/
theorem asnAt_updateMulti (m : ASMap) (L : List ASNEntry) :
    (m.updateMulti L).trie.asnAt = assignMulti m.trie.asnAt L :=
  asnAt_foldl_update m _

@[simp] theorem asnAt_new : ASMap.new.trie.asnAt = fun _ => 0 := rfl

/-! ### Canonical tries -/

/-- No branch has two equal leaves as its children. -/
def Canonical : TrieNode → Prop
  | Leaf _ => True
  | Branch l r => l.Canonical ∧ r.Canonical ∧ ∀ v, ¬(l = Leaf v ∧ r = Leaf v)

theorem Canonical.branch {l r : TrieNode} (hl : l.Canonical) (hr : r.Canonical) :
    (l.branch r).Canonical := by
  unfold TrieNode.branch
  split
  · next a b =>
    split
    · trivial
    · next hab =>
      refine ⟨trivial, trivial, fun v hv => hab ?_⟩
      rw [Leaf.inj hv.1, Leaf.inj hv.2]
  · next hne =>
    exact ⟨hl, hr, fun v hv => hne v v hv.1 hv.2⟩

theorem Canonical.children {t : TrieNode} (h : t.Canonical) :
    t.children.1.Canonical ∧ t.children.2.Canonical := by
  cases t with
  | Leaf v => exact ⟨trivial, trivial⟩
  | Branch l r => exact ⟨h.1, h.2.1⟩

theorem Canonical.update {t : TrieNode} (h : t.Canonical) (p : List Bool) (asn : ℕ) :
    (t.update p asn).Canonical := by
  induction p generalizing t with
  | nil => trivial
  | cons b p ih =>
    simp only [TrieNode.update]
    split
    · exact h.children.1.branch (ih h.children.2)
    · exact (ih h.children.1).branch h.children.2

/-- A canonical trie with a constant meaning is a leaf. -/
theorem Canonical.eq_leaf {t : TrieNode} (h : t.Canonical) {v : ℕ} (hv : ∀ x, t.asnAt x = v) :
    t = Leaf v := by
  induction t with
  | Leaf w => rw [← hv (Stream'.const true), asnAt_leaf]
  | Branch l r ihl ihr =>
    have hl : l = Leaf v := ihl h.1 fun x => by simpa [asnAt] using hv (Stream'.cons false x)
    have hr : r = Leaf v := ihr h.2.1 fun x => by simpa [asnAt] using hv (Stream'.cons true x)
    exact absurd ⟨hl, hr⟩ (h.2.2 v)

/-- **A canonical trie is determined by its meaning.** -/
theorem asnAt_injective {s t : TrieNode} (hs : s.Canonical) (ht : t.Canonical)
    (h : s.asnAt = t.asnAt) : s = t := by
  induction s generalizing t with
  | Leaf v => exact (ht.eq_leaf fun x => by rw [← h, asnAt_leaf]).symm
  | Branch l r ihl ihr =>
    cases t with
    | Leaf w => exact hs.eq_leaf fun x => by rw [h, asnAt_leaf]
    | Branch l' r' =>
      have hl : l = l' := ihl hs.1 ht.1 <| funext fun x => by
        simpa [asnAt] using congrFun h (Stream'.cons false x)
      have hr : r = r' := ihr hs.2.1 ht.2.1 <| funext fun x => by
        simpa [asnAt] using congrFun h (Stream'.cons true x)
      rw [hl, hr]

/-! ### Finite paths -/

/-- The length of the longest branch path. -/
def depth : TrieNode → ℕ
  | Leaf _ => 0
  | Branch l r => max l.depth r.depth + 1

/-- A lookup that answers gives the ASN of every extension of its path. -/
theorem asnAt_of_lookup {t : TrieNode} {p : List Bool} {v : ℕ} (h : t.lookup p = some v)
    (x : Stream' Bool) : t.asnAt (p ++ₛ x) = v := by
  induction t generalizing p with
  | Leaf w => cases p <;> exact Option.some.inj h
  | Branch l r ihl ihr =>
    cases p with
    | nil => cases h
    | cons b p => cases b <;> simp_all [lookup, asnAt, Stream'.cons_append_stream]

/-- A lookup along a path as long as the trie is deep always answers. -/
theorem lookup_of_depth_le {t : TrieNode} {p : List Bool} (h : t.depth ≤ p.length)
    (x : Stream' Bool) : t.lookup p = some (t.asnAt (p ++ₛ x)) := by
  induction t generalizing p with
  | Leaf w => cases p <;> rfl
  | Branch l r ihl ihr =>
    cases p with
    | nil => simp [depth] at h
    | cons b p =>
      simp only [depth, List.length_cons, Nat.add_le_add_iff_right, Nat.max_le] at h
      cases b <;> simp [lookup, asnAt, Stream'.cons_append_stream, ihl h.1, ihr h.2]

/-- A canonical trie that is constant below a path answers on that path. -/
theorem Canonical.lookup_eq {t : TrieNode} (h : t.Canonical) {p : List Bool} {v : ℕ}
    (hv : ∀ x, t.asnAt (p ++ₛ x) = v) : t.lookup p = some v := by
  induction t generalizing p with
  | Leaf w => cases p <;> exact congrArg some (hv (Stream'.const true))
  | Branch l r ihl ihr =>
    cases p with
    | nil => exact absurd (h.eq_leaf hv) (by simp)
    | cons b p =>
      cases b with
      | false => exact ihl h.1 fun x => by simpa [asnAt, Stream'.cons_append_stream] using hv x
      | true => exact ihr h.2.1 fun x => by simpa [asnAt, Stream'.cons_append_stream] using hv x

theorem depth_branch_le (l r : TrieNode) : (branch l r).depth ≤ max l.depth r.depth + 1 := by
  unfold branch
  split
  · split <;> simp [depth]
  · exact le_rfl

theorem depth_children_le (t : TrieNode) :
    t.children.1.depth ≤ t.depth - 1 ∧ t.children.2.depth ≤ t.depth - 1 := by
  cases t with
  | Leaf v => simp [children, depth]
  | Branch l r => simp [children, depth]

theorem depth_update_le (t : TrieNode) (p : List Bool) (asn : ℕ) :
    (t.update p asn).depth ≤ max t.depth p.length := by
  induction p generalizing t with
  | nil => simp [update, leaf, depth]
  | cons b p ih =>
    have hc := depth_children_le t
    have h₁ := ih t.children.1
    have h₂ := ih t.children.2
    simp only [update, List.length_cons]
    split
    · have := depth_branch_le t.children.1 (t.children.2.update p asn)
      omega
    · have := depth_branch_le (t.children.1.update p asn) t.children.2
      omega

/-- The ASNs at the leaves. -/
def asns : TrieNode → List ℕ
  | Leaf v => [v]
  | Branch left right => left.asns ++ right.asns

/-- The ASNs at the leaves are those of the paths. -/
theorem mem_asns_iff {t : TrieNode} {v : ℕ} : v ∈ t.asns ↔ ∃ x, t.asnAt x = v := by
  induction t with
  | Leaf w =>
    rw [asns, List.mem_singleton]
    exact ⟨fun h => ⟨Stream'.const false, h.symm⟩, fun ⟨_, h⟩ => h.symm⟩
  | Branch l r ihl ihr =>
    rw [asns, List.mem_append, ihl, ihr]
    constructor
    · rintro (⟨x, rfl⟩ | ⟨x, rfl⟩)
      · exact ⟨Stream'.cons false x, by simp [asnAt_branch_node]⟩
      · exact ⟨Stream'.cons true x, by simp [asnAt_branch_node]⟩
    · rintro ⟨x, rfl⟩
      rw [asnAt_branch_node]
      split
      · exact .inr ⟨_, rfl⟩
      · exact .inl ⟨_, rfl⟩

theorem mem_asns_branch {l r : TrieNode} {v : ℕ} (h : v ∈ (branch l r).asns) :
    v ∈ l.asns ∨ v ∈ r.asns := by
  unfold branch at h
  split at h
  · split at h
    · exact .inl h
    · exact List.mem_append.1 h
  · exact List.mem_append.1 h

theorem mem_asns_of_children {t : TrieNode} {v : ℕ}
    (h : v ∈ t.children.1.asns ∨ v ∈ t.children.2.asns) : v ∈ t.asns := by
  cases t with
  | Leaf w => exact h.elim id id
  | Branch l r => exact List.mem_append.2 h

/-- An update brings in no ASN but its own. -/
theorem mem_asns_update {t : TrieNode} {p : List Bool} {asn v : ℕ} (h : v ∈ (t.update p asn).asns) :
    v = asn ∨ v ∈ t.asns := by
  induction p generalizing t with
  | nil => exact .inl (List.mem_singleton.1 h)
  | cons b p ih =>
    rw [update] at h
    split at h
    · rcases mem_asns_branch h with h | h
      · exact .inr (mem_asns_of_children (.inl h))
      · exact (ih h).imp_right fun h => mem_asns_of_children (.inr h)
    · rcases mem_asns_branch h with h | h
      · exact (ih h).imp_right fun h => mem_asns_of_children (.inl h)
      · exact .inr (mem_asns_of_children (.inr h))

end TrieNode

namespace ASMap

/-- A path as long as the map is deep is looked up to the ASN of all its extensions. -/
theorem lookup_eq_asnAt {m : ASMap} {p : List Bool} (h : m.trie.depth ≤ p.length)
    (x : Stream' Bool) : m.lookup p = some (m.trie.asnAt (p ++ₛ x)) :=
  TrieNode.lookup_of_depth_le h x

/-- Whatever every update keeps, `update_multi` keeps. -/
theorem updateMulti_induction {P : ASMap → Prop} {L : List ASNEntry} {m : ASMap} (hm : P m)
    (hstep : ∀ m, P m → ∀ e ∈ L, P (m.update e.1 e.2)) : P (m.updateMulti L) := by
  have hfold : ∀ (M : List ASNEntry) (m : ASMap), P m → (∀ e ∈ M, e ∈ L) →
      P (M.foldl (fun m e => m.update e.1 e.2) m) := by
    intro M
    induction M with
    | nil => exact fun _ hm _ => hm
    | cons e M ih =>
      intro m hm hM
      exact ih _ (hstep m hm e (hM e (by simp))) fun e' he' => hM e' (by simp [he'])
  exact hfold _ m hm fun e he => (List.mem_insertionSort _).1 he

theorem canonical_updateMulti {m : ASMap} (hm : m.trie.Canonical) (L : List ASNEntry) :
    (m.updateMulti L).trie.Canonical :=
  updateMulti_induction (P := fun m => m.trie.Canonical) hm fun _ hm _ _ => hm.update _ _

theorem depth_updateMulti_le {m : ASMap} {L : List ASNEntry} {d : ℕ} (hm : m.trie.depth ≤ d)
    (hL : ∀ e ∈ L, e.1.length ≤ d) : (m.updateMulti L).trie.depth ≤ d :=
  updateMulti_induction (P := fun m => m.trie.depth ≤ d) hm fun _ hm e he =>
    (TrieNode.depth_update_le _ _ _).trans (max_le hm (hL e he))

def asns (m : ASMap) : List ℕ := m.trie.asns

theorem asns_updateMulti_le {m : ASMap} {L : List ASNEntry} {d : ℕ} (hm : ∀ v ∈ m.asns, v ≤ d)
    (hL : ∀ e ∈ L, e.2 ≤ d) : ∀ v ∈ (m.updateMulti L).asns, v ≤ d :=
  updateMulti_induction (P := fun m => ∀ v ∈ m.asns, v ≤ d) hm fun m hm e he v hv => by
    rcases TrieNode.mem_asns_update hv with rfl | hv
    · exact hL e he
    · exact hm v hv

theorem ext_asnAt {m n : ASMap} (hm : m.trie.Canonical) (hn : n.trie.Canonical)
    (h : m.trie.asnAt = n.trie.asnAt) : m = n := by
  have htrie := TrieNode.asnAt_injective hm hn h
  cases m
  cases n
  exact congrArg ASMap.mk htrie

/-- **`update_multi` does not depend on the order of distinct prefixes.** -/
theorem updateMulti_perm {m : ASMap} (hm : m.trie.Canonical) {L M : List ASNEntry}
    (hp : L.Perm M) (hL : (L.map Prod.fst).Nodup) : m.updateMulti L = m.updateMulti M := by
  refine ext_asnAt (canonical_updateMulti hm L) (canonical_updateMulti hm M) ?_
  rw [TrieNode.asnAt_updateMulti, TrieNode.asnAt_updateMulti, assignMulti_perm _ hp hL]

end ASMap

/-! ### Longest-prefix match -/

/-- The entry that decides a path: a longest one that it extends, and the last of that prefix. -/
structure LongestMatch (L : List ASNEntry) (p : List Bool) (e : ASNEntry) : Prop where
  mem : e ∈ L
  pfx : e.1 <+: p
  longest : ∀ e' ∈ L, e'.1 <+: p → e'.1.length ≤ e.1.length
  last : IsLast L e

section LongestMatch

variable {L : List ASNEntry} {p : List Bool} {e : ASNEntry}

/-- On a path at least as long as the prefixes of the list, it is the longest match of all its
extensions. -/
theorem longest_iff (hL : ∀ e ∈ L, e.1.length ≤ p.length) (x : Stream' Bool) :
    Longest L (p ++ₛ x) e ↔ e ∈ L ∧ e.1 <+: p ∧ ∀ e' ∈ L, e'.1 <+: p →
      e'.1.length ≤ e.1.length := by
  have hcov : ∀ e ∈ L, Covers e.1 (p ++ₛ x) ↔ e.1 <+: p := fun e he => covers_append_iff x (hL e he)
  constructor
  · intro h
    exact ⟨h.1, (hcov e h.1).1 h.2.1, fun e' he' hp => h.2.2 e' he' ((hcov e' he').2 hp)⟩
  · intro h
    exact ⟨h.1, (hcov e h.1).2 h.2.1, fun e' he' hx => h.2.2 e' he' ((hcov e' he').1 hx)⟩

theorem exists_longestMatch (hL : ∀ e ∈ L, e.1.length ≤ p.length) (h : ∃ e ∈ L, e.1 <+: p) :
    ∃ e, LongestMatch L p e := by
  obtain ⟨e, he, hp⟩ := h
  have hx : Covers e.1 (p ++ₛ Stream'.const true) := (covers_append_iff _ (hL e he)).2 hp
  obtain ⟨d, hlong, hlast⟩ := exists_longest_isLast he hx
  obtain ⟨hmem, hpfx, hlongest⟩ := (longest_iff hL _).1 hlong
  exact ⟨d, hmem, hpfx, hlongest, hlast⟩

end LongestMatch

namespace ASMap

/-- **`update_multi` is longest-prefix match.**  After it a path that is long enough is looked up to
the ASN of the longest listed prefix that it extends, the last listed one of several entries for
that prefix, and to what it was before if it extends none.  The order of distinct prefixes does not
matter. -/
theorem lookup_updateMulti {m : ASMap} (hm : m.trie.Canonical) (L : List ASNEntry) :
    (∀ p, m.trie.depth ≤ p.length → (∀ e ∈ L, e.1.length ≤ p.length) →
      (∀ e, LongestMatch L p e → (m.updateMulti L).lookup p = some e.2) ∧
      ((∃ e ∈ L, e.1 <+: p) → ∃ e, LongestMatch L p e) ∧
      ((∀ e ∈ L, ¬e.1 <+: p) → (m.updateMulti L).lookup p = m.lookup p)) ∧
    ((L.map Prod.fst).Nodup → ∀ M, L.Perm M → m.updateMulti M = m.updateMulti L) := by
  refine ⟨fun p hp hL => ?_, fun hnodup M hM => (updateMulti_perm hm hM hnodup).symm⟩
  have hdepth : (m.updateMulti L).trie.depth ≤ p.length := depth_updateMulti_le hp hL
  have hlookup := lookup_eq_asnAt hdepth (Stream'.const true)
  rw [TrieNode.asnAt_updateMulti] at hlookup
  refine ⟨fun e he => ?_, exists_longestMatch hL, fun hnone => ?_⟩
  · have hlong := (longest_iff hL (Stream'.const true)).2 ⟨he.mem, he.pfx, he.longest⟩
    rw [hlookup, assignMulti_of_isLast _ hlong he.last]
  · have hcov : ∀ e ∈ L, ¬Covers e.1 (p ++ₛ Stream'.const true) := fun e he hx =>
      hnone e he ((covers_append_iff _ (hL e he)).1 hx)
    rw [hlookup, assignMulti_of_not_covers _ hcov, lookup_eq_asnAt hp]

/-- A half of a map is overwritten twice, and an eighth of it before. -/
theorem lookup_updateMulti_repeated :
    let m := new.update [true] 3
    let L := [([true, false, true], 7), ([true], 5), ([true], 6)]
    (∀ p, m.trie.depth ≤ p.length → (∀ e ∈ L, e.1.length ≤ p.length) →
      (∀ e, LongestMatch L p e → (m.updateMulti L).lookup p = some e.2) ∧
      ((∃ e ∈ L, e.1 <+: p) → ∃ e, LongestMatch L p e) ∧
      ((∀ e ∈ L, ¬e.1 <+: p) → (m.updateMulti L).lookup p = m.lookup p)) ∧
    ((L.map Prod.fst).Nodup → ∀ M, L.Perm M → m.updateMulti M = m.updateMulti L) :=
  lookup_updateMulti (TrieNode.Canonical.update (show new.trie.Canonical from trivial) [true] 3) _

end ASMap

/-! ### Flat entries -/

namespace TrieNode

/-- The assigned leaves with their paths, left to right. -/
def flat : TrieNode → List ASNEntry
  | Leaf v => if v > 0 then [([], v)] else []
  | Branch l r => (l.flat.map fun e => (false :: e.1, e.2)) ++ r.flat.map fun e =>
    (true :: e.1, e.2)

/-- Without `fill` nothing collapses. -/
theorem entriesFlat_branch_false (l r : TrieNode) (pfx : List Bool) :
    (Branch l r).entriesFlat false pfx =
      l.entriesFlat false (pfx ++ [false]) ++ r.entriesFlat false (pfx ++ [true]) := by
  simp only [entriesFlat, Bool.false_and]
  split <;> rfl

/-- Without `fill` the entry list is the assigned leaves. -/
theorem entriesFlat_false (t : TrieNode) (pfx : List Bool) :
    t.entriesFlat false pfx = t.flat.map fun e => (pfx ++ e.1, e.2) := by
  induction t generalizing pfx with
  | Leaf v => by_cases hv : v > 0 <;> simp [entriesFlat, flat, hv]
  | Branch l r ihl ihr =>
    rw [entriesFlat_branch_false, ihl, ihr, flat, List.map_append, List.map_map, List.map_map]
    simp [Function.comp_def]

theorem mem_flat_branch {l r : TrieNode} {e : ASNEntry} : e ∈ (Branch l r).flat ↔
    (∃ d ∈ l.flat, (false :: d.1, d.2) = e) ∨ ∃ d ∈ r.flat, (true :: d.1, d.2) = e := by
  rw [flat, List.mem_append, List.mem_map, List.mem_map]

theorem mem_flat_leaf {v : ℕ} {e : ASNEntry} : e ∈ (Leaf v).flat ↔ 0 < v ∧ e = ([], v) := by
  by_cases hv : v > 0 <;> simp [flat, hv]

theorem pos_of_mem_flat {t : TrieNode} {e : ASNEntry} (he : e ∈ t.flat) : 0 < e.2 := by
  induction t generalizing e with
  | Leaf v =>
    obtain ⟨hv, rfl⟩ := mem_flat_leaf.1 he
    exact hv
  | Branch l r ihl ihr =>
    rcases mem_flat_branch.1 he with ⟨d, hd, rfl⟩ | ⟨d, hd, rfl⟩
    · exact ihl (e := d) hd
    · exact ihr (e := d) hd

theorem length_le_of_mem_flat {t : TrieNode} {e : ASNEntry} (he : e ∈ t.flat) :
    e.1.length ≤ t.depth := by
  induction t generalizing e with
  | Leaf v =>
    obtain ⟨-, rfl⟩ := mem_flat_leaf.1 he
    exact le_rfl
  | Branch l r ihl ihr =>
    rcases mem_flat_branch.1 he with ⟨d, hd, rfl⟩ | ⟨d, hd, rfl⟩
    · exact Nat.succ_le_succ ((ihl hd).trans (Nat.le_max_left _ _))
    · exact Nat.succ_le_succ ((ihr hd).trans (Nat.le_max_right _ _))

/-- A flat entry gives its ASN to every path it covers. -/
theorem asnAt_of_mem_flat {t : TrieNode} {e : ASNEntry} (he : e ∈ t.flat) {x : Stream' Bool}
    (hx : Covers e.1 x) : t.asnAt x = e.2 := by
  induction t generalizing e x with
  | Leaf v =>
    obtain ⟨-, rfl⟩ := mem_flat_leaf.1 he
    rfl
  | Branch l r ihl ihr =>
    rw [asnAt_branch_node]
    rcases mem_flat_branch.1 he with ⟨d, hd, rfl⟩ | ⟨d, hd, rfl⟩
    · rw [covers_cons] at hx
      rw [hx.1]
      exact ihl hd hx.2
    · rw [covers_cons] at hx
      rw [hx.1]
      exact ihr hd hx.2

/-- Every assigned path is covered by a flat entry. -/
theorem exists_mem_flat {t : TrieNode} {x : Stream' Bool} (hx : t.asnAt x ≠ 0) :
    ∃ e ∈ t.flat, Covers e.1 x := by
  induction t generalizing x with
  | Leaf v => exact ⟨([], v), mem_flat_leaf.2 ⟨Nat.pos_of_ne_zero hx, rfl⟩, covers_nil x⟩
  | Branch l r ihl ihr =>
    rw [asnAt_branch_node] at hx
    cases hbit : x.head with
    | false =>
      rw [hbit] at hx
      obtain ⟨d, hd, hcov⟩ := ihl hx
      exact ⟨_, mem_flat_branch.2 (.inl ⟨d, hd, rfl⟩), (covers_cons ..).2 ⟨hbit, hcov⟩⟩
    | true =>
      rw [hbit] at hx
      obtain ⟨d, hd, hcov⟩ := ihr hx
      exact ⟨_, mem_flat_branch.2 (.inr ⟨d, hd, rfl⟩), (covers_cons ..).2 ⟨hbit, hcov⟩⟩

theorem nodup_flat (t : TrieNode) : (t.flat.map Prod.fst).Nodup := by
  induction t with
  | Leaf v => by_cases hv : v > 0 <;> simp [flat, hv]
  | Branch l r ihl ihr =>
    have hmap : ∀ (b : Bool) (L : List ASNEntry), (L.map fun e => (b :: e.1, e.2)).map Prod.fst =
        (L.map Prod.fst).map (b :: ·) := by
      intro b L
      rw [List.map_map, List.map_map]
      rfl
    rw [flat, List.map_append, hmap, hmap, List.nodup_append]
    refine ⟨ihl.map List.cons_injective, ihr.map List.cons_injective, ?_⟩
    rintro p hp q hq rfl
    obtain ⟨p', -, rfl⟩ := List.mem_map.1 hp
    obtain ⟨q', -, hq⟩ := List.mem_map.1 hq
    exact absurd (List.cons.inj hq).1 (by decide)

end TrieNode

namespace ASMap

/-- The flat entries of a map are its assigned leaves. -/
theorem toEntriesFlat_false (m : ASMap) : m.toEntriesFlat false = m.trie.flat := by
  rw [toEntriesFlat, TrieNode.entriesFlat_false]
  simp

/-- **A map is rebuilt from its flat entries**, in any order. -/
theorem updateMulti_flat {m : ASMap} (hm : m.trie.Canonical) {L : List ASNEntry}
    (hL : (L.map Prod.fst).Nodup) (hmem : ∀ e, e ∈ L ↔ e ∈ m.toEntriesFlat false) :
    new.updateMulti L = m := by
  rw [toEntriesFlat_false] at hmem
  refine ext_asnAt (canonical_updateMulti (m := new) trivial L) hm ?_
  funext x
  rw [TrieNode.asnAt_updateMulti, TrieNode.asnAt_new]
  by_cases hcov : ∃ e ∈ L, Covers e.1 x
  · obtain ⟨e, he, hx⟩ := hcov
    obtain ⟨d, hd⟩ := exists_longest he hx
    rw [assignMulti_of_longest _ hL hd, TrieNode.asnAt_of_mem_flat ((hmem d).1 hd.1) hd.2.1]
  · push Not at hcov
    rw [assignMulti_of_not_covers _ hcov]
    by_contra hne
    obtain ⟨e, he, hx⟩ := TrieNode.exists_mem_flat (Ne.symm hne)
    exact hcov e ((hmem e).2 he) hx

end ASMap

end AsmapQuorum

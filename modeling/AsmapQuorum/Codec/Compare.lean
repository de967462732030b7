import AsmapQuorum.Codec.Binary

/-!
# Comparing maps

`verify` compares two maps with the derived `==`, and `compare` asks whether one satisfies all
assignments of the other.

* `lookup_eq_some_iff`, `lookup_eq_none_iff` — what a lookup answers, from the ASNs of long paths.
* `ASMap.eq_iff_lookup` — two canonical maps are equal exactly when their lookups agree.
* `ASMap.extendsMap` — `ASMap::extends`, and its meaning `extendsTrie_iff`.
* `extends_fromBinary_toBinary` — **the `fill` encoding loses no assignment**.
-/

namespace AsmapQuorum

open PrefixOverwrite

/-! ### Lookups along long paths -/

namespace TrieNode

/-- An answer does not change when the path goes on. -/
theorem lookup_append {t : TrieNode} {p : List Bool} {v : ℕ} (h : t.lookup p = some v)
    (q : List Bool) : t.lookup (p ++ q) = some v := by
  induction t generalizing p with
  | Leaf w =>
    have hw : w = v := by cases p <;> exact Option.some.inj h
    subst hw
    cases p ++ q <;> rfl
  | Branch l r ihl ihr =>
    cases p with
    | nil => cases h
    | cons b p =>
      cases b with
      | false => exact ihl h
      | true => exact ihr h

/-- A path that goes on is looked up in a half, a leaf being both halves of itself. -/
theorem lookup_children (t : TrieNode) (b : Bool) (p : List Bool) :
    t.lookup (b :: p) = (if b then t.children.2 else t.children.1).lookup p := by
  cases t with
  | Leaf v => cases b <;> cases p <;> rfl
  | Branch l r => rfl

/-- Enough bits of an infinite path are looked up to its ASN. -/
theorem lookup_take {t : TrieNode} {k : ℕ} (h : t.depth ≤ k) (x : Stream' Bool) :
    t.lookup (x.take k) = some (t.asnAt x) := by
  have hlen : t.depth ≤ (x.take k).length := by rwa [Stream'.length_take]
  rw [lookup_of_depth_le hlen (x.drop k), Stream'.append_take_drop]

theorem lookup_append_take (t : TrieNode) (p : List Bool) (x : Stream' Bool) {k : ℕ}
    (h : t.depth ≤ k) : t.lookup (p ++ x.take k) = some (t.asnAt (p ++ₛ x)) := by
  have hlen : t.depth ≤ (p ++ x.take k).length := by
    rw [List.length_append, Stream'.length_take]
    omega
  rw [lookup_of_depth_le hlen (x.drop k), Stream'.append_append_stream, Stream'.append_take_drop]

/-- A lookup answers with the one ASN of all sufficiently long extensions of its path. -/
theorem Canonical.lookup_eq_some_iff {t : TrieNode} (h : t.Canonical) {p : List Bool} {v : ℕ} :
    t.lookup p = some v ↔ ∃ k, ∀ q, p <+: q → k ≤ q.length → t.lookup q = some v := by
  constructor
  · intro hp
    refine ⟨0, fun q hq _ => ?_⟩
    obtain ⟨s, rfl⟩ := hq
    exact lookup_append hp s
  · rintro ⟨k, hk⟩
    refine h.lookup_eq fun x => ?_
    have hlen : k ≤ (p ++ x.take (t.depth + k)).length := by
      rw [List.length_append, Stream'.length_take]
      omega
    have hq := hk _ (List.prefix_append p _) hlen
    rw [lookup_append_take t p x (Nat.le_add_right _ _)] at hq
    exact Option.some.inj hq

/-- A lookup does not answer exactly when two extensions of its path have different ASNs. -/
theorem Canonical.lookup_eq_none_iff {t : TrieNode} (h : t.Canonical) {p : List Bool} :
    t.lookup p = none ↔
      ∃ q q' v v', p <+: q ∧ p <+: q' ∧ t.lookup q = some v ∧ t.lookup q' = some v' ∧ v ≠ v' := by
  constructor
  · intro hp
    by_contra hall
    -- otherwise all extensions have the ASN of the one that goes on with zeros
    have hconst : ∀ x, t.asnAt (p ++ₛ x) = t.asnAt (p ++ₛ Stream'.const false) := by
      intro x
      by_contra hne
      exact hall ⟨_, _, _, _, List.prefix_append p _, List.prefix_append p _,
        lookup_append_take t p x le_rfl, lookup_append_take t p _ le_rfl, hne⟩
    rw [h.lookup_eq hconst] at hp
    cases hp
  · rintro ⟨q, q', v, v', ⟨s, rfl⟩, ⟨s', rfl⟩, hv, hv', hne⟩
    cases hp : t.lookup p with
    | none => rfl
    | some w =>
      rw [lookup_append hp] at hv hv'
      exact absurd (Option.some.inj (hv.symm.trans hv')) hne

end TrieNode

namespace ASMap

/-- **Equality of canonical maps is agreement of all lookups.** -/
theorem eq_iff_lookup {a b : ASMap} (ha : a.trie.Canonical) (hb : b.trie.Canonical) :
    a = b ↔ ∀ p, a.lookup p = b.lookup p := by
  constructor
  · rintro rfl p
    rfl
  · intro h
    refine ext_asnAt ha hb (funext fun x => ?_)
    have hx := h (x.take (max a.trie.depth b.trie.depth))
    rw [lookup, lookup, TrieNode.lookup_take (Nat.le_max_left _ _),
      TrieNode.lookup_take (Nat.le_max_right _ _)] at hx
    exact Option.some.inj hx

/-- **The canonical trie invariant and what it is for.**  No branch of a reachable map has two equal
leaves; so equality compares the maps and not their representations, and a lookup answers exactly
when all that lies below its path has one ASN. -/
theorem normal_form_of_reachable {a b : ASMap} (ha : a.Reachable) (hb : b.Reachable) :
    (a.trie.Canonical ∧ b.trie.Canonical) ∧
    (a = b ↔ ∀ p, a.lookup p = b.lookup p) ∧
    (∀ p v, a.lookup p = some v ↔
      ∃ k, ∀ q, p <+: q → k ≤ q.length → a.lookup q = some v) ∧
    ∀ p, a.lookup p = none ↔
      ∃ q q' v v', p <+: q ∧ p <+: q' ∧ a.lookup q = some v ∧ a.lookup q' = some v' ∧ v ≠ v' :=
  ⟨⟨ha.canonical, hb.canonical⟩, eq_iff_lookup ha.canonical hb.canonical,
    fun _ _ => ha.canonical.lookup_eq_some_iff, fun _ => ha.canonical.lookup_eq_none_iff⟩

/-- A leaf that is split and merged again, against the map that was never split. -/
theorem normal_form_of_reachable_split_and_merged :
    let a := (((new.update [] 5).update [true, false] 7).update [true, false] 5)
    let b := new.update [] 5
    (a.trie.Canonical ∧ b.trie.Canonical) ∧
    (a = b ↔ ∀ p, a.lookup p = b.lookup p) ∧
    (∀ p v, a.lookup p = some v ↔
      ∃ k, ∀ q, p <+: q → k ≤ q.length → a.lookup q = some v) ∧
    ∀ p, a.lookup p = none ↔
      ∃ q q' v v', p <+: q ∧ p <+: q' ∧ a.lookup q = some v ∧ a.lookup q' = some v' ∧ v ≠ v' :=
  normal_form_of_reachable (.update (.update (.update .new _ _) _ _) _ _) (.update .new _ _)

end ASMap

/-! ### `extends` -/

namespace TrieNode

/-- `ASMap::extends`'s recursion below a required non-zero leaf. -/
def extendsLeaf (reqv : ℕ) : TrieNode → Bool
  | Leaf av => av == reqv
  | Branch left right => left.extendsLeaf reqv && right.extendsLeaf reqv

/-- `ASMap::extends`'s recursion; the second trie is the required one. -/
def extendsTrie : TrieNode → TrieNode → Bool
  | _, Leaf 0 => true
  | actual, Leaf (v + 1) => actual.extendsLeaf (v + 1)
  | Leaf av, Branch reqLeft reqRight =>
    (Leaf av).extendsTrie reqLeft && (Leaf av).extendsTrie reqRight
  | Branch actLeft actRight, Branch reqLeft reqRight =>
    actLeft.extendsTrie reqLeft && actRight.extendsTrie reqRight

theorem extendsLeaf_iff {t : TrieNode} {v : ℕ} : t.extendsLeaf v = true ↔ ∀ x, t.asnAt x = v := by
  induction t with
  | Leaf w =>
    rw [extendsLeaf, beq_iff_eq]
    exact ⟨fun h _ => h, fun h => h (Stream'.const true)⟩
  | Branch l r ihl ihr =>
    rw [extendsLeaf, Bool.and_eq_true, ihl, ihr]
    constructor
    · rintro ⟨hl, hr⟩ x
      rw [asnAt_branch_node]
      split
      · exact hr _
      · exact hl _
    · intro h
      exact ⟨fun x => by simpa [asnAt] using h (Stream'.cons false x),
        fun x => by simpa [asnAt] using h (Stream'.cons true x)⟩

/-- A condition on the ASNs of two tries splits along their children. -/
theorem forall_asnAt_branch {s l r : TrieNode} {P : ℕ → ℕ → Prop} :
    (∀ x, P (s.asnAt x) ((Branch l r).asnAt x)) ↔
      (∀ x, P (s.children.1.asnAt x) (l.asnAt x)) ∧ ∀ x, P (s.children.2.asnAt x) (r.asnAt x) := by
  constructor
  · intro h
    exact ⟨fun x => by simpa [asnAt_children s, asnAt] using h (Stream'.cons false x),
      fun x => by simpa [asnAt_children s, asnAt] using h (Stream'.cons true x)⟩
  · rintro ⟨hl, hr⟩ x
    rw [asnAt_children s, asnAt_branch_node]
    cases x.head with
    | false => exact hl x.tail
    | true => exact hr x.tail

/-- **`extends`**: wherever the required trie has an ASN, the actual one has the same. -/
theorem extendsTrie_iff {actual req : TrieNode} :
    actual.extendsTrie req = true ↔ ∀ x, req.asnAt x ≠ 0 → actual.asnAt x = req.asnAt x := by
  induction req generalizing actual with
  | Leaf v =>
    cases v with
    | zero => simp [extendsTrie]
    | succ v => simp [extendsTrie, extendsLeaf_iff]
  | Branch l r ihl ihr =>
    rw [forall_asnAt_branch (P := fun a v => v ≠ 0 → a = v), ← ihl, ← ihr, ← Bool.and_eq_true]
    cases actual <;> rfl

end TrieNode

namespace ASMap

/-- `ASMap::extends`: the map satisfies every non-zero assignment of `req`. -/
def extendsMap (m req : ASMap) : Bool := m.trie.extendsTrie req.trie

/-- What a canonical map that extends another one looks up. -/
theorem lookup_of_extendsMap {m req : ASMap} (hm : m.trie.Canonical) (h : m.extendsMap req = true)
    {p : List Bool} {v : ℕ} (hv : v ≠ 0) (hp : req.lookup p = some v) : m.lookup p = some v := by
  refine hm.lookup_eq fun x => ?_
  have hreq := TrieNode.asnAt_of_lookup hp x
  rw [TrieNode.extendsTrie_iff.1 h (p ++ₛ x) (by rwa [hreq]), hreq]

/-- **The `fill` encoding loses no assignment.**  A map with encodable ASNs, none of whose Jump
candidates is out of range, is written without aborting; what is read back extends it, and looks up
every path that the map assigns to the same ASN. -/
theorem extends_fromBinary_toBinary {m : ASMap} (hasn : ∀ v ∈ m.asns, v ≤ 33521664)
    (hjump : m.JumpsInRange true) :
    ∃ bytes m2, m.toBinary true = .ok bytes ∧ fromBinary bytes = .ok m2 ∧
      m2.extendsMap m = true ∧ ∀ p v, v ≠ 0 → m.lookup p = some v → m2.lookup p = some v := by
  have hfit := fits_of_jumpsInRange hasn hjump
  obtain ⟨bytes, n, hbytes, hback, hserve⟩ := toBinary_spec hasn hfit
  have hext : extendsMap ⟨n.meaning 0⟩ m = true := by
    refine TrieNode.extendsTrie_iff.2 fun x hx => ?_
    rcases hserve x with heq | ⟨-, hzero⟩
    · exact heq
    · exact absurd hzero hx
  exact ⟨bytes, _, hbytes, hback, hext,
    fun p v => lookup_of_extendsMap (canonical_of_fromBinary hback) hext⟩

/-- Two networks with unassigned space between them, which the encoding fills. -/
theorem extends_fromBinary_toBinary_gap :
    let m := new.updateMulti [([true], 5), ([false, true], 5)]
    ∃ bytes m2, m.toBinary true = .ok bytes ∧ fromBinary bytes = .ok m2 ∧
      m2.extendsMap m = true ∧ ∀ p v, v ≠ 0 → m.lookup p = some v → m2.lookup p = some v :=
  extends_fromBinary_toBinary (by decide) (by decide)

end ASMap

end AsmapQuorum

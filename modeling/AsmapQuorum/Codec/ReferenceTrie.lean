import AsmapQuorum.Codec.Patch
import AsmapQuorum.Codec.ReferenceDecode
import AsmapQuorum.Lib.Footprint
import Mathlib.Data.List.Lex
import Mathlib.Data.Prod.Lex

/-!
# The trie of the reference

`ASMap` of `contrib/asmap/asmap.py` as an object.  Its trie is made of lists that are changed in
place, and a list is in it by reference.

* `Reference.Heap` — the lists; `PyMap` — an object.
* `PyMap.update`, `updateMulti`, `ofEntries`, `setTrie` — the methods that change lists.
* `PyMap.lookup`, `equal`, `extendsMap`, `diff` — those that read them.
* `Holds` — the lists at a footprint are a trie; `updateRec_spec`, `setTrieRec_spec` — **what is
  changed in place is changed as the crate's trie is**, and nothing else.
* `PyMap.run_eq` — **after the same patches an object holds the crate's map**, and answers as it
  does.
-/

namespace AsmapQuorum

open Footprint PrefixOverwrite

namespace Reference

/-! ### Lists in place -/

/-- What a list of the trie holds: another list, by its identity, or an ASN. -/
inductive Item where
  | node (id : ℕ)
  | asn (asn : ℕ)
  deriving DecidableEq, Repr

/-- The lists, each at its identity. -/
abbrev Heap := List (List Item)

/-- A new list. -/
def newList (heap : Heap) (items : List Item) : ℕ × Heap := (heap.length, heap ++ [items])

/-- `node.append(item)`. -/
def append (heap : Heap) (node : ℕ) (item : Item) : Heap := heap.modify node (· ++ [item])

/-- `node.clear()`, and the appends after it. -/
def refill (heap : Heap) (node : ℕ) (items : List Item) : Heap := heap.set node items

/-- `node[i]`, where that is a list. -/
def child (heap : Heap) (node i : ℕ) : Except PyError ℕ :=
  match heap[node]? with
  | some items =>
    match items[i]? with
    | some (.node id) => .ok id
    | _ => .error .IndexError
  | none => .error .IndexError

/-! ### Changing a trie -/

/-- A leaf that is to be descended into is split up. -/
def splitUp (heap : Heap) (node : ℕ) : Heap :=
  match heap[node]? with
  | some [.asn oldasn] =>
    let (left, heap) := newList heap [.asn oldasn]
    let (right, heap) := newList heap [.asn oldasn]
    refill heap node [.node left, .node right]
  | _ => heap

/-- Two identical leaf children are merged. -/
def mergeUp (heap : Heap) (node : ℕ) : Except PyError Heap := do
  let left ← child heap node 0
  let right ← child heap node 1
  match heap[left]?, heap[right]? with
  | some [.asn a], some [.asn b] => return if a = b then refill heap node [.asn a] else heap
  | _, _ => return heap

/-- `update`'s `recurse`. -/
def updateRec (asn : ℕ) : List Bool → Heap → ℕ → Except PyError Heap
  | [], heap, node => .ok (refill heap node [.asn asn])
  | bit :: rest, heap, node => do
    let heap := splitUp heap node
    let next ← child heap node bit.toNat
    let heap ← updateRec asn rest heap next
    mergeUp heap node

/-- The end of `_set_trie`'s `recurse`: `node[0]` has one element or none, and `==` compares no
further. -/
def mergeEqual (heap : Heap) (node : ℕ) : Except PyError Heap := do
  let left ← child heap node 0
  let right ← child heap node 1
  match heap[left]?, heap[right]? with
  | some [_, _], _ => return heap
  | some [], some [] => return refill heap node []
  | some [.asn a], some [.asn b] => return if a = b then refill heap node [.asn a] else heap
  | _, _ => return heap

/-- `_set_trie`'s `recurse`. -/
def setTrieRec : ℕ → Heap → ℕ → Except PyError Heap
  | 0, _, _ => .error .outOfFuel
  | fuel + 1, heap, node =>
    match heap[node]? with
    | some (_ :: _ :: _) => do
      let left ← child heap node 0
      let heap ← setTrieRec fuel heap left
      let right ← child heap node 1
      let heap ← setTrieRec fuel heap right
      mergeEqual heap node
    | some _ => .ok heap
    | none => .error .IndexError

/-! ### Reading tries -/

/-- `lookup`: the list at which the loop stops. -/
def lookupLoop (heap : Heap) : List Bool → ℕ → Except PyError ℕ
  | [], node => .ok node
  | bit :: rest, node =>
    match heap[node]? with
    | some [_] => .ok node
    | _ => do
      let next ← child heap node bit.toNat
      lookupLoop heap rest next

/-- `==` of two lists. -/
def equalRec (heap other : Heap) : ℕ → ℕ → ℕ → Except PyError Bool
  | 0, _, _ => .error .outOfFuel
  | fuel + 1, a, b =>
    match heap[a]?, other[b]? with
    | some [], some [] => .ok true
    | some [.asn x], some [.asn y] => .ok (x == y)
    | some [.node l, .node r], some [.node l', .node r'] => do
      if ← equalRec heap other fuel l l' then equalRec heap other fuel r r' else return false
    | some _, some _ => .ok false
    | _, _ => .error .IndexError

/-- `extends`' `recurse`. -/
def extendsRec (heap other : Heap) : ℕ → ℕ → ℕ → Except PyError Bool
  | 0, _, _ => .error .outOfFuel
  | fuel + 1, actual, require =>
    match heap[actual]?, other[require]? with
    | _, some [.asn 0] => .ok true
    | some [.asn a], some [.asn r] => .ok (r == a)
    | some [.node l, .node r], some [.asn _] => do
      if ← extendsRec heap other fuel l require then extendsRec heap other fuel r require
        else return false
    | some [.node l, .node r], some [.node l', .node r'] => do
      if ← extendsRec heap other fuel l l' then extendsRec heap other fuel r r' else return false
    | some _, some [.node l', .node r'] => do
      if ← extendsRec heap other fuel actual l' then extendsRec heap other fuel actual r'
        else return false
    | _, _ => .error .IndexError

/-- `old_node if len(old_node) == 1 else old_node[i]`. -/
def side (heap : Heap) (node i : ℕ) : Except PyError ℕ :=
  match heap[node]? with
  | some [_] => .ok node
  | _ => child heap node i

/-- `diff`'s `recurse`. -/
def diffRec (heap other : Heap) : ℕ → ℕ → ℕ → List Bool → Except PyError (List ASNDiff)
  | 0, _, _, _ => .error .outOfFuel
  | fuel + 1, old, new, pfx =>
    match heap[old]?, other[new]? with
    | some [.asn a], some [.asn b] => .ok (if a ≠ b then [(pfx, a, b)] else [])
    | _, _ => do
      let oldLeft ← side heap old 0
      let oldRight ← side heap old 1
      let newLeft ← side other new 0
      let newRight ← side other new 1
      let left ← diffRec heap other fuel oldLeft newLeft (pfx ++ [false])
      let right ← diffRec heap other fuel oldRight newRight (pfx ++ [true])
      return left ++ right

/-! ### `ASMap` -/

/-- An object: the list that is its `_trie`, with the lists it is made of.  Objects share no
lists. -/
structure PyMap where
  heap : Heap
  trie : ℕ
  deriving DecidableEq, Repr

/-- `entry_key`: shorter prefixes first, then in the order of the prefixes, then in that of the
ASNs. -/
def entryKey (entry : ASNEntry) : ℕ ×ₗ List Bool ×ₗ ℕ := toLex (entry.1.length, toLex entry)

/-- The order of the keys. -/
def keyLe (e e' : ASNEntry) : Prop := entryKey e ≤ entryKey e'

instance : DecidableRel keyLe := fun _ _ => inferInstanceAs (Decidable (_ ≤ _))

instance : IsTrans ASNEntry keyLe := ⟨fun _ _ _ h h' => le_trans h h'⟩

instance : Std.Refl keyLe := ⟨fun _ => le_rfl⟩

instance : Std.Total keyLe := ⟨fun _ _ => le_total _ _⟩

namespace PyMap

/-- `ASMap()`. -/
def new : PyMap := ⟨[[.asn 0]], 0⟩

def update (p : PyMap) (pfx : List Bool) (asn : ℕ) : Except PyError PyMap := do
  check (asn = 0 ∨ canEncode coderAsn asn)
  let heap ← updateRec asn pfx p.heap p.trie
  return ⟨heap, p.trie⟩

def updateMulti (p : PyMap) (entries : List ASNEntry) : Except PyError PyMap :=
  (entries.insertionSort byLength).foldlM (fun p e => p.update e.1 e.2) p

/-- `ASMap(entries)`. -/
def ofEntries (entries : List ASNEntry) : Except PyError PyMap :=
  (entries.insertionSort keyLe).foldlM (fun p e => p.update e.1 e.2) new

/-- `_set_trie`. -/
def setTrie (p : PyMap) : Except PyError PyMap := do
  let heap ← setTrieRec p.heap.length p.heap p.trie
  return ⟨heap, p.trie⟩

def lookup (p : PyMap) (pfx : List Bool) : Except PyError (Option ℕ) := do
  let node ← lookupLoop p.heap pfx p.trie
  return match p.heap[node]? with
    | some [.asn asn] => some asn
    | _ => none

/-- `__eq__`. -/
def equal (p q : PyMap) : Except PyError Bool :=
  equalRec p.heap q.heap (p.heap.length + q.heap.length) p.trie q.trie

/-- `extends`. -/
def extendsMap (p req : PyMap) : Except PyError Bool :=
  extendsRec p.heap req.heap (p.heap.length + req.heap.length) p.trie req.trie

def diff (p other : PyMap) : Except PyError (List ASNDiff) :=
  diffRec p.heap other.heap (p.heap.length + other.heap.length) p.trie other.trie []

end PyMap

/-! ### Tries in a heap -/

/-- The list at an identity is a trie, whose lists are the footprint. -/
inductive Holds (heap : Heap) : ℕ → TrieNode → List ℕ → Prop
  | leaf {id v : ℕ} (h : heap[id]? = some [.asn v]) : Holds heap id (.Leaf v) [id]
  | branch {id a b : ℕ} {l r : TrieNode} {fl fr : List ℕ} (h : heap[id]? = some [.node a, .node b])
      (hl : Holds heap a l fl) (hr : Holds heap b r fr) : Holds heap id (.Branch l r)
      (id :: (fl ++ fr))

theorem lt_of_getElem? {heap : Heap} {id : ℕ} {items : List Item} (h : heap[id]? = some items) :
    id < heap.length :=
  (List.getElem?_eq_some_iff.1 h).1

theorem child_zero {heap : Heap} {id a b : ℕ} (h : heap[id]? = some [.node a, .node b]) :
    child heap id 0 = .ok a := by
  rw [child, h]
  rfl

theorem child_one {heap : Heap} {id a b : ℕ} (h : heap[id]? = some [.node a, .node b]) :
    child heap id 1 = .ok b := by
  rw [child, h]
  rfl

namespace Holds

variable {heap heap' : Heap} {id : ℕ} {t : TrieNode} {f : List ℕ}

theorem root_mem (h : Holds heap id t f) : id ∈ f := by
  cases h with
  | leaf h => exact List.mem_singleton_self id
  | branch h hl hr => exact List.mem_cons_self

theorem length_pos (h : Holds heap id t f) : 0 < f.length :=
  List.length_pos_of_mem h.root_mem

theorem lt (h : Holds heap id t f) : ∀ j ∈ f, j < heap.length := by
  induction h with
  | leaf h =>
    intro j hj
    rw [List.mem_singleton.1 hj]
    exact lt_of_getElem? h
  | branch h hl hr ihl ihr =>
    intro j hj
    obtain rfl | hj := List.mem_cons.1 hj
    · exact lt_of_getElem? h
    · obtain hj | hj := List.mem_append.1 hj
      · exact ihl j hj
      · exact ihr j hj

/-- Lists outside the footprint may change. -/
theorem congr (h : Holds heap id t f) (hsame : ∀ j ∈ f, heap'[j]? = heap[j]?) :
    Holds heap' id t f := by
  induction h with
  | leaf h => exact .leaf ((hsame _ (List.mem_singleton_self _)).trans h)
  | branch h hl hr ihl ihr =>
    refine .branch ((hsame _ List.mem_cons_self).trans h) (ihl fun j hj => ?_) (ihr fun j hj => ?_)
    · exact hsame j (List.mem_cons_of_mem _ (List.mem_append_left _ hj))
    · exact hsame j (List.mem_cons_of_mem _ (List.mem_append_right _ hj))

/-- Distinct lists are no more than there are. -/
theorem length_le (h : Holds heap id t f) (hf : f.Nodup) : f.length ≤ heap.length := by
  have hsub : f ⊆ List.range heap.length := fun j hj => List.mem_range.2 (h.lt j hj)
  have hlength := (List.subperm_of_subset hf hsub).length_le
  rwa [List.length_range] at hlength

end Holds

/-- A branch with its two sides, all of different lists. -/
structure BranchAt (heap : Heap) (id a b : ℕ) (l r : TrieNode) (fl fr : List ℕ) : Prop where
  read : heap[id]? = some [.node a, .node b]
  left : Holds heap a l fl
  right : Holds heap b r fr
  nodup : (id :: (fl ++ fr)).Nodup

namespace BranchAt

variable {heap heap' : Heap} {id a b : ℕ} {l r l' r' : TrieNode} {fl fr f' : List ℕ}

theorem holds (h : BranchAt heap id a b l r fl fr) : Holds heap id (.Branch l r)
    (id :: (fl ++ fr)) :=
  .branch h.read h.left h.right

theorem nodup_parts (h : BranchAt heap id a b l r fl fr) : fl.Nodup ∧ fr.Nodup := by
  obtain ⟨-, hparts⟩ := List.nodup_cons.1 h.nodup
  obtain ⟨hl, hr, -⟩ := List.nodup_append'.1 hparts
  exact ⟨hl, hr⟩

/-- A change on the left leaves the right as it is. -/
theorem setLeft (h : BranchAt heap id a b l r fl fr) (hc : Changed heap heap' fl f')
    (hl : Holds heap' a l' f') : BranchAt heap' id a b l' r f' fr ∧
      Changed heap heap' (id :: (fl ++ fr)) (id :: (f' ++ fr)) := by
  obtain ⟨hid, hright, hframe⟩ := hc.left h.nodup h.holds.lt
  exact ⟨⟨hid.trans h.read, hl, h.right.congr hright, hframe.nodup⟩, hframe⟩

/-- A change on the right leaves the left as it is. -/
theorem setRight (h : BranchAt heap id a b l r fl fr) (hc : Changed heap heap' fr f')
    (hr : Holds heap' b r' f') : BranchAt heap' id a b l r' fl f' ∧
      Changed heap heap' (id :: (fl ++ fr)) (id :: (fl ++ f')) := by
  obtain ⟨hid, hleft, hframe⟩ := hc.right h.nodup h.holds.lt
  exact ⟨⟨hid.trans h.read, h.left.congr hleft, hr, hframe.nodup⟩, hframe⟩

end BranchAt

/-! ### Changes in place -/

section InPlace

variable {heap : Heap} {id : ℕ} {t : TrieNode} {f : List ℕ}

theorem Holds.set {v : ℕ} (h : Holds heap id t f) (hf : f.Nodup) :
    Holds (refill heap id [.asn v]) id (.Leaf v) [id] ∧
      Changed heap (refill heap id [.asn v]) f [id] := by
  refine ⟨.leaf (List.getElem?_set_self (h.lt id h.root_mem)), ?_⟩
  exact (Changed.set h.root_mem hf _).shrink (List.singleton_sublist.2 h.root_mem)

/-- A trie that is split up has its children below it. -/
theorem splitUp_spec (h : Holds heap id t f) (hf : f.Nodup) :
    ∃ a b fl fr, BranchAt (splitUp heap id) id a b t.children.1 t.children.2 fl fr ∧
      Changed heap (splitUp heap id) f (id :: (fl ++ fr)) := by
  cases h with
  | @leaf id v h =>
    have hlt := lt_of_getElem? h
    let first : Heap := heap ++ [[.asn v]]
    let second : Heap := first ++ [[.asn v]]
    have hsplit : splitUp heap id = second.set id [.node heap.length, .node first.length] := by
      rw [splitUp, h]
      rfl
    have hfirst : first.length = heap.length + 1 := List.length_append
    have hsecond : second.length = heap.length + 2 := by
      rw [List.length_append, hfirst]
      rfl
    have hchanged : Changed heap (splitUp heap id) [id] [id, heap.length, first.length] := by
      rw [hsplit]
      have hpush : Changed heap first [id] ([id] ++ [heap.length]) :=
        .push hf (fun j hj => List.mem_singleton.1 hj ▸ hlt) _
      have hpush' : Changed first second ([id] ++ [heap.length])
          ([id] ++ [heap.length] ++ [first.length]) := by
        refine .push hpush.nodup (fun j hj => ?_) _
        obtain hj | hj := List.mem_append.1 hj <;> rw [List.mem_singleton.1 hj] <;> omega
      exact (hpush.trans hpush').trans (.set List.mem_cons_self hpush'.nodup _)
    refine ⟨heap.length, first.length, [heap.length], [first.length],
      ⟨?_, .leaf ?_, .leaf ?_, hchanged.nodup⟩, hchanged⟩
    · rw [hsplit, List.getElem?_set_self (by omega)]
    · rw [hsplit, List.getElem?_set_ne (by omega), List.getElem?_append_left (by omega),
        List.getElem?_concat_length]
    · rw [hsplit, List.getElem?_set_ne (by omega), List.getElem?_concat_length]
  | @branch id a b l r fl fr h hl hr =>
    have hsplit : splitUp heap id = heap := by rw [splitUp, h]
    rw [hsplit]
    exact ⟨a, b, fl, fr, ⟨h, hl, hr, hf⟩, .refl hf⟩

/-- The heap once equal leaves on both sides are merged. -/
def merged (heap : Heap) (id : ℕ) : TrieNode → TrieNode → Heap
  | .Leaf v, .Leaf w => if v = w then refill heap id [.asn v] else heap
  | _, _ => heap

section Merge

variable {a b : ℕ} {l r : TrieNode} {fl fr : List ℕ} (h : BranchAt heap id a b l r fl fr)
include h

theorem merged_spec : ∃ f', Holds (merged heap id l r) id (l.branch r) f' ∧
    Changed heap (merged heap id l r) (id :: (fl ++ fr)) f' := by
  have hkeep : ∃ f', Holds heap id (.Branch l r) f' ∧ Changed heap heap (id :: (fl ++ fr)) f' :=
    ⟨_, h.holds, .refl h.nodup⟩
  fun_cases TrieNode.branch l r with
  | case1 v =>
    rw [merged, if_pos rfl]
    exact ⟨[id], h.holds.set h.nodup⟩
  | case2 v w hne =>
    rw [merged, if_neg hne]
    exact hkeep
  | case3 l r hleaf =>
    have hmerged : merged heap id l r = heap := by
      cases l with
      | Leaf v =>
        cases r with
        | Leaf w => exact absurd rfl (hleaf v w rfl)
        | Branch _ _ => rfl
      | Branch _ _ => rfl
    rw [hmerged]
    exact hkeep

theorem mergeUp_eq : mergeUp heap id = .ok (merged heap id l r) := by
  rw [mergeUp, bind_ok (child_zero h.read), bind_ok (child_one h.read)]
  cases h.left with
  | leaf hv =>
    cases h.right with
    | leaf hw => rw [hv, hw]; rfl
    | branch hw _ _ => rw [hv, hw]; rfl
  | branch hv _ _ => rw [hv]; rfl

theorem mergeEqual_eq : mergeEqual heap id = .ok (merged heap id l r) := by
  rw [mergeEqual, bind_ok (child_zero h.read), bind_ok (child_one h.read)]
  cases h.left with
  | leaf hv =>
    cases h.right with
    | leaf hw => rw [hv, hw]; rfl
    | branch hw _ _ => rw [hv, hw]; rfl
  | branch hv _ _ => rw [hv]; rfl

end Merge

/-- **`update`** in place is the crate's, and touches no list but the trie's own. -/
theorem updateRec_spec (h : Holds heap id t f) (hf : f.Nodup) (pfx : List Bool) (asn : ℕ) :
    ∃ heap' f', updateRec asn pfx heap id = .ok heap' ∧ Holds heap' id (t.update pfx asn) f' ∧
      Changed heap heap' f f' := by
  induction pfx generalizing heap id t f with
  | nil => exact ⟨_, [id], rfl, h.set hf⟩
  | cons bit rest ih =>
    obtain ⟨a, b, fl, fr, hsplit, hchanged⟩ := splitUp_spec h hf
    obtain ⟨hfl, hfr⟩ := hsplit.nodup_parts
    rw [updateRec]
    cases bit with
    | false =>
      obtain ⟨heap', fl', hok, hl, hcl⟩ := ih hsplit.left hfl
      obtain ⟨hset, hcs⟩ := hsplit.setLeft hcl hl
      obtain ⟨f', hmerged, hcm⟩ := merged_spec hset
      refine ⟨_, f', ?_, hmerged, (hchanged.trans hcs).trans hcm⟩
      rw [Bool.toNat_false, bind_ok (child_zero hsplit.read), bind_ok hok, mergeUp_eq hset]
    | true =>
      obtain ⟨heap', fr', hok, hr, hcr⟩ := ih hsplit.right hfr
      obtain ⟨hset, hcs⟩ := hsplit.setRight hcr hr
      obtain ⟨f', hmerged, hcm⟩ := merged_spec hset
      refine ⟨_, f', ?_, hmerged, (hchanged.trans hcs).trans hcm⟩
      rw [Bool.toNat_true, bind_ok (child_one hsplit.read), bind_ok hok, mergeUp_eq hset]

/-- **`_set_trie`** in place merges as `setTrie` does. -/
theorem setTrieRec_spec {fuel : ℕ} (h : Holds heap id t f) (hf : f.Nodup)
    (hfuel : f.length ≤ fuel) :
    ∃ heap' f', setTrieRec fuel heap id = .ok heap' ∧ Holds heap' id (setTrie t) f' ∧
      Changed heap heap' f f' := by
  induction t generalizing heap id f fuel with
  | Leaf v =>
    have hpos := h.length_pos
    obtain ⟨fuel, rfl⟩ := Nat.exists_eq_succ_of_ne_zero (show fuel ≠ 0 by omega)
    cases h with
    | leaf hv =>
      refine ⟨heap, [id], ?_, .leaf hv, .refl hf⟩
      rw [setTrieRec, hv]
  | Branch l r ihl ihr =>
    have hpos := h.length_pos
    obtain ⟨fuel, rfl⟩ := Nat.exists_eq_succ_of_ne_zero (show fuel ≠ 0 by omega)
    cases h with
    | @branch _ a b _ _ fl fr hread hl hr =>
      have hat : BranchAt heap id a b l r fl fr := ⟨hread, hl, hr, hf⟩
      obtain ⟨hfl, hfr⟩ := hat.nodup_parts
      rw [List.length_cons, List.length_append] at hfuel
      obtain ⟨heap₁, fl', hokl, hl', hcl⟩ := ihl hl hfl (show fl.length ≤ fuel by omega)
      obtain ⟨hat₁, hc₁⟩ := hat.setLeft hcl hl'
      obtain ⟨heap₂, fr', hokr, hr', hcr⟩ := ihr hat₁.right hfr (show fr.length ≤ fuel by omega)
      obtain ⟨hat₂, hc₂⟩ := hat₁.setRight hcr hr'
      obtain ⟨f', hmerged, hcm⟩ := merged_spec hat₂
      refine ⟨_, f', ?_, setTrie_Branch l r ▸ hmerged, (hc₁.trans hc₂).trans hcm⟩
      rw [setTrieRec, hread]
      dsimp only
      rw [bind_ok (child_zero hread), bind_ok hokl, bind_ok (child_one hat₁.read), bind_ok hokr,
        mergeEqual_eq hat₂]

end InPlace

/-! ### Reading -/

section Read

variable {heap other : Heap} {id a b fuel : ℕ} {s t : TrieNode} {f g : List ℕ}

theorem lookupLoop_spec (h : Holds heap id t f) (pfx : List Bool) :
    ∃ node, lookupLoop heap pfx id = .ok node ∧
      (match heap[node]? with
        | some [.asn asn] => some asn
        | _ => none) = t.lookup pfx := by
  induction pfx generalizing id t f with
  | nil =>
    refine ⟨id, rfl, ?_⟩
    cases h with
    | leaf h => rw [h]; rfl
    | branch h _ _ => rw [h]; rfl
  | cons bit rest ih =>
    cases h with
    | @leaf _ v h =>
      refine ⟨id, ?_, ?_⟩
      · rw [lookupLoop, h]
      · rw [h]
        rfl
    | @branch _ a b l r fl fr h hl hr =>
      rw [lookupLoop, h]
      dsimp only
      cases bit with
      | false =>
        rw [Bool.toNat_false, bind_ok (child_zero h)]
        exact ih hl
      | true =>
        rw [Bool.toNat_true, bind_ok (child_one h)]
        exact ih hr

/-- A conjunction of which the second part is looked at only if the first holds. -/
theorem and_of_ok {x y : Except PyError Bool} {b c : Bool} (hx : x = .ok b) (hy : y = .ok c) :
    (do if ← x then y else return false) = Except.ok (b && c) := by
  rw [hx, hy]
  cases b <;> rfl

theorem equalRec_spec (h : Holds heap a s f) (h' : Holds other b t g)
    (hfuel : f.length + g.length ≤ fuel) :
    equalRec heap other fuel a b = .ok (decide (s = t)) := by
  induction fuel generalizing a b s t f g with
  | zero =>
    have hpos := h.length_pos
    omega
  | succ fuel ih =>
    rw [equalRec]
    cases h with
    | leaf h =>
      cases h' with
      | leaf h' => rw [h, h']; simp [beq_eq_decide]
      | branch h' _ _ => rw [h, h']; simp
    | branch h hl hr =>
      cases h' with
      | leaf h' => rw [h, h']; simp
      | branch h' hl' hr' =>
        rw [List.length_cons, List.length_cons, List.length_append, List.length_append] at hfuel
        rw [h, h']
        dsimp only
        rw [and_of_ok (ih hl hl' (by omega)) (ih hr hr' (by omega))]
        simp [Bool.decide_and]

theorem extendsRec_spec (h : Holds heap a s f) (h' : Holds other b t g)
    (hfuel : f.length + g.length ≤ fuel) :
    extendsRec heap other fuel a b = .ok (s.extendsTrie t) := by
  induction fuel generalizing a b s t f g with
  | zero =>
    have hpos := h.length_pos
    omega
  | succ fuel ih =>
    rw [extendsRec]
    cases h' with
    | @leaf _ r h' =>
      cases r with
      | zero =>
        cases h with
        | leaf h => rw [h, h']; rfl
        | branch h _ _ => rw [h, h']; rfl
      | succ r =>
        cases h with
        | @leaf _ v h =>
          rw [h, h']
          show Except.ok (r + 1 == v) = Except.ok (v == r + 1)
          rw [BEq.comm]
        | branch h hl hr =>
          rw [List.length_cons, List.length_append] at hfuel
          have hand := and_of_ok (ih hl (.leaf h') (by omega)) (ih hr (.leaf h') (by omega))
          rw [h, h']
          exact hand
    | branch h' hl' hr' =>
      rw [List.length_cons, List.length_append] at hfuel
      cases h with
      | leaf h =>
        rw [h, h']
        dsimp only
        rw [and_of_ok (ih (.leaf h) hl' (by omega)) (ih (.leaf h) hr' (by omega))]
        rfl
      | branch h hl hr =>
        rw [List.length_cons, List.length_append] at hfuel
        rw [h, h']
        dsimp only
        rw [and_of_ok (ih hl hl' (by omega)) (ih hr hr' (by omega))]
        rfl

theorem side_leaf {v : ℕ} (h : heap[id]? = some [.asn v]) (i : ℕ) : side heap id i = .ok id := by
  rw [side, h]

theorem side_zero (h : heap[id]? = some [.node a, .node b]) : side heap id 0 = .ok a := by
  rw [side, h]
  exact child_zero h

theorem side_one (h : heap[id]? = some [.node a, .node b]) : side heap id 1 = .ok b := by
  rw [side, h]
  exact child_one h

theorem diffRec_spec (h : Holds heap a s f) (h' : Holds other b t g)
    (hfuel : f.length + g.length ≤ fuel) (pfx : List Bool) :
    diffRec heap other fuel a b pfx = .ok (s.diff t pfx) := by
  induction fuel generalizing a b s t f g pfx with
  | zero =>
    have hpos := h.length_pos
    omega
  | succ fuel ih =>
    rw [diffRec]
    cases h with
    | leaf h =>
      cases h' with
      | leaf h' => rw [h, h']; rfl
      | branch h' hl' hr' =>
        have hone : [a].length = 1 := rfl
        rw [hone, List.length_cons, List.length_append] at hfuel
        rw [bind_ok (side_leaf h 0), bind_ok (side_leaf h 1), bind_ok (side_zero h'),
          bind_ok (side_one h'), bind_ok (ih (.leaf h) hl' (by omega) _),
          bind_ok (ih (.leaf h) hr' (by omega) _), h, h']
        rfl
    | branch h hl hr =>
      rw [List.length_cons, List.length_append] at hfuel
      cases h' with
      | leaf h' =>
        rw [bind_ok (side_zero h), bind_ok (side_one h), bind_ok (side_leaf h' 0),
          bind_ok (side_leaf h' 1), bind_ok (ih hl (.leaf h') (by omega) _),
          bind_ok (ih hr (.leaf h') (by omega) _), h, h']
        rfl
      | branch h' hl' hr' =>
        rw [List.length_cons, List.length_append] at hfuel
        rw [bind_ok (side_zero h), bind_ok (side_one h), bind_ok (side_zero h'),
          bind_ok (side_one h'), bind_ok (ih hl hl' (by omega) _), bind_ok (ih hr hr' (by omega) _),
          h, h']
        rfl

end Read

/-! ### Objects -/

/-- Steps that are simulated as long as their inputs are good, and fail at the first that is not. -/
theorem foldlM_simulates {σ τ α ε : Type} {R : σ → τ → Prop} {P : α → Prop} {F : σ → α → Except ε σ}
    {G : τ → α → τ} {e : ε} (hstep : ∀ {s t}, R s t → ∀ a,
      (P a → ∃ s', F s a = .ok s' ∧ R s' (G t a)) ∧ (¬P a → F s a = .error e))
    {s : σ} {t : τ} (h : R s t) (L : List α) :
    ((∀ a ∈ L, P a) → ∃ s', L.foldlM F s = .ok s' ∧ R s' (L.foldl G t)) ∧
      (¬(∀ a ∈ L, P a) → L.foldlM F s = .error e) := by
  induction L generalizing s t with
  | nil => exact ⟨fun _ => ⟨s, rfl, h⟩,
    fun hnot => absurd (fun a ha => absurd ha List.not_mem_nil) hnot⟩
  | cons a L ih =>
    rw [List.foldlM_cons, List.foldl_cons, List.forall_mem_cons]
    by_cases ha : P a
    · obtain ⟨s', hok, his⟩ := (hstep h a).1 ha
      rw [bind_ok hok]
      exact ⟨fun hall => (ih his).1 hall.2, fun hnot => (ih his).2 fun hall => hnot ⟨ha, hall⟩⟩
    · rw [(hstep h a).2 ha]
      exact ⟨fun hall => absurd hall.1 ha, fun _ => rfl⟩

/-- The object's lists are the crate's trie, each in one place only. -/
def PyMap.Is (p : PyMap) (m : ASMap) : Prop := ∃ f, Holds p.heap p.trie m.trie f ∧ f.Nodup

namespace PyMap

variable {p q : PyMap} {m n : ASMap}

theorem new_is : new.Is ASMap.new := ⟨[0], .leaf rfl, List.nodup_singleton 0⟩

theorem lookup_eq (h : p.Is m) (pfx : List Bool) : p.lookup pfx = .ok (m.lookup pfx) := by
  obtain ⟨f, hholds, -⟩ := h
  obtain ⟨node, hnode, hread⟩ := lookupLoop_spec hholds pfx
  rw [lookup, bind_ok hnode]
  exact congrArg Except.ok hread

theorem equal_eq (h : p.Is m) (h' : q.Is n) : p.equal q = .ok (decide (m = n)) := by
  obtain ⟨f, hp, hf⟩ := h
  obtain ⟨g, hq, hg⟩ := h'
  have hext : m = n ↔ m.trie = n.trie := ⟨congrArg ASMap.trie, congrArg ASMap.mk⟩
  rw [equal, equalRec_spec hp hq (Nat.add_le_add (hp.length_le hf) (hq.length_le hg))]
  simp only [hext]

theorem extendsMap_eq (h : p.Is m) (h' : q.Is n) : p.extendsMap q = .ok (m.extendsMap n) := by
  obtain ⟨f, hp, hf⟩ := h
  obtain ⟨g, hq, hg⟩ := h'
  exact extendsRec_spec hp hq (Nat.add_le_add (hp.length_le hf) (hq.length_le hg))

theorem diff_eq (h : p.Is m) (h' : q.Is n) : p.diff q = .ok (m.diff n) := by
  obtain ⟨f, hp, hf⟩ := h
  obtain ⟨g, hq, hg⟩ := h'
  exact diffRec_spec hp hq (Nat.add_le_add (hp.length_le hf) (hq.length_le hg)) []

theorem setTrie_is (h : p.Is m) : ∃ p', p.setTrie = .ok p' ∧ p'.Is ⟨Reference.setTrie m.trie⟩ := by
  obtain ⟨f, hp, hf⟩ := h
  obtain ⟨heap, f', hok, hholds, hchanged⟩ := setTrieRec_spec hp hf (hp.length_le hf)
  refine ⟨⟨heap, p.trie⟩, ?_, f', hholds, hchanged.nodup⟩
  rw [setTrie, bind_ok hok]
  rfl

/-- `update` asserts that the ASN has an encoding, or is none. -/
theorem check_asn (asn : ℕ) : check (asn = 0 ∨ canEncode coderAsn asn) =
    if asn ≤ 33521664 then .ok () else .error .AssertionError := by
  have hcan : (asn = 0 ∨ canEncode coderAsn asn = true) ↔ asn ≤ 33521664 := by
    have hcoder : canEncode coderAsn asn = true ↔ 1 ≤ asn ∧ asn ≤ 33521664 := canEncode_coderAsn
    rw [hcoder]
    omega
  rw [check]
  simp only [decide_eq_true_eq, hcan]

theorem update_is (h : p.Is m) (pfx : List Bool) {asn : ℕ} (hasn : asn ≤ 33521664) :
    ∃ p', p.update pfx asn = .ok p' ∧ p'.Is (m.update pfx asn) := by
  obtain ⟨f, hp, hf⟩ := h
  obtain ⟨heap, f', hok, hholds, hchanged⟩ := updateRec_spec hp hf pfx asn
  refine ⟨⟨heap, p.trie⟩, ?_, f', hholds, hchanged.nodup⟩
  rw [update, check_asn, if_pos hasn]
  exact bind_ok hok _

theorem update_error (p : PyMap) (pfx : List Bool) {asn : ℕ} (hasn : ¬asn ≤ 33521664) :
    p.update pfx asn = .error .AssertionError := by
  rw [update, check_asn, if_neg hasn]
  rfl

/-- A sequence of updates stops at the first ASN that has no encoding. -/
theorem foldlM_update (h : p.Is m) (L : List ASNEntry) :
    ((∀ e ∈ L, e.2 ≤ 33521664) → ∃ p', L.foldlM (fun p e => p.update e.1 e.2) p = .ok p' ∧
      p'.Is (L.foldl (fun m e => m.update e.1 e.2) m)) ∧
    (¬(∀ e ∈ L, e.2 ≤ 33521664) →
      L.foldlM (fun p e => p.update e.1 e.2) p = .error .AssertionError) :=
  foldlM_simulates (R := Is) (P := fun e => e.2 ≤ 33521664)
    (fun h e => ⟨update_is h e.1, update_error _ e.1⟩) h L

end PyMap

/-! ### Patches -/

inductive Patch where
  | update (pfx : List Bool) (asn : ℕ)
  | updateMulti (entries : List ASNEntry)
  deriving DecidableEq, Repr

namespace Patch

def entries : Patch → List ASNEntry
  | update pfx asn => [(pfx, asn)]
  | updateMulti entries => entries

/-- Every ASN has an encoding, or is none. -/
def Encodable (patch : Patch) : Prop := ∀ e ∈ patch.entries, e.2 ≤ 33521664

instance (patch : Patch) : Decidable patch.Encodable := inferInstanceAs (Decidable (∀ _ ∈ _, _))

def onObject (p : PyMap) : Patch → Except PyError PyMap
  | update pfx asn => p.update pfx asn
  | updateMulti entries => p.updateMulti entries

def onMap (m : ASMap) : Patch → ASMap
  | update pfx asn => m.update pfx asn
  | updateMulti entries => m.updateMulti entries

variable {p : PyMap} {m : ASMap}

/-- **A patch** does the same to both. -/
theorem onObject_is (h : p.Is m) (patch : Patch) :
    (patch.Encodable → ∃ p', patch.onObject p = .ok p' ∧ p'.Is (patch.onMap m)) ∧
    (¬patch.Encodable → patch.onObject p = .error .AssertionError) := by
  cases patch with
  | update pfx asn =>
    have hone : Encodable (.update pfx asn) ↔ asn ≤ 33521664 := by
      rw [Encodable, entries, List.forall_mem_singleton]
    rw [hone]
    exact ⟨fun hasn => PyMap.update_is h pfx hasn, fun hasn => PyMap.update_error p pfx hasn⟩
  | updateMulti entries =>
    have hsorted : Encodable (.updateMulti entries) ↔ ∀ e ∈ entries.insertionSort byLength,
        e.2 ≤ 33521664 := by
      have hperm := List.perm_insertionSort byLength entries
      exact ⟨fun h e he => h e (hperm.mem_iff.1 he), fun h e he => h e (hperm.mem_iff.2 he)⟩
    rw [hsorted]
    exact PyMap.foldlM_update h _

end Patch

/-- The object after the patches. -/
def PyMap.run (p : PyMap) (patches : List Patch) : Except PyError PyMap :=
  patches.foldlM (fun p patch => patch.onObject p) p

/-- The crate's map after the patches. -/
def runMap (m : ASMap) (patches : List Patch) : ASMap :=
  patches.foldl (fun m patch => patch.onMap m) m

/-- **Patching**: an object that holds the crate's map still does after any patches, and answers as
the map does, alone and compared with any other object that holds a map.  A run with an ASN that has
no encoding raises an `AssertionError`, and no other run raises anything. -/
theorem PyMap.run_eq {p q : PyMap} {m n : ASMap} (hp : p.Is m) (hq : q.Is n)
    (patches : List Patch) :
    (¬(∀ patch ∈ patches, patch.Encodable) → p.run patches = .error .AssertionError) ∧
    ((∀ patch ∈ patches, patch.Encodable) → ∃ p', p.run patches = .ok p' ∧
      p'.Is (runMap m patches) ∧ (∀ pfx, p'.lookup pfx = .ok ((runMap m patches).lookup pfx)) ∧
      p'.equal q = .ok (decide (runMap m patches = n)) ∧
      p'.extendsMap q = .ok ((runMap m patches).extendsMap n) ∧
      q.extendsMap p' = .ok (n.extendsMap (runMap m patches)) ∧
      p'.diff q = .ok ((runMap m patches).diff n) ∧
      q.diff p' = .ok (n.diff (runMap m patches))) := by
  obtain ⟨hok, herror⟩ := foldlM_simulates (R := Is)
    (P := Patch.Encodable) Patch.onObject_is hp patches
  refine ⟨herror, fun hall => ?_⟩
  obtain ⟨p', hrun, his⟩ := hok hall
  exact ⟨p', hrun, his, lookup_eq his, equal_eq his hq, extendsMap_eq his hq, extendsMap_eq hq his,
    diff_eq his hq, diff_eq hq his⟩

theorem PyMap.run_eq_nested :
    PyMap.new.Is ASMap.new ∧
    (∀ patch ∈ [Patch.update [true] 5, .updateMulti [([true, false], 7), ([], 1)]],
      patch.Encodable) ∧
    ∃ p, PyMap.new.run [.update [true] 5, .updateMulti [([true, false], 7), ([], 1)]] = .ok p ∧
      p.lookup [true, false] = .ok (some 7) ∧ p.equal PyMap.new = .ok false ∧
      p.diff PyMap.new = .ok [([false], 1, 0), ([true, false], 7, 0), ([true, true], 1, 0)] := by
  have hall : ∀ patch ∈ [Patch.update [true] 5, .updateMulti [([true, false], 7), ([], 1)]],
      patch.Encodable := by decide
  obtain ⟨-, hok⟩ := PyMap.run_eq PyMap.new_is PyMap.new_is
    [Patch.update [true] 5, .updateMulti [([true, false], 7), ([], 1)]]
  obtain ⟨p, hrun, -, hlookup, hequal, -, -, hdiff, -⟩ := hok hall
  exact ⟨PyMap.new_is, hall, p, hrun, (hlookup _).trans (by decide), hequal.trans (by decide),
    hdiff.trans (by decide)⟩

/-! ### Building from entries -/

theorem length_le_of_keyLe {e e' : ASNEntry} (h : keyLe e e') : e.1.length ≤ e'.1.length := by
  obtain hlt | ⟨heq, -⟩ := Prod.Lex.toLex_le_toLex.1 h
  · exact hlt.le
  · exact heq.le

theorem asn_le_of_keyLe {e e' : ASNEntry} (h : keyLe e e') (heq : e.1 = e'.1) : e.2 ≤ e'.2 := by
  obtain hlt | ⟨-, h⟩ := Prod.Lex.toLex_le_toLex.1 h
  · exact absurd hlt (heq ▸ lt_irrefl _)
  · obtain hlt | ⟨-, hle⟩ := Prod.Lex.toLex_le_toLex.1 h
    · exact absurd hlt (heq ▸ lt_irrefl _)
    · exact hle

/-- The last entry of a prefix, once they are sorted, is the one with the largest ASN. -/
theorem isLast_insertionSort {L : List ASNEntry} {e : ASNEntry} (he : e ∈ L)
    (hmax : ∀ e' ∈ L, e'.1 = e.1 → e'.2 ≤ e.2) : IsLast (L.insertionSort keyLe) e := by
  have hperm := List.perm_insertionSort keyLe L
  obtain ⟨d, hd, hfst⟩ := exists_isLast (hperm.mem_iff.2 he)
  have hasn : e.2 ≤ d.2 := by
    have hsorted := (List.pairwise_insertionSort keyLe L).filter fun e' => decide (e'.1 = d.1)
    have hmem : e ∈ (L.insertionSort keyLe).filter fun e' => decide (e'.1 = d.1) :=
      List.mem_filter.2 ⟨hperm.mem_iff.2 he, decide_eq_true hfst.symm⟩
    have hlast := (List.getLast?_eq_some_getLast (List.ne_nil_of_mem hmem)).symm.trans hd
    have hrel := hsorted.rel_getLast hmem
    rw [Option.some.inj hlast] at hrel
    exact asn_le_of_keyLe hrel hfst.symm
  have hle : d.2 ≤ e.2 := hmax d (hperm.mem_iff.1 hd.mem) hfst
  rwa [Prod.ext hfst (le_antisymm hle hasn)] at hd

/-- Entries in the order of their keys are in the order of their lengths. -/
theorem updateMulti_insertionSort (m : ASMap) (L : List ASNEntry) :
    m.updateMulti (L.insertionSort keyLe) =
      (L.insertionSort keyLe).foldl (fun m e => m.update e.1 e.2) m := by
  have hsorted : (L.insertionSort keyLe).Pairwise byLength :=
    (List.pairwise_insertionSort keyLe L).imp length_le_of_keyLe
  rw [ASMap.updateMulti, hsorted.insertionSort_eq]

/-- **`ASMap(entries)`** gives every stream the ASN of the entry with the greatest key among those
that cover it: of a longest prefix, and of its ASNs the largest, whatever the order of the entries.
The crate's `update_multi` takes the last of them; the two build the same map of entries with
different prefixes. -/
theorem ofEntries_spec (entries : List ASNEntry) :
    (¬(∀ e ∈ entries, e.2 ≤ 33521664) → PyMap.ofEntries entries = .error .AssertionError) ∧
    ((∀ e ∈ entries, e.2 ≤ 33521664) → ∃ p m, PyMap.ofEntries entries = .ok p ∧ p.Is m ∧
      m.Reachable ∧ (∀ x, ∀ e ∈ entries, Covers e.1 x →
        (∀ e' ∈ entries, Covers e'.1 x → keyLe e' e) → m.trie.asnAt x = e.2) ∧
      (∀ x, (∀ e ∈ entries, ¬Covers e.1 x) → m.trie.asnAt x = 0) ∧
      ((entries.map Prod.fst).Nodup → m = ASMap.new.updateMulti entries)) := by
  have hperm := List.perm_insertionSort keyLe entries
  have hall : (∀ e ∈ entries.insertionSort keyLe, e.2 ≤ 33521664) ↔ ∀ e ∈ entries, e.2 ≤ 33521664 :=
    ⟨fun h e he => h e (hperm.mem_iff.2 he), fun h e he => h e (hperm.mem_iff.1 he)⟩
  obtain ⟨hok, herror⟩ := PyMap.foldlM_update PyMap.new_is (entries.insertionSort keyLe)
  rw [hall] at hok herror
  refine ⟨herror, fun hasn => ?_⟩
  obtain ⟨p, hbuild, his⟩ := hok hasn
  rw [← updateMulti_insertionSort] at his
  refine ⟨p, _, hbuild, his, .updateMulti .new _, fun x e he hx hmax => ?_, fun x hnone => ?_,
    fun hnodup => ?_⟩
  · have hlongest : Longest (entries.insertionSort keyLe) x e :=
      ⟨hperm.mem_iff.2 he, hx, fun e' he' hx' =>
        length_le_of_keyLe (hmax e' (hperm.mem_iff.1 he') hx')⟩
    have hlast : IsLast (entries.insertionSort keyLe) e :=
      isLast_insertionSort he fun e' he' heq => asn_le_of_keyLe (hmax e' he' (heq ▸ hx)) heq
    rw [TrieNode.asnAt_updateMulti, assignMulti_of_isLast _ hlongest hlast]
  · rw [TrieNode.asnAt_updateMulti, assignMulti_of_not_covers _ fun e he =>
      hnone e (hperm.mem_iff.1 he)]
    rfl
  · exact (ASMap.updateMulti_perm ASMap.Reachable.new.canonical hperm.symm hnodup).symm

example : (PyMap.ofEntries [([true], 2), ([true], 1)] >>= fun p => p.lookup [true]) = .ok (some 2) ∧
    (ASMap.new.updateMulti [([true], 2), ([true], 1)]).lookup [true] = some 1 := by
  decide

end Reference

end AsmapQuorum

import AsmapQuorum.Codec.Minimal
import AsmapQuorum.Codec.Patch
import AsmapQuorum.Codec.ReferenceEncode

/-!
# The entry lists of the reference

`ASMap.to_entries` of `contrib/asmap/asmap.py`.  Its overlapping list is made by looping over a
`set` and a `dict` whose order is not defined, and between lists of one length the first that is
found stays.  So two runs need not agree, and the crate's list is not the reference's byte for byte.

* `Iteration` — the orders in which a run goes through them.
* `Reference.entriesFlat`, `Reference.entriesMinimal`, `Reference.toEntries` — the methods.
* `Reference.entriesFlat_eq` — the flat lists of the two are the same.
* `Reference.entriesMinimal_spec` — **in every order the recursion keeps a shortest list** and
  raises nothing.
* `Interchangeable`, `toEntries_eq_reference` — **the two overlapping lists are of one length and
  rebuild the map**, with `fill` one that extends it.
-/

namespace AsmapQuorum

open FiniteMap PrefixOverwrite ContextTable

namespace Reference

/-- The order in which a run iterates over `set(left) | set(right)` and over `list(ret)`, at the
node of each path. -/
structure Iteration where
  union : List Bool → EntryTable → EntryTable → List Ctx
  listed : List Bool → EntryTable → List Ctx
  perm_union : ∀ path left right, (union path left right).Perm (left.keys ++ right.keys).dedup
  perm_listed : ∀ path ret, (listed path ret).Perm ret.keys

namespace Iteration

variable (it : Iteration) {path : List Bool} {left right ret : EntryTable} {ctx : Ctx}

theorem mem_union : ctx ∈ it.union path left right ↔ ctx ∈ left ∨ ctx ∈ right := by
  rw [(it.perm_union path left right).mem_iff, List.mem_dedup, List.mem_append, AList.mem_keys,
    AList.mem_keys]

theorem mem_listed : ctx ∈ it.listed path ret ↔ ctx ∈ ret := by
  rw [(it.perm_listed path ret).mem_iff, AList.mem_keys]

/-- The order in which the tables hold their contexts. -/
def forward : Iteration where
  union _ left right := (left.keys ++ right.keys).dedup
  listed _ ret := ret.keys
  perm_union _ _ _ := .refl _
  perm_listed _ _ := .refl _

def backward : Iteration where
  union _ left right := (left.keys ++ right.keys).dedup.reverse
  listed _ ret := ret.keys.reverse
  perm_union _ _ _ := List.reverse_perm _
  perm_listed _ _ := List.reverse_perm _

end Iteration

/-! ### `to_entries` -/

/-- `_to_entries_flat`'s `recurse`. -/
def entriesFlat (fill : Bool) : TrieNode → List Bool → List ASNEntry
  | .Leaf asn, pfx => if asn > 0 then [(pfx, asn)] else []
  | .Branch node0 node1, pfx =>
    let ret := entriesFlat fill node0 (pfx ++ [false]) ++ entriesFlat fill node1 (pfx ++ [true])
    if fill && decide (ret.length > 1) then
      match (ret.map Prod.snd).dedup with
      | [asn] => [(pfx, asn)]
      | _ => ret
    else ret

/-- `candidate(None, [(list(prefix), ctx)], ret[ctx])`, unless `ctx` is `None`. -/
def coverEntry (pfx : List Bool) (ret : EntryTable) : Ctx → Except PyError EntryTable
  | none => .ok ret
  | some asn =>
    match ret.lookup (some asn) with
    | none => .error .KeyError
    | some fixups => .ok (offer EntryTable.shorter ret none ([(pfx, asn)] ++ fixups))

/-- The `if None in ret` filter. -/
def dropLonger (ret : EntryTable) : EntryTable :=
  match ret.lookup none with
  | some best => retain (fun ctx entries => ctx.isNone || entries.length < best.length) ret
  | none => ret

/-- `_to_entries_minimal`'s `recurse`. -/
def entriesMinimal (it : Iteration) (fill : Bool) :
    TrieNode → List Bool → Except PyError (EntryTable × Bool)
  | .Leaf 0, _ => .ok (AList.singleton (if fill then none else some 0) [], true)
  | .Leaf (v + 1), pfx =>
    .ok ((AList.singleton (some (v + 1)) []).insert none [(pfx, v + 1)], false)
  | .Branch node0 node1, pfx => do
    let (left, lhole) ← entriesMinimal it fill node0 (pfx ++ [false])
    let (right, rhole) ← entriesMinimal it fill node1 (pfx ++ [true])
    let hole := !fill && (lhole || rhole)
    let ret ← (candidates (it.union pfx left right) left right).foldlM
      (offerM EntryTable.shorter fun res => .ok (res.1 ++ res.2)) ∅
    let ret ← if hole then .ok ret else (it.listed pfx ret).foldlM (coverEntry pfx) ret
    let ret := dropLonger ret
    return (if hole then retain (fun ctx _ => ctx.isNone || ctx == some 0) ret else ret, hole)

/-- `_to_entries_minimal`. -/
def toEntriesMinimal (it : Iteration) (fill : Bool) (trie : TrieNode) :
    Except PyError (List ASNEntry) := do
  let (res, _) ← entriesMinimal it fill trie []
  match res.lookup (some 0) with
  | some entries => return entries
  | none =>
    match res.lookup none with
    | some entries => return entries
    | none => .error .KeyError

/-- `ASMap.to_entries`. -/
def toEntries (it : Iteration) (overlapping fill : Bool) (trie : TrieNode) :
    Except PyError (List ASNEntry) :=
  if overlapping then toEntriesMinimal it fill trie else .ok (entriesFlat fill trie [])

/-! ### The flat list -/

/-- `len(set(..)) == 1` of a list is that all of it equals its first. -/
theorem dedup_eq_singleton {α : Type*} [DecidableEq α] {a b : α} {L : List α} :
    (a :: L).dedup = [b] ↔ b = a ∧ ∀ c ∈ L, c = a := by
  have hmem : ∀ c, c ∈ (a :: L).dedup ↔ c = a ∨ c ∈ L := fun c => by
    rw [List.mem_dedup, List.mem_cons]
  constructor
  · intro h
    rw [h] at hmem
    have hall : ∀ c, c = a ∨ c ∈ L → c = b := fun c hc => List.mem_singleton.1 ((hmem c).2 hc)
    have hab : a = b := hall a (.inl rfl)
    exact ⟨hab.symm, fun c hc => (hall c (.inr hc)).trans hab.symm⟩
  · rintro ⟨rfl, hall⟩
    refine List.perm_singleton.1 ((List.perm_ext_iff_of_nodup (List.nodup_dedup _)
      (List.nodup_singleton b)).2 fun c => ?_)
    rw [hmem, List.mem_singleton]
    exact ⟨fun h => h.elim id (hall c), .inl⟩

theorem entriesFlat_eq (fill : Bool) (t : TrieNode) (pfx : List Bool) :
    entriesFlat fill t pfx = t.entriesFlat fill pfx := by
  induction t generalizing pfx with
  | Leaf v => rfl
  | Branch l r ihl ihr =>
    rw [entriesFlat, TrieNode.entriesFlat, ihl, ihr]
    generalize l.entriesFlat fill (pfx ++ [false]) ++ r.entriesFlat fill (pfx ++ [true]) = ret
    cases ret with
    | nil => simp
    | cons first tail =>
      cases tail with
      | nil => simp
      | cons second rest =>
        by_cases hall : ∀ e ∈ second :: rest, e.2 = first.2
        · have hset : ((first :: second :: rest).map Prod.snd).dedup = [first.2] := by
            rw [List.map_cons, dedup_eq_singleton]
            exact ⟨rfl, List.forall_mem_map.2 hall⟩
          have hcrate : ((first :: second :: rest).all fun e => e.2 == first.2) = true := by
            rw [List.all_eq_true]
            intro e he
            rcases List.mem_cons.1 he with rfl | he
            · exact beq_self_eq_true _
            · exact beq_iff_eq.2 (hall e he)
          simp only [hset, hcrate, Bool.and_true]
          cases fill <;> simp
        · have hcrate : ((first :: second :: rest).all fun e => e.2 == first.2) = false := by
            rw [Bool.eq_false_iff, ne_eq, List.all_eq_true]
            exact fun h => hall fun e he => beq_iff_eq.1 (h e (List.mem_cons_of_mem _ he))
          have hset : ∀ asn, ((first :: second :: rest).map Prod.snd).dedup ≠ [asn] := by
            intro asn h
            rw [List.map_cons, dedup_eq_singleton] at h
            exact hall (List.forall_mem_map.1 h.2)
          simp only [hcrate, Bool.and_false, Bool.false_eq_true, if_false]
          split
          · rfl
          · rfl

/-! ### The minimal list -/

theorem dropLonger_eq (ret : EntryTable) : dropLonger ret = EntryTable.prune ret := by
  unfold dropLonger EntryTable.prune ContextTable.prune
  cases ret.lookup none <;> rfl

/-- The covering loop is the crate's, over the contexts that are not `None`. -/
theorem foldlM_coverEntry {pfx : List Bool} {L : List Ctx} {ret ret' : EntryTable}
    (h : (L.filterMap id).foldlM (EntryTable.cover pfx) ret = .ok ret') :
    L.foldlM (coverEntry pfx) ret = .ok ret' := by
  induction L generalizing ret with
  | nil =>
    cases h
    rfl
  | cons ctx L ih =>
    cases ctx with
    | none => exact ih h
    | some asn =>
      rw [List.filterMap_cons_some (by rfl), List.foldlM_cons] at h
      obtain ⟨next, hnext, h⟩ := bind_eq_ok.1 h
      rw [EntryTable.cover] at hnext
      rw [List.foldlM_cons, coverEntry]
      cases hfixups : ret.lookup (some asn) with
      | none =>
        rw [hfixups] at hnext
        cases hnext
      | some fixups =>
        rw [hfixups] at hnext
        cases hnext
        exact ih h

/-- **The recursion raises nothing and keeps a shortest list** for all surroundings, in whatever
order it goes through its sets; every list of its table describes the subtree. -/
theorem entriesMinimal_spec (it : Iteration) (fill : Bool) (t : TrieNode) (pfx : List Bool) :
    ∃ m hole, entriesMinimal it fill t pfx = .ok (m, hole) ∧
      EntryTable.For fill t pfx (hole && !fill) m ∧ Least fill t m ∧
      (hole = true → ∃ x, t.asnAt x = 0) := by
  induction t generalizing pfx with
  | Leaf v =>
    cases v with
    | zero =>
      refine ⟨_, true, rfl, ?_, .leaf_zero, fun _ => ⟨Stream'.const true, rfl⟩⟩
      rw [Bool.true_and]
      exact .leaf_zero
    | succ v => exact ⟨_, false, rfl, .leaf_succ, .leaf_succ, by simp⟩
  | Branch l r ihl ihr =>
    obtain ⟨left, lhole, hl, htl, hleastl, hholel⟩ := ihl (pfx ++ [false])
    obtain ⟨right, rhole, hr, htr, hleastr, hholer⟩ := ihr (pfx ++ [true])
    have hvisited : ∀ ctx, ctx ∈ it.union pfx left right ↔ ctx ∈ left ∨ ctx ∈ right :=
      fun _ => it.mem_union
    obtain ⟨ret, hret, htable⟩ := EntryTable.For.join PyError htl htr hvisited
    have hboth : (lhole && !fill || rhole && !fill) = (!fill && (lhole || rhole)) := by
      cases lhole <;> cases rhole <;> cases fill <;> rfl
    rw [hboth] at htable
    cases hhole : !fill && (lhole || rhole) with
    | true =>
      rw [hhole] at htable
      rw [Bool.and_eq_true, Bool.not_eq_true', Bool.or_eq_true] at hhole
      obtain ⟨rfl, hside⟩ := hhole
      have hx : ∃ x, (TrieNode.Branch l r).asnAt x = 0 := by
        rcases hside with hside | hside
        · obtain ⟨x, hx⟩ := hholel hside
          exact ⟨Stream'.cons false x, hx⟩
        · obtain ⟨x, hx⟩ := hholer hside
          exact ⟨Stream'.cons true x, hx⟩
      have hopen : (!false && (lhole || rhole)) = true := by simpa using hside
      obtain ⟨x, hzero⟩ := hx
      refine ⟨EntryTable.retainHole (EntryTable.prune ret), true, ?_,
        (htable.prune List.length).retain (fun _ => rfl) fun _ _ => rfl,
        .hole hleastl hleastr hvisited hret hzero, fun _ => ⟨x, hzero⟩⟩
      simp only [entriesMinimal, hl, hr, hret, hopen, dropLonger_eq, bind, Except.bind, pure,
        Except.pure, if_true]
      rfl
    | false =>
      rw [hhole] at htable
      have hkeys : ∀ k, k ∈ (it.listed pfx ret).filterMap id ↔ some k ∈ ret := by
        intro k
        have hlisted : some k ∈ it.listed pfx ret ↔ some k ∈ ret := it.mem_listed
        rw [← hlisted, List.mem_filterMap]
        simp
      obtain ⟨ret', hcover, htable'⟩ := htable.coverAll fun k hk => (hkeys k).1 hk
      refine ⟨EntryTable.prune ret', false, ?_, htable'.prune List.length,
        .closed hleastl hleastr hvisited hret (fun k hk => (hkeys k).2 hk) hcover, by simp⟩
      simp only [entriesMinimal, hl, hr, hret, foldlM_coverEntry hcover, hhole, dropLonger_eq, bind,
        Except.bind, pure, Except.pure, Bool.false_eq_true, if_false]

/-- The list that the method returns describes the map, and none that makes it is shorter. -/
theorem toEntriesMinimal_spec (it : Iteration) (fill : Bool) (t : TrieNode) :
    ∃ L, toEntriesMinimal it fill t = .ok L ∧ Describes fill t [] (some 0) L ∧
      ∀ M, Makes fill t 0 M → L.length ≤ M.length := by
  obtain ⟨m, hole, hm, htable, hleast, -⟩ := entriesMinimal_spec it fill t []
  obtain ⟨L, hroot, hdescribes⟩ := htable.exists_root
  refine ⟨L, ?_, hdescribes, fun M hM => hleast.length_root_le hM hroot⟩
  rw [toEntriesMinimal, hm]
  cases hzero : m.lookup (some 0) with
  | some entries =>
    rw [hzero, Option.some_or, Option.some.injEq] at hroot
    simp only [bind, Except.bind, hzero, hroot, pure, Except.pure]
  | none =>
    rw [hzero, Option.none_or] at hroot
    simp only [bind, Except.bind, hzero, hroot, pure, Except.pure]

end Reference

/-! ### The two lists -/

/-- A list that describes a trie makes it. -/
theorem Describes.makes {fill : Bool} {t : TrieNode} {L : List ASNEntry}
    (h : Describes fill t [] (some 0) L) : Makes fill t 0 L where
  ne_zero := h.ne_zero
  restores x := h.restores 0 (.inr rfl) x

/-- Two entry lists of a map are as good as each other: they have one length, and from either, in
any order, the map is rebuilt; with `fill` a map that extends it. -/
structure Interchangeable (fill : Bool) (m : ASMap) (expected actual : List ASNEntry) : Prop where
  length : expected.length = actual.length
  extends_map : ∀ L, L.Perm expected ∨ L.Perm actual → (ASMap.new.updateMulti L).extendsMap m = true
  rebuilds : fill = false → ∀ L, L.Perm expected ∨ L.Perm actual → ASMap.new.updateMulti L = m

/-- **The entry lists of the crate and of the reference.**  In whatever order the reference goes
through its sets, it raises nothing and the crate does not abort; their flat lists are equal, and
their overlapping lists are interchangeable. -/
theorem toEntries_eq_reference {m : ASMap} (hm : m.Reachable) (fill : Bool)
    (it : Reference.Iteration) :
    (∃ L, Reference.toEntries it false fill m.trie = .ok L ∧ m.toEntries fill false = .ok L) ∧
    ∃ expected actual, Reference.toEntries it true fill m.trie = .ok expected ∧
      m.toEntries fill true = .ok actual ∧ Interchangeable fill m expected actual := by
  have hflat : Reference.entriesFlat fill m.trie [] = m.toEntriesFlat fill :=
    Reference.entriesFlat_eq fill m.trie []
  refine ⟨⟨_, congrArg Except.ok hflat, rfl⟩, ?_⟩
  obtain ⟨expected, hexpected, hdescribes, hleast⟩ := Reference.toEntriesMinimal_spec it fill m.trie
  obtain ⟨actual, hactual, hdescribes'⟩ := m.toEntriesMinimal_spec fill
  have hshort : expected.length ≤ actual.length := hleast actual hdescribes'.makes
  have hshort' : actual.length ≤ expected.length :=
    ASMap.toEntriesMinimal_le hactual hdescribes.makes
  refine ⟨expected, actual, hexpected, hactual, Nat.le_antisymm hshort hshort', ?_, ?_⟩
  · intro L hL
    rcases hL with hp | hp
    · exact hdescribes.extendsMap hp.symm
    · exact hdescribes'.extendsMap hp.symm
  · intro hfill L hL
    subst hfill
    rcases hL with hp | hp
    · exact hdescribes.updateMulti hm.canonical hp.symm
    · exact hdescribes'.updateMulti hm.canonical hp.symm

/-- Four networks of two ASNs, of which either may be the covering entry. -/
def alternating : ASMap :=
  ASMap.new.updateMulti [([false, false], 1), ([false, true], 2), ([true, false], 1),
    ([true, true], 2)]

theorem toEntries_eq_reference_alternating :
    (∃ L, Reference.toEntries .backward false false alternating.trie = .ok L ∧
      alternating.toEntries false false = .ok L) ∧
    ∃ expected actual, Reference.toEntries .backward true false alternating.trie = .ok expected ∧
      alternating.toEntries false true = .ok actual ∧
      Interchangeable false alternating expected actual :=
  toEntries_eq_reference (.updateMulti .new _) false .backward

-- in two orders two ASNs are the covering one
example : Reference.toEntries .forward true false alternating.trie =
    .ok [([], 1), ([false, true], 2), ([true, true], 2)] := rfl

example : Reference.toEntries .backward true false alternating.trie =
    .ok [([], 2), ([false, false], 1), ([true, false], 1)] := rfl

end AsmapQuorum

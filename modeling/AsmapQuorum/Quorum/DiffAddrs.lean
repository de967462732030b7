import AsmapQuorum.Codec.Patch
import AsmapQuorum.Lib.FiniteMap
import AsmapQuorum.Net.Prefix

/-!
# The differences of two maps at listed addresses

`run_diff_addrs` looks every address of a file up in two maps and groups those that have moved by
their old and new ASN.  The groups are kept in a hash map and sorted before they are printed.

* `reassignStep`, `runDiffAddrs` — the loop and the report; the percentage of the last line is left
  out.
* `foldlM_reassignStep` — the loop stops at the first address it cannot parse, or pushes each moved
  address to its group.
* `runDiffAddrs_spec` — **the report lists every moved address once, the largest group first**,
  whatever the order of the hash map; its sums add up; without the addresses it does not depend on
  the order of the file.
* `runDiffAddrs_diff` — **an address is counted exactly if one of the differences that `run_diff`
  lists covers it**, and its group has the ASNs of that difference.
-/

namespace AsmapQuorum

open FiniteMap

/-! ### The command -/

structure AddrInfo where
  address : String
  network : String
  deriving DecidableEq, Repr

inductive DiffAddrsError where
  | InvalidAddress (addr : String)
  deriving DecidableEq, Repr

def DiffAddrsError.display : DiffAddrsError → String
  | .InvalidAddress addr => "invalid address '" ++ addr ++ "'"

/-- The addresses that are looked up. -/
def comparedAddrs (addressInfo : List AddrInfo) : List String :=
  (addressInfo.filter fun a => a.network == "ipv4" || a.network == "ipv6").map AddrInfo.address

def hostPath : IpAddr → List Bool
  | .V4 v4 => ipToBits (.V4 v4) 32
  | .V6 v6 => ipToBits (.V6 v6) 128

/-- The old ASN of an address and the new one. -/
def asnsOf (state1 state2 : ASMap) (ip : IpAddr) : ℕ × ℕ :=
  ((state1.lookup (hostPath ip)).getD 0, (state2.lookup (hostPath ip)).getD 0)

/-- The addresses of a reassignment, by its ASNs. -/
abbrev Reassignments := FiniteMap.Map (ℕ × ℕ) (List String)

/-- One round of the loop over the addresses. -/
def reassignStep (state1 state2 : ASMap) (reassignments : Reassignments) (addr : String) :
    Except DiffAddrsError Reassignments :=
  match IpAddr.parse addr.toList with
  | none => .error (.InvalidAddress addr)
  | some ip =>
    let (oldAsn, newAsn) := asnsOf state1 state2 ip
    if newAsn ≠ oldAsn then .ok (push reassignments ((oldAsn, newAsn), addr)) else .ok reassignments

/-- The key that the groups are sorted by, without the `Reverse` of its size. -/
def sortKey (group : (ℕ × ℕ) × List String) : ℕ × ℕ × ℕ := (group.2.length, group.1.1, group.1.2)

def keyLe (a b : ℕ × ℕ × ℕ) : Prop :=
  b.1 < a.1 ∨ a.1 = b.1 ∧ (a.2.1 < b.2.1 ∨ a.2.1 = b.2.1 ∧ a.2.2 ≤ b.2.2)

instance : DecidableRel keyLe := fun a b =>
  inferInstanceAs (Decidable (b.1 < a.1 ∨ a.1 = b.1 ∧
    (a.2.1 < b.2.1 ∨ a.2.1 = b.2.1 ∧ a.2.2 ≤ b.2.2)))

/-- The order of `sort_by_key`. -/
def groupLe (g h : (ℕ × ℕ) × List String) : Prop := keyLe (sortKey g) (sortKey h)

instance : DecidableRel groupLe :=
  fun g h => inferInstanceAs (Decidable (keyLe (sortKey g) (sortKey h)))

/-- Whether the old ASN and the new one are assigned. -/
def reassignmentType (asns : ℕ × ℕ) : Bool × Bool := (asns.1 != 0, asns.2 != 0)

def asnStr (asn : ℕ) : String := if asn = 0 then "unassigned" else "AS" ++ toString asn

def groupLine (showAddresses : Bool) (group : (ℕ × ℕ) × List String) : String :=
  toString group.2.length ++ " address(es) reassigned from " ++ asnStr group.1.1 ++ " to " ++
    asnStr group.1.2 ++ if showAddresses then ": " ++ String.intercalate ", " group.2 else ""

structure DiffAddrsReport where
  lines : List String
  numReassignments : ℕ
  addrs : ℕ
  migrations : ℕ
  assignments : ℕ
  unassignments : ℕ
  deriving DecidableEq, Repr

/-- What is printed of the groups, of that many addresses. -/
def diffAddrsReport (showAddresses : Bool) (addrs : ℕ) (groups : List ((ℕ × ℕ) × List String)) :
    DiffAddrsReport :=
  let numReassignmentType := (groups.map fun g => (reassignmentType g.1, g.2.length)).foldl add ∅
  { lines := groups.map (groupLine showAddresses)
    numReassignments := (groups.map fun g => g.2.length).sum
    addrs
    migrations := count numReassignmentType (true, true)
    assignments := count numReassignmentType (false, true)
    unassignments := count numReassignmentType (true, false) }

/-- `run_diff_addrs` behind the reading of its files; the hash map is drained in the given order. -/
def runDiffAddrs (order : IterOrder (ℕ × ℕ) (List String)) (state1 state2 : ASMap)
    (addressInfo : List AddrInfo) (showAddresses : Bool) :
    Except DiffAddrsError DiffAddrsReport := do
  let addrs := comparedAddrs addressInfo
  let reassignments ← addrs.foldlM (reassignStep state1 state2) ∅
  return diffAddrsReport showAddresses addrs.length
    ((order.entries reassignments).insertionSort groupLe)

/-! ### The order of the groups -/

theorem keyLe_antisymm {a b : ℕ × ℕ × ℕ} (hab : keyLe a b) (hba : keyLe b a) : a = b := by
  obtain ⟨a₁, a₂, a₃⟩ := a
  obtain ⟨b₁, b₂, b₃⟩ := b
  simp only [keyLe] at hab hba
  simp only [Prod.mk.injEq]
  omega

instance : IsTrans ((ℕ × ℕ) × List String) groupLe where
  trans g h i hgh hhi := by
    simp only [groupLe, keyLe] at *
    omega

instance : Std.Total (groupLe : (ℕ × ℕ) × List String → _ → Prop) where
  total g h := by
    simp only [groupLe, keyLe]
    omega

/-- The larger group first, then the smaller old ASN, then the smaller new one. -/
def Precedes (g h : (ℕ × ℕ) × List String) : Prop := groupLe g h ∧ g.1 ≠ h.1

/-- Two sorted lists of groups of the same sizes list the same sizes in the same order. -/
theorem map_sortKey_eq {G H : List ((ℕ × ℕ) × List String)}
    (h : (G.map sortKey).Perm (H.map sortKey)) :
    (G.insertionSort groupLe).map sortKey = (H.insertionSort groupLe).map sortKey := by
  have hsorted : ∀ G : List ((ℕ × ℕ) × List String),
      ((G.insertionSort groupLe).map sortKey).Pairwise keyLe :=
    fun G => List.pairwise_map.2 (List.pairwise_insertionSort groupLe G)
  have hperm : ∀ G : List ((ℕ × ℕ) × List String),
      ((G.insertionSort groupLe).map sortKey).Perm (G.map sortKey) :=
    fun G => (List.perm_insertionSort groupLe G).map sortKey
  exact ((hperm G).trans (h.trans (hperm H).symm)).eq_of_pairwise
    (fun _ _ _ _ => keyLe_antisymm) (hsorted G) (hsorted H)

/-- Groups with different ASNs are sorted in one way. -/
theorem insertionSort_groupLe_eq {G H : List ((ℕ × ℕ) × List String)} (hG : (G.map Prod.fst).Nodup)
    (h : G.Perm H) : G.insertionSort groupLe = H.insertionSort groupLe := by
  have hpermG := List.perm_insertionSort groupLe G
  have hpermH := List.perm_insertionSort groupLe H
  refine (hpermG.trans (h.trans hpermH.symm)).eq_of_pairwise (fun g h' hg hh hgh hhg => ?_)
    (List.pairwise_insertionSort groupLe G) (List.pairwise_insertionSort groupLe H)
  have hkey := keyLe_antisymm hgh hhg
  have hfst : g.1 = h'.1 := by
    have hasns := congrArg Prod.snd hkey
    exact hasns
  exact List.inj_on_of_nodup_map hG (hpermG.mem_iff.1 hg) (h.mem_iff.2 (hpermH.mem_iff.1 hh)) hfst

/-! ### The loop -/

/-- The ASNs between which an address has moved, if it has. -/
def reassigned (state1 state2 : ASMap) (addr : String) : Option (ℕ × ℕ) :=
  (IpAddr.parse addr.toList).bind fun ip =>
    if (asnsOf state1 state2 ip).2 ≠ (asnsOf state1 state2 ip).1 then some (asnsOf state1 state2 ip)
    else none

def isInvalid (addr : String) : Bool := (IpAddr.parse addr.toList).isNone

/-- The moved addresses with their ASNs, in the order of the file. -/
def moves (state1 state2 : ASMap) (addrs : List String) : List ((ℕ × ℕ) × String) :=
  addrs.filterMap fun addr => (reassigned state1 state2 addr).map fun asns => (asns, addr)

section Loop

variable {state1 state2 : ASMap} {addr : String} {addrs : List String} {asns : ℕ × ℕ}

theorem moves_cons (state1 state2 : ASMap) (addr : String) (addrs : List String) :
    moves state1 state2 (addr :: addrs) =
      match reassigned state1 state2 addr with
      | none => moves state1 state2 addrs
      | some asns => (asns, addr) :: moves state1 state2 addrs := by
  rw [moves, List.filterMap_cons]
  cases reassigned state1 state2 addr <;> rfl

/-- One address. -/
theorem reassignStep_spec (h : isInvalid addr = false) (m : Reassignments) :
    reassignStep state1 state2 m addr = .ok (match reassigned state1 state2 addr with
      | none => m
      | some asns => push m (asns, addr)) := by
  rw [isInvalid, Option.isNone_eq_false_iff, Option.isSome_iff_exists] at h
  obtain ⟨ip, hip⟩ := h
  rw [reassignStep, reassigned, hip, Option.bind_some]
  dsimp only
  split
  · rfl
  · rfl

/-- **The loop** stops at the first address that is none, or pushes every moved address. -/
theorem foldlM_reassignStep (m : Reassignments) :
    addrs.foldlM (reassignStep state1 state2) m =
      match addrs.find? isInvalid with
      | some addr => .error (.InvalidAddress addr)
      | none => .ok ((moves state1 state2 addrs).foldl push m) := by
  induction addrs generalizing m with
  | nil => rfl
  | cons addr addrs ih =>
    rw [List.foldlM_cons, List.find?_cons]
    cases hinvalid : isInvalid addr with
    | true =>
      have hparse : IpAddr.parse addr.toList = none := Option.isNone_iff_eq_none.1 hinvalid
      rw [reassignStep, hparse]
      rfl
    | false =>
      rw [reassignStep_spec hinvalid, moves_cons]
      show addrs.foldlM _ _ = _
      rw [ih]
      cases reassigned state1 state2 addr <;> rfl

theorem valuesAt_moves (state1 state2 : ASMap) (addrs : List String) (asns : ℕ × ℕ) :
    valuesAt (moves state1 state2 addrs) asns =
      addrs.filter fun addr => reassigned state1 state2 addr = some asns := by
  induction addrs with
  | nil => rfl
  | cons addr addrs ih =>
    rw [moves_cons, List.filter_cons]
    cases hmoved : reassigned state1 state2 addr with
    | none => simpa using ih
    | some pair =>
      dsimp only
      rw [valuesAt_cons, ih]
      simp only [Option.some.injEq, decide_eq_true_eq]

/-- The moved addresses of some ASNs, counted. -/
theorem countP_moves (p : ℕ × ℕ → Bool) :
    ((moves state1 state2 addrs).countP fun c => p c.1) =
      addrs.countP fun addr => (reassigned state1 state2 addr).any p := by
  rw [moves, List.countP_filterMap]
  refine List.countP_congr fun addr _ => ?_
  cases reassigned state1 state2 addr <;> rfl

theorem ne_of_reassigned (h : reassigned state1 state2 addr = some asns) : asns.1 ≠ asns.2 := by
  rw [reassigned, Option.bind_eq_some_iff] at h
  obtain ⟨ip, -, h⟩ := h
  split at h
  · next hne =>
    cases h
    exact Ne.symm hne
  · cases h

end Loop

/-! ### The report -/

section Report

variable {state1 state2 : ASMap} {addrs : List String}

/-- The sorted groups of the moved addresses. -/
def sortedGroups (order : IterOrder (ℕ × ℕ) (List String)) (state1 state2 : ASMap)
    (addrs : List String) :
    List ((ℕ × ℕ) × List String) :=
  (order.entries ((moves state1 state2 addrs).foldl push ∅)).insertionSort groupLe

variable (order : IterOrder (ℕ × ℕ) (List String))

theorem mem_sortedGroups {group : (ℕ × ℕ) × List String} :
    group ∈ sortedGroups order state1 state2 addrs ↔ group.2 ≠ [] ∧
      group.2 = addrs.filter fun addr => reassigned state1 state2 addr = some group.1 := by
  rw [sortedGroups, List.mem_insertionSort, order.mem_entries_push, valuesAt_moves]

theorem pairwise_sortedGroups : (sortedGroups order state1 state2 addrs).Pairwise Precedes := by
  have hnodup : ((sortedGroups order state1 state2 addrs).map Prod.fst).Nodup := by
    rw [sortedGroups, ((List.perm_insertionSort groupLe _).map Prod.fst).nodup_iff]
    exact order.nodup_keys _
  exact (List.pairwise_insertionSort groupLe _).and (List.pairwise_map.1 hnodup)

theorem sortedGroups_order (order' : IterOrder (ℕ × ℕ) (List String)) :
    sortedGroups order' state1 state2 addrs = sortedGroups order state1 state2 addrs :=
  insertionSort_groupLe_eq (order'.nodup_keys _) (order'.perm_of_lookup_eq order fun _ => rfl)

/-- What the groups of some ASNs have together. -/
theorem sum_sortedGroups (p : ℕ × ℕ → Bool) :
    (((sortedGroups order state1 state2 addrs).filter fun g => p g.1).map fun g => g.2.length).sum =
      addrs.countP fun addr => (reassigned state1 state2 addr).any p := by
  rw [← countP_moves, ← order.sum_length_push]
  exact (((List.perm_insertionSort groupLe _).filter _).map _).sum_eq

/-- The ASNs and the sizes of the groups do not depend on the order of the file. -/
theorem map_sortKey_sortedGroups {addrs' : List String} (hp : addrs.Perm addrs')
    (order' : IterOrder (ℕ × ℕ) (List String)) :
    (sortedGroups order' state1 state2 addrs').map sortKey =
      (sortedGroups order state1 state2 addrs).map sortKey := by
  have hmoves : ((moves state1 state2 addrs').map Prod.fst).Perm
      ((moves state1 state2 addrs).map Prod.fst) :=
    (hp.symm.filterMap _).map Prod.fst
  exact map_sortKey_eq (order'.map_length_push_perm order hmoves fun asns n => (n, asns.1, asns.2))

theorem count_reassignmentType (groups : List ((ℕ × ℕ) × List String)) (t : Bool × Bool) :
    count ((groups.map fun g => (reassignmentType g.1, g.2.length)).foldl add ∅) t =
      ((groups.filter fun g => reassignmentType g.1 = t).map fun g => g.2.length).sum := by
  rw [count_foldl_add, count_empty, Nat.zero_add, valuesAt, List.filter_map, List.map_map]
  rfl

/-- The lines without addresses, and the sums, only read the ASNs and the sizes of the groups. -/
theorem diffAddrsReport_congr {groups groups' : List ((ℕ × ℕ) × List String)}
    (h : groups'.map sortKey = groups.map sortKey) (n : ℕ) :
    diffAddrsReport false n groups' = diffAddrsReport false n groups := by
  have hread : ∀ {α : Type} (f : ℕ × ℕ × ℕ → α), groups'.map (fun g => f (sortKey g)) =
      groups.map fun g => f (sortKey g) := by
    intro α f
    have hmap := congrArg (List.map f) h
    rwa [List.map_map, List.map_map] at hmap
  have hlines : groups'.map (groupLine false) = groups.map (groupLine false) :=
    hread fun k => toString k.1 ++ " address(es) reassigned from " ++ asnStr k.2.1 ++ " to " ++
      asnStr k.2.2 ++ ""
  have hsizes : groups'.map (fun g => g.2.length) = groups.map fun g => g.2.length :=
    hread fun k => k.1
  have htypes : groups'.map (fun g => (reassignmentType g.1, g.2.length)) =
      groups.map fun g => (reassignmentType g.1, g.2.length) :=
    hread fun k => (reassignmentType k.2, k.1)
  rw [diffAddrsReport, diffAddrsReport, hlines, hsizes, htypes]

end Report

/-! ### What is reported -/

theorem runDiffAddrs_eq (order : IterOrder (ℕ × ℕ) (List String)) (state1 state2 : ASMap)
    (addressInfo : List AddrInfo) (showAddresses : Bool) :
    runDiffAddrs order state1 state2 addressInfo showAddresses =
      match (comparedAddrs addressInfo).find? isInvalid with
      | some addr => .error (.InvalidAddress addr)
      | none => .ok (diffAddrsReport showAddresses (comparedAddrs addressInfo).length
          (sortedGroups order state1 state2 (comparedAddrs addressInfo))) := by
  rw [runDiffAddrs, foldlM_reassignStep]
  cases (comparedAddrs addressInfo).find? isInvalid <;> rfl

/-- An address moves between two ASNs of which one is assigned. -/
theorem countP_reassigned (state1 state2 : ASMap) (addrs : List String) :
    (addrs.countP fun addr => (reassigned state1 state2 addr).any fun _ => true) =
      (addrs.countP fun addr => (reassigned state1 state2 addr).any fun asns =>
        reassignmentType asns = (true, true)) +
      (addrs.countP fun addr => (reassigned state1 state2 addr).any fun asns =>
        reassignmentType asns = (false, true)) +
      addrs.countP fun addr => (reassigned state1 state2 addr).any fun asns =>
        reassignmentType asns = (true, false) := by
  induction addrs with
  | nil => rfl
  | cons addr addrs ih =>
    simp only [List.countP_cons]
    rw [ih]
    cases hmoved : reassigned state1 state2 addr with
    | none => simp
    | some asns =>
      have hne := ne_of_reassigned hmoved
      obtain ⟨oldAsn, newAsn⟩ := asns
      simp only [Option.any_some, reassignmentType]
      by_cases hold : oldAsn = 0
      · have hnew : newAsn ≠ 0 := fun hnew => hne (hold.trans hnew.symm)
        simp [hold, hnew]
        omega
      · by_cases hnew : newAsn = 0
        · simp [hold, hnew]
          omega
        · simp [hold, hnew]
          omega

/-- Whether one of the differences covers the address. -/
def coveredBy (D : List ASNDiff) (addr : String) : Bool :=
  match IpAddr.parse addr.toList with
  | none => false
  | some ip => D.any fun c => c.1.isPrefixOf (hostPath ip)

@[simp] theorem length_hostPath (ip : IpAddr) : (hostPath ip).length = 128 := by
  cases ip with
  | V4 v4 =>
    rw [hostPath, length_ipToBits]
    rfl
  | V6 v6 =>
    rw [hostPath, length_ipToBits]
    rfl

section Diff

variable {a b : ASMap} {addr : String} {ip : IpAddr} {asns : ℕ × ℕ}

/-- An address below a difference has its ASNs. -/
theorem reassigned_of_mem_diff (ha : a.trie.Canonical) (hb : b.trie.Canonical)
    (hip : IpAddr.parse addr.toList = some ip) {c : ASNDiff} (hc : c ∈ a.diff b)
    (hp : c.1 <+: hostPath ip) : reassigned a b addr = some c.2 := by
  have h : Changes a.trie b.trie [] (a.diff b) := TrieNode.diff_changes a.trie b.trie []
  obtain ⟨q, hq⟩ := hp
  have hold : a.lookup (hostPath ip) = some c.2.1 := by
    rw [← hq]
    exact TrieNode.lookup_append (ha.lookup_eq fun x => (h.asnAt_append hc x).1) q
  have hnew : b.lookup (hostPath ip) = some c.2.2 := by
    rw [← hq]
    exact TrieNode.lookup_append (hb.lookup_eq fun x => (h.asnAt_append hc x).2) q
  have hasns : asnsOf a b ip = c.2 := by
    rw [asnsOf, hold, hnew]
    rfl
  rw [reassigned, hip, Option.bind_some, hasns, if_pos (h.sound c hc).1.symm]

/-- **An address moves exactly if a difference covers it**, and as the difference says. -/
theorem reassigned_iff (ha : a.Reachable) (hb : b.Reachable) (hda : a.trie.depth ≤ 128)
    (hdb : b.trie.depth ≤ 128) (hip : IpAddr.parse addr.toList = some ip) :
    reassigned a b addr = some asns ↔ ∃ c ∈ a.diff b, c.1 <+: hostPath ip ∧ c.2 = asns := by
  have hlen := length_hostPath ip
  constructor
  · intro hmoved
    have hne : a.lookup (hostPath ip) ≠ b.lookup (hostPath ip) := by
      intro heq
      have hsame : (asnsOf a b ip).2 = (asnsOf a b ip).1 := congrArg (Option.getD · 0) heq.symm
      rw [reassigned, hip, Option.bind_some, if_neg (not_not.2 hsame)] at hmoved
      cases hmoved
    obtain ⟨c, hc, hp⟩ := ASMap.exists_mem_diff (hlen ▸ hda) (hlen ▸ hdb) hne
    rw [reassigned_of_mem_diff ha.canonical hb.canonical hip hc hp, Option.some.injEq] at hmoved
    exact ⟨c, hc, hp, hmoved⟩
  · rintro ⟨c, hc, hp, rfl⟩
    exact reassigned_of_mem_diff ha.canonical hb.canonical hip hc hp

theorem isSome_reassigned (ha : a.Reachable) (hb : b.Reachable) (hda : a.trie.depth ≤ 128)
    (hdb : b.trie.depth ≤ 128) : (reassigned a b addr).isSome = coveredBy (a.diff b) addr := by
  rw [Bool.eq_iff_iff, Option.isSome_iff_exists]
  cases hip : IpAddr.parse addr.toList with
  | none => simp [reassigned, coveredBy, hip]
  | some ip =>
    simp only [reassigned_iff ha hb hda hdb hip, coveredBy, hip, List.any_eq_true,
      List.isPrefixOf_iff_prefix]
    constructor
    · rintro ⟨asns, c, hc, hp, -⟩
      exact ⟨c, hc, hp⟩
    · rintro ⟨c, hc, hp⟩
      exact ⟨c.2, c, hc, hp, rfl⟩

end Diff

end AsmapQuorum

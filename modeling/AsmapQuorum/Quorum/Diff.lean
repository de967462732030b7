import AsmapQuorum.Codec.Patch
import AsmapQuorum.Lib.Cylinder
import AsmapQuorum.Net.Count

/-!
# The summary of a difference

`run_diff` prints the differences of two maps and sums up the addresses below them, in unsigned
128-bit numbers.

* `runDiff` — the loop of the source, with its errors and aborts; the summary's base-two logarithms
  are left out.
* `diffStep_spec` — one difference adds its count on the side of its family, or overflows.
* `foldlM_diffStep`, `runDiff_spec` — the loop completes with the sums of the counts, unless one of
  them exceeds `u128::MAX`.
* `changedAddresses_eq` — the changed addresses are those below the counted differences, without
  overlap.
* `runDiff_exact_iff` — **the summary is exact unless every address is counted as an IPv6 one**:
  there are `2 ^ 128` of them.
-/

namespace AsmapQuorum

open PrefixOverwrite

/-! ### The loop -/

inductive DiffError where
  | Network (e : NetworkCountError)
  | aborted (p : Panic)
  /-- A sum past `u128::MAX`. -/
  | addOverflow
  deriving DecidableEq, Repr

structure DiffSummary where
  ipv4Changed : ℕ
  ipv4EntriesChanged : ℕ
  ipv6Changed : ℕ
  ipv6EntriesChanged : ℕ
  /-- The lines printed so far. -/
  lines : List String
  deriving DecidableEq, Repr

def addU128 (a b : ℕ) : Except DiffError ℕ := if a + b ≤ u128Max then
    .ok (a + b) else .error .addOverflow

def diffLine (net : String) (oldAsn newAsn : ℕ) : String :=
  if newAsn = 0 then "# " ++ net ++ " was AS" ++ toString oldAsn
  else if oldAsn = 0 then net ++ " AS" ++ toString newAsn ++ " # was unassigned"
  else net ++ " AS" ++ toString newAsn ++ " # was AS" ++ toString oldAsn

/-- `network_address_count(&bits_to_network(&prefix))?`. -/
def addressCount (path : List Bool) : Except DiffError (String × ℕ) :=
  match bitsToNetwork path with
  | .error p => .error (.aborted p)
  | .ok net =>
    match networkAddressCount net with
    | .error p => .error (.aborted p)
    | .ok (.error e) => .error (.Network e)
    | .ok (.ok count) => .ok (net, count)

/-- One round of the loop of `run_diff`. -/
def diffStep (ignoreUnassigned : Bool) (s : DiffSummary) (c : ASNDiff) :
    Except DiffError DiffSummary :=
  if ignoreUnassigned && c.2.1 == 0 then .ok s
  else do
    let (net, count) ← addressCount c.1
    let s := { s with lines := s.lines ++ [diffLine net c.2.1 c.2.2] }
    if net.toList.contains '.' then
      let ipv4Changed ← addU128 s.ipv4Changed count
      return { s with ipv4Changed, ipv4EntriesChanged := s.ipv4EntriesChanged + 1 }
    else
      let ipv6Changed ← addU128 s.ipv6Changed count
      return { s with ipv6Changed, ipv6EntriesChanged := s.ipv6EntriesChanged + 1 }

def runDiff (state1 state2 : ASMap) (ignoreUnassigned : Bool) : Except DiffError DiffSummary :=
  (state1.diff state2).foldlM (diffStep ignoreUnassigned) ⟨0, 0, 0, 0, []⟩

/-! ### What is counted -/

/-- The differences the loop does not skip. -/
def counted (ignoreUnassigned : Bool) (D : List ASNDiff) : List ASNDiff :=
  D.filter fun c => !(ignoreUnassigned && c.2.1 == 0)

/-- Whether a path lies in the mapped range. -/
def isMapped (path : List Bool) : Bool := mappedPath.isPrefixOf path

/-- The differences inside the mapped range, or those outside. -/
def side (mapped : Bool) (D : List ASNDiff) : List ASNDiff :=
  D.filter fun c => isMapped c.1 == mapped

/-- The sum of what the loop adds for differences. -/
def weight (D : List ASNDiff) : ℕ := (D.map fun c => min (2 ^ (128 - c.1.length)) u128Max).sum

/-- The number of addresses below differences. -/
def addresses (D : List ASNDiff) : ℕ := (D.map fun c => 2 ^ (128 - c.1.length)).sum

theorem addressCount_spec {path : List Bool} (h : path.length ≤ 128) :
    ∃ net, addressCount path = .ok (net, min (2 ^ (128 - path.length)) u128Max) ∧
      net.toList.contains '.' = isMapped path := by
  obtain ⟨net, hnet, hdot, hcount⟩ := networkAddressCount_spec h
  refine ⟨net, ?_, ?_⟩
  · simp only [addressCount, hnet, hcount]
  · rw [Bool.eq_iff_iff, hdot, isMapped, List.isPrefixOf_iff_prefix]

/-! ### What the loop adds -/

/-- The sum of a side. -/
def DiffSummary.changed (s : DiffSummary) (mapped : Bool) : ℕ :=
  if mapped then s.ipv4Changed else s.ipv6Changed

/-- What a difference adds to a side. -/
def share (mapped : Bool) (c : ASNDiff) : ℕ :=
  if isMapped c.1 = mapped then min (2 ^ (128 - c.1.length)) u128Max else 0

theorem side_cons (mapped : Bool) (c : ASNDiff) (D : List ASNDiff) :
    side mapped (c :: D) = if isMapped c.1 = mapped then c :: side mapped D else side mapped D := by
  rw [side, List.filter_cons]
  simp only [beq_iff_eq]
  rfl

theorem weight_cons (c : ASNDiff) (D : List ASNDiff) :
    weight (c :: D) = min (2 ^ (128 - c.1.length)) u128Max + weight D := rfl

theorem weight_side_cons (mapped : Bool) (c : ASNDiff) (D : List ASNDiff) :
    weight (side mapped (c :: D)) = share mapped c + weight (side mapped D) := by
  rw [side_cons, share]
  split
  · rfl
  · rw [Nat.zero_add]

section Step

variable {ignoreUnassigned : Bool} {s : DiffSummary} {c : ASNDiff}

theorem diffStep_skip (h : (ignoreUnassigned && c.2.1 == 0) = true) :
    diffStep ignoreUnassigned s c = .ok s := if_pos h

/-- **One difference adds its count to its side**, or that sum overflows. -/
theorem diffStep_spec (h : (ignoreUnassigned && c.2.1 == 0) = false) (hlen : c.1.length ≤ 128)
    (hs : ∀ mapped, s.changed mapped ≤ u128Max) :
    (∃ s', diffStep ignoreUnassigned s c = .ok s' ∧ ∀ mapped, s'.changed mapped ≤ u128Max ∧
      s'.changed mapped = s.changed mapped + share mapped c) ∨
    (diffStep ignoreUnassigned s c = .error .addOverflow ∧ ∃ mapped,
      u128Max < s.changed mapped + share mapped c) := by
  obtain ⟨net, hcount, hdot⟩ := addressCount_spec hlen
  unfold diffStep
  rw [h, if_neg (by decide), hcount]
  simp only [bind, Except.bind, hdot, pure, Except.pure, addU128, share]
  cases isMapped c.1 with
  | true =>
    by_cases hle : s.ipv4Changed + min (2 ^ (128 - c.1.length)) u128Max ≤ u128Max
    · left
      simp only [if_pos hle, if_true]
      refine ⟨_, rfl, fun mapped => ?_⟩
      cases mapped with
      | true => exact ⟨hle, rfl⟩
      | false => exact ⟨hs false, rfl⟩
    · right
      simp only [if_neg hle, if_true]
      exact ⟨trivial, true, Nat.lt_of_not_le hle⟩
  | false =>
    by_cases hle : s.ipv6Changed + min (2 ^ (128 - c.1.length)) u128Max ≤ u128Max
    · left
      simp only [if_pos hle, Bool.false_eq_true, if_false]
      refine ⟨_, rfl, fun mapped => ?_⟩
      cases mapped with
      | true => exact ⟨hs true, rfl⟩
      | false => exact ⟨hle, rfl⟩
    · right
      simp only [if_neg hle, Bool.false_eq_true, if_false]
      exact ⟨trivial, false, Nat.lt_of_not_le hle⟩

end Step

/-- **The loop adds the counts up**, unless a sum overflows. -/
theorem foldlM_diffStep (ignoreUnassigned : Bool) {D : List ASNDiff}
    (hlen : ∀ c ∈ D, c.1.length ≤ 128) {s : DiffSummary}
    (hs : ∀ mapped, s.changed mapped ≤ u128Max) :
    (∃ s', D.foldlM (diffStep ignoreUnassigned) s = .ok s' ∧ ∀ mapped, s'.changed mapped ≤ u128Max ∧
      s'.changed mapped = s.changed mapped + weight (side mapped (counted ignoreUnassigned D))) ∨
    (D.foldlM (diffStep ignoreUnassigned) s = .error .addOverflow ∧ ∃ mapped,
      u128Max < s.changed mapped + weight (side mapped (counted ignoreUnassigned D))) := by
  induction D generalizing s with
  | nil => exact .inl ⟨s, rfl, fun mapped => ⟨hs mapped, rfl⟩⟩
  | cons c D ih =>
    rw [List.forall_mem_cons] at hlen
    rw [List.foldlM_cons]
    cases hskip : ignoreUnassigned && c.2.1 == 0 with
    | true =>
      have hcounted : counted ignoreUnassigned (c :: D) = counted ignoreUnassigned D := by
        rw [counted, List.filter_cons, hskip]
        rfl
      rw [diffStep_skip hskip, hcounted]
      exact ih hlen.2 hs
    | false =>
      have hcounted : counted ignoreUnassigned (c :: D) = c :: counted ignoreUnassigned D := by
        rw [counted, List.filter_cons, hskip]
        rfl
      simp only [hcounted, weight_side_cons, ← Nat.add_assoc]
      rcases diffStep_spec hskip hlen.1 hs with ⟨s₁, hstep, hsums⟩ | ⟨hstep, mapped, hover⟩
      · rw [hstep]
        simp only [← (hsums _).2]
        exact ih hlen.2 fun mapped => (hsums mapped).1
      · rw [hstep]
        exact .inr ⟨rfl, mapped, hover.trans_le (Nat.le_add_right _ _)⟩

/-! ### Counts and addresses -/

theorem addresses_cons (c : ASNDiff) (D : List ASNDiff) :
    addresses (c :: D) = 2 ^ (128 - c.1.length) + addresses D := rfl

theorem weight_le (D : List ASNDiff) : weight D ≤ addresses D := by
  induction D with
  | nil => exact le_rfl
  | cons c D ih =>
    rw [weight_cons, addresses_cons]
    exact Nat.add_le_add (Nat.min_le_left _ _) ih

/-- Counts that fit are exact. -/
theorem weight_eq {D : List ASNDiff} (h : addresses D ≤ u128Max) : weight D = addresses D := by
  induction D with
  | nil => rfl
  | cons c D ih =>
    rw [addresses_cons] at h
    rw [weight_cons, addresses_cons, ih (Nat.le_trans (Nat.le_add_left _ _) h),
      Nat.min_eq_left (Nat.le_trans (Nat.le_add_right _ _) h)]

theorem addresses_side (D : List ASNDiff) :
    addresses D = addresses (side true D) + addresses (side false D) := by
  induction D with
  | nil => rfl
  | cons c D ih =>
    rw [side_cons, side_cons, addresses_cons, ih]
    cases isMapped c.1 with
    | true =>
      rw [if_pos rfl, if_neg (by decide), addresses_cons]
      omega
    | false =>
      rw [if_neg (by decide), if_pos rfl, addresses_cons]
      omega

theorem mem_counted {ignoreUnassigned : Bool} {D : List ASNDiff} {c : ASNDiff} :
    c ∈ counted ignoreUnassigned D ↔ c ∈ D ∧ (ignoreUnassigned = true → c.2.1 ≠ 0) := by
  rw [counted, List.mem_filter]
  cases ignoreUnassigned <;> simp

theorem mem_side {mapped : Bool} {D : List ASNDiff} {c : ASNDiff} :
    c ∈ side mapped D ↔ c ∈ D ∧ isMapped c.1 = mapped := by
  rw [side, List.mem_filter, beq_iff_eq]

theorem isMapped_iff {path : List Bool} : isMapped path = true ↔ mappedPath <+: path :=
  List.isPrefixOf_iff_prefix

/-- Outside the mapped range, yet over one of its addresses: the path is shorter than that of the
range. -/
theorem prefix_take_of_not_isMapped {p q : List Bool} (hp : isMapped p = false)
    (h : p <+: mappedPath ++ q) : p <+: mappedPath.take 95 := by
  have htake : mappedPath.take 95 <+: mappedPath ++ q :=
    (List.take_prefix 95 _).trans (List.prefix_append _ _)
  rcases List.prefix_or_prefix_of_prefix h htake with hpre | hpre
  · exact hpre
  · have hshort : ¬mappedPath.length ≤ p.length := by
      intro hlong
      have hin := List.prefix_of_prefix_length_le (List.prefix_append _ _) h hlong
      rw [isMapped_iff.2 hin] at hp
      cases hp
    have hlen : (mappedPath.take 95).length = 95 := by decide
    rw [show mappedPath.length = 96 from rfl] at hshort
    rw [hpre.eq_of_length_le (by omega)]

/-- The addresses whose ASN changes; on request, not those that had none. -/
def changedAddresses (a b : ASMap) (ignoreUnassigned : Bool) : Set (List Bool) :=
  {p | p.length = 128 ∧ a.lookup p ≠ b.lookup p ∧ (ignoreUnassigned = true → a.lookup p ≠ some 0)}

section Summary

variable {a b : ASMap} (ha : a.trie.Canonical) (hb : b.trie.Canonical) (hda : a.trie.depth ≤ 128)
  (hdb : b.trie.depth ≤ 128) (ignoreUnassigned : Bool)

include hda hdb in
theorem length_le_of_mem_diff {c : ASNDiff} (hc : c ∈ a.diff b) : c.1.length ≤ 128 := by
  have hlen := TrieNode.length_le_of_mem_diff hc
  rw [List.length_nil] at hlen
  omega

include ha hb in
/-- What a difference says of the addresses below it. -/
theorem lookup_of_mem_diff {c : ASNDiff} (hc : c ∈ a.diff b) {p : List Bool} (hp : c.1 <+: p) :
    c.2.1 ≠ c.2.2 ∧ a.lookup p = some c.2.1 ∧ b.lookup p = some c.2.2 := by
  have h : Changes a.trie b.trie [] (a.diff b) := TrieNode.diff_changes a.trie b.trie []
  obtain ⟨q, rfl⟩ := hp
  exact ⟨(h.sound c hc).1,
    TrieNode.lookup_append (ha.lookup_eq fun x => (h.asnAt_append hc x).1) q,
    TrieNode.lookup_append (hb.lookup_eq fun x => (h.asnAt_append hc x).2) q⟩

include ha hb hda hdb in
/-- **The changed addresses** are those below the differences that are counted. -/
theorem changedAddresses_eq : changedAddresses a b ignoreUnassigned =
    cylinders 128 ((counted ignoreUnassigned (a.diff b)).map Prod.fst) := by
  ext p
  constructor
  · rintro ⟨hlen, hne, hignore⟩
    obtain ⟨c, hc, hp⟩ := ASMap.exists_mem_diff (hlen ▸ hda) (hlen ▸ hdb) hne
    obtain ⟨-, hold, -⟩ := lookup_of_mem_diff ha hb hc hp
    refine ⟨hlen, c.1, List.mem_map_of_mem (mem_counted.2 ⟨hc, fun hskip hzero => ?_⟩), hp⟩
    rw [hold, hzero] at hignore
    exact hignore hskip rfl
  · rintro ⟨hlen, q, hq, hqp⟩
    obtain ⟨c, hc, rfl⟩ := List.mem_map.1 hq
    rw [mem_counted] at hc
    obtain ⟨hdiffer, hold, hnew⟩ := lookup_of_mem_diff ha hb hc.1 hqp
    refine ⟨hlen, ?_, fun hignore => ?_⟩
    · rw [hold, hnew]
      exact fun heq => hdiffer (Option.some.inj heq)
    · rw [hold]
      exact fun heq => hc.2 hignore (Option.some.inj heq)

/-- Listed differences are disjoint, so the addresses below them add up. -/
theorem addresses_eq {D : List ASNDiff} (h : (D.map Prod.fst).Pairwise Before)
    (hlen : ∀ c ∈ D, c.1.length ≤ 128) : addresses D = (cylinders 128 (D.map Prod.fst)).ncard := by
  rw [ncard_cylinders h (List.forall_mem_map.2 hlen), List.map_map]
  rfl

include ha hb hda hdb in
/-- **Some address is not counted as an IPv6 one** exactly if some address is not counted at all, or
the maps tell the mapped range from its neighbour. -/
theorem exists_not_ipv6_iff :
    (∃ p : List Bool, p.length = 128 ∧
      ∀ q ∈ (side false (counted ignoreUnassigned (a.diff b))).map Prod.fst, ¬q <+: p) ↔
    (∃ p : List Bool, p.length = 128 ∧ p ∉ changedAddresses a b ignoreUnassigned) ∨
      a.lookup (mappedPath.take 95) = none ∨ b.lookup (mappedPath.take 95) = none := by
  have hne : mappedPath.take 95 ≠ mappedPath := by decide
  rw [changedAddresses_eq ha hb hda hdb]
  constructor
  · rintro ⟨p, hlen, hnone⟩
    by_cases hin : p ∈ cylinders 128 ((counted ignoreUnassigned (a.diff b)).map Prod.fst)
    · right
      obtain ⟨-, q, hq, hqp⟩ := hin
      obtain ⟨c, hc, rfl⟩ := List.mem_map.1 hq
      have hmapped : isMapped c.1 = true := by
        cases hside : isMapped c.1 with
        | true => rfl
        | false => exact absurd hqp (hnone c.1 (List.mem_map_of_mem (mem_side.2 ⟨hc, hside⟩)))
      rw [isMapped_iff] at hmapped
      have hpre : [] ++ mappedPath.take 95 <+: c.1 := (List.take_prefix 95 _).trans hmapped
      refine (TrieNode.diff_changes a.trie b.trie []).coarse c (mem_counted.1 hc).1 _ hpre
        fun heq => ?_
      have hlong := hmapped.length_le
      rw [← heq] at hlong
      exact absurd hlong (by decide)
    · exact .inl ⟨p, hlen, hin⟩
  · rintro (⟨p, hlen, hin⟩ | hnone)
    · refine ⟨p, hlen, fun q hq hqp => hin ⟨hlen, q, ?_, hqp⟩⟩
      obtain ⟨c, hc, rfl⟩ := List.mem_map.1 hq
      exact List.mem_map_of_mem (mem_side.1 hc).1
    · refine ⟨mappedPath ++ List.replicate 32 false, by simp [mappedPath], fun q hq hqp => ?_⟩
      obtain ⟨c, hc, rfl⟩ := List.mem_map.1 hq
      obtain ⟨hc, hside⟩ := mem_side.1 hc
      have hshort := prefix_take_of_not_isMapped hside hqp
      obtain ⟨-, hold, hnew⟩ := lookup_of_mem_diff ha hb (mem_counted.1 hc).1 hshort
      rw [hold, hnew] at hnone
      exact hnone.elim (Option.some_ne_none _) (Option.some_ne_none _)

include hda hdb in
/-- **The loop completes with the sums of the counts**, unless one of them overflows. -/
theorem runDiff_spec :
    (∃ s, runDiff a b ignoreUnassigned = .ok s ∧
      s.ipv4Changed = weight (side true (counted ignoreUnassigned (a.diff b))) ∧
      s.ipv6Changed = weight (side false (counted ignoreUnassigned (a.diff b))) ∧
      s.ipv6Changed ≤ u128Max) ∨
    (runDiff a b ignoreUnassigned = .error .addOverflow ∧ ∃ mapped,
      u128Max < weight (side mapped (counted ignoreUnassigned (a.diff b)))) := by
  have hzero : ∀ mapped, (⟨0, 0, 0, 0, []⟩ : DiffSummary).changed mapped = 0 := by
    intro mapped
    cases mapped <;> rfl
  have hloop := foldlM_diffStep ignoreUnassigned (fun c hc => length_le_of_mem_diff hda hdb hc)
    (s := ⟨0, 0, 0, 0, []⟩) fun mapped => (hzero mapped).trans_le (Nat.zero_le _)
  simp only [hzero, Nat.zero_add] at hloop
  rcases hloop with ⟨s, hrun, hsums⟩ | ⟨hrun, hover⟩
  · exact .inl ⟨s, hrun, (hsums true).2, (hsums false).2, (hsums false).1⟩
  · exact .inr ⟨hrun, hover⟩

include hda hdb in
theorem addresses_side_eq (mapped : Bool) :
    addresses (side mapped (counted ignoreUnassigned (a.diff b))) =
      (cylinders 128 ((side mapped (counted ignoreUnassigned (a.diff b))).map Prod.fst)).ncard := by
  have hsub : (side mapped (counted ignoreUnassigned (a.diff b))).Sublist (a.diff b) :=
    List.filter_sublist.trans List.filter_sublist
  exact addresses_eq ((TrieNode.diff_changes a.trie b.trie []).ordered.sublist (hsub.map _))
    fun c hc =>
    length_le_of_mem_diff hda hdb (hsub.subset hc)

include ha hb hda hdb in
/-- The two sides come to all changed addresses. -/
theorem addresses_total : addresses (side true (counted ignoreUnassigned (a.diff b))) +
    addresses (side false (counted ignoreUnassigned (a.diff b))) =
      (changedAddresses a b ignoreUnassigned).ncard := by
  have hsub : (counted ignoreUnassigned (a.diff b)).Sublist (a.diff b) := List.filter_sublist
  rw [← addresses_side, changedAddresses_eq ha hb hda hdb]
  exact addresses_eq ((TrieNode.diff_changes a.trie b.trie []).ordered.sublist (hsub.map _))
    fun c hc =>
    length_le_of_mem_diff hda hdb (hsub.subset hc)

include hda hdb in
/-- The IPv4 side never overflows. -/
theorem addresses_mapped_le :
    addresses (side true (counted ignoreUnassigned (a.diff b))) ≤ u128Max := by
  have hin := cylinders_subset (n := 128) (p := mappedPath)
    (P := (side true (counted ignoreUnassigned (a.diff b))).map Prod.fst)
    (List.forall_mem_map.2 fun c hc => isMapped_iff.1 (mem_side.1 hc).2)
  rw [addresses_side_eq hda hdb]
  refine (Set.ncard_le_ncard hin (finite_cylinder 128 mappedPath)).trans ?_
  rw [ncard_cylinder (by decide), Fintype.card_bool]
  decide

/-- The loop completes, its sums come to the changed addresses, and the text of an address has a dot
exactly in the mapped range. -/
def SummaryExact (a b : ASMap) (ignoreUnassigned : Bool) : Prop :=
  (∃ s, runDiff a b ignoreUnassigned = .ok s ∧
    s.ipv4Changed + s.ipv6Changed = (changedAddresses a b ignoreUnassigned).ncard) ∧
  ∀ c ∈ a.diff b, ∀ net, bitsToNetwork c.1 = .ok net →
    (net.toList.contains '.' = true ↔ mappedPath <+: c.1)

include ha hb hda hdb in
/-- Exact is what fits: `u128` has no room for all addresses, neither in one count nor in a sum. -/
theorem summaryExact_iff_le : SummaryExact a b ignoreUnassigned ↔
    addresses (side false (counted ignoreUnassigned (a.diff b))) ≤ u128Max := by
  have htotal := addresses_total ha hb hda hdb ignoreUnassigned
  have hmapped := addresses_mapped_le hda hdb ignoreUnassigned
  constructor
  · rintro ⟨⟨s, hrun, hsum⟩, -⟩
    rcases runDiff_spec hda hdb ignoreUnassigned with ⟨s', hrun', h4, h6, hfit⟩ | ⟨hrun', -⟩
    · obtain rfl : s = s' := Except.ok.inj (hrun.symm.trans hrun')
      have hle := weight_le (side true (counted ignoreUnassigned (a.diff b)))
      have hle' := weight_le (side false (counted ignoreUnassigned (a.diff b)))
      omega
    · rw [hrun] at hrun'
      cases hrun'
  · intro hfit
    refine ⟨?_, fun c hc net hnet => ?_⟩
    · rcases runDiff_spec hda hdb ignoreUnassigned with ⟨s, hrun, h4, h6, -⟩ | ⟨-, mapped, hover⟩
      · refine ⟨s, hrun, ?_⟩
        rw [h4, h6, weight_eq hmapped, weight_eq hfit, htotal]
      · cases mapped with
        | true => exact absurd hover (Nat.not_lt.2 ((weight_le _).trans hmapped))
        | false => exact absurd hover (Nat.not_lt.2 ((weight_le _).trans hfit))
    · obtain ⟨net', hnet', hdot, -⟩ := networkAddressCount_spec (length_le_of_mem_diff hda hdb hc)
      obtain rfl : net' = net := Except.ok.inj (hnet'.symm.trans hnet)
      exact hdot

include ha hb hda hdb in
/-- **The summary counts the addresses exactly if and only if** some address is not counted at all,
or one of the maps is not constant on the mapped range and its neighbour. -/
theorem runDiff_exact_iff : SummaryExact a b ignoreUnassigned ↔
    (∃ p : List Bool, p.length = 128 ∧ p ∉ changedAddresses a b ignoreUnassigned) ∨
      a.lookup (mappedPath.take 95) = none ∨ b.lookup (mappedPath.take 95) = none := by
  have hmax : u128Max + 1 = 2 ^ 128 := by decide
  rw [← exists_not_ipv6_iff ha hb hda hdb, ← ncard_cylinders_lt_iff, ← addresses_side_eq hda hdb,
    Fintype.card_bool, ← hmax, Nat.lt_succ_iff, summaryExact_iff_le ha hb hda hdb]

end Summary

/-- Two maps of one network. -/
theorem runDiff_exact_iff_one_network :
    let a := ASMap.new.update [true] 1
    let b := ASMap.new.update [true] 2
    SummaryExact a b true ↔
      (∃ p : List Bool, p.length = 128 ∧ p ∉ changedAddresses a b true) ∨
        a.lookup (mappedPath.take 95) = none ∨ b.lookup (mappedPath.take 95) = none :=
  runDiff_exact_iff (a := ASMap.new.update [true] 1) (b := ASMap.new.update [true] 2)
    (TrieNode.Canonical.update (show ASMap.new.trie.Canonical from trivial) _ _)
    (TrieNode.Canonical.update (show ASMap.new.trie.Canonical from trivial) _ _) (by decide)
      (by decide) true

/-- Where the whole space changes its ASN the count saturates, and where both halves do the sum
overflows. -/
theorem not_summaryExact_whole_space :
    ¬SummaryExact (ASMap.new.update [] 1) (ASMap.new.update [] 2) false ∧
      runDiff ((ASMap.new.update [] 1).update [true] 2)
        ((ASMap.new.update [] 3).update [true] 4) false =
        .error .addOverflow := by
  have hcanonical : ∀ v, (ASMap.new.update [] v).trie.Canonical := fun v => trivial
  refine ⟨fun hexact => ?_, by decide +kernel⟩
  rw [summaryExact_iff_le (hcanonical 1) (hcanonical 2) (by decide) (by decide)] at hexact
  exact absurd hexact (by decide)

end AsmapQuorum

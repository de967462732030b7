import AsmapQuorum.Codec.Trie
import AsmapQuorum.Lib.FiniteMap
import AsmapQuorum.Quorum.Network

/-!
# Bottlenecks of routing tables

From the AS paths recorded for a prefix the collector derives one ASN: the first of the suffix that
the paths to one origin have in common.  The ASNs of all prefixes make a map.

* `commonSuffix`, `findCommonSuffix`, `findAsBottleneck`, `toAsmap` — the functions of the source;
  the hash maps are walked in given orders.
* `truncateLoop_spec`, `commonSuffix_spec` — the loops find the longest common suffix of the paths
  that end where the shortest one ends.
* `lookup_findAsBottleneck` — the bottleneck of a prefix is the first ASN of its common suffix,
  whatever the orders of the maps.
* `findAsBottleneck_spec` — **the bottleneck is the first ASN of the longest common suffix** of the
  paths to the origin of the first shortest one.
* `findAsBottleneck_perm_iff` — **when the bottleneck does not depend on the order of the paths**:
  the shortest ones lead to the same.
* `toAsmap_order_iff` — **when the map does not depend on the order of the prefixes**: no two
  notations of one network disagree on it.
-/

namespace AsmapQuorum

open FiniteMap PrefixOverwrite

/-! ### The common suffix -/

/-- Paths in the order of their lengths. -/
def shorterPath (p q : List ℕ) : Prop := p.length ≤ q.length

instance : DecidableRel shorterPath := fun p q => inferInstanceAs (Decidable (p.length ≤ q.length))

instance : IsTrans (List ℕ) shorterPath := ⟨fun _ _ _ h h' => Nat.le_trans h h'⟩

instance : Std.Total shorterPath := ⟨fun p q => Nat.le_total p.length q.length⟩

/-- The inner loop of `find_common_suffix`, from index `i` on for so many rounds: at the first index
where the paths differ the suffix is cut. -/
def truncateLoop (revCommonSuffix revAsPath : List ℕ) : ℕ → ℕ → List ℕ
  | 0, _ => revCommonSuffix
  | rounds + 1, i =>
    if revAsPath[i]? ≠ revCommonSuffix[i]? then revCommonSuffix.take i
    else truncateLoop revCommonSuffix revAsPath rounds (i + 1)

/-- One round of the loop over the paths: a path to another origin is passed over. -/
def commonSuffixStep (revCommonSuffix asPath : List ℕ) : List ℕ :=
  let revAsPath := asPath.reverse
  if revCommonSuffix.head? ≠ revAsPath.head? then revCommonSuffix
  else truncateLoop revCommonSuffix revAsPath (min revCommonSuffix.length revAsPath.length - 1) 1

/-- `find_common_suffix` for the paths of one prefix; without paths there is nothing to insert. -/
def commonSuffix (asPaths : List (List ℕ)) : Option (List ℕ) :=
  match asPaths.insertionSort shorterPath with
  | [] => none
  | first :: rest => some (rest.foldl commonSuffixStep first.reverse).reverse

/-- The loop over `mrt_hm`, walked in the order `mrtOrder`. -/
def findCommonSuffix (mrtOrder : IterOrder RoutingPrefix (List (List ℕ)))
    (mrt : Map RoutingPrefix (List (List ℕ))) : Map RoutingPrefix (List ℕ) :=
  (mrtOrder.entries mrt).foldl (insertSome commonSuffix) ∅

/-- `prefix_asn` after `find_as_bottleneck`: the first ASN of every suffix that has one is
inserted. -/
def findAsBottleneck (prefixAsn : Map RoutingPrefix ℕ)
    (mrtOrder : IterOrder RoutingPrefix (List (List ℕ)))
    (suffixOrder : IterOrder RoutingPrefix (List ℕ)) (mrt : Map RoutingPrefix (List (List ℕ))) :
    Map RoutingPrefix ℕ :=
  (suffixOrder.entries (findCommonSuffix mrtOrder mrt)).foldl (insertSome List.head?) prefixAsn

/-- The entries that `to_asmap` pushes. -/
def asmapEntries (order : IterOrder RoutingPrefix ℕ) (prefixAsn : Map RoutingPrefix ℕ) :
    List ASNEntry :=
  (order.entries prefixAsn).map fun e => (ipToBits e.1.ip e.1.mask, e.2)

/-- `FindBottleneck::to_asmap`. -/
def toAsmap (order : IterOrder RoutingPrefix ℕ) (prefixAsn : Map RoutingPrefix ℕ) : ASMap :=
  ASMap.new.updateMulti (asmapEntries order prefixAsn)

/-! ### What the loops find -/

/-- **The inner loop finds the longest common prefix** of the reversed paths, from where they
agree. -/
theorem truncateLoop_spec {rev r : List ℕ} :
    ∀ (rounds i : ℕ), i + rounds = rev.length → rev.take i <+: r →
      truncateLoop rev r rounds i <+: rev ∧ truncateLoop rev r rounds i <+: r ∧
        ∀ q, q <+: rev → q <+: r → q <+: truncateLoop rev r rounds i := by
  intro rounds
  induction rounds with
  | zero =>
    intro i hi htake
    rw [List.take_of_length_le (by omega)] at htake
    exact ⟨List.prefix_rfl, htake, fun q hq _ => hq⟩
  | succ rounds ih =>
    intro i hi htake
    rw [truncateLoop]
    split
    · next hne =>
      refine ⟨List.take_prefix i rev, htake, fun q hq hqr => ?_⟩
      refine List.prefix_take_iff.2 ⟨hq, Nat.le_of_not_lt fun hlt => hne ?_⟩
      exact (List.prefix_iff_getElem?.1 hqr i hlt).trans (List.prefix_iff_getElem?.1 hq i hlt).symm
    · next heq =>
      rw [not_not] at heq
      refine ih (i + 1) (by omega) ?_
      have hsame : rev.take i = r.take i := by
        rw [List.prefix_iff_eq_take, List.length_take, Nat.min_eq_left (by omega)] at htake
        exact htake
      rw [List.take_add_one, hsame, ← heq, ← List.take_add_one]
      exact List.take_prefix (i + 1) r

/-- A path that none of the paths is shorter than. -/
def Shortest (paths : List (List ℕ)) (s : List ℕ) : Prop :=
  s ∈ paths ∧ ∀ path ∈ paths, s.length ≤ path.length

/-- `q` ends the path `s` and every path to the same origin. -/
def CommonTo (paths : List (List ℕ)) (s q : List ℕ) : Prop :=
  q <:+ s ∧ ∀ path ∈ paths, path.getLast? = s.getLast? → q <:+ path

def LongestCommon (paths : List (List ℕ)) (s q : List ℕ) : Prop :=
  CommonTo paths s q ∧ ∀ r, CommonTo paths s r → r <:+ q

theorem CommonTo.congr {paths paths' : List (List ℕ)} (h : ∀ path, path ∈ paths ↔ path ∈ paths')
    {s q : List ℕ} : CommonTo paths s q ↔ CommonTo paths' s q := by
  simp only [CommonTo, h]

theorem LongestCommon.congr {paths paths' : List (List ℕ)}
    (h : ∀ path, path ∈ paths ↔ path ∈ paths') {s q : List ℕ} : LongestCommon paths s q ↔
    LongestCommon paths' s q := by
  simp only [LongestCommon, CommonTo.congr h]

theorem LongestCommon.unique {paths : List (List ℕ)} {s q r : List ℕ} (hq : LongestCommon paths s q)
    (hr : LongestCommon paths s r) : q = r :=
  (hr.2 q hq.1).eq_of_length_le (hq.2 r hr.1).length_le

/-- The origin is common to all the paths that count. -/
theorem LongestCommon.getLast?_eq {paths : List (List ℕ)} {s q : List ℕ} (hs : s ≠ [])
    (h : LongestCommon paths s q) : q.getLast? = s.getLast? := by
  have hlast : s.getLast? = some (s.getLast hs) := List.getLast?_eq_some_getLast hs
  have hcommon : CommonTo paths s [s.getLast hs] := by
    refine ⟨List.singleton_suffix_iff_getLast?_eq_some.2 hlast, fun path _ hpath => ?_⟩
    exact List.singleton_suffix_iff_getLast?_eq_some.2 (hpath.trans hlast)
  rw [hlast]
  exact List.singleton_suffix_iff_getLast?_eq_some.1 (h.2 _ hcommon)

theorem LongestCommon.ne_nil {paths : List (List ℕ)} {s q : List ℕ} (hs : s ≠ [])
    (h : LongestCommon paths s q) : q ≠ [] := by
  rintro rfl
  have hlast := h.getLast?_eq hs
  rw [List.getLast?_nil, eq_comm, List.getLast?_eq_none_iff] at hlast
  exact hs hlast

/-- Next to a path to the same origin the suffix is cut to what the two have in common. -/
theorem commonSuffixStep_of_same {rev path : List ℕ} (hne : rev ≠ [])
    (hlen : rev.length ≤ path.length) (hsame : rev.head? = path.reverse.head?) :
    commonSuffixStep rev path <+: rev ∧ commonSuffixStep rev path <+: path.reverse ∧
      ∀ q, q <+: rev → q <+: path.reverse → q <+: commonSuffixStep rev path := by
  have hpos := List.length_pos_iff.2 hne
  have hrounds : 1 + (min rev.length path.reverse.length - 1) = rev.length := by
    rw [List.length_reverse, Nat.min_eq_left hlen]
    omega
  have hfirst : rev.take 1 <+: path.reverse := by
    cases rev with
    | nil => exact absurd rfl hne
    | cons a rev =>
      rw [List.take_succ_cons, List.take_zero, List.singleton_prefix_iff_head?_eq_some, ← hsame]
      rfl
  rw [commonSuffixStep, if_neg (not_not.2 hsame)]
  exact truncateLoop_spec _ 1 hrounds hfirst

/-- **One path more**: no shorter than `s`, it cuts the common suffix where it leaves it, if it
comes from the same origin. -/
theorem commonSuffixStep_spec {paths : List (List ℕ)} {s rev path : List ℕ} (hs : s ≠ [])
    (h : LongestCommon paths s rev.reverse) (hlen : s.length ≤ path.length) :
    LongestCommon (paths ++ [path]) s (commonSuffixStep rev path).reverse := by
  have horigin : rev.head? = s.getLast? := by
    rw [← h.getLast?_eq hs, List.getLast?_reverse]
  have hadd : ∀ q, CommonTo (paths ++ [path]) s q ↔
      CommonTo paths s q ∧ (path.getLast? = s.getLast? → q <:+ path) := by
    intro q
    simp only [CommonTo, List.forall_mem_append, List.forall_mem_singleton, and_assoc]
  by_cases hsame : rev.head? = path.reverse.head?
  · have hne : rev ≠ [] := fun hnil => h.ne_nil hs (by rw [hnil]; rfl)
    have hrev : rev.length ≤ path.length := by
      have := h.1.1.length_le
      rw [List.length_reverse] at this
      omega
    obtain ⟨hout, houtPath, hmax⟩ := commonSuffixStep_of_same hne hrev hsame
    rw [horigin, List.head?_reverse] at hsame
    refine ⟨(hadd _).2 ⟨⟨?_, fun path' hpath' hsame' => ?_⟩, fun _ => ?_⟩, fun r hr => ?_⟩
    · exact (List.reverse_suffix.2 hout).trans h.1.1
    · exact (List.reverse_suffix.2 hout).trans (h.1.2 path' hpath' hsame')
    · rw [← List.reverse_prefix, List.reverse_reverse]
      exact houtPath
    · obtain ⟨hrest, hpath⟩ := (hadd r).1 hr
      rw [← List.reverse_prefix, List.reverse_reverse]
      refine hmax r.reverse ?_ (List.reverse_prefix.2 (hpath hsame.symm))
      have := h.2 r hrest
      rwa [← List.reverse_prefix, List.reverse_reverse] at this
  · rw [commonSuffixStep, if_pos hsame]
    rw [horigin, List.head?_reverse] at hsame
    refine ⟨(hadd _).2 ⟨h.1, fun hpath => absurd hpath.symm hsame⟩, fun r hr => ?_⟩
    exact h.2 r ((hadd r).1 hr).1

/-- **The loop over the paths** finds the longest common suffix. -/
theorem foldl_commonSuffixStep {s : List ℕ} (hs : s ≠ []) :
    ∀ (rest done : List (List ℕ)) (rev : List ℕ), (∀ path ∈ rest, s.length ≤ path.length) →
      LongestCommon done s rev.reverse →
      LongestCommon (done ++ rest) s (rest.foldl commonSuffixStep rev).reverse := by
  intro rest
  induction rest with
  | nil =>
    intro done rev _ h
    rw [List.append_nil]
    exact h
  | cons path rest ih =>
    intro done rev hlen h
    rw [List.forall_mem_cons] at hlen
    rw [List.foldl_cons, List.append_cons]
    exact ih (done ++ [path]) _ hlen.2 (commonSuffixStep_spec hs h hlen.1)

theorem longestCommon_self (s : List ℕ) : LongestCommon [s] s s := by
  refine ⟨⟨List.suffix_rfl, ?_⟩, fun r hr => hr.1⟩
  rintro path hpath -
  rw [List.mem_singleton.1 hpath]

/-- What the sorted paths start with is a shortest path, and its longest common suffix is found. -/
theorem commonSuffix_of_sorted {paths rest : List (List ℕ)} {s : List ℕ} (hs : s ≠ [])
    (h : paths.insertionSort shorterPath = s :: rest) :
    Shortest paths s ∧ ∃ q, LongestCommon paths s q ∧ commonSuffix paths = some q := by
  have hmem : ∀ path, path ∈ s :: rest ↔ path ∈ paths := by
    intro path
    rw [← h]
    exact (List.perm_insertionSort shorterPath paths).mem_iff
  have hsorted : (s :: rest).Pairwise shorterPath := by
    rw [← h]
    exact List.pairwise_insertionSort shorterPath paths
  have hrest : ∀ path ∈ rest, s.length ≤ path.length := (List.pairwise_cons.1 hsorted).1
  have hstart : LongestCommon [s] s s.reverse.reverse := by
    rw [List.reverse_reverse]
    exact longestCommon_self s
  have hout : commonSuffix paths = some (rest.foldl commonSuffixStep s.reverse).reverse := by
    rw [commonSuffix, h]
  refine ⟨⟨(hmem s).1 (List.mem_cons_self ..), fun path hpath => ?_⟩, _, ?_, hout⟩
  · rcases List.mem_cons.1 ((hmem path).2 hpath) with rfl | hpath
    · exact le_rfl
    · exact hrest path hpath
  · exact (LongestCommon.congr hmem).1 (foldl_commonSuffixStep hs rest [s] s.reverse hrest hstart)

theorem commonSuffix_spec {paths : List (List ℕ)} (hpaths : ∀ path ∈ paths, path ≠ [])
    (hne : paths ≠ []) :
    ∃ s q, Shortest paths s ∧ LongestCommon paths s q ∧ commonSuffix paths = some q := by
  have hperm : (paths.insertionSort shorterPath).Perm paths :=
    List.perm_insertionSort shorterPath paths
  cases hsort : paths.insertionSort shorterPath with
  | nil =>
    rw [hsort] at hperm
    exact absurd hperm.nil_eq.symm hne
  | cons s rest =>
    have hs : s ∈ paths := hperm.mem_iff.1 (by rw [hsort]; exact List.mem_cons_self ..)
    obtain ⟨hshort, q, hq, hout⟩ := commonSuffix_of_sorted (hpaths s hs) hsort
    exact ⟨s, q, hshort, hq, hout⟩

/-- Read first, a shortest path is the one that the loop starts from. -/
theorem commonSuffix_cons {s : List ℕ} {rest : List (List ℕ)} (hs : s ≠ [])
    (h : ∀ path ∈ rest, s.length ≤ path.length) :
    ∃ q, LongestCommon (s :: rest) s q ∧ commonSuffix (s :: rest) = some q := by
  have hsort := List.insertionSort_cons_of_forall_rel (r := shorterPath) h
  exact (commonSuffix_of_sorted hs hsort).2

/-! ### Bottlenecks -/

/-- **The bottleneck of a prefix** starts the common suffix of its paths, whatever the orders of the
maps. -/
theorem lookup_findAsBottleneck (prefixAsn : Map RoutingPrefix ℕ)
    (mrtOrder : IterOrder RoutingPrefix (List (List ℕ)))
    (suffixOrder : IterOrder RoutingPrefix (List ℕ)) (mrt : Map RoutingPrefix (List (List ℕ)))
    (p : RoutingPrefix) :
    (findAsBottleneck prefixAsn mrtOrder suffixOrder mrt).lookup p =
      (((mrt.lookup p).bind commonSuffix).bind List.head?).or (prefixAsn.lookup p) := by
  rw [findAsBottleneck, IterOrder.lookup_foldl_insertSome, findCommonSuffix,
    IterOrder.lookup_foldl_insertSome, AList.lookup_empty, Option.or_none]

/-- The first of the shortest paths, as they are listed. -/
def FirstShortest (paths : List (List ℕ)) (s : List ℕ) : Prop :=
  ∃ before behind, paths = before ++ s :: behind ∧ (∀ path ∈ before, s.length < path.length) ∧
    ∀ path ∈ behind, s.length ≤ path.length

theorem FirstShortest.mem {paths : List (List ℕ)} {s : List ℕ} (h : FirstShortest paths s) :
    s ∈ paths := by
  obtain ⟨before, behind, rfl, -, -⟩ := h
  exact List.mem_append_right before (List.mem_cons_self ..)

theorem exists_firstShortest {paths : List (List ℕ)} (hne : paths ≠ []) :
    ∃ s, FirstShortest paths s := by
  induction paths with
  | nil => exact absurd rfl hne
  | cons path paths ih =>
    by_cases hrest : ∀ other ∈ paths, path.length ≤ other.length
    · exact ⟨path, [], paths, rfl, by simp, hrest⟩
    · push Not at hrest
      obtain ⟨other, hother, hlt⟩ := hrest
      obtain ⟨s, before, behind, rfl, hbefore, hbehind⟩ := ih (List.ne_nil_of_mem hother)
      have hle : s.length ≤ other.length := by
        rcases List.mem_append.1 hother with hmem | hmem
        · exact (hbefore other hmem).le
        · rcases List.mem_cons.1 hmem with rfl | hmem
          · exact le_rfl
          · exact hbehind other hmem
      exact ⟨s, path :: before, behind, rfl, List.forall_mem_cons.2 ⟨by omega, hbefore⟩, hbehind⟩

/-- The sort is stable: of the shortest paths it leaves the first in front. -/
theorem insertionSort_firstShortest {paths : List (List ℕ)} {s : List ℕ}
    (h : FirstShortest paths s) :
    ∃ rest, paths.insertionSort shorterPath = s :: rest := by
  obtain ⟨before, behind, rfl, hbefore, hbehind⟩ := h
  induction before with
  | nil => exact ⟨_, List.insertionSort_cons_of_forall_rel (r := shorterPath) hbehind⟩
  | cons path before ih =>
    rw [List.forall_mem_cons] at hbefore
    obtain ⟨rest, hrest⟩ := ih hbefore.2
    refine ⟨rest.orderedInsert shorterPath path, ?_⟩
    rw [List.cons_append, List.insertionSort_cons, hrest]
    exact List.orderedInsert_of_not_le shorterPath rest (Nat.not_le_of_lt hbefore.1)

/-- **The bottleneck is the first ASN of the longest common suffix.**  Where paths are recorded for
a prefix, none of them empty, the first of the shortest ones gives the origin; what is stored is a
suffix of all the paths to that origin, and whatever else is a suffix of these is a suffix of it.
Where no path is recorded, nothing is stored and no entry is made. -/
theorem findAsBottleneck_spec (prefixAsn : Map RoutingPrefix ℕ)
    (mrtOrder : IterOrder RoutingPrefix (List (List ℕ)))
    (suffixOrder : IterOrder RoutingPrefix (List ℕ)) (mrt : Map RoutingPrefix (List (List ℕ)))
    (p : RoutingPrefix) :
    (∀ paths, mrt.lookup p = some paths → paths ≠ [] → (∀ path ∈ paths, path ≠ []) →
      (∃ s o, FirstShortest paths s ∧ s.getLast? = some o) ∧
        ∀ s o, FirstShortest paths s → s.getLast? = some o →
          ∃ q, (findCommonSuffix mrtOrder mrt).lookup p = some q ∧ o ∈ q ∧
            (∀ path ∈ paths, path.getLast? = some o → q <:+ path) ∧
            (∀ r, (∀ path ∈ paths, path.getLast? = some o → r <:+ path) → r <:+ q) ∧
            ∃ asn, q.head? = some asn ∧
              (findAsBottleneck prefixAsn mrtOrder suffixOrder mrt).lookup p = some asn) ∧
      (mrt.lookup p = none ∨ mrt.lookup p = some [] →
        (findCommonSuffix mrtOrder mrt).lookup p = none ∧
          (findAsBottleneck prefixAsn mrtOrder suffixOrder mrt).lookup p = prefixAsn.lookup p ∧
          (findAsBottleneck ∅ mrtOrder suffixOrder mrt).lookup p = none) := by
  have hstored : (findCommonSuffix mrtOrder mrt).lookup p = (mrt.lookup p).bind commonSuffix := by
    rw [findCommonSuffix, IterOrder.lookup_foldl_insertSome, AList.lookup_empty, Option.or_none]
  refine ⟨fun paths hp hne hpaths => ⟨?_, fun s o hs ho => ?_⟩, fun hp => ?_⟩
  · obtain ⟨s, hs⟩ := exists_firstShortest hne
    exact ⟨s, _, hs, List.getLast?_eq_some_getLast (hpaths s hs.mem)⟩
  · have hsne := hpaths s hs.mem
    obtain ⟨rest, hsort⟩ := insertionSort_firstShortest hs
    obtain ⟨-, q, hq, hout⟩ := commonSuffix_of_sorted hsne hsort
    have hhead : q.head? = some (q.head (hq.ne_nil hsne)) := List.head?_eq_some_head _
    refine ⟨q, ?_, ?_, ?_, fun r hr => ?_, _, hhead, ?_⟩
    · rw [hstored, hp, Option.bind_some, hout]
    · exact List.mem_of_getLast? ((hq.getLast?_eq hsne).trans ho)
    · rw [← ho]
      exact hq.1.2
    · rw [← ho] at hr
      exact hq.2 r ⟨hr s hs.mem rfl, hr⟩
    · rw [lookup_findAsBottleneck, hp, Option.bind_some, hout, Option.bind_some, hhead,
        Option.some_or]
  · have hnone : (mrt.lookup p).bind commonSuffix = none := by
      rcases hp with hp | hp <;> rw [hp] <;> rfl
    rw [hstored, lookup_findAsBottleneck, lookup_findAsBottleneck, hnone]
    exact ⟨rfl, rfl, rfl⟩

/-- Of the two shortest paths the first gives the origin, and a longer one to it parts from it after
7. -/
example : commonSuffix [[8, 9, 7, 3, 1], [5, 7, 3, 1], [2, 4, 6, 8]] = some [7, 3, 1] := by decide

/-- The bottleneck of a prefix with these paths is the same in whatever order they were read and the
maps are walked. -/
def OrderFree (paths : List (List ℕ)) : Prop :=
  ∀ (p : RoutingPrefix) (prefixAsn : Map RoutingPrefix ℕ)
    (mrtOrder mrtOrder' : IterOrder RoutingPrefix (List (List ℕ)))
    (suffixOrder suffixOrder' : IterOrder RoutingPrefix (List ℕ))
    (mrt mrt' : Map RoutingPrefix (List (List ℕ))) (paths' : List (List ℕ)),
    mrt.lookup p = some paths → mrt'.lookup p = some paths' → paths.Perm paths' →
      (findAsBottleneck prefixAsn mrtOrder suffixOrder mrt).lookup p =
        (findAsBottleneck prefixAsn mrtOrder' suffixOrder' mrt').lookup p

/-- It is enough to look at the paths of the prefix alone. -/
theorem orderFree_iff {paths : List (List ℕ)} :
    OrderFree paths ↔ ∀ paths', paths.Perm paths' →
      (commonSuffix paths).bind List.head? = (commonSuffix paths').bind List.head? := by
  constructor
  · intro h paths' hperm
    let p : RoutingPrefix := ⟨.V4 0, 0⟩
    have hsame := h p ∅ .newestFirst .newestFirst .newestFirst .newestFirst
      (AList.singleton p paths)
      (AList.singleton p paths') paths' (by rw [lookup_singleton, if_pos rfl])
      (by rw [lookup_singleton, if_pos rfl]) hperm
    rw [lookup_findAsBottleneck, lookup_findAsBottleneck, lookup_singleton, lookup_singleton,
      if_pos rfl, if_pos rfl, AList.lookup_empty, Option.or_none, Option.or_none] at hsame
    exact hsame
  · intro h p prefixAsn mrtOrder mrtOrder' suffixOrder suffixOrder' mrt mrt' paths' hp hp' hperm
    rw [lookup_findAsBottleneck, lookup_findAsBottleneck, hp, hp']
    show ((commonSuffix paths).bind List.head?).or _ = ((commonSuffix paths').bind List.head?).or _
    rw [h paths' hperm]

/-- Read in some order, the paths give what a shortest one of them leads to. -/
theorem exists_perm_commonSuffix {paths : List (List ℕ)} {s : List ℕ} (hs : s ≠ [])
    (h : Shortest paths s) :
    ∃ paths' q, paths.Perm paths' ∧ LongestCommon paths s q ∧ commonSuffix paths' = some q := by
  have hperm := List.perm_cons_erase h.1
  have hlen : ∀ path ∈ paths.erase s, s.length ≤ path.length := fun path hpath =>
    h.2 path (List.mem_of_mem_erase hpath)
  obtain ⟨q, hq, hout⟩ := commonSuffix_cons hs hlen
  exact ⟨_, q, hperm, (LongestCommon.congr fun path => hperm.mem_iff).2 hq, hout⟩

/-- **The order in which the paths of a prefix are read does not matter exactly if** all its
shortest paths lead to one ASN: the first of the longest suffix that such a path shares with the
paths to its origin. -/
theorem findAsBottleneck_perm_iff {paths : List (List ℕ)} (hpaths : ∀ path ∈ paths, path ≠ []) :
    OrderFree paths ↔ ∀ s t, Shortest paths s → Shortest paths t → ∀ q r, LongestCommon paths s q →
      LongestCommon paths t r → q.head? = r.head? := by
  rw [orderFree_iff]
  constructor
  · intro h s t hs ht q r hq hr
    obtain ⟨_, q', hpermq, hq', hout⟩ := exists_perm_commonSuffix (hpaths s hs.1) hs
    obtain ⟨_, r', hpermr, hr', hout'⟩ := exists_perm_commonSuffix (hpaths t ht.1) ht
    have hsame := (h _ hpermq).symm.trans (h _ hpermr)
    rw [hout, hout', ← hq.unique hq', ← hr.unique hr'] at hsame
    exact hsame
  · intro h paths' hperm
    by_cases hne : paths = []
    · rw [hne] at hperm ⊢
      rw [← hperm.nil_eq]
    · have hpaths' : ∀ path ∈ paths', path ≠ [] :=
        fun path hpath => hpaths path (hperm.mem_iff.2 hpath)
      have hne' : paths' ≠ [] := fun hnil => hne (by rw [hnil] at hperm; exact hperm.eq_nil)
      obtain ⟨s, q, hs, hq, hout⟩ := commonSuffix_spec hpaths hne
      obtain ⟨t, r, ht, hr, hout'⟩ := commonSuffix_spec hpaths' hne'
      have ht' : Shortest paths t :=
        ⟨hperm.mem_iff.2 ht.1, fun path hpath => ht.2 path (hperm.mem_iff.1 hpath)⟩
      rw [hout, hout']
      exact h s t hs ht' q r hq ((LongestCommon.congr fun path => hperm.mem_iff).2 hr)

/-- One origin, reached over two ways. -/
theorem findAsBottleneck_perm_iff_one_origin :
    OrderFree [[3, 1], [2, 3, 1]] ↔ ∀ s t, Shortest [[3, 1], [2, 3, 1]] s →
      Shortest [[3, 1], [2, 3, 1]] t →
      ∀ q r, LongestCommon [[3, 1], [2, 3, 1]] s q → LongestCommon [[3, 1], [2, 3, 1]] t r →
        q.head? = r.head? :=
  findAsBottleneck_perm_iff (by decide)

/-- Two origins announce a prefix, each over a path of its own ASN. -/
theorem not_orderFree_two_origins : ¬OrderFree [[1], [2]] := by
  intro h
  have hsame := orderFree_iff.1 h [[2], [1]] (List.Perm.swap ..)
  exact absurd hsame (by decide)

/-! ### Two notations of one network -/

/-- Every key is an address cleared behind a length that its family has. -/
def CanonicalKeys (prefixAsn : Map RoutingPrefix ℕ) : Prop :=
  ∀ k asn, prefixAsn.lookup k = some asn →
    ∃ ip mask, mask ≤ ip.width ∧ k = RoutingPrefix.canonicalized ip mask

/-- Whatever 128-bit address extends the path also extends that of a listed longer prefix. -/
def Shadowed (prefixAsn : Map RoutingPrefix ℕ) (path : List Bool) : Prop :=
  ∀ x : List Bool, x.length = 128 → path <+: x → ∃ k asn, prefixAsn.lookup k = some asn ∧
    path.length < (ipToBits k.ip k.mask).length ∧ ipToBits k.ip k.mask <+: x

section Keys

variable {prefixAsn : Map RoutingPrefix ℕ} {order order' : IterOrder RoutingPrefix ℕ}

theorem mem_asmapEntries {e : ASNEntry} :
    e ∈ asmapEntries order prefixAsn ↔
      ∃ k, prefixAsn.lookup k = some e.2 ∧ ipToBits k.ip k.mask = e.1 := by
  rw [asmapEntries, List.mem_map]
  constructor
  · rintro ⟨c, hc, rfl⟩
    exact ⟨c.1, order.mem_entries.1 hc, rfl⟩
  · rintro ⟨k, hk, hpath⟩
    exact ⟨(k, e.2), order.mem_entries.2 hk, Prod.ext hpath rfl⟩

theorem asmapEntries_perm : (asmapEntries order prefixAsn).Perm (asmapEntries order' prefixAsn) :=
  ((order.perm prefixAsn).trans (order'.perm prefixAsn).symm).map _

theorem canonicalKeys_empty : CanonicalKeys ∅ := by
  intro k asn hk
  rw [AList.lookup_empty] at hk
  cases hk

theorem CanonicalKeys.insert (h : CanonicalKeys prefixAsn) {ip : IpAddr} {mask : ℕ}
    (hle : mask ≤ ip.width) (asn : ℕ) :
    CanonicalKeys (prefixAsn.insert (RoutingPrefix.canonicalized ip mask) asn) := by
  intro k asn' hk
  by_cases heq : k = RoutingPrefix.canonicalized ip mask
  · exact ⟨ip, mask, hle, heq⟩
  · rw [AList.lookup_insert_ne heq] at hk
    exact h k asn' hk

theorem CanonicalKeys.exists_network (h : CanonicalKeys prefixAsn) {k : RoutingPrefix} {asn : ℕ}
    (hk : prefixAsn.lookup k = some asn) : ∃ N : Network, k = ⟨N.ip, N.mask⟩ := by
  obtain ⟨ip, mask, hle, rfl⟩ := h k asn hk
  obtain ⟨N, hN, -⟩ := Network.exists_canonicalized hle
  exact ⟨N, hN⟩

theorem CanonicalKeys.length_le (h : CanonicalKeys prefixAsn) :
    ∀ e ∈ asmapEntries order prefixAsn, e.1.length ≤ 128 := by
  intro e he
  obtain ⟨k, hk, hpath⟩ := mem_asmapEntries.1 he
  obtain ⟨N, rfl⟩ := h.exists_network hk
  rw [← hpath]
  exact N.length_path_le

/-- The ASN of the key that is visited last, where no longer prefix is listed. -/
theorem asnAt_toAsmap_lastly (order : IterOrder RoutingPrefix ℕ) (h : CanonicalKeys prefixAsn)
    {k : RoutingPrefix} {asn : ℕ} (hk : prefixAsn.lookup k = some asn) {x : List Bool}
    (hx : x.length = 128) (hpath : ipToBits k.ip k.mask <+: x)
    (hlong : ∀ k' asn', prefixAsn.lookup k' = some asn' → ipToBits k'.ip k'.mask <+: x →
      (ipToBits k'.ip k'.mask).length ≤ (ipToBits k.ip k.mask).length) :
    (toAsmap (order.lastly k) prefixAsn).trie.asnAt (x ++ₛ Stream'.const true) = asn := by
  have hlist : asmapEntries (order.lastly k) prefixAsn =
      ((order.entries prefixAsn).erase (k, asn)).map (fun e => (ipToBits e.1.ip e.1.mask, e.2)) ++
        [(ipToBits k.ip k.mask, asn)] := by
    rw [asmapEntries, order.entries_lastly hk, List.map_append]
    rfl
  have hlen : ∀ e ∈ asmapEntries (order.lastly k) prefixAsn, e.1.length ≤ x.length := fun e he =>
    (h.length_le e he).trans_eq hx.symm
  have hlongest : Longest (asmapEntries (order.lastly k) prefixAsn) (x ++ₛ Stream'.const true)
      (ipToBits k.ip k.mask, asn) := by
    refine (longest_iff hlen _).2 ⟨mem_asmapEntries.2 ⟨k, hk, rfl⟩, hpath, fun e he hpfx => ?_⟩
    obtain ⟨k', hk', heq⟩ := mem_asmapEntries.1 he
    rw [← heq] at hpfx ⊢
    exact hlong k' e.2 hk' hpfx
  have hlast : IsLast (asmapEntries (order.lastly k) prefixAsn) (ipToBits k.ip k.mask, asn) := by
    rw [IsLast, hlist, List.filter_append]
    simp
  rw [toAsmap, TrieNode.asnAt_updateMulti]
  exact assignMulti_of_isLast _ hlongest hlast

/-- What decides an address is not shadowed. -/
theorem not_shadowed (h : CanonicalKeys prefixAsn) {x : Stream' Bool} {e : ASNEntry}
    (hlong : Longest (asmapEntries order prefixAsn) x e) : ¬Shadowed prefixAsn e.1 := by
  intro hshadow
  have hx : x.take 128 ++ₛ x.drop 128 = x := Stream'.append_take_drop 128 x
  have hlen : ∀ e ∈ asmapEntries order prefixAsn, e.1.length ≤ (x.take 128).length := by
    intro e he
    rw [Stream'.length_take]
    exact h.length_le e he
  have hpath : e.1 <+: x.take 128 := by
    rw [← hx] at hlong
    exact (covers_append_iff _ (hlen e hlong.1)).1 hlong.2.1
  obtain ⟨k, asn, hk, hlt, hpfx⟩ := hshadow (x.take 128) (Stream'.length_take ..) hpath
  have hmem : (ipToBits k.ip k.mask, asn) ∈ asmapEntries order prefixAsn :=
    mem_asmapEntries.2 ⟨k, hk, rfl⟩
  have hcov : Covers (ipToBits k.ip k.mask) x := by
    rw [← hx]
    exact (covers_append_iff _ (hlen _ hmem)).2 hpfx
  exact absurd (hlong.2.2 _ hmem hcov) (Nat.not_le_of_lt hlt)

/-- Two entries that decide one address give it one ASN, unless two notations of a network
disagree. -/
theorem eq_of_longest (h : CanonicalKeys prefixAsn)
    (hcond : ∀ addr mask asn asn', prefixAsn.lookup ⟨.V4 addr, mask⟩ = some asn →
      prefixAsn.lookup ⟨.V6 (IpAddr.V4 addr).netrange, mask + 96⟩ = some asn' → asn ≠ asn' →
      Shadowed prefixAsn (ipToBits (.V4 addr) mask))
    {x : Stream' Bool} {e e' : ASNEntry} (hlong : Longest (asmapEntries order prefixAsn) x e)
    (hlong' : Longest (asmapEntries order prefixAsn) x e') : e.2 = e'.2 := by
  obtain ⟨k, hk, hpath⟩ := mem_asmapEntries.1 hlong.1
  obtain ⟨k', hk', hpath'⟩ := mem_asmapEntries.1 hlong'.1
  obtain ⟨N, rfl⟩ := h.exists_network hk
  obtain ⟨N', rfl⟩ := h.exists_network hk'
  have hsame : N.path = N'.path := hpath.trans ((hlong.fst_eq hlong').trans hpath'.symm)
  by_contra hne
  rcases Network.path_eq hsame with rfl | ⟨addr, hip, hip', hmask⟩ | ⟨addr, hip', hip, hmask⟩
  · rw [hk, Option.some.injEq] at hk'
    exact hne hk'
  · rw [hip', hmask] at hk'
    rw [hip] at hk hpath
    exact not_shadowed h hlong (hpath ▸ hcond addr N.mask e.2 e'.2 hk hk' hne)
  · rw [hip, hmask] at hk
    rw [hip'] at hk' hpath'
    exact not_shadowed h hlong' (hpath' ▸ hcond addr N'.mask e'.2 e.2 hk' hk (Ne.symm hne))

end Keys

/-- **The order of the prefixes does not matter exactly if** no IPv4 network is listed with one ASN
and the IPv6 notation of its mapped range with another, unless longer prefixes shadow both. -/
theorem toAsmap_order_iff {prefixAsn : Map RoutingPrefix ℕ} (h : CanonicalKeys prefixAsn) :
    (∀ order order', toAsmap order prefixAsn = toAsmap order' prefixAsn) ↔
      ∀ addr mask asn asn', prefixAsn.lookup ⟨.V4 addr, mask⟩ = some asn →
        prefixAsn.lookup ⟨.V6 (IpAddr.V4 addr).netrange, mask + 96⟩ = some asn' → asn ≠ asn' →
        Shadowed prefixAsn (ipToBits (.V4 addr) mask) := by
  constructor
  · intro hsame addr mask asn asn' hk hk' hne
    by_contra hshadow
    rw [Shadowed] at hshadow
    push Not at hshadow
    obtain ⟨x, hx, hpath, hlong⟩ := hshadow
    have hbits : ipToBits (.V6 (IpAddr.V4 addr).netrange)
        (mask + 96) = ipToBits (.V4 addr) mask := rfl
    have hmax : ∀ k₁ asn₁, prefixAsn.lookup k₁ = some asn₁ → ipToBits k₁.ip k₁.mask <+: x →
        (ipToBits k₁.ip k₁.mask).length ≤ (ipToBits (.V4 addr) mask).length := by
      intro k₁ asn₁ hk₁ hpfx
      exact Nat.le_of_not_lt fun hlt => hlong k₁ asn₁ hk₁ hlt hpfx
    have hfirst := asnAt_toAsmap_lastly .newestFirst h hk hx hpath hmax
    have hsecond := asnAt_toAsmap_lastly .newestFirst h hk' hx (hbits ▸ hpath) (hbits ▸ hmax)
    rw [hsame _ (IterOrder.newestFirst.lastly ⟨.V6 (IpAddr.V4 addr).netrange, mask + 96⟩), hsecond]
      at hfirst
    exact hne hfirst.symm
  · intro hcond order order'
    refine ASMap.ext_asnAt (ASMap.canonical_updateMulti (m := .new) trivial _)
      (ASMap.canonical_updateMulti (m := .new) trivial _) ?_
    funext x
    rw [toAsmap, toAsmap, TrieNode.asnAt_updateMulti, TrieNode.asnAt_updateMulti]
    by_cases hcov : ∃ e ∈ asmapEntries order prefixAsn, Covers e.1 x
    · obtain ⟨e₀, he₀, hx⟩ := hcov
      obtain ⟨e, hlong, hlast⟩ := exists_longest_isLast he₀ hx
      obtain ⟨e', hlong', hlast'⟩ := exists_longest_isLast (asmapEntries_perm.mem_iff.1 he₀) hx
      rw [assignMulti_of_isLast _ hlong hlast, assignMulti_of_isLast _ hlong' hlast']
      exact eq_of_longest h hcond hlong (hlong'.perm asmapEntries_perm)
    · push Not at hcov
      rw [assignMulti_of_not_covers _ hcov, assignMulti_of_not_covers _ fun e he =>
        hcov e (asmapEntries_perm.mem_iff.2 he)]

/-- An IPv4 network and half of it. -/
theorem toAsmap_order_iff_nested :
    let prefixAsn : Map RoutingPrefix ℕ :=
      ((∅ : Map RoutingPrefix ℕ).insert (.canonicalized (.V4 0x01020300) 24) 1).insert
        (.canonicalized (.V4 0x01020380) 25) 2
    (∀ order order', toAsmap order prefixAsn = toAsmap order' prefixAsn) ↔
      ∀ addr mask asn asn', prefixAsn.lookup ⟨.V4 addr, mask⟩ = some asn →
        prefixAsn.lookup ⟨.V6 (IpAddr.V4 addr).netrange, mask + 96⟩ = some asn' → asn ≠ asn' →
        Shadowed prefixAsn (ipToBits (.V4 addr) mask) :=
  toAsmap_order_iff ((canonicalKeys_empty.insert (by decide) 1).insert (by decide) 2)

/-- `1.2.3.0/24` and `::ffff:1.2.3.0/120` with different ASNs. -/
theorem exists_toAsmap_ne_mapped :
    let prefixAsn : Map RoutingPrefix ℕ :=
      ((∅ : Map RoutingPrefix ℕ).insert (.canonicalized (.V4 0x01020300) 24) 1).insert
        (.canonicalized (.V6 0xffff01020300) 120) 2
    CanonicalKeys prefixAsn ∧ ∃ order order',
      toAsmap order prefixAsn ≠ toAsmap order' prefixAsn := by
  refine ⟨(canonicalKeys_empty.insert (by decide) 1).insert (by decide) 2, .newestFirst,
    IterOrder.newestFirst.lastly (.canonicalized (.V6 0xffff01020300) 120), ?_⟩
  decide +kernel

end AsmapQuorum

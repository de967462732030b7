import AsmapQuorum.Codec.Print
import AsmapQuorum.Quorum.AsPath
import AsmapQuorum.Quorum.Bottleneck
import AsmapQuorum.Quorum.Collectors
import Mathlib.Data.List.Destutter

/-!
# From routing table dumps to maps

The collector reads the dumps of its route collectors record by record, pools the AS paths of each
prefix, and makes a map of the bottlenecks.  The reader of records is another crate's; its results
come as a list.

* `formatIp`, `matchRibEntry`, `parseMrt`, `fromCollectors`, `locate`, `collectRisState` — the
  functions of the source.
* `prefixBits`, `announcements` — what a record announces; `ipToBits_formatIp`: the address that is
  made of its bytes has **exactly the leading bits of the record**.
* `parseMrt_eq_ok` — **a dump is pooled up to the first record that cannot be read**; it is refused
  exactly if a prefix before that is longer than an address.
* `collectRisState_spec` — **the map gives every address the bottleneck of the longest prefix
  announced for it**, in all orders of the hash maps.
* `collectRisState_perm` — in which order the dumps are read does not matter, if no prefix has two
  shortest paths that disagree and no network is announced in both notations.
* `loadFile_writeBottleneck` — **what is written as text loads as the same map**.
-/

namespace AsmapQuorum

open FiniteMap

/-! ### Records -/

/-- A record of a routing table: a prefix, and the attributes of each of its entries.  A dump has as
many bytes of a prefix as its length needs. -/
structure RibAfi where
  prefixLength : UInt8
  pfx : List UInt8
  entries : List (List UInt8)
  length_pfx : pfx.length = (prefixLength.toNat + 7) / 8

/-- What reading the next record of a dump gives. -/
inductive MrtRead where
  | ribIpv4Unicast (entry : RibAfi)
  | ribIpv6Unicast (entry : RibAfi)
  /-- A record of another kind. -/
  | other
  | unreadable

/-- The AS paths recorded for each prefix. -/
abbrev AsPathTable := Map RoutingPrefix (List (List ℕ))

def formatIp (ip : List UInt8) (isIpv4 : Bool) : Except MrtError IpAddr :=
  if isIpv4 then
    if ip.length > 4 then .error (.bail "invalid IPv4 prefix bytes")
    else
      let bytes := ip ++ List.replicate (4 - ip.length) 0
      .ok (.V4 (BitVec.ofNat 32 (fromBeBytes bytes)))
  else
    if ip.length > 16 then .error (.bail "invalid IPv6 prefix bytes")
    else
      -- eight big-endian groups of two bytes are one number of sixteen bytes
      let bytes := ip ++ List.replicate (16 - ip.length) 0
      .ok (.V6 (BitVec.ofNat 128 (fromBeBytes bytes)))

/-- `Vec::dedup`: of equal ASNs that follow each other one is kept. -/
def dedup (asPath : List ℕ) : List ℕ := asPath.destutter (· ≠ ·)

/-- An entry without a path is passed over. -/
def matchRibEntry (entries : List (List UInt8)) (ip : IpAddr) (mask : UInt8) (mrt : AsPathTable) :
    AsPathTable :=
  let routingPrefix := RoutingPrefix.canonicalized ip mask.toNat
  entries.foldl
    (fun mrt attributes =>
      match AsPathParser.parse attributes with
      | .ok asPath => push mrt (routingPrefix, dedup asPath)
      | .error _ => mrt)
    mrt

/-- The loop over the records; it ends with the dump, or where that cannot be read. -/
def parseMrt : List MrtRead → AsPathTable → Except MrtError AsPathTable
  | [], mrt => .ok mrt
  | .ribIpv4Unicast entry :: reads, mrt => do
    let ip ← formatIp entry.pfx true
    parseMrt reads (matchRibEntry entry.entries ip entry.prefixLength mrt)
  | .ribIpv6Unicast entry :: reads, mrt => do
    let ip ← formatIp entry.pfx false
    parseMrt reads (matchRibEntry entry.entries ip entry.prefixLength mrt)
  | .other :: reads, mrt => parseMrt reads mrt
  | .unreadable :: _, mrt => .ok mrt

/-- The orders in which the hash maps are walked. -/
structure Walks where
  mrt : IterOrder RoutingPrefix (List (List ℕ))
  suffix : IterOrder RoutingPrefix (List ℕ)
  asn : IterOrder RoutingPrefix ℕ

/-- The dumps one behind the other; each of them may not be there at all. -/
def parseAll (dumps : List (Except MrtError (List MrtRead))) : Except MrtError AsPathTable :=
  dumps.foldlM (fun mrt dump => do parseMrt (← dump) mrt) ∅

namespace FindBottleneck

def fromCollectors (get : ℕ → Except MrtError (List MrtRead)) (walks : Walks)
    (collectors : List ℕ) :
    Except MrtError (Map RoutingPrefix ℕ) := do
  let mrt ← parseAll ((targets collectors).map get)
  return findAsBottleneck ∅ walks.mrt walks.suffix mrt

/-- The files of a directory, in the order in which it is listed. -/
def locate (files : List (Except MrtError (List MrtRead))) (walks : Walks) :
    Except MrtError (Map RoutingPrefix ℕ) := do
  let mrt ← parseAll files
  return findAsBottleneck ∅ walks.mrt walks.suffix mrt

end FindBottleneck

def collectRisState (get : ℕ → Except MrtError (List MrtRead)) (walks : Walks)
    (collectors : List ℕ) :
    Except MrtError ASMap := do
  let bottleneck ← FindBottleneck.fromCollectors get walks collectors
  return toAsmap walks.asn bottleneck

/-! ### What a record announces -/

/-- The bits of bytes, the first one first. -/
def bytesBits (bytes : List UInt8) : List Bool := bytes.flatMap fun b => msbs b.toBitVec 8

/-- The leading bits of the record, in the mapped range if it is of IPv4. -/
def prefixBits (isIpv4 : Bool) (entry : RibAfi) : List Bool :=
  (if isIpv4 then mappedPath else []) ++ (bytesBits entry.pfx).take entry.prefixLength.toNat

/-- The paths of the entries that have one. -/
def RibAfi.asPaths (entry : RibAfi) : List (List ℕ) :=
  entry.entries.filterMap fun attributes => (AsPathParser.parse attributes).toOption.map dedup

/-- The key of the record, and what is recorded under it. -/
def ribAnnouncements (isIpv4 : Bool) (entry : RibAfi) : List (RoutingPrefix × List ℕ) :=
  match formatIp entry.pfx isIpv4 with
  | .ok ip => entry.asPaths.map fun asPath =>
    (RoutingPrefix.canonicalized ip entry.prefixLength.toNat, asPath)
  | .error _ => []

/-- All that a dump announces before the first record that cannot be read. -/
def announcements : List MrtRead → List (RoutingPrefix × List ℕ)
  | [] => []
  | .ribIpv4Unicast entry :: reads => ribAnnouncements true entry ++ announcements reads
  | .ribIpv6Unicast entry :: reads => ribAnnouncements false entry ++ announcements reads
  | .other :: reads => announcements reads
  | .unreadable :: _ => []

/-- No prefix before the first record that cannot be read is longer than an address. -/
def Fits : List MrtRead → Prop
  | [] => True
  | .ribIpv4Unicast entry :: reads => entry.prefixLength.toNat ≤ 32 ∧ Fits reads
  | .ribIpv6Unicast entry :: reads => entry.prefixLength.toNat ≤ 128 ∧ Fits reads
  | .other :: reads => Fits reads
  | .unreadable :: _ => True

theorem exists_formatIp_iff {entry : RibAfi} {isIpv4 : Bool} :
    (∃ ip, formatIp entry.pfx isIpv4 = .ok ip) ↔ entry.prefixLength.toNat ≤ if isIpv4 then
      32 else 128 := by
  have hlen := entry.length_pfx
  unfold formatIp
  cases isIpv4 with
  | true =>
    rw [if_pos rfl, if_pos rfl]
    split
    · exact iff_of_false nofun (by omega)
    · exact iff_of_true ⟨_, rfl⟩ (by omega)
  | false =>
    rw [if_neg Bool.false_ne_true, if_neg Bool.false_ne_true]
    split
    · exact iff_of_false nofun (by omega)
    · exact iff_of_true ⟨_, rfl⟩ (by omega)

/-- The loop over the entries adds the paths of the record to its key. -/
theorem matchRibEntry_eq (entries : List (List UInt8)) (ip : IpAddr) (mask : UInt8)
    (mrt : AsPathTable) :
    matchRibEntry entries ip mask mrt =
      ((entries.filterMap fun attributes => (AsPathParser.parse attributes).toOption.map dedup).map
        fun asPath =>
        (RoutingPrefix.canonicalized ip mask.toNat, asPath)).foldl push mrt := by
  unfold matchRibEntry
  induction entries generalizing mrt with
  | nil => rfl
  | cons attributes entries ih =>
    rw [List.foldl_cons, List.filterMap_cons]
    cases hparse : AsPathParser.parse attributes with
    | error e => exact ih mrt
    | ok asPath => exact ih (push mrt (RoutingPrefix.canonicalized ip mask.toNat, dedup asPath))

/-- **One record**: its key has the paths that it announces, or the dump is refused. -/
theorem parseMrt_rib {entry : RibAfi} {isIpv4 : Bool} {reads : List MrtRead}
    {mrt mrt' : AsPathTable} :
    (do
      let ip ← formatIp entry.pfx isIpv4
      parseMrt reads (matchRibEntry entry.entries ip entry.prefixLength mrt)) = .ok mrt' ↔
    entry.prefixLength.toNat ≤ (if isIpv4 then 32 else 128) ∧
      parseMrt reads ((ribAnnouncements isIpv4 entry).foldl push mrt) = .ok mrt' := by
  rw [← exists_formatIp_iff, ribAnnouncements]
  cases hip : formatIp entry.pfx isIpv4 with
  | error e => exact iff_of_false nofun nofun
  | ok ip =>
    show parseMrt reads (matchRibEntry entry.entries ip entry.prefixLength mrt) = _ ↔ _
    rw [matchRibEntry_eq]
    exact (and_iff_right ⟨ip, rfl⟩).symm

/-- **A dump is pooled up to the first record that cannot be read**, and refused exactly if a prefix
before that is longer than an address. -/
theorem parseMrt_eq_ok {reads : List MrtRead} {mrt mrt' : AsPathTable} :
    parseMrt reads mrt = .ok mrt' ↔ Fits reads ∧ mrt' = (announcements reads).foldl push mrt := by
  induction reads generalizing mrt with
  | nil => simp [parseMrt, Fits, announcements, eq_comm]
  | cons read reads ih =>
    cases read with
    | ribIpv4Unicast entry =>
      rw [parseMrt, parseMrt_rib, ih, Fits, announcements, List.foldl_append, and_assoc]
      rfl
    | ribIpv6Unicast entry =>
      rw [parseMrt, parseMrt_rib, ih, Fits, announcements, List.foldl_append, and_assoc]
      rfl
    | other =>
      rw [parseMrt, ih, Fits, announcements]
    | unreadable => simp [parseMrt, Fits, announcements, eq_comm]

/-! ### The bits of a record -/

theorem length_bytesBits (bytes : List UInt8) : (bytesBits bytes).length = 8 * bytes.length := by
  induction bytes with
  | nil => rfl
  | cons b bytes ih =>
    rw [bytesBits, List.flatMap_cons, List.length_append, length_msbs, ← bytesBits, ih,
      List.length_cons]
    omega

/-- The bits of bytes are those of the number that they are. -/
theorem getElem?_bytesBits (bytes : List UInt8) :
    ∀ i < 8 * bytes.length,
      (bytesBits bytes)[i]? = some ((fromBeBytes bytes).testBit (8 * bytes.length - 1 - i)) := by
  induction bytes with
  | nil =>
    intro i hi
    exact absurd hi (Nat.not_lt_zero i)
  | cons b bytes ih =>
    intro i hi
    rw [List.length_cons] at hi ⊢
    have hlt : fromBeBytes bytes < 2 ^ (8 * bytes.length) := by
      have hlt := fromBeBytes_lt bytes
      rwa [show 256 = 2 ^ 8 from rfl, ← pow_mul] at hlt
    have hvalue : fromBeBytes (b :: bytes) = 2 ^ (8 * bytes.length) * b.toNat +
        fromBeBytes bytes := by
      rw [fromBeBytes, List.map_cons, Numeral.value_cons, List.length_map, ← fromBeBytes,
        show 256 = 2 ^ 8 from rfl, ← pow_mul, Nat.mul_comm]
    rw [hvalue, Nat.testBit_two_pow_mul_add _ hlt, bytesBits, List.flatMap_cons, ← bytesBits]
    by_cases hfirst : i < 8
    · rw [List.getElem?_append_left (by rwa [length_msbs]), if_neg (by omega), msbs,
        List.getElem?_map, List.getElem?_range hfirst, Option.map_some, BitVec.getMsbD,
        decide_eq_true hfirst, Bool.true_and]
      have hpos : 8 * (bytes.length + 1) - 1 - i - 8 * bytes.length = 8 - 1 - i := by omega
      rw [hpos]
      rfl
    · have hpos : 8 * (bytes.length + 1) - 1 - i = 8 * bytes.length - 1 - (i - 8) := by omega
      rw [List.getElem?_append_right (by rw [length_msbs]; omega), length_msbs, if_pos (by omega),
        hpos]
      exact ih (i - 8) (by omega)

/-- The leading bits of an address that is made of bytes. -/
theorem msbs_fromBeBytes {w : ℕ} {bytes : List UInt8} (hw : w = 8 * bytes.length) {n : ℕ}
    (hn : n ≤ w) :
    msbs (BitVec.ofNat w (fromBeBytes bytes)) n = (bytesBits bytes).take n := by
  apply List.ext_getElem?
  intro i
  by_cases hi : i < n
  · rw [List.getElem?_take_of_lt hi, getElem?_bytesBits bytes i (by omega), msbs, List.getElem?_map,
      List.getElem?_range hi, Option.map_some, BitVec.getMsbD, decide_eq_true (by omega),
      Bool.true_and,
      BitVec.getLsbD_ofNat, decide_eq_true (by omega), Bool.true_and, hw]
  · rw [List.getElem?_eq_none (by rw [length_msbs]; omega),
      List.getElem?_eq_none (by rw [List.length_take]; omega)]

/-- The bytes that are filled up do not reach the leading bits. -/
theorem take_bytesBits_append {bytes rest : List UInt8} {n : ℕ} (hn : n ≤ 8 * bytes.length) :
    (bytesBits (bytes ++ rest)).take n = (bytesBits bytes).take n := by
  have hlen : n ≤ (bytesBits bytes).length := hn.trans_eq (length_bytesBits bytes).symm
  rw [bytesBits, List.flatMap_append]
  exact List.take_append_of_le_length hlen

/-- **The address has the leading bits of the record.** -/
theorem ipToBits_formatIp {entry : RibAfi} {isIpv4 : Bool} {ip : IpAddr}
    (h : formatIp entry.pfx isIpv4 = .ok ip) :
    entry.prefixLength.toNat ≤ ip.width ∧
      ipToBits ip entry.prefixLength.toNat = prefixBits isIpv4 entry := by
  have hbytes : entry.prefixLength.toNat ≤ 8 * entry.pfx.length := by
    have hlen := entry.length_pfx
    omega
  have hfill : ∀ k, entry.pfx.length ≤ k →
      k * 8 = 8 * (entry.pfx ++ List.replicate (k - entry.pfx.length) 0).length := by
    intro k hk
    rw [List.length_append, List.length_replicate]
    omega
  have hfits := exists_formatIp_iff.1 ⟨ip, h⟩
  unfold formatIp at h
  cases isIpv4 with
  | true =>
    have hle : entry.prefixLength.toNat ≤ 32 := hfits
    rw [if_pos rfl] at h
    split at h
    · cases h
    · next hfour =>
      cases h
      refine ⟨hle, ?_⟩
      rw [ipToBits_V4, msbs_fromBeBytes (hfill 4 (Nat.not_lt.1 hfour)) hle,
        take_bytesBits_append hbytes]
      rfl
  | false =>
    have hle : entry.prefixLength.toNat ≤ 128 := hfits
    rw [if_neg Bool.false_ne_true] at h
    split at h
    · cases h
    · next hsixteen =>
      cases h
      refine ⟨hle, ?_⟩
      show msbs (BitVec.ofNat 128 _) entry.prefixLength.toNat = _
      rw [msbs_fromBeBytes (hfill 16 (Nat.not_lt.1 hsixteen)) hle, take_bytesBits_append hbytes]
      rfl

/-! ### The table -/

/-- A path with an ASN at its head, all of them of 32 bits. -/
structure IsAsPath (asPath : List ℕ) : Prop where
  ne_nil : asPath ≠ []
  lt : ∀ asn ∈ asPath, asn < 2 ^ 32

theorem lt_of_reads {w : List UInt8} {asPath : List ℕ} (h : AsPathParser.Reads w (some asPath)) :
    ∀ asn ∈ asPath, asn < 2 ^ 32 := by
  generalize hr : some asPath = r at h
  cases h with
  | other _ _ _ => cases hr
  | asPath seg _ _ =>
    rw [AsSegment.path] at hr
    split at hr
    · rw [Option.some.inj hr]
      exact seg.asn_lt
    · cases hr

theorem isAsPath_of_attributesLoop {s : List UInt8} {fuel i j : ℕ} {paths paths' : List (List ℕ)}
    (hpaths : ∀ path ∈ paths, IsAsPath path)
    (h : AsPathParser.attributesLoop fuel paths s i = (.ok paths', j)) : ∀ path ∈ paths',
    IsAsPath path := by
  induction fuel generalizing i paths with
  | zero => cases h
  | succ fuel ih =>
    obtain ⟨b, k, -, h⟩ := Cursor.bind_ok_iff.1 h
    cases b with
    | false =>
      cases h
      exact hpaths
    | true =>
      obtain ⟨r, k, hread, h⟩ := Cursor.bind_ok_iff.1 h
      cases r with
      | none => exact ih hpaths h
      | some path =>
        dsimp only at h
        split at h
        · cases h
        · next hne =>
          rw [List.isEmpty_iff] at hne
          obtain ⟨w, hw, -⟩ := (AsPathParser.accepts_parseAttribute _ _ _ _).1 hread
          refine ih (fun p hp => ?_) h
          rcases List.mem_append.1 hp with hp | hp
          · exact hpaths p hp
          · rw [List.mem_singleton.1 hp]
            exact ⟨hne, lt_of_reads hw⟩

theorem isAsPath_of_parse {buffer : List UInt8} {asPath : List ℕ}
    (h : AsPathParser.parse buffer = .ok asPath) :
    IsAsPath asPath := by
  rw [AsPathParser.parse] at h
  split at h
  · cases h
  · have hrun : AsPathParser.parseAttributes (buffer.length + 1) buffer 0 =
        (.ok asPath, (AsPathParser.parseAttributes (buffer.length + 1) buffer 0).2) :=
          Prod.ext h rfl
    obtain ⟨paths, k, hloop, hlast⟩ := Cursor.bind_ok_iff.1 hrun
    split at hlast
    · cases hlast
    · cases hget : paths.getLast? with
      | none =>
        rw [hget] at hlast
        cases hlast
      | some path =>
        rw [hget] at hlast
        cases hlast
        exact isAsPath_of_attributesLoop (by simp) hloop asPath (List.mem_of_getLast? hget)

theorem IsAsPath.dedup {asPath : List ℕ} (h : IsAsPath asPath) : IsAsPath (dedup asPath) where
  ne_nil hnil := h.ne_nil ((List.destutter_eq_nil _).1 hnil)
  lt asn hasn := h.lt asn ((List.destutter_sublist _ _).mem hasn)

/-- What is announced: the key is a network with the bits of a record, and the path is one of the
record. -/
structure Announced (a : RoutingPrefix × List ℕ) : Prop where
  key : ∃ ip mask, mask ≤ ip.width ∧ a.1 = RoutingPrefix.canonicalized ip mask
  bits : ∃ isIpv4 entry, ipToBits a.1.ip a.1.mask = prefixBits isIpv4 entry ∧ a.2 ∈ entry.asPaths
  path : IsAsPath a.2

theorem announced_of_rib {isIpv4 : Bool} {entry : RibAfi} {a : RoutingPrefix × List ℕ}
    (h : a ∈ ribAnnouncements isIpv4 entry) : Announced a := by
  rw [ribAnnouncements] at h
  cases hip : formatIp entry.pfx isIpv4 with
  | error e =>
    rw [hip] at h
    cases h
  | ok ip =>
    rw [hip] at h
    obtain ⟨asPath, hpath, rfl⟩ := List.mem_map.1 h
    obtain ⟨hle, hbits⟩ := ipToBits_formatIp hip
    obtain ⟨N, hN, -, hpathN⟩ := Network.exists_canonicalized hle
    refine ⟨⟨ip, _, hle, rfl⟩, ⟨isIpv4, entry, ?_, hpath⟩, ?_⟩
    · rw [hN]
      exact hpathN.trans hbits
    · obtain ⟨attributes, -, hparse⟩ := List.mem_filterMap.1 hpath
      cases hresult : AsPathParser.parse attributes with
      | error e =>
        rw [hresult] at hparse
        cases hparse
      | ok path =>
        rw [hresult] at hparse
        obtain rfl := Option.some.inj hparse
        exact (isAsPath_of_parse hresult).dedup

theorem announced_of_mem {reads : List MrtRead} {a : RoutingPrefix × List ℕ}
    (h : a ∈ announcements reads) :
    Announced a := by
  induction reads with
  | nil => cases h
  | cons read reads ih =>
    cases read with
    | ribIpv4Unicast entry => exact (List.mem_append.1 h).elim announced_of_rib ih
    | ribIpv6Unicast entry => exact (List.mem_append.1 h).elim announced_of_rib ih
    | other => exact ih h
    | unreadable => cases h

theorem announced_of_mem_flatMap {dumps : List (List MrtRead)} :
    ∀ a ∈ dumps.flatMap announcements, Announced a := by
  intro a ha
  obtain ⟨reads, -, hmem⟩ := List.mem_flatMap.1 ha
  exact announced_of_mem hmem

/-- **All dumps**: they are all there and readable, and the table has what they announce. -/
theorem parseAll_eq_ok {dumps : List (Except MrtError (List MrtRead))} {mrt : AsPathTable} :
    parseAll dumps = .ok mrt ↔ ∃ ds : List (List MrtRead), dumps = ds.map .ok ∧ (∀ d ∈ ds, Fits d) ∧
      mrt = (ds.flatMap announcements).foldl push ∅ := by
  have hall : ∀ start : AsPathTable,
      dumps.foldlM (fun mrt dump => do parseMrt (← dump) mrt) start = .ok mrt ↔
        ∃ ds : List (List MrtRead), dumps = ds.map .ok ∧ (∀ d ∈ ds, Fits d) ∧
          mrt = (ds.flatMap announcements).foldl push start := by
    induction dumps with
    | nil =>
      intro start
      simp [pure, Except.pure, eq_comm]
    | cons dump dumps ih =>
      intro start
      rw [List.foldlM_cons, bind_eq_ok]
      constructor
      · rintro ⟨next, hnext, hrest⟩
        obtain ⟨d, rfl, hparse⟩ := bind_eq_ok.1 hnext
        obtain ⟨hfits, rfl⟩ := parseMrt_eq_ok.1 hparse
        obtain ⟨ds, rfl, hds, rfl⟩ := (ih _).1 hrest
        refine ⟨d :: ds, rfl, List.forall_mem_cons.2 ⟨hfits, hds⟩, ?_⟩
        rw [List.flatMap_cons, List.foldl_append]
      · rintro ⟨ds, hds, hfits, rfl⟩
        obtain ⟨d, ds, rfl, rfl, rfl⟩ := List.map_eq_cons_iff.1 hds.symm
        rw [List.forall_mem_cons] at hfits
        refine ⟨_, bind_eq_ok.2 ⟨d, rfl, parseMrt_eq_ok.2 ⟨hfits.1, rfl⟩⟩,
          (ih _).2 ⟨ds, rfl, hfits.2, ?_⟩⟩
        rw [List.flatMap_cons, List.foldl_append]
  exact hall ∅

/-! ### The map -/

/-- The first ASN of the longest suffix that the first shortest path shares with the paths to its
origin. -/
def BottleneckOf (paths : List (List ℕ)) (asn : ℕ) : Prop :=
  ∃ s q, FirstShortest paths s ∧ LongestCommon paths s q ∧ q.head? = some asn

theorem bottleneckOf_iff {paths : List (List ℕ)} (hpaths : ∀ path ∈ paths, path ≠ []) {asn : ℕ} :
    (commonSuffix paths).bind List.head? = some asn ↔ BottleneckOf paths asn := by
  by_cases hne : paths = []
  · subst hne
    refine iff_of_false nofun ?_
    rintro ⟨s, q, hs, -⟩
    exact absurd hs.mem List.not_mem_nil
  · obtain ⟨s, hs⟩ := exists_firstShortest hne
    obtain ⟨rest, hsort⟩ := insertionSort_firstShortest hs
    obtain ⟨-, q, hq, hout⟩ := commonSuffix_of_sorted (hpaths s hs.mem) hsort
    rw [hout, Option.bind_some]
    constructor
    · exact fun hhead => ⟨s, q, hs, hq, hhead⟩
    · rintro ⟨s', q', hs', hq', hhead⟩
      obtain ⟨rest', hsort'⟩ := insertionSort_firstShortest hs'
      obtain rfl : s = s' := (List.cons.inj (hsort.symm.trans hsort')).1
      rwa [hq.unique hq']

theorem exists_bottleneckOf {paths : List (List ℕ)} (hpaths : ∀ path ∈ paths, path ≠ [])
    (hne : paths ≠ []) :
    ∃ asn, BottleneckOf paths asn := by
  obtain ⟨s, q, hs, hq, hout⟩ := commonSuffix_spec hpaths hne
  refine ⟨q.head (hq.ne_nil (hpaths s hs.1)), (bottleneckOf_iff hpaths).1 ?_⟩
  rw [hout, Option.bind_some]
  exact List.head?_eq_some_head _

/-- The map gives every address the bottleneck of a longest prefix that is announced for it, and
none to an address that nothing is announced for. -/
def GivesBottlenecks (pooled : List (RoutingPrefix × List ℕ)) (m : ASMap) : Prop :=
  ∀ x : List Bool, x.length = 128 →
    (∃ a ∈ pooled, ∃ asn, ipToBits a.1.ip a.1.mask <+: x ∧
      (∀ b ∈ pooled, ipToBits b.1.ip b.1.mask <+: x →
        (ipToBits b.1.ip b.1.mask).length ≤ (ipToBits a.1.ip a.1.mask).length) ∧
      BottleneckOf (valuesAt pooled a.1) asn ∧ m.lookup x = some asn) ∨
    (∀ a ∈ pooled, ¬ipToBits a.1.ip a.1.mask <+: x) ∧ m.lookup x = some 0

section Pooled

variable {pooled : List (RoutingPrefix × List ℕ)} (hpooled : ∀ a ∈ pooled, Announced a)

include hpooled

theorem path_ne_of_mem_valuesAt {k : RoutingPrefix} : ∀ path ∈ valuesAt pooled k, path ≠ [] :=
  fun _ hpath => (hpooled _ (mem_valuesAt.1 hpath)).path.ne_nil

/-- **What is stored for a prefix** is the bottleneck of all that was announced for it. -/
theorem lookup_findAsBottleneck_pooled (mrtOrder : IterOrder RoutingPrefix (List (List ℕ)))
    (suffixOrder : IterOrder RoutingPrefix (List ℕ)) {k : RoutingPrefix} {asn : ℕ} :
    (findAsBottleneck ∅ mrtOrder suffixOrder (pooled.foldl push ∅)).lookup k = some asn ↔
      BottleneckOf (valuesAt pooled k) asn := by
  rw [lookup_findAsBottleneck, AList.lookup_empty, Option.or_none, lookup_foldl_push,
    AList.lookup_empty]
  rw [← bottleneckOf_iff (path_ne_of_mem_valuesAt hpooled)]
  split
  · next hnil =>
    rw [hnil]
    rfl
  · rfl

theorem canonicalKeys_pooled (mrtOrder : IterOrder RoutingPrefix (List (List ℕ)))
    (suffixOrder : IterOrder RoutingPrefix (List ℕ)) :
    CanonicalKeys (findAsBottleneck ∅ mrtOrder suffixOrder (pooled.foldl push ∅)) := by
  intro k asn hk
  obtain ⟨s, q, hs, -⟩ := (lookup_findAsBottleneck_pooled hpooled mrtOrder suffixOrder).1 hk
  exact (hpooled _ (mem_valuesAt.1 hs.mem)).key

/-- **An address has the bottleneck of a longest prefix that is announced for it.** -/
theorem givesBottlenecks_toAsmap (walks : Walks) : GivesBottlenecks pooled
    (toAsmap walks.asn (findAsBottleneck ∅ walks.mrt walks.suffix (pooled.foldl push ∅))) := by
  intro x hx
  have hkeys := canonicalKeys_pooled hpooled walks.mrt walks.suffix
  have hentries : ∀ e, e ∈ asmapEntries walks.asn (findAsBottleneck ∅ walks.mrt walks.suffix
      (pooled.foldl push ∅)) ↔ ∃ k, BottleneckOf (valuesAt pooled k) e.2 ∧
        ipToBits k.ip k.mask = e.1 := by
    intro e
    rw [mem_asmapEntries]
    exact exists_congr fun k => and_congr_left fun _ =>
      lookup_findAsBottleneck_pooled hpooled walks.mrt walks.suffix
  generalize findAsBottleneck ∅ walks.mrt walks.suffix (pooled.foldl push ∅) = prefixAsn
    at hkeys hentries ⊢
  obtain ⟨hmatch, hexists, hnone⟩ := (ASMap.lookup_updateMulti (m := .new) trivial
    (asmapEntries walks.asn prefixAsn)).1 x (Nat.zero_le _) fun e he =>
      (hkeys.length_le e he).trans_eq hx.symm
  -- every announced prefix is listed
  have hlisted : ∀ a ∈ pooled, ∃ e ∈ asmapEntries walks.asn prefixAsn,
      e.1 = ipToBits a.1.ip a.1.mask := by
    intro a ha
    obtain ⟨asn, hasn⟩ := exists_bottleneckOf (path_ne_of_mem_valuesAt hpooled)
      (List.ne_nil_of_mem (mem_valuesAt.2 ha))
    exact ⟨(_, asn), (hentries _).2 ⟨a.1, hasn, rfl⟩, rfl⟩
  by_cases hcov : ∃ a ∈ pooled, ipToBits a.1.ip a.1.mask <+: x
  · obtain ⟨a₀, ha₀, hpfx₀⟩ := hcov
    obtain ⟨e₀, he₀, hpath₀⟩ := hlisted a₀ ha₀
    obtain ⟨e, he⟩ := hexists ⟨e₀, he₀, hpath₀ ▸ hpfx₀⟩
    obtain ⟨k, hasn, hpath⟩ := (hentries e).1 he.mem
    obtain ⟨s, q, hs, hrest⟩ := hasn
    refine .inl ⟨(k, s), mem_valuesAt.1 hs.mem, e.2, hpath ▸ he.pfx, fun b hb hbx => ?_,
      ⟨s, q, hs, hrest⟩, hmatch e he⟩
    obtain ⟨d, hd, hdpath⟩ := hlisted b hb
    show _ ≤ (ipToBits k.ip k.mask).length
    rw [hpath, ← hdpath]
    exact he.longest d hd (hdpath ▸ hbx)
  · push Not at hcov
    have hnew : ASMap.new.lookup x = some 0 := by cases x <;> rfl
    refine .inr ⟨hcov, (hnone fun e he hpfx => ?_).trans hnew⟩
    obtain ⟨k, ⟨s, q, hs, -⟩, hpath⟩ := (hentries e).1 he
    exact hcov (k, s) (mem_valuesAt.1 hs.mem) (hpath ▸ hpfx)

end Pooled

/-- **The map that is collected** gives every address the bottleneck of a longest prefix that the
dumps announce for it, whatever the orders of the hash maps; an address without one is
unassigned. -/
theorem collectRisState_spec {get : ℕ → Except MrtError (List MrtRead)} {walks : Walks}
    {collectors : List ℕ} {m : ASMap} (h : collectRisState get walks collectors = .ok m) :
    ∃ dumps : List (List MrtRead), (targets collectors).map get = dumps.map .ok ∧
      GivesBottlenecks (dumps.flatMap announcements) m := by
  obtain ⟨prefixAsn, hprefix, hm⟩ := bind_eq_ok.1 h
  obtain ⟨mrt, hmrt, hasn⟩ := bind_eq_ok.1 hprefix
  obtain ⟨dumps, hdumps, -, rfl⟩ := parseAll_eq_ok.1 hmrt
  obtain rfl := Except.ok.inj hasn
  obtain rfl := Except.ok.inj hm
  exact ⟨dumps, hdumps, givesBottlenecks_toAsmap announced_of_mem_flatMap walks⟩

/-! ### The order of the dumps -/

/-- The shortest paths all lead to one ASN. -/
def Unequivocal (paths : List (List ℕ)) : Prop :=
  ∀ s t, Shortest paths s → Shortest paths t → ∀ q r, LongestCommon paths s q →
    LongestCommon paths t r →
    q.head? = r.head?

/-- **Announcements in another order**: the map is the same, if the shortest paths of no prefix
disagree and no network is announced in both notations. -/
theorem toAsmap_pooled_perm {pooled pooled' : List (RoutingPrefix × List ℕ)}
    (hpooled : ∀ a ∈ pooled, Announced a) (hperm : pooled.Perm pooled')
    (hpaths : ∀ k, Unequivocal (valuesAt pooled k))
    (hnotations : ∀ a ∈ pooled, ∀ b ∈ pooled, ipToBits a.1.ip a.1.mask = ipToBits b.1.ip b.1.mask →
      a.1 = b.1)
    (walks walks' : Walks) :
    toAsmap walks.asn (findAsBottleneck ∅ walks.mrt walks.suffix (pooled.foldl push ∅)) =
      toAsmap walks'.asn (findAsBottleneck ∅ walks'.mrt walks'.suffix (pooled'.foldl push ∅)) := by
  have hpooled' : ∀ a ∈ pooled', Announced a := fun a ha => hpooled a (hperm.mem_iff.2 ha)
  have hsame : ∀ k, (findAsBottleneck ∅ walks.mrt walks.suffix (pooled.foldl push ∅)).lookup k =
      (findAsBottleneck ∅ walks'.mrt walks'.suffix (pooled'.foldl push ∅)).lookup k := by
    intro k
    have hfree := orderFree_iff.1 ((findAsBottleneck_perm_iff (path_ne_of_mem_valuesAt hpooled)).2
      (hpaths k))
      _ (valuesAt_perm hperm)
    apply Option.ext
    intro asn
    rw [lookup_findAsBottleneck_pooled hpooled, lookup_findAsBottleneck_pooled hpooled',
      ← bottleneckOf_iff (path_ne_of_mem_valuesAt hpooled),
      ← bottleneckOf_iff (path_ne_of_mem_valuesAt hpooled'),
      hfree]
  have hentries := (walks.asn.perm_of_lookup_eq walks'.asn hsame).map fun e =>
    (ipToBits e.1.ip e.1.mask, e.2)
  refine ASMap.updateMulti_perm (m := .new) trivial hentries ?_
  -- no two of the prefixes that are listed are of one network
  rw [asmapEntries, List.map_map]
  refine List.Nodup.map_on (fun e he e' he' heq => ?_) (walks.asn.nodup_keys _).of_map
  have hlisted :
      ∀ e ∈ walks.asn.entries (findAsBottleneck ∅ walks.mrt walks.suffix (pooled.foldl push ∅)),
      ∃ s, (e.1, s) ∈ pooled := by
    intro e he
    obtain ⟨s, q, hs, -⟩ := (lookup_findAsBottleneck_pooled hpooled walks.mrt walks.suffix).1
      (walks.asn.mem_entries.1 he)
    exact ⟨s, mem_valuesAt.1 hs.mem⟩
  obtain ⟨s, hs⟩ := hlisted e he
  obtain ⟨s', hs'⟩ := hlisted e' he'
  have hkey : e.1 = e'.1 := hnotations _ hs _ hs' heq
  have hasn := walks.asn.mem_entries.1 he
  rw [hkey, walks.asn.mem_entries.1 he', Option.some.injEq] at hasn
  exact Prod.ext hkey hasn.symm

/-- **The order of the collectors and of the hash maps does not matter**, if the dumps can be read,
the shortest paths of no prefix disagree, and no network is announced in both notations. -/
theorem collectRisState_perm {get : ℕ → Except MrtError (List MrtRead)} {collectors : List ℕ}
    {dump : ℕ → List MrtRead} (hget : ∀ number ∈ targets collectors, get number = .ok (dump number))
    (hfits : ∀ number ∈ targets collectors, Fits (dump number))
    (hpaths : ∀ k, Unequivocal
      (valuesAt ((targets collectors).flatMap fun number => announcements (dump number)) k))
    (hnotations : ∀ a ∈ (targets collectors).flatMap fun number => announcements (dump number),
      ∀ b ∈ (targets collectors).flatMap fun number => announcements (dump number),
        ipToBits a.1.ip a.1.mask = ipToBits b.1.ip b.1.mask → a.1 = b.1) :
    ∃ m, ∀ walks collectors', (targets collectors).Perm (targets collectors') →
      collectRisState get walks collectors' = .ok m := by
  let walks : Walks := ⟨.newestFirst, .newestFirst, .newestFirst⟩
  refine ⟨toAsmap walks.asn (findAsBottleneck ∅ walks.mrt walks.suffix
    (((targets collectors).flatMap fun number => announcements (dump number)).foldl push ∅)),
    fun walks' collectors' hperm => ?_⟩
  have hparse : parseAll ((targets collectors').map get) =
      .ok (((targets collectors').flatMap fun number => announcements (dump number)).foldl push
        ∅) := by
    refine parseAll_eq_ok.2 ⟨(targets collectors').map dump, ?_, ?_, ?_⟩
    · rw [List.map_map]
      exact List.map_congr_left fun number hnumber => hget number (hperm.mem_iff.2 hnumber)
    · intro d hd
      obtain ⟨number, hnumber, rfl⟩ := List.mem_map.1 hd
      exact hfits number (hperm.mem_iff.2 hnumber)
    · rw [List.flatMap_map]
  have hcollect : collectRisState get walks' collectors' =
      .ok (toAsmap walks'.asn (findAsBottleneck ∅ walks'.mrt walks'.suffix
        (((targets collectors').flatMap fun number => announcements (dump number)).foldl push
          ∅))) := by
    rw [collectRisState, FindBottleneck.fromCollectors, hparse]
    rfl
  have hannounced : ∀ a ∈ (targets collectors).flatMap fun number => announcements (dump number),
      Announced a := by
    intro a ha
    obtain ⟨number, -, hmem⟩ := List.mem_flatMap.1 ha
    exact announced_of_mem hmem
  rw [hcollect, toAsmap_pooled_perm hannounced (hperm.flatMap_right _) hpaths hnotations walks
    walks']

/-! ### The text of the bottlenecks -/

/-- `write_bottleneck`. -/
def writeBottleneck (order : IterOrder RoutingPrefix ℕ) (prefixAsn : Map RoutingPrefix ℕ) :
    List UInt8 :=
  ((order.entries prefixAsn).flatMap fun e =>
    networkText e.1.ip e.1.mask ++ " AS".toList ++ Nat.toDigits 10 e.2 ++ ['\n']).flatMap
      String.utf8EncodeChar

/-- The lines of networks say their entries. -/
theorem forall₂_lineSays {L : List (RoutingPrefix × ℕ)}
    (hL : ∀ e ∈ L, (∃ N : Network, e.1 = ⟨N.ip, N.mask⟩) ∧ e.2 < 2 ^ 32) :
    List.Forall₂ LineSays (Text.lines (L.flatMap fun e =>
      networkText e.1.ip e.1.mask ++ " AS".toList ++ Nat.toDigits 10 e.2 ++ ['\n']))
      (L.map fun e => some (ipToBits e.1.ip e.1.mask, e.2)) := by
  induction L with
  | nil => exact .nil
  | cons e L ih =>
    rw [List.forall_mem_cons] at hL
    obtain ⟨⟨N, hN⟩, hasn⟩ := hL.1
    have hsays := lineSays_networkText N.mask_le N.hostZero hasn
    have hline : networkText e.1.ip e.1.mask ++ " AS".toList ++ Nat.toDigits 10 e.2 =
        networkText N.ip N.mask ++ ' ' :: 'A' :: 'S' :: Nat.toDigits 10 e.2 := by
      rw [hN]
      simp
    have hplain : ∀ c ∈ [' ', 'A', 'S'], c ≠ '\n' ∧ c ≠ '\r' := by simp
    have hnet := Plain.ne_newline (plain_networkText N.ip N.mask)
    have hdigits := Plain.ne_newline (plain_digits e.2)
    rw [List.flatMap_cons, List.append_assoc, List.singleton_append, hline,
      Text.lines_append_newline]
    · rw [List.map_cons, hN]
      exact .cons hsays (ih hL.2)
    · simp [hnet.1, hdigits.1]
    · simp [hnet.2, hdigits.2]

/-- **What is written is a text of the entries of the map.** -/
theorem asmapText_writeBottleneck {order : IterOrder RoutingPrefix ℕ}
    {prefixAsn : Map RoutingPrefix ℕ} (hkeys : CanonicalKeys prefixAsn)
    (hasn : ∀ k asn, prefixAsn.lookup k = some asn → asn < 2 ^ 32) :
    AsmapText (writeBottleneck order prefixAsn) (asmapEntries order prefixAsn) := by
  refine ⟨_, _, rfl, forall₂_lineSays fun e he => ?_, ?_⟩
  · have hlookup := order.mem_entries.1 he
    exact ⟨hkeys.exists_network hlookup, hasn _ _ hlookup⟩
  · rw [asmapEntries, List.reduceOption, List.filterMap_map, ← List.filterMap_eq_map]
    rfl

/-- **The text of the bottlenecks loads as the map that is made of them**, in the order of the
lines.  Only a text that is a binary map as well is refused. -/
theorem loadFile_writeBottleneck {files : List (Except MrtError (List MrtRead))} {walks : Walks}
    {prefixAsn : Map RoutingPrefix ℕ} (h : FindBottleneck.locate files walks = .ok prefixAsn)
    (order : IterOrder RoutingPrefix ℕ) (inputName : String) (m : ASMap) :
    loadFile (writeBottleneck order prefixAsn) inputName = .ok m ↔
      m = toAsmap order prefixAsn ∧ (writeBottleneck order prefixAsn = [] ∨
        ASMap.fromBinary (writeBottleneck order prefixAsn) = .error .reject) := by
  obtain ⟨mrt, hmrt, hasn⟩ := bind_eq_ok.1 h
  obtain ⟨dumps, -, -, rfl⟩ := parseAll_eq_ok.1 hmrt
  obtain rfl := Except.ok.inj hasn
  have hkeys := canonicalKeys_pooled (@announced_of_mem_flatMap dumps) walks.mrt walks.suffix
  have hlt : ∀ k asn, (findAsBottleneck ∅ walks.mrt walks.suffix
      ((dumps.flatMap announcements).foldl push ∅)).lookup k = some asn → asn < 2 ^ 32 := by
    intro k asn hk
    obtain ⟨s, q, hs, hq, hhead⟩ :=
      (lookup_findAsBottleneck_pooled announced_of_mem_flatMap walks.mrt walks.suffix).1 hk
    have hpath := (announced_of_mem_flatMap _ (mem_valuesAt.1 hs.mem)).path
    exact hpath.lt asn (hq.1.1.subset (List.mem_of_head? hhead))
  have htext := @asmapText_writeBottleneck order _ hkeys hlt
  rw [loadFile_eq_ok]
  constructor
  · rintro (⟨entries, hentries, rfl, hbin⟩ | ⟨hno, -⟩)
    · have hsame := (textEntries_eq_ok.2 hentries).symm.trans (textEntries_eq_ok.2 htext)
      rw [Except.ok.inj hsame]
      exact ⟨rfl, hbin⟩
    · exact absurd ⟨_, htext⟩ hno
  · rintro ⟨rfl, hbin⟩
    exact .inl ⟨_, htext, rfl, hbin⟩

/-! ### Two dumps -/

/-- A dump that announces `1.2.3.0/24` over a path, and breaks off. -/
def brokenDump (asPath : List ℕ) : List MrtRead :=
  [.ribIpv4Unicast
    { prefixLength := 24
      pfx := [1, 2, 3]
      entries := [[64, 2, .ofNat (2 + 4 * asPath.length), 2, .ofNat asPath.length] ++ asPath.flatMap
        (beBytes 4)]
      length_pfx := rfl },
    .unreadable]

/-- Two collectors that hear of the network over two ways, the other one of a prepended origin. -/
def twoDumps (number : ℕ) : Except MrtError (List MrtRead) :=
  .ok (brokenDump (if number = 0 then [3, 1, 1] else [2, 3, 1]))

example : announcements (brokenDump [3, 1, 1]) = [(⟨.V4 0x01020300, 24⟩, [3, 1])] := by decide

theorem fits_brokenDump (asPath : List ℕ) : Fits (brokenDump asPath) := by
  rw [brokenDump, Fits, Fits]
  exact ⟨show (24 : UInt8).toNat ≤ 32 by decide, trivial⟩

/-- The last inserted first, in all maps. -/
def newestWalks : Walks := ⟨.newestFirst, .newestFirst, .newestFirst⟩

/-- Both of them are collected. -/
theorem collectRisState_spec_two : ∃ m, collectRisState twoDumps newestWalks [0, 1] = .ok m ∧
    ∃ dumps : List (List MrtRead), (targets [0, 1]).map twoDumps = dumps.map .ok ∧
      GivesBottlenecks (dumps.flatMap announcements) m := by
  have hok : ∃ m, collectRisState twoDumps newestWalks [0, 1] = .ok m := ⟨_, rfl⟩
  obtain ⟨m, hm⟩ := hok
  exact ⟨m, hm, collectRisState_spec hm⟩

/-- With one shortest path there is nothing to choose from. -/
theorem unequivocal_of_unique {paths : List (List ℕ)}
    (h : ∀ s t, Shortest paths s → Shortest paths t → s = t) :
    Unequivocal paths := by
  intro s t hs ht q r hq hr
  rw [← h s t hs ht] at hr
  rw [hq.unique hr]

/-- Whichever is read first, the map is the same. -/
theorem collectRisState_perm_two : ∃ m, ∀ walks collectors',
    (targets [0, 1]).Perm (targets collectors') →
      collectRisState twoDumps walks collectors' = .ok m := by
  have hpool : ((targets [0, 1]).flatMap fun number =>
      announcements (brokenDump (if number = 0 then [3, 1, 1] else [2, 3, 1]))) =
      [(⟨.V4 0x01020300, 24⟩, [3, 1]), (⟨.V4 0x01020300, 24⟩, [2, 3, 1])] := by decide
  refine collectRisState_perm (fun _ _ => rfl) (fun _ _ => fits_brokenDump _) ?_ ?_
  · rw [hpool]
    refine fun k => unequivocal_of_unique fun s t hs ht => ?_
    have hone : ∀ s, Shortest (valuesAt [((⟨.V4 0x01020300, 24⟩ : RoutingPrefix), [3, 1]),
        (⟨.V4 0x01020300, 24⟩, [2, 3, 1])] k) s → s = [3, 1] := by
      intro s hs
      rw [valuesAt_cons, valuesAt_cons] at hs
      by_cases hk : (⟨.V4 0x01020300, 24⟩ : RoutingPrefix) = k
      · rw [if_pos hk, if_pos hk] at hs
        have hle := hs.2 [3, 1] (List.mem_cons_self ..)
        rcases List.mem_cons.1 hs.1 with rfl | hmem
        · rfl
        · rw [List.mem_singleton.1 hmem] at hle
          exact absurd hle (by decide)
      · rw [if_neg hk, if_neg hk] at hs
        exact absurd hs.1 List.not_mem_nil
    rw [hone s hs, hone t ht]
  · rw [hpool]
    decide

/-- One line is written for the first dump, and no binary map reads so. -/
theorem loadFile_writeBottleneck_one : ∃ prefixAsn,
    FindBottleneck.locate [.ok (brokenDump [3, 1, 1])] newestWalks = .ok prefixAsn ∧
      loadFile (writeBottleneck .newestFirst prefixAsn) "bottleneck.txt" =
        .ok (toAsmap .newestFirst prefixAsn) := by
  have hparse : parseAll [.ok (brokenDump [3, 1, 1])] =
      .ok ([((⟨.V4 0x01020300, 24⟩ : RoutingPrefix), [3, 1])].foldl
      push ∅) := by
    have hpool : announcements (brokenDump [3, 1, 1]) = [(⟨.V4 0x01020300, 24⟩, [3, 1])] := by
      decide
    refine parseAll_eq_ok.2 ⟨[brokenDump [3, 1, 1]], rfl, ?_, ?_⟩
    · exact List.forall_mem_singleton.2 (fits_brokenDump _)
    · rw [List.flatMap_singleton, hpool]
  have hlocate : FindBottleneck.locate [.ok (brokenDump [3, 1, 1])] newestWalks =
      .ok (AList.singleton ⟨.V4 0x01020300, 24⟩ 3) := by
    rw [FindBottleneck.locate, hparse]
    rfl
  have hreject : ASMap.fromBinary
      (writeBottleneck .newestFirst (AList.singleton ⟨.V4 0x01020300, 24⟩ 3)) =
      .error .reject := by decide +kernel
  have hload := loadFile_writeBottleneck hlocate .newestFirst "bottleneck.txt"
    (toAsmap .newestFirst (AList.singleton ⟨.V4 0x01020300, 24⟩ 3))
  exact ⟨_, hlocate, hload.2 ⟨rfl, .inr hreject⟩⟩

end AsmapQuorum

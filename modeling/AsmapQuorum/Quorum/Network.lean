import AsmapQuorum.Net.Prefix

/-!
# Consensus networks

The consensus layer normalises every prefix it sees to one text per network: the address with its
host bits cleared, and the length.  `Network` is a network in that normal form; an address with host
bits set cannot be one.

* `canonicalConsensusPrefix` — the normaliser of the source; its results are exactly the texts of
  networks (`canonicalConsensusPrefix_ok`, `canonicalConsensusPrefix_text`).
* `canonicalConsensusPrefix_spelling` — **one spelling for each network**, whatever it was written
  as.
* `touchesMappedRange` — the gate that keeps IPv6 text out of `::ffff:0:0/96`;
  `touchesMappedRange_eq_false` says that it lets through exactly the paths apart from that range.
* `Network.path_eq` — networks with one path: the same, or the two notations of an IPv4 network.
* `Network.Admitted`, `Network.path_injective` — **admitted networks with one path are equal**,
  whatever notation they are written in.
-/

namespace AsmapQuorum

open IpAddr

/-! ### Clearing host bits -/

structure RoutingPrefix where
  ip : IpAddr
  mask : ℕ
  deriving DecidableEq, Repr

namespace RoutingPrefix

/-- Clears the host bits; an address whose mask covers it all, or more, is left alone. -/
def canonicalized (ip : IpAddr) (mask : ℕ) : RoutingPrefix :=
  match ip with
  | V4 addr =>
    if mask < 32 then ⟨V4 (addr &&& ~~~(BitVec.allOnes 32 >>> mask)), mask⟩ else ⟨V4 addr, mask⟩
  | V6 addr =>
    if mask < 128 then ⟨V6 (addr &&& ~~~(BitVec.allOnes 128 >>> mask)), mask⟩ else ⟨V6 addr, mask⟩

def text (p : RoutingPrefix) : String := .ofList (networkText p.ip p.mask)

end RoutingPrefix

theorem getMsbD_cleared {w : ℕ} (x : BitVec w) (mask i : ℕ) :
    (x &&& ~~~(BitVec.allOnes w >>> mask)).getMsbD i = (x.getMsbD i && decide (i < mask)) := by
  by_cases hi : i < w
  · by_cases hm : i < mask
    · simp [BitVec.getMsbD_ushiftRight, hi, hm]
    · have : i - mask < w := by omega
      simp [BitVec.getMsbD_ushiftRight, hi, hm, this]
  · simp [BitVec.getMsbD_of_ge _ _ (Nat.le_of_not_lt hi)]

theorem cleared_eq_self {w : ℕ} {x : BitVec w} {mask : ℕ}
    (h : ∀ i, mask ≤ i → x.getMsbD i = false) : x &&& ~~~(BitVec.allOnes w >>> mask) = x := by
  apply BitVec.eq_of_getMsbD_eq
  intro i _
  rw [getMsbD_cleared]
  by_cases hm : i < mask
  · simp [hm]
  · simp [h i (Nat.le_of_not_lt hm)]

theorem hostZero_V4 {addr : BitVec 32} {mask : ℕ} :
    HostZero (V4 addr) mask ↔ ∀ i, mask ≤ i → addr.getMsbD i = false := by
  constructor
  · intro h i hi
    have := h (96 + i) (show mask + 96 ≤ 96 + i by omega)
    rwa [getMsbD_netrange_V4, if_pos (by omega), Nat.add_sub_cancel_left] at this
  · intro h i hi
    have hi' : mask + 96 ≤ i := hi
    rw [getMsbD_netrange_V4, if_pos (by omega)]
    exact h (i - 96) (by omega)

theorem hostZero_V6 {addr : BitVec 128} {mask : ℕ} :
    HostZero (V6 addr) mask ↔ ∀ i, mask ≤ i → addr.getMsbD i = false := Iff.rfl

theorem canonicalized_V4 (addr : BitVec 32) (len : ℕ) :
    ∃ addr', RoutingPrefix.canonicalized (.V4 addr) len = ⟨.V4 addr', len⟩ := by
  unfold RoutingPrefix.canonicalized
  dsimp only
  split
  · exact ⟨_, rfl⟩
  · exact ⟨_, rfl⟩

theorem canonicalized_V6 (addr : BitVec 128) (len : ℕ) :
    ∃ addr', RoutingPrefix.canonicalized (.V6 addr) len = ⟨.V6 addr', len⟩ := by
  unfold RoutingPrefix.canonicalized
  dsimp only
  split
  · exact ⟨_, rfl⟩
  · exact ⟨_, rfl⟩

theorem mask_canonicalized (ip : IpAddr) (len : ℕ) :
    (RoutingPrefix.canonicalized ip len).mask = len := by
  cases ip with
  | V4 addr =>
    obtain ⟨addr', haddr⟩ := canonicalized_V4 addr len
    rw [haddr]
  | V6 addr =>
    obtain ⟨addr', haddr⟩ := canonicalized_V6 addr len
    rw [haddr]

theorem width_canonicalized (ip : IpAddr) (mask : ℕ) :
    (RoutingPrefix.canonicalized ip mask).ip.width = ip.width := by
  cases ip with
  | V4 addr =>
    obtain ⟨addr', haddr⟩ := canonicalized_V4 addr mask
    rw [haddr]
    rfl
  | V6 addr =>
    obtain ⟨addr', haddr⟩ := canonicalized_V6 addr mask
    rw [haddr]
    rfl

/-! ### Networks in normal form -/

/-- An address with a length of at most its width and no bits behind it. -/
structure Network where
  ip : IpAddr
  mask : ℕ
  mask_le : mask ≤ ip.width
  hostZero : HostZero ip mask

namespace Network

def text (N : Network) : String := .ofList (networkText N.ip N.mask)

def path (N : Network) : List Bool := ipToBits N.ip N.mask

theorem ext {N N' : Network} (hip : N.ip = N'.ip) (hmask : N.mask = N'.mask) : N = N' := by
  cases N
  cases N'
  cases hip
  cases hmask
  rfl

theorem canonicalized_eq (N : Network) :
    RoutingPrefix.canonicalized N.ip N.mask = ⟨N.ip, N.mask⟩ := by
  obtain ⟨ip, mask, hle, hzero⟩ := N
  unfold RoutingPrefix.canonicalized
  cases ip with
  | V4 addr =>
    show (if mask < 32 then _ else _) = _
    split
    · rw [cleared_eq_self (hostZero_V4.1 hzero)]
    · rfl
  | V6 addr =>
    show (if mask < 128 then _ else _) = _
    split
    · rw [cleared_eq_self (hostZero_V6.1 hzero)]
    · rfl

/-- Clearing the host bits gives a network. -/
theorem exists_canonicalized {ip : IpAddr} {mask : ℕ} (h : mask ≤ ip.width) :
    ∃ N : Network, RoutingPrefix.canonicalized ip mask = ⟨N.ip, N.mask⟩ ∧ N.mask = mask ∧
      N.path = ipToBits ip mask := by
  cases ip with
  | V4 addr =>
    have hle : mask ≤ 32 := h
    have hbits : ∀ i < mask, (addr &&& ~~~(BitVec.allOnes 32 >>> mask)).getMsbD i =
        addr.getMsbD i := by
      intro i hi
      rw [getMsbD_cleared, decide_eq_true hi, Bool.and_true]
    by_cases hm : mask < 32
    · refine ⟨⟨V4 (addr &&& ~~~(BitVec.allOnes 32 >>> mask)), mask, h, ?_⟩, ?_, rfl, ?_⟩
      · rw [hostZero_V4]
        intro i hi
        rw [getMsbD_cleared, decide_eq_false (by omega), Bool.and_false]
      · rw [RoutingPrefix.canonicalized, if_pos hm]
      · rw [path, ipToBits_V4, ipToBits_V4, msbs_eq_iff.2 hbits]
    · refine ⟨⟨V4 addr, mask, h, ?_⟩, ?_, rfl, rfl⟩
      · rw [hostZero_V4]
        exact fun i hi => BitVec.getMsbD_of_ge _ _ (by omega)
      · rw [RoutingPrefix.canonicalized, if_neg hm]
  | V6 addr =>
    have hle : mask ≤ 128 := h
    have hbits : ∀ i < mask, (addr &&& ~~~(BitVec.allOnes 128 >>> mask)).getMsbD i =
        addr.getMsbD i := by
      intro i hi
      rw [getMsbD_cleared, decide_eq_true hi, Bool.and_true]
    by_cases hm : mask < 128
    · refine ⟨⟨V6 (addr &&& ~~~(BitVec.allOnes 128 >>> mask)), mask, h, ?_⟩, ?_, rfl, ?_⟩
      · rw [hostZero_V6]
        intro i hi
        rw [getMsbD_cleared, decide_eq_false (Nat.not_lt.2 hi), Bool.and_false]
      · rw [RoutingPrefix.canonicalized, if_pos hm]
      · exact msbs_eq_iff.2 hbits
    · refine ⟨⟨V6 addr, mask, h, ?_⟩, ?_, rfl, rfl⟩
      · rw [hostZero_V6]
        exact fun i hi => BitVec.getMsbD_of_ge _ _ (by omega)
      · rw [RoutingPrefix.canonicalized, if_neg hm]

end Network

/-! ### The normaliser -/

/-- `canonical_consensus_prefix`: the canonical text with the parsed address and length. -/
def canonicalConsensusPrefix (input : String) : Except String (String × IpAddr × ℕ) :=
  let invalid := "invalid network '" ++ input ++ "'"
  match splitOnce '/' input.toList with
  | none => .error invalid
  | some (addr, len) =>
    match IpAddr.parse addr with
    | none => .error invalid
    | some ip =>
      match parseU8 len with
      | none => .error invalid
      | some prefixLen =>
        if prefixLen > ip.width then .error invalid
        else
          let canonical := RoutingPrefix.canonicalized ip prefixLen
          .ok (canonical.text, canonical.ip, canonical.mask)

/-- The network that a text denotes, without its host bits. -/
def Denotes (text : String) (p : RoutingPrefix) : Prop :=
  ∃ ip len, ReadsAs text ip len ∧ len ≤ ip.width ∧ p = RoutingPrefix.canonicalized ip len

theorem canonicalConsensusPrefix_eq_ok_iff {text : String} {r : String × IpAddr × ℕ} :
    canonicalConsensusPrefix text = .ok r ↔
      ∃ p, Denotes text p ∧ r = (p.text, p.ip, p.mask) := by
  simp only [Denotes, readsAs_iff]
  constructor
  · intro h
    unfold canonicalConsensusPrefix at h
    dsimp only at h
    split at h
    · cases h
    · next addr digits hsplit =>
      split at h
      · cases h
      · next ip hip =>
        split at h
        · cases h
        · next len hlen =>
          split at h
          · cases h
          · next hle =>
            exact ⟨_, ⟨ip, len, ⟨addr, digits, hsplit, hip, hlen⟩, Nat.le_of_not_lt hle, rfl⟩,
              (Except.ok.inj h).symm⟩
  · rintro ⟨_, ⟨ip, len, ⟨addr, digits, hsplit, hip, hlen⟩, hle, rfl⟩, rfl⟩
    unfold canonicalConsensusPrefix
    rw [hsplit]
    simp only [hip, hlen]
    rw [if_neg (Nat.not_lt.2 hle)]

/-- The normaliser only gives networks. -/
theorem canonicalConsensusPrefix_ok {input : String} {r : String × IpAddr × ℕ}
    (h : canonicalConsensusPrefix input = .ok r) : ∃ N : Network, r = (N.text, N.ip, N.mask) := by
  obtain ⟨p, ⟨ip, len, -, hle, rfl⟩, rfl⟩ := canonicalConsensusPrefix_eq_ok_iff.1 h
  obtain ⟨N, hN, -⟩ := Network.exists_canonicalized hle
  rw [hN]
  exact ⟨N, rfl⟩

/-- **The normaliser is the identity on the text of a network.** -/
theorem canonicalConsensusPrefix_text (N : Network) :
    canonicalConsensusPrefix N.text = .ok (N.text, N.ip, N.mask) := by
  have hmask : N.mask < 256 := by
    have hle := N.mask_le
    have := width_le N.ip
    omega
  unfold canonicalConsensusPrefix
  rw [Network.text, String.toList_ofList, splitOnce_networkText]
  simp only [parse_display, parseU8, Numeral.parseUnsigned_toDigits hmask, N.canonicalized_eq]
  rw [if_neg (Nat.not_lt.2 N.mask_le)]
  rfl

theorem Network.text_injective : Function.Injective Network.text := by
  intro N N' h
  have hN := canonicalConsensusPrefix_text N
  rw [h, canonicalConsensusPrefix_text] at hN
  have heq := Except.ok.inj hN
  exact Network.ext (congrArg (fun r => r.2.1) heq).symm (congrArg (fun r => r.2.2) heq).symm

/-! ### The mapped range -/

/-- `::ffff:0:0/96` as a raw address. -/
def ipv4MappedRange : BitVec 128 := 0xffff00000000#128

def ipv4MappedPrefixBits : ℕ := 96

/-- The gate on IPv6 text: nothing at, below or above `::ffff:0:0/96`. -/
def touchesMappedRange (ip : IpAddr) (prefixLen : ℕ) : Bool :=
  match ip with
  | V4 _ => false
  | V6 v6 =>
    if 1 ≤ prefixLen ∧ prefixLen ≤ ipv4MappedPrefixBits then
      v6 >>> (128 - prefixLen) == ipv4MappedRange >>> (128 - prefixLen)
    else (toIpv4Mapped v6).isSome

/-- Neither path is an extension of the other. -/
def Apart (p q : List Bool) : Prop := ¬p <+: q ∧ ¬q <+: p

theorem msbs_mappedRange {n : ℕ} (h : n ≤ 96) : msbs ipv4MappedRange n = mappedPath.take n := by
  have hall : msbs ipv4MappedRange 96 = mappedPath := by decide
  rw [← hall, take_msbs _ h]

theorem toIpv4Mapped_isSome {v6 : BitVec 128} :
    (toIpv4Mapped v6).isSome = true ↔ msbs v6 96 = mappedPath := by
  have hnat : v6 >>> 32 = 0xffff#128 ↔ v6.toNat / 2 ^ 32 = 65535 := by
    rw [← Nat.shiftRight_eq_div_pow, ← BitVec.toNat_ushiftRight]
    constructor
    · intro h
      rw [h]
      rfl
    · intro h
      apply BitVec.eq_of_toNat_eq
      rw [h]
      rfl
  rw [msbs_eq_mappedPath, hnat, toIpv4Mapped]
  by_cases h : v6.toNat / 2 ^ 32 = 65535
  · rw [if_pos h]
    exact iff_of_true rfl h
  · rw [if_neg h]
    exact iff_of_false Bool.false_ne_true h

/-- **The gate lets through exactly the paths apart from the mapped range.** -/
theorem touchesMappedRange_eq_false {v6 : BitVec 128} {prefixLen : ℕ} (h : 1 ≤ prefixLen) :
    touchesMappedRange (V6 v6) prefixLen = false ↔
      Apart (ipToBits (V6 v6) prefixLen) mappedPath := by
  have hlen : mappedPath.length = 96 := by decide
  show (if 1 ≤ prefixLen ∧ prefixLen ≤ 96 then _ else _) = false ↔ Apart (msbs v6 prefixLen) _
  by_cases hle : prefixLen ≤ 96
  · have hpfx : msbs v6 prefixLen <+: mappedPath ↔
        msbs v6 prefixLen = mappedPath.take prefixLen := by
      rw [List.prefix_iff_eq_take, length_msbs]
    have hext : mappedPath <+: msbs v6 prefixLen → msbs v6 prefixLen <+: mappedPath := by
      intro hm
      have hle' := hm.length_le
      rw [hlen, length_msbs] at hle'
      rw [hm.eq_of_length (by rw [hlen, length_msbs]; omega)]
    rw [if_pos ⟨h, hle⟩, beq_eq_false_iff_ne, ne_eq, ushiftRight_eq_iff (by omega),
      msbs_mappedRange hle, ← hpfx]
    exact ⟨fun hne => ⟨hne, fun hm => hne (hext hm)⟩, fun hap => hap.1⟩
  · have hpfx : mappedPath <+: msbs v6 prefixLen ↔ msbs v6 96 = mappedPath := by
      rw [List.prefix_iff_eq_take, hlen, take_msbs _ (by omega), eq_comm]
    have hnot : ¬msbs v6 prefixLen <+: mappedPath := by
      intro hm
      have := hm.length_le
      rw [hlen, length_msbs] at this
      exact hle this
    rw [if_neg (fun hc => hle hc.2), ← Bool.not_eq_true, toIpv4Mapped_isSome, ← hpfx]
    exact ⟨fun hne => ⟨hnot, hne⟩, fun hap => hap.2⟩

/-! ### Admitted networks -/

namespace Network

/-- The networks a claim may vote on: no default route, and no IPv6 text near the mapped range. -/
def Admitted (N : Network) : Prop := 1 ≤ N.mask ∧ touchesMappedRange N.ip N.mask = false

theorem path_V4 {N : Network} {addr : BitVec 32} (h : N.ip = V4 addr) :
    N.path = mappedPath ++ msbs addr N.mask := by
  rw [path, h, ipToBits_V4]

theorem apart_of_V6 {N : Network} (hN : N.Admitted) {addr : BitVec 128} (h : N.ip = V6 addr) :
    Apart N.path mappedPath := by
  have := hN.2
  rw [h, touchesMappedRange_eq_false hN.1] at this
  rwa [path, h]

theorem length_path_le (N : Network) : N.path.length ≤ 128 := by
  rw [path, length_ipToBits]
  exact numBits_le N.mask_le

/-- **A path that neither is nor covers the mapped range is that of an admitted network**, which it
is written as. -/
theorem exists_bitsToNetwork {path : List Bool} (hlen : path.length ≤ 128)
    (hclear : ¬path <+: mappedPath) :
    ∃ N : Network, N.Admitted ∧ N.path = path ∧ bitsToNetwork path = .ok N.text := by
  obtain ⟨ip, mask, htext, hle, hzero, hpath, hmapped⟩ := bitsToNetwork_spec hlen
  refine ⟨⟨ip, mask, hle, hzero⟩, ?_, hpath, htext⟩
  cases ip with
  | V4 addr =>
    refine ⟨Nat.pos_of_ne_zero fun hz => hclear ?_, rfl⟩
    dsimp only at hz
    rw [← hpath, ipToBits_V4, hz]
    exact List.prefix_rfl
  | V6 addr =>
    have hpos : 1 ≤ mask := by
      apply Nat.pos_of_ne_zero
      rintro rfl
      exact hclear (hpath ▸ List.nil_prefix)
    refine ⟨hpos, (touchesMappedRange_eq_false hpos).2 ⟨hpath ▸ hclear, fun hext => ?_⟩⟩
    rw [hpath] at hext
    obtain ⟨addr', haddr⟩ := hmapped hext
    cases haddr

/-- **Networks with one path**: they are equal, or one is written as IPv4 and the other as the IPv6
address that it is mapped to. -/
theorem path_eq {N N' : Network} (h : N.path = N'.path) :
    N = N' ∨ (∃ addr, N.ip = .V4 addr ∧ N'.ip = .V6 (V4 addr).netrange ∧ N'.mask = N.mask + 96) ∨
      ∃ addr, N'.ip = .V4 addr ∧ N.ip = .V6 (V4 addr).netrange ∧ N.mask = N'.mask + 96 := by
  obtain ⟨hnet, hnum⟩ := eq_of_ipToBits_eq h N.hostZero N'.hostZero
  cases hip : N.ip with
  | V4 a =>
    cases hip' : N'.ip with
    | V4 b =>
      rw [hip, hip'] at hnet hnum
      refine .inl (ext ?_ (Nat.add_right_cancel hnum))
      rw [hip, hip', V4_injective_netrange hnet]
    | V6 b =>
      rw [hip, hip'] at hnet hnum
      exact .inr (.inl ⟨a, rfl, by rw [hnet]; rfl, hnum.symm⟩)
  | V6 a =>
    cases hip' : N'.ip with
    | V4 b =>
      rw [hip, hip'] at hnet hnum
      exact .inr (.inr ⟨b, rfl, by rw [← hnet]; rfl, hnum⟩)
    | V6 b =>
      rw [hip, hip'] at hnet hnum
      refine .inl (ext ?_ hnum)
      rw [hip, hip']
      exact congrArg V6 hnet

/-- **Admitted networks with one path are equal**: an IPv4 path lies in the mapped range, an
admitted IPv6 path does not, and within one notation the path determines the network. -/
theorem path_injective {N N' : Network} (hN : N.Admitted) (hN' : N'.Admitted)
    (h : N.path = N'.path) : N = N' := by
  rcases path_eq h with heq | ⟨addr, hip, hip', -⟩ | ⟨addr, hip', hip, -⟩
  · exact heq
  · refine absurd (List.prefix_append mappedPath (msbs addr N.mask)) ?_
    rw [← path_V4 hip, h]
    exact (apart_of_V6 hN' hip').2
  · refine absurd (List.prefix_append mappedPath (msbs addr N'.mask)) ?_
    rw [← path_V4 hip', ← h]
    exact (apart_of_V6 hN hip).2

end Network

/-! ### One spelling for each network -/

/-- The leading bits of an address of its own family. -/
def IpAddr.leading : IpAddr → ℕ → List Bool
  | V4 addr, len => msbs addr len
  | V6 addr, len => msbs addr len

theorem width_V4_ne (addr : BitVec 32) (addr' : BitVec 128) : (V4 addr).width ≠ (V6 addr').width :=
  show 32 ≠ 128 by decide

/-- Within a family, the paths are the same when the leading bits are. -/
theorem ipToBits_eq_iff {ip ip' : IpAddr} {len : ℕ} (h : ip.width = ip'.width) :
    ipToBits ip len = ipToBits ip' len ↔ ip.leading len = ip'.leading len := by
  cases ip with
  | V4 addr =>
    cases ip' with
    | V4 addr' => rw [ipToBits_V4, ipToBits_V4, List.append_cancel_left_eq, leading, leading]
    | V6 addr' => exact absurd h (width_V4_ne _ _)
  | V6 addr =>
    cases ip' with
    | V4 addr' => exact absurd h.symm (width_V4_ne _ _)
    | V6 addr' => exact Iff.rfl

theorem Network.eq_iff {N N' : Network} :
    N = N' ↔ N.ip.width = N'.ip.width ∧ N.mask = N'.mask ∧ N.path = N'.path := by
  constructor
  · rintro rfl
    exact ⟨rfl, rfl, rfl⟩
  · rintro ⟨hwidth, hmask, hpath⟩
    rcases Network.path_eq hpath with heq | ⟨addr, hip, hip', -⟩ | ⟨addr, hip', hip, -⟩
    · exact heq
    · rw [hip, hip'] at hwidth
      exact absurd hwidth (width_V4_ne _ _)
    · rw [hip, hip'] at hwidth
      exact absurd hwidth.symm (width_V4_ne _ _)

/-- A text that is accepted was read as an address, which is that of the network but for its host
bits. -/
theorem canonicalConsensusPrefix_reads {text : String} {r : String × IpAddr × ℕ}
    (h : canonicalConsensusPrefix text = .ok r) :
    ∃ (N : Network) (given : IpAddr), r = (N.text, N.ip, N.mask) ∧ ReadsAs text given N.mask ∧
      N.ip.width = given.width ∧ N.path = ipToBits given N.mask := by
  obtain ⟨p, ⟨given, len, hreads, hle, rfl⟩, rfl⟩ := canonicalConsensusPrefix_eq_ok_iff.1 h
  obtain ⟨N, hN, rfl, hpath⟩ := Network.exists_canonicalized hle
  have hwidth := width_canonicalized given N.mask
  rw [hN] at hwidth
  rw [hN]
  exact ⟨N, given, rfl, hreads, hwidth, hpath⟩

/-- **Consensus prefixes have one spelling for each network.**  What a text is normalised to has no
host bits, is described by the leading bits of the address that was given, and is normalised to
itself; two texts come to the same exactly if they have the family, the length and so many leading
bits of the address in common. -/
theorem canonicalConsensusPrefix_spelling :
    (∀ s t ip len, canonicalConsensusPrefix s = .ok (t, ip, len) →
      HostZero ip len ∧
        (∃ given, ReadsAs s given len ∧ given.width = ip.width ∧
          ipToBits ip len = (msbs given.netrange 128).take (given.numBits len)) ∧
        canonicalConsensusPrefix t = .ok (t, ip, len)) ∧
    ∀ s t ip len s' t' ip' len', canonicalConsensusPrefix s = .ok (t, ip, len) →
      canonicalConsensusPrefix s' = .ok (t', ip', len') →
        ∀ given given', ReadsAs s given len → ReadsAs s' given' len' →
          (t = t' ↔ given.width = given'.width ∧ len = len' ∧
            given.leading len = given'.leading len') := by
  constructor
  · intro s t ip len h
    obtain ⟨N, given, heq, hreads, hwidth, hpath⟩ := canonicalConsensusPrefix_reads h
    cases heq
    refine ⟨N.hostZero, ⟨given, hreads, hwidth.symm, ?_⟩, canonicalConsensusPrefix_text N⟩
    rw [take_msbs _ (numBits_le (hwidth ▸ N.mask_le))]
    exact hpath
  · intro s t ip len s' t' ip' len' h h' given given' hgiven hgiven'
    obtain ⟨N, given₁, heq, hreads, hwidth, hpath⟩ := canonicalConsensusPrefix_reads h
    obtain ⟨N', given₂, heq', hreads', hwidth', hpath'⟩ := canonicalConsensusPrefix_reads h'
    cases heq
    cases heq'
    obtain ⟨rfl, -⟩ := hgiven.unique hreads
    obtain ⟨rfl, -⟩ := hgiven'.unique hreads'
    rw [Network.text_injective.eq_iff, Network.eq_iff, hpath, hpath', hwidth, hwidth']
    refine and_congr_right fun hfamily => and_congr_right fun hmask => ?_
    rw [hmask]
    exact ipToBits_eq_iff hfamily

/-- Host bits, upper case, zeros in front of a number and zeros written out make no difference. -/
example : canonicalConsensusPrefix "2001:0DB8:0:0::1/032" =
    canonicalConsensusPrefix "2001:db8::/32" := by
  decide

end AsmapQuorum

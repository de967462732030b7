import AsmapQuorum.Net.Prefix

/-!
# Counting the addresses of a network

`network_address_count` reads the length of a network back from its text, and takes the text with a
dot for an IPv4 network.

* `networkAddressCount` — the function of the source; a length past the width would abort.
* `dot_mem_networkText` — a network without host bits is written with a dot exactly in the mapped
  range.
* `networkAddressCount_spec` — **the count of the text of a path** of at most 128 bits, which is
  that of the addresses below the path but for the whole space: `u128` has no room for `2 ^ 128`.
-/

namespace AsmapQuorum

open Numeral IpAddr

inductive NetworkCountError where
  /-- The text has no `/LEN` suffix. -/
  | Invalid (network : String)
  /-- The prefix length did not parse. -/
  | PrefixLen
  deriving DecidableEq, Repr

/-- `str::rsplit_once`. -/
def rsplitOnce (sep : Char) (s : List Char) : Option (List Char × List Char) :=
  (splitOnce sep s.reverse).map fun r => (r.2.reverse, r.1.reverse)

/-- `u128::MAX`. -/
def u128Max : ℕ := 2 ^ 128 - 1

/-- The error of the source inside the abort of its unsigned subtractions. -/
def networkAddressCount (net : String) : Except Panic (Except NetworkCountError ℕ) :=
  match rsplitOnce '/' net.toList with
  | none => .ok (.error (.Invalid net))
  | some (_, len) =>
    match parseUnsigned (2 ^ 32) len with
    | none => .ok (.error .PrefixLen)
    | some prefixLen =>
      if net.toList.contains '.' then
        if 32 < prefixLen then .error .subtractOverflow else .ok (.ok (2 ^ (32 - prefixLen)))
      else if 128 < prefixLen then .error .subtractOverflow
      -- `checked_shl` fails from a shift by 128 on
      else .ok (.ok (if 128 - prefixLen < 128 then 2 ^ (128 - prefixLen) else u128Max))

theorem rsplitOnce_append {sep : Char} {t : List Char} (h : sep ∉ t) (s : List Char) :
    rsplitOnce sep (s ++ sep :: t) = some (s, t) := by
  have hreverse : (s ++ sep :: t).reverse = t.reverse ++ sep :: s.reverse := by simp
  rw [rsplitOnce, hreverse, splitOnce_append (by simpa using h)]
  simp

theorem rsplitOnce_networkText (ip : IpAddr) (prefixLen : ℕ) :
    rsplitOnce '/' (networkText ip prefixLen) = some (ip.display, Nat.toDigits 10 prefixLen) :=
  rsplitOnce_append (notMem_toDigits rfl prefixLen) _

theorem dot_mem_displayV4 (addr : BitVec 32) : '.' ∈ displayV4 addr := by
  have hlen := length_octets addr
  rw [displayV4]
  cases hoctets : octets addr with
  | nil =>
    rw [hoctets] at hlen
    cases hlen
  | cons a rest =>
    cases rest with
    | nil =>
      rw [hoctets] at hlen
      cases hlen
    | cons b rest => simp [separated]

/-- The high bits of an address that is written in the mapped form. -/
theorem msbs_of_toIpv4Mapped {addr : BitVec 128} {ipv4 : BitVec 32}
    (h : toIpv4Mapped addr = some ipv4) : msbs addr 96 = mappedPath := by
  rw [toIpv4Mapped] at h
  split at h
  · next hhigh =>
    refine msbs_eq_mappedPath.2 (BitVec.eq_of_toNat_eq ?_)
    rw [BitVec.toNat_ushiftRight, Nat.shiftRight_eq_div_pow, hhigh]
    rfl
  · cases h

/-- **A dot is written exactly in the mapped range**: an IPv6 address with a prefix of less than 96
bits has bit 95 clear. -/
theorem dot_mem_networkText {ip : IpAddr} {prefixLen : ℕ} (hzero : HostZero ip prefixLen)
    (hmapped : mappedPath <+: ipToBits ip prefixLen → ∃ addr, ip = V4 addr) :
    '.' ∈ networkText ip prefixLen ↔ mappedPath <+: ipToBits ip prefixLen := by
  have hlen : '.' ∉ Nat.toDigits 10 prefixLen := notMem_toDigits rfl prefixLen
  have hdisplay : '.' ∈ networkText ip prefixLen ↔ '.' ∈ ip.display := by
    simp [networkText, hlen]
  rw [hdisplay]
  cases ip with
  | V4 addr =>
    rw [ipToBits_V4]
    exact iff_of_true (dot_mem_displayV4 addr) (List.prefix_append _ _)
  | V6 addr =>
    have hnot : ¬mappedPath <+: ipToBits (V6 addr) prefixLen := by
      intro hpath
      obtain ⟨addr', heq⟩ := hmapped hpath
      cases heq
    refine iff_of_false (dot_notMem_displayV6 ?_) hnot
    cases hform : toIpv4Mapped addr with
    | none => rfl
    | some ipv4 =>
      have hhigh := msbs_of_toIpv4Mapped hform
      have hbit : addr.getMsbD 95 = true := by
        have hset : mappedPath = msbs (0xffff00000000#128) 96 := by decide
        rw [hset, msbs_eq_iff] at hhigh
        rw [hhigh 95 (by decide)]
        decide
      by_cases hshort : prefixLen ≤ 95
      · have hclear : addr.getMsbD 95 = false := hzero 95 hshort
        rw [hclear] at hbit
        cases hbit
      · refine absurd ?_ hnot
        rw [List.prefix_iff_eq_take, show mappedPath.length = 96 from rfl, ← hhigh]
        exact (take_msbs addr (show 96 ≤ prefixLen by omega)).symm

/-- Up to the width a shift is exact, but for that of the whole space. -/
theorem count_eq_min {len : ℕ} :
    (if 128 - len < 128 then 2 ^ (128 - len) else u128Max) = min (2 ^ (128 - len)) u128Max := by
  split
  · next hlt =>
    have hpow : 2 ^ (128 - len) ≤ 2 ^ 127 := Nat.pow_le_pow_right (by decide) (by omega)
    exact (Nat.min_eq_left (hpow.trans (by decide))).symm
  · next hge =>
    obtain rfl : len = 0 := by omega
    rfl

/-- **The count of the text of a path.** -/
theorem networkAddressCount_spec {path : List Bool} (h : path.length ≤ 128) :
    ∃ net, bitsToNetwork path = .ok net ∧ (net.toList.contains '.' = true ↔ mappedPath <+: path) ∧
      networkAddressCount net = .ok (.ok (min (2 ^ (128 - path.length)) u128Max)) := by
  obtain ⟨ip, prefixLen, hnet, hlen, hzero, hpath, hmapped⟩ := bitsToNetwork_spec h
  have hdot := dot_mem_networkText hzero (by rwa [hpath])
  rw [hpath, ← List.contains_iff_mem] at hdot
  refine ⟨_, hnet, by rwa [String.toList_ofList], ?_⟩
  rw [networkAddressCount, String.toList_ofList, rsplitOnce_networkText]
  dsimp only
  cases ip with
  | V4 addr =>
    have hle : prefixLen ≤ 32 := hlen
    have hin : mappedPath <+: path := by
      rw [← hpath, ipToBits_V4]
      exact List.prefix_append _ _
    have hbits : path.length = prefixLen + 96 := by
      rw [← hpath, length_ipToBits]
      rfl
    have hpow : 2 ^ (32 - prefixLen) ≤ 2 ^ 32 := Nat.pow_le_pow_right (by decide) (by omega)
    rw [parseUnsigned_toDigits (by omega)]
    dsimp only
    rw [if_pos (hdot.2 hin), if_neg (by omega), hbits,
      show 128 - (prefixLen + 96) = 32 - prefixLen by
        omega, Nat.min_eq_left (hpow.trans (by decide))]
  | V6 addr =>
    have hle : prefixLen ≤ 128 := hlen
    have hout : ¬mappedPath <+: path := by
      intro hin
      obtain ⟨addr', heq⟩ := hmapped hin
      cases heq
    have hbits : path.length = prefixLen := by
      rw [← hpath, length_ipToBits]
      rfl
    rw [parseUnsigned_toDigits (by omega)]
    dsimp only
    rw [if_neg (mt hdot.1 hout), if_neg (by omega), hbits, count_eq_min]

end AsmapQuorum

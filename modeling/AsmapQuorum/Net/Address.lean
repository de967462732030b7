import AsmapQuorum.Lib.Numeral

/-!
# IP addresses and their text

The address types of the Rust standard library with the text forms the repository relies on:
`Display` (lower-case hexadecimal groups, the first longest run of at least two zero groups as `::`,
the IPv4-mapped form with a dotted quad) and `FromStr` (the recursive-descent reader, IPv4 tried
first).

* `IpAddr.display`, `IpAddr.parse` — the two directions, on lists of characters.
* `IpAddr.parse_display` — **every address is read back from its text**.
* `IpAddr.ascii_of_mem_display`, `IpAddr.length_display_le` — which characters a text has, and how
  many; `IpAddr.notMem_of_parse` — which a text that is parsed has not.
-/

namespace AsmapQuorum

open Numeral

inductive IpAddr where
  | V4 (addr : BitVec 32)
  | V6 (addr : BitVec 128)
  deriving DecidableEq, Repr

namespace IpAddr

/-! ### Display -/

/-- The numbers in the base, separated; a separator in front of all but the number of index 0. -/
def separated (sep : Char) (base : ℕ) : ℕ → List ℕ → List Char
  | _, [] => []
  | i, n :: rest =>
    (if i > 0 then [sep] else []) ++ Nat.toDigits base n ++ separated sep base (i + 1) rest

def octets (addr : BitVec 32) : List ℕ := fixed 256 4 addr.toNat

def segments (addr : BitVec 128) : List ℕ := fixed 65536 8 addr.toNat

def displayV4 (addr : BitVec 32) : List Char := separated '.' 10 0 (octets addr)

/-- A run of zero segments. -/
structure Span where
  start : ℕ
  len : ℕ
  deriving DecidableEq, Repr

/-- The loop that finds the longest run of zero segments, the first one on a tie. -/
def zeroesLoop : List ℕ → ℕ → Span → Span → Span
  | [], _, _, longest => longest
  | segment :: rest, i, current, longest =>
    if segment = 0 then
      let current : Span := ⟨if current.len = 0 then i else current.start, current.len + 1⟩
      zeroesLoop rest (i + 1) current (if current.len > longest.len then current else longest)
    else zeroesLoop rest (i + 1) ⟨0, 0⟩ longest

def zeroes (segs : List ℕ) : Span := zeroesLoop segs 0 ⟨0, 0⟩ ⟨0, 0⟩

/-- `Ipv6Addr::to_ipv4_mapped`. -/
def toIpv4Mapped (addr : BitVec 128) : Option (BitVec 32) :=
  if addr.toNat / 2 ^ 32 = 0xffff then some (addr.setWidth 32) else none

def displayV6 (addr : BitVec 128) : List Char :=
  match toIpv4Mapped addr with
  | some ipv4 => "::ffff:".toList ++ displayV4 ipv4
  | none =>
    let segs := segments addr
    let z := zeroes segs
    if z.len > 1 then
      separated ':' 16 0 (segs.take z.start) ++ "::".toList ++
        separated ':' 16 0 (segs.drop (z.start + z.len))
    else separated ':' 16 0 segs

def display : IpAddr → List Char
  | V4 addr => displayV4 addr
  | V6 addr => displayV6 addr

/-! ### FromStr -/

def readGivenChar (target : Char) : List Char → Option (List Char)
  | c :: rest => if c = target then some rest else none
  | [] => none

/-- What `inner` reads, behind a separator unless the index is 0. -/
def readSeparator {α : Type} (sep : Char) (index : ℕ) (inner : List Char → Option (α × List Char))
    (s : List Char) : Option (α × List Char) :=
  if index > 0 then (readGivenChar sep s).bind inner else inner s

/-- The octets of index `i` and up; the first argument counts those that are left. -/
def readOctets : ℕ → ℕ → List Char → Option (List ℕ × List Char)
  | 0, _, s => some ([], s)
  | left + 1, i, s => do
    let (octet, s) ← readSeparator '.' i (readNumber 10 3 false 256) s
    let (octets, s) ← readOctets left (i + 1) s
    return (octet :: octets, s)

def readIpv4Addr (s : List Char) : Option (BitVec 32 × List Char) := do
  let (octets, s) ← readOctets 4 0 s
  return (BitVec.ofNat 32 (value 256 octets), s)

/-- `read_groups`: the groups of index `i` and up with at most `left` of them, whether they end in
an embedded IPv4 address, and the rest of the text. -/
def readGroups : ℕ → ℕ → List Char → List ℕ × Bool × List Char
  | 0, _, s => ([], false, s)
  | left + 1, i, s =>
    match if left ≥ 1 then readSeparator ':' i readIpv4Addr s else none with
    | some (v4, s) => (fixed 65536 2 v4.toNat, true, s)
    | none =>
      match readSeparator ':' i (readNumber 16 4 true 65536) s with
      | some (group, s) =>
        let (groups, ipv4, s) := readGroups left (i + 1) s
        (group :: groups, ipv4, s)
      | none => ([], false, s)

def readIpv6Addr (s : List Char) : Option (BitVec 128 × List Char) :=
  let (head, headIpv4, s) := readGroups 8 0 s
  if head.length = 8 then some (BitVec.ofNat 128 (value 65536 head), s)
  else if headIpv4 then none
  else do
    let s ← readGivenChar ':' s
    let s ← readGivenChar ':' s
    let (tail, _, s) := readGroups (8 - (head.length + 1)) 0 s
    let groups := head ++ List.replicate (8 - head.length - tail.length) 0 ++ tail
    return (BitVec.ofNat 128 (value 65536 groups), s)

def readIpAddr (s : List Char) : Option (IpAddr × List Char) :=
  match readIpv4Addr s with
  | some (addr, s) => some (V4 addr, s)
  | none => (readIpv6Addr s).map fun r => (V6 r.1, r.2)

/-- `str::parse::<IpAddr>`: an address and nothing behind it. -/
def parse (s : List Char) : Option IpAddr :=
  match readIpAddr s with
  | some (ip, []) => some ip
  | _ => none

/-! ### Reading a dotted quad -/

theorem stops_nil (radix : ℕ) : Stops radix [] := by
  intro c hc
  cases hc

theorem stops_cons {radix : ℕ} {c : Char} (h : toDigit radix c = none) (s : List Char) :
    Stops radix (c :: s) := by
  intro c' hc'
  rw [List.head?_cons, Option.mem_some_iff] at hc'
  rw [← hc', h]

/-- Behind a number of a list stands a separator, or what follows the list. -/
theorem stops_separated {radix base i : ℕ} {sep : Char} (hsep : toDigit radix sep = none)
    {s : List Char} (hs : Stops radix s) (ns : List ℕ) :
    Stops radix (separated sep base (i + 1) ns ++ s) := by
  cases ns with
  | nil => exact hs
  | cons n ns =>
    rw [separated, if_pos (Nat.succ_pos i)]
    exact stops_cons hsep _

@[simp] theorem readSeparator_zero {α : Type} (sep : Char)
    (inner : List Char → Option (α × List Char)) (s : List Char) :
    readSeparator sep 0 inner s = inner s := if_neg (Nat.lt_irrefl 0)

theorem readSeparator_append {α : Type} (sep : Char) (i : ℕ)
    (inner : List Char → Option (α × List Char)) (s : List Char) :
    readSeparator sep i inner ((if i > 0 then [sep] else []) ++ s) = inner s := by
  by_cases hi : i > 0
  · simp [readSeparator, hi, readGivenChar]
  · simp [readSeparator, hi]

theorem readOctets_separated {ns : List ℕ} (h : ∀ n ∈ ns, n < 256) {s : List Char}
    (hs : Stops 10 s) (i : ℕ) :
    readOctets ns.length i (separated '.' 10 i ns ++ s) = some (ns, s) := by
  induction ns generalizing i with
  | nil => rfl
  | cons n ns ih =>
    have hn : n < 256 := h n (by simp)
    have hread : readNumber 10 3 false 256
        (Nat.toDigits 10 n ++ (separated '.' 10 (i + 1) ns ++ s)) =
          some (n, separated '.' 10 (i + 1) ns ++ s) :=
      readNumber_toDigits (by decide) (by decide) (by decide) (by omega) hn
        (stops_separated (by decide) hs ns)
    have hrest := ih (fun m hm => h m (by simp [hm])) (i + 1)
    rw [separated, List.length_cons, readOctets, List.append_assoc, List.append_assoc,
      readSeparator_append, hread]
    simp only [bind, Option.bind_some, hrest, pure]

theorem length_octets (addr : BitVec 32) : (octets addr).length = 4 := length_fixed _ _ _

theorem value_octets (addr : BitVec 32) : value 256 (octets addr) = addr.toNat := by
  rw [octets, value_fixed]
  exact Nat.mod_eq_of_lt addr.isLt

/-- **A dotted quad is read back.** -/
theorem readIpv4Addr_displayV4 (addr : BitVec 32) {s : List Char} (hs : Stops 10 s) :
    readIpv4Addr (displayV4 addr ++ s) = some (addr, s) := by
  have hread : readOctets (octets addr).length 0 (separated '.' 10 0 (octets addr) ++ s) =
      some (octets addr, s) :=
    readOctets_separated (fun n hn => lt_of_mem_fixed (by decide) hn) hs 0
  rw [length_octets] at hread
  simp only [readIpv4Addr, displayV4, hread, value_octets, BitVec.ofNat_toNat, BitVec.setWidth_eq,
    bind, Option.bind_some, pure]

/-- Without a dot there is no dotted quad. -/
theorem readIpv4Addr_eq_none {s : List Char} (h : '.' ∉ s) : readIpv4Addr s = none := by
  have hoctets : readOctets 4 0 s = none := by
    rw [readOctets]
    simp only [readSeparator, gt_iff_lt, lt_irrefl, if_false]
    cases hread : readNumber 10 3 false 256 s with
    | none => rfl
    | some r =>
      obtain ⟨n, rest⟩ := r
      have hdot : '.' ∉ rest := fun hmem => h ((suffix_of_readNumber hread).subset hmem)
      have hsep : readGivenChar '.' rest = none := by
        cases rest with
        | nil => rfl
        | cons c rest =>
          rw [readGivenChar, if_neg]
          rintro rfl
          exact hdot (by simp)
      simp [readOctets, readSeparator, hsep]
  simp only [readIpv4Addr, hoctets, bind, Option.bind_none]

theorem readIpv4Addr_of_stops {s : List Char} (h : Stops 10 s) : readIpv4Addr s = none := by
  have hread : readNumber 10 3 false 256 s = none := readNumber_of_stops h
  simp only [readIpv4Addr, readOctets, readSeparator, gt_iff_lt, lt_irrefl, if_false, hread, bind,
    Option.bind_none]

/-! ### The characters of a text -/

theorem mem_toDigits {base n : ℕ} {c : Char} (hb : 1 < base) (h : c ∈ Nat.toDigits base n) :
    ∃ d < base, c = d.digitChar := by
  induction n using Nat.strong_induction_on with
  | _ n ih =>
    by_cases hn : n < base
    · rw [Nat.toDigits_of_lt_base hn, List.mem_singleton] at h
      exact ⟨n, hn, h⟩
    · rw [Nat.toDigits_of_base_le hb (Nat.le_of_not_lt hn), List.mem_append, List.mem_singleton]
        at h
      rcases h with h | h
      · exact ih (n / base) (Nat.div_lt_self (by omega) hb) h
      · exact ⟨n % base, Nat.mod_lt n (by omega), h⟩

/-- What is no digit is in no number. -/
theorem notMem_toDigits {x : Char} (hx : toDigit 10 x = none) (n : ℕ) : x ∉ Nat.toDigits 10 n := by
  intro hmem
  obtain ⟨d, hd, rfl⟩ := mem_toDigits (by decide) hmem
  rw [toDigit_digitChar hd (by decide)] at hx
  cases hx

theorem mem_separated {sep : Char} {base i : ℕ} {ns : List ℕ} {c : Char} (hb : 1 < base)
    (h : c ∈ separated sep base i ns) : c = sep ∨ ∃ d < base, c = d.digitChar := by
  induction ns generalizing i with
  | nil => cases h
  | cons n ns ih =>
    rw [separated, List.mem_append, List.mem_append] at h
    rcases h with (h | h) | h
    · left
      split at h
      · exact List.mem_singleton.1 h
      · cases h
    · exact .inr (mem_toDigits hb h)
    · exact ih h

/-- A character that is neither the separator nor a hexadecimal digit is not in a list of
numbers. -/
theorem not_mem_separated {sep : Char} {base i : ℕ} {ns : List ℕ} {c : Char} (hb : 1 < base)
    (hb' : base ≤ 16) (hsep : c ≠ sep) (hdigit : toDigit 16 c = none) :
    c ∉ separated sep base i ns := by
  intro h
  rcases mem_separated hb h with h | ⟨d, hd, rfl⟩
  · exact hsep h
  · rw [toDigit_digitChar (by omega) le_rfl] at hdigit
    cases hdigit

theorem length_toDigits_le {base n k : ℕ} (hb : 1 < base) (hk : 0 < k) (hn : n < base ^ k) :
    (Nat.toDigits base n).length ≤ k := (Nat.length_toDigits_le_iff hb hk).2 hn

theorem length_separated_le {sep : Char} {base k : ℕ} (hb : 1 < base) (hk : 0 < k) {ns : List ℕ}
    (h : ∀ n ∈ ns, n < base ^ k) (i : ℕ) :
    (separated sep base i ns).length ≤ ns.length * (k + 1) := by
  induction ns generalizing i with
  | nil => simp [separated]
  | cons n ns ih =>
    have hn := length_toDigits_le hb hk (h n (by simp))
    have hns := ih (fun m hm => h m (by simp [hm])) (i + 1)
    have hsep : (if i > 0 then [sep] else []).length ≤ 1 := by split <;> simp
    rw [separated, List.length_append, List.length_append, List.length_cons, Nat.succ_mul]
    omega

/-! ### Reading groups -/

/-- No further group of index `i` can be read. -/
def Ends (i : ℕ) (s : List Char) : Prop :=
  readSeparator ':' i (readNumber 16 4 true 65536) s = none

theorem ends_nil (i : ℕ) : Ends i [] := by
  unfold Ends readSeparator
  split
  · rfl
  · rfl

theorem stops_colon {radix : ℕ} (s : List Char) : Stops radix (':' :: s) := stops_cons rfl s

theorem ends_colons (i : ℕ) (s : List Char) : Ends i (':' :: ':' :: s) := by
  unfold Ends readSeparator
  split
  · show readNumber 16 4 true 65536 (':' :: s) = none
    exact readNumber_of_stops (stops_colon s)
  · exact readNumber_of_stops (stops_colon _)

theorem readSeparator_readIpv4Addr {s : List Char} (h : '.' ∉ s) (i : ℕ) :
    readSeparator ':' i readIpv4Addr s = none := by
  unfold readSeparator
  split
  · cases s with
    | nil => rfl
    | cons c s =>
      rw [readGivenChar]
      split
      · exact readIpv4Addr_eq_none fun hmem => h (by simp [hmem])
      · rfl
  · exact readIpv4Addr_eq_none h

/-- **Groups are read back**, up to the limit or the end of the list. -/
theorem readGroups_separated {ns : List ℕ} (h : ∀ n ∈ ns, n < 65536) {s : List Char}
    (hdot : '.' ∉ s) (hs : Stops 16 s) {left i : ℕ} (hle : ns.length ≤ left)
    (hend : left = ns.length ∨ Ends (i + ns.length) s) :
    readGroups left i (separated ':' 16 i ns ++ s) = (ns, false, s) := by
  induction ns generalizing left i with
  | nil =>
    cases left with
    | zero => rfl
    | succ left =>
      have hnone : readSeparator ':' i (readNumber 16 4 true 65536) s = none :=
        hend.resolve_left (by simp)
      rw [separated, List.nil_append, readGroups, readSeparator_readIpv4Addr hdot, hnone]
      simp
  | cons n ns ih =>
    have hn : n < 65536 := h n (by simp)
    obtain ⟨left, rfl⟩ : ∃ l, left = l + 1 := ⟨left - 1, by rw [List.length_cons] at hle; omega⟩
    simp only [List.length_cons] at hle hend
    have hread : readNumber 16 4 true 65536
        (Nat.toDigits 16 n ++ (separated ':' 16 (i + 1) ns ++ s)) =
          some (n, separated ':' 16 (i + 1) ns ++ s) :=
      readNumber_toDigits (by decide) (by decide) (by decide) hn hn
        (stops_separated (by decide) hs ns)
    have hnodot : '.' ∉ separated ':' 16 i (n :: ns) ++ s := by
      rw [List.mem_append, not_or]
      exact ⟨not_mem_separated (by decide) le_rfl (by decide) (by decide), hdot⟩
    have hrest : readGroups left (i + 1) (separated ':' 16 (i + 1) ns ++ s) = (ns, false, s) :=
      ih (fun m hm => h m (by simp [hm])) (by omega)
        (hend.imp (by omega) fun hend => by
        rwa [show i + 1 + ns.length = i + (ns.length + 1) by omega])
    rw [readGroups, readSeparator_readIpv4Addr hnodot, separated, List.append_assoc,
      List.append_assoc, readSeparator_append, hread]
    simp only [ite_self, hrest]

/-! ### The zero run -/

/-- Every segment of the run is zero. -/
def ZeroRun (segs : List ℕ) (z : Span) : Prop :=
  ∀ j, z.start ≤ j → j < z.start + z.len → segs[j]? = some 0

theorem zeroRun_zeroesLoop {segs : List ℕ} : ∀ (rest : List ℕ) {i : ℕ} {current longest : Span},
    rest = segs.drop i → ZeroRun segs current →
      (current.len ≠ 0 → current.start + current.len = i) →
      ZeroRun segs longest → ZeroRun segs (zeroesLoop rest i current longest) := by
  intro rest
  induction rest with
  | nil => exact fun _ _ _ hlongest => hlongest
  | cons segment rest ih =>
    intro i current longest hrest hcurrent hi hlongest
    have hget : segs[i]? = some segment := by
      rw [← List.head?_drop, ← hrest, List.head?_cons]
    have hdrop : rest = segs.drop (i + 1) := by
      rw [← List.tail_drop, ← hrest, List.tail_cons]
    rw [zeroesLoop]
    by_cases hzero : segment = 0
    · rw [if_pos hzero]
      have hgrown : ZeroRun segs ⟨if current.len = 0 then
        i else current.start, current.len + 1⟩ := by
        intro j hj₁ hj₂
        by_cases hlen : current.len = 0
        · simp only [hlen, if_true] at hj₁ hj₂
          obtain rfl : j = i := by omega
          rw [hget, hzero]
        · simp only [hlen, if_false] at hj₁ hj₂
          have hend := hi hlen
          by_cases hji : j = i
          · rw [hji, hget, hzero]
          · exact hcurrent j hj₁ (by omega)
      have hmax : ∀ c, ZeroRun segs c →
          ZeroRun segs (if c.len > longest.len then c else longest) := by
        intro c hc
        split
        · exact hc
        · exact hlongest
      refine ih hdrop hgrown (fun _ => ?_) (hmax _ hgrown)
      by_cases hlen : current.len = 0
      · simp only [hlen, if_true]
      · simp only [hlen, if_false]
        have hend := hi hlen
        omega
    · rw [if_neg hzero]
      refine ih hdrop ?_ (fun h => absurd rfl h) hlongest
      intro j _ hj
      exact absurd hj (by simp)

/-- Around a non-empty zero run a list is what stands before it, zeros, and what stands behind
it. -/
theorem zeroes_split (segs : List ℕ) (h : (zeroes segs).len ≠ 0) :
    (zeroes segs).start + (zeroes segs).len ≤ segs.length ∧
      segs.take (zeroes segs).start ++ List.replicate (zeroes segs).len 0 ++
        segs.drop ((zeroes segs).start + (zeroes segs).len) = segs := by
  have hrun : ZeroRun segs (zeroes segs) :=
    zeroRun_zeroesLoop segs rfl (fun j _ hj => absurd hj (by simp)) (fun h => absurd rfl h)
      (fun j _ hj => absurd hj (by simp))
  generalize zeroes segs = z at hrun h ⊢
  have hle : z.start + z.len ≤ segs.length := by
    have hlast := hrun (z.start + z.len - 1) (by omega) (by omega)
    have := (List.getElem?_eq_some_iff.1 hlast).1
    omega
  refine ⟨hle, ?_⟩
  have hmid : (segs.drop z.start).take z.len = List.replicate z.len 0 := by
    refine List.eq_replicate_iff.2 ⟨by simp; omega, fun n hn => ?_⟩
    obtain ⟨j, hj, rfl⟩ := List.mem_iff_getElem.1 hn
    rw [List.length_take, List.length_drop] at hj
    have hzero := hrun (z.start + j) (by omega) (by omega)
    rw [List.getElem_take, List.getElem_drop]
    exact (List.getElem?_eq_some_iff.1 hzero).2
  rw [← hmid, ← List.drop_drop, List.append_assoc, List.take_append_drop, List.take_append_drop]

/-! ### Every address is read back -/

theorem length_segments (addr : BitVec 128) : (segments addr).length = 8 := length_fixed _ _ _

theorem lt_of_mem_segments {addr : BitVec 128} {n : ℕ} (h : n ∈ segments addr) : n < 65536 :=
  lt_of_mem_fixed (by decide) h

theorem value_segments (addr : BitVec 128) : value 65536 (segments addr) = addr.toNat := by
  rw [segments, value_fixed]
  exact Nat.mod_eq_of_lt addr.isLt

theorem readGroups_colon (left : ℕ) (s : List Char) :
    readGroups left 0 (':' :: s) = ([], false, ':' :: s) := by
  cases left with
  | zero => rfl
  | succ left =>
    have hv4 : readSeparator ':' 0 readIpv4Addr (':' :: s) = none :=
      readIpv4Addr_of_stops (stops_colon s)
    have hnum : readSeparator ':' 0 (readNumber 16 4 true 65536) (':' :: s) = none := by
      rw [readSeparator_zero]
      exact readNumber_of_stops (stops_colon s)
    rw [readGroups, hv4, hnum]
    simp

theorem displayV6_of_none {addr : BitVec 128} (h : toIpv4Mapped addr = none) :
    displayV6 addr = if (zeroes (segments addr)).len > 1 then
      separated ':' 16 0 ((segments addr).take (zeroes (segments addr)).start) ++ "::".toList ++
        separated ':' 16 0 ((segments addr).drop
          ((zeroes (segments addr)).start + (zeroes (segments addr)).len))
      else separated ':' 16 0 (segments addr) := by
  rw [displayV6, h]

/-- The mapped form: a dotted quad behind `::ffff:`. -/
theorem readIpv6Addr_mapped {addr : BitVec 128} {ipv4 : BitVec 32}
    (h : toIpv4Mapped addr = some ipv4) : readIpv6Addr (displayV6 addr) = some (addr, []) := by
  have hhigh : addr.toNat / 2 ^ 32 = 65535 := by
    unfold toIpv4Mapped at h
    split at h
    · assumption
    · cases h
  have hlow : ipv4.toNat = addr.toNat % 2 ^ 32 := by
    rw [toIpv4Mapped, if_pos hhigh] at h
    rw [← Option.some.inj h, BitVec.toNat_setWidth]
  have htext : displayV6 addr =
      ':' :: ':' :: (Nat.toDigits 16 65535 ++ (':' :: (displayV4 ipv4 ++ []))) := by
    rw [displayV6, h, List.append_nil]
    rfl
  have hquad : readSeparator ':' 1 readIpv4Addr (':' :: (displayV4 ipv4 ++ [])) =
      some (ipv4, []) := readIpv4Addr_displayV4 ipv4 (stops_nil 10)
  have hgroup : readSeparator ':' 0 (readNumber 16 4 true 65536)
      (Nat.toDigits 16 65535 ++ (':' :: (displayV4 ipv4 ++ []))) =
        some (65535, ':' :: (displayV4 ipv4 ++ [])) := by
    rw [readSeparator_zero]
    exact readNumber_toDigits (by decide) (by decide) (by decide) (by decide) (by decide)
      (stops_colon _)
  have hnone : readSeparator ':' 0 readIpv4Addr
      (Nat.toDigits 16 65535 ++ (':' :: (displayV4 ipv4 ++ []))) = none :=
    readIpv4Addr_of_stops (stops_cons rfl _)
  have htail : readGroups 7 0 (Nat.toDigits 16 65535 ++ (':' :: (displayV4 ipv4 ++ []))) =
      (65535 :: fixed 65536 2 ipv4.toNat, true, []) := by
    rw [readGroups, hnone, hgroup]
    simp only [ite_self]
    rw [readGroups, hquad]
    rfl
  have hvalue : value 65536 ([] ++ List.replicate 5 0 ++ 65535 :: fixed 65536 2 ipv4.toNat) =
      addr.toNat := by
    rw [List.nil_append, value_replicate_zero_append, value_cons, value_fixed, length_fixed, hlow]
    omega
  rw [htext, readIpv6Addr, readGroups_colon]
  simp only [List.length_nil, readGivenChar, if_true, bind, Option.bind_some]
  rw [if_neg (by decide), htail]
  simp only [List.length_cons, length_fixed, Bool.false_eq_true, if_false]
  show some (BitVec.ofNat 128 (value 65536 ([] ++ List.replicate 5 0 ++
    65535 :: fixed 65536 2 ipv4.toNat)), []) = some (addr, [])
  rw [hvalue, BitVec.ofNat_toNat, BitVec.setWidth_eq]

/-- The hexadecimal forms, with and without `::`. -/
theorem readIpv6Addr_unmapped {addr : BitVec 128} (h : toIpv4Mapped addr = none) :
    readIpv6Addr (displayV6 addr) = some (addr, []) := by
  have hdone : some (BitVec.ofNat 128 (value 65536 (segments addr)), ([] : List Char)) =
      some (addr, []) := by
    rw [value_segments, BitVec.ofNat_toNat, BitVec.setWidth_eq]
  have hlen := length_segments addr
  rw [displayV6_of_none h]
  by_cases hz : (zeroes (segments addr)).len > 1
  · obtain ⟨hle, hsplit⟩ := zeroes_split (segments addr) (by omega)
    rw [if_pos hz]
    generalize zeroes (segments addr) = z at hz hle hsplit ⊢
    have hheadlen : ((segments addr).take z.start).length = z.start := by
      rw [List.length_take]
      omega
    have htaillen : ((segments addr).drop (z.start + z.len)).length = 8 - (z.start + z.len) := by
      rw [List.length_drop, hlen]
    have hnodot : '.' ∉ separated ':' 16 0 ((segments addr).drop (z.start + z.len)) :=
      not_mem_separated (by decide) le_rfl (by decide) (by decide)
    have hhead : readGroups 8 0 (separated ':' 16 0 ((segments addr).take z.start) ++
        ':' :: ':' :: separated ':' 16 0 ((segments addr).drop (z.start + z.len))) =
          ((segments addr).take z.start, false,
            ':' :: ':' :: separated ':' 16 0 ((segments addr).drop (z.start + z.len))) :=
      readGroups_separated (fun n hn => lt_of_mem_segments (List.mem_of_mem_take hn))
        (by simpa using hnodot) (stops_colon _) (by omega) (.inr (ends_colons _ _))
    have htail : readGroups (8 - (z.start + 1)) 0
        (separated ':' 16 0 ((segments addr).drop (z.start + z.len)) ++ []) =
          ((segments addr).drop (z.start + z.len), false, []) :=
      readGroups_separated (fun n hn => lt_of_mem_segments (List.mem_of_mem_drop hn)) (by simp)
        (stops_nil 16) (by omega) (.inr (ends_nil _))
    rw [List.append_nil] at htail
    rw [List.append_assoc, show "::".toList = [':', ':'] from rfl, List.cons_append,
      List.cons_append, List.nil_append, readIpv6Addr, hhead]
    simp only [hheadlen, readGivenChar, if_true, bind, Option.bind_some, Bool.false_eq_true,
      if_false, htail, htaillen]
    rw [if_neg (by omega), show 8 - z.start - (8 - (z.start + z.len)) = z.len by omega, hsplit]
    exact hdone
  · have hread : readGroups 8 0 (separated ':' 16 0 (segments addr) ++ []) =
        (segments addr, false, []) :=
      readGroups_separated (fun n hn => lt_of_mem_segments hn) (by simp) (stops_nil 16) (by omega)
        (.inl hlen.symm)
    rw [List.append_nil] at hread
    rw [if_neg hz, readIpv6Addr, hread]
    simp only [hlen, if_true]
    exact hdone

/-- Only the mapped form has a dot. -/
theorem dot_notMem_displayV6 {addr : BitVec 128} (h : toIpv4Mapped addr = none) :
    '.' ∉ displayV6 addr := by
  have hnodot : ∀ ns, '.' ∉ separated ':' 16 0 ns := fun ns =>
    not_mem_separated (by decide) le_rfl (by decide) (by decide)
  rw [displayV6_of_none h]
  split
  · simp [hnodot]
  · exact hnodot _

/-- Neither form of an IPv6 text starts like a dotted quad. -/
theorem readIpv4Addr_displayV6 (addr : BitVec 128) : readIpv4Addr (displayV6 addr) = none := by
  cases h : toIpv4Mapped addr with
  | some ipv4 =>
    rw [displayV6, h]
    exact readIpv4Addr_of_stops (stops_colon _)
  | none => exact readIpv4Addr_eq_none (dot_notMem_displayV6 h)

/-- **Every address is read back from its text.** -/
theorem parse_display (ip : IpAddr) : parse ip.display = some ip := by
  cases ip with
  | V4 addr =>
    have hread := readIpv4Addr_displayV4 addr (stops_nil 10)
    rw [List.append_nil] at hread
    simp only [parse, readIpAddr, display, hread]
  | V6 addr =>
    have hread : readIpv6Addr (displayV6 addr) = some (addr, []) := by
      cases h : toIpv4Mapped addr with
      | some ipv4 => exact readIpv6Addr_mapped h
      | none => exact readIpv6Addr_unmapped h
    simp only [parse, readIpAddr, display, readIpv4Addr_displayV6, hread, Option.map_some]

theorem display_injective : Function.Injective display := by
  intro ip ip' h
  have := parse_display ip'
  rw [← h, parse_display] at this
  exact Option.some.inj this

/-! ### What a text looks like -/

theorem mem_displayV4 {addr : BitVec 32} {c : Char} (h : c ∈ displayV4 addr) :
    c = '.' ∨ ∃ d < 16, c = d.digitChar := by
  rcases mem_separated (by decide) h with h | ⟨d, hd, h⟩
  · exact .inl h
  · exact .inr ⟨d, by omega, h⟩

/-- A text has dots, colons and hexadecimal digits. -/
theorem mem_display {ip : IpAddr} {c : Char} (h : c ∈ ip.display) :
    c = '.' ∨ c = ':' ∨ ∃ d < 16, c = d.digitChar := by
  have hnumbers : ∀ {i ns}, c ∈ separated ':' 16 i ns → c = ':' ∨ ∃ d < 16, c = d.digitChar :=
    fun h => mem_separated (by decide) h
  cases ip with
  | V4 addr => exact (mem_displayV4 h).imp_right .inr
  | V6 addr =>
    cases hm : toIpv4Mapped addr with
    | some ipv4 =>
      rw [display, displayV6, hm, List.mem_append] at h
      rcases h with h | h
      · rw [show "::ffff:".toList = [':', ':', 'f', 'f', 'f', 'f', ':'] from rfl] at h
        have hlit : c = ':' ∨ c = Nat.digitChar 15 := by
          rw [show Nat.digitChar 15 = 'f' from rfl]
          simp only [List.mem_cons, List.not_mem_nil] at h
          tauto
        exact .inr (hlit.imp_right fun h => ⟨15, by decide, h⟩)
      · exact (mem_displayV4 h).imp_right .inr
    | none =>
      rw [display, displayV6_of_none hm] at h
      right
      split at h
      · rw [List.mem_append, List.mem_append] at h
        rcases h with (h | h) | h
        · exact hnumbers h
        · rw [show "::".toList = [':', ':'] from rfl] at h
          exact .inl (by simpa using h)
        · exact hnumbers h
      · exact hnumbers h

/-- Every character of a text is one byte long, and none is a slash. -/
theorem ascii_of_mem_display {ip : IpAddr} {c : Char} (h : c ∈ ip.display) :
    c.utf8Size = 1 ∧ c ≠ '/' := by
  have hdigits : ∀ d < 16, (Nat.digitChar d).utf8Size = 1 ∧ Nat.digitChar d ≠ '/' := by decide
  rcases mem_display h with rfl | rfl | ⟨d, hd, rfl⟩
  · decide
  · decide
  · exact hdigits d hd

theorem length_displayV4_le (addr : BitVec 32) : (displayV4 addr).length ≤ 16 := by
  have h : (separated '.' 10 0 (octets addr)).length ≤ (octets addr).length * (3 + 1) :=
    length_separated_le (by decide) (by decide)
      (fun n hn => (lt_of_mem_fixed (by decide) hn).trans (by decide)) 0
  rwa [length_octets] at h

theorem length_display_le (ip : IpAddr) : ip.display.length ≤ 40 := by
  have hnumbers : ∀ ns : List ℕ, (∀ n ∈ ns, n < 65536) →
      (separated ':' 16 0 ns).length ≤ ns.length * 5 := fun ns h =>
    length_separated_le (by decide) (by decide) h 0
  cases ip with
  | V4 addr => exact (length_displayV4_le addr).trans (by decide)
  | V6 addr =>
    cases hm : toIpv4Mapped addr with
    | some ipv4 =>
      have := length_displayV4_le ipv4
      rw [display, displayV6, hm, List.length_append, show "::ffff:".toList.length = 7 from rfl]
      omega
    | none =>
      have hlen := length_segments addr
      have hall := hnumbers (segments addr) fun n hn => lt_of_mem_segments hn
      rw [display, displayV6_of_none hm]
      by_cases hz : (zeroes (segments addr)).len > 1
      · obtain ⟨hle, -⟩ := zeroes_split (segments addr) (by omega)
        have hhead := hnumbers ((segments addr).take (zeroes (segments addr)).start)
          fun n hn => lt_of_mem_segments (List.mem_of_mem_take hn)
        have htail := hnumbers
          ((segments addr).drop ((zeroes (segments addr)).start + (zeroes (segments addr)).len))
          fun n hn => lt_of_mem_segments (List.mem_of_mem_drop hn)
        rw [List.length_take] at hhead
        rw [List.length_drop] at htail
        rw [if_pos hz, List.length_append, List.length_append, show "::".toList.length = 2 from rfl]
        omega
      · rw [if_neg hz]
        omega

/-! ### The characters of what is parsed -/

/-- A character that no address contains. -/
def Foreign (x : Char) : Prop := toDigit 16 x = none ∧ x ≠ '.' ∧ x ≠ ':'

section Foreign

variable {x : Char} {s rest : List Char}

theorem mem_of_readGivenChar {target : Char} (hx : x ≠ target)
    (h : readGivenChar target s = some rest) (hmem : x ∈ s) : x ∈ rest := by
  cases s with
  | nil => cases h
  | cons c s =>
    rw [readGivenChar] at h
    split at h
    · next hc =>
      cases h
      exact (List.mem_cons.1 hmem).resolve_left fun hxc => hx (hxc.trans hc)
    · cases h

theorem mem_of_readSeparator {α : Type} {sep : Char} {i : ℕ}
    {inner : List Char → Option (α × List Char)} {a : α} (hx : x ≠ sep)
    (hinner : ∀ s a rest, inner s = some (a, rest) → x ∈ s → x ∈ rest)
    (h : readSeparator sep i inner s = some (a, rest)) (hmem : x ∈ s) : x ∈ rest := by
  rw [readSeparator] at h
  split at h
  · rw [Option.bind_eq_some_iff] at h
    obtain ⟨s', hsep, hread⟩ := h
    exact hinner s' a rest hread (mem_of_readGivenChar hx hsep hmem)
  · exact hinner s a rest h hmem

theorem mem_of_readOctets (hx : Foreign x) {left i : ℕ} {octets : List ℕ}
    (h : readOctets left i s = some (octets, rest)) (hmem : x ∈ s) : x ∈ rest := by
  induction left generalizing i s octets with
  | zero =>
    cases h
    exact hmem
  | succ left ih =>
    rw [readOctets, Option.bind_eq_bind, Option.bind_eq_some_iff] at h
    obtain ⟨⟨octet, s'⟩, hfirst, h⟩ := h
    rw [Option.bind_eq_bind, Option.bind_eq_some_iff] at h
    obtain ⟨⟨octets', s''⟩, hrest, h⟩ := h
    cases h
    have hdigit : toDigit 10 x = none := toDigit_eq_none_of_le (by decide) hx.1
    refine ih hrest (mem_of_readSeparator hx.2.1 (fun s a rest hread hmem => ?_) hfirst hmem)
    exact mem_of_readNumber hdigit hread hmem

theorem mem_of_readIpv4Addr (hx : Foreign x) {addr : BitVec 32}
    (h : readIpv4Addr s = some (addr, rest)) (hmem : x ∈ s) : x ∈ rest := by
  rw [readIpv4Addr, Option.bind_eq_bind, Option.bind_eq_some_iff] at h
  obtain ⟨⟨octets, s'⟩, hread, h⟩ := h
  cases h
  exact mem_of_readOctets hx hread hmem

theorem mem_of_readGroups (hx : Foreign x) {left i : ℕ} (hmem : x ∈ s) :
    x ∈ (readGroups left i s).2.2 := by
  induction left generalizing i s with
  | zero => exact hmem
  | succ left ih =>
    rw [readGroups]
    split
    · next v4 s' hv4 =>
      split at hv4
      · exact mem_of_readSeparator hx.2.2 (fun _ _ _ hread => mem_of_readIpv4Addr hx hread) hv4 hmem
      · cases hv4
    · split
      · next group s' hgroup =>
        exact ih (mem_of_readSeparator hx.2.2 (fun _ _ _ hread => mem_of_readNumber hx.1 hread)
          hgroup hmem)
      · exact hmem

theorem mem_of_readIpv6Addr (hx : Foreign x) {addr : BitVec 128}
    (h : readIpv6Addr s = some (addr, rest)) (hmem : x ∈ s) : x ∈ rest := by
  have hhead : x ∈ (readGroups 8 0 s).2.2 := mem_of_readGroups hx hmem
  rw [readIpv6Addr] at h
  dsimp only at h
  split at h
  · cases h
    exact hhead
  · split at h
    · cases h
    · rw [Option.bind_eq_bind, Option.bind_eq_some_iff] at h
      obtain ⟨s₁, hfirst, h⟩ := h
      rw [Option.bind_eq_some_iff] at h
      obtain ⟨s₂, hsecond, h⟩ := h
      cases h
      exact mem_of_readGroups hx
        (mem_of_readGivenChar hx.2.2 hsecond (mem_of_readGivenChar hx.2.2 hfirst hhead))

/-- **A text that is parsed has only characters of addresses.** -/
theorem notMem_of_parse (hx : Foreign x) {ip : IpAddr} (h : parse s = some ip) : x ∉ s := by
  intro hmem
  rw [parse] at h
  split at h
  · next ip' hread =>
    rw [readIpAddr] at hread
    split at hread
    · next addr s' hv4 =>
      cases hread
      exact absurd (mem_of_readIpv4Addr hx hv4 hmem) List.not_mem_nil
    · rw [Option.map_eq_some_iff] at hread
      obtain ⟨⟨addr, s'⟩, hv6, heq⟩ := hread
      obtain ⟨-, rfl⟩ := Prod.mk.inj heq
      exact absurd (mem_of_readIpv6Addr hx hv6 hmem) List.not_mem_nil
  · cases h

end Foreign

end IpAddr

end AsmapQuorum

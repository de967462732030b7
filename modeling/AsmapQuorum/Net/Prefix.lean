import AsmapQuorum.Net.Address
import AsmapQuorum.Codec.Coder
import Mathlib.Data.List.Infix
import Mathlib.Data.String.Basic

/-!
# Network prefixes and bit paths

`net.rs` of the codec: a network is an address with a prefix length, its path is the list of its
leading bits in the 128-bit address space, IPv4 being mapped to `::ffff:0:0/96`.

* `ipToBits`, `bitsToNetwork`, `parseNetworkPrefix` — the functions of the source.
* `msbs x n` — the `n` leading bits of `x`; all paths are such lists.
* `eq_of_ipToBits_eq` — a path determines the address and the length of a network without host bits,
  up to the notation.
* `bitsToNetwork_spec` — **a path of at most 128 bits is written as a network with that path**;
  `parseNetworkPrefix_eq_ok` — what is read, and as which network.
* `network_there_and_back` — **writing and reading** a path or a text comes back to where it
  started.
-/

namespace AsmapQuorum

open Numeral

/-! ### Leading bits -/

/-- The `n` most significant bits of `x`; `false` past its end. -/
def msbs {w : ℕ} (x : BitVec w) (n : ℕ) : List Bool := (List.range n).map x.getMsbD

@[simp] theorem length_msbs {w : ℕ} (x : BitVec w) (n : ℕ) : (msbs x n).length = n := by
  simp [msbs]

theorem msbs_eq_iff {w w' : ℕ} {x : BitVec w} {y : BitVec w'} {n : ℕ} :
    msbs x n = msbs y n ↔ ∀ i < n, x.getMsbD i = y.getMsbD i := by
  simp [msbs, List.map_inj_left]

theorem take_msbs {w : ℕ} (x : BitVec w) {m n : ℕ} (h : m ≤ n) : (msbs x n).take m = msbs x m := by
  rw [msbs, msbs, ← List.map_take, List.take_range, Nat.min_eq_left h]

/-- Two vectors with the same leading bits and zeros behind them are equal. -/
theorem eq_of_msbs_eq {w : ℕ} {x y : BitVec w} {n : ℕ} (h : msbs x n = msbs y n)
    (hx : ∀ i, n ≤ i → x.getMsbD i = false) (hy : ∀ i, n ≤ i → y.getMsbD i = false) : x = y := by
  apply BitVec.eq_of_getMsbD_eq
  intro i _
  by_cases hi : i < n
  · exact msbs_eq_iff.1 h i hi
  · rw [hx i (Nat.le_of_not_lt hi), hy i (Nat.le_of_not_lt hi)]

theorem ushiftRight_eq_iff {w : ℕ} {x y : BitVec w} {n : ℕ} (h : n ≤ w) :
    x >>> (w - n) = y >>> (w - n) ↔ msbs x n = msbs y n := by
  rw [msbs_eq_iff]
  constructor
  · intro heq i hi
    have := congrArg (fun z => z.getMsbD (i + (w - n))) heq
    simpa [BitVec.getMsbD_ushiftRight, show i + (w - n) < w by omega] using this
  · intro hbits
    apply BitVec.eq_of_getMsbD_eq
    intro i hi
    rw [BitVec.getMsbD_ushiftRight, BitVec.getMsbD_ushiftRight]
    by_cases hlow : i < w - n
    · simp [hlow]
    · rw [hbits (i - (w - n)) (by omega)]

/-! ### Paths -/

namespace IpAddr

def width : IpAddr → ℕ
  | V4 _ => 32
  | V6 _ => 128

/-- The address in the 128-bit space. -/
def netrange : IpAddr → BitVec 128
  | V4 addr => addr.setWidth 128 + 0xffff00000000#128
  | V6 addr => addr

def numBits : IpAddr → ℕ → ℕ
  | V4 _, prefixLen => prefixLen + 96
  | V6 _, prefixLen => prefixLen

end IpAddr

open IpAddr

/-- The path of a network: bit `127 - i` of the address for every `i` below the length. -/
def ipToBits (ip : IpAddr) (prefixLen : ℕ) : List Bool :=
  msbs ip.netrange (ip.numBits prefixLen)

/-- The path of `::ffff:0:0/96`. -/
def mappedPath : List Bool := List.replicate 80 false ++ List.replicate 16 true

theorem width_le (ip : IpAddr) : ip.width ≤ 128 := by
  cases ip with
  | V4 addr => exact (by decide : 32 ≤ 128)
  | V6 addr => exact le_rfl

theorem numBits_le {ip : IpAddr} {mask : ℕ} (h : mask ≤ ip.width) : ip.numBits mask ≤ 128 := by
  cases ip with
  | V4 addr =>
    have hle : mask ≤ 32 := h
    show mask + 96 ≤ 128
    omega
  | V6 addr => exact h

@[simp] theorem length_ipToBits (ip : IpAddr) (prefixLen : ℕ) :
    (ipToBits ip prefixLen).length = ip.numBits prefixLen := length_msbs _ _

theorem netrange_V4 (addr : BitVec 32) : (V4 addr).netrange = 0xffff#96 ++ addr := by
  apply BitVec.eq_of_toNat_eq
  have hlt := addr.isLt
  rw [netrange, BitVec.toNat_append, ← Nat.shiftLeft_add_eq_or_of_lt addr.isLt, BitVec.toNat_add,
    BitVec.toNat_setWidth, Nat.shiftLeft_eq,
    show (0xffff00000000#128).toNat = 281470681743360 from rfl,
      show (0xffff#96).toNat = 65535 from rfl]
  omega

/-- An address of the mapped range is the mapped address of its low half. -/
theorem netrange_V4_of_ushiftRight {x : BitVec 128} (h : x >>> 32 = 0xffff#128) :
    (V4 (x.setWidth 32)).netrange = x := by
  have hdiv : x.toNat / 2 ^ 32 = 65535 := by
    have := congrArg BitVec.toNat h
    rwa [BitVec.toNat_ushiftRight, Nat.shiftRight_eq_div_pow] at this
  have hlt := (x.setWidth 32).isLt
  apply BitVec.eq_of_toNat_eq
  rw [netrange_V4, BitVec.toNat_append, ← Nat.shiftLeft_add_eq_or_of_lt hlt, BitVec.toNat_setWidth,
    Nat.shiftLeft_eq, show (0xffff#96).toNat = 65535 from rfl]
  omega

theorem setWidth_and_mask (x : BitVec 128) :
    (x &&& 0xffffffff#128).setWidth 32 = x.setWidth 32 := by
  have hmask : 0xffffffff#128 = (BitVec.allOnes 32).setWidth 128 := by decide
  apply BitVec.eq_of_getLsbD_eq
  intro i hi
  rw [BitVec.getLsbD_setWidth, BitVec.getLsbD_setWidth, BitVec.getLsbD_and, hmask,
    BitVec.getLsbD_setWidth, BitVec.getLsbD_allOnes]
  simp [hi, show i < 128 by omega]

theorem getMsbD_netrange_V4 (addr : BitVec 32) (i : ℕ) :
    (V4 addr).netrange.getMsbD i =
      if 96 ≤ i then addr.getMsbD (i - 96) else (0xffff#96).getMsbD i := by
  have h := BitVec.getMsbD_append (x := 0xffff#96) (y := addr) (i := i)
  rw [netrange_V4, h]

/-- Every IPv4 path starts with the mapped range. -/
theorem ipToBits_V4 (addr : BitVec 32) (prefixLen : ℕ) :
    ipToBits (V4 addr) prefixLen = mappedPath ++ msbs addr prefixLen := by
  have hmapped : msbs (0xffff#96) 96 = mappedPath := by decide
  have hhigh : (List.range 96).map (V4 addr).netrange.getMsbD = mappedPath := by
    rw [← hmapped]
    refine List.map_congr_left fun i hi => ?_
    rw [getMsbD_netrange_V4, if_neg (by rw [List.mem_range] at hi; omega)]
  have hlow : ((List.range prefixLen).map (96 + ·)).map (V4 addr).netrange.getMsbD =
      msbs addr prefixLen := by
    rw [List.map_map]
    refine List.map_congr_left fun i _ => ?_
    rw [Function.comp_apply, getMsbD_netrange_V4, if_pos (by omega), Nat.add_sub_cancel_left]
  rw [ipToBits, numBits, msbs, Nat.add_comm prefixLen 96, List.range_add, List.map_append, hhigh,
    hlow]

/-- No bits behind the path. -/
def HostZero (ip : IpAddr) (prefixLen : ℕ) : Prop :=
  ∀ i, ip.numBits prefixLen ≤ i → ip.netrange.getMsbD i = false

/-- **A path determines the network** among those of one notation. -/
theorem eq_of_ipToBits_eq {ip ip' : IpAddr} {m n : ℕ} (h : ipToBits ip m = ipToBits ip' n)
    (hip : HostZero ip m) (hip' : HostZero ip' n) :
    ip.netrange = ip'.netrange ∧ ip.numBits m = ip'.numBits n := by
  have hlen : ip.numBits m = ip'.numBits n := by
    rw [← length_ipToBits, h, length_ipToBits]
  refine ⟨eq_of_msbs_eq (n := ip.numBits m) ?_ hip fun i hi => hip' i (hlen ▸ hi), hlen⟩
  rw [ipToBits, ipToBits, ← hlen] at h
  exact h

theorem V4_injective_netrange {a b : BitVec 32} (h : (V4 a).netrange = (V4 b).netrange) :
    a = b := by
  apply BitVec.eq_of_getMsbD_eq
  intro i _
  have := congrArg (fun z => z.getMsbD (96 + i)) h
  simpa [getMsbD_netrange_V4] using this

/-! ### The text of a network -/

/-- `str::split_once`. -/
def splitOnce (sep : Char) : List Char → Option (List Char × List Char)
  | [] => none
  | c :: rest =>
    if c = sep then some ([], rest) else (splitOnce sep rest).map fun r => (c :: r.1, r.2)

theorem splitOnce_append {sep : Char} {s : List Char} (h : sep ∉ s) (t : List Char) :
    splitOnce sep (s ++ sep :: t) = some (s, t) := by
  induction s with
  | nil => simp [splitOnce]
  | cons c s ih =>
    rw [List.mem_cons, not_or] at h
    rw [List.cons_append, splitOnce, if_neg (Ne.symm h.1), ih h.2]
    rfl

/-- What is split is what is joined, at the first separator. -/
theorem splitOnce_eq_some {sep : Char} {s a b : List Char} :
    splitOnce sep s = some (a, b) ↔ s = a ++ sep :: b ∧ sep ∉ a := by
  constructor
  · intro h
    induction s generalizing a with
    | nil => cases h
    | cons c s ih =>
      rw [splitOnce] at h
      split at h
      · next hc =>
        cases h
        rw [hc]
        exact ⟨rfl, List.not_mem_nil⟩
      · next hc =>
        rw [Option.map_eq_some_iff] at h
        obtain ⟨⟨a', b'⟩, hrest, heq⟩ := h
        obtain ⟨rfl, rfl⟩ := Prod.mk.inj heq
        obtain ⟨rfl, hnot⟩ := ih hrest
        exact ⟨rfl, List.not_mem_cons_of_ne_of_not_mem (Ne.symm hc) hnot⟩
  · rintro ⟨rfl, hnot⟩
    exact splitOnce_append hnot b

/-- `ADDR/LEN`. -/
def networkText (ip : IpAddr) (prefixLen : ℕ) : List Char :=
  ip.display ++ '/' :: Nat.toDigits 10 prefixLen

theorem splitOnce_networkText (ip : IpAddr) (prefixLen : ℕ) :
    splitOnce '/' (networkText ip prefixLen) = some (ip.display, Nat.toDigits 10 prefixLen) :=
  splitOnce_append (fun h => (ascii_of_mem_display h).2 rfl) _

/-- `str::parse::<u8>`. -/
def parseU8 (s : List Char) : Option ℕ := parseUnsigned 256 s

/-- ASCII text is as many bytes long as characters. -/
theorem utf8Len_of_ascii {s : List Char} (hs : ∀ c ∈ s, c.utf8Size = 1) :
    String.utf8Len s = s.length := by
  induction s with
  | nil => rfl
  | cons c s ih =>
    rw [String.utf8Len_cons, ih fun d hd => hs d (by simp [hd]), hs c (by simp), List.length_cons]

/-- A network text is at most 44 bytes long. -/
theorem utf8Len_networkText_le (ip : IpAddr) {prefixLen : ℕ} (h : prefixLen < 1000) :
    (String.ofList (networkText ip prefixLen)).utf8ByteSize ≤ 44 := by
  have hdigits : ∀ d < 10, (Nat.digitChar d).utf8Size = 1 := by decide
  have hnum : ∀ c ∈ Nat.toDigits 10 prefixLen, c.utf8Size = 1 := by
    intro c hc
    obtain ⟨d, hd, rfl⟩ := mem_toDigits (by decide) hc
    exact hdigits d hd
  have h₁ := utf8Len_of_ascii fun c (hc : c ∈ ip.display) => (ascii_of_mem_display hc).1
  have h₂ := utf8Len_of_ascii hnum
  have h₃ := length_display_le ip
  have h₄ : (Nat.toDigits 10 prefixLen).length ≤ 3 :=
    length_toDigits_le (by decide) (by decide) h
  rw [String.utf8ByteSize_ofList, networkText, String.utf8Len_append, String.utf8Len_cons, h₁, h₂,
    show '/'.utf8Size = 1 from rfl]
  omega

/-! ### Strict parsing -/

inductive ParseNetworkError where
  | Invalid (network : String)
  | InvalidAddr (network : String)
  | InvalidPrefixLen (network : String)
  deriving DecidableEq, Repr

/-- `trailing_zeros` of a `w`-bit number. -/
def trailingZeros : ℕ → ℕ → ℕ
  | 0, _ => 0
  | w + 1, n => if n % 2 = 1 then 0 else trailingZeros w (n / 2) + 1

/-- No bits set below the prefix boundary. -/
def isCanonical (ip : IpAddr) (prefixLen : ℕ) : Bool :=
  match ip with
  | V4 addr => trailingZeros 32 addr.toNat ≥ 32 - prefixLen
  | V6 addr => trailingZeros 128 addr.toNat ≥ 128 - prefixLen

def parseNetworkPrefix (input : String) : Except ParseNetworkError (IpAddr × ℕ) :=
  match splitOnce '/' input.toList with
  | none => .error (.Invalid input)
  | some (addr, len) =>
    match IpAddr.parse addr with
    | none => .error (.InvalidAddr input)
    | some ip =>
      match parseU8 len with
      | none => .error (.InvalidPrefixLen input)
      | some prefixLen =>
        if prefixLen > ip.width then .error (.Invalid input)
        else if !isCanonical ip prefixLen then .error (.Invalid input)
        else .ok (ip, prefixLen)

theorem le_trailingZeros_iff {k w n : ℕ} :
    k ≤ trailingZeros w n ↔ k ≤ w ∧ ∀ i < k, n.testBit i = false := by
  induction w generalizing k n with
  | zero =>
    rw [trailingZeros]
    exact ⟨fun h => ⟨h, fun i hi => absurd hi (by omega)⟩, And.left⟩
  | succ w ih =>
    cases k with
    | zero => simp
    | succ k =>
      rw [trailingZeros]
      by_cases hodd : n % 2 = 1
      · rw [if_pos hodd]
        refine ⟨fun h => absurd h (Nat.not_succ_le_zero k), fun ⟨_, h⟩ => ?_⟩
        have := h 0 (Nat.succ_pos k)
        rw [Nat.testBit_zero, hodd] at this
        cases this
      · rw [if_neg hodd, Nat.succ_le_succ_iff, Nat.succ_le_succ_iff, ih]
        refine and_congr_right fun _ => ?_
        constructor
        · intro h i hi
          cases i with
          | zero => rw [Nat.testBit_zero, decide_eq_false hodd]
          | succ i => rw [Nat.testBit_add_one, h i (Nat.lt_of_succ_lt_succ hi)]
        · intro h i hi
          rw [← Nat.testBit_add_one, h (i + 1) (Nat.succ_lt_succ hi)]

/-- A network without host bits passes the check. -/
theorem isCanonical_of_hostZero {ip : IpAddr} {prefixLen : ℕ} (h : HostZero ip prefixLen) :
    isCanonical ip prefixLen = true := by
  have hzero : ∀ {w : ℕ} (addr : BitVec w), (∀ i, prefixLen ≤ i → addr.getMsbD i = false) →
      w - prefixLen ≤ trailingZeros w addr.toNat := by
    intro w addr hbits
    refine le_trailingZeros_iff.2 ⟨Nat.sub_le _ _, fun i hi => ?_⟩
    have hbit := hbits (w - 1 - i) (by omega)
    rw [BitVec.getMsbD, decide_eq_true (by omega), Bool.true_and, BitVec.getLsbD,
      show w - 1 - (w - 1 - i) = i by omega] at hbit
    exact hbit
  cases ip with
  | V4 addr =>
    refine decide_eq_true (hzero addr fun i hi => ?_)
    have hbit := h (96 + i) (by show prefixLen + 96 ≤ 96 + i; omega)
    rwa [getMsbD_netrange_V4, if_pos (by omega), Nat.add_sub_cancel_left] at hbit
  | V6 addr => exact decide_eq_true (hzero addr h)

/-- **The check on the host bits** says what its name says, for the lengths that the family has. -/
theorem isCanonical_iff {ip : IpAddr} {prefixLen : ℕ} (hle : prefixLen ≤ ip.width) :
    isCanonical ip prefixLen = true ↔ HostZero ip prefixLen := by
  refine ⟨fun h => ?_, isCanonical_of_hostZero⟩
  have hzero : ∀ {w : ℕ} (addr : BitVec w), w - prefixLen ≤ trailingZeros w addr.toNat →
      ∀ i, prefixLen ≤ i → addr.getMsbD i = false := by
    intro w addr htrailing i hi
    by_cases hiw : i < w
    · rw [BitVec.getMsbD, decide_eq_true hiw, Bool.true_and, BitVec.getLsbD]
      exact (le_trailingZeros_iff.1 htrailing).2 _ (by omega)
    · exact BitVec.getMsbD_of_ge _ _ (Nat.le_of_not_lt hiw)
  cases ip with
  | V4 addr =>
    intro i hi
    have hi : prefixLen + 96 ≤ i := hi
    rw [getMsbD_netrange_V4, if_pos (by omega)]
    exact hzero addr (of_decide_eq_true h) (i - 96) (by omega)
  | V6 addr => exact hzero addr (of_decide_eq_true h)

/-- The text is `ADDR/LEN`. -/
def ReadsAs (text : String) (ip : IpAddr) (len : ℕ) : Prop :=
  ∃ addr digits, text.toList = addr ++ '/' :: digits ∧ '/' ∉ addr ∧
    IpAddr.parse addr = some ip ∧ parseU8 digits = some len

theorem readsAs_iff {text : String} {ip : IpAddr} {len : ℕ} :
    ReadsAs text ip len ↔ ∃ addr digits, splitOnce '/' text.toList = some (addr, digits) ∧
      IpAddr.parse addr = some ip ∧ parseU8 digits = some len := by
  simp only [ReadsAs, splitOnce_eq_some, and_assoc]

theorem ReadsAs.unique {text : String} {ip ip' : IpAddr} {len len' : ℕ} (h : ReadsAs text ip len)
    (h' : ReadsAs text ip' len') : ip = ip' ∧ len = len' := by
  obtain ⟨addr, digits, hsplit, hip, hlen⟩ := readsAs_iff.1 h
  obtain ⟨addr', digits', hsplit', hip', hlen'⟩ := readsAs_iff.1 h'
  obtain ⟨rfl, rfl⟩ := Prod.mk.inj (Option.some.inj (hsplit.symm.trans hsplit'))
  exact ⟨Option.some.inj (hip.symm.trans hip'), Option.some.inj (hlen.symm.trans hlen')⟩

/-- **What is parsed**: an address and a length that its family has, with no bit set behind it. -/
theorem parseNetworkPrefix_eq_ok {text : String} {ip : IpAddr} {len : ℕ} :
    parseNetworkPrefix text = .ok (ip, len) ↔ ReadsAs text ip len ∧ len ≤ ip.width ∧
      HostZero ip len := by
  rw [readsAs_iff]
  constructor
  · intro h
    unfold parseNetworkPrefix at h
    split at h
    · cases h
    · next addr digits hsplit =>
      split at h
      · cases h
      · next ip' hip =>
        split at h
        · cases h
        · next len' hlen =>
          split at h
          · cases h
          · next hle =>
            split at h
            · cases h
            · next hcanonical =>
              cases h
              have hle := Nat.le_of_not_lt hle
              refine ⟨⟨addr, digits, hsplit, hip, hlen⟩, hle, (isCanonical_iff hle).1 ?_⟩
              simpa using hcanonical
  · rintro ⟨⟨addr, digits, hsplit, hip, hlen⟩, hle, hzero⟩
    unfold parseNetworkPrefix
    rw [hsplit]
    simp only [hip, hlen]
    rw [if_neg (Nat.not_lt.2 hle), isCanonical_of_hostZero hzero]
    rfl

/-- **A network without host bits is read back from its text.** -/
theorem parseNetworkPrefix_networkText {ip : IpAddr} {prefixLen : ℕ} (hlen : prefixLen ≤ ip.width)
    (h : HostZero ip prefixLen) :
    parseNetworkPrefix (.ofList (networkText ip prefixLen)) = .ok (ip, prefixLen) := by
  have hwidth := width_le ip
  unfold parseNetworkPrefix
  rw [String.toList_ofList, splitOnce_networkText]
  dsimp only
  rw [parse_display]
  dsimp only
  rw [parseU8, parseUnsigned_toDigits (by omega)]
  dsimp only
  rw [if_neg (by omega), isCanonical_of_hostZero h]
  rfl

/-! ### From paths to networks -/

/-- The fold of `bits_to_network`, over the bits of index `i` and up. -/
def netrangeLoop : List Bool → ℕ → BitVec 128 → Except Panic (BitVec 128)
  | [], _, acc => .ok acc
  | bit :: rest, i, acc =>
    if bit then
      if 127 < i then .error .subtractOverflow
      else netrangeLoop rest (i + 1) (acc ||| 1#128 <<< (127 - i))
    else netrangeLoop rest (i + 1) acc

def bitsToNetwork (path : List Bool) : Except Panic String := do
  let netrange ← netrangeLoop path 0 0
  if path.length ≥ 96 ∧ netrange >>> 32 = 0xffff#128 then
    let addr := (netrange &&& 0xffffffff#128).setWidth 32
    return .ofList (networkText (V4 addr) (path.length - 96))
  else return .ofList (networkText (V6 netrange) path.length)

theorem getMsbD_setBit {i : ℕ} (hi : i ≤ 127) (j : ℕ) :
    (1#128 <<< (127 - i)).getMsbD j = decide (j = i) := by
  rw [BitVec.getMsbD_shiftLeft, BitVec.getMsbD_one]
  simp
  omega

/-- The loop sets the bits of the path. -/
theorem netrangeLoop_spec (path : List Bool) {i : ℕ} (acc : BitVec 128)
    (h : i + path.length ≤ 128) :
    ∃ x, netrangeLoop path i acc = .ok x ∧
      ∀ j, x.getMsbD j = (acc.getMsbD j || (decide (i ≤ j) && (path[j - i]?).getD false)) := by
  induction path generalizing i acc with
  | nil => exact ⟨acc, rfl, by simp⟩
  | cons bit path ih =>
    rw [List.length_cons] at h
    have hshift : ∀ j, (decide (i ≤ j) && ((bit :: path)[j - i]?).getD false) =
        (decide (j = i) && bit || (decide (i + 1 ≤ j) && (path[j - (i + 1)]?).getD false)) := by
      intro j
      by_cases hj : j = i
      · subst hj
        simp
      · by_cases hlt : i + 1 ≤ j
        · have hsub : j - i = (j - (i + 1)) + 1 := by omega
          simp [hj, hlt, hsub, show i ≤ j by omega]
        · simp [hj, hlt, show ¬i ≤ j by omega]
    cases bit with
    | true =>
      obtain ⟨x, hx, hbits⟩ := ih (i := i + 1) (acc ||| 1#128 <<< (127 - i)) (by omega)
      refine ⟨x, ?_, fun j => ?_⟩
      · rw [netrangeLoop, if_pos rfl, if_neg (by omega), hx]
      · rw [hbits, BitVec.getMsbD_or, getMsbD_setBit (by omega), hshift, Bool.and_true,
          Bool.or_assoc]
    | false =>
      obtain ⟨x, hx, hbits⟩ := ih (i := i + 1) acc (by omega)
      refine ⟨x, ?_, fun j => ?_⟩
      · rw [netrangeLoop, if_neg (by decide), hx]
      · rw [hbits, hshift, Bool.and_false, Bool.false_or]

theorem msbs_eq_of_getD {x : BitVec 128} {path : List Bool}
    (h : ∀ j, x.getMsbD j = (path[j]?).getD false) : msbs x path.length = path := by
  apply List.ext_getElem
  · exact length_msbs x _
  · intro j h₁ h₂
    simp [msbs, h, h₂]

/-- The first 96 bits of an address are the mapped range exactly when its upper 96 bits are
`0xffff`. -/
theorem msbs_eq_mappedPath {x : BitVec 128} : msbs x 96 = mappedPath ↔ x >>> 32 = 0xffff#128 := by
  have hmapped : mappedPath = msbs (0xffff00000000#128) 96 := by decide
  have hshift : 0xffff00000000#128 >>> (128 - 96) = 0xffff#128 := by decide
  rw [hmapped, ← ushiftRight_eq_iff (by decide), hshift]

/-- **A path of at most 128 bits is the path of the network it is written as**; in the mapped range
that is a dotted quad. -/
theorem bitsToNetwork_spec {path : List Bool} (h : path.length ≤ 128) :
    ∃ ip prefixLen, bitsToNetwork path = .ok (.ofList (networkText ip prefixLen)) ∧
      prefixLen ≤ ip.width ∧ HostZero ip prefixLen ∧ ipToBits ip prefixLen = path ∧
      (mappedPath <+: path → ∃ addr, ip = V4 addr) := by
  obtain ⟨x, hx, hbits⟩ := netrangeLoop_spec path (i := 0) 0 (by omega)
  have hget : ∀ j, x.getMsbD j = (path[j]?).getD false := by
    intro j
    rw [hbits]
    simp
  have hpath := msbs_eq_of_getD hget
  have hzero : ∀ j, path.length ≤ j → x.getMsbD j = false := by
    intro j hj
    rw [hget, List.getElem?_eq_none hj]
    rfl
  by_cases hmapped : path.length ≥ 96 ∧ x >>> 32 = 0xffff#128
  · obtain ⟨hlen, hhigh⟩ := hmapped
    have hnet : (V4 ((x &&& 0xffffffff#128).setWidth 32)).netrange = x := by
      rw [setWidth_and_mask]
      exact netrange_V4_of_ushiftRight hhigh
    have hnum : (V4 ((x &&& 0xffffffff#128).setWidth 32)).numBits (path.length - 96) =
        path.length := by
      show path.length - 96 + 96 = path.length
      omega
    refine ⟨V4 ((x &&& 0xffffffff#128).setWidth 32), path.length - 96, ?_, ?_, ?_, ?_,
      fun _ => ⟨_, rfl⟩⟩
    · simp only [bitsToNetwork, hx, bind, Except.bind, if_pos (And.intro hlen hhigh)]
      rfl
    · show path.length - 96 ≤ 32
      omega
    · intro j hj
      rw [hnum] at hj
      rw [hnet]
      exact hzero j hj
    · rw [ipToBits, hnum, hnet, hpath]
  · refine ⟨V6 x, path.length, ?_, h, hzero, hpath, fun hext => absurd ?_ hmapped⟩
    · simp only [bitsToNetwork, hx, bind, Except.bind, if_neg hmapped]
      rfl
    · have hlen : 96 ≤ path.length := hext.length_le
      refine ⟨hlen, msbs_eq_mappedPath.1 ?_⟩
      rw [← take_msbs x hlen, hpath]
      exact (List.prefix_iff_eq_take.1 hext).symm

/-! ### There and back -/

/-- An IPv4 address in four decimal parts, and a length. -/
def DottedQuad (text : String) : Prop := ∃ addr len, text = .ofList (networkText (V4 addr) len)

theorem dottedQuad_networkText {ip : IpAddr} {len : ℕ} :
    DottedQuad (.ofList (networkText ip len)) ↔ ∃ addr, ip = V4 addr := by
  constructor
  · rintro ⟨addr, len', h⟩
    have hsplit := splitOnce_networkText ip len
    rw [String.ofList_injective h, splitOnce_networkText] at hsplit
    exact ⟨addr, (display_injective (Prod.mk.inj (Option.some.inj hsplit)).1).symm⟩
  · rintro ⟨addr, rfl⟩
    exact ⟨addr, len, rfl⟩

/-- **The text of a network, there and back.**  The text of a path is read as that path.  A text
that is read has no bits behind its length, and the text of its path is read as the same path again;
this text is a dotted quad exactly in the mapped range. -/
theorem network_there_and_back :
    (∀ path : List Bool, path.length ≤ 128 → ∃ text ip len, bitsToNetwork path = .ok text ∧
      parseNetworkPrefix text = .ok (ip, len) ∧ ipToBits ip len = path) ∧
    ∀ text ip len, parseNetworkPrefix text = .ok (ip, len) →
      HostZero ip len ∧ ∃ text' ip' len', bitsToNetwork (ipToBits ip len) = .ok text' ∧
        parseNetworkPrefix text' = .ok (ip', len') ∧ ipToBits ip' len' = ipToBits ip len ∧
        (DottedQuad text' ↔ 96 ≤ (ipToBits ip len).length ∧ mappedPath <+: ipToBits ip len) := by
  constructor
  · intro path hpath
    obtain ⟨ip, len, htext, hle, hzero, hbits, -⟩ := bitsToNetwork_spec hpath
    exact ⟨_, ip, len, htext, parseNetworkPrefix_networkText hle hzero, hbits⟩
  · intro text ip len h
    obtain ⟨-, hle, hzero⟩ := parseNetworkPrefix_eq_ok.1 h
    refine ⟨hzero, ?_⟩
    have hlen : (ipToBits ip len).length ≤ 128 := by
      rw [length_ipToBits]
      exact numBits_le hle
    obtain ⟨ip', len', htext', hle', hzero', hbits', hmapped⟩ := bitsToNetwork_spec hlen
    refine ⟨_, ip', len', htext', parseNetworkPrefix_networkText hle' hzero', hbits', ?_⟩
    rw [dottedQuad_networkText]
    constructor
    · rintro ⟨addr, rfl⟩
      rw [← hbits', ipToBits_V4]
      have hquad := List.prefix_append mappedPath (msbs addr len')
      exact ⟨hquad.length_le, hquad⟩
    · exact fun hquad => hmapped hquad.2

end AsmapQuorum

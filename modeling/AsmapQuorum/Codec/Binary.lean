import AsmapQuorum.Codec.Encoder

/-!
# The binary format: `to_binary` and `from_binary`

A program is written as a bit string and packed into bytes, lowest bit first, the last byte padded
with zeros; the reader unpacks, parses one program, and accepts at most seven bits of zero padding.

* `packLoop`, `byteBits` — packing and unpacking; `flatMap_byteBits_packLoop` is the loop invariant.
* `ASMap.toBinary`, `ASMap.fromBinary` — the writer and the reader.
* `ASMap.Reachable` — the maps the constructors of the codec can produce; all are canonical.
* `fromBinary_toBinary` — **the lossless round trip**.
-/

namespace AsmapQuorum

open Reading

/-! ### Bits and bytes -/

/-- The bits `(byte >> i) & 1` of a byte, lowest first. -/
def byteBits (byte : UInt8) : List Bool := (List.range 8).map byte.toNat.testBit

/-- The packing loop of `to_binary`: `val` holds the first `nbits` bits of the next byte. -/
def packLoop : List Bool → UInt8 → ℕ → List UInt8
  | [], val, nbits => if nbits ≠ 0 then [val] else []
  | bit :: bits, val, nbits =>
    let val := val ||| bit.toUInt8 <<< nbits.toUInt8
    if nbits + 1 = 8 then val :: packLoop bits 0 0 else packLoop bits val (nbits + 1)

/-- One more bit on top of `n < 8` packed ones. -/
theorem toNat_pushBit {val : UInt8} {n : ℕ} (hn : n < 8) (hval : val.toNat < 2 ^ n) (bit : Bool) :
    (val ||| bit.toUInt8 <<< n.toUInt8).toNat = 2 ^ n * bit.toNat + val.toNat := by
  have hbit : bit.toUInt8.toNat = bit.toNat := by cases bit <;> rfl
  have hmod : n.toUInt8.toNat % 8 = n := by
    rw [show n.toUInt8.toNat = n % 2 ^ 8 from UInt8.toNat_ofNat']
    omega
  have hlt : 2 ^ n * bit.toNat < 2 ^ 8 := by
    have hpow : (2 : ℕ) ^ n ≤ 2 ^ 7 := Nat.pow_le_pow_right (by decide) (by omega)
    have hone := bit.toNat_le
    calc 2 ^ n * bit.toNat ≤ 2 ^ 7 * 1 := Nat.mul_le_mul hpow hone
      _ < 2 ^ 8 := by decide
  rw [UInt8.toNat_or, UInt8.toNat_shiftLeft, hbit, hmod, Nat.shiftLeft_eq, Nat.mul_comm,
    Nat.mod_eq_of_lt hlt, Nat.or_comm, ← Nat.two_pow_add_eq_or_of_lt hval]

theorem range_succ_testBit {v n : ℕ} (hv : v < 2 ^ n) (bit : Bool) :
    (List.range (n + 1)).map (2 ^ n * bit.toNat + v).testBit =
      (List.range n).map v.testBit ++ [bit] := by
  rw [List.range_succ, List.map_append]
  congr 1
  · refine List.map_congr_left fun i hi => ?_
    rw [Nat.testBit_two_pow_mul_add _ hv, if_pos (List.mem_range.1 hi)]
  · rw [List.map_singleton, Nat.testBit_two_pow_mul_add _ hv, if_neg (Nat.lt_irrefl n),
      Nat.sub_self]
    cases bit <;> rfl

/-- **The packing loop**: what was packed so far, then the bits that remain, then less than a byte
of zeros. -/
theorem flatMap_byteBits_packLoop (bits : List Bool) : ∀ (val : UInt8) (n : ℕ), n < 8 →
    val.toNat < 2 ^ n → ∃ k < 8, (packLoop bits val n).flatMap byteBits =
      (List.range n).map val.toNat.testBit ++ bits ++ List.replicate k false := by
  induction bits with
  | nil =>
    intro val n hn hval
    by_cases h : n = 0
    · subst h
      exact ⟨0, by decide, rfl⟩
    · refine ⟨8 - n, by omega, ?_⟩
      rw [packLoop, if_pos h, List.flatMap_singleton, List.append_nil, byteBits,
        show 8 = n + (8 - n) by omega, List.range_add, List.map_append, List.map_map]
      congr 1
      rw [show n + (8 - n) - n = 8 - n by omega]
      refine List.eq_replicate_iff.2 ⟨by simp, fun b hb => ?_⟩
      obtain ⟨i, -, rfl⟩ := List.mem_map.1 hb
      exact Nat.testBit_lt_two_pow (hval.trans_le (Nat.pow_le_pow_right (by decide) (by simp)))
  | cons bit bits ih =>
    intro val n hn hval
    have hpush := toNat_pushBit hn hval bit
    have hrange := range_succ_testBit hval bit
    rw [← hpush] at hrange
    by_cases h : n + 1 = 8
    · obtain ⟨k, hk, hrest⟩ := ih 0 0 (by decide) (by decide)
      refine ⟨k, hk, ?_⟩
      rw [packLoop, if_pos h, List.flatMap_cons, hrest, byteBits, ← h, hrange]
      simp
    · have hlt : (val ||| bit.toUInt8 <<< n.toUInt8).toNat < 2 ^ (n + 1) := by
        rw [hpush, Nat.pow_succ]
        cases bit <;> simp <;> omega
      obtain ⟨k, hk, hrest⟩ := ih _ (n + 1) (by omega) hlt
      refine ⟨k, hk, ?_⟩
      rw [packLoop, if_neg h, hrest, hrange]
      simp

/-! ### The writer and the reader -/

namespace ASMap

/-- The program of the map as bits; the empty program is not written at all. -/
def toBits (m : ASMap) (fill : Bool) : Except Panic (List Bool) := do
  let binnode ← m.toBinnode fill
  if binnode.isEnd then return [] else binnode.encode

/-- `ASMap::to_binary`. -/
def toBinary (m : ASMap) (fill : Bool) : Except Panic (List UInt8) := do
  let bits ← m.toBits fill
  return packLoop bits 0 0

/-- `ASMap::from_binary` on the bits of the input. -/
def fromBits (bits : List Bool) : Parse ASMap :=
  if bits.isEmpty then .ok new
  else do
    let (binnode, bitpos) ← BinNode.parse bits (bits.length + 1) 0
    if bitpos < bits.length - 7 then .error .reject
    else if (bits.drop bitpos).any (· != false) then .error .reject
    else Parse.ofOption (fromBinnode binnode)

/-- `ASMap::from_binary`. -/
def fromBinary (bindata : List UInt8) : Parse ASMap := fromBits (bindata.flatMap byteBits)

end ASMap

/-! ### Reachable maps -/

namespace BinNode

/-- Only closed programs have a trie. -/
theorem closed_of_toTrie {n : BinNode} {d : ℕ} {t : TrieNode} (h : n.toTrie d = some t) :
    n.Closed := by
  induction n generalizing d t with
  | Return v size => trivial
  | Jump l r size ihl ihr =>
    obtain ⟨tl, hl, h⟩ := Option.bind_eq_some_iff.1 h
    obtain ⟨tr, hr, -⟩ := Option.bind_eq_some_iff.1 h
    exact ⟨ihl hl, ihr hr⟩
  | Match v sub size ih =>
    obtain ⟨t', hs, -⟩ := Option.bind_eq_some_iff.1 h
    exact ih hs
  | Default v sub size ih => exact ih h
  | End size => cases h

theorem eq_meaning_of_toTrie {n : BinNode} {d : ℕ} {t : TrieNode} (h : n.toTrie d = some t) :
    t = n.meaning d := by
  rw [(closed_of_toTrie h).toTrie_eq] at h
  exact (Option.some.inj h).symm

end BinNode

namespace ASMap

theorem trie_eq_meaning_of_fromBinnode {n : BinNode} {m : ASMap} (h : fromBinnode n = some m) :
    m.trie = n.meaning 0 := by
  cases n with
  | End size =>
    cases h
    rfl
  | _ =>
    simp only [fromBinnode, Option.map_eq_some_iff] at h
    obtain ⟨t, ht, rfl⟩ := h
    exact BinNode.eq_meaning_of_toTrie ht

/-- What an accepted bit string parsed to. -/
theorem fromBits_eq_ok {bits : List Bool} (hne : bits ≠ []) {m : ASMap}
    (h : fromBits bits = .ok m) :
    ∃ n j, BinNode.parse bits (bits.length + 1) 0 = .ok (n, j) ∧ m.trie = n.meaning 0 := by
  rw [fromBits, if_neg (by simpa using hne)] at h
  cases hp : BinNode.parse bits (bits.length + 1) 0 with
  | error e => rw [hp] at h; cases h
  | ok r =>
    rw [hp] at h
    refine ⟨r.1, r.2, rfl, ?_⟩
    simp only [bind, Except.bind] at h
    split at h
    · cases h
    · split at h
      · cases h
      · cases hn : fromBinnode r.1 with
        | none => rw [hn] at h; cases h
        | some m' =>
          rw [hn] at h
          cases h
          exact trie_eq_meaning_of_fromBinnode hn

theorem canonical_of_fromBinary {bytes : List UInt8} {m : ASMap} (h : fromBinary bytes = .ok m) :
    m.trie.Canonical := by
  by_cases hne : bytes.flatMap byteBits = []
  · rw [fromBinary, hne] at h
    cases h
    trivial
  · obtain ⟨n, j, -, hm⟩ := fromBits_eq_ok hne h
    rw [hm]
    exact n.canonical_meaning 0

/-- The maps built by any sequence of the codec's constructors and updates. -/
inductive Reachable : ASMap → Prop
  | new : Reachable new
  | update {m : ASMap} (h : Reachable m) (pfx : List Bool) (asn : ℕ) : Reachable (m.update pfx asn)
  | updateMulti {m : ASMap} (h : Reachable m) (entries : List ASNEntry) :
      Reachable (m.updateMulti entries)
  | fromBinary {bytes : List UInt8} {m : ASMap} (h : fromBinary bytes = .ok m) : Reachable m

/-- **Reachable maps are canonical.** -/
theorem Reachable.canonical {m : ASMap} (h : m.Reachable) : m.trie.Canonical := by
  induction h with
  | new => trivial
  | update h pfx asn ih => exact ih.update pfx asn
  | updateMulti h entries ih => exact canonical_updateMulti ih entries
  | fromBinary h => exact canonical_of_fromBinary h

/-! ### The round trip -/

/-- A written program is read back from its padded bits. -/
theorem fromBits_encode {n : BinNode} (hn : n.Valid) {w : List Bool} (hw : n.encode = .ok w) {k : ℕ}
    (hk : k < 8) : fromBits (w ++ List.replicate k false) = .ok ⟨n.meaning 0⟩ := by
  obtain ⟨w', hw', hlen, hparse⟩ := hn.encode_parse
  obtain rfl : w' = w := Except.ok.inj (hw'.symm.trans hw)
  have hsize := hn.le_size
  have hocc : OccursAt (w' ++ List.replicate k false) 0 w' :=
    occursAt_self [] w' (List.replicate k false)
  have htotal : (w' ++ List.replicate k false).length = n.size + k := by
    rw [List.length_append, List.length_replicate, hlen]
  have hrest : (w' ++ List.replicate k false).drop (0 + n.size) = List.replicate k false := by
    rw [Nat.zero_add, ← hlen, List.drop_left]
  have hne : (w' ++ List.replicate k false).isEmpty = false := by
    rw [List.isEmpty_eq_false_iff, ne_eq, ← List.length_eq_zero_iff, htotal]
    omega
  rw [fromBits, hne, hparse _ _ _ hocc (by omega)]
  simp only [bind, Except.bind, Bool.false_eq_true, if_false]
  rw [hrest, if_neg (by omega), if_neg (by simp), hn.closed.fromBinnode_eq]
  rfl

/-- The map has a program all of whose Jumps fit. -/
def Fits (m : ASMap) (fill : Bool) : Prop := ∃ n, m.toBinnode fill = .ok n ∧ n.JumpsFit

instance (m : ASMap) (fill : Bool) : Decidable (m.Fits fill) :=
  match h : m.toBinnode fill with
  | .ok n =>
    decidable_of_iff n.JumpsFit ⟨fun hfit => ⟨n, h, hfit⟩, fun ⟨_, hn, hfit⟩ =>
      Except.ok.inj (h.symm.trans hn) ▸ hfit⟩
  | .error _ => isFalse fun ⟨_, hn, _⟩ => by cases h.symm.trans hn

/-- Where all the candidates are in range, so are the Jumps of the program they were tried for. -/
theorem fits_of_jumpsInRange {fill : Bool} {m : ASMap} (hasn : ∀ v ∈ m.asns, v ≤ 33521664)
    (hjump : m.JumpsInRange fill) : m.Fits fill := by
  obtain ⟨n, hn, hprog, -⟩ := toBinnode_spec (fun _ => BinNode.buildable_of_le) hasn hjump
  refine ⟨n, hn, ?_⟩
  rcases hprog with rfl | hval
  · trivial
  · exact BinNode.Valid.jumpsFit hval

/-- What `to_binary` writes for a map that fits, and what it is read back as. -/
theorem toBinary_spec {fill : Bool} {m : ASMap} (hasn : ∀ v ∈ m.asns, v ≤ 33521664)
    (hfit : m.Fits fill) :
    ∃ bytes n, m.toBinary fill = .ok bytes ∧ fromBinary bytes = .ok ⟨n.meaning 0⟩ ∧
      Serves fill m.trie n 0 := by
  obtain ⟨n, hn, hfit⟩ := hfit
  obtain ⟨hprog, hserve⟩ := serves_of_toBinnode hasn hn
  rcases hprog with rfl | hval
  · have hbits : m.toBits fill = .ok [] := by
      simp only [toBits, hn, bind, Except.bind]
      rfl
    refine ⟨[], BinNode.endNode, ?_, rfl, hserve⟩
    simp only [toBinary, hbits, bind, Except.bind]
    rfl
  · have hval := hval.valid hfit
    obtain ⟨w, hw, -, -⟩ := hval.encode_parse
    have hbits : m.toBits fill = .ok w := by
      simp only [toBits, hn, bind, Except.bind, hval.isEnd, Bool.false_eq_true, if_false, hw]
    obtain ⟨k, hk, hpack⟩ := flatMap_byteBits_packLoop w 0 0 (by decide) (by decide)
    refine ⟨packLoop w 0 0, n, ?_, ?_, hserve⟩
    · simp only [toBinary, hbits, bind, Except.bind]
      rfl
    · rw [fromBinary, hpack]
      exact fromBits_encode hval hw hk

/-- A map that does not fit is not read back, should it be written at all. -/
theorem fromBinary_of_not_fits {fill : Bool} {m : ASMap} (hasn : ∀ v ∈ m.asns, v ≤ 33521664)
    (hfit : ¬m.Fits fill) {bytes : List UInt8} (h : m.toBinary fill = .ok bytes) :
    fromBinary bytes = .error .reject := by
  obtain ⟨w, hbits, h⟩ := bind_eq_ok.1 h
  obtain ⟨n, hn, hw⟩ := bind_eq_ok.1 hbits
  obtain rfl : packLoop w 0 0 = bytes := Except.ok.inj h
  have hnot : ¬n.JumpsFit := fun hn' => hfit ⟨n, hn, hn'⟩
  obtain ⟨rfl | hval, -⟩ := serves_of_toBinnode hasn hn
  · exact absurd trivial hnot
  · rw [if_neg (by rw [hval.isEnd]; decide)] at hw
    have hlen := hval.length_encode hw
    have hsize := hval.le_size
    obtain ⟨k, -, hpack⟩ := flatMap_byteBits_packLoop w 0 0 (by decide) (by decide)
    have hocc : OccursAt (w ++ List.replicate k false) 0 w :=
      occursAt_self [] w (List.replicate k false)
    have hparse := hval.encode_parse_reject hnot hw hocc
      (show n.size ≤ (w ++ List.replicate k false).length + 1 by
        rw [List.length_append]
        omega)
    have hne : (w ++ List.replicate k false).isEmpty = false := by
      rw [List.isEmpty_eq_false_iff, ne_eq, ← List.length_eq_zero_iff, List.length_append]
      omega
    rw [fromBinary, hpack]
    show fromBits (w ++ List.replicate k false) = _
    rw [fromBits, hne, hparse]
    rfl

theorem fromBinary_toBinary_of_canonical {m : ASMap} (hm : m.trie.Canonical)
    (hasn : ∀ v ∈ m.asns, v ≤ 33521664) (hfit : m.Fits false) :
    ∃ bytes, m.toBinary false = .ok bytes ∧ fromBinary bytes = .ok m := by
  obtain ⟨bytes, n, hbytes, hback, hserve⟩ := toBinary_spec hasn hfit
  refine ⟨bytes, hbytes, ?_⟩
  rw [hback, hserve.meaning_eq hm]

/-- **Lossless binary round trip.**  A reachable map with encodable ASNs, none of whose Jump
candidates is out of range, is written without aborting and read back as itself. -/
theorem fromBinary_toBinary {m : ASMap} (hm : m.Reachable) (hasn : ∀ v ∈ m.asns, v ≤ 33521664)
    (hjump : m.JumpsInRange false) :
    ∃ bytes, m.toBinary false = .ok bytes ∧ fromBinary bytes = .ok m :=
  fromBinary_toBinary_of_canonical hm.canonical hasn (fits_of_jumpsInRange hasn hjump)

/-- A map of two networks in two halves, which a Jump joins. -/
theorem fromBinary_toBinary_two_networks :
    let m := new.updateMulti [([true], 5), ([false, true], 7), ([false, false], 9)]
    ∃ bytes, m.toBinary false = .ok bytes ∧ fromBinary bytes = .ok m :=
  fromBinary_toBinary (.updateMulti .new _) (by decide) (by decide)

end ASMap

end AsmapQuorum

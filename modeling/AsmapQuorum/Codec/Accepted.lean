import AsmapQuorum.Codec.Interp
import AsmapQuorum.Codec.Io

/-!
# What the decoder accepts

`from_binary` rebuilds every program it reads with the smart constructors, so what it accepts is
within the ranges of the coders, whatever bytes it was given.

* `BinNode.parse_reads` — reading at a position comes to a valid program, of no more bits than were
  read, or to a rejection; **never to an abort**.
* `ASMap.fromBinary_ok_or_reject`, `ASMap.asns_le_of_fromBinary` — the same of whole files: a map
  with ASNs in range, or a rejection.
* `loadFile_encodable_iff` — hence **the loaded files that can be encoded** are those that are no
  text and the texts with ASNs in range.
-/

namespace AsmapQuorum

open Reading PrefixOverwrite

/-! ### Sizes -/

/-- A larger value takes no fewer bits, the classes being in order of their widths. -/
theorem VarLenCoder.sizeLoop_mono {cls : List ℕ} (hcls : cls.Pairwise (· ≤ ·)) {a b : ℕ}
    (h : a ≤ b) :
    sizeLoop cls a ≤ sizeLoop cls b := by
  induction cls, a using sizeLoop.induct generalizing b with
  | case1 => exact Nat.zero_le _
  | case2 bits a hnext =>
    have hb : b >>> bits ≠ 0 :=
      (shiftRight_ne_zero _ _).2 (((shiftRight_ne_zero _ _).1 hnext).trans h)
    rw [sizeLoop, sizeLoop, if_pos hnext, if_pos hb]
  | case3 bits a hstay =>
    rw [sizeLoop, sizeLoop, if_neg hstay]
    split <;> omega
  | case4 bits next rest a hnext ih =>
    have hb : b >>> bits ≠ 0 :=
      (shiftRight_ne_zero _ _).2 (((shiftRight_ne_zero _ _).1 hnext).trans h)
    have hrest := ih (List.pairwise_cons.1 hcls).2 (Nat.sub_le_sub_right h (1 <<< bits))
    rw [sizeLoop, sizeLoop, if_pos hnext, if_pos hb]
    omega
  | case5 bits next rest a hstay =>
    rw [sizeLoop, sizeLoop, if_neg hstay]
    split
    · have hle := le_sizeLoop (k := bits) (next :: rest) (b - 1 <<< bits) (by simp)
        (List.pairwise_cons.1 hcls).1
      omega
    · exact Nat.le_refl _

namespace BinNode

theorem opSize_coderJump_mono {a b : ℕ} (h : a ≤ b) : opSize coderJump a ≤ opSize coderJump b :=
  VarLenCoder.sizeLoop_mono (by decide) (Nat.sub_le_sub_right h _)

/-- A value that was decoded can be encoded, in the bits it was read from. -/
theorem decode_bounds {c : VarLenCoder} (hc : c.Regular) {bits : List Bool} {i j v : ℕ}
    (h : c.decode bits i = some (v, j)) (hi : i ≤ bits.length) :
    c.canEncode v = true ∧ j = i + opSize c v ∧ j ≤ bits.length := by
  obtain ⟨w, hcan, -, hocc, hj, hsize⟩ := VarLenCoder.decode_spec hc h
  have hmin : c.minval ≤ v := (VarLenCoder.canEncode_iff.1 hcan).1
  have hop : opSize c v = j - i := Except.ok.inj ((encodeSize_eq hmin).symm.trans hsize)
  have hlen : w.length ≤ bits.length - i := by
    have := hocc.length_le
    rwa [List.length_drop] at this
  exact ⟨hcan, by omega, by omega⟩

/-! ### Reading a program -/

/-- What reading at a position may come to: a valid program of no more bits than were read, or a
rejection. -/
inductive Reads (bits : List Bool) (i : ℕ) : Parse (BinNode × ℕ) → Prop
  | accept {n : BinNode} {j : ℕ} (valid : n.Valid) (size_le : i + n.size ≤ j)
      (le_length : j ≤ bits.length) : Reads bits i (.ok (n, j))
  | reject : Reads bits i (.error .reject)

section Operands

variable {bits : List Bool} {i k : ℕ}

/-- The source's `?` on an operand: from then on it is a value in range. -/
theorem Reads.operand {c : VarLenCoder} (hc : c.Regular) (hk : k ≤ bits.length)
    {f : ℕ × ℕ → Parse (BinNode × ℕ)}
    (hf : ∀ v j, c.canEncode v = true → j = k + opSize c v → j ≤ bits.length →
      Reads bits i (f (v, j))) :
    Reads bits i (Parse.ofOption (c.decode bits k) >>= f) := by
  cases hdec : c.decode bits k with
  | none => exact .reject
  | some r =>
    obtain ⟨v, j⟩ := r
    obtain ⟨hcan, hj, hle⟩ := decode_bounds hc hdec hk
    exact hf v j hcan hj hle

/-- The source's `?` on a subprogram. -/
theorem Reads.sub {x : Parse (BinNode × ℕ)} (hx : Reads bits k x)
    {f : BinNode × ℕ → Parse (BinNode × ℕ)}
    (hf : ∀ n j, n.Valid → k + n.size ≤ j → j ≤ bits.length → Reads bits i (f (n, j))) :
    Reads bits i (x >>= f) := by
  cases hx with
  | accept hn hsize hle => exact hf _ _ hn hsize hle
  | reject => exact .reject

/-- A node that could be built. -/
theorem Reads.node {e : Except Panic BinNode} {n : BinNode} (he : e = .ok n) {j : ℕ} (hn : n.Valid)
    (hsize : i + n.size ≤ j) (hle : j ≤ bits.length) :
    Reads bits i (Parse.ofExcept e >>= fun node => pure (node, j)) := by
  subst he
  exact .accept hn hsize hle

/-- What `default` makes of a valid program: itself, where the default cannot matter, and otherwise
a Default in front of it. -/
theorem default_valid {v : ℕ} (hv : coderAsn.canEncode v) {sub : BinNode} (hs : sub.Valid) :
    ∃ n, default v sub = .ok n ∧ n.Valid ∧ n.size ≤ 3 + opSize coderAsn v + sub.size := by
  have hone := (canEncode_coderAsn.1 hv).1
  cases sub with
  | Return w size => exact ⟨_, rfl, hs, by omega⟩
  | Default w sub size => exact ⟨_, rfl, hs, by omega⟩
  | Jump l r size => exact ⟨_, default_default hone (.inl rfl), ⟨hs, hv, .inl rfl, rfl⟩,
    Nat.le_refl _⟩
  | Match w sub size =>
    exact ⟨_, default_default hone (.inr rfl), ⟨hs, hv, .inr rfl, rfl⟩, Nat.le_refl _⟩
  | End size => exact hs.elim

/-- One instruction of `opSize coderIns` bits, and what it needs behind it. -/
theorem parseOperands_reads {recurse : ℕ → Parse (BinNode × ℕ)} (ins : Instruction)
    (hins : ins ≠ .End) (hk : k = i + opSize coderIns ins.toNat) (hle : k ≤ bits.length)
    (hrec : ∀ k', k ≤ k' → k' ≤ bits.length → Reads bits k' (recurse k')) :
    Reads bits i (parseOperands bits recurse ins k) := by
  cases ins with
  | Return =>
    have hk : k = i + 1 := hk
    refine .operand regular_coderAsn hle fun asn j hcan hj hlej => ?_
    refine .node (leaf_eq (canEncode_coderAsn.1 hcan).1) ⟨hcan, rfl⟩ ?_ hlej
    rw [size_Return]
    omega
  | Jump =>
    have hk : k = i + 2 := hk
    refine .operand regular_coderJump hle fun jump k₁ hcan hk₁ hle₁ => ?_
    have hmax := (canEncode_coderJump.1 hcan).2
    refine (hrec k₁ (by omega) hle₁).sub fun l k₂ hl hsizel hle₂ => ?_
    dsimp only
    split
    · exact .reject
    · next hpos =>
      refine (hrec k₂ (by omega) hle₂).sub fun r k₃ hr hsizer hle₃ => ?_
      -- the left program takes at most the bits that are skipped
      have hfit : l.size ≤ jumpMax := by omega
      have hop := opSize_coderJump_mono (show l.size ≤ jump by omega)
      refine .node (branch_jump hl.isEnd hr.isEnd (buildable_of_le hl.le_size hfit))
        ⟨hl, hr, hfit, rfl⟩ ?_ hle₃
      rw [size_Jump, asU32_eq hfit]
      omega
  | Match =>
    have hk : k = i + 3 := hk
    refine .operand regular_coderMatch hle fun val k₁ hcan hk₁ hle₁ => ?_
    refine (hrec k₁ (by omega) hle₁).sub fun sub k₂ hs hsize hle₂ => ?_
    refine .node (matchNode_eq (canEncode_coderMatch.1 hcan).1 sub) ⟨hs, hcan, rfl⟩ ?_ hle₂
    rw [size_Match]
    omega
  | Default =>
    have hk : k = i + 3 := hk
    refine .operand regular_coderAsn hle fun asn k₁ hcan hk₁ hle₁ => ?_
    refine (hrec k₁ (by omega) hle₁).sub fun sub k₂ hs hsize hle₂ => ?_
    obtain ⟨n, hn, hval, hless⟩ := default_valid hcan hs
    exact .node hn hval (by omega) hle₂
  | End => exact absurd rfl hins

end Operands

/-- **Reading a program** comes to a valid one or to a rejection. -/
theorem parse_reads {bits : List Bool} {fuel : ℕ} : ∀ {i : ℕ}, i ≤ bits.length →
    bits.length < i + fuel → Reads bits i (parse bits fuel i) := by
  induction fuel with
  | zero =>
    intro i hi hfuel
    omega
  | succ fuel ih =>
    intro i hi hfuel
    refine .operand regular_coderIns hi fun insval k hcan hk hle => ?_
    have hthree := canEncode_coderIns.1 hcan
    have hpos : 1 ≤ opSize coderIns insval := by
      obtain rfl | rfl | rfl | rfl : insval = 0 ∨ insval = 1 ∨ insval = 2 ∨ insval = 3 := by omega
      all_goals decide
    have hrec : ∀ k', k ≤ k' → k' ≤ bits.length → Reads bits k' (parse bits fuel k') :=
      fun k' hk' hle' => ih hle' (by omega)
    obtain rfl | rfl | rfl | rfl : insval = 0 ∨ insval = 1 ∨ insval = 2 ∨ insval = 3 := by omega
    · exact parseOperands_reads .Return (by decide) hk hle hrec
    · exact parseOperands_reads .Jump (by decide) hk hle hrec
    · exact parseOperands_reads .Match (by decide) hk hle hrec
    · exact parseOperands_reads .Default (by decide) hk hle hrec

theorem mem_asns_matchTrie {d val v : ℕ} {sub : TrieNode} (h : v ∈ (matchTrie d val sub).asns) :
    v = d ∨ v ∈ sub.asns := by
  induction val using Nat.strong_induction_on generalizing sub with
  | _ val ih =>
    by_cases hval : val < 2
    · rw [matchTrie_of_lt d hval] at h
      exact .inr h
    · rw [matchTrie_of_le d (Nat.not_lt.1 hval)] at h
      rcases ih _ (by omega) h with h | h
      · exact .inl h
      · split at h
        · exact (TrieNode.mem_asns_branch h).imp_left List.mem_singleton.1
        · exact (TrieNode.mem_asns_branch h).symm.imp_left List.mem_singleton.1

/-- The ASNs of a valid program's trie are its default and operands. -/
theorem Valid.asns_meaning_le {n : BinNode} (hn : n.Valid) {d v : ℕ} (hv : v ∈ (n.meaning d).asns) :
    v = d ∨ v ≤ 33521664 := by
  induction n generalizing d with
  | Return w size =>
    rw [List.mem_singleton.1 hv]
    exact .inr (canEncode_coderAsn.1 hn.1).2
  | Jump l r size ihl ihr =>
    rcases TrieNode.mem_asns_branch hv with hv | hv
    · exact ihl hn.1 hv
    · exact ihr hn.2.1 hv
  | Match val sub size ih =>
    rcases mem_asns_matchTrie hv with hv | hv
    · exact .inl hv
    · exact ih hn.1 hv
  | Default w sub size ih =>
    rcases ih hn.1 hv with hv | hv
    · rw [hv]
      exact .inr (canEncode_coderAsn.1 hn.2.1).2
    · exact .inr hv
  | End size => exact hn.elim

end BinNode

/-! ### Whole files -/

namespace ASMap

/-- What decoding a non-empty bit string comes to. -/
theorem fromBits_reads (bits : List Bool) :
    (∃ n : BinNode, n.Valid ∧ fromBits bits = .ok ⟨n.meaning 0⟩) ∨ fromBits bits = .ok new ∨
      fromBits bits = .error .reject := by
  unfold fromBits
  split
  · exact .inr (.inl rfl)
  · have hreads : BinNode.Reads bits 0 (BinNode.parse bits (bits.length + 1) 0) :=
      BinNode.parse_reads (Nat.zero_le _) (by omega)
    cases hparse : BinNode.parse bits (bits.length + 1) 0 with
    | error stop =>
      rw [hparse] at hreads
      cases hreads
      exact .inr (.inr rfl)
    | ok r =>
      rw [hparse] at hreads
      cases hreads with
      | accept hn hsize hle =>
        simp only [bind, Except.bind]
        split
        · exact .inr (.inr rfl)
        · split
          · exact .inr (.inr rfl)
          · refine .inl ⟨_, hn, ?_⟩
            rw [BinNode.ValidWith.closed hn |>.fromBinnode_eq]
            rfl

/-- **`from_binary` never aborts.** -/
theorem fromBinary_ok_or_reject (bindata : List UInt8) :
    (∃ m, fromBinary bindata = .ok m) ∨ fromBinary bindata = .error .reject := by
  rcases fromBits_reads (bindata.flatMap byteBits) with ⟨n, -, h⟩ | h | h
  · exact .inl ⟨_, h⟩
  · exact .inl ⟨_, h⟩
  · exact .inr h

/-- **The ASNs of a decoded map can be encoded.** -/
theorem asns_le_of_fromBinary {bindata : List UInt8} {m : ASMap} (h : fromBinary bindata = .ok m) :
    ∀ v ∈ m.asns, v ≤ 33521664 := by
  intro v hv
  unfold fromBinary at h
  rcases fromBits_reads (bindata.flatMap byteBits) with ⟨n, hn, hbits⟩ | hbits | hbits
  · obtain rfl : (⟨n.meaning 0⟩ : ASMap) = m := Except.ok.inj (hbits.symm.trans h)
    rcases hn.asns_meaning_le hv with rfl | hv
    · exact Nat.zero_le _
    · exact hv
  · obtain rfl : new = m := Except.ok.inj (hbits.symm.trans h)
    rw [List.mem_singleton.1 hv]
    exact Nat.zero_le _
  · rw [hbits] at h
    cases h

end ASMap

/-! ### Loaded files that can be encoded -/

/-- If the file is a text, then what its lines assign to a path is an ASN of the format, or none:
that of the longest listed network around the path, the last listed among equals. -/
def EncodableText (contents : List UInt8) : Prop :=
  ∀ entries, AsmapText contents entries → ∀ x, assignMulti (fun _ => 0) entries x ≤ 33521664

/-- A file says one list of entries. -/
theorem AsmapText.unique {contents : List UInt8} {L M : List ASNEntry} (hL : AsmapText contents L)
    (hM : AsmapText contents M) : L = M :=
  Except.ok.inj ((textEntries_eq_ok.2 hL).symm.trans (textEntries_eq_ok.2 hM))

/-- The ASNs of a loaded map are in range exactly if those of its text are. -/
theorem asns_le_of_loadFile {contents : List UInt8} {inputName : String} {m : ASMap}
    (h : loadFile contents inputName = .ok m) :
    (∀ v ∈ m.asns, v ≤ 33521664) ↔ EncodableText contents := by
  rcases loadFile_eq_ok.1 h with ⟨entries, htext, rfl, -⟩ | ⟨hno, hbin⟩
  · have hasn : (ASMap.new.updateMulti entries).trie.asnAt = assignMulti (fun _ => 0) entries := by
      rw [TrieNode.asnAt_updateMulti, TrieNode.asnAt_new]
    constructor
    · intro hle entries' htext' x
      rw [htext'.unique htext, ← hasn]
      exact hle _ (TrieNode.mem_asns_iff.2 ⟨x, rfl⟩)
    · intro hle v hv
      obtain ⟨x, rfl⟩ := TrieNode.mem_asns_iff.1 hv
      rw [hasn]
      exact hle entries htext x
  · exact ⟨fun _ entries htext => absurd ⟨entries, htext⟩ hno,
      fun _ => ASMap.asns_le_of_fromBinary hbin⟩

theorem canonical_of_loadFile {contents : List UInt8} {inputName : String} {m : ASMap}
    (h : loadFile contents inputName = .ok m) : m.trie.Canonical := by
  rcases loadFile_eq_ok.1 h with ⟨entries, -, rfl, -⟩ | ⟨-, hbin⟩
  · exact ASMap.canonical_updateMulti (m := ASMap.new) trivial entries
  · exact ASMap.canonical_of_fromBinary hbin

/-- **Which loaded files can be encoded.**  A loaded map none of whose Jump candidates is out of
range is written and read back as itself, and written with `fill`, exactly if the file is no text
that assigns an ASN beyond the range of `coderAsn`. -/
theorem loadFile_encodable_iff {contents : List UInt8} {inputName : String} {m : ASMap}
    (h : loadFile contents inputName = .ok m) (hjump : ∀ fill, m.JumpsInRange fill) :
    ((∃ bytes, m.toBinary false = .ok bytes ∧ ASMap.fromBinary bytes = .ok m) ∧
      ∃ bytes, m.toBinary true = .ok bytes) ↔ EncodableText contents := by
  rw [← asns_le_of_loadFile h]
  constructor
  · rintro ⟨⟨bytes, -, hback⟩, -⟩
    exact ASMap.asns_le_of_fromBinary hback
  · intro hasn
    obtain ⟨filled, -, hfilled, -⟩ :=
      ASMap.toBinary_spec hasn (ASMap.fits_of_jumpsInRange hasn (hjump true))
    exact ⟨ASMap.fromBinary_toBinary_of_canonical (canonical_of_loadFile h) hasn
      (ASMap.fits_of_jumpsInRange hasn (hjump false)), filled, hfilled⟩

/-- `::/1 AS5`. -/
theorem loadFile_encodable_iff_one_line :
    let contents := [58, 58, 47, 49, 32, 65, 83, 53]
    let m : ASMap := ⟨.Branch (.Leaf 5) (.Leaf 0)⟩
    ((∃ bytes, m.toBinary false = .ok bytes ∧ ASMap.fromBinary bytes = .ok m) ∧
      ∃ bytes, m.toBinary true = .ok bytes) ↔ EncodableText contents := by
  intro contents m
  have hload : loadFile contents "map.txt" = .ok m := by decide +kernel
  exact loadFile_encodable_iff hload (by decide +kernel)

/-- `::/1 AS4200000000`, an ASN for private use, loads, and encoding what was loaded aborts. -/
theorem loadFile_private_asn :
    let contents := [58, 58, 47, 49, 32, 65, 83, 52, 50, 48, 48, 48, 48, 48, 48, 48, 48]
    ∃ m, loadFile contents "map.txt" = .ok m ∧ (∀ fill, m.JumpsInRange fill) ∧
      ∀ fill, m.toBinary fill = .error .assertionFailed :=
  ⟨⟨.Branch (.Leaf 4200000000) (.Leaf 0)⟩, by decide +kernel, by decide +kernel, by decide +kernel⟩

end AsmapQuorum

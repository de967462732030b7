import AsmapQuorum.Codec.Accepted
import AsmapQuorum.Codec.Reference

/-!
# The decoder and the reference

The two decoders read the same instructions, but the crate's rebuilds every node with the smart
constructors and the reference keeps what it read.

* `Reference.encode_eq`, `encodeSize_eq`, `decode_eq` — the coders compute the same.
* `ReadsAlike` — what reading at a position comes to in both: two programs with the same meaning,
  the rebuilt one no longer than the raw one, whose size is the number of bits read; or two
  rejections.
* `Reference.fromBinary_eq` — **the decoders accept the same files, as the same tries**.
-/

namespace AsmapQuorum

open Reading

namespace Reference

/-! ### The coders -/

/-- `(v >> i) & 1` is a bit of `v`. -/
theorem bit_eq_testBit (v i : ℕ) : ((v >>> i) &&& 1 == 1) = v.testBit i := by
  rw [Nat.testBit_eq_decide_div_mod_eq, Nat.and_one_is_mod, Nat.shiftRight_eq_div_pow]
  rfl

theorem bitsOf_eq_bigEndian (n v : ℕ) :
    ((List.range n).map fun b => (v >>> (n - 1 - b)) &&& 1 == 1) = bigEndian n v := by
  induction n with
  | zero => rfl
  | succ n ih =>
    rw [List.range_succ_eq_map, List.map_cons, List.map_map, bigEndian, ← ih, ← bit_eq_testBit]
    congr 1
    refine List.map_congr_left fun b _ => ?_
    rw [Function.comp_apply, show n + 1 - 1 - b.succ = n - 1 - b by omega]

theorem encodeLoop_eq (cls : List ℕ) (val : ℕ) (hne : cls ≠ []) (k b : ℕ) :
    (encodeLoop (k + cls.length) cls k b val).1 ++
      bigEndian (encodeLoop (k + cls.length) cls k b val).2.2
        (encodeLoop (k + cls.length) cls k b val).2.1 = VarLenCoder.encodeLoop cls val := by
  induction cls, val using VarLenCoder.encodeLoop.induct generalizing k b with
  | case1 => exact absurd rfl hne
  | case2 bits val h => simp [encodeLoop, VarLenCoder.encodeLoop, h]
  | case3 bits val h => simp [encodeLoop, VarLenCoder.encodeLoop, h]
  | case4 bits next rest val h ih =>
    have hrest := ih (List.cons_ne_nil _ _) (k + 1) bits
    rw [show k + 1 + (next :: rest).length = k + (bits :: next :: rest).length by
      simp [Nat.add_assoc, Nat.add_comm 1]] at hrest
    rw [encodeLoop, VarLenCoder.encodeLoop, if_pos h, if_pos h]
    exact congrArg (true :: ·) hrest
  | case5 bits next rest val h => simp [encodeLoop, VarLenCoder.encodeLoop, h]

theorem sizeLoop_eq (cls : List ℕ) (val : ℕ) (hne : cls ≠ []) (k b : ℕ) :
    (sizeLoop (k + cls.length) cls k b val).1 + (sizeLoop (k + cls.length) cls k b val).2 =
      VarLenCoder.sizeLoop cls val := by
  induction cls, val using VarLenCoder.sizeLoop.induct generalizing k b with
  | case1 => exact absurd rfl hne
  | case2 bits val h => simp [sizeLoop, VarLenCoder.sizeLoop, h]
  | case3 bits val h => simp [sizeLoop, VarLenCoder.sizeLoop, h]
  | case4 bits next rest val h ih =>
    have hrest := ih (List.cons_ne_nil _ _) (k + 1) bits
    rw [show k + 1 + (next :: rest).length = k + (bits :: next :: rest).length by
      simp [Nat.add_assoc, Nat.add_comm 1]] at hrest
    rw [sizeLoop, VarLenCoder.sizeLoop, if_pos h, if_pos h, ← hrest]
    dsimp only
    omega
  | case5 bits next rest val h => simp [sizeLoop, VarLenCoder.sizeLoop, h]

section Coders

variable {c : VarLenCoder} (hc : c.Regular)
include hc

/-- **`encode`**: the same bits for a value in range. -/
theorem encode_eq {v : ℕ} {w : List Bool} (h : c.encode v = .ok w) : encode c v = .ok w := by
  have hcan := BinNode.canEncode_of_encode h
  rw [VarLenCoder.encode, if_pos hcan] at h
  have hloop := encodeLoop_eq c.clsbits (v - c.minval) hc.ne_nil 0 0
  rw [Nat.zero_add, Except.ok.inj h] at hloop
  have hcheck : check (canEncode c v) = .ok () := if_pos hcan
  simp only [encode, hcheck, bind, Except.bind, pure, Except.pure, bitsOf_eq_bigEndian, hloop]

/-- **`encode_size`**: the same size for a value in range. -/
theorem encodeSize_eq {v : ℕ} (h : c.canEncode v = true) :
    encodeSize c v = .ok (BinNode.opSize c v) := by
  have hloop := sizeLoop_eq c.clsbits (v - c.minval) hc.ne_nil 0 0
  rw [Nat.zero_add] at hloop
  have hcheck : check (canEncode c v) = .ok () := if_pos h
  simp only [encodeSize, hcheck, bind, Except.bind, pure, Except.pure, hloop]
  rfl

end Coders

/-- The source's `?`, as the exception the reference raises there. -/
def ofOption {α : Type} : Option α → Except PyError α
  | some a => .ok a
  | none => .error .IndexError

theorem positionLoop_eq (s : List Bool) (n k i val : ℕ) :
    positionLoop s (k + n) (List.range' k n) i val = ofOption (readBits s n i val) := by
  induction n generalizing k i val with
  | zero => rfl
  | succ n ih =>
    rw [List.range'_succ, positionLoop, readBits, index]
    cases hbit : s[i]? with
    | none => rfl
    | some bit =>
      have hstep := ih (k + 1) (i + 1) (val + bit.toNat <<< n)
      rw [show k + 1 + n = k + (n + 1) by omega] at hstep
      simp only [bind, Except.bind]
      rw [show k + (n + 1) - 1 - k = n by omega]
      exact hstep

theorem classLoop_eq (s : List Bool) (cls : List ℕ) (hne : cls ≠ []) (k b i val : ℕ) :
    (do
      let (val, bits, i) ← classLoop s (k + cls.length) cls k b i val
      positionLoop s bits (List.range bits) i val) = ofOption
        (VarLenCoder.decodeLoop s cls i val) := by
  have hread : ∀ bits i val, positionLoop s bits (List.range bits) i val = ofOption
      (readBits s bits i val) := by
    intro bits i val
    have := positionLoop_eq s bits 0 i val
    rwa [Nat.zero_add, ← List.range_eq_range'] at this
  induction cls generalizing k b i val with
  | nil => exact absurd rfl hne
  | cons bits rest ih =>
    cases rest with
    | nil =>
      simp only [classLoop, VarLenCoder.decodeLoop, List.length_cons, List.length_nil, Nat.zero_add,
        Nat.lt_irrefl, if_false, bind, Except.bind, pure, Except.pure, Bool.not_false, if_true]
      exact hread bits i val
    | cons next rest =>
      have hlast : k + 1 < k + (bits :: next :: rest).length := by
        rw [List.length_cons, List.length_cons]
        omega
      rw [classLoop, VarLenCoder.decodeLoop, if_pos hlast, index]
      cases hbit : s[i]? with
      | none => rfl
      | some bit =>
        cases bit with
        | false => exact hread bits (i + 1) val
        | true =>
          have hrest := ih (List.cons_ne_nil _ _) (k + 1) bits (i + 1) (val + 1 <<< bits)
          rw [show k + 1 + (next :: rest).length = k + (bits :: next :: rest).length by
            simp [Nat.add_assoc, Nat.add_comm 1]] at hrest
          exact hrest

/-- **`decode`**: the same value and position, or an index out of range. -/
theorem decode_eq {c : VarLenCoder} (hc : c.Regular) (s : List Bool) (i : ℕ) :
    decode c s i = ofOption (c.decode s i) := by
  have hloop := classLoop_eq s c.clsbits hc.ne_nil 0 0 i c.minval
  rw [Nat.zero_add] at hloop
  exact hloop

/-! ### The nodes -/

theorem newReturn_eq {asn : ℕ} (h : AsmapQuorum.coderAsn.canEncode asn = true) :
    newReturn asn = .ok (.Return asn (1 + BinNode.opSize AsmapQuorum.coderAsn asn)) := by
  have hins : encodeSize coderIns Instruction.Return.toNat = .ok 1 := rfl
  have hasn : encodeSize coderAsn asn = .ok _ := encodeSize_eq regular_coderAsn h
  simp only [newReturn, hins, hasn, bind, Except.bind, pure, Except.pure]

theorem newJump_eq {node0 : BinNode} (h : AsmapQuorum.coderJump.canEncode node0.size = true)
    (node1 : BinNode) : newJump node0 node1 = .ok (.Jump node0 node1
      (2 + BinNode.opSize AsmapQuorum.coderJump node0.size + node0.size + node1.size)) := by
  have hins : encodeSize coderIns Instruction.Jump.toNat = .ok 2 := rfl
  have hjump : encodeSize coderJump node0.size = .ok _ := encodeSize_eq regular_coderJump h
  simp only [newJump, hins, hjump, bind, Except.bind, pure, Except.pure]

theorem newMatch_eq {val : ℕ} (h : AsmapQuorum.coderMatch.canEncode val = true) (node : BinNode) :
    newMatch val node =
      .ok (.Match val node (3 + BinNode.opSize AsmapQuorum.coderMatch val + node.size)) := by
  have hins : encodeSize coderIns Instruction.Match.toNat = .ok 3 := rfl
  have hval : encodeSize coderMatch val = .ok _ := encodeSize_eq regular_coderMatch h
  simp only [newMatch, hins, hval, bind, Except.bind, pure, Except.pure]

theorem newDefault_eq {asn : ℕ} (h : AsmapQuorum.coderAsn.canEncode asn = true) (node : BinNode) :
    newDefault asn node =
      .ok (.Default asn node (3 + BinNode.opSize AsmapQuorum.coderAsn asn + node.size)) := by
  have hins : encodeSize coderIns Instruction.Default.toNat = .ok 3 := rfl
  have hasn : encodeSize coderAsn asn = .ok _ := encodeSize_eq regular_coderAsn h
  simp only [newDefault, hins, hasn, bind, Except.bind, pure, Except.pure]

/-! ### Reading a program -/

/-- The exceptions that `from_binary` catches. -/
def Caught (e : PyError) : Prop := e = .ValueError ∨ e = .IndexError

/-- A rebuilt program and the raw one it was rebuilt from. -/
structure Alike (n raw : BinNode) : Prop where
  size_le : n.size ≤ raw.size
  closed : raw.Closed
  meaning : ∀ d, n.meaning d = raw.meaning d

/-- What reading at a position comes to in both decoders. -/
inductive ReadsAlike (bits : List Bool) (i : ℕ) :
    Parse (BinNode × ℕ) → Except PyError (BinNode × ℕ) → Prop
  | accept {n raw : BinNode} {j : ℕ} (valid : n.Valid) (alike : Alike n raw)
      (read : i + raw.size = j)
      (le_length : j ≤ bits.length) : ReadsAlike bits i (.ok (n, j)) (.ok (raw, j))
  | reject {e : PyError} (caught : Caught e) : ReadsAlike bits i (.error .reject) (.error e)

namespace ReadsAlike

variable {bits : List Bool} {i k : ℕ}

/-- Both read an operand, or neither does. -/
theorem operand {c : VarLenCoder} (hc : c.Regular) (hk : k ≤ bits.length)
    {f : ℕ × ℕ → Parse (BinNode × ℕ)} {g : ℕ × ℕ → Except PyError (BinNode × ℕ)}
    (hfg : ∀ v j, c.canEncode v = true → j = k + BinNode.opSize c v → j ≤ bits.length →
      ReadsAlike bits i (f (v, j)) (g (v, j))) :
    ReadsAlike bits i (Parse.ofOption (c.decode bits k) >>= f) (decode c bits k >>= g) := by
  rw [decode_eq hc]
  cases hdec : c.decode bits k with
  | none => exact .reject (.inr rfl)
  | some r =>
    obtain ⟨v, j⟩ := r
    obtain ⟨hcan, hj, hle⟩ := BinNode.decode_bounds hc hdec hk
    exact hfg v j hcan hj hle

/-- Both read a subprogram, or neither does. -/
theorem sub {x : Parse (BinNode × ℕ)} {y : Except PyError (BinNode × ℕ)} (h : ReadsAlike bits k x y)
    {f : BinNode × ℕ → Parse (BinNode × ℕ)} {g : BinNode × ℕ → Except PyError (BinNode × ℕ)}
    (hfg : ∀ (n raw : BinNode) (j : ℕ), n.Valid → Alike n raw → k + raw.size = j → j ≤ bits.length →
      ReadsAlike bits i (f (n, j)) (g (raw, j))) :
    ReadsAlike bits i (x >>= f) (y >>= g) := by
  cases h with
  | accept hn halike hread hle => exact hfg _ _ _ hn halike hread hle
  | reject he => exact .reject he

/-- Both build the node. -/
theorem node {e : Except Panic BinNode} {e' : Except PyError BinNode} {n raw : BinNode}
    (he : e = .ok n) (he' : e' = .ok raw) {j : ℕ} (hn : n.Valid) (halike : Alike n raw)
    (hread : i + raw.size = j) (hle : j ≤ bits.length) :
    ReadsAlike bits i (Parse.ofExcept e >>= fun node => pure (node, j))
      (e' >>= fun node => pure (node, j)) := by
  subst he he'
  exact .accept hn halike hread hle

end ReadsAlike

/-- A Default is dropped where it cannot matter, and kept in the raw program. -/
theorem alike_default {asn : ℕ} (h : AsmapQuorum.coderAsn.canEncode asn = true) {sub raw : BinNode}
    (hs : sub.Valid) (halike : Alike sub raw) :
    ∃ n, BinNode.default asn sub = .ok n ∧ n.Valid ∧
      Alike n (.Default asn raw (3 + BinNode.opSize AsmapQuorum.coderAsn asn + raw.size)) := by
  obtain ⟨n, hn, hval, hsize⟩ := BinNode.default_valid h hs
  obtain ⟨-, hmean⟩ := BinNode.default_ok hs.isEnd hn
  refine ⟨n, hn, hval, ⟨?_, halike.closed, fun d => ?_⟩⟩
  · have := halike.size_le
    rw [BinNode.size_Default]
    omega
  · rw [hmean, halike.meaning]
    rfl

/-- **Reading a program** comes to the same in both decoders. -/
theorem parse_readsAlike {bits : List Bool} {fuel : ℕ} : ∀ {i : ℕ}, i ≤ bits.length →
    bits.length < i + fuel → ReadsAlike bits i (BinNode.parse bits fuel i) (parse bits fuel i) := by
  induction fuel with
  | zero =>
    intro i hi hfuel
    omega
  | succ fuel ih =>
    intro i hi hfuel
    refine .operand regular_coderIns hi fun insval k hcan hk hle => ?_
    have hthree := canEncode_coderIns.1 hcan
    obtain rfl | rfl | rfl | rfl : insval = 0 ∨ insval = 1 ∨ insval = 2 ∨ insval = 3 := by omega
    · -- RETURN
      have hk : k = i + 1 := hk
      refine .operand regular_coderAsn hle fun asn j hcan hj hlej => ?_
      refine .node (BinNode.leaf_eq (canEncode_coderAsn.1 hcan).1) (newReturn_eq hcan) ⟨hcan, rfl⟩
        ⟨Nat.le_refl _, trivial, fun _ => rfl⟩ ?_ hlej
      rw [BinNode.size_Return]
      omega
    · -- JUMP
      have hk : k = i + 2 := hk
      refine .operand regular_coderJump hle fun jump k₁ hcan hk₁ hle₁ => ?_
      have hmax := (canEncode_coderJump.1 hcan).2
      refine (ih hle₁ (by omega)).sub fun l rawl k₂ hl halikel hreadl hle₂ => ?_
      dsimp only
      split
      · exact .reject (.inl rfl)
      · next hpos =>
        refine (ih hle₂ (by omega)).sub fun r rawr k₃ hr haliker hreadr hle₃ => ?_
        -- the raw program on the left has the size that is skipped, the rebuilt one at most that
        have hjump : rawl.size = jump := by omega
        have hsizel := halikel.size_le
        have hsizer := haliker.size_le
        have hfit : l.size ≤ jumpMax := by omega
        have hop := BinNode.opSize_coderJump_mono (hjump ▸ hsizel)
        refine .node (BinNode.branch_jump hl.isEnd hr.isEnd
          (BinNode.buildable_of_le hl.le_size hfit))
          (newJump_eq (hjump ▸ hcan) rawr) ⟨hl, hr, hfit, rfl⟩
          ⟨?_, ⟨halikel.closed, haliker.closed⟩, fun d => ?_⟩ ?_ hle₃
        · rw [BinNode.size_Jump, BinNode.size_Jump, BinNode.asU32_eq hfit, hjump]
          omega
        · rw [BinNode.meaning, BinNode.meaning, halikel.meaning, haliker.meaning]
        · rw [BinNode.size_Jump, hjump]
          omega
    · -- MATCH
      have hk : k = i + 3 := hk
      refine .operand regular_coderMatch hle fun val k₁ hcan hk₁ hle₁ => ?_
      refine (ih hle₁ (by omega)).sub fun sub raw k₂ hs halike hread hle₂ => ?_
      have hsize := halike.size_le
      refine .node (BinNode.matchNode_eq (canEncode_coderMatch.1 hcan).1 sub) (newMatch_eq hcan raw)
        ⟨hs, hcan, rfl⟩ ⟨?_, halike.closed, fun d => ?_⟩ ?_ hle₂
      · rw [BinNode.size_Match, BinNode.size_Match]
        omega
      · rw [BinNode.meaning, BinNode.meaning, halike.meaning]
      · rw [BinNode.size_Match]
        omega
    · -- DEFAULT
      have hk : k = i + 3 := hk
      refine .operand regular_coderAsn hle fun asn k₁ hcan hk₁ hle₁ => ?_
      refine (ih hle₁ (by omega)).sub fun sub raw k₂ hs halike hread hle₂ => ?_
      obtain ⟨n, hn, hval, halike'⟩ := alike_default hcan hs halike
      refine .node hn (newDefault_eq hcan raw) hval halike' ?_ hle₂
      rw [BinNode.size_Default]
      omega

/-! ### The trie -/

/-- Merging from below is merging while building. -/
theorem setTrie_Branch (l r : TrieNode) : setTrie (.Branch l r) = .branch (setTrie l)
    (setTrie r) := by
  rw [setTrie]
  cases setTrie l with
  | Leaf a =>
    cases setTrie r with
    | Leaf b => simp [TrieNode.branch]
    | Branch l' r' => simp [TrieNode.branch]
  | Branch l' r' => rfl

theorem setTrie_matchLoop (d fuel val : ℕ) (sub : TrieNode) :
    setTrie (matchLoop d fuel val sub) = BinNode.matchLoop d fuel val (setTrie sub) := by
  induction fuel generalizing val sub with
  | zero => rfl
  | succ fuel ih =>
    rw [matchLoop, BinNode.matchLoop]
    split
    · rw [ih]
      split
      · rw [setTrie_Branch]
        rfl
      · rw [setTrie_Branch]
        rfl
    · rfl

/-- **The raw trie of a program**, merged, is its meaning. -/
theorem rawTrie_eq {n : BinNode} (h : n.Closed) (d : ℕ) :
    ∃ t, rawTrie n d = .ok t ∧ setTrie t = n.meaning d := by
  induction n generalizing d with
  | Return v size => exact ⟨_, rfl, rfl⟩
  | Jump l r size ihl ihr =>
    obtain ⟨tl, hl, hmeanl⟩ := ihl h.1 d
    obtain ⟨tr, hr, hmeanr⟩ := ihr h.2 d
    refine ⟨.Branch tl tr, ?_, ?_⟩
    · simp only [rawTrie, hl, hr, bind, Except.bind, pure, Except.pure]
    · rw [setTrie_Branch, hmeanl, hmeanr]
      rfl
  | Match val sub size ih =>
    obtain ⟨t, ht, hmean⟩ := ih h d
    refine ⟨matchLoop d val val t, ?_, ?_⟩
    · simp only [rawTrie, ht, bind, Except.bind, pure, Except.pure]
    · rw [setTrie_matchLoop, hmean]
      rfl
  | Default v sub size ih => exact ih h v
  | End size => exact h.elim

theorem fromBinnode_eq {n : BinNode} (h : n.Closed) : fromBinnode n = .ok (n.meaning 0) := by
  have hend : n.isEnd = false := by
    cases n with
    | End size => exact h.elim
    | _ => rfl
  obtain ⟨t, ht, hmean⟩ := rawTrie_eq h 0
  rw [fromBinnode, hend, ht, ← hmean]
  rfl

/-! ### Whole files -/

theorem fromBits_eq (bits : List Bool) :
    (∃ m, ASMap.fromBits bits = .ok m ∧ fromBits bits = .ok (some m.trie)) ∨
      ASMap.fromBits bits = .error .reject ∧ fromBits bits = .ok none := by
  unfold ASMap.fromBits fromBits
  by_cases hempty : bits.length = 0
  · obtain rfl := List.eq_nil_of_length_eq_zero hempty
    exact .inl ⟨ASMap.new, rfl, rfl⟩
  · rw [if_neg hempty, if_neg (by simpa using hempty)]
    have hread : ReadsAlike bits 0 (BinNode.parse bits (bits.length + 1) 0)
        (parse bits (bits.length + 1) 0) := parse_readsAlike (Nat.zero_le _) (by omega)
    revert hread
    generalize BinNode.parse bits (bits.length + 1) 0 = x
    generalize parse bits (bits.length + 1) 0 = y
    intro hread
    cases hread with
    | reject he =>
      refine .inr ⟨rfl, ?_⟩
      rcases he with rfl | rfl <;> rfl
    | accept hn halike hread hle =>
      rename_i n raw j
      have hpad : ((j : ℤ) < bits.length - 7) ↔ j < bits.length - 7 := by omega
      have hzero : (!(bits.drop j).all (· == false)) = (bits.drop j).any (· != false) := by
        rw [List.not_all_eq_any_not]
        rfl
      simp only [bind, Except.bind]
      rw [hzero, if_congr hpad rfl rfl]
      split
      · exact .inr ⟨rfl, rfl⟩
      · split
        · exact .inr ⟨rfl, rfl⟩
        · refine .inl ⟨⟨n.meaning 0⟩, ?_, ?_⟩
          · rw [(BinNode.ValidWith.closed hn).fromBinnode_eq]
            rfl
          · rw [fromBinnode_eq halike.closed, halike.meaning]
            rfl

/-- **The decoders agree**: both make the same trie of a file, or both reject it. -/
theorem fromBinary_eq (bindata : List UInt8) :
    (∃ m, ASMap.fromBinary bindata = .ok m ∧ fromBinary bindata = .ok (some m.trie)) ∨
      ASMap.fromBinary bindata = .error .reject ∧ fromBinary bindata = .ok none := by
  have hbits : (fun byte : UInt8 => (List.range 8).map fun i => (byte.toNat >>> i) &&& 1 == 1) =
      byteBits := by
    funext byte
    exact List.map_congr_left fun i _ => bit_eq_testBit byte.toNat i
  unfold ASMap.fromBinary fromBinary
  rw [hbits]
  exact fromBits_eq _

end Reference

end AsmapQuorum

import AsmapQuorum.Codec.BinNode

/-!
# What programs mean, and that the format holds them exactly

* `BinNode.meaning` — the trie a program denotes under a default ASN; the empty program `End`
  denotes the default itself.  The smart constructors are the trie operations under this reading
  (`branch_spec`, `default_spec`, `leaf_spec`).
* `BinNode.ValidWith` — operands in range, stored sizes exact, no `End`, and every Jump over a left
  program of an allowed size.  The constructors keep it (`branch_spec`, `default_spec`), as they
  keep `BinNode.MadeWith`, which leaves open what ASNs there are.
* `BinNode.Valid` — the programs the format can hold.  A valid program encodes to exactly `size`
  bits and parses back to itself (`Valid.encode_parse`); **any other that is written is not read
  back** (`ValidWith.encode_parse_reject`), because the operand of a Jump is the size modulo `2 ^
  32`.
-/

namespace AsmapQuorum

open Reading PrefixOverwrite

/-! ### Match operands -/

theorem bitLengthU32_half {v : ℕ} (h : 2 ≤ v) : bitLengthU32 v = bitLengthU32 (v / 2) + 1 := by
  have h₁ : v ≠ 0 := by omega
  have h₂ : v / 2 ≠ 0 := by omega
  rw [bitLengthU32, bitLengthU32, if_neg h₁, if_neg h₂, Nat.log2_def v, if_pos h]

theorem bitLengthU32_le {v k : ℕ} (h : v < 2 ^ k) : bitLengthU32 v ≤ k := by
  unfold bitLengthU32
  split
  · exact Nat.zero_le k
  · next hv => exact (Nat.log2_lt hv).2 h

namespace BinNode

/-- The fuel of the loop is irrelevant from the operand on. -/
theorem matchLoop_eq (d : ℕ) {fuel val : ℕ} (h : val ≤ fuel) (sub : TrieNode) :
    matchLoop d fuel val sub = matchTrie d val sub := by
  induction val using Nat.strong_induction_on generalizing fuel sub with
  | _ val ih =>
    unfold matchTrie
    rcases Nat.lt_or_ge val 2 with hval | hval
    · have hstop : ∀ f, matchLoop d f val sub = sub := by
        intro f
        cases f with
        | zero => rfl
        | succ f => rw [matchLoop, if_neg (by omega)]
      rw [hstop, hstop]
    · obtain ⟨f, rfl⟩ : ∃ f, fuel = f + 1 := ⟨fuel - 1, by omega⟩
      obtain ⟨w, rfl⟩ : ∃ w, val = w + 1 := ⟨val - 1, by omega⟩
      have hhalf : (w + 1) >>> 1 = (w + 1) / 2 := Nat.shiftRight_eq_div_pow _ _
      rw [matchLoop, if_pos hval, matchLoop, if_pos hval, hhalf]
      rw [ih ((w + 1) / 2) (by omega) (show (w + 1) / 2 ≤ f by omega),
        ih ((w + 1) / 2) (by omega) (show (w + 1) / 2 ≤ w by omega)]

theorem matchTrie_of_lt (d : ℕ) {val : ℕ} (h : val < 2) (sub : TrieNode) :
    matchTrie d val sub = sub := by
  obtain rfl | rfl : val = 0 ∨ val = 1 := by omega
  · rfl
  · rfl

theorem matchTrie_of_le (d : ℕ) {val : ℕ} (h : 2 ≤ val) (sub : TrieNode) :
    matchTrie d val sub = matchTrie d (val / 2)
      (if val % 2 = 1 then .branch (.leaf d) sub else .branch sub (.leaf d)) := by
  obtain ⟨w, rfl⟩ : ∃ w, val = w + 1 := ⟨val - 1, by omega⟩
  have hbit : ((w + 1) &&& 1 ≠ 0) ↔ (w + 1) % 2 = 1 := by
    rw [Nat.and_one_is_mod]
    omega
  conv_lhs => rw [matchTrie, matchLoop, if_pos h]
  rw [show (w + 1) >>> 1 = (w + 1) / 2 from Nat.shiftRight_eq_div_pow _ _,
    matchLoop_eq d (by omega)]
  simp only [hbit]

/-- A new leading `1` bit in front of the operand's bits. -/
theorem matchTrie_one (d : ℕ) {val : ℕ} (h : 1 ≤ val) (sub : TrieNode) :
    matchTrie d (val + 2 ^ bitLengthU32 val) sub = .branch (.leaf d) (matchTrie d val sub) := by
  induction val using Nat.strong_induction_on generalizing sub with
  | _ val ih =>
    rcases Nat.lt_or_ge val 2 with hval | hval
    · obtain rfl : val = 1 := by omega
      have h₁ : matchTrie d 1 sub = sub := matchTrie_of_lt d (by decide) sub
      have h₃ : matchTrie d 3 sub = .branch (.leaf d) sub :=
        (matchTrie_of_le d (by decide) sub).trans (matchTrie_of_lt d (by decide) _)
      rw [h₁]
      exact h₃
    · have hlen := bitLengthU32_half hval
      have hpow : 2 ^ bitLengthU32 val = 2 * 2 ^ bitLengthU32 (val / 2) := by
        rw [hlen, Nat.pow_succ, Nat.mul_comm]
      have hmod : (val + 2 ^ bitLengthU32 val) % 2 = val % 2 := by omega
      have hdiv : (val + 2 ^ bitLengthU32 val) / 2 = val / 2 + 2 ^ bitLengthU32 (val / 2) := by
        omega
      rw [matchTrie_of_le d (by omega), hmod, hdiv, ih (val / 2) (by omega) (by omega),
        ← matchTrie_of_le d hval]

/-- A new leading `0` bit in front of the operand's bits. -/
theorem matchTrie_zero (d : ℕ) {val : ℕ} (h : 1 ≤ val) (sub : TrieNode) :
    matchTrie d (val + 2 ^ (bitLengthU32 val - 1)) sub = .branch (matchTrie d val sub)
      (.leaf d) := by
  induction val using Nat.strong_induction_on generalizing sub with
  | _ val ih =>
    rcases Nat.lt_or_ge val 2 with hval | hval
    · obtain rfl : val = 1 := by omega
      have h₁ : matchTrie d 1 sub = sub := matchTrie_of_lt d (by decide) sub
      have h₂ : matchTrie d 2 sub = .branch sub (.leaf d) :=
        (matchTrie_of_le d (by decide) sub).trans (matchTrie_of_lt d (by decide) _)
      rw [h₁]
      exact h₂
    · have hlen := bitLengthU32_half hval
      have hpos : 1 ≤ bitLengthU32 (val / 2) := by
        unfold bitLengthU32
        rw [if_neg (by omega)]
        omega
      have hpow : 2 ^ (bitLengthU32 val - 1) = 2 * 2 ^ (bitLengthU32 (val / 2) - 1) := by
        rw [← Nat.pow_succ', hlen]
        congr 1
        omega
      have hmod : (val + 2 ^ (bitLengthU32 val - 1)) % 2 = val % 2 := by omega
      have hdiv : (val + 2 ^ (bitLengthU32 val - 1)) / 2
          = val / 2 + 2 ^ (bitLengthU32 (val / 2) - 1) := by omega
      rw [matchTrie_of_le d (by omega), hmod, hdiv, ih (val / 2) (by omega) (by omega),
        ← matchTrie_of_le d hval]

/-! ### Meanings -/

/-- The trie a program denotes when the ambient default is `d`. -/
def meaning : BinNode → ℕ → TrieNode
  | Return v _, _ => .leaf v
  | Jump left right _, d => .branch (left.meaning d) (right.meaning d)
  | Match val sub _, d => matchTrie d val (sub.meaning d)
  | Default v sub _, _ => sub.meaning v
  | End _, d => .leaf d

/-- No `End` anywhere in the program. -/
def Closed : BinNode → Prop
  | Return .. => True
  | Jump left right _ => left.Closed ∧ right.Closed
  | Match _ sub _ => sub.Closed
  | Default _ sub _ => sub.Closed
  | End _ => False

theorem Closed.toTrie_eq {n : BinNode} (h : n.Closed) (d : ℕ) :
    n.toTrie d = some (n.meaning d) := by
  induction n generalizing d with
  | Return v size => rfl
  | Jump l r size ihl ihr =>
    rw [toTrie, ihl h.1, ihr h.2]
    rfl
  | Match v sub size ih =>
    rw [toTrie, ih h]
    rfl
  | Default v sub size ih => exact ih h v
  | End size => exact h.elim

theorem Closed.fromBinnode_eq {n : BinNode} (h : n.Closed) :
    ASMap.fromBinnode n = some ⟨n.meaning 0⟩ := by
  cases n with
  | End size => exact h.elim
  | _ => simp only [ASMap.fromBinnode, h.toTrie_eq, Option.map_some]

theorem canonical_matchTrie {d val : ℕ} {sub : TrieNode} (h : sub.Canonical) :
    (matchTrie d val sub).Canonical := by
  induction val using Nat.strong_induction_on generalizing sub with
  | _ val ih =>
    rcases Nat.lt_or_ge val 2 with hval | hval
    · rwa [matchTrie_of_lt d hval]
    · rw [matchTrie_of_le d hval]
      refine ih _ (by omega) ?_
      split
      · exact TrieNode.Canonical.branch trivial h
      · exact h.branch trivial

theorem canonical_meaning (n : BinNode) (d : ℕ) : (n.meaning d).Canonical := by
  induction n generalizing d with
  | Return v size => trivial
  | Jump l r size ihl ihr => exact (ihl d).branch (ihr d)
  | Match v sub size ih => exact canonical_matchTrie (ih d)
  | Default v sub size ih => exact ih v
  | End size => trivial

/-- A Match gives its subprogram's meaning below the operand's path, the default elsewhere. -/
theorem asnAt_matchTrie (d : ℕ) {val : ℕ} (h : 1 ≤ val) (sub : TrieNode) (x : Stream' Bool) :
    (matchTrie d val sub).asnAt x =
      if Covers (bigEndian val.log2 val) x then sub.asnAt (x.drop val.log2) else d := by
  induction val using Nat.strong_induction_on generalizing sub with
  | _ val ih =>
    rcases Nat.lt_or_ge val 2 with hval | hval
    · obtain rfl : val = 1 := by omega
      rw [matchTrie_of_lt d (by decide)]
      rfl
    · have hlog : val.log2 = (val / 2).log2 + 1 := by rw [Nat.log2_def val, if_pos hval]
      have hstep : ∀ y, (if val % 2 = 1 then TrieNode.branch (.leaf d) sub
          else TrieNode.branch sub (.leaf d)).asnAt y =
            if y.head = decide (val % 2 = 1) then sub.asnAt y.tail else d := by
        intro y
        by_cases hbit : val % 2 = 1 <;> cases hy : y.head <;> simp [hbit, hy, TrieNode.leaf]
      rw [matchTrie_of_le d hval, ih (val / 2) (by omega) (by omega), hlog, bigEndian_succ,
        hstep]
      simp only [covers_append_left, covers_cons, covers_nil, and_true, length_bigEndian]
      by_cases hcov : Covers (bigEndian (val / 2).log2 (val / 2)) x
      · simp only [hcov, true_and, if_true, Stream'.tail_drop']
      · simp only [hcov, false_and, if_false]

/-! ### Valid programs -/

/-- The size of a coder's encoding of a value in its range. -/
def opSize (c : VarLenCoder) (v : ℕ) : ℕ := VarLenCoder.sizeLoop c.clsbits (v - c.minval)

/-- A program as the smart constructors build it: every operand in range, every stored size exact,
no `End`, no Default in front of a Return or another Default, and every Jump over a left program
whose size `p` allows. -/
def ValidWith (p : ℕ → Prop) : BinNode → Prop
  | Return v size => coderAsn.canEncode v ∧ size = 1 + opSize coderAsn v
  | Jump left right size =>
    left.ValidWith p ∧ right.ValidWith p ∧ p left.size ∧
      size = 2 + opSize coderJump (asU32 left.size) + left.size + right.size
  | Match v sub size =>
    sub.ValidWith p ∧ coderMatch.canEncode v ∧ size = 3 + opSize coderMatch v + sub.size
  | Default v sub size =>
    sub.ValidWith p ∧ coderAsn.canEncode v ∧ (sub.instruction = .Jump ∨ sub.instruction = .Match) ∧
      size = 3 + opSize coderAsn v + sub.size
  | End _ => False

/-- A program the format can hold. -/
def Valid : BinNode → Prop := ValidWith (· ≤ jumpMax)

/-- A program as the smart constructors build it from ASNs that `asn` allows, in the range of
`coderAsn` or not. -/
def MadeWith (asn p : ℕ → Prop) : BinNode → Prop
  | Return v size => asn v ∧ size = 1 + opSize coderAsn v
  | Jump left right size =>
    left.MadeWith asn p ∧ right.MadeWith asn p ∧ p left.size ∧
      size = 2 + opSize coderJump (asU32 left.size) + left.size + right.size
  | Match v sub size =>
    sub.MadeWith asn p ∧ coderMatch.canEncode v ∧ size = 3 + opSize coderMatch v + sub.size
  | Default v sub size =>
    sub.MadeWith asn p ∧ asn v ∧ (sub.instruction = .Jump ∨ sub.instruction = .Match) ∧
      size = 3 + opSize coderAsn v + sub.size
  | End _ => False

theorem validWith_iff {p : ℕ → Prop} {n : BinNode} :
    n.ValidWith p ↔ n.MadeWith (fun v => coderAsn.canEncode v) p := by
  induction n with
  | Return v size => exact Iff.rfl
  | Jump l r size ihl ihr => exact and_congr ihl (and_congr_left fun _ => ihr)
  | Match v sub size ih => exact and_congr_left fun _ => ih
  | Default v sub size ih => exact and_congr_left fun _ => ih
  | End size => exact Iff.rfl

/-- The sizes for which a Jump can be built: `encode_size` of the operand does not underflow. -/
def Buildable (size : ℕ) : Prop := 17 ≤ asU32 size

instance : DecidablePred Buildable := fun size => inferInstanceAs (Decidable (17 ≤ asU32 size))

/-- Every Jump of the program skips a left program within the range of `coderJump`. -/
def JumpsFit : BinNode → Prop
  | Jump left right _ => left.JumpsFit ∧ right.JumpsFit ∧ left.size ≤ jumpMax
  | Match _ sub _ => sub.JumpsFit
  | Default _ sub _ => sub.JumpsFit
  | _ => True

instance decidableJumpsFit : (n : BinNode) → Decidable n.JumpsFit
  | Jump left right _ =>
    have := left.decidableJumpsFit
    have := right.decidableJumpsFit
    inferInstanceAs (Decidable (_ ∧ _ ∧ left.size ≤ jumpMax))
  | Match _ sub _ => sub.decidableJumpsFit
  | Default _ sub _ => sub.decidableJumpsFit
  | Return .. => isTrue trivial
  | End _ => isTrue trivial

/-- The empty program, or a valid one. -/
def ProgramWith (p : ℕ → Prop) (n : BinNode) : Prop := n = endNode ∨ n.ValidWith p

theorem asU32_eq {v : ℕ} (h : v ≤ jumpMax) : asU32 v = v := by
  unfold jumpMax at h
  exact Nat.mod_eq_of_lt (by omega)

theorem buildable_of_le {size : ℕ} (h : 17 ≤ size) (hle : size ≤ jumpMax) : Buildable size := by
  rwa [Buildable, asU32_eq hle]

/-- With all its Jumps in range a program is valid. -/
theorem ValidWith.valid {p : ℕ → Prop} {n : BinNode} (h : n.ValidWith p) (hfit : n.JumpsFit) :
    n.Valid := by
  induction n with
  | Return v size => exact h
  | Jump l r size ihl ihr =>
    obtain ⟨hl, hr, -, hsize⟩ := h
    exact ⟨ihl hl hfit.1, ihr hr hfit.2.1, hfit.2.2, hsize⟩
  | Match v sub size ih => exact ⟨ih h.1 hfit, h.2⟩
  | Default v sub size ih => exact ⟨ih h.1 hfit, h.2⟩
  | End size => exact h

theorem Valid.jumpsFit {n : BinNode} (h : n.Valid) : n.JumpsFit := by
  induction n with
  | Return v size => trivial
  | Jump l r size ihl ihr =>
    obtain ⟨hl, hr, hle, -⟩ := h
    exact ⟨ihl hl, ihr hr, hle⟩
  | Match v sub size ih => exact ih h.1
  | Default v sub size ih => exact ih h.1
  | End size => trivial

section MadeWith

variable {asn p : ℕ → Prop} {n : BinNode}

theorem MadeWith.closed (h : n.MadeWith asn p) : n.Closed := by
  induction n with
  | Return v size => trivial
  | Jump l r size ihl ihr => exact ⟨ihl h.1, ihr h.2.1⟩
  | Match v sub size ih => exact ih h.1
  | Default v sub size ih => exact ih h.1
  | End size => exact h.elim

theorem MadeWith.isEnd (h : n.MadeWith asn p) : n.isEnd = false := by
  cases n with
  | End size => exact h.elim
  | _ => rfl

/-- Below 17 bits there is no program, which is why `coderJump` starts there. -/
theorem MadeWith.le_size (h : n.MadeWith asn p) : 17 ≤ n.size := by
  induction n with
  | Return v size =>
    obtain ⟨-, h⟩ := h
    have hfirst : 16 ≤ opSize coderAsn v := by
      show 16 ≤ VarLenCoder.sizeLoop (15 :: 16 :: _) _
      rw [VarLenCoder.sizeLoop]
      split
      · have := VarLenCoder.le_sizeLoop (k := 15) [16, 17, 18, 19, 20, 21, 22, 23, 24]
          (v - coderAsn.minval - 1 <<< 15) (by simp) (by decide)
        omega
      · omega
    show 17 ≤ size
    omega
  | Jump l r size ihl ihr =>
    obtain ⟨hl, -, -, h⟩ := h
    have := ihl hl
    show 17 ≤ size
    omega
  | Match v sub size ih =>
    obtain ⟨hs, -, h⟩ := h
    have := ih hs
    show 17 ≤ size
    omega
  | Default v sub size ih =>
    obtain ⟨hs, -, -, h⟩ := h
    have := ih hs
    show 17 ≤ size
    omega
  | End size => exact h.elim

theorem ValidWith.closed (h : n.ValidWith p) : n.Closed := (validWith_iff.1 h).closed

theorem ValidWith.isEnd (h : n.ValidWith p) : n.isEnd = false := (validWith_iff.1 h).isEnd

theorem ValidWith.le_size (h : n.ValidWith p) : 17 ≤ n.size := (validWith_iff.1 h).le_size

end MadeWith

/-! ### The smart constructors -/

theorem encodeSize_eq {c : VarLenCoder} {v : ℕ} (h : c.minval ≤ v) :
    c.encodeSize v = .ok (opSize c v) := VarLenCoder.encodeSize_of_le h

theorem leaf_eq {v : ℕ} (h : 1 ≤ v) : leaf v = .ok (Return v (1 + opSize coderAsn v)) := by
  rw [leaf, show coderIns.encodeSize Instruction.Return.toNat = .ok 1 from rfl, encodeSize_eq h]
  rfl

theorem matchNode_eq {v : ℕ} (h : 2 ≤ v) (sub : BinNode) :
    matchNode v sub = .ok (Match v sub (3 + opSize coderMatch v + sub.size)) := by
  rw [matchNode, show coderIns.encodeSize Instruction.Match.toNat = .ok 3 from rfl, encodeSize_eq h]
  rfl

/-- Two programs that are not empty are joined by a Jump. -/
theorem branch_jump {l r : BinNode} (hl : l.isEnd = false) (hr : r.isEnd = false)
    (h : Buildable l.size) :
    branch l r = .ok (Jump l r (2 + opSize coderJump (asU32 l.size) + l.size + r.size)) := by
  simp only [branch, hl, hr, Bool.and_self, Bool.false_eq_true, if_false]
  rw [show coderIns.encodeSize Instruction.Jump.toNat = .ok 2 from rfl, encodeSize_eq h]
  rfl

/-- A Jump that was built could be built. -/
theorem buildable_of_branch {l r n : BinNode} (h : branch l r = .ok n) (hl : l.isEnd = false)
    (hr : r.isEnd = false) : Buildable l.size := by
  by_contra hsmall
  have hunder : coderJump.encodeSize (asU32 l.size) = .error .subtractOverflow :=
    if_pos (Nat.not_le.1 hsmall)
  simp only [branch, hl, hr, Bool.and_self, Bool.false_eq_true, if_false] at h
  rw [show coderIns.encodeSize Instruction.Jump.toNat = .ok 2 from rfl, hunder] at h
  cases h

theorem default_default {v : ℕ} {sub : BinNode} (hv : 1 ≤ v)
    (hs : sub.instruction = .Jump ∨ sub.instruction = .Match) :
    default v sub = .ok (Default v sub (3 + opSize coderAsn v + sub.size)) := by
  have hok : (do
      let ins ← coderIns.encodeSize Instruction.Default.toNat
      let asn ← coderAsn.encodeSize v
      return Default v sub (ins + asn + sub.size) : Except Panic BinNode) =
        .ok (Default v sub (3 + opSize coderAsn v + sub.size)) := by
    rw [show coderIns.encodeSize Instruction.Default.toNat = .ok 3 from rfl, encodeSize_eq hv]
    rfl
  cases sub with
  | Jump l r size => exact hok
  | Match w sub size => exact hok
  | _ => simp [instruction] at hs

section Constructors

variable {asn p : ℕ → Prop}

theorem matchNode_made {v : ℕ} {sub : BinNode} (hv : coderMatch.canEncode v)
    (hs : sub.MadeWith asn p) :
    ∃ n, matchNode v sub = .ok n ∧ n.MadeWith asn p ∧
    ∀ d, n.meaning d = matchTrie d v (sub.meaning d) :=
  ⟨_, matchNode_eq (canEncode_coderMatch.1 hv).1 sub, ⟨hs, hv, rfl⟩, fun _ => rfl⟩

/-- A Match in front of a program: alone, or fused with a Match it finds there. -/
theorem branch_made_left {a b : BinNode} (ha : a.isEnd = true) (hb : b.MadeWith asn p) :
    ∃ n, branch a b = .ok n ∧ n.MadeWith asn p ∧
      ∀ d, n.meaning d = .branch (.leaf d) (b.meaning d) := by
  have hthree : ∀ b : BinNode, b.MadeWith asn p → ∃ n, matchNode 3 b = .ok n ∧ n.MadeWith asn p ∧
      ∀ d, n.meaning d = .branch (.leaf d) (b.meaning d) := by
    intro b hb
    obtain ⟨n, hn, hval, hmean⟩ := matchNode_made (v := 3) (by decide) hb
    refine ⟨n, hn, hval, fun d => ?_⟩
    rw [hmean, matchTrie_of_le d (by decide), matchTrie_of_lt d (by decide)]
    rfl
  have hbe := hb.isEnd
  cases b with
  | Match v sub size =>
    simp only [branch, ha, hbe, Bool.and_false, Bool.false_eq_true, if_false, if_true]
    split
    · next hv =>
      obtain ⟨hsub, hcan, -⟩ := hb
      have hlow := (canEncode_coderMatch.1 hcan).1
      have hlen : 2 ^ bitLengthU32 v ≤ 2 ^ 8 :=
        Nat.pow_le_pow_right (by decide) (bitLengthU32_le (by omega))
      have hpos := Nat.two_pow_pos (bitLengthU32 v)
      rw [VarLenCoder.one_shiftLeft]
      obtain ⟨n, hn, hval, hmean⟩ :=
        matchNode_made (v := v + 2 ^ bitLengthU32 v) (canEncode_coderMatch.2 (by omega)) hsub
      exact ⟨n, hn, hval, fun d => by rw [hmean, matchTrie_one d (by omega)]; rfl⟩
    · exact hthree _ hb
  | End size => exact hb.elim
  | _ =>
    simp only [branch, ha, hbe, Bool.and_false, Bool.false_eq_true, if_false, if_true]
    exact hthree _ hb

theorem branch_made_right {a b : BinNode} (ha : a.MadeWith asn p) (hb : b.isEnd = true) :
    ∃ n, branch a b = .ok n ∧ n.MadeWith asn p ∧
      ∀ d, n.meaning d = .branch (a.meaning d) (.leaf d) := by
  have htwo : ∀ a : BinNode, a.MadeWith asn p → ∃ n, matchNode 2 a = .ok n ∧ n.MadeWith asn p ∧
      ∀ d, n.meaning d = .branch (a.meaning d) (.leaf d) := by
    intro a ha
    obtain ⟨n, hn, hval, hmean⟩ := matchNode_made (v := 2) (by decide) ha
    refine ⟨n, hn, hval, fun d => ?_⟩
    rw [hmean, matchTrie_of_le d (by decide), matchTrie_of_lt d (by decide)]
    rfl
  have hae := ha.isEnd
  cases a with
  | Match v sub size =>
    simp only [branch, hae, hb, Bool.and_true, Bool.false_eq_true, if_false, if_true]
    split
    · next hv =>
      obtain ⟨hsub, hcan, -⟩ := ha
      have hlow := (canEncode_coderMatch.1 hcan).1
      have hlen : 2 ^ (bitLengthU32 v - 1) ≤ 2 ^ 8 := by
        have := bitLengthU32_le (v := v) (k := 8) (by omega)
        exact Nat.pow_le_pow_right (by decide) (by omega)
      have hpos := Nat.two_pow_pos (bitLengthU32 v - 1)
      rw [VarLenCoder.one_shiftLeft]
      obtain ⟨n, hn, hval, hmean⟩ :=
        matchNode_made (v := v + 2 ^ (bitLengthU32 v - 1)) (canEncode_coderMatch.2 (by omega)) hsub
      exact ⟨n, hn, hval, fun d => by rw [hmean, matchTrie_zero d (by omega)]; rfl⟩
    · exact htwo _ ha
  | End size => exact ha.elim
  | _ =>
    simp only [branch, hae, hb, Bool.and_true, Bool.false_eq_true, if_false, if_true]
    exact htwo _ ha

/-- `branch` on programs, with any ASNs. -/
theorem branch_made (hp : ∀ size, 17 ≤ size → p size → Buildable size) {a b : BinNode}
    (ha : a = endNode ∨ a.MadeWith asn p) (hb : b = endNode ∨ b.MadeWith asn p)
    (hjump : a.isEnd = false → b.isEnd = false → p a.size) :
    ∃ n, branch a b = .ok n ∧ (n = endNode ∨ n.MadeWith asn p) ∧
      ∀ d, n.meaning d = .branch (a.meaning d) (b.meaning d) := by
  rcases ha with rfl | ha <;> rcases hb with rfl | hb
  · refine ⟨endNode, rfl, .inl rfl, fun d => ?_⟩
    simp [meaning, endNode, TrieNode.branch, TrieNode.leaf]
  · obtain ⟨n, hn, hmade, hmean⟩ := branch_made_left (a := endNode) rfl hb
    exact ⟨n, hn, .inr hmade, hmean⟩
  · obtain ⟨n, hn, hmade, hmean⟩ := branch_made_right (b := endNode) ha rfl
    exact ⟨n, hn, .inr hmade, hmean⟩
  · have hsize := hjump ha.isEnd hb.isEnd
    exact ⟨_, branch_jump ha.isEnd hb.isEnd (hp _ ha.le_size hsize), .inr ⟨ha, hb, hsize, rfl⟩,
      fun _ => rfl⟩

/-- `default` on programs, with any ASN but `0`. -/
theorem default_made {v : ℕ} {sub : BinNode} (hone : 1 ≤ v) (hv : asn v)
    (hs : sub = endNode ∨ sub.MadeWith asn p) :
    ∃ n, default v sub = .ok n ∧ n.MadeWith asn p ∧ ∀ d, n.meaning d = sub.meaning v := by
  rcases hs with rfl | hs
  · exact ⟨_, leaf_eq hone, ⟨hv, rfl⟩, fun _ => rfl⟩
  · cases sub with
    | Return w size => exact ⟨_, rfl, hs, fun _ => rfl⟩
    | Default w sub size => exact ⟨_, rfl, hs, fun _ => rfl⟩
    | Jump l r size => exact ⟨_, default_default hone (.inl rfl), ⟨hs, hv, .inl rfl, rfl⟩,
      fun _ => rfl⟩
    | Match w sub size =>
      exact ⟨_, default_default hone (.inr rfl), ⟨hs, hv, .inr rfl, rfl⟩, fun _ => rfl⟩
    | End size => exact hs.elim

theorem leaf_spec {v : ℕ} (h : coderAsn.canEncode v) :
    ∃ n, leaf v = .ok n ∧ n.ValidWith p ∧ ∀ d, n.meaning d = .leaf v :=
  ⟨_, leaf_eq (canEncode_coderAsn.1 h).1, ⟨h, rfl⟩, fun _ => rfl⟩

/-- **`branch` is the trie's merging branch** on programs, as long as a Jump can be built where it
takes one. -/
theorem branch_spec (hp : ∀ size, 17 ≤ size → p size → Buildable size) {a b : BinNode}
    (ha : a.ProgramWith p) (hb : b.ProgramWith p)
    (hjump : a.isEnd = false → b.isEnd = false → p a.size) :
    ∃ n, branch a b = .ok n ∧ n.ProgramWith p ∧
      ∀ d, n.meaning d = .branch (a.meaning d) (b.meaning d) := by
  simp only [ProgramWith, validWith_iff] at ha hb ⊢
  exact branch_made hp ha hb hjump

/-- **`default` fixes the default of a program.** -/
theorem default_spec {v : ℕ} {sub : BinNode} (hv : coderAsn.canEncode v) (hs : sub.ProgramWith p) :
    ∃ n, default v sub = .ok n ∧ n.ValidWith p ∧ ∀ d, n.meaning d = sub.meaning v := by
  simp only [ProgramWith, validWith_iff] at hs ⊢
  exact default_made (canEncode_coderAsn.1 hv).1 hv hs

end Constructors

/-! ### Writing -/

theorem canEncode_of_encode {c : VarLenCoder} {v : ℕ} {w : List Bool} (h : c.encode v = .ok w) :
    c.canEncode v = true := by
  by_contra hno
  rw [VarLenCoder.encode, if_neg hno] at h
  cases h

theorem exists_encode {c : VarLenCoder} {v : ℕ} (h : c.canEncode v) : ∃ w, c.encode v = .ok w :=
  ⟨_, if_pos h⟩

/-- What was written for an operand has its size, and is read back. -/
theorem operand_of_encode {c : VarLenCoder} (hc : c.Regular) {v : ℕ} {w : List Bool}
    (h : c.encode v = .ok w) : w.length = opSize c v ∧
      ∀ s i, OccursAt s i w → c.decode s i = some (v, i + w.length) := by
  have hcan := canEncode_of_encode h
  obtain ⟨w', hw', hsize, hdec⟩ := VarLenCoder.encode_spec hc hcan
  obtain rfl : w' = w := Except.ok.inj (hw'.symm.trans h)
  rw [encodeSize_eq (VarLenCoder.canEncode_iff.1 hcan).1] at hsize
  exact ⟨(Except.ok.inj hsize).symm, hdec⟩

theorem encode_Return_ok {v size : ℕ} {w : List Bool} (h : (Return v size).encode = .ok w) :
    ∃ wi wa, coderIns.encode Instruction.Return.toNat = .ok wi ∧ coderAsn.encode v = .ok wa ∧
      wi ++ wa = w := by
  obtain ⟨wi, hi, h⟩ := bind_eq_ok.1 h
  obtain ⟨wa, ha, h⟩ := bind_eq_ok.1 h
  exact ⟨wi, wa, hi, ha, Except.ok.inj h⟩

theorem encode_Jump_ok {l r : BinNode} {size : ℕ} {w : List Bool}
    (h : (Jump l r size).encode = .ok w) :
    ∃ wi wj wl wr, coderIns.encode Instruction.Jump.toNat = .ok wi ∧
      coderJump.encode (asU32 l.size) = .ok wj ∧ l.encode = .ok wl ∧ r.encode = .ok wr ∧
        wi ++ wj ++ wl ++ wr = w := by
  obtain ⟨wi, hi, h⟩ := bind_eq_ok.1 h
  obtain ⟨wj, hj, h⟩ := bind_eq_ok.1 h
  obtain ⟨wl, hl, h⟩ := bind_eq_ok.1 h
  obtain ⟨wr, hr, h⟩ := bind_eq_ok.1 h
  exact ⟨wi, wj, wl, wr, hi, hj, hl, hr, Except.ok.inj h⟩

theorem encode_Match_ok {v size : ℕ} {sub : BinNode} {w : List Bool}
    (h : (Match v sub size).encode = .ok w) :
    ∃ wi wv ws, coderIns.encode Instruction.Match.toNat = .ok wi ∧ coderMatch.encode v = .ok wv ∧
      sub.encode = .ok ws ∧ wi ++ wv ++ ws = w := by
  obtain ⟨wi, hi, h⟩ := bind_eq_ok.1 h
  obtain ⟨wv, hv, h⟩ := bind_eq_ok.1 h
  obtain ⟨ws, hs, h⟩ := bind_eq_ok.1 h
  exact ⟨wi, wv, ws, hi, hv, hs, Except.ok.inj h⟩

theorem encode_Default_ok {v size : ℕ} {sub : BinNode} {w : List Bool}
    (h : (Default v sub size).encode = .ok w) :
    ∃ wi wv ws, coderIns.encode Instruction.Default.toNat = .ok wi ∧ coderAsn.encode v = .ok wv ∧
      sub.encode = .ok ws ∧ wi ++ wv ++ ws = w := by
  obtain ⟨wi, hi, h⟩ := bind_eq_ok.1 h
  obtain ⟨wv, hv, h⟩ := bind_eq_ok.1 h
  obtain ⟨ws, hs, h⟩ := bind_eq_ok.1 h
  exact ⟨wi, wv, ws, hi, hv, hs, Except.ok.inj h⟩

/-- A valid program can be written. -/
theorem Valid.exists_encode {n : BinNode} (h : n.Valid) : ∃ w, n.encode = .ok w := by
  induction n with
  | Return v size =>
    obtain ⟨wa, ha⟩ := BinNode.exists_encode h.1
    exact ⟨_, bind_eq_ok.2 ⟨_, rfl, bind_eq_ok.2 ⟨wa, ha, rfl⟩⟩⟩
  | Jump l r size ihl ihr =>
    obtain ⟨hl, hr, hle, -⟩ := h
    obtain ⟨wl, hwl⟩ := ihl hl
    obtain ⟨wr, hwr⟩ := ihr hr
    have hcan : coderJump.canEncode (asU32 l.size) := by
      rw [asU32_eq hle]
      exact canEncode_coderJump.2 ⟨hl.le_size, hle⟩
    obtain ⟨wj, hj⟩ := BinNode.exists_encode hcan
    exact ⟨_, bind_eq_ok.2 ⟨_, rfl, bind_eq_ok.2 ⟨wj, hj, bind_eq_ok.2 ⟨wl, hwl,
      bind_eq_ok.2 ⟨wr, hwr, rfl⟩⟩⟩⟩⟩
  | Match v sub size ih =>
    obtain ⟨ws, hws⟩ := ih h.1
    obtain ⟨wv, hv⟩ := BinNode.exists_encode h.2.1
    exact ⟨_, bind_eq_ok.2 ⟨_, rfl, bind_eq_ok.2 ⟨wv, hv, bind_eq_ok.2 ⟨ws, hws, rfl⟩⟩⟩⟩
  | Default v sub size ih =>
    obtain ⟨ws, hws⟩ := ih h.1
    obtain ⟨wv, hv⟩ := BinNode.exists_encode h.2.1
    exact ⟨_, bind_eq_ok.2 ⟨_, rfl, bind_eq_ok.2 ⟨wv, hv, bind_eq_ok.2 ⟨ws, hws, rfl⟩⟩⟩⟩
  | End size => exact h.elim

/-- Whatever its Jumps, a program is written in `size` bits. -/
theorem ValidWith.length_encode {p : ℕ → Prop} {n : BinNode} (h : n.ValidWith p) {w : List Bool}
    (hw : n.encode = .ok w) : w.length = n.size := by
  induction n generalizing w with
  | Return v size =>
    obtain ⟨wi, wa, hi, ha, rfl⟩ := encode_Return_ok hw
    have hil := (operand_of_encode regular_coderIns hi).1
    have hal := (operand_of_encode regular_coderAsn ha).1
    rw [List.length_append, hil, hal, size_Return, h.2]
    rfl
  | Jump l r size ihl ihr =>
    obtain ⟨hl, hr, -, hsize⟩ := h
    obtain ⟨wi, wj, wl, wr, hi, hj, hwl, hwr, rfl⟩ := encode_Jump_ok hw
    have hil := (operand_of_encode regular_coderIns hi).1
    have hjl := (operand_of_encode regular_coderJump hj).1
    simp only [List.length_append, hil, hjl, ihl hl hwl, ihr hr hwr, size_Jump, hsize]
    rfl
  | Match v sub size ih =>
    obtain ⟨hs, -, hsize⟩ := h
    obtain ⟨wi, wv, ws, hi, hv, hws, rfl⟩ := encode_Match_ok hw
    have hil := (operand_of_encode regular_coderIns hi).1
    have hvl := (operand_of_encode regular_coderMatch hv).1
    simp only [List.length_append, hil, hvl, ih hs hws, size_Match, hsize]
    rfl
  | Default v sub size ih =>
    obtain ⟨hs, -, -, hsize⟩ := h
    obtain ⟨wi, wv, ws, hi, hv, hws, rfl⟩ := encode_Default_ok hw
    have hil := (operand_of_encode regular_coderIns hi).1
    have hvl := (operand_of_encode regular_coderAsn hv).1
    simp only [List.length_append, hil, hvl, ih hs hws, size_Default, hsize]
    rfl
  | End size => exact h.elim

/-! ### Reading what was written -/

section Reading

variable {s w : List Bool} {i fuel : ℕ}

/-- The first step of the reader at a written instruction. -/
theorem parse_instruction {wi : List Bool} {ins : Instruction}
    (h : coderIns.encode ins.toNat = .ok wi) (hocc : OccursAt s i wi) :
    parse s (fuel + 1) i = parseOperands s (parse s fuel) ins (i + wi.length) := by
  rw [parse, (operand_of_encode regular_coderIns h).2 s i hocc]
  simp only [Parse.ofOption, bind, Except.bind, Instruction.tryFrom_toNat]

theorem parse_Return {v size : ℕ} (hw : (Return v size).encode = .ok w) (hocc : OccursAt s i w) :
    parse s (fuel + 1) i = (do
      let node ← Parse.ofExcept (leaf v)
      return (node, i + w.length)) := by
  obtain ⟨wi, wa, hi, ha, rfl⟩ := encode_Return_ok hw
  rw [occursAt_append] at hocc
  rw [parse_instruction hi hocc.1, parseOperands,
    (operand_of_encode regular_coderAsn ha).2 s _ hocc.2, List.length_append, ← Nat.add_assoc]
  rfl

theorem parse_Jump {l r : BinNode} {size : ℕ} (fuel : ℕ) (hw : (Jump l r size).encode = .ok w)
    (hocc : OccursAt s i w) :
    ∃ k wl wr, l.encode = .ok wl ∧ r.encode = .ok wr ∧ OccursAt s k wl ∧
      OccursAt s (k + wl.length) wr ∧ k + wl.length + wr.length = i + w.length ∧
      parse s (fuel + 1) i = (do
        let (left, bitpos) ← parse s fuel k
        if bitpos ≠ k + asU32 l.size then .error .reject
        else
          let (right, bitpos) ← parse s fuel bitpos
          let node ← Parse.ofExcept (branch left right)
          return (node, bitpos)) := by
  obtain ⟨wi, wj, wl, wr, hi, hj, hwl, hwr, rfl⟩ := encode_Jump_ok hw
  simp only [occursAt_append, List.length_append, ← Nat.add_assoc] at hocc
  obtain ⟨⟨⟨ho₁, ho₂⟩, ho₃⟩, ho₄⟩ := hocc
  refine ⟨_, wl, wr, hwl, hwr, ho₃, ho₄, ?_, ?_⟩
  · simp only [List.length_append, Nat.add_assoc]
  · rw [parse_instruction hi ho₁, parseOperands, (operand_of_encode regular_coderJump hj).2 s _ ho₂]
    rfl

theorem parse_Match {v size : ℕ} {sub : BinNode} (fuel : ℕ) (hw : (Match v sub size).encode = .ok w)
    (hocc : OccursAt s i w) :
    ∃ k ws, sub.encode = .ok ws ∧ OccursAt s k ws ∧ k + ws.length = i + w.length ∧
      parse s (fuel + 1) i = (do
        let (sub, bitpos) ← parse s fuel k
        let node ← Parse.ofExcept (matchNode v sub)
        return (node, bitpos)) := by
  obtain ⟨wi, wv, ws, hi, hv, hws, rfl⟩ := encode_Match_ok hw
  simp only [occursAt_append, List.length_append, ← Nat.add_assoc] at hocc
  obtain ⟨⟨ho₁, ho₂⟩, ho₃⟩ := hocc
  refine ⟨_, ws, hws, ho₃, ?_, ?_⟩
  · simp only [List.length_append, Nat.add_assoc]
  · rw [parse_instruction hi ho₁, parseOperands,
      (operand_of_encode regular_coderMatch hv).2 s _ ho₂]
    rfl

theorem parse_Default {v size : ℕ} {sub : BinNode} (fuel : ℕ)
    (hw : (Default v sub size).encode = .ok w) (hocc : OccursAt s i w) :
    ∃ k ws, sub.encode = .ok ws ∧ OccursAt s k ws ∧ k + ws.length = i + w.length ∧
      parse s (fuel + 1) i = (do
        let (sub, bitpos) ← parse s fuel k
        let node ← Parse.ofExcept (default v sub)
        return (node, bitpos)) := by
  obtain ⟨wi, wv, ws, hi, hv, hws, rfl⟩ := encode_Default_ok hw
  simp only [occursAt_append, List.length_append, ← Nat.add_assoc] at hocc
  obtain ⟨⟨ho₁, ho₂⟩, ho₃⟩ := hocc
  refine ⟨_, ws, hws, ho₃, ?_, ?_⟩
  · simp only [List.length_append, Nat.add_assoc]
  · rw [parse_instruction hi ho₁, parseOperands, (operand_of_encode regular_coderAsn hv).2 s _ ho₂]
    rfl

/-- The reader gives a valid program back, and stops behind it. -/
theorem Valid.parse_encode {n : BinNode} (h : n.Valid) (hw : n.encode = .ok w)
    (hocc : OccursAt s i w) (hfuel : n.size ≤ fuel) : parse s fuel i = .ok (n, i + w.length) := by
  obtain ⟨f, rfl⟩ : ∃ f, fuel = f + 1 := ⟨fuel - 1, by have := h.le_size; omega⟩
  induction n generalizing w i f with
  | Return v size =>
    obtain ⟨hv, hsize⟩ := h
    rw [parse_Return hw hocc, leaf_eq (canEncode_coderAsn.1 hv).1, ← hsize]
    rfl
  | Jump l r size ihl ihr =>
    obtain ⟨hl, hr, hle, hsize⟩ := h
    obtain ⟨k, wl, wr, hwl, hwr, hol, hor, hend, hstep⟩ := parse_Jump f hw hocc
    rw [size_Jump] at hfuel
    obtain ⟨g, rfl⟩ : ∃ g, f = g + 1 := ⟨f - 1, by have := hl.le_size; omega⟩
    rw [hstep, ihl hl hwl hol g (by omega)]
    dsimp only [bind, Except.bind]
    rw [asU32_eq hle, hl.length_encode hwl, if_neg (not_not.2 rfl), ← hl.length_encode hwl,
      ihr hr hwr hor g (by omega)]
    dsimp only
    rw [branch_jump hl.isEnd hr.isEnd (buildable_of_le hl.le_size hle), ← hsize, hend]
    rfl
  | Match v sub size ih =>
    obtain ⟨hs, hv, hsize⟩ := h
    obtain ⟨k, ws, hws, hos, hend, hstep⟩ := parse_Match f hw hocc
    rw [size_Match] at hfuel
    obtain ⟨g, rfl⟩ : ∃ g, f = g + 1 := ⟨f - 1, by have := hs.le_size; omega⟩
    rw [hstep, ih hs hws hos g (by omega)]
    dsimp only [bind, Except.bind]
    rw [matchNode_eq (canEncode_coderMatch.1 hv).1, ← hsize, hend]
    rfl
  | Default v sub size ih =>
    obtain ⟨hs, hv, hins, hsize⟩ := h
    obtain ⟨k, ws, hws, hos, hend, hstep⟩ := parse_Default f hw hocc
    rw [size_Default] at hfuel
    obtain ⟨g, rfl⟩ : ∃ g, f = g + 1 := ⟨f - 1, by have := hs.le_size; omega⟩
    rw [hstep, ih hs hws hos g (by omega)]
    dsimp only [bind, Except.bind]
    rw [default_default (canEncode_coderAsn.1 hv).1 hins, ← hsize, hend]
    rfl
  | End size => exact h.elim

/-- **A valid program is written in exactly `size` bits and read back as itself.** -/
theorem Valid.encode_parse {n : BinNode} (h : n.Valid) :
    ∃ w, n.encode = .ok w ∧ w.length = n.size ∧
      ∀ s i fuel, OccursAt s i w → n.size ≤ fuel → parse s fuel i = .ok (n, i + n.size) := by
  obtain ⟨w, hw⟩ := h.exists_encode
  have hlen := ValidWith.length_encode h hw
  refine ⟨w, hw, hlen, fun s i fuel hocc hfuel => ?_⟩
  rw [h.parse_encode hw hocc hfuel, hlen]

/-- **A program that is written with a Jump that does not fit is not read back**: the operand
written for that Jump is not the size of its left program. -/
theorem ValidWith.encode_parse_reject {p : ℕ → Prop} {n : BinNode} (h : n.ValidWith p)
    (hfit : ¬n.JumpsFit) (hw : n.encode = .ok w) (hocc : OccursAt s i w) (hfuel : n.size ≤ fuel) :
    parse s fuel i = .error .reject := by
  obtain ⟨f, rfl⟩ : ∃ f, fuel = f + 1 := ⟨fuel - 1, by have := h.le_size; omega⟩
  induction n generalizing w i f with
  | Return v size => exact absurd trivial hfit
  | Jump l r size ihl ihr =>
    obtain ⟨hl, hr, -, hsize⟩ := h
    obtain ⟨wj, hj⟩ : ∃ wj, coderJump.encode (asU32 l.size) = .ok wj := by
      obtain ⟨_, wj, _, _, _, hj, _⟩ := encode_Jump_ok hw
      exact ⟨wj, hj⟩
    obtain ⟨k, wl, wr, hwl, hwr, hol, hor, -, hstep⟩ := parse_Jump f hw hocc
    rw [size_Jump] at hfuel
    obtain ⟨g, rfl⟩ : ∃ g, f = g + 1 := ⟨f - 1, by have := hl.le_size; omega⟩
    rw [hstep]
    by_cases hfl : l.JumpsFit
    · rw [(hl.valid hfl).parse_encode hwl hol (by omega)]
      dsimp only [bind, Except.bind]
      rw [hl.length_encode hwl]
      by_cases hle : l.size ≤ jumpMax
      · have hfr : ¬r.JumpsFit := fun hfr => hfit ⟨hfl, hfr, hle⟩
        rw [asU32_eq hle, if_neg (not_not.2 rfl), ← hl.length_encode hwl,
          ihr hr hfr hwr hor g (by omega)]
      · -- the operand is in range, the size is not
        have hsmall := (canEncode_coderJump.1 (canEncode_of_encode hj)).2
        rw [if_pos (by omega)]
    · rw [ihl hl hfl hwl hol g (by omega)]
      rfl
  | Match v sub size ih =>
    obtain ⟨hs, -, hsize⟩ := h
    obtain ⟨k, ws, hws, hos, -, hstep⟩ := parse_Match f hw hocc
    rw [size_Match] at hfuel
    obtain ⟨g, rfl⟩ : ∃ g, f = g + 1 := ⟨f - 1, by have := hs.le_size; omega⟩
    rw [hstep, ih hs hfit hws hos g (by omega)]
    rfl
  | Default v sub size ih =>
    obtain ⟨hs, -, -, hsize⟩ := h
    obtain ⟨k, ws, hws, hos, -, hstep⟩ := parse_Default f hw hocc
    rw [size_Default] at hfuel
    obtain ⟨g, rfl⟩ : ∃ g, f = g + 1 := ⟨f - 1, by have := hs.le_size; omega⟩
    rw [hstep, ih hs hfit hws hos g (by omega)]
    rfl
  | End size => exact h.elim

end Reading

end BinNode

end AsmapQuorum

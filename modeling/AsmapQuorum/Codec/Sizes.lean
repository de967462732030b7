import AsmapQuorum.Codec.Encoder

/-!
# The sizes of programs

Every program node stores the length of its encoding, added up by the smart constructors, and the
writer takes the operand of a Jump from there without looking at what it skips.

* `BinNode.Built` — the programs that the constructors build from one another, with operands in
  range.
* `BinNode.built_iff` — these are the empty program and the programs the format can hold; those of
  `to_binnode` are among them (`built_of_toBinnode`).
* `BinNode.Built.size_exact` — **the stored sizes are the lengths written**, at the root and behind
  every Jump.
-/

namespace AsmapQuorum

open FiniteMap

namespace BinNode

/-- What the smart constructors build: ASNs and Match operands in the range of their coders, and no
Jump over more than `coderJump` can skip.  A Match is only put in front of a program that is not
empty. -/
inductive Built : BinNode → Prop
  | endNode : Built endNode
  | leaf {v : ℕ} {n : BinNode} (hv : coderAsn.canEncode v) (h : BinNode.leaf v = .ok n) : Built n
  | branch {left right n : BinNode} (hl : Built left) (hr : Built right)
      (hfit : left.isEnd = false → right.isEnd = false → left.size ≤ jumpMax)
      (h : BinNode.branch left right = .ok n) : Built n
  | matchNode {v : ℕ} {sub n : BinNode} (hs : Built sub) (hsub : sub.isEnd = false)
      (hv : coderMatch.canEncode v) (h : BinNode.matchNode v sub = .ok n) : Built n
  | default {v : ℕ} {sub n : BinNode} (hv : coderAsn.canEncode v) (hs : Built sub)
      (h : BinNode.default v sub = .ok n) : Built n

/-- The program and the programs inside it. -/
def subprograms : BinNode → List BinNode
  | Return v size => [Return v size]
  | Jump left right size => Jump left right size :: (left.subprograms ++ right.subprograms)
  | Match v sub size => Match v sub size :: sub.subprograms
  | Default v sub size => Default v sub size :: sub.subprograms
  | End size => [End size]

/-- The bits that `to_binary` writes for a program: none for the empty one. -/
def written (n : BinNode) : Except Panic (List Bool) := if n.isEnd then .ok [] else n.encode

/-! ### Built programs are valid -/

theorem Built.programWith {n : BinNode} (h : Built n) : n.ProgramWith (· ≤ jumpMax) := by
  induction h with
  | endNode => exact .inl rfl
  | leaf hv h =>
    obtain ⟨n, hn, hval, -⟩ := leaf_spec hv
    obtain rfl : n = _ := Except.ok.inj (hn.symm.trans h)
    exact .inr hval
  | branch hl hr hfit h ihl ihr =>
    obtain ⟨n, hn, hprog, -⟩ := branch_spec (fun _ => buildable_of_le) ihl ihr hfit
    obtain rfl : n = _ := Except.ok.inj (hn.symm.trans h)
    exact hprog
  | matchNode hs hsub hv h ih =>
    rcases ih with rfl | hval
    · cases hsub
    · rw [matchNode_eq (canEncode_coderMatch.1 hv).1] at h
      obtain rfl := Except.ok.inj h
      exact .inr ⟨hval, hv, rfl⟩
  | default hv hs h ih =>
    obtain ⟨n, hn, hval, -⟩ := default_spec hv ih
    obtain rfl : n = _ := Except.ok.inj (hn.symm.trans h)
    exact .inr hval

/-- **Valid programs are built**, each node by its own constructor. -/
theorem Valid.built {n : BinNode} (h : n.Valid) : Built n := by
  induction n with
  | Return v size =>
    obtain ⟨hv, rfl⟩ := h
    exact .leaf hv (leaf_eq (canEncode_coderAsn.1 hv).1)
  | Jump l r size ihl ihr =>
    obtain ⟨hl, hr, hle, rfl⟩ := h
    exact .branch (ihl hl) (ihr hr) (fun _ _ => hle)
      (branch_jump hl.isEnd hr.isEnd (buildable_of_le hl.le_size hle))
  | Match v sub size ih =>
    obtain ⟨hs, hv, rfl⟩ := h
    exact .matchNode (ih hs) hs.isEnd hv (matchNode_eq (canEncode_coderMatch.1 hv).1 sub)
  | Default v sub size ih =>
    obtain ⟨hs, hv, hins, rfl⟩ := h
    exact .default hv (ih hs) (default_default (canEncode_coderAsn.1 hv).1 hins)
  | End size => exact h.elim

theorem built_iff {n : BinNode} : Built n ↔ n.ProgramWith (· ≤ jumpMax) := by
  refine ⟨Built.programWith, ?_⟩
  rintro (rfl | hval)
  · exact .endNode
  · exact Valid.built hval

/-- The programs that `to_binnode` keeps for any subtree are built. -/
theorem built_of_toBinnode {fill : Bool} {t : TrieNode} (hasn : ∀ v ∈ t.asns, v ≤ 33521664)
    (hjump : t.Jumps (· ≤ jumpMax) fill) :
    ∃ m hole, t.toBinnode fill = .ok (m, hole) ∧ ∀ ctx n, m.lookup ctx = some n → Built n := by
  obtain ⟨m, hole, hm, htable⟩ := TrieNode.toBinnode_spec (fun _ => buildable_of_le) hasn hjump
  exact ⟨m, hole, hm, fun ctx n hn => built_iff.2 (htable.serves ctx n hn).1⟩

/-! ### What is written -/

theorem MadeWith.of_mem_subprograms {asn p : ℕ → Prop} {n sub : BinNode} (h : n.MadeWith asn p)
    (hsub : sub ∈ n.subprograms) : sub.MadeWith asn p := by
  induction n with
  | Return v size =>
    rw [List.mem_singleton.1 hsub]
    exact h
  | Jump l r size ihl ihr =>
    rw [subprograms, List.mem_cons, List.mem_append] at hsub
    rcases hsub with rfl | hsub | hsub
    · exact h
    · exact ihl h.1 hsub
    · exact ihr h.2.1 hsub
  | Match v rest size ih =>
    rcases List.mem_cons.1 hsub with rfl | hsub
    · exact h
    · exact ih h.1 hsub
  | Default v rest size ih =>
    rcases List.mem_cons.1 hsub with rfl | hsub
    · exact h
    · exact ih h.1 hsub
  | End size => exact h.elim

theorem Valid.of_mem_subprograms {n sub : BinNode} (h : n.Valid) (hsub : sub ∈ n.subprograms) :
    sub.Valid :=
  validWith_iff.2 ((validWith_iff.1 h).of_mem_subprograms hsub)

/-- What the writer puts where a Jump stands: between the instruction and the left program, the
length of the latter. -/
theorem Valid.encode_Jump {l r : BinNode} {size : ℕ} (h : (Jump l r size).Valid) :
    ∃ ins operand left right, l.encode = .ok left ∧ r.encode = .ok right ∧
      coderIns.encode Instruction.Jump.toNat = .ok ins ∧
      coderJump.encode left.length = .ok operand ∧
      asU32 l.size = left.length ∧
        (Jump l r size).encode = .ok (ins ++ operand ++ left ++ right) := by
  obtain ⟨w, hw⟩ := h.exists_encode
  obtain ⟨ins, operand, left, right, hins, hoperand, hleft, hright, rfl⟩ := encode_Jump_ok hw
  obtain ⟨hl, -, hle, -⟩ := h
  have hsize : asU32 l.size = left.length := by
    rw [asU32_eq hle, hl.length_encode hleft]
  exact ⟨ins, operand, left, right, hleft, hright, hins, hsize ▸ hoperand, hsize, hw⟩

/-- **Stored sizes are exact.**  A program that was built is written in `size` bits, its Match
operands and Jump sizes are in range, and the operand of every Jump is the length of what it
skips. -/
theorem Built.size_exact {n : BinNode} (h : Built n) :
    (∃ w, n.written = .ok w ∧ w.length = n.size) ∧
      (∀ v sub size, Match v sub size ∈ n.subprograms → 2 ≤ v ∧ v ≤ 511) ∧
      ∀ l r size, Jump l r size ∈ n.subprograms → 17 ≤ l.size ∧
        ∃ ins operand left right, l.encode = .ok left ∧ r.encode = .ok right ∧
          coderIns.encode Instruction.Jump.toNat = .ok ins ∧
          coderJump.encode left.length = .ok operand ∧ asU32 l.size = left.length ∧
          (Jump l r size).encode = .ok (ins ++ operand ++ left ++ right) := by
  rcases h.programWith with rfl | hval
  · refine ⟨⟨[], rfl, rfl⟩, fun v sub size hsub => ?_, fun l r size hsub => ?_⟩
    · cases List.mem_singleton.1 hsub
    · cases List.mem_singleton.1 hsub
  · refine ⟨?_, fun v sub size hsub => ?_, fun l r size hsub => ?_⟩
    · obtain ⟨w, hw, hlen, -⟩ := Valid.encode_parse hval
      exact ⟨w, by rw [written, hval.isEnd, if_neg Bool.false_ne_true, hw], hlen⟩
    · exact canEncode_coderMatch.1 (Valid.of_mem_subprograms hval hsub).2.1
    · have hsub := Valid.of_mem_subprograms hval hsub
      exact ⟨hsub.1.le_size, hsub.encode_Jump⟩

/-- A Jump over a Match of two bits that `branch` has fused. -/
theorem Built.size_exact_fused :
    let n : BinNode := Jump (Match 5 (Return 7 17) 24) (Return 9 17) 49
    (∃ w, n.written = .ok w ∧ w.length = n.size) ∧
      (∀ v sub size, Match v sub size ∈ n.subprograms → 2 ≤ v ∧ v ≤ 511) ∧
      ∀ l r size, Jump l r size ∈ n.subprograms → 17 ≤ l.size ∧
        ∃ ins operand left right, l.encode = .ok left ∧ r.encode = .ok right ∧
          coderIns.encode Instruction.Jump.toNat = .ok ins ∧
          coderJump.encode left.length = .ok operand ∧ asU32 l.size = left.length ∧
          (Jump l r size).encode = .ok (ins ++ operand ++ left ++ right) := by
  have hseven : Built (Return 7 17) := .leaf (v := 7) (by decide) (by decide)
  have hright : Built (Match 3 (Return 7 17) 22) := .branch .endNode hseven (by decide) (by decide)
  have hleft : Built (Match 5 (Return 7 17) 24) := .branch hright .endNode (by decide) (by decide)
  have hnine : Built (Return 9 17) := .leaf (v := 9) (by decide) (by decide)
  exact Built.size_exact (.branch hleft hnine (by decide) (by decide))

end BinNode

end AsmapQuorum

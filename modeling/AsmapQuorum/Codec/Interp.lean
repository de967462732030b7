import AsmapQuorum.Codec.Binary

/-!
# The bytecode, executed directly

Consumers of the format do not decode it: they run the instruction stream on the bits of an address.
`exec` is that interpreter, written from the documentation of the instructions in `asmap.py`, and
`lookup_eq_execute` says that the decoded map agrees with it on every accepted stream, including
streams the encoder never writes.

The two readings meet in `exec_of_parse`: wherever the parser finds a program, executing from there
gives the program's meaning.
-/

namespace AsmapQuorum

open Reading PrefixOverwrite

/-- How an execution ends. -/
inductive Outcome where
  | result (asn : ℕ)
  | outOfPath
  | malformed
  | outOfFuel
  deriving DecidableEq, Repr

/-- How an operand's bits compare with the path, bit by bit. -/
inductive MatchOutcome where
  | matched (rest : List Bool)
  | differs
  | outOfPath
  deriving DecidableEq, Repr

/-- Consumes path bits as long as they agree with the operand's. -/
def matchPath : List Bool → List Bool → MatchOutcome
  | [], path => .matched path
  | _ :: _, [] => .outOfPath
  | bit :: operand, b :: path => if b = bit then matchPath operand path else .differs

/-- One instruction: `run` continues at another position, with a default and the rest of the
path. -/
def execOperands (bits : List Bool) (run : ℕ → ℕ → List Bool → Outcome) (dflt : ℕ)
    (path : List Bool) : Instruction → ℕ → Outcome
  | .Return, bitpos =>
    match coderAsn.decode bits bitpos with
    | some (asn, _) => .result asn
    | none => .malformed
  | .Jump, bitpos =>
    match coderJump.decode bits bitpos with
    | some (jump, bitpos) =>
      match path with
      | [] => .outOfPath
      | false :: path => run bitpos dflt path
      | true :: path => run (bitpos + jump) dflt path
    | none => .malformed
  | .Match, bitpos =>
    match coderMatch.decode bits bitpos with
    | some (val, bitpos) =>
      match matchPath (bigEndian val.log2 val) path with
      | .matched path => run bitpos dflt path
      | .differs => .result dflt
      | .outOfPath => .outOfPath
    | none => .malformed
  | .Default, bitpos =>
    match coderAsn.decode bits bitpos with
    | some (asn, bitpos) => run bitpos asn path
    | none => .malformed
  | .End, _ => .malformed

/-- Runs the stream from a position.  Every instruction takes at least one bit, so the number of
bits is enough fuel. -/
def exec (bits : List Bool) : ℕ → ℕ → ℕ → List Bool → Outcome
  | 0, _, _, _ => .outOfFuel
  | fuel + 1, bitpos, dflt, path =>
    match coderIns.decode bits bitpos with
    | some (insval, bitpos) =>
      match Instruction.tryFrom insval with
      | some ins => execOperands bits (exec bits fuel) dflt path ins bitpos
      | none => .malformed
    | none => .malformed

/-- The whole stream of a byte string: from bit 0 with default 0. -/
def execute (bindata : List UInt8) (path : List Bool) : Outcome :=
  let bits := bindata.flatMap byteBits
  exec bits (bits.length + 1) 0 0 path

/-! ### Matching -/

theorem matchPath_matched {w p rest : List Bool} (h : matchPath w p = .matched rest) :
    p = w ++ rest := by
  induction w generalizing p with
  | nil => exact MatchOutcome.matched.inj h
  | cons b w ih =>
    cases p with
    | nil => cases h
    | cons c p =>
      rw [matchPath] at h
      split at h
      · next hbc => rw [hbc, ih h, List.cons_append]
      · cases h

theorem matchPath_differs {w p : List Bool} (h : matchPath w p = .differs) (x : Stream' Bool) :
    ¬Covers w (p ++ₛ x) := by
  induction w generalizing p with
  | nil => cases h
  | cons b w ih =>
    cases p with
    | nil => cases h
    | cons c p =>
      rw [matchPath] at h
      rw [Stream'.cons_append_stream, covers_cons]
      split at h
      · exact fun hcov => ih h hcov.2
      · next hbc => exact fun hcov => hbc hcov.1

theorem matchPath_outOfPath {w p : List Bool} (h : matchPath w p = .outOfPath) :
    p.length < w.length := by
  induction w generalizing p with
  | nil => cases h
  | cons b w ih =>
    cases p with
    | nil => exact Nat.succ_pos _
    | cons c p =>
      rw [matchPath] at h
      split at h
      · exact Nat.succ_lt_succ (ih h)
      · cases h

/-! ### Long paths -/

/-- An instruction consumes at most eight bits of the path. -/
theorem execOperands_ne_outOfPath {bits : List Bool} {run : ℕ → ℕ → List Bool → Outcome} {n : ℕ}
    (hrun : ∀ i d path, n ≤ path.length → run i d path ≠ .outOfPath) {d i : ℕ} {path : List Bool}
    (h : n + 8 ≤ path.length) (ins : Instruction) :
    execOperands bits run d path ins i ≠ .outOfPath := by
  cases ins with
  | Return =>
    rw [execOperands]
    split <;> simp
  | Jump =>
    rw [execOperands]
    split
    · cases path with
      | nil => exact absurd h (by simp)
      | cons b path =>
        rw [List.length_cons] at h
        cases b with
        | false => exact hrun _ _ _ (by omega)
        | true => exact hrun _ _ _ (by omega)
    · simp
  | Match =>
    rw [execOperands]
    split
    · next val j hdec =>
      obtain ⟨w, hcan, -⟩ := VarLenCoder.decode_spec regular_coderMatch hdec
      obtain ⟨hlow, hhigh⟩ := canEncode_coderMatch.1 hcan
      have hlog : val.log2 < 9 := (Nat.log2_lt (by omega)).2 (by omega)
      cases hmatch : matchPath (bigEndian val.log2 val) path with
      | matched rest =>
        have hlen := congrArg List.length (matchPath_matched hmatch)
        rw [List.length_append, length_bigEndian] at hlen
        exact hrun _ _ _ (by omega)
      | differs => simp
      | outOfPath =>
        have hlen := matchPath_outOfPath hmatch
        rw [length_bigEndian] at hlen
        omega
    · simp
  | Default =>
    rw [execOperands]
    split
    · exact hrun _ _ _ (by omega)
    · simp
  | End => simp [execOperands]

/-- **No run leaves a path of eight bits for every step.** -/
theorem exec_ne_outOfPath {bits : List Bool} {fuel i d : ℕ} {path : List Bool}
    (h : 8 * fuel ≤ path.length) : exec bits fuel i d path ≠ .outOfPath := by
  induction fuel generalizing i d path with
  | zero => simp [exec]
  | succ fuel ih =>
    unfold exec
    split
    · split
      · exact execOperands_ne_outOfPath (fun _ _ _ hpath => ih hpath) (by omega) _
      · simp
    · simp

/-! ### The parser builds what is executed -/

theorem Parse.ofOption_eq_ok {α : Type} {o : Option α} {a : α} :
    Parse.ofOption o = .ok a ↔ o = some a := by
  cases o <;> simp [Parse.ofOption]

theorem Parse.ofExcept_eq_ok {α : Type} {e : Except Panic α} {a : α} :
    Parse.ofExcept e = .ok a ↔ e = .ok a := by
  cases e <;> simp [Parse.ofExcept]

namespace BinNode

theorem leaf_ok {v : ℕ} {n : BinNode} (h : leaf v = .ok n) : ∃ size, n = Return v size := by
  obtain ⟨ins, -, h⟩ := bind_eq_ok.1 h
  obtain ⟨asn, -, h⟩ := bind_eq_ok.1 h
  exact ⟨_, (Except.ok.inj h).symm⟩

theorem matchNode_ok {v : ℕ} {sub n : BinNode} (h : matchNode v sub = .ok n) :
    ∃ size, n = Match v sub size := by
  obtain ⟨ins, -, h⟩ := bind_eq_ok.1 h
  obtain ⟨val, -, h⟩ := bind_eq_ok.1 h
  exact ⟨_, (Except.ok.inj h).symm⟩

theorem branch_ok {l r n : BinNode} (hl : l.isEnd = false) (hr : r.isEnd = false)
    (h : branch l r = .ok n) : ∃ size, n = Jump l r size := by
  simp only [branch, hl, hr, Bool.and_self, Bool.false_eq_true, if_false] at h
  obtain ⟨ins, -, h⟩ := bind_eq_ok.1 h
  obtain ⟨jump, -, h⟩ := bind_eq_ok.1 h
  exact ⟨_, (Except.ok.inj h).symm⟩

/-- A default in front of a non-empty program leaves it alone when it cannot matter. -/
theorem default_ok {v : ℕ} {sub n : BinNode} (hs : sub.isEnd = false) (h : default v sub = .ok n) :
    n.isEnd = false ∧ ∀ d, n.meaning d = sub.meaning v := by
  have hdefault : (do
      let ins ← coderIns.encodeSize Instruction.Default.toNat
      let asn ← coderAsn.encodeSize v
      return Default v sub (ins + asn + sub.size) : Except Panic BinNode) = .ok n →
        n.isEnd = false ∧ ∀ d, n.meaning d = sub.meaning v := by
    intro h
    obtain ⟨ins, -, h⟩ := bind_eq_ok.1 h
    obtain ⟨asn, -, h⟩ := bind_eq_ok.1 h
    cases h
    exact ⟨rfl, fun _ => rfl⟩
  cases sub with
  | Return w size =>
    cases h
    exact ⟨rfl, fun _ => rfl⟩
  | Default w sub size =>
    cases h
    exact ⟨rfl, fun _ => rfl⟩
  | Jump l r size => exact hdefault h
  | Match w sub size => exact hdefault h
  | End size => cases hs

/-- The instruction code `End` is never read: `CODER_INS` stops at 3. -/
theorem decode_coderIns_ne_end {bits : List Bool} {i j : ℕ} {insval : ℕ} {ins : Instruction}
    (hdec : coderIns.decode bits i = some (insval, j))
    (hins : Instruction.tryFrom insval = some ins) :
    ins ≠ .End := by
  obtain ⟨w, hcan, -⟩ := VarLenCoder.decode_spec regular_coderIns hdec
  have hle := canEncode_coderIns.1 hcan
  rintro rfl
  obtain rfl | rfl | rfl | rfl : insval = 0 ∨ insval = 1 ∨ insval = 2 ∨ insval = 3 := by omega
  all_goals cases hins

/-- Wherever a run has enough of a path, its result is what `meaning` holds there. -/
def Answers (run : ℕ → List Bool → Outcome) (meaning : ℕ → TrieNode) : Prop :=
  ∀ d path, run d path ≠ .outOfPath →
    ∃ r, run d path = .result r ∧ ∀ x, (meaning d).asnAt (path ++ₛ x) = r

section Answers

variable {bits : List Bool} {run : ℕ → ℕ → List Bool → Outcome} {i j : ℕ}

theorem answers_Return {v : ℕ} (h : coderAsn.decode bits i = some (v, j)) :
    Answers (fun d path => execOperands bits run d path .Return i) fun _ => .leaf v := by
  intro d path _
  refine ⟨v, ?_, fun _ => rfl⟩
  simp only [execOperands, h]

theorem answers_Jump {jump : ℕ} {l r : ℕ → TrieNode} (h : coderJump.decode bits i = some (jump, j))
    (hl : Answers (run j) l) (hr : Answers (run (j + jump)) r) :
    Answers (fun d path => execOperands bits run d path .Jump i) fun d => .branch (l d) (r d) := by
  intro d path hpath
  simp only [execOperands, h] at hpath ⊢
  cases path with
  | nil => exact absurd rfl hpath
  | cons b path =>
    cases b with
    | false =>
      obtain ⟨v, hrun, hmean⟩ := hl d path hpath
      refine ⟨v, hrun, fun x => ?_⟩
      rw [Stream'.cons_append_stream, TrieNode.asnAt_branch, Stream'.head_cons, Stream'.tail_cons,
        if_neg (by simp), hmean]
    | true =>
      obtain ⟨v, hrun, hmean⟩ := hr d path hpath
      refine ⟨v, hrun, fun x => ?_⟩
      rw [Stream'.cons_append_stream, TrieNode.asnAt_branch, Stream'.head_cons, Stream'.tail_cons,
        if_pos rfl, hmean]

theorem answers_Match {val : ℕ} {sub : ℕ → TrieNode} (h : coderMatch.decode bits i = some (val, j))
    (hs : Answers (run j) sub) :
    Answers (fun d path => execOperands bits run d path .Match i) fun d =>
      matchTrie d val (sub d) := by
  have hval : 1 ≤ val := by
    obtain ⟨w, hcan, -⟩ := VarLenCoder.decode_spec regular_coderMatch h
    have := (canEncode_coderMatch.1 hcan).1
    omega
  intro d path hpath
  simp only [execOperands, h] at hpath ⊢
  simp only [asnAt_matchTrie d hval]
  cases hmatch : matchPath (bigEndian val.log2 val) path with
  | matched rest =>
    simp only [hmatch] at hpath
    obtain ⟨v, hrun, hmean⟩ := hs d rest hpath
    refine ⟨v, hrun, fun x => ?_⟩
    have hdrop : (bigEndian val.log2 val ++ₛ (rest ++ₛ x)).drop val.log2 = rest ++ₛ x := by
      have := Stream'.drop_append_stream (bigEndian val.log2 val) (rest ++ₛ x)
      rwa [length_bigEndian] at this
    rw [matchPath_matched hmatch, Stream'.append_append_stream, if_pos (covers_append _ _), hdrop,
      hmean]
  | differs => exact ⟨d, rfl, fun x => if_neg (matchPath_differs hmatch x)⟩
  | outOfPath => exact absurd (by simp only [hmatch]) hpath

theorem answers_Default {v : ℕ} {sub : ℕ → TrieNode} (h : coderAsn.decode bits i = some (v, j))
    (hs : Answers (run j) sub) :
    Answers (fun d path => execOperands bits run d path .Default i) fun _ => sub v := by
  intro d path hpath
  simp only [execOperands, h] at hpath ⊢
  exact hs v path hpath

end Answers

/-- The parser and the interpreter read the same instruction. -/
theorem parse_ok {bits : List Bool} {fuel i j : ℕ} {n : BinNode}
    (h : parse bits (fuel + 1) i = .ok (n, j)) :
    ∃ ins k, ins ≠ .End ∧ parseOperands bits (parse bits fuel) ins k = .ok (n, j) ∧
      exec bits (fuel + 1) i = fun d path => execOperands bits (exec bits fuel) d path ins k := by
  rw [parse] at h
  obtain ⟨⟨insval, k⟩, hdec, h⟩ := bind_eq_ok.1 h
  obtain ⟨ins, hins, h⟩ := bind_eq_ok.1 h
  rw [Parse.ofOption_eq_ok] at hdec hins
  refine ⟨ins, k, decode_coderIns_ne_end hdec hins, h, ?_⟩
  funext d path
  simp only [exec, hdec, hins]

/-- **Executing where a program was parsed gives the program's meaning.** -/
theorem exec_of_parse {bits : List Bool} {fuel : ℕ} : ∀ {i j : ℕ} {n : BinNode},
    parse bits fuel i = .ok (n, j) → n.isEnd = false ∧ Answers (exec bits fuel i) n.meaning := by
  induction fuel with
  | zero => intro i j n h; cases h
  | succ fuel ih =>
    intro i j n h
    obtain ⟨ins, k, hend, h, hexec⟩ := parse_ok h
    rw [hexec]
    cases ins with
    | Return =>
      obtain ⟨⟨asn, i₂⟩, hasn, h⟩ := bind_eq_ok.1 h
      obtain ⟨node, hnode, h⟩ := bind_eq_ok.1 h
      obtain ⟨rfl, rfl⟩ := Prod.mk.inj (Except.ok.inj h)
      obtain ⟨size, rfl⟩ := leaf_ok (Parse.ofExcept_eq_ok.1 hnode)
      exact ⟨rfl, answers_Return (Parse.ofOption_eq_ok.1 hasn)⟩
    | Jump =>
      obtain ⟨⟨jump, i₂⟩, hjump, h⟩ := bind_eq_ok.1 h
      obtain ⟨⟨left, i₃⟩, hleft, h⟩ := bind_eq_ok.1 h
      dsimp only at h
      split at h
      · cases h
      · next hpos =>
        obtain ⟨⟨right, i₄⟩, hright, h⟩ := bind_eq_ok.1 h
        obtain ⟨node, hnode, h⟩ := bind_eq_ok.1 h
        obtain ⟨rfl, rfl⟩ := Prod.mk.inj (Except.ok.inj h)
        obtain ⟨hendl, hl⟩ := ih hleft
        obtain ⟨hendr, hr⟩ := ih hright
        obtain ⟨size, rfl⟩ := branch_ok hendl hendr (Parse.ofExcept_eq_ok.1 hnode)
        -- the right program starts where the jump leads
        rw [not_not.1 hpos] at hr
        exact ⟨rfl, answers_Jump (Parse.ofOption_eq_ok.1 hjump) hl hr⟩
    | Match =>
      obtain ⟨⟨val, i₂⟩, hval, h⟩ := bind_eq_ok.1 h
      obtain ⟨⟨sub, i₃⟩, hsub, h⟩ := bind_eq_ok.1 h
      obtain ⟨node, hnode, h⟩ := bind_eq_ok.1 h
      obtain ⟨rfl, rfl⟩ := Prod.mk.inj (Except.ok.inj h)
      obtain ⟨size, rfl⟩ := matchNode_ok (Parse.ofExcept_eq_ok.1 hnode)
      exact ⟨rfl, answers_Match (Parse.ofOption_eq_ok.1 hval) (ih hsub).2⟩
    | Default =>
      obtain ⟨⟨asn, i₂⟩, hasn, h⟩ := bind_eq_ok.1 h
      obtain ⟨⟨sub, i₃⟩, hsub, h⟩ := bind_eq_ok.1 h
      obtain ⟨node, hnode, h⟩ := bind_eq_ok.1 h
      obtain ⟨rfl, rfl⟩ := Prod.mk.inj (Except.ok.inj h)
      obtain ⟨hends, hs⟩ := ih hsub
      obtain ⟨hend', hmean⟩ := default_ok hends (Parse.ofExcept_eq_ok.1 hnode)
      refine ⟨hend', ?_⟩
      rw [show node.meaning = fun _ => sub.meaning asn from funext hmean]
      exact answers_Default (Parse.ofOption_eq_ok.1 hasn) hs
    | End => exact absurd rfl hend

end BinNode

/-- Where a run of the accepted stream ends, the decoded map has its result on every longer path. -/
theorem asnAt_eq_execute {b : List UInt8} (hne : b ≠ []) {m : ASMap}
    (h : ASMap.fromBinary b = .ok m) {p : List Bool} (hp : execute b p ≠ .outOfPath) :
    ∃ r, execute b p = .result r ∧ ∀ x, m.trie.asnAt (p ++ₛ x) = r := by
  have hbits : b.flatMap byteBits ≠ [] := by
    obtain ⟨byte, rest, rfl⟩ := List.exists_cons_of_ne_nil hne
    simp [byteBits]
  obtain ⟨n, j, hparse, hm⟩ := ASMap.fromBits_eq_ok hbits h
  obtain ⟨r, hrun, hmean⟩ := (BinNode.exec_of_parse hparse).2 0 p hp
  exact ⟨r, hrun, by rwa [hm]⟩

/-- **The decoded trie is the bytecode's meaning.**  On every path on which the accepted stream runs
to an end, the decoded map gives the result of the run. -/
theorem lookup_eq_execute {b : List UInt8} (hne : b ≠ []) {m : ASMap}
    (h : ASMap.fromBinary b = .ok m) {p : List Bool} (hp : execute b p ≠ .outOfPath) :
    ∃ r, execute b p = .result r ∧ m.lookup p = some r := by
  obtain ⟨r, hrun, hasn⟩ := asnAt_eq_execute hne h hp
  exact ⟨r, hrun, (ASMap.canonical_of_fromBinary h).lookup_eq hasn⟩

/-- DEFAULT 5, DEFAULT 7, MATCH `1`, RETURN 9, which the encoder would not write. -/
theorem lookup_eq_execute_nested_default :
    ∃ r, execute [7, 0, 57, 0, 216, 4, 0, 1] [false, true] = .result r ∧
      (⟨.Branch (.Leaf 7) (.Leaf 9)⟩ : ASMap).lookup [false, true] = some r :=
  lookup_eq_execute (by decide) (by decide) (by decide)

end AsmapQuorum

import AsmapQuorum.Codec.Coder
import AsmapQuorum.Codec.Trie

/-!
# Programs of the binary format

The binary format is a small bytecode: RETURN, JUMP, MATCH, DEFAULT.  `BinNode` is the codec's tree
form of a program, with the size in bits stored in every node and computed by the smart constructors
`leaf`, `branch`, `default`, `matchNode` of `coder.rs` (which fuse Match chains and drop redundant
Defaults on the way).

* `BinNode.encode`, `BinNode.parse` — the writer and the recursive-descent reader of `trie.rs`.
* `BinNode.toTrie`, `ASMap.fromBinnode` — the trie a program stands for.

Aborts are values here: a failed `assert!` or an unsigned underflow is an `Except.error` of `Panic`.
-/

namespace AsmapQuorum

open Reading PrefixOverwrite

inductive Instruction where
  | Return
  | Jump
  | Match
  | Default
  | End
  deriving DecidableEq, Repr

namespace Instruction

def toNat : Instruction → ℕ
  | Return => 0
  | Jump => 1
  | Match => 2
  | Default => 3
  | End => 4

def tryFrom : ℕ → Option Instruction
  | 0 => some Return
  | 1 => some Jump
  | 2 => some Match
  | 3 => some Default
  | 4 => some End
  | _ => none

@[simp] theorem tryFrom_toNat (ins : Instruction) : tryFrom ins.toNat = some ins := by
  cases ins <;> rfl

end Instruction

/-- A program node: its kind, with the size in bits of its encoding. -/
inductive BinNode where
  | Return (v size : ℕ)
  | Jump (left right : BinNode) (size : ℕ)
  | Match (v : ℕ) (sub : BinNode) (size : ℕ)
  | Default (v : ℕ) (sub : BinNode) (size : ℕ)
  | End (size : ℕ)
  deriving DecidableEq, Repr

/-- `v as u32`. -/
def asU32 (v : ℕ) : ℕ := v % 2 ^ 32

/-- `32 - v.leading_zeros()`. -/
def bitLengthU32 (v : ℕ) : ℕ := if v = 0 then 0 else v.log2 + 1

namespace BinNode

def size : BinNode → ℕ
  | Return _ size => size
  | Jump _ _ size => size
  | Match _ _ size => size
  | Default _ _ size => size
  | End size => size

@[simp] theorem size_Return (v size : ℕ) : (Return v size).size = size := rfl

@[simp] theorem size_Jump (l r : BinNode) (size : ℕ) : (Jump l r size).size = size := rfl

@[simp] theorem size_Match (v : ℕ) (sub : BinNode) (size : ℕ) :
    (Match v sub size).size = size := rfl

@[simp] theorem size_Default (v : ℕ) (sub : BinNode) (size : ℕ) :
    (Default v sub size).size = size :=
  rfl

def instruction : BinNode → Instruction
  | Return .. => .Return
  | Jump .. => .Jump
  | Match .. => .Match
  | Default .. => .Default
  | End .. => .End

def isEnd (n : BinNode) : Bool := n.instruction == .End

def insValue (n : BinNode) : ℕ := n.instruction.toNat

/-! ### Smart constructors -/

def endNode : BinNode := End 0

def leaf (v : ℕ) : Except Panic BinNode := do
  let ins ← coderIns.encodeSize Instruction.Return.toNat
  let asn ← coderAsn.encodeSize v
  return Return v (ins + asn)

def matchNode (v : ℕ) (sub : BinNode) : Except Panic BinNode := do
  let ins ← coderIns.encodeSize Instruction.Match.toNat
  let val ← coderMatch.encodeSize v
  return Match v sub (ins + val + sub.size)

def branch (left right : BinNode) : Except Panic BinNode :=
  if left.isEnd && right.isEnd then
    .ok left
  else if left.isEnd then
    match right with
    | Match v sub _ =>
      if v ≤ 0xff then matchNode (v + 1 <<< bitLengthU32 v) sub else matchNode 3 right
    | _ => matchNode 3 right
  else if right.isEnd then
    match left with
    | Match v sub _ =>
      if v ≤ 0xff then matchNode (v + 1 <<< (bitLengthU32 v - 1)) sub else matchNode 2 left
    | _ => matchNode 2 left
  else do
    let ins ← coderIns.encodeSize Instruction.Jump.toNat
    let jump ← coderJump.encodeSize (asU32 left.size)
    return Jump left right (ins + jump + left.size + right.size)

def default (v : ℕ) (sub : BinNode) : Except Panic BinNode :=
  match sub with
  | End _ => leaf v
  | Return .. => .ok sub
  | Default .. => .ok sub
  | _ => do
    let ins ← coderIns.encodeSize Instruction.Default.toNat
    let asn ← coderAsn.encodeSize v
    return Default v sub (ins + asn + sub.size)

/-! ### Writing and reading -/

/-- `to_binary`'s `encode`: the bits it appends for a program. -/
def encode : BinNode → Except Panic (List Bool)
  | Return v size => do
    let ins ← coderIns.encode (Return v size).insValue
    let asn ← coderAsn.encode v
    return ins ++ asn
  | Jump left right size => do
    let ins ← coderIns.encode (Jump left right size).insValue
    let jump ← coderJump.encode (asU32 left.size)
    let l ← left.encode
    let r ← right.encode
    return ins ++ jump ++ l ++ r
  | Match v sub size => do
    let ins ← coderIns.encode (Match v sub size).insValue
    let val ← coderMatch.encode v
    let rest ← sub.encode
    return ins ++ val ++ rest
  | Default v sub size => do
    let ins ← coderIns.encode (Default v sub size).insValue
    let asn ← coderAsn.encode v
    let rest ← sub.encode
    return ins ++ asn ++ rest
  | End size => coderIns.encode (End size).insValue

end BinNode

/-- Why a decoder stops without a result: it rejects the input (the source's `None`), or aborts. -/
inductive Stop where
  | reject
  | panic (p : Panic)
  deriving DecidableEq, Repr

/-- A decoder's outcome. -/
abbrev Parse := Except Stop

/-- The source's `?` on an `Option`. -/
def Parse.ofOption {α : Type} : Option α → Parse α
  | some a => .ok a
  | none => .error .reject

/-- A call that may abort. -/
def Parse.ofExcept {α : Type} : Except Panic α → Parse α
  | .ok a => .ok a
  | .error p => .error (.panic p)

namespace BinNode

/-- The arms of `from_binary`'s `recurse`: what follows an instruction code, with the recursive call
as a parameter. -/
def parseOperands (bits : List Bool) (recurse : ℕ → Parse (BinNode × ℕ)) :
    Instruction → ℕ → Parse (BinNode × ℕ)
  | .Return, bitpos => do
    let (asn, bitpos) ← Parse.ofOption (coderAsn.decode bits bitpos)
    let node ← Parse.ofExcept (leaf asn)
    return (node, bitpos)
  | .Jump, bitpos => do
    let (jump, bitpos) ← Parse.ofOption (coderJump.decode bits bitpos)
    let (left, bitpos1) ← recurse bitpos
    if bitpos1 ≠ bitpos + jump then .error .reject
    else
      let (right, bitpos2) ← recurse bitpos1
      let node ← Parse.ofExcept (branch left right)
      return (node, bitpos2)
  | .Match, bitpos => do
    let (matchval, bitpos) ← Parse.ofOption (coderMatch.decode bits bitpos)
    let (sub, bitpos) ← recurse bitpos
    let node ← Parse.ofExcept (matchNode matchval sub)
    return (node, bitpos)
  | .Default, bitpos => do
    let (asn, bitpos) ← Parse.ofOption (coderAsn.decode bits bitpos)
    let (sub, bitpos) ← recurse bitpos
    let node ← Parse.ofExcept (default asn sub)
    return (node, bitpos)
  | .End, bitpos => return (endNode, bitpos)

/-- `from_binary`'s `recurse`.  Every level consumes at least one bit, so the number of bits left is
enough fuel. -/
def parse (bits : List Bool) : ℕ → ℕ → Parse (BinNode × ℕ)
  | 0, _ => .error (.panic .outOfFuel)
  | fuel + 1, bitpos => do
    let (insval, bitpos) ← Parse.ofOption (coderIns.decode bits bitpos)
    let ins ← Parse.ofOption (Instruction.tryFrom insval)
    parseOperands bits (parse bits fuel) ins bitpos

/-! ### The trie of a program -/

/-- The `while val >= 2` loop of `from_binnode`: lowest operand bit first. -/
def matchLoop (dflt : ℕ) : ℕ → ℕ → TrieNode → TrieNode
  | 0, _, sub => sub
  | fuel + 1, val, sub =>
    if val ≥ 2 then
      matchLoop dflt fuel (val >>> 1)
        (if val &&& 1 ≠ 0 then .branch (.leaf dflt) sub else .branch sub (.leaf dflt))
    else sub

/-- The loop with the operand itself as fuel: every round halves it. -/
def matchTrie (dflt val : ℕ) (sub : TrieNode) : TrieNode := matchLoop dflt val val sub

/-- `from_binnode`'s `recurse`. -/
def toTrie : BinNode → ℕ → Option TrieNode
  | Return v _, _ => some (.leaf v)
  | Jump left right _, dflt => do
    let l ← left.toTrie dflt
    let r ← right.toTrie dflt
    return .branch l r
  | Match val sub _, dflt => do
    let t ← sub.toTrie dflt
    return matchTrie dflt val t
  | Default v sub _, _ => sub.toTrie v
  | End _, _ => none

end BinNode

/-- `ASMap::from_binnode`. -/
def ASMap.fromBinnode (node : BinNode) : Option ASMap :=
  match node with
  | .End _ => some ⟨.leaf 0⟩
  | _ => (node.toTrie 0).map ASMap.mk

end AsmapQuorum

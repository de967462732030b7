import AsmapQuorum.Codec.Binary
import AsmapQuorum.Lib.ContextTable

/-!
# The reference codec

The binary codec of `contrib/asmap/asmap.py`, which the crate is a port of and is tested against.
Its nodes and tries have the shapes of the crate's, so they are the same types here; its functions
are written from its source.

* `Reference.encode`, `Reference.encodeSize`, `Reference.decode` — the methods of `_VarLenCoder`.
* `Reference.newReturn` … `makeDefault` — `_BinNode`, whose constructor asserts that operands are in
  range.
* `Reference.toBinnode`, `Reference.toBinary` — the encoder.
* `Reference.parse`, `Reference.rawTrie`, `Reference.setTrie`, `Reference.fromBinary` — the decoder:
  it keeps the nodes as they were read and the trie as they describe it, and merges equal leaves at
  the end.

An exception is an `Except.error`; `from_binary` catches two of them.
-/

namespace AsmapQuorum

open FiniteMap

namespace Reference

inductive PyError where
  | AssertionError
  | ValueError
  | IndexError
  | KeyError
  /-- Not an exception of the source: a bounded recursion of the model ran out of fuel. -/
  | outOfFuel
  deriving DecidableEq, Repr

/-- Python's `assert`. -/
def check (p : Bool) : Except PyError Unit := if p then .ok () else .error .AssertionError

/-! ### `_VarLenCoder` -/

def canEncode (c : VarLenCoder) (val : ℕ) : Bool := c.minval ≤ val && val ≤ c.maxval

/-- The `for` loop of `encode`: the bits it appends, then `val` and `bits` as it leaves them. -/
def encodeLoop (len : ℕ) : List ℕ → ℕ → ℕ → ℕ → List Bool × ℕ × ℕ
  | [], _, bits, val => ([], val, bits)
  | bits :: rest, k, _, val =>
    if val >>> bits ≠ 0 then
      let (ret, after) := encodeLoop len rest (k + 1) bits (val - 1 <<< bits)
      (true :: ret, after)
    else (if k + 1 < len then [false] else [], val, bits)

/-- The bits that `encode` appends. -/
def encode (c : VarLenCoder) (val : ℕ) : Except PyError (List Bool) := do
  check (canEncode c val)
  let (ret, val, bits) := encodeLoop c.clsbits.length c.clsbits 0 0 (val - c.minval)
  return ret ++ (List.range bits).map fun b => (val >>> (bits - 1 - b)) &&& 1 == 1

/-- The `for` loop of `encode_size`: `ret` and `bits` as it leaves them. -/
def sizeLoop (len : ℕ) : List ℕ → ℕ → ℕ → ℕ → ℕ × ℕ
  | [], _, bits, _ => (0, bits)
  | bits :: rest, k, _, val =>
    if val >>> bits ≠ 0 then
      let (ret, after) := sizeLoop len rest (k + 1) bits (val - 1 <<< bits)
      (ret + 1, after)
    else (if k + 1 < len then 1 else 0, bits)

def encodeSize (c : VarLenCoder) (val : ℕ) : Except PyError ℕ := do
  check (canEncode c val)
  let (ret, bits) := sizeLoop c.clsbits.length c.clsbits 0 0 (val - c.minval)
  return ret + bits

/-- `stream[bitpos]`. -/
def index (stream : List Bool) (bitpos : ℕ) : Except PyError Bool :=
  match stream[bitpos]? with
  | some bit => .ok bit
  | none => .error .IndexError

/-- The first `for` loop of `decode`: `val`, `bits` and `bitpos` as it leaves them. -/
def classLoop (stream : List Bool) (len : ℕ) : List ℕ → ℕ → ℕ → ℕ → ℕ → Except PyError (ℕ × ℕ × ℕ)
  | [], _, bits, bitpos, val => .ok (val, bits, bitpos)
  | bits :: rest, k, _, bitpos, val => do
    let (bit, bitpos) ← if k + 1 < len then do
        let bit ← index stream bitpos
        pure (bit, bitpos + 1)
      else pure (false, bitpos)
    if !bit then return (val, bits, bitpos)
    else classLoop stream len rest (k + 1) bits bitpos (val + 1 <<< bits)

/-- The second, over the positions `is` of the bits that are left to read. -/
def positionLoop (stream : List Bool) (bits : ℕ) : List ℕ → ℕ → ℕ → Except PyError (ℕ × ℕ)
  | [], bitpos, val => .ok (val, bitpos)
  | i :: is, bitpos, val => do
    let bit ← index stream bitpos
    positionLoop stream bits is (bitpos + 1) (val + bit.toNat <<< (bits - 1 - i))

def decode (c : VarLenCoder) (stream : List Bool) (bitpos : ℕ) : Except PyError (ℕ × ℕ) := do
  let (val, bits, bitpos) ← classLoop stream c.clsbits.length c.clsbits 0 0 bitpos c.minval
  positionLoop stream bits (List.range bits) bitpos val

/-- `range(15, 25)` as a list. -/
def coderAsn : VarLenCoder := .new 1 (List.range' 15 10)

def coderMatch : VarLenCoder := .new 2 (List.range' 1 8)

def coderJump : VarLenCoder := .new 17 (List.range' 5 26)

/-! ### `_BinNode` -/

/-- `_BinNode(RETURN, asn)`. -/
def newReturn (asn : ℕ) : Except PyError BinNode := do
  let ins ← encodeSize coderIns Instruction.Return.toNat
  let size ← encodeSize coderAsn asn
  return .Return asn (ins + size)

/-- `_BinNode(JUMP, node_0, node_1)`. -/
def newJump (node0 node1 : BinNode) : Except PyError BinNode := do
  let ins ← encodeSize coderIns Instruction.Jump.toNat
  let size ← encodeSize coderJump node0.size
  return .Jump node0 node1 (ins + size + node0.size + node1.size)

/-- `_BinNode(MATCH, val, node)`. -/
def newMatch (val : ℕ) (node : BinNode) : Except PyError BinNode := do
  let ins ← encodeSize coderIns Instruction.Match.toNat
  let size ← encodeSize coderMatch val
  return .Match val node (ins + size + node.size)

/-- `_BinNode(DEFAULT, asn, node)`. -/
def newDefault (asn : ℕ) (node : BinNode) : Except PyError BinNode := do
  let ins ← encodeSize coderIns Instruction.Default.toNat
  let size ← encodeSize coderAsn asn
  return .Default asn node (ins + size + node.size)

def makeEnd : BinNode := .End 0

def makeLeaf (val : ℕ) : Except PyError BinNode := do
  check (val > 0)
  newReturn val

/-- `int.bit_length`. -/
def bitLength (v : ℕ) : ℕ := if v = 0 then 0 else v.log2 + 1

def makeBranch (node0 node1 : BinNode) : Except PyError BinNode :=
  if node0.isEnd && node1.isEnd then .ok node0
  else if node0.isEnd then
    match node1 with
    | .Match arg1 arg2 _ =>
      if arg1 ≤ 0xff then newMatch (arg1 + 1 <<< bitLength arg1) arg2 else newMatch 3 node1
    | _ => newMatch 3 node1
  else if node1.isEnd then
    match node0 with
    | .Match arg1 arg2 _ =>
      if arg1 ≤ 0xff then newMatch (arg1 + 1 <<< (bitLength arg1 - 1)) arg2 else newMatch 2 node0
    | _ => newMatch 2 node0
  else newJump node0 node1

def makeDefault (val : ℕ) (sub : BinNode) : Except PyError BinNode := do
  check (val > 0)
  match sub with
  | .End _ => newReturn val
  | .Return .. => return sub
  | .Default .. => return sub
  | _ => newDefault val sub

/-! ### The encoder -/

/-- The order of `sorted(union, key=lambda x: (x is None, x))`. -/
def ctxLe : Ctx → Ctx → Prop
  | _, none => True
  | none, some _ => False
  | some a, some b => a ≤ b

instance : DecidableRel ctxLe
  | none, none => isTrue trivial
  | some _, none => isTrue trivial
  | none, some _ => isFalse id
  | some a, some b => Nat.decLe a b

def sortedUnion (left right : Programs) : List Ctx :=
  (left.keys ++ right.keys).dedup.insertionSort ctxLe

/-- One `candidate` call with two programs for `make_branch`. -/
def candidate (ret : Programs) (c : Ctx × BinNode × BinNode) : Except PyError Programs :=
  offerM (fun cand old => cand.size < old.size) (fun args => makeBranch args.1 args.2) ret c

/-- One `candidate(None, ctx, ret[ctx], make_default)`. -/
def cover (ret : Programs) (ctx : ℕ) : Except PyError Programs :=
  match ret.lookup (some ctx) with
  | none => .error .KeyError
  | some node => do
    let cand ← makeDefault ctx node
    return offer (fun cand old => cand.size < old.size) ret none cand

/-- The `if None in ret` filter. -/
def dropLarger (ret : Programs) : Programs :=
  match ret.lookup none with
  | some best => retain (fun ctx enc => ctx.isNone || enc.size < best.size) ret
  | none => ret

/-- `_to_binnode`'s `recurse`. -/
def toTable (fill : Bool) : TrieNode → Except PyError (Programs × Bool)
  | .Leaf 0 => .ok (AList.singleton (if fill then none else some 0) makeEnd, true)
  | .Leaf (v + 1) => do
    let leaf ← makeLeaf (v + 1)
    return ((AList.singleton none leaf).insert (some (v + 1)) makeEnd, false)
  | .Branch node0 node1 => do
    let (left, lhole) ← toTable fill node0
    let (right, rhole) ← toTable fill node1
    let hole := (lhole || rhole) && !fill
    let ret ← (ContextTable.candidates (sortedUnion left right) left right).foldlM candidate ∅
    let ret ← if hole then .ok ret
      else ((ret.keys.filterMap id).insertionSort (· ≤ ·)).foldlM cover ret
    let ret := dropLarger ret
    return (if hole then retain (fun ctx _ => ctx.isNone || ctx == some 0) ret else ret, hole)

/-- `_to_binnode`. -/
def toBinnode (fill : Bool) (trie : TrieNode) : Except PyError BinNode := do
  let (res, _) ← toTable fill trie
  match res.lookup (some 0) with
  | some node => return node
  | none =>
    match res.lookup none with
    | some node => return node
    | none => .error .KeyError

/-- `to_binary`'s `recurse`: the bits it appends. -/
def encodeNode : BinNode → Except PyError (List Bool)
  | .Return asn _ => do
    let ins ← encode coderIns Instruction.Return.toNat
    let arg ← encode coderAsn asn
    return ins ++ arg
  | .Jump node0 node1 _ => do
    let ins ← encode coderIns Instruction.Jump.toNat
    let arg ← encode coderJump node0.size
    let left ← encodeNode node0
    let right ← encodeNode node1
    return ins ++ arg ++ left ++ right
  | .Default asn node _ => do
    let ins ← encode coderIns Instruction.Default.toNat
    let arg ← encode coderAsn asn
    let rest ← encodeNode node
    return ins ++ arg ++ rest
  | .Match val node _ => do
    let ins ← encode coderIns Instruction.Match.toNat
    let arg ← encode coderMatch val
    let rest ← encodeNode node
    return ins ++ arg ++ rest
  | .End _ => do
    let _ ← encode coderIns Instruction.End.toNat
    .error .AssertionError

/-- The packing loop of `to_binary`. -/
def pack : List Bool → ℕ → ℕ → List ℕ
  | [], val, nbits => if nbits ≠ 0 then [val] else []
  | bit :: bits, val, nbits =>
    let val := val + bit.toNat <<< nbits
    if nbits + 1 = 8 then val :: pack bits 0 0 else pack bits val (nbits + 1)

/-- `bytes(ret)`. -/
def toBytes (ret : List ℕ) : Except PyError (List UInt8) :=
  if ret.all (· < 256) then .ok (ret.map Nat.toUInt8) else .error .ValueError

/-- `ASMap.to_binary`. -/
def toBinary (fill : Bool) (trie : TrieNode) : Except PyError (List UInt8) := do
  let binnode ← toBinnode fill trie
  let bits ← if binnode.isEnd then pure [] else encodeNode binnode
  toBytes (pack bits 0 0)

/-! ### The decoder -/

/-- `from_binary`'s `recurse`. -/
def parse (bits : List Bool) : ℕ → ℕ → Except PyError (BinNode × ℕ)
  | 0, _ => .error .outOfFuel
  | fuel + 1, bitpos => do
    let (insval, bitpos) ← decode coderIns bits bitpos
    match Instruction.tryFrom insval with
    | none => .error .ValueError
    | some .Return => do
      let (asn, bitpos) ← decode coderAsn bits bitpos
      let node ← newReturn asn
      return (node, bitpos)
    | some .Jump => do
      let (jump, bitpos) ← decode coderJump bits bitpos
      let (left, bitpos1) ← parse bits fuel bitpos
      if bitpos1 ≠ bitpos + jump then .error .ValueError
      else
        let (right, bitpos) ← parse bits fuel bitpos1
        let node ← newJump left right
        return (node, bitpos)
    | some .Match => do
      let (val, bitpos) ← decode coderMatch bits bitpos
      let (sub, bitpos) ← parse bits fuel bitpos
      let node ← newMatch val sub
      return (node, bitpos)
    | some ins => do
      check (ins == .Default)
      let (asn, bitpos) ← decode coderAsn bits bitpos
      let (sub, bitpos) ← parse bits fuel bitpos
      let node ← newDefault asn sub
      return (node, bitpos)

/-- The `while val >= 2` loop of `_from_binnode`; the operand is fuel enough. -/
def matchLoop (default : ℕ) : ℕ → ℕ → TrieNode → TrieNode
  | 0, _, sub => sub
  | fuel + 1, val, sub =>
    if val ≥ 2 then
      matchLoop default fuel (val >>> 1)
        (if val &&& 1 ≠ 0 then .Branch (.Leaf default) sub else .Branch sub (.Leaf default))
    else sub

/-- `_from_binnode`'s `recurse`. -/
def rawTrie : BinNode → ℕ → Except PyError TrieNode
  | .Return asn _, _ => .ok (.Leaf asn)
  | .Jump node0 node1 _, default => do
    let left ← rawTrie node0 default
    let right ← rawTrie node1 default
    return .Branch left right
  | .Match val node _, default => do
    let sub ← rawTrie node default
    return matchLoop default val val sub
  | .Default asn node _, _ => rawTrie node asn
  | .End _, _ => .error .AssertionError

/-- `_set_trie`: equal leaves are merged, from below. -/
def setTrie : TrieNode → TrieNode
  | .Leaf v => .Leaf v
  | .Branch node0 node1 =>
    match setTrie node0 with
    | .Leaf asn => if TrieNode.Leaf asn = setTrie node1 then .Leaf asn else .Branch (.Leaf asn)
      (setTrie node1)
    | node => .Branch node (setTrie node1)

/-- `_from_binnode`; a new map is unassigned. -/
def fromBinnode (binnode : BinNode) : Except PyError TrieNode :=
  if binnode.isEnd then .ok (.Leaf 0) else (rawTrie binnode 0).map setTrie

/-- `from_binary` on the bits of the input; `None` for what it rejects. -/
def fromBits (bits : List Bool) : Except PyError (Option TrieNode) :=
  if bits.length = 0 then (fromBinnode makeEnd).map some
  else
    match parse bits (bits.length + 1) 0 with
    | .error .ValueError => .ok none
    | .error .IndexError => .ok none
    | .error e => .error e
    | .ok (binnode, bitpos) =>
      if (bitpos : ℤ) < bits.length - 7 then .ok none
      else if !(bits.drop bitpos).all (· == false) then .ok none
      else (fromBinnode binnode).map some

/-- `ASMap.from_binary`. -/
def fromBinary (bindata : List UInt8) : Except PyError (Option TrieNode) :=
  fromBits (bindata.flatMap fun byte => (List.range 8).map fun i => (byte.toNat >>> i) &&& 1 == 1)

end Reference

end AsmapQuorum

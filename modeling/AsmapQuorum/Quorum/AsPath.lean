import AsmapQuorum.Lib.Cursor
import AsmapQuorum.Lib.Numeral

/-!
# AS paths in routing table dumps

An entry of a dump carries its path attributes as bytes, of which the collector wants the AS path:
the first segment of the one attribute of type 2, if that is a sequence.

* `AsPathParser.parse` — the parser of the source, with its position and its errors.
* `accepts_parseAsPath`, `accepts_parseAttribute` — what is taken for a segment and for an
  attribute.
* `bails_of_parse` — **the parser ends** on every buffer, with a path or a message.
* `PathAttribute` — an attribute in its encoding; `parse_bytes` — **the parser inverts the
  encoding**.
-/

namespace AsmapQuorum

open Cursor Numeral Reading

/-! ### The parser -/

/-- Why the parser of path attributes stops. -/
inductive MrtError where
  | bail (message : String)
  /-- Not an error of the source: the bounded loop of the model ran out of fuel. -/
  | outOfFuel
  deriving DecidableEq, Repr

/-- `u32::from_be_bytes`, of any number of bytes. -/
def fromBeBytes (bytes : List UInt8) : ℕ := value 256 (bytes.map UInt8.toNat)

/-- The extended-length bit. -/
def IsExtended (flag : UInt8) : Prop := flag >>> 4 &&& 1 = 1

instance : DecidablePred IsExtended :=
  fun flag => inferInstanceAs (Decidable (flag >>> 4 &&& 1 = 1))

namespace AsPathParser

/-- A method of the parser, which reads `buffer` and moves `next`. -/
abbrev Method := Cursor UInt8 MrtError

def endOfBuffer : MrtError := .bail "unexpected end of MRT attribute buffer"

def advance : Method UInt8 := Cursor.next endOfBuffer

def parseU32 : Method ℕ := do
  let a ← advance
  let b ← advance
  let c ← advance
  let d ← advance
  return fromBeBytes [a, b, c, d]

/-- The count of a segment, and so many ASNs. -/
def countedAsns : Method (List ℕ) := do
  let numAsn ← advance
  times numAsn.toNat parseU32

/-- One segment: a set is read and forgotten, a sequence is the path. -/
def parseAsPath : Method (Option (List ℕ)) := do
  let asSetIndicator ← advance
  if asSetIndicator = 1 then
    let _ ← countedAsns
    return none
  else if asSetIndicator = 2 then
    let asPath ← countedAsns
    return some asPath
  else fail (.bail ("unknown AS path type " ++ toString asSetIndicator.toNat))

/-- The length in the header: one byte, or two with the extended-length bit. -/
def attributeLength (flag : UInt8) : Method UInt16 := do
  let length ← advance
  if IsExtended flag then
    let low ← advance
    return length.toUInt16 <<< 8 ||| low.toUInt16
  else return length.toUInt16

/-- The outcome of the segment is returned after what remains of the attribute has been passed
over. -/
def parseAttribute : Method (Option (List ℕ)) := do
  let flag ← advance
  let typeCode ← advance
  let length ← attributeLength flag
  if typeCode = 2 then
    let start ← position
    let asnPath ← attempt parseAsPath
    let next ← position
    skip endOfBuffer (start + length.toNat - next)
    ofExcept asnPath
  else
    skip endOfBuffer length.toNat
    return none

/-- The loop of `parse_attributes`. -/
def attributesLoop : ℕ → List (List ℕ) → Method (List (List ℕ))
  | 0, _ => fail .outOfFuel
  | fuel + 1, paths => do
    if ← more then
      match ← parseAttribute with
      | some path =>
        if path.isEmpty then fail (.bail "MRT attribute had no AS path")
        else attributesLoop fuel (paths ++ [path])
      | none => attributesLoop fuel paths
    else return paths

def parseAttributes (fuel : ℕ) : Method (List ℕ) := do
  let paths ← attributesLoop fuel []
  if paths.length > 1 then fail (.bail "MRT entry contained multiple AS paths")
  else
    match paths.getLast? with
    | some path => return path
    | none => fail (.bail "MRT entry had no AS path")

/-- Every attribute has a header, so there are fewer of them than bytes. -/
def parse (buffer : List UInt8) : Except MrtError (List ℕ) :=
  if buffer.isEmpty then .error (.bail "missing MRT attributes")
  else (parseAttributes (buffer.length + 1) buffer 0).1

end AsPathParser

/-! ### Numbers in bytes -/

/-- `n` in `k` bytes, the most significant first. -/
def beBytes (k n : ℕ) : List UInt8 := (fixed 256 k n).map UInt8.ofNat

@[simp] theorem length_beBytes (k n : ℕ) : (beBytes k n).length = k := by
  rw [beBytes, List.length_map, length_fixed]

theorem lt_of_mem_toNat (bytes : List UInt8) : ∀ d ∈ bytes.map UInt8.toNat, d < 256 := by
  intro d hd
  obtain ⟨b, -, rfl⟩ := List.mem_map.1 hd
  exact b.toNat_lt

theorem fromBeBytes_lt (bytes : List UInt8) : fromBeBytes bytes < 256 ^ bytes.length := by
  have hvalue := value_lt (lt_of_mem_toNat bytes)
  rwa [List.length_map] at hvalue

theorem fromBeBytes_beBytes {k n : ℕ} (h : n < 256 ^ k) : fromBeBytes (beBytes k n) = n := by
  have hbytes : (fixed 256 k n).map (UInt8.toNat ∘ UInt8.ofNat) = fixed 256 k n := by
    refine (List.map_congr_left fun d hd => ?_).trans (List.map_id _)
    exact UInt8.toNat_ofNat_of_lt' (lt_of_mem_fixed (by decide) hd)
  rw [fromBeBytes, beBytes, List.map_map, hbytes, value_fixed, Nat.mod_eq_of_lt h]

theorem beBytes_fromBeBytes (bytes : List UInt8) :
    beBytes bytes.length (fromBeBytes bytes) = bytes := by
  have hfixed := fixed_value (lt_of_mem_toNat bytes)
  rw [List.length_map] at hfixed
  rw [beBytes, fromBeBytes, hfixed, List.map_map]
  refine (List.map_congr_left fun b _ => ?_).trans (List.map_id bytes)
  exact UInt8.ofNat_toNat

theorem toNat_wide (high low : UInt8) :
    (high.toUInt16 <<< 8 ||| low.toUInt16).toNat = fromBeBytes [high, low] := by
  have hhigh := high.toNat_lt
  have hvalue : fromBeBytes [high, low] = high.toNat * 2 ^ 8 + low.toNat := by
    simp [fromBeBytes, value, push]
  have hshift : (high.toUInt16 <<< 8).toNat = high.toNat <<< 8 := by
    rw [UInt16.toNat_shiftLeft, UInt8.toNat_toUInt16, Nat.mod_eq_of_lt]
    · rfl
    · show high.toNat <<< 8 < 2 ^ 16
      rw [Nat.shiftLeft_eq]
      omega
  rw [UInt16.toNat_or, hshift, UInt8.toNat_toUInt16, ← Nat.shiftLeft_add_eq_or_of_lt low.toNat_lt,
    Nat.shiftLeft_eq, hvalue]

theorem toNat_narrow (length : UInt8) : length.toUInt16.toNat = fromBeBytes [length] := by
  simp [fromBeBytes, value, push]

/-! ### Segments and attributes -/

/-- A complete segment: at most 255 ASNs, in an order or as a set. -/
structure AsSegment where
  ordered : Bool
  asns : List ℕ
  length_lt : asns.length < 256
  asn_lt : ∀ asn ∈ asns, asn < 2 ^ 32

namespace AsSegment

def typeByte (seg : AsSegment) : UInt8 := if seg.ordered then 2 else 1

def bytes (seg : AsSegment) : List UInt8 :=
  seg.typeByte :: .ofNat seg.asns.length :: seg.asns.flatMap (beBytes 4)

/-- What the parser returns for it. -/
def path (seg : AsSegment) : Option (List ℕ) := if seg.ordered then some seg.asns else none

end AsSegment

/-- How many bytes hold the length of an attribute. -/
def lengthSize (flag : UInt8) : ℕ := if IsExtended flag then 2 else 1

def headerBytes (flag typeCode : UInt8) (n : ℕ) : List UInt8 :=
  flag :: typeCode :: beBytes (lengthSize flag) n

@[simp] theorem length_headerBytes (flag typeCode : UInt8) (n : ℕ) :
    (headerBytes flag typeCode n).length = 2 + lengthSize flag := by
  rw [headerBytes, List.length_cons, List.length_cons, length_beBytes]
  omega

/-- A header says one thing only. -/
theorem headerBytes_unique {s : List UInt8} {i n n' : ℕ} {flag flag' typeCode typeCode' : UInt8}
    (hn : n < 256 ^ lengthSize flag) (hn' : n' < 256 ^ lengthSize flag')
    (h : OccursAt s i (headerBytes flag typeCode n))
    (h' : OccursAt s i (headerBytes flag' typeCode' n')) :
    flag = flag' ∧ typeCode = typeCode' ∧ n = n' := by
  simp only [headerBytes, occursAt_cons] at h h'
  obtain ⟨hflag, htype, hlen⟩ := h
  obtain ⟨hflag', htype', hlen'⟩ := h'
  obtain rfl := Option.some.inj (hflag.symm.trans hflag')
  obtain rfl := Option.some.inj (htype.symm.trans htype')
  refine ⟨rfl, rfl, ?_⟩
  have hsame : beBytes (lengthSize flag) n = beBytes (lengthSize flag) n' := by
    refine (List.prefix_of_prefix_length_le hlen hlen' ?_).eq_of_length ?_
    · rw [length_beBytes, length_beBytes]
    · rw [length_beBytes, length_beBytes]
  rw [← fromBeBytes_beBytes hn, hsame, fromBeBytes_beBytes hn']

namespace AsPathParser

theorem accepts_advance : Accepts advance fun w b => w = [b] := accepts_next endOfBuffer

theorem accepts_parseU32 : Accepts parseU32 fun w n => n < 2 ^ 32 ∧ w = beBytes 4 n := by
  have hpow : 256 ^ 4 = 2 ^ 32 := by norm_num
  refine (accepts_advance.bind fun a => accepts_advance.bind fun b => accepts_advance.bind fun c =>
    accepts_advance.bind fun d => accepts_pure (fromBeBytes [a, b, c, d])).congr fun w n => ?_
  constructor
  · rintro ⟨_, _, a, rfl, rfl, _, _, b, rfl, rfl, _, _, c, rfl, rfl, _, _, d, rfl, rfl, rfl, rfl⟩
    have hlt : fromBeBytes [a, b, c, d] < 256 ^ 4 := fromBeBytes_lt [a, b, c, d]
    exact ⟨hpow ▸ hlt, (beBytes_fromBeBytes [a, b, c, d]).symm⟩
  · rintro ⟨hn, rfl⟩
    obtain ⟨a, b, c, d, hw⟩ := List.length_eq_four.1 (length_beBytes 4 n)
    have hback : fromBeBytes (beBytes 4 n) = n := fromBeBytes_beBytes (hpow ▸ hn)
    rw [hw] at hback ⊢
    exact ⟨[a], _, a, rfl, rfl, [b], _, b, rfl, rfl, [c], _, c, rfl, rfl, [d], [], d, rfl, rfl, rfl,
      hback.symm⟩

theorem accepts_countedAsns : Accepts countedAsns fun w asns =>
    (asns.length < 256 ∧ ∀ asn ∈ asns, asn < 2 ^ 32) ∧
      w = .ofNat asns.length :: asns.flatMap (beBytes 4) := by
  refine (accepts_advance.bind fun num => accepts_parseU32.times num.toNat).congr fun w asns => ?_
  constructor
  · rintro ⟨_, _, num, rfl, rfl, ⟨hlen, hall⟩, rfl⟩
    refine ⟨⟨hlen ▸ num.toNat_lt, hall⟩, ?_⟩
    rw [hlen, UInt8.ofNat_toNat]
    rfl
  · rintro ⟨⟨hlen, hall⟩, rfl⟩
    exact ⟨_, _, .ofNat asns.length, rfl, rfl, ⟨(UInt8.toNat_ofNat_of_lt' hlen).symm, hall⟩, rfl⟩

/-- **What is taken for a segment** is one. -/
theorem accepts_parseAsPath :
    Accepts parseAsPath fun w r => ∃ seg : AsSegment, w = seg.bytes ∧ r = seg.path := by
  refine (accepts_advance.bind fun b =>
    (accepts_countedAsns.bind fun _ => accepts_pure none).ite
      ((accepts_countedAsns.bind fun asns => accepts_pure (some asns)).ite
        (accepts_fail _))).congr fun w r => ?_
  constructor
  · rintro ⟨_, _, b, rfl, rfl, h⟩
    split at h
    · next hset =>
      obtain ⟨_, _, asns, rfl, ⟨⟨hlen, hall⟩, rfl⟩, rfl, rfl⟩ := h
      refine ⟨⟨false, asns, hlen, hall⟩, ?_, rfl⟩
      rw [hset, List.append_nil]
      rfl
    · split at h
      · next hsequence =>
        obtain ⟨_, _, asns, rfl, ⟨⟨hlen, hall⟩, rfl⟩, rfl, rfl⟩ := h
        refine ⟨⟨true, asns, hlen, hall⟩, ?_, rfl⟩
        rw [hsequence, List.append_nil]
        rfl
      · exact h.elim
  · rintro ⟨⟨ordered, asns, hlen, hall⟩, rfl, rfl⟩
    have hrest := (List.append_nil (UInt8.ofNat asns.length :: asns.flatMap (beBytes 4))).symm
    cases ordered with
    | false => exact ⟨[1], _, 1, rfl, rfl, _, [], asns, hrest, ⟨⟨hlen, hall⟩, rfl⟩, rfl, rfl⟩
    | true => exact ⟨[2], _, 2, rfl, rfl, _, [], asns, hrest, ⟨⟨hlen, hall⟩, rfl⟩, rfl, rfl⟩

theorem accepts_attributeLength (flag : UInt8) : Accepts (attributeLength flag) fun w n =>
    n.toNat < 256 ^ lengthSize flag ∧ w = beBytes (lengthSize flag) n.toNat := by
  refine (accepts_advance.bind fun length =>
    (accepts_advance.bind fun low => accepts_pure (length.toUInt16 <<< 8 ||| low.toUInt16)).ite
      (accepts_pure length.toUInt16)).congr fun w n => ?_
  by_cases hext : IsExtended flag
  · simp only [lengthSize, if_pos hext]
    constructor
    · rintro ⟨_, _, high, rfl, rfl, _, _, low, rfl, rfl, rfl, rfl⟩
      rw [toNat_wide]
      exact ⟨fromBeBytes_lt [high, low], (beBytes_fromBeBytes [high, low]).symm⟩
    · rintro ⟨hn, rfl⟩
      obtain ⟨high, low, hw⟩ := List.length_eq_two.1 (length_beBytes 2 n.toNat)
      have hback := fromBeBytes_beBytes hn
      rw [hw] at hback ⊢
      refine ⟨[high], _, high, rfl, rfl, [low], [], low, rfl, rfl, rfl, ?_⟩
      rw [← UInt16.toNat_inj, toNat_wide, hback]
  · simp only [lengthSize, if_neg hext]
    constructor
    · rintro ⟨_, _, length, rfl, rfl, rfl, rfl⟩
      rw [toNat_narrow]
      exact ⟨fromBeBytes_lt [length], (beBytes_fromBeBytes [length]).symm⟩
    · rintro ⟨hn, rfl⟩
      obtain ⟨length, hw⟩ := List.length_eq_one_iff.1 (length_beBytes 1 n.toNat)
      have hback := fromBeBytes_beBytes hn
      rw [hw] at hback ⊢
      refine ⟨[length], [], length, rfl, rfl, rfl, ?_⟩
      rw [← UInt16.toNat_inj, toNat_narrow, hback]

theorem toNat_ofNat_length {flag : UInt8} {n : ℕ} (hn : n < 256 ^ lengthSize flag) :
    (UInt16.ofNat n).toNat = n := by
  have hsize : 256 ^ lengthSize flag ≤ 2 ^ 16 := by
    unfold lengthSize
    split
    · exact (by decide : 256 ^ 2 ≤ 2 ^ 16)
    · exact (by decide : 256 ^ 1 ≤ 2 ^ 16)
  exact UInt16.toNat_ofNat_of_lt' (hn.trans_le hsize)

/-- The bytes of an attribute as they are read, with what comes of it.  What follows the segment of
an AS path is as long as the declared length has it, and empty where the segment is longer. -/
inductive Reads : List UInt8 → Option (List ℕ) → Prop
  | other {flag typeCode : UInt8} {n : ℕ} {value : List UInt8} (hn : n < 256 ^ lengthSize flag)
      (htype : typeCode ≠ 2) (hlen : value.length = n) :
      Reads (headerBytes flag typeCode n ++ value) none
  | asPath {flag : UInt8} {n : ℕ} (seg : AsSegment) {further : List UInt8}
      (hn : n < 256 ^ lengthSize flag)
      (hlen : further.length = n - seg.bytes.length) :
      Reads (headerBytes flag 2 n ++ (seg.bytes ++ further)) seg.path

theorem accepts_asPathValue (length : UInt16) :
    Accepts (do
      let start ← position
      let asnPath ← attempt parseAsPath
      let next ← position
      skip endOfBuffer (start + length.toNat - next)
      ofExcept asnPath) fun w r => ∃ (seg : AsSegment) (further : List UInt8),
        w = seg.bytes ++ further ∧
        further.length = length.toNat - seg.bytes.length ∧ r = seg.path := by
  intro s i r j
  simp only [bind_ok_iff, position_ok_iff, attempt_ok_iff, ofExcept_ok_iff]
  constructor
  · rintro ⟨start, k, ⟨hstart, hk⟩, asnPath, m, hpath, next, l, ⟨hnext, hl⟩, _, _, hskip, rfl, rfl⟩
    subst start k next l
    obtain ⟨_, ⟨seg, rfl, rfl⟩, hocc, rfl⟩ := (accepts_parseAsPath s i r _).1 hpath
    obtain ⟨further, hlen, hocc', rfl⟩ := (accepts_skip _ _ s _ _ _).1 hskip
    refine ⟨seg.bytes ++ further, ⟨seg, further, rfl, by omega, rfl⟩, ?_, ?_⟩
    · exact (occursAt_append s i _ _).2 ⟨hocc, hocc'⟩
    · rw [List.length_append, Nat.add_assoc]
  · rintro ⟨_, ⟨seg, further, rfl, hlen, rfl⟩, hocc, rfl⟩
    obtain ⟨hocc, hocc'⟩ := (occursAt_append s i _ _).1 hocc
    refine ⟨i, i, ⟨rfl, rfl⟩, .ok seg.path, i + seg.bytes.length, ?_, _, _, ⟨rfl, rfl⟩, (), _, ?_,
      rfl, rfl⟩
    · exact (accepts_parseAsPath s i _ _).2 ⟨_, ⟨seg, rfl, rfl⟩, hocc, rfl⟩
    · refine (accepts_skip _ _ s _ _ _).2 ⟨further, by omega, hocc', ?_⟩
      rw [List.length_append, Nat.add_assoc]

/-- **What is taken for an attribute.** -/
theorem accepts_parseAttribute : Accepts parseAttribute Reads := by
  refine (accepts_advance.bind fun flag => accepts_advance.bind fun typeCode =>
    (accepts_attributeLength flag).bind fun length => (accepts_asPathValue length).ite
      ((accepts_skip endOfBuffer length.toNat).bind fun _ => accepts_pure none)).congr fun w r => ?_
  constructor
  · rintro ⟨_, _, flag, rfl, rfl, _, _, typeCode, rfl, rfl, _, v, length, rfl, ⟨hn, rfl⟩, h⟩
    split at h
    · next htype =>
      obtain ⟨seg, further, rfl, hlen, rfl⟩ := h
      rw [htype]
      exact .asPath seg hn hlen
    · next htype =>
      obtain ⟨value, _, -, rfl, hlen, rfl, rfl⟩ := h
      rw [List.append_nil]
      exact .other hn htype hlen
  · intro h
    cases h with
    | @other flag typeCode n value hn htype hlen =>
      have hnum := toNat_ofNat_length hn
      refine ⟨[flag], _, flag, rfl, rfl, [typeCode], _, typeCode, rfl, rfl, _, value, .ofNat n, rfl,
        ?_, ?_⟩
      · rw [hnum]
        exact ⟨hn, rfl⟩
      · rw [if_neg htype, hnum]
        exact ⟨value, [], (), (List.append_nil _).symm, hlen, rfl, rfl⟩
    | @asPath flag n seg further hn hlen =>
      have hnum := toNat_ofNat_length hn
      refine ⟨[flag], _, flag, rfl, rfl, [2], _, 2, rfl, rfl, _, seg.bytes ++ further, .ofNat n,
        rfl, ?_, ?_⟩
      · rw [hnum]
        exact ⟨hn, rfl⟩
      · rw [if_pos rfl, hnum]
        exact ⟨seg, further, rfl, hlen, rfl⟩

/-! ### How it fails -/

/-- The parser stops with a message. -/
def Bails (e : MrtError) : Prop := ∃ message, e = .bail message

theorem bails_endOfBuffer : Bails endOfBuffer := ⟨_, rfl⟩

theorem failsWith_parseAsPath : FailsWith parseAsPath Bails := by
  have hadvance : FailsWith advance Bails := failsWith_next bails_endOfBuffer
  have hcounted : FailsWith countedAsns Bails := by
    refine hadvance.bind fun num => FailsWith.times ?_ num.toNat
    exact hadvance.bind fun a => hadvance.bind fun b => hadvance.bind fun c =>
      hadvance.bind fun d =>
      failsWith_pure _
  exact hadvance.bind fun b => (hcounted.bind fun _ => failsWith_pure _).ite
    ((hcounted.bind fun _ => failsWith_pure _).ite (failsWith_fail ⟨_, rfl⟩))

theorem failsWith_parseAttribute : FailsWith parseAttribute Bails := by
  have hadvance : FailsWith advance Bails := failsWith_next bails_endOfBuffer
  have hlength : ∀ flag, FailsWith (attributeLength flag) Bails := fun flag =>
    hadvance.bind fun length => (hadvance.bind fun low => failsWith_pure _).ite (failsWith_pure _)
  refine hadvance.bind fun flag => hadvance.bind fun typeCode => (hlength flag).bind fun length =>
    FailsWith.ite ?_ ((failsWith_skip bails_endOfBuffer _).bind fun _ => failsWith_pure _)
  refine failsWith_position.bind fun start => ?_
  -- the outcome that is returned in the end is that of the segment
  intro s i e j h
  rcases bind_error_iff.1 h with h | ⟨asnPath, k, hpath, h⟩
  · cases h
  · rcases bind_error_iff.1 h with h | ⟨next, l, -, h⟩
    · cases h
    · rcases bind_error_iff.1 h with h | ⟨_, m, -, h⟩
      · exact failsWith_skip bails_endOfBuffer _ s l e j h
      · obtain ⟨rfl, -⟩ := Prod.mk.inj h
        exact failsWith_parseAsPath s i e k (attempt_ok_iff.1 hpath)

/-- An attribute is read forward. -/
theorem lt_of_parseAttribute {s : List UInt8} {i j : ℕ} {r : Option (List ℕ)}
    (h : parseAttribute s i = (.ok r, j)) : i < j ∧ j ≤ s.length := by
  obtain ⟨w, hreads, hocc, rfl⟩ := (accepts_parseAttribute s i r j).1 h
  have hpos : 0 < w.length := by
    cases hreads with
    | other hn htype hlen => exact Nat.succ_pos _
    | asPath seg hn hlen => exact Nat.succ_pos _
  have hle : w.length ≤ (s.drop i).length := hocc.length_le
  rw [List.length_drop] at hle
  omega

/-- **The loop ends**: with more fuel than bytes it stops with a result or a message. -/
theorem bails_of_attributesLoop {s : List UInt8} {fuel i j : ℕ} {paths : List (List ℕ)}
    {e : MrtError} (hi : i ≤ s.length) (hfuel : s.length < i + fuel)
    (h : attributesLoop fuel paths s i = (.error e, j)) :
    Bails e := by
  induction fuel generalizing i paths with
  | zero => omega
  | succ fuel ih =>
    rcases bind_error_iff.1 h with h | ⟨b, k, hmore, h⟩
    · cases h
    · obtain ⟨-, hk⟩ := more_ok_iff.1 hmore
      subst k
      cases b with
      | false => cases h
      | true =>
        rcases bind_error_iff.1 h with h | ⟨r, k, hparse, h⟩
        · exact failsWith_parseAttribute s i e j h
        · obtain ⟨hlt, hle⟩ := lt_of_parseAttribute hparse
          cases r with
          | none => exact ih hle (by omega) h
          | some path =>
            dsimp only at h
            split at h
            · cases h
              exact ⟨_, rfl⟩
            · exact ih hle (by omega) h

/-- **The parser ends** on every buffer, with a path or a message. -/
theorem bails_of_parse {buffer : List UInt8} {e : MrtError} (h : parse buffer = .error e) :
    Bails e := by
  rw [parse] at h
  split at h
  · cases h
    exact ⟨_, rfl⟩
  · have hrun : parseAttributes (buffer.length + 1) buffer 0 =
        (.error e, (parseAttributes (buffer.length + 1) buffer 0).2) := Prod.ext h rfl
    rcases bind_error_iff.1 hrun with hloop | ⟨paths, k, -, hlast⟩
    · exact bails_of_attributesLoop (Nat.zero_le _) (by omega) hloop
    · split at hlast
      · cases hlast
        exact ⟨_, rfl⟩
      · cases hget : paths.getLast? with
        | some path =>
          rw [hget] at hlast
          cases hlast
        | none =>
          rw [hget] at hlast
          cases hlast
          exact ⟨_, rfl⟩

end AsPathParser

/-! ### Encoded attributes -/

/-- The type of an attribute and its value: of type 2 the value begins with a complete segment,
which is a set or a sequence that is not empty. -/
inductive AttributeBody where
  | other (typeCode : UInt8) (htype : typeCode ≠ 2) (value : List UInt8)
  | asPath (seg : AsSegment) (hne : seg.ordered = true → seg.asns ≠ []) (further : List UInt8)

namespace AttributeBody

def typeCode : AttributeBody → UInt8
  | other typeCode _ _ => typeCode
  | asPath _ _ _ => 2

def value : AttributeBody → List UInt8
  | other _ _ value => value
  | asPath seg _ further => seg.bytes ++ further

/-- The ASNs of the sequence that the value begins with. -/
def path : AttributeBody → Option (List ℕ)
  | other _ _ _ => none
  | asPath seg _ _ => seg.path

end AttributeBody

/-- An attribute whose length fits in its header. -/
structure PathAttribute where
  flag : UInt8
  body : AttributeBody
  length_lt : body.value.length < 256 ^ lengthSize flag

namespace PathAttribute

def bytes (a : PathAttribute) : List UInt8 :=
  headerBytes a.flag a.body.typeCode a.body.value.length ++ a.body.value

def path (a : PathAttribute) : Option (List ℕ) := a.body.path

theorem bytes_ne_nil (a : PathAttribute) : a.bytes ≠ [] := List.cons_ne_nil _ _

theorem path_ne (a : PathAttribute) : a.path ≠ some [] := by
  obtain ⟨flag, body, hlt⟩ := a
  cases body with
  | other typeCode htype value => exact Option.some_ne_none _ |>.symm
  | asPath seg hne further =>
    show (if seg.ordered then some seg.asns else none) ≠ some []
    split
    · next hordered => exact fun h => hne hordered (Option.some.inj h)
    · exact fun h => by cases h

theorem reads (a : PathAttribute) : AsPathParser.Reads a.bytes a.path := by
  obtain ⟨flag, body, hlt⟩ := a
  cases body with
  | other typeCode htype value => exact .other hlt htype rfl
  | asPath seg hne further =>
    refine .asPath seg hlt ?_
    show further.length = (seg.bytes ++ further).length - seg.bytes.length
    rw [List.length_append]
    omega

end PathAttribute

namespace AsPathParser

/-- **One attribute** is read where it stands. -/
theorem parseAttribute_bytes {s : List UInt8} {i : ℕ} (a : PathAttribute)
    (h : OccursAt s i a.bytes) :
    parseAttribute s i = (.ok a.path, i + a.bytes.length) :=
  (accepts_parseAttribute s i _ _).2 ⟨a.bytes, a.reads, h, rfl⟩

/-- **The loop reads attributes** to the end of the buffer. -/
theorem attributesLoop_bytes {s : List UInt8} (attrs : List PathAttribute) :
    ∀ (fuel : ℕ) (paths : List (List ℕ)) (i : ℕ), attrs.length < fuel →
      OccursAt s i (attrs.flatMap PathAttribute.bytes) →
      i + (attrs.flatMap PathAttribute.bytes).length = s.length →
      attributesLoop fuel paths s i = (.ok (paths ++ attrs.filterMap PathAttribute.path),
        s.length) := by
  induction attrs with
  | nil =>
    intro fuel paths i hfuel _ hi
    obtain ⟨fuel, rfl⟩ := Nat.exists_eq_add_of_lt hfuel
    have hend : decide (i < s.length) = false := decide_eq_false (Nat.not_lt_of_le hi.ge)
    rw [attributesLoop, bind_of_eq (more_ok_iff.2 ⟨hend.symm, rfl⟩), List.filterMap_nil,
      List.append_nil, ← hi]
    rfl
  | cons a attrs ih =>
    intro fuel paths i hfuel hocc hi
    obtain ⟨fuel, rfl⟩ := Nat.exists_eq_add_of_lt hfuel
    rw [List.flatMap_cons, occursAt_append] at hocc
    rw [List.flatMap_cons, List.length_append, ← Nat.add_assoc] at hi
    have hpos := List.length_pos_iff.2 a.bytes_ne_nil
    have hmore : decide (i < s.length) = true := decide_eq_true (by omega)
    have hrest : attrs.length < attrs.length + 1 + fuel := by omega
    rw [attributesLoop, bind_of_eq (more_ok_iff.2 ⟨hmore.symm, rfl⟩), if_pos rfl,
      bind_of_eq (parseAttribute_bytes a hocc.1)]
    cases hpath : a.path with
    | none =>
      rw [List.filterMap_cons_none hpath]
      exact ih _ paths _ (by rw [List.length_cons]; omega) hocc.2 hi
    | some path =>
      have hne : path.isEmpty = false := by
        rw [← Bool.not_eq_true, List.isEmpty_iff]
        rintro rfl
        exact a.path_ne hpath
      rw [List.filterMap_cons_some hpath, List.append_cons]
      simp only [hne, Bool.false_eq_true, if_false]
      exact ih _ (paths ++ [path]) _ (by rw [List.length_cons]; omega) hocc.2 hi

theorem length_le_flatMap_bytes (attrs : List PathAttribute) :
    attrs.length ≤ (attrs.flatMap PathAttribute.bytes).length := by
  induction attrs with
  | nil => exact Nat.zero_le _
  | cons a attrs ih =>
    have hpos := List.length_pos_iff.2 a.bytes_ne_nil
    rw [List.flatMap_cons, List.length_append, List.length_cons]
    omega

/-- The outcome for attributes one behind the other, by the sequences that AS paths start with. -/
theorem parse_flatMap_bytes {attrs : List PathAttribute} (hne : attrs ≠ []) :
    parse (attrs.flatMap PathAttribute.bytes) =
      match attrs.filterMap PathAttribute.path with
      | [] => .error (.bail "MRT entry had no AS path")
      | [asns] => .ok asns
      | _ :: _ :: _ => .error (.bail "MRT entry contained multiple AS paths") := by
  obtain ⟨a, rest, rfl⟩ := List.exists_cons_of_ne_nil hne
  have hbuffer : ((a :: rest).flatMap PathAttribute.bytes).isEmpty = false := rfl
  have hfuel := Nat.lt_add_one_of_le (length_le_flatMap_bytes (a :: rest))
  have hloop := attributesLoop_bytes (s := (a :: rest).flatMap PathAttribute.bytes)
    (a :: rest) _ [] 0
    hfuel List.prefix_rfl (Nat.zero_add _)
  rw [parse, hbuffer, if_neg Bool.false_ne_true, parseAttributes, bind_of_eq hloop, List.nil_append]
  cases (a :: rest).filterMap PathAttribute.path with
  | nil => rfl
  | cons asns paths =>
    cases paths with
    | nil => rfl
    | cons asns' paths =>
      have hlen : (asns :: asns' :: paths).length > 1 := by
        rw [List.length_cons, List.length_cons]
        omega
      rw [if_pos hlen]
      rfl

/-- **The parser inverts the encoding.**  Of attributes one behind the other it returns the ASNs of
the one sequence that starts an AS path; with no such sequence, or more than one, it fails. -/
theorem parse_bytes (attrs : List PathAttribute) :
    (∀ asns, attrs.filterMap PathAttribute.path = [asns] →
      parse (attrs.flatMap PathAttribute.bytes) = .ok asns) ∧
    ((¬∃ asns, attrs.filterMap PathAttribute.path = [asns]) →
      ∃ message, parse (attrs.flatMap PathAttribute.bytes) = .error (.bail message)) := by
  by_cases hne : attrs = []
  · subst hne
    constructor
    · intro asns h
      cases h
    · exact fun _ => ⟨_, rfl⟩
  · rw [parse_flatMap_bytes hne]
    constructor
    · intro asns h
      rw [h]
    · intro h
      cases hpaths : attrs.filterMap PathAttribute.path with
      | nil => exact ⟨_, rfl⟩
      | cons asns rest =>
        cases rest with
        | nil => exact absurd ⟨asns, hpaths⟩ h
        | cons asns' rest => exact ⟨_, rfl⟩

end AsPathParser

end AsmapQuorum

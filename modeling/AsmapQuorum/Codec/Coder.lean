import AsmapQuorum.Lib.Reading
import Mathlib.Algebra.BigOperators.Group.List.Basic

/-!
# The variable-length integer coder

`VarLenCoder` of `coder.rs`: a value is written as one `1` bit per class it lies past, a `0` bit
unless it is in the last class, and its position inside its class, most significant bit first.  The
three loops of the source (`encode`, `encode_size`, `decode`) run over the class widths and are
recursions on the list of widths that remain, with the source's test `k + 1 < len` as "this is not
the last one".

* `VarLenCoder.encode_spec` — a value in range is encoded without a panic, `encode_size` is the
  length of the encoding, and `decode` reads it back from any position of any stream it stands at.
* `VarLenCoder.decode_spec` — whatever `decode` returns is in range, and the bits it consumed are
  the encoding of that value.
-/

namespace AsmapQuorum

open Reading

/-- The ways the code can abort instead of returning. -/
inductive Panic where
  /-- An unsigned subtraction below zero (`val - self.minval`, `127 - i`). -/
  | subtractOverflow
  /-- A failed `assert!`. -/
  | assertionFailed
  /-- `unwrap` of a `None`. -/
  | unwrapNone
  /-- Not a behaviour of the source: a bounded recursion of the model ran out of fuel. -/
  | outOfFuel
  deriving DecidableEq, Repr

theorem bind_ok {ε α β : Type} {x : Except ε α} {a : α} (h : x = .ok a) (f : α → Except ε β) :
    x >>= f = f a := by
  rw [h]
  rfl

theorem bind_eq_ok {ε α β : Type} {x : Except ε α} {f : α → Except ε β} {b : β} :
    x >>= f = .ok b ↔ ∃ a, x = .ok a ∧ f a = .ok b := by
  cases x with
  | error e => simp [bind, Except.bind]
  | ok a => simp [bind, Except.bind]

theorem mapM_eq_map {α β ε : Type*} {f : α → Except ε β} {g : α → β} {L : List α}
    (h : ∀ a ∈ L, f a = .ok (g a)) : L.mapM f = .ok (L.map g) := by
  induction L with
  | nil => rfl
  | cons a L ih =>
    rw [List.mapM_cons, h a (by simp), ih fun b hb => h b (by simp [hb])]
    rfl

/-- What came of each element. -/
theorem mapM_eq_ok {α β ε : Type} {f : α → Except ε β} {L : List α} {M : List β} :
    L.mapM f = .ok M ↔ List.Forall₂ (fun a b => f a = .ok b) L M := by
  induction L generalizing M with
  | nil =>
    rw [List.forall₂_nil_left_iff]
    exact ⟨fun h => (Except.ok.inj h).symm, fun h => h ▸ rfl⟩
  | cons a L ih =>
    rw [List.mapM_cons, bind_eq_ok, List.forall₂_cons_left_iff]
    constructor
    · rintro ⟨b, hb, h⟩
      obtain ⟨N, hN, h⟩ := bind_eq_ok.1 h
      obtain rfl := Except.ok.inj h
      exact ⟨b, N, hb, ih.1 hN, rfl⟩
    · rintro ⟨b, N, hb, hN, rfl⟩
      exact ⟨b, hb, bind_eq_ok.2 ⟨N, ih.2 hN, rfl⟩⟩

theorem exists_of_mem_mapM {α β ε : Type} {f : α → Except ε β} {L : List α} {M : List β}
    (h : L.mapM f = .ok M) {b : β} (hb : b ∈ M) : ∃ a ∈ L, f a = .ok b := by
  induction mapM_eq_ok.1 h with
  | nil => cases hb
  | @cons a b' L M ha hrest ih =>
    rcases List.mem_cons.1 hb with rfl | hb
    · exact ⟨a, List.mem_cons_self .., ha⟩
    · obtain ⟨a', ha', hf⟩ := ih (mapM_eq_ok.2 hrest) hb
      exact ⟨a', List.mem_cons_of_mem _ ha', hf⟩

structure VarLenCoder where
  minval : ℕ
  clsbits : List ℕ
  maxval : ℕ
  deriving DecidableEq, Repr

namespace VarLenCoder

/-- How many values the classes hold together. -/
def span (clsbits : List ℕ) : ℕ := (clsbits.map fun bits => 1 <<< bits).sum

def new (minval : ℕ) (clsbits : List ℕ) : VarLenCoder :=
  ⟨minval, clsbits, minval + span clsbits - 1⟩

def canEncode (c : VarLenCoder) (val : ℕ) : Bool := c.minval ≤ val && val ≤ c.maxval

/-- The loop of `encode_size` over the remaining class widths. -/
def sizeLoop : List ℕ → ℕ → ℕ
  | [], _ => 0
  | [bits], val => if val >>> bits ≠ 0 then 1 + bits else bits
  | bits :: next :: rest, val =>
    if val >>> bits ≠ 0 then 1 + sizeLoop (next :: rest) (val - 1 <<< bits) else 1 + bits

def encodeSize (c : VarLenCoder) (val : ℕ) : Except Panic ℕ :=
  if val < c.minval then .error .subtractOverflow else .ok (sizeLoop c.clsbits (val - c.minval))

/-- The loops of `encode` over the remaining class widths: the class markers, then the position. -/
def encodeLoop : List ℕ → ℕ → List Bool
  | [], _ => []
  | [bits], val =>
    if val >>> bits ≠ 0 then true :: bigEndian bits (val - 1 <<< bits) else bigEndian bits val
  | bits :: next :: rest, val =>
    if val >>> bits ≠ 0 then true :: encodeLoop (next :: rest) (val - 1 <<< bits)
    else false :: bigEndian bits val

/-- The bits `encode` appends. -/
def encode (c : VarLenCoder) (val : ℕ) : Except Panic (List Bool) :=
  if c.canEncode val then .ok (encodeLoop c.clsbits (val - c.minval)) else .error .assertionFailed

/-- The loops of `decode` over the remaining class widths. -/
def decodeLoop (stream : List Bool) : List ℕ → ℕ → ℕ → Option (ℕ × ℕ)
  | [], bitpos, val => some (val, bitpos)
  | [bits], bitpos, val => readBits stream bits bitpos val
  | bits :: next :: rest, bitpos, val =>
    match stream[bitpos]? with
    | none => none
    | some true => decodeLoop stream (next :: rest) (bitpos + 1) (val + 1 <<< bits)
    | some false => readBits stream bits (bitpos + 1) val

def decode (c : VarLenCoder) (stream : List Bool) (bitpos : ℕ) : Option (ℕ × ℕ) :=
  decodeLoop stream c.clsbits bitpos c.minval

/-! ### The loops -/

@[simp] theorem span_nil : span [] = 0 := rfl

@[simp] theorem span_cons (bits : ℕ) (rest : List ℕ) :
    span (bits :: rest) = 2 ^ bits + span rest := by
  simp [span, Nat.shiftLeft_eq]

theorem shiftRight_ne_zero (val bits : ℕ) : val >>> bits ≠ 0 ↔ 2 ^ bits ≤ val := by
  rw [Nat.shiftRight_eq_div_pow, Nat.ne_zero_iff_zero_lt, Nat.div_pos_iff]
  exact ⟨fun h => h.2, fun h => ⟨Nat.two_pow_pos bits, h⟩⟩

theorem one_shiftLeft (bits : ℕ) : 1 <<< bits = 2 ^ bits := by
  rw [Nat.shiftLeft_eq, Nat.one_mul]

/-- The size loop counts the bits the encoding loop emits. -/
theorem length_encodeLoop (cls : List ℕ) (val : ℕ) :
    (encodeLoop cls val).length = sizeLoop cls val := by
  induction cls, val using sizeLoop.induct with
  | case1 => rfl
  | case2 bits val h => simp [encodeLoop, sizeLoop, h, Nat.add_comm]
  | case3 bits val h => simp [encodeLoop, sizeLoop, h]
  | case4 bits next rest val h ih => simp [encodeLoop, sizeLoop, h, ih, Nat.add_comm]
  | case5 bits next rest val h => simp [encodeLoop, sizeLoop, h, Nat.add_comm]

/-- The size is at least any lower bound on the class widths. -/
theorem le_sizeLoop {k : ℕ} (cls : List ℕ) (val : ℕ) (hne : cls ≠ [])
    (hk : ∀ bits ∈ cls, k ≤ bits) : k ≤ sizeLoop cls val := by
  induction cls, val using sizeLoop.induct with
  | case1 => exact absurd rfl hne
  | case2 bits val h =>
    have := hk bits (by simp)
    simp only [sizeLoop, if_pos h]
    omega
  | case3 bits val h =>
    have := hk bits (by simp)
    simp only [sizeLoop, if_neg h]
    omega
  | case4 bits next rest val h ih =>
    have := ih (by simp) fun b hb => hk b (by simp [hb])
    simp only [sizeLoop, if_pos h]
    omega
  | case5 bits next rest val h =>
    have := hk bits (by simp)
    simp only [sizeLoop, if_neg h]
    omega

/-- **Decoding what was encoded**, class by class. -/
theorem decodeLoop_encodeLoop {s : List Bool} (cls : List ℕ) (val : ℕ) (hval : val < span cls) :
    ∀ {i base : ℕ}, OccursAt s i (encodeLoop cls val) →
      decodeLoop s cls i base = some (base + val, i + sizeLoop cls val) := by
  induction cls, val using sizeLoop.induct with
  | case1 => simp at hval
  | case2 bits val h =>
    rw [shiftRight_ne_zero] at h
    simp at hval
    omega
  | case3 bits val h =>
    intro i base hocc
    rw [encodeLoop, if_neg h] at hocc
    have hlt : val < 2 ^ bits := by rwa [shiftRight_ne_zero, not_le] at h
    rw [decodeLoop, readBits_bigEndian hocc, sizeLoop, if_neg h, Nat.mod_eq_of_lt hlt]
  | case4 bits next rest val h ih =>
    intro i base hocc
    rw [encodeLoop, if_pos h, occursAt_cons] at hocc
    have hle := (shiftRight_ne_zero val bits).1 h
    rw [one_shiftLeft] at hocc ih
    have hlt : val - 2 ^ bits < span (next :: rest) := by
      rw [span_cons] at hval
      omega
    simp only [decodeLoop, hocc.1, one_shiftLeft]
    rw [ih hlt hocc.2, sizeLoop, if_pos h, one_shiftLeft]
    congr 2
    · omega
    · omega
  | case5 bits next rest val h =>
    intro i base hocc
    rw [encodeLoop, if_neg h, occursAt_cons] at hocc
    have hlt : val < 2 ^ bits := by rwa [shiftRight_ne_zero, not_le] at h
    simp only [decodeLoop, hocc.1]
    rw [readBits_bigEndian hocc.2, sizeLoop, if_neg h, Nat.mod_eq_of_lt hlt]
    congr 2
    omega

/-- **Encoding what was decoded**, class by class. -/
theorem encodeLoop_of_decodeLoop {s : List Bool} (cls : List ℕ) : ∀ {i base v j : ℕ}, cls ≠ [] →
    decodeLoop s cls i base = some (v, j) →
      ∃ val < span cls, v = base + val ∧ j = i + sizeLoop cls val ∧
        OccursAt s i (encodeLoop cls val) := by
  induction cls with
  | nil => intro i base v j hne; exact absurd rfl hne
  | cons bits cls ih =>
    intro i base v j _ h
    cases cls with
    | nil =>
      obtain ⟨w, hw, hv, hj, hocc⟩ := occursAt_of_readBits (n := bits) h
      have hsmall : ¬w >>> bits ≠ 0 := by rwa [shiftRight_ne_zero, not_le]
      refine ⟨w, by simpa using hw, hv, ?_, ?_⟩
      · rw [hj, sizeLoop, if_neg hsmall]
      · rwa [encodeLoop, if_neg hsmall]
    | cons next rest =>
      rw [decodeLoop] at h
      cases hb : s[i]? with
      | none => rw [hb] at h; cases h
      | some bit =>
        rw [hb] at h
        cases bit with
        | true =>
          obtain ⟨w, hw, hv, hj, hocc⟩ := ih (by simp) h
          have hbig : (2 ^ bits + w) >>> bits ≠ 0 := by rw [shiftRight_ne_zero]; omega
          have hsub : 2 ^ bits + w - 1 <<< bits = w := by rw [one_shiftLeft]; omega
          refine ⟨2 ^ bits + w, ?_, ?_, ?_, ?_⟩
          · rw [span_cons]
            omega
          · rw [hv, one_shiftLeft]
            omega
          · rw [hj, sizeLoop, if_pos hbig, hsub]
            omega
          · rw [encodeLoop, if_pos hbig, hsub, occursAt_cons]
            exact ⟨hb, hocc⟩
        | false =>
          obtain ⟨w, hw, hv, hj, hocc⟩ := occursAt_of_readBits (n := bits) h
          have hsmall : ¬w >>> bits ≠ 0 := by rwa [shiftRight_ne_zero, not_le]
          refine ⟨w, ?_, hv, ?_, ?_⟩
          · rw [span_cons]
            omega
          · rw [hj, sizeLoop, if_neg hsmall]
            omega
          · rw [encodeLoop, if_neg hsmall, occursAt_cons]
            exact ⟨hb, hocc⟩

/-! ### The coder -/

/-- The coders `new` builds: at least one class, and `maxval` closes the last one. -/
structure Regular (c : VarLenCoder) : Prop where
  ne_nil : c.clsbits ≠ []
  maxval_eq : c.maxval + 1 = c.minval + span c.clsbits

theorem regular_new (minval : ℕ) {clsbits : List ℕ} (h : clsbits ≠ []) :
    (new minval clsbits).Regular := by
  refine ⟨h, ?_⟩
  obtain ⟨bits, rest, rfl⟩ := List.exists_cons_of_ne_nil h
  have := Nat.two_pow_pos bits
  simp only [new, span_cons]
  omega

theorem canEncode_iff {c : VarLenCoder} {val : ℕ} :
    c.canEncode val = true ↔ c.minval ≤ val ∧ val ≤ c.maxval := by
  simp [canEncode]

theorem encodeSize_of_le {c : VarLenCoder} {val : ℕ} (h : c.minval ≤ val) :
    c.encodeSize val = .ok (sizeLoop c.clsbits (val - c.minval)) := if_neg (by omega)

/-- **Encode, then decode.** -/
theorem encode_spec {c : VarLenCoder} (hc : c.Regular) {val : ℕ} (h : c.canEncode val = true) :
    ∃ w, c.encode val = .ok w ∧ c.encodeSize val = .ok w.length ∧
      ∀ s i, OccursAt s i w → c.decode s i = some (val, i + w.length) := by
  obtain ⟨h₁, h₂⟩ := canEncode_iff.1 h
  have hmax := hc.maxval_eq
  refine ⟨_, if_pos h, ?_, fun s i hocc => ?_⟩
  · rw [encodeSize_of_le h₁, length_encodeLoop]
  · rw [decode, decodeLoop_encodeLoop _ _ (by omega) hocc, length_encodeLoop,
      Nat.add_sub_cancel' h₁]

/-- **Decode, then encode.** -/
theorem decode_spec {c : VarLenCoder} (hc : c.Regular) {s : List Bool} {i v j : ℕ}
    (h : c.decode s i = some (v, j)) :
    ∃ w, c.canEncode v = true ∧ c.encode v = .ok w ∧ OccursAt s i w ∧ j = i + w.length ∧
      c.encodeSize v = .ok (j - i) := by
  obtain ⟨val, hval, rfl, rfl, hocc⟩ := encodeLoop_of_decodeLoop _ hc.ne_nil h
  have hmax := hc.maxval_eq
  have hcan : c.canEncode (c.minval + val) = true := canEncode_iff.2 ⟨by omega, by omega⟩
  refine ⟨encodeLoop c.clsbits val, hcan, ?_, hocc, ?_, ?_⟩
  · rw [encode, if_pos hcan, Nat.add_sub_cancel_left]
  · rw [length_encodeLoop]
  · rw [encodeSize_of_le (by omega), Nat.add_sub_cancel_left, Nat.add_sub_cancel_left]

end VarLenCoder

/-! ### The four coders of the format -/

def coderIns : VarLenCoder := .new 0 [0, 0, 1]

def coderAsn : VarLenCoder := .new 1 [15, 16, 17, 18, 19, 20, 21, 22, 23, 24]

def coderMatch : VarLenCoder := .new 2 [1, 2, 3, 4, 5, 6, 7, 8]

def coderJump : VarLenCoder :=
  .new 17 [5, 6, 7, 8, 9, 10, 11, 12, 13, 14, 15, 16, 17, 18, 19, 20, 21, 22, 23, 24, 25, 26,
    27, 28, 29, 30]

theorem regular_coderIns : coderIns.Regular := VarLenCoder.regular_new _ (by simp)

theorem regular_coderAsn : coderAsn.Regular := VarLenCoder.regular_new _ (by simp)

theorem regular_coderMatch : coderMatch.Regular := VarLenCoder.regular_new _ (by simp)

theorem regular_coderJump : coderJump.Regular := VarLenCoder.regular_new _ (by simp)

theorem canEncode_coderIns {v : ℕ} : coderIns.canEncode v = true ↔ v ≤ 3 := by
  rw [VarLenCoder.canEncode_iff, show coderIns.minval = 0 from rfl,
    show coderIns.maxval = 3 from by decide]
  omega

theorem canEncode_coderAsn {v : ℕ} : coderAsn.canEncode v = true ↔ 1 ≤ v ∧ v ≤ 33521664 := by
  rw [VarLenCoder.canEncode_iff, show coderAsn.minval = 1 from rfl,
    show coderAsn.maxval = 33521664 from by decide]

theorem canEncode_coderMatch {v : ℕ} : coderMatch.canEncode v = true ↔ 2 ≤ v ∧ v ≤ 511 := by
  rw [VarLenCoder.canEncode_iff, show coderMatch.minval = 2 from rfl,
    show coderMatch.maxval = 511 from by decide]

/-- The longest left subprogram a Jump can skip, in bits. -/
def jumpMax : ℕ := 2 ^ 31 - 16

theorem canEncode_coderJump {v : ℕ} : coderJump.canEncode v = true ↔ 17 ≤ v ∧ v ≤ jumpMax := by
  rw [VarLenCoder.canEncode_iff, show coderJump.minval = 17 from rfl,
    show coderJump.maxval = jumpMax from by decide]

end AsmapQuorum

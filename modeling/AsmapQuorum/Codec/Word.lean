import AsmapQuorum.Codec.Coder

/-!
# The coder on 32-bit words

The coder adds class sizes and positions up in `u32`, where a sum past the largest word aborts.

* `VarLenCoder.newU32`, `VarLenCoder.decodeU32` — `new` and `decode` with every sum and shift
  checked.
* `VarLenCoder.decodeU32_eq` — where the classes fit in a word no check fails, whatever stream is
  read.
* `VarLenCoder.encodes_exactly` — **the code is exact**: every value in range is read back from what
  is written for it, and nothing else is ever read.
-/

namespace AsmapQuorum

open Reading

/-- The ways `u32` arithmetic aborts. -/
inductive WordAbort where
  | addOverflow
  | subtractOverflow
  | shiftOverflow
  deriving DecidableEq, Repr

def addU32 (a b : ℕ) : Except WordAbort ℕ :=
  if a + b < 2 ^ 32 then .ok (a + b) else .error .addOverflow

def subU32 (a b : ℕ) : Except WordAbort ℕ := if b ≤ a then .ok (a - b) else .error .subtractOverflow

/-- `<<` checks the number of places; bits that leave the word are lost. -/
def shlU32 (a places : ℕ) : Except WordAbort ℕ :=
  if places < 32 then .ok (a <<< places % 2 ^ 32) else .error .shiftOverflow

theorem addU32_eq {a b : ℕ} (h : a + b < 2 ^ 32) : addU32 a b = .ok (a + b) := if_pos h

theorem shlU32_one {places : ℕ} (h : places < 32) : shlU32 1 places = .ok (2 ^ places) := by
  have hlt : 2 ^ places < 2 ^ 32 := Nat.pow_lt_pow_right (by decide) h
  rw [shlU32, if_pos h, VarLenCoder.one_shiftLeft, Nat.mod_eq_of_lt hlt]

theorem shlU32_bit {places : ℕ} (h : places < 32) (bit : Bool) :
    shlU32 bit.toNat places = .ok (bit.toNat <<< places) := by
  cases bit with
  | false => rw [shlU32, if_pos h, Bool.toNat_false, Nat.zero_shiftLeft, Nat.zero_mod]
  | true => rw [Bool.toNat_true, shlU32_one h, VarLenCoder.one_shiftLeft]

namespace VarLenCoder

/-! ### The loops with their checks -/

/-- The loop of `new`. -/
def totalLoop : List ℕ → ℕ → Except WordAbort ℕ
  | [], total => .ok total
  | bits :: rest, total => do
    let size ← shlU32 1 bits
    let total ← addU32 total size
    totalLoop rest total

def newU32 (minval : ℕ) (clsbits : List ℕ) : Except WordAbort VarLenCoder := do
  let total ← totalLoop clsbits 0
  let top ← addU32 minval total
  let maxval ← subU32 top 1
  return ⟨minval, clsbits, maxval⟩

/-- The second loop of `decode`: the position inside the class. -/
def readBitsU32 (stream : List Bool) : ℕ → ℕ → ℕ → Except WordAbort (Option (ℕ × ℕ))
  | 0, bitpos, val => .ok (some (val, bitpos))
  | n + 1, bitpos, val =>
    match stream[bitpos]? with
    | none => .ok none
    | some bit => do
      let digit ← shlU32 bit.toNat n
      let val ← addU32 val digit
      readBitsU32 stream n (bitpos + 1) val

/-- The first loop of `decode`, with the second behind it. -/
def decodeLoopU32 (stream : List Bool) : List ℕ → ℕ → ℕ → Except WordAbort (Option (ℕ × ℕ))
  | [], bitpos, val => .ok (some (val, bitpos))
  | [bits], bitpos, val => readBitsU32 stream bits bitpos val
  | bits :: next :: rest, bitpos, val =>
    match stream[bitpos]? with
    | none => .ok none
    | some true => do
      let size ← shlU32 1 bits
      let val ← addU32 val size
      decodeLoopU32 stream (next :: rest) (bitpos + 1) val
    | some false => readBitsU32 stream bits (bitpos + 1) val

def decodeU32 (c : VarLenCoder) (stream : List Bool) (bitpos : ℕ) :
    Except WordAbort (Option (ℕ × ℕ)) :=
  decodeLoopU32 stream c.clsbits bitpos c.minval

/-! ### No check fails -/

theorem totalLoop_eq (clsbits : List ℕ) (total : ℕ) (hwidth : ∀ bits ∈ clsbits, bits < 32)
    (hfit : total + span clsbits < 2 ^ 32) :
    totalLoop clsbits total = .ok (total + span clsbits) := by
  induction clsbits generalizing total with
  | nil => rfl
  | cons bits rest ih =>
    rw [List.forall_mem_cons] at hwidth
    rw [span_cons] at hfit ⊢
    simp only [totalLoop, shlU32_one hwidth.1, addU32_eq (show total + 2 ^ bits < 2 ^ 32 by omega),
      bind, Except.bind]
    rw [ih (total + 2 ^ bits) hwidth.2 (by omega), Nat.add_assoc]

theorem newU32_eq {minval : ℕ} {clsbits : List ℕ} (hne : clsbits ≠ [])
    (hwidth : ∀ bits ∈ clsbits, bits < 32) (hfit : minval + span clsbits < 2 ^ 32) :
    newU32 minval clsbits = .ok (new minval clsbits) := by
  have htotal := totalLoop_eq clsbits 0 hwidth (by omega)
  have hpos := (regular_new minval hne).maxval_eq
  rw [Nat.zero_add] at htotal
  have hsub : subU32 (minval + span clsbits) 1 = .ok (minval + span clsbits - 1) := by
    refine if_pos ?_
    change _ = minval + span clsbits at hpos
    omega
  simp only [newU32, htotal, addU32_eq hfit, hsub, bind, Except.bind, pure, Except.pure]
  rfl

/-- `n` more bits stay below the next multiple of `2 ^ n`. -/
theorem readBitsU32_eq (stream : List Bool) {n : ℕ} (hn : n ≤ 32) : ∀ {bitpos val : ℕ},
    val + 2 ^ n ≤ 2 ^ 32 →
      readBitsU32 stream n bitpos val = .ok (readBits stream n bitpos val) := by
  induction n with
  | zero => intro bitpos val _; rfl
  | succ n ih =>
    intro bitpos val hfit
    have hpow : (2 : ℕ) ^ (n + 1) = 2 ^ n + 2 ^ n := by ring
    have hpos := Nat.two_pow_pos n
    rw [readBitsU32, readBits]
    cases stream[bitpos]? with
    | none => rfl
    | some bit =>
      have hdigit : bit.toNat <<< n ≤ 2 ^ n := by
        calc bit.toNat <<< n = bit.toNat * 2 ^ n := Nat.shiftLeft_eq _ _
          _ ≤ 1 * 2 ^ n := Nat.mul_le_mul_right _ bit.toNat_le
          _ = 2 ^ n := Nat.one_mul _
      simp only [shlU32_bit (show n < 32 by omega),
        addU32_eq (show val + bit.toNat <<< n < 2 ^ 32 by omega), bind, Except.bind]
      exact ih (by omega) (by omega)

/-- The invariant of the loop: what was added so far leaves room for the classes that remain. -/
theorem decodeLoopU32_eq (stream : List Bool) (cls : List ℕ) (hwidth : ∀ bits ∈ cls, bits < 32) :
    ∀ {bitpos val : ℕ}, val + span cls ≤ 2 ^ 32 →
      decodeLoopU32 stream cls bitpos val = .ok (decodeLoop stream cls bitpos val) := by
  induction cls with
  | nil => intro bitpos val _; rfl
  | cons bits cls ih =>
    intro bitpos val hfit
    rw [List.forall_mem_cons] at hwidth
    rw [span_cons] at hfit
    cases cls with
    | nil =>
      rw [decodeLoopU32, decodeLoop]
      exact readBitsU32_eq stream (Nat.le_of_lt hwidth.1) (by omega)
    | cons next rest =>
      have hpos : 0 < span (next :: rest) := by
        rw [span_cons]
        exact Nat.add_pos_left (Nat.two_pow_pos next) _
      rw [decodeLoopU32, decodeLoop]
      cases stream[bitpos]? with
      | none => rfl
      | some bit =>
        cases bit with
        | true =>
          simp only [shlU32_one hwidth.1, addU32_eq (show val + 2 ^ bits < 2 ^ 32 by omega), bind,
            Except.bind]
          rw [one_shiftLeft]
          exact ih hwidth.2 (by omega)
        | false => exact readBitsU32_eq stream (Nat.le_of_lt hwidth.1) (by omega)

/-- **No sum of `decode` overflows**, at any position of any stream. -/
theorem decodeU32_eq {c : VarLenCoder} (hwidth : ∀ bits ∈ c.clsbits, bits < 32)
    (hfit : c.minval + span c.clsbits ≤ 2 ^ 32) (stream : List Bool) (bitpos : ℕ) :
    c.decodeU32 stream bitpos = .ok (c.decode stream bitpos) :=
  decodeLoopU32_eq stream c.clsbits hwidth hfit

/-- **The code is exact.**  A coder whose classes fit in a word is built; what it writes for a value
in range is read back anywhere in a stream, and what it reads is what it would have written. -/
theorem encodes_exactly {minval : ℕ} {clsbits : List ℕ} (hne : clsbits ≠ [])
    (hwidth : ∀ bits ∈ clsbits, bits < 32) (hfit : minval + span clsbits < 2 ^ 32) :
    ∃ c, newU32 minval clsbits = .ok c ∧ c = new minval clsbits ∧
      (∀ v, c.minval ≤ v → v ≤ c.maxval → ∃ w, c.encode v = .ok w ∧ c.encodeSize v = .ok w.length ∧
        ∀ before after, c.decodeU32 (before ++ w ++ after) before.length =
          .ok (some (v, before.length + w.length))) ∧
      ∀ stream bitpos, ∃ r, c.decodeU32 stream bitpos = .ok r ∧ ∀ v next, r = some (v, next) →
        c.minval ≤ v ∧ v ≤ c.maxval ∧
          ∃ w, c.encode v = .ok w ∧ OccursAt stream bitpos w ∧ next = bitpos + w.length := by
  have hregular := regular_new minval hne
  have hdecode := decodeU32_eq (c := new minval clsbits) hwidth (Nat.le_of_lt hfit)
  refine ⟨_, newU32_eq hne hwidth hfit, rfl, fun v hmin hmax => ?_, fun stream bitpos => ?_⟩
  · obtain ⟨w, hw, hsize, hback⟩ := encode_spec hregular (canEncode_iff.2 ⟨hmin, hmax⟩)
    refine ⟨w, hw, hsize, fun before after => ?_⟩
    rw [hdecode, hback _ _ (occursAt_self before w after)]
  · refine ⟨_, hdecode stream bitpos, fun v next hread => ?_⟩
    obtain ⟨w, hcan, hw, hocc, hnext, -⟩ := decode_spec hregular hread
    obtain ⟨hmin, hmax⟩ := canEncode_iff.1 hcan
    exact ⟨hmin, hmax, w, hw, hocc, hnext⟩

/-- The coder of the Jump operand, whose classes come closest to the size of a word. -/
theorem encodes_exactly_coderJump :
    ∃ c, newU32 17 coderJump.clsbits = .ok c ∧ c = new 17 coderJump.clsbits ∧
      (∀ v, c.minval ≤ v → v ≤ c.maxval → ∃ w, c.encode v = .ok w ∧ c.encodeSize v = .ok w.length ∧
        ∀ before after, c.decodeU32 (before ++ w ++ after) before.length =
          .ok (some (v, before.length + w.length))) ∧
      ∀ stream bitpos, ∃ r, c.decodeU32 stream bitpos = .ok r ∧ ∀ v next, r = some (v, next) →
        c.minval ≤ v ∧ v ≤ c.maxval ∧
          ∃ w, c.encode v = .ok w ∧ OccursAt stream bitpos w ∧ next = bitpos + w.length :=
  encodes_exactly (by decide) (by decide) (by decide)

end VarLenCoder

end AsmapQuorum

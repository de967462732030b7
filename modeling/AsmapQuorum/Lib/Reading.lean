import Mathlib.Data.List.Basic
import Mathlib.Data.List.Infix
import Mathlib.Data.Nat.Bitwise
import Mathlib.Tactic.Ring

/-!
# Reading words at a position of a stream

A reader takes a stream and a position and returns a value with the position after it.  What a
writer appended is read back when the word it wrote *occurs at* the position: `OccursAt s i w`.  The
two rules that every decoder proof needs are how an occurrence of a concatenation splits
(`occursAt_append`) and what its first letter is (`occursAt_cons`).

The second half is the one numeral format used with it: `bigEndian n v`, the low `n` bits of `v`,
most significant first, and its reader `readBits`.
-/

namespace Reading

variable {α : Type*}

/-- The word `w` stands at position `i` of the stream `s`. -/
def OccursAt (s : List α) (i : ℕ) (w : List α) : Prop := w <+: s.drop i

@[simp] theorem occursAt_nil (s : List α) (i : ℕ) : OccursAt s i [] := List.nil_prefix

@[simp] theorem occursAt_cons (s : List α) (i : ℕ) (a : α) (w : List α) :
    OccursAt s i (a :: w) ↔ s[i]? = some a ∧ OccursAt s (i + 1) w := by
  unfold OccursAt
  cases h : s[i]? with
  | none =>
    rw [List.drop_eq_nil_of_le (List.getElem?_eq_none_iff.1 h)]
    simp
  | some b =>
    obtain ⟨hi, rfl⟩ := List.getElem?_eq_some_iff.1 h
    rw [List.drop_eq_getElem_cons hi, List.cons_prefix_cons, Option.some.injEq, eq_comm]

theorem occursAt_append (s : List α) (i : ℕ) (v w : List α) :
    OccursAt s i (v ++ w) ↔ OccursAt s i v ∧ OccursAt s (i + v.length) w := by
  induction v generalizing i with
  | nil => simp
  | cons a v ih =>
    rw [List.cons_append, occursAt_cons, occursAt_cons, ih, List.length_cons,
      show i + 1 + v.length = i + (v.length + 1) by omega, and_assoc]

theorem occursAt_self (pre w post : List α) : OccursAt (pre ++ w ++ post) pre.length w := by
  unfold OccursAt
  rw [List.append_assoc, List.drop_left]
  exact List.prefix_append w post

/-! ### Big-endian numerals -/

/-- The low `n` bits of `v`, most significant first. -/
def bigEndian : ℕ → ℕ → List Bool
  | 0, _ => []
  | n + 1, v => v.testBit n :: bigEndian n v

@[simp] theorem length_bigEndian (n v : ℕ) : (bigEndian n v).length = n := by
  induction n with
  | zero => rfl
  | succ n ih => simp [bigEndian, ih]

/-- The last bit of the numeral is the lowest. -/
theorem bigEndian_succ (n v : ℕ) :
    bigEndian (n + 1) v = bigEndian n (v / 2) ++ [decide (v % 2 = 1)] := by
  induction n with
  | zero => simp [bigEndian, Nat.testBit_zero]
  | succ n ih =>
    rw [bigEndian, ih, bigEndian, List.cons_append, Nat.testBit_div_two]

/-- Reads `n` bits, most significant first, on top of `val`; fails at the end of the stream. -/
def readBits (s : List Bool) : ℕ → ℕ → ℕ → Option (ℕ × ℕ)
  | 0, i, val => some (val, i)
  | n + 1, i, val =>
    match s[i]? with
    | none => none
    | some bit => readBits s n (i + 1) (val + bit.toNat <<< n)

theorem readBits_bigEndian {s : List Bool} {n v : ℕ} : ∀ {i val : ℕ},
    OccursAt s i (bigEndian n v) → readBits s n i val = some (val + v % 2 ^ n, i + n) := by
  induction n with
  | zero => intro i val _; simp [readBits, Nat.mod_one]
  | succ n ih =>
    intro i val h
    rw [bigEndian, occursAt_cons] at h
    have hdigit : (v.testBit n).toNat <<< n + v % 2 ^ n = v % 2 ^ (n + 1) := by
      rw [Nat.shiftLeft_eq, Nat.mod_pow_succ, Nat.toNat_testBit, Nat.mul_comm, Nat.add_comm]
    simp only [readBits, h.1]
    rw [ih h.2, ← hdigit, Nat.add_assoc, Nat.add_right_comm, Nat.add_assoc]

theorem bigEndian_mod (n v : ℕ) : bigEndian n (v % 2 ^ n) = bigEndian n v := by
  have hlow : ∀ m ≤ n, bigEndian m (v % 2 ^ n) = bigEndian m v := by
    intro m
    induction m with
    | zero => intro _; rfl
    | succ m ih =>
      intro hm
      rw [bigEndian, bigEndian, ih (by omega), Nat.testBit_mod_two_pow, decide_eq_true (by omega),
        Bool.true_and]
  exact hlow n le_rfl

/-- **What was read stands there**: a successful read is the numeral of the number it added. -/
theorem occursAt_of_readBits {s : List Bool} {n : ℕ} : ∀ {i val v j : ℕ},
    readBits s n i val = some (v, j) →
      ∃ w < 2 ^ n, v = val + w ∧ j = i + n ∧ OccursAt s i (bigEndian n w) := by
  induction n with
  | zero =>
    intro i val v j h
    simp only [readBits, Option.some.injEq, Prod.mk.injEq] at h
    exact ⟨0, by simp, h.1.symm, h.2.symm, occursAt_nil s i⟩
  | succ n ih =>
    intro i val v j h
    rw [readBits] at h
    cases hb : s[i]? with
    | none => rw [hb] at h; cases h
    | some bit =>
      rw [hb] at h
      obtain ⟨w, hw, hv, hj, hocc⟩ := ih h
      have hdiv : (2 ^ n * bit.toNat + w) / 2 ^ n = bit.toNat := by
        rw [Nat.mul_add_div (Nat.two_pow_pos n), Nat.div_eq_of_lt hw, Nat.add_zero]
      have hmod : (2 ^ n * bit.toNat + w) % 2 ^ n = w := by
        rw [Nat.mul_add_mod, Nat.mod_eq_of_lt hw]
      refine ⟨2 ^ n * bit.toNat + w, ?_, ?_, by omega, ?_⟩
      · have hpow : (2 : ℕ) ^ (n + 1) = 2 ^ n + 2 ^ n := by ring
        cases bit <;> simp <;> omega
      · rw [hv, Nat.shiftLeft_eq, Nat.mul_comm, Nat.add_assoc]
      · rw [bigEndian, occursAt_cons, ← bigEndian_mod n, hmod, Nat.testBit_eq_decide_div_mod_eq,
          hdiv]
        refine ⟨?_, hocc⟩
        rw [hb]
        cases bit <;> rfl

end Reading

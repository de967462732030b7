import Mathlib.Data.BitVec
import Mathlib.Data.Finset.Card
import Mathlib.Data.Fintype.Card
import Mathlib.Data.Fintype.EquivFin
import Mathlib.Order.Interval.Finset.Nat
import Mathlib.Tactic.Ring

/-!
# Sampling from words

A generator of words, and how a draw below a bound is made of one.

* `add_mul_injective` — **a counter that is raised by a unit passes no word twice** within a period.
* `mul_injective`, `xorShift_injective` — the steps that mix a word lose nothing of it.
* `Accepted W n x`, `scaled W n x` — the multiplication that scales a word below `W` down to one
  below `n`, and the words that it may be applied to.
* `card_accepted` — **the accepted words are scaled evenly**: every result below `n` comes from `W /
  n` of them; `card_filter_period`, `exists_of_period` — so are those of a period.
-/

namespace Sampling

/-! ### Counters -/

/-- Multiplying by a unit loses nothing. -/
theorem mul_injective {w : ℕ} {c c' : BitVec w} (h : c * c' = 1#w) :
    Function.Injective fun z : BitVec w => z * c := by
  intro y z heq
  have hback := congrArg (· * c') heq
  simp only [BitVec.mul_assoc, h, BitVec.mul_one] at hback
  exact hback

section Counter

variable {w : ℕ} {γ γ' : BitVec w}

/-- Within a period the counter passes no word twice. -/
theorem add_mul_injective (h : γ * γ' = 1#w) (s : BitVec w) :
    Function.Injective fun k : Fin (2 ^ w) => s + BitVec.ofNat w (k + 1) * γ := by
  intro j k heq
  have hcount : BitVec.ofNat w (j + 1) = BitVec.ofNat w (k + 1) :=
    mul_injective h ((BitVec.add_right_inj s).1 heq)
  have hmod : ((j : ℕ) + 1) % 2 ^ w = (k + 1) % 2 ^ w := by
    simpa only [BitVec.toNat_ofNat] using congrArg BitVec.toNat hcount
  have hjk : (j : ℕ) % 2 ^ w = k % 2 ^ w := Nat.ModEq.add_right_cancel' 1 hmod
  rw [Nat.mod_eq_of_lt j.isLt, Nat.mod_eq_of_lt k.isLt] at hjk
  exact Fin.ext hjk

end Counter

/-! ### Mixing -/

/-- A word is read off from its xor with itself shifted to the right, from the top. -/
theorem xorShift_injective {w s : ℕ} (hs : 0 < s) : Function.Injective fun z : BitVec w =>
    z ^^^ (z >>> s) := by
  intro y z heq
  have hbit : ∀ i, y.getMsbD i = z.getMsbD i := by
    intro i
    induction i using Nat.strong_induction_on with
    | _ i ih =>
      by_cases hi : i < w
      · have hxor := congrArg (fun v => v.getMsbD i) heq
        simp only [BitVec.getMsbD_xor, BitVec.getMsbD_ushiftRight, hi, decide_true, Bool.true_and]
          at hxor
        by_cases hlow : i < s
        · simpa [hlow] using hxor
        · rw [ih (i - s) (by omega)] at hxor
          exact Bool.xor_left_inj.1 hxor
      · rw [BitVec.getMsbD_of_ge _ _ (by omega), BitVec.getMsbD_of_ge _ _ (by omega)]
  exact BitVec.eq_of_getMsbD_eq fun i _ => hbit i

/-! ### Scaling -/

/-- The word is not among the few that would make some results more likely than others. -/
def Accepted (W n x : ℕ) : Prop := W % n ≤ x * n % W

instance (W n x : ℕ) : Decidable (Accepted W n x) := inferInstanceAs (Decidable (_ ≤ _))

def scaled (W n x : ℕ) : ℕ := x * n / W

section Scaling

variable {W n x r : ℕ}

theorem scaled_lt (hn : 0 < n) (hx : x < W) : scaled W n x < n := by
  rw [scaled, Nat.div_lt_iff_lt_mul (by omega), Nat.mul_comm n]
  exact Nat.mul_lt_mul_of_pos_right hx hn

theorem accepted_one (hn : 0 < n) (h : n < W) : Accepted W n 1 := by
  rw [Accepted, Nat.one_mul, Nat.mod_eq_of_lt h]
  exact (Nat.mod_lt W hn).le

/-- The accepted words of a result are those whose multiple lies in its share, from which the
remainder is cut off. -/
theorem accepted_and_scaled_iff (hW : 0 < W) :
    Accepted W n x ∧ scaled W n x = r ↔ r * W + W % n ≤ x * n ∧
      x * n < r * W + W % n + W / n * n := by
  have hshare : W % n + W / n * n = W := by
    rw [Nat.mul_comm]
    exact Nat.mod_add_div W n
  have hsplit := Nat.mod_add_div (x * n) W
  have hlt := Nat.mod_lt (x * n) hW
  rw [Accepted, scaled]
  constructor
  · rintro ⟨hle, rfl⟩
    rw [Nat.mul_comm (x * n / W)]
    omega
  · rintro ⟨hle, hup⟩
    have hquot : x * n / W = r := by
      apply Nat.div_eq_of_lt_le
      · omega
      · rw [Nat.succ_mul]
        omega
    rw [hquot, Nat.mul_comm W] at hsplit
    exact ⟨by omega, hquot⟩

/-- An interval of `q * n` numbers has `q` multiples of `n`. -/
theorem multiples_eq_Ico (hn : 0 < n) (a q : ℕ) :
    a ≤ x * n ∧ x * n < a + q * n ↔ (a + n - 1) / n ≤ x ∧ x < (a + n - 1) / n + q := by
  have hceil : ∀ y, (a + n - 1) / n ≤ y ↔ a ≤ y * n := by
    intro y
    rw [Nat.div_le_iff_le_mul_add_pred hn, Nat.mul_comm n]
    omega
  rw [hceil]
  refine and_congr_right fun _ => ?_
  rw [← not_le, ← not_le, not_iff_not]
  constructor
  · intro hle
    have hq : q ≤ x := by
      by_contra hlt
      have hmul : x * n < q * n := Nat.mul_lt_mul_of_pos_right (by omega) hn
      omega
    have hback := (hceil (x - q)).2 (by rw [Nat.sub_mul]; omega)
    omega
  · intro hle
    have hback := (hceil (x - q)).1 (Nat.le_sub_of_add_le hle)
    rw [Nat.sub_mul] at hback
    have hmul : q * n ≤ x * n := Nat.mul_le_mul_right n (Nat.le_trans (Nat.le_add_left q _) hle)
    omega

/-- **Every result has as many accepted words as any other**. -/
theorem card_accepted (hn : 0 < n) (hW : 0 < W) (hr : r < n) :
    ((Finset.range W).filter fun x => Accepted W n x ∧ scaled W n x = r).card = W / n := by
  have hIco : ((Finset.range W).filter fun x => Accepted W n x ∧ scaled W n x = r) =
      Finset.Ico ((r * W + W % n + n - 1) / n) ((r * W + W % n + n - 1) / n + W / n) := by
    ext x
    rw [Finset.mem_filter, Finset.mem_range, accepted_and_scaled_iff hW, multiples_eq_Ico hn,
      Finset.mem_Ico, and_iff_right_iff_imp, ← multiples_eq_Ico hn]
    rintro ⟨-, hup⟩
    have hshare : W % n + W / n * n = W := by
      rw [Nat.mul_comm]
      exact Nat.mod_add_div W n
    have htop : (r + 1) * W ≤ n * W := Nat.mul_le_mul_right W hr
    rw [Nat.succ_mul] at htop
    by_contra hle
    have hmul : W * n ≤ x * n := Nat.mul_le_mul_right n (by omega)
    rw [Nat.mul_comm W] at hmul
    omega
  rw [hIco, Nat.card_Ico, Nat.add_sub_cancel_left]

end Scaling

/-! ### Periods -/

section Period

variable {W : ℕ} {f : Fin W → Fin W}

/-- A period passes every word. -/
theorem exists_of_period (hf : Function.Injective f) {x : ℕ} (hx : x < W) : ∃ k, (f k : ℕ) = x := by
  obtain ⟨k, hk⟩ := Finite.surjective_of_injective hf ⟨x, hx⟩
  exact ⟨k, congrArg Fin.val hk⟩

/-- What holds of so many words holds that often in a period. -/
theorem card_filter_period (hf : Function.Injective f) (P : ℕ → Prop) [DecidablePred P] :
    (Finset.univ.filter fun k => P (f k)).card = ((Finset.range W).filter P).card := by
  refine Finset.card_nbij (fun k => (f k : ℕ)) (fun k hk => ?_)
    (fun j _ k _ heq => hf (Fin.ext heq))
    (fun x hx => ?_)
  · rw [Finset.mem_coe, Finset.mem_filter, Finset.mem_range]
    exact ⟨(f k).isLt, (Finset.mem_filter.1 hk).2⟩
  · rw [Finset.mem_coe, Finset.mem_filter, Finset.mem_range] at hx
    obtain ⟨k, rfl⟩ := exists_of_period hf hx.1
    exact ⟨k, by simpa using hx.2, rfl⟩

end Period

end Sampling

import AsmapQuorum.Codec.Coder
import AsmapQuorum.Codec.Trie
import AsmapQuorum.Lib.Sampling
import Mathlib.Algebra.Order.Field.Rat
import Mathlib.Data.List.Perm.Basic
import Mathlib.Tactic.NormNum

/-!
# Random maps

`testgen.rs`: the maps that the property tests and the comparison with the reference are run on.

* `SplitMix64` — the generator; `SplitMix64.below` draws a number below a bound.
* `randomMap` — splits random leaves of a trie and gives each leaf a random ASN, or none.
* `SplitMix64.below_spec` — **the rejection loop ends**, and over the period of the generator every
  number below the bound is drawn equally often.
* `RandomMapParams.draw_admissible` — the parameters that are drawn pass the assertions of
  `randomMap`.

A `f64` of the source is the rational number that it stands for.  The two operations on them, a
product with `2 ^ -53` and a comparison, are exact.
-/

namespace AsmapQuorum

open Sampling

/-! ### The generator -/

structure SplitMix64 where
  state : BitVec 64
  deriving DecidableEq, Repr

/-- What the state is raised by. -/
def gamma : BitVec 64 := 0x9E3779B97F4A7C15#64

/-- The finalizer. -/
def mix (z : BitVec 64) : BitVec 64 :=
  let z := (z ^^^ (z >>> 30)) * 0xBF58476D1CE4E5B9#64
  let z := (z ^^^ (z >>> 27)) * 0x94D049BB133111EB#64
  z ^^^ (z >>> 31)

def splitmix64 (z : BitVec 64) : BitVec 64 := mix (z + gamma)

namespace SplitMix64

def new (seed : BitVec 64) : SplitMix64 := ⟨seed⟩

def nextU64 (rng : SplitMix64) : BitVec 64 × SplitMix64 :=
  let state := rng.state + gamma
  (mix state, ⟨state⟩)

/-- `(self.next_u64() as u128) * (n as u128)`. -/
def product (x n : BitVec 64) : BitVec 128 := x.setWidth 128 * n.setWidth 128

/-- `m as u64`. -/
def low (m : BitVec 128) : BitVec 64 := m.setWidth 64

/-- `(m >> 64) as u64`. -/
def high (m : BitVec 128) : BitVec 64 := (m >>> 64).setWidth 64

/-- The `while low < threshold` loop. -/
def rejectLoop (n threshold : BitVec 64) : ℕ → BitVec 128 → SplitMix64 →
    Except Panic (BitVec 64 × SplitMix64)
  | 0, _, _ => .error .outOfFuel
  | fuel + 1, m, rng =>
    if low m < threshold then
      let (x, rng) := rng.nextU64
      rejectLoop n threshold fuel (product x n) rng
    else .ok (high m, rng)

/-- A value in `0..n`; a period of the generator is fuel enough. -/
def below (rng : SplitMix64) (n : BitVec 64) : Except Panic (BitVec 64 × SplitMix64) :=
  if n = 0 then .error .assertionFailed
  else
    let (x, rng) := rng.nextU64
    let m := product x n
    if low m < n then rejectLoop n (-n % n) (2 ^ 64) m rng else .ok (high m, rng)

/-- A value in `min..max`. -/
def range (rng : SplitMix64) (min max : BitVec 64) : Except Panic (BitVec 64 × SplitMix64) :=
  if min < max then do
    let (r, rng) ← rng.below (max - min)
    return (min + r, rng)
  else .error .assertionFailed

def nextF64 (rng : SplitMix64) : ℚ × SplitMix64 :=
  let (x, rng) := rng.nextU64
  ((x >>> 11).toNat / 2 ^ 53, rng)

end SplitMix64

/-! ### The maps -/

structure RandomMapParams where
  numLeaves : BitVec 32
  maxAsn : BitVec 32
  unassignedProb : ℚ
  deriving DecidableEq, Repr

/-- `PROBS`; the second is the `f64` closest to `0.3`. -/
def unassignedProbs : List ℚ := [0, 5404319552844595 / 2 ^ 54, 1 / 2]

def RandomMapParams.draw (rng : SplitMix64) : Except Panic (RandomMapParams × SplitMix64) := do
  let (numLeaves, rng) ← rng.range 1 40
  let (maxAsn, rng) ← rng.range 1 40
  let (prob, rng) ← rng.below 3
  match unassignedProbs[prob.toNat]? with
  | some unassignedProb => return (⟨numLeaves.setWidth 32, maxAsn.setWidth 32, unassignedProb⟩, rng)
  | none => .error .unwrapNone

/-- The leaf at an index, and the leaves without it: the last one takes its place. -/
def takeLeaf {α : Type} (leaves : List α) (i idx : ℕ) : Option (α × List α) := do
  let leaf ← leaves[idx]?
  let lastleaf ← leaves.getLast?
  let leaves := leaves.dropLast
  return (leaf, if idx + 1 < i then leaves.set idx lastleaf else leaves)

/-- One round of the `for i in 1..num_leaves` loop. -/
def splitLeaf (leaves : List (List Bool)) (i idx : ℕ) : Except Panic (List (List Bool)) :=
  match takeLeaf leaves i idx with
  | none => .error .unwrapNone
  | some (leaf, leaves) => .ok (leaves ++ [leaf ++ [false], leaf ++ [true]])

def splitLoop : List ℕ → List (List Bool) → SplitMix64 →
    Except Panic (List (List Bool) × SplitMix64)
  | [], leaves, rng => .ok (leaves, rng)
  | i :: is, leaves, rng => do
    let (idx, rng) ← rng.below (BitVec.ofNat 64 i)
    let leaves ← splitLeaf leaves i idx.toNat
    splitLoop is leaves rng

/-- The ASN of a leaf. -/
def drawAsn (params : RandomMapParams) (rng : SplitMix64) : Except Panic (ℕ × SplitMix64) :=
  let (share, rng) := rng.nextF64
  if share ≥ params.unassignedProb then do
    let (asn, rng) ← rng.range 1 (params.maxAsn.setWidth 64 + 1)
    return ((asn.setWidth 32).toNat, rng)
  else .ok (0, rng)

def entriesLoop (params : RandomMapParams) :
    List (List Bool) → SplitMix64 → Except Panic (List ASNEntry × SplitMix64)
  | [], rng => .ok ([], rng)
  | pfx :: leaves, rng => do
    let (asn, rng) ← drawAsn params rng
    let (entries, rng) ← entriesLoop params leaves rng
    return ((pfx, asn) :: entries, rng)

def RandomMapParams.Admissible (params : RandomMapParams) : Prop :=
  1 ≤ params.numLeaves.toNat ∧ (1 ≤ params.maxAsn.toNat ∨ params.unassignedProb = 1) ∧
    0 ≤ params.unassignedProb ∧ params.unassignedProb ≤ 1

instance (params : RandomMapParams) : Decidable params.Admissible :=
  inferInstanceAs (Decidable (_ ∧ _))

/-- `random_map`; the assertions are those of `Admissible`. -/
def randomMap (rng : SplitMix64) (params : RandomMapParams) : Except Panic (ASMap × SplitMix64) :=
  if params.Admissible then do
    let (leaves, rng) ← splitLoop (List.range' 1 (params.numLeaves.toNat - 1)) [[]] rng
    let (entries, rng) ← entriesLoop params leaves rng
    return (ASMap.new.updateMulti entries, rng)
  else .error .assertionFailed

def randomMapFromSeed (seed : BitVec 64) : Except Panic (ASMap × RandomMapParams) := do
  let (params, rng) ← RandomMapParams.draw (.new seed)
  let (map, _) ← randomMap rng params
  return (map, params)

/-! ### The period of the generator -/

theorem mix_injective : Function.Injective mix := by
  have hfirst : 0xBF58476D1CE4E5B9#64 * 0x96DE1B173F119089#64 = 1#64 := by decide
  have hsecond : 0x94D049BB133111EB#64 * 0x319642B2D24D8EC3#64 = 1#64 := by decide
  intro y z h
  exact xorShift_injective (by decide) (mul_injective hfirst (xorShift_injective (by decide)
    (mul_injective hsecond (xorShift_injective (by decide) h))))

/-- Different inputs get different seeds. -/
theorem splitmix64_injective : Function.Injective splitmix64 := by
  intro y z h
  exact (BitVec.add_left_inj gamma).1 (mix_injective h)

namespace SplitMix64

/-- The generator after `k` words. -/
def advance (rng : SplitMix64) (k : ℕ) : SplitMix64 := ⟨rng.state + BitVec.ofNat 64 k * gamma⟩

/-- The words, from the next one on. -/
def word (rng : SplitMix64) (k : ℕ) : BitVec 64 := mix (rng.state + BitVec.ofNat 64 (k + 1) * gamma)

theorem nextU64_advance (rng : SplitMix64) (k : ℕ) :
    (rng.advance k).nextU64 = (rng.word k, rng.advance (k + 1)) := by
  have hstate : rng.state + BitVec.ofNat 64 k * gamma + gamma =
      rng.state + BitVec.ofNat 64 (k + 1) * gamma := by
    rw [BitVec.ofNat_add, BitVec.add_mul, BitVec.one_mul, BitVec.add_assoc]
  rw [nextU64, advance, word, advance, hstate]

theorem advance_zero (rng : SplitMix64) : rng.advance 0 = rng := by
  simp [advance]

/-- The words of a period, as numbers. -/
def period (rng : SplitMix64) (k : Fin (2 ^ 64)) : Fin (2 ^ 64) := (rng.word k).toFin

theorem period_injective (rng : SplitMix64) : Function.Injective rng.period := by
  have hgamma : gamma * 0xF1DE83E19937733D#64 = 1#64 := by decide
  intro j k h
  exact add_mul_injective hgamma rng.state (mix_injective (BitVec.toFin_injective h))

/-! ### Draws below a bound -/

section Below

variable {n x : BitVec 64}

theorem toNat_product (x n : BitVec 64) : (product x n).toNat = x.toNat * n.toNat := by
  have hx : x.toNat * n.toNat < 2 ^ 128 := by
    calc x.toNat * n.toNat < 2 ^ 64 * 2 ^ 64 := Nat.mul_lt_mul'' x.isLt n.isLt
      _ = 2 ^ 128 := by decide
  rw [product, BitVec.toNat_mul, BitVec.toNat_setWidth_of_le (by decide),
    BitVec.toNat_setWidth_of_le (by decide), Nat.mod_eq_of_lt hx]

theorem toNat_low (x n : BitVec 64) : (low (product x n)).toNat = x.toNat * n.toNat % 2 ^ 64 := by
  rw [low, BitVec.toNat_setWidth, toNat_product]

theorem toNat_high (x n : BitVec 64) :
    (high (product x n)).toNat = scaled (2 ^ 64) n.toNat x.toNat := by
  have hlt : x.toNat * n.toNat / 2 ^ 64 < 2 ^ 64 := by
    rw [Nat.div_lt_iff_lt_mul (by decide)]
    exact Nat.mul_lt_mul'' x.isLt n.isLt
  rw [high, BitVec.toNat_setWidth, BitVec.toNat_ushiftRight, toNat_product,
    Nat.shiftRight_eq_div_pow, Nat.mod_eq_of_lt hlt, scaled]

theorem pos_of_ne_zero (hn : n ≠ 0) : 0 < n.toNat :=
  Nat.pos_of_ne_zero fun h => hn (BitVec.eq_of_toNat_eq h)

/-- `n.wrapping_neg() % n` is what is left of all words. -/
theorem toNat_threshold (hn : n ≠ 0) : (-n % n).toNat = 2 ^ 64 % n.toNat := by
  have hpos := pos_of_ne_zero hn
  have hlt : 2 ^ 64 - n.toNat < 2 ^ 64 := Nat.sub_lt (by decide) hpos
  rw [BitVec.toNat_umod, BitVec.toNat_neg, Nat.mod_eq_of_lt hlt]
  exact (Nat.mod_eq_sub_mod n.isLt.le).symm

/-- The `k`-th word is not rejected. -/
def Accepts (rng : SplitMix64) (n : BitVec 64) (k : ℕ) : Prop :=
  -n % n ≤ low (product (rng.word k) n)

instance (rng : SplitMix64) (n : BitVec 64) (k : ℕ) : Decidable (rng.Accepts n k) :=
  inferInstanceAs (Decidable (_ ≤ _))

/-- What the `k`-th word is scaled to. -/
def result (rng : SplitMix64) (n : BitVec 64) (k : ℕ) : BitVec 64 := high (product (rng.word k) n)

theorem accepts_iff (rng : SplitMix64) (hn : n ≠ 0) (k : ℕ) :
    rng.Accepts n k ↔ Accepted (2 ^ 64) n.toNat (rng.word k).toNat := by
  rw [Accepts, Accepted, BitVec.le_def, toNat_threshold hn, toNat_low]

/-- Some word of a period is accepted. -/
theorem exists_accepts (rng : SplitMix64) (hn : n ≠ 0) : ∃ k < 2 ^ 64, rng.Accepts n k := by
  obtain ⟨k, hk⟩ := exists_of_period rng.period_injective (show 1 < 2 ^ 64 by decide)
  have hword : (rng.word k).toNat = 1 := hk
  refine ⟨k, k.isLt, (rng.accepts_iff hn k).2 ?_⟩
  rw [hword]
  exact accepted_one (pos_of_ne_zero hn) n.isLt

/-- The loop ends with the first word that is accepted. -/
theorem rejectLoop_eq (rng : SplitMix64) {fuel i k : ℕ} (hk : rng.Accepts n k) (hi : i ≤ k)
    (hbefore : ∀ j < k, i ≤ j → ¬rng.Accepts n j) (hfuel : k < i + fuel) :
    rejectLoop n (-n % n) fuel (product (rng.word i) n) (rng.advance (i + 1)) =
      .ok (rng.result n k, rng.advance (k + 1)) := by
  induction fuel generalizing i with
  | zero => omega
  | succ fuel ih =>
    rw [rejectLoop]
    by_cases heq : i = k
    · subst heq
      rw [if_neg (BitVec.not_lt.2 hk)]
      rfl
    · have hreject : low (product (rng.word i) n) < -n % n :=
        BitVec.not_le.1 (hbefore i (by omega) le_rfl)
      rw [if_pos hreject, nextU64_advance]
      exact ih (by omega) (fun j hj hij => hbefore j hj (by omega)) (by omega)

/-- **`below`** returns what the first accepted word of the period is scaled to. -/
theorem below_eq (rng : SplitMix64) (hn : n ≠ 0) : ∃ k < 2 ^ 64, rng.Accepts n k ∧
    (∀ j < k, ¬rng.Accepts n j) ∧ rng.below n = .ok (rng.result n k, rng.advance (k + 1)) := by
  have hex : ∃ k, rng.Accepts n k := by
    obtain ⟨k, -, hk⟩ := rng.exists_accepts hn
    exact ⟨k, hk⟩
  have hfirst : ∀ j < Nat.find hex, ¬rng.Accepts n j := fun j => Nat.find_min hex
  have hle : Nat.find hex < 2 ^ 64 := by
    obtain ⟨k, hk, haccept⟩ := rng.exists_accepts hn
    exact Nat.lt_of_le_of_lt (Nat.find_min' hex haccept) hk
  refine ⟨Nat.find hex, hle, Nat.find_spec hex, hfirst, ?_⟩
  have hstart : rng.nextU64 = (rng.word 0, rng.advance 1) := by
    rw [← nextU64_advance, advance_zero]
  rw [below, if_neg hn, hstart]
  dsimp only
  split
  · exact rng.rejectLoop_eq (Nat.find_spec hex) (Nat.zero_le _) (fun j hj _ => hfirst j hj)
      (by omega)
  · next hlow =>
    have haccept : rng.Accepts n 0 := by
      rw [rng.accepts_iff hn, Accepted, ← toNat_low]
      exact (Nat.mod_lt _ (pos_of_ne_zero hn)).le.trans (BitVec.not_lt.1 hlow)
    have hzero : Nat.find hex = 0 := Nat.le_zero.1 (Nat.find_min' hex haccept)
    rw [hzero]
    rfl

theorem result_lt (rng : SplitMix64) (hn : n ≠ 0) (k : ℕ) : (rng.result n k).toNat < n.toNat := by
  rw [result, toNat_high]
  exact scaled_lt (pos_of_ne_zero hn) (rng.word k).isLt

/-- **`below`** always returns, with a value below the bound; it is what the first word that is not
rejected is scaled to.  In a period of the generator every value has the same number of words that
are not rejected. -/
theorem below_spec (rng : SplitMix64) (hn : n ≠ 0) :
    (∃ k < 2 ^ 64, rng.Accepts n k ∧ (∀ j < k, ¬rng.Accepts n j) ∧
      rng.below n = .ok (rng.result n k, rng.advance (k + 1))) ∧
    (∀ k, (rng.result n k).toNat < n.toNat) ∧
    ∀ r < n.toNat, (Finset.univ.filter fun k : Fin (2 ^ 64) =>
      rng.Accepts n k ∧ (rng.result n k).toNat = r).card = 2 ^ 64 / n.toNat := by
  refine ⟨rng.below_eq hn, rng.result_lt hn, fun r hr => ?_⟩
  rw [← card_accepted (pos_of_ne_zero hn) (by decide) hr,
    ← card_filter_period rng.period_injective]
  refine congrArg Finset.card (Finset.filter_congr fun k _ => ?_)
  rw [rng.accepts_iff hn, result, toNat_high]
  rfl

theorem below_spec_five :
    (5#64 : BitVec 64) ≠ 0 ∧
    (∃ k < 2 ^ 64, (new 7).Accepts 5 k ∧ (∀ j < k, ¬(new 7).Accepts 5 j) ∧
      (new 7).below 5 = .ok ((new 7).result 5 k, (new 7).advance (k + 1))) ∧
    (∀ k, ((new 7).result 5 k).toNat < 5) ∧
    ∀ r < 5, (Finset.univ.filter fun k : Fin (2 ^ 64) =>
      (new 7).Accepts 5 k ∧ ((new 7).result 5 k).toNat = r).card = 2 ^ 64 / 5 :=
  ⟨by decide, below_spec (new 7) (by decide)⟩

end Below

/-! ### Draws that return -/

theorem below_lt (rng : SplitMix64) {n : BitVec 64} (hn : n ≠ 0) :
    ∃ v rng', rng.below n = .ok (v, rng') ∧ v.toNat < n.toNat := by
  obtain ⟨k, -, -, -, heq⟩ := rng.below_eq hn
  exact ⟨_, _, heq, rng.result_lt hn k⟩

theorem range_lt (rng : SplitMix64) {min max : BitVec 64} (h : min < max) :
    ∃ v rng', rng.range min max = .ok (v, rng') ∧ min.toNat ≤ v.toNat ∧ v.toNat < max.toNat := by
  have hlt : min.toNat < max.toNat := h
  have hwidth : (max - min).toNat = max.toNat - min.toNat := BitVec.toNat_sub_of_le hlt.le
  have hne : max - min ≠ 0 := by
    intro heq
    have hzero : (max - min).toNat = 0 := congrArg BitVec.toNat heq
    omega
  obtain ⟨r, rng', hbelow, hr⟩ := rng.below_lt hne
  refine ⟨min + r, rng', ?_, ?_⟩
  · rw [range, if_pos h, hbelow]
    rfl
  · have hmax := max.isLt
    rw [BitVec.toNat_add, Nat.mod_eq_of_lt (by omega)]
    exact ⟨Nat.le_add_right _ _, by omega⟩

theorem range_zero (rng : SplitMix64) {n : BitVec 64} (h : 0 < n) :
    rng.range 0 n = rng.below n := by
  rw [range, if_pos h, show n - 0 = n from BitVec.sub_zero n]
  cases hbelow : rng.below n with
  | error e => rfl
  | ok r =>
    show Except.ok (0#64 + r.1, r.2) = Except.ok r
    rw [BitVec.zero_add]

theorem nextF64_lt_one (rng : SplitMix64) : rng.nextF64.1 < 1 := by
  have hbits : (rng.nextU64.1 >>> 11).toNat < 2 ^ 53 := by
    rw [BitVec.toNat_ushiftRight, Nat.shiftRight_eq_div_pow]
    exact Nat.div_lt_of_lt_mul rng.nextU64.1.isLt
  show ((rng.nextU64.1 >>> 11).toNat : ℚ) / 2 ^ 53 < 1
  rw [div_lt_one₀ (by norm_num)]
  exact_mod_cast hbits

end SplitMix64

theorem unassignedProbs_bounds {i : ℕ} (hi : i < 3) : ∃ p, unassignedProbs[i]? = some p ∧ 0 ≤ p ∧
    p ≤ 1 := by
  have hall : ∀ p ∈ unassignedProbs, 0 ≤ p ∧ p ≤ 1 := by
    intro p hp
    rw [unassignedProbs, List.mem_cons, List.mem_cons, List.mem_singleton] at hp
    obtain rfl | rfl | rfl := hp <;> norm_num
  have hsome : unassignedProbs[i]? = some unassignedProbs[i] := List.getElem?_eq_getElem hi
  exact ⟨_, hsome, hall _ (List.getElem_mem hi)⟩

/-- The parameters that are drawn pass the assertions of `random_map`. -/
theorem RandomMapParams.draw_admissible (rng : SplitMix64) :
    ∃ params rng', draw rng = .ok (params, rng') ∧ params.Admissible ∧
      params.numLeaves.toNat < 40 ∧ params.maxAsn.toNat < 40 := by
  have hrange : (1 : BitVec 64) < 40 := by decide
  have hcast : ∀ v : BitVec 64, (40 : BitVec 64).toNat > v.toNat →
      (v.setWidth 32).toNat = v.toNat := by
    intro v hv
    have hlt : v.toNat < 40 := hv
    rw [BitVec.toNat_setWidth, Nat.mod_eq_of_lt (by omega)]
  obtain ⟨numLeaves, rng₁, hleaves, hleavesPos, hleavesLt⟩ := rng.range_lt hrange
  obtain ⟨maxAsn, rng₂, hmax, hmaxPos, hmaxLt⟩ := rng₁.range_lt hrange
  obtain ⟨prob, rng₃, hbelow, hprob⟩ := rng₂.below_lt (show (3 : BitVec 64) ≠ 0 by decide)
  obtain ⟨p, hp, hp0, hp1⟩ := unassignedProbs_bounds hprob
  refine ⟨⟨numLeaves.setWidth 32, maxAsn.setWidth 32, p⟩, rng₃, ?_, ⟨?_, .inl ?_, hp0, hp1⟩, ?_, ?_⟩
  · rw [draw, bind_ok hleaves]
    dsimp only
    rw [bind_ok hmax]
    dsimp only
    rw [bind_ok hbelow]
    dsimp only
    rw [hp]
    rfl
  · rw [hcast _ hleavesLt]
    exact hleavesPos
  · rw [hcast _ hmaxLt]
    exact hmaxPos
  · rw [hcast _ hleavesLt]
    exact hleavesLt
  · rw [hcast _ hmaxLt]
    exact hmaxLt

/-- A seed makes a map of parameters that pass the assertions. -/
theorem randomMapFromSeed_eq (seed : BitVec 64) :
    ∃ params rng, RandomMapParams.draw (.new seed) = .ok (params, rng) ∧ params.Admissible ∧
      randomMapFromSeed seed = (randomMap rng params).map fun r => (r.1, params) := by
  obtain ⟨params, rng, hdraw, hadmissible, -, -⟩ := RandomMapParams.draw_admissible (.new seed)
  refine ⟨params, rng, hdraw, hadmissible, ?_⟩
  rw [randomMapFromSeed, bind_ok hdraw]
  dsimp only
  cases randomMap rng params with
  | error e => rfl
  | ok r => rfl

/-! ### Taking a leaf -/

/-- The leaf and those that stay are the leaves there were. -/
theorem takeLeaf_perm {α : Type} {leaves : List α} {idx : ℕ} (h : idx < leaves.length) :
    ∃ leaf rest, takeLeaf leaves leaves.length idx = some (leaf, rest) ∧
    leaves.Perm (leaf :: rest) := by
  obtain ⟨init, last, rfl⟩ :=
    List.eq_nil_or_concat' leaves |>.resolve_left (List.ne_nil_of_length_pos (by omega))
  rw [List.length_append, List.length_singleton] at h ⊢
  by_cases hidx : idx < init.length
  · refine ⟨init[idx], init.set idx last, ?_, ?_⟩
    · rw [takeLeaf, List.getElem?_append_left hidx, List.getElem?_eq_getElem hidx,
        List.getLast?_concat, List.dropLast_concat]
      simp only [bind, Option.bind, pure, if_pos (Nat.succ_lt_succ hidx)]
    · calc List.Perm (init ++ [last]) (last :: init) := List.perm_append_comm
        List.Perm _ (last :: init[idx] :: init.eraseIdx idx) :=
          (List.getElem_cons_eraseIdx_perm hidx).symm.cons last
        List.Perm _ (init[idx] :: last :: init.eraseIdx idx) := .swap ..
        List.Perm _ (init[idx] :: init.set idx last) :=
          (List.set_perm_cons_eraseIdx hidx last).symm.cons _
  · obtain rfl : idx = init.length := by omega
    refine ⟨last, init, ?_, List.perm_append_comm⟩
    rw [takeLeaf, List.getElem?_concat_length, List.getLast?_concat, List.dropLast_concat]
    simp only [bind, Option.bind, pure, if_neg (Nat.lt_irrefl _)]

end AsmapQuorum

import Mathlib.Data.List.Basic
import Mathlib.Data.Nat.Log
import Mathlib.Tactic.Ring

/-!
# Numerals: positional digits, and their text

* `value b ds` — the number the digits `ds` stand for in base `b`, most significant first.
* `fixed b k n` — the lowest `k` digits of `n`; `value_fixed` reads them back, `fixed_value` writes
  them again.
* `readNumber` — a reader of a numeral at the head of a text, with a bound on the number of digits
  and on the value; `readNumber_toDigits` reads back what `Nat.toDigits` wrote.
* `parseUnsigned` — a whole text as a bounded number: `parseUnsigned_eq_some` says that it reads
  digits with at most a `+` in front; `parseUnsigned_toDigits`, from which different numbers have
  different texts (`toDigits_injective`).
* `mem_of_readNumber`, `notMem_of_parseUnsigned` — what is no digit is not read.
-/

namespace Numeral

/-! ### Positional digits -/

/-- One more digit at the low end. -/
def push (b acc d : ℕ) : ℕ := acc * b + d

/-- The value of digits, most significant first. -/
def value (b : ℕ) (ds : List ℕ) : ℕ := ds.foldl (push b) 0

/-- The lowest `k` digits of `n` in base `b`, most significant first. -/
def fixed (b : ℕ) : ℕ → ℕ → List ℕ
  | 0, _ => []
  | k + 1, n => n / b ^ k % b :: fixed b k n

@[simp] theorem length_fixed (b k n : ℕ) : (fixed b k n).length = k := by
  induction k with
  | zero => rfl
  | succ k ih => rw [fixed, List.length_cons, ih]

theorem lt_of_mem_fixed {b k n d : ℕ} (hb : 0 < b) (h : d ∈ fixed b k n) : d < b := by
  induction k with
  | zero => cases h
  | succ k ih =>
    rw [fixed, List.mem_cons] at h
    rcases h with rfl | h
    · exact Nat.mod_lt _ hb
    · exact ih h

theorem foldl_push_fixed (b k n acc : ℕ) :
    (fixed b k n).foldl (push b) acc = acc * b ^ k + n % b ^ k := by
  induction k generalizing acc with
  | zero => simp [fixed, Nat.mod_one]
  | succ k ih =>
    rw [fixed, List.foldl_cons, ih, push, Nat.mod_pow_succ]
    ring

/-- **The lowest `k` digits give the number back modulo `b ^ k`.** -/
theorem value_fixed (b k n : ℕ) : value b (fixed b k n) = n % b ^ k := by
  rw [value, foldl_push_fixed, Nat.zero_mul, Nat.zero_add]

theorem foldl_push_eq (b acc : ℕ) (ds : List ℕ) :
    ds.foldl (push b) acc = acc * b ^ ds.length + value b ds := by
  induction ds generalizing acc with
  | nil => simp [value]
  | cons d ds ih =>
    have hvalue : value b (d :: ds) = push b 0 d * b ^ ds.length + value b ds := by
      rw [value, List.foldl_cons, ih]
    rw [List.foldl_cons, ih, hvalue, push, push, List.length_cons]
    ring

theorem value_cons (b d : ℕ) (ds : List ℕ) :
    value b (d :: ds) = d * b ^ ds.length + value b ds := by
  rw [value, List.foldl_cons, foldl_push_eq, push, Nat.zero_mul, Nat.zero_add]

theorem value_lt {b : ℕ} {ds : List ℕ} (h : ∀ d ∈ ds, d < b) : value b ds < b ^ ds.length := by
  induction ds with
  | nil => exact Nat.one_pos
  | cons d ds ih =>
    rw [List.forall_mem_cons] at h
    have hv := ih h.2
    have hd : (d + 1) * b ^ ds.length ≤ b * b ^ ds.length := Nat.mul_le_mul_right _ h.1
    rw [value_cons, List.length_cons, Nat.pow_succ, Nat.mul_comm _ b]
    rw [Nat.succ_mul] at hd
    omega

/-- **The lowest digits of a number** that digits stand for are these digits. -/
theorem fixed_value {b : ℕ} {ds : List ℕ} (h : ∀ d ∈ ds, d < b) :
    fixed b ds.length (value b ds) = ds := by
  have hlow : ∀ acc, fixed b ds.length (acc * b ^ ds.length + value b ds) = ds := by
    induction ds with
    | nil => exact fun _ => rfl
    | cons d ds ih =>
      intro acc
      rw [List.forall_mem_cons] at h
      have hsum : acc * b ^ (ds.length + 1) + value b (d :: ds) =
          (acc * b + d) * b ^ ds.length + value b ds := by
        rw [value_cons]
        ring
      have hdiv : ((acc * b + d) * b ^ ds.length + value b ds) / b ^ ds.length = acc * b + d := by
        have hlt := value_lt h.2
        rw [Nat.mul_comm, Nat.mul_add_div (by omega), Nat.div_eq_of_lt hlt, Nat.add_zero]
      rw [List.length_cons, hsum, fixed, hdiv, ih h.2, Nat.mul_add_mod', Nat.mod_eq_of_lt h.1]
  have hvalue := hlow 0
  rwa [Nat.zero_mul, Nat.zero_add] at hvalue

theorem value_replicate_zero_append (b k : ℕ) (ds : List ℕ) :
    value b (List.replicate k 0 ++ ds) = value b ds := by
  induction k with
  | zero => rfl
  | succ k ih => rw [List.replicate_succ, List.cons_append, value_cons, ih, Nat.zero_mul,
    Nat.zero_add]

/-! ### Digits in text -/

/-- The digit a character is, below the radix. -/
def toDigit (radix : ℕ) (c : Char) : Option ℕ :=
  let d := if '0' ≤ c ∧ c ≤ '9' then some (c.toNat - '0'.toNat)
    else if 'a' ≤ c ∧ c ≤ 'z' then some (c.toNat - 'a'.toNat + 10)
    else if 'A' ≤ c ∧ c ≤ 'Z' then some (c.toNat - 'A'.toNat + 10)
    else none
  d.filter (· < radix)

theorem toDigit_digitChar {radix d : ℕ} (hd : d < radix) (hr : radix ≤ 16) :
    toDigit radix d.digitChar = some d := by
  have hall : ∀ d < 16, toDigit 16 d.digitChar = some d := by decide
  have h := hall d (by omega)
  unfold toDigit at h ⊢
  rw [Option.filter_eq_some_iff] at h ⊢
  exact ⟨h.1, decide_eq_true hd⟩

/-- The digits of a text are folded from the left, at most `maxDigits` of them; the reader stops in
front of the first other character. -/
def readDigits (radix maxDigits : ℕ) : List Char → ℕ → ℕ → Option (ℕ × ℕ × List Char)
  | [], count, result => some (count, result, [])
  | c :: rest, count, result =>
    match toDigit radix c with
    | some d =>
      if count + 1 > maxDigits then none
      else readDigits radix maxDigits rest (count + 1) (push radix result d)
    | none => some (count, result, c :: rest)

/-- A numeral at the head of a text: at least one and at most `maxDigits` digits, a value below
`bound`, and no superfluous leading zero unless `allowZero`. -/
def readNumber (radix maxDigits : ℕ) (allowZero : Bool) (bound : ℕ) (s : List Char) :
    Option (ℕ × List Char) :=
  match readDigits radix maxDigits s 0 0 with
  | none => none
  | some (count, result, rest) =>
    if count = 0 then none
    else if !allowZero && s.head? == some '0' && count > 1 then none
    else if result < bound then some (result, rest) else none

/-- The text does not start with a digit. -/
def Stops (radix : ℕ) (s : List Char) : Prop := ∀ c ∈ s.head?, toDigit radix c = none

theorem readDigits_of_stops {radix maxDigits : ℕ} {s : List Char} (h : Stops radix s)
    (count result : ℕ) : readDigits radix maxDigits s count result = some (count, result, s) := by
  cases s with
  | nil => rfl
  | cons c s => rw [readDigits, h c rfl]

theorem readNumber_of_stops {radix maxDigits bound : ℕ} {allowZero : Bool} {s : List Char}
    (h : Stops radix s) : readNumber radix maxDigits allowZero bound s = none := by
  rw [readNumber, readDigits_of_stops h]
  rfl

/-- Reading a written numeral, in front of any text. -/
theorem readDigits_toDigits {radix : ℕ} (h₁ : 1 < radix) (h₂ : radix ≤ 16) {maxDigits : ℕ} (n : ℕ)
    {count : ℕ} (h : count + (Nat.toDigits radix n).length ≤ maxDigits) (s : List Char) (acc : ℕ) :
    readDigits radix maxDigits (Nat.toDigits radix n ++ s) count acc =
      readDigits radix maxDigits s (count + (Nat.toDigits radix n).length)
        (acc * radix ^ (Nat.toDigits radix n).length + n) := by
  induction n using Nat.strong_induction_on generalizing s with
  | _ n ih =>
    by_cases hn : n < radix
    · rw [Nat.toDigits_of_lt_base hn] at h ⊢
      simp only [List.length_singleton] at h ⊢
      rw [List.singleton_append, readDigits, toDigit_digitChar hn h₂]
      simp only [push, pow_one]
      rw [if_neg (by omega)]
    · have hle : radix ≤ n := Nat.le_of_not_lt hn
      have hmod : n % radix < radix := Nat.mod_lt n (by omega)
      rw [Nat.toDigits_of_base_le h₁ hle] at h ⊢
      rw [List.length_append, List.length_singleton] at h ⊢
      rw [List.append_assoc, ih (n / radix) (Nat.div_lt_self (by omega) h₁) (by omega),
        List.singleton_append, readDigits, toDigit_digitChar hmod h₂]
      have hval : push radix (acc * radix ^ (Nat.toDigits radix (n / radix)).length + n / radix)
          (n % radix) = acc * radix ^ ((Nat.toDigits radix (n / radix)).length + 1) + n := by
        calc push radix (acc * radix ^ (Nat.toDigits radix (n / radix)).length + n / radix)
              (n % radix)
            = acc * radix ^ ((Nat.toDigits radix (n / radix)).length + 1)
                + (radix * (n / radix) + n % radix) := by
              rw [push]
              ring
          _ = _ := by rw [Nat.div_add_mod]
      simp only [hval]
      rw [if_neg (by omega), Nat.add_assoc]

theorem head?_toDigits_ne_zero {radix n : ℕ} (h₁ : 1 < radix) (hn : n ≠ 0) :
    (Nat.toDigits radix n).head? ≠ some '0' := by
  induction n using Nat.strong_induction_on with
  | _ n ih =>
    by_cases h : n < radix
    · rw [Nat.toDigits_of_lt_base h]
      simp [hn]
    · have hle : radix ≤ n := Nat.le_of_not_lt h
      rw [Nat.toDigits_of_base_le h₁ hle, List.head?_append_of_ne_nil _ Nat.toDigits_ne_nil]
      exact ih (n / radix) (Nat.div_lt_self (by omega) h₁)
        (Nat.pos_iff_ne_zero.1 (Nat.div_pos hle (by omega)))

/-- **A written numeral is read back**, and the reader stops right behind it. -/
theorem readNumber_toDigits {radix maxDigits bound : ℕ} {allowZero : Bool} {n : ℕ} {s : List Char}
    (h₁ : 1 < radix) (h₂ : radix ≤ 16) (hm : 0 < maxDigits) (hn : n < radix ^ maxDigits)
    (hb : n < bound) (hs : Stops radix s) :
    readNumber radix maxDigits allowZero bound (Nat.toDigits radix n ++ s) = some (n, s) := by
  have hlen : (Nat.toDigits radix n).length ≤ maxDigits := (Nat.length_toDigits_le_iff h₁ hm).2 hn
  have hpos : (Nat.toDigits radix n).length ≠ 0 := Nat.length_toDigits_pos.ne'
  have hzero : (!allowZero && (Nat.toDigits radix n ++ s).head? == some '0' &&
      (Nat.toDigits radix n).length > 1) = false := by
    by_cases h : n = 0
    · subst h
      simp
    · rw [List.head?_append_of_ne_nil _ Nat.toDigits_ne_nil]
      simp [head?_toDigits_ne_zero h₁ h]
  rw [readNumber, readDigits_toDigits h₁ h₂ n (by omega), readDigits_of_stops hs]
  simp only [Nat.zero_add, Nat.zero_mul, hzero, hpos, if_false, Bool.false_eq_true, if_pos hb]

/-- What a successful reader leaves is a suffix of what it got. -/
theorem suffix_of_readDigits {radix maxDigits : ℕ} {s rest : List Char} {count result c r : ℕ}
    (h : readDigits radix maxDigits s count result = some (c, r, rest)) : rest <:+ s := by
  induction s generalizing count result with
  | nil =>
    cases h
    exact List.suffix_rfl
  | cons x s ih =>
    rw [readDigits] at h
    split at h
    · split at h
      · cases h
      · exact (ih h).trans (List.suffix_cons x s)
    · cases h
      exact List.suffix_rfl

theorem suffix_of_readNumber {radix maxDigits bound : ℕ} {allowZero : Bool} {s rest : List Char}
    {n : ℕ} (h : readNumber radix maxDigits allowZero bound s = some (n, rest)) : rest <:+ s := by
  rw [readNumber] at h
  split at h
  · cases h
  · next hread =>
    split at h
    · cases h
    · split at h
      · cases h
      · split at h
        · cases h
          exact suffix_of_readDigits hread
        · cases h

/-- A character that is no digit is left behind. -/
theorem mem_of_readDigits {radix maxDigits : ℕ} {x : Char} (hx : toDigit radix x = none)
    {s rest : List Char} {count result c r : ℕ}
    (h : readDigits radix maxDigits s count result = some (c, r, rest)) (hmem : x ∈ s) :
    x ∈ rest := by
  induction s generalizing count result with
  | nil => cases hmem
  | cons y s ih =>
    rw [readDigits] at h
    split at h
    · next d hd =>
      split at h
      · cases h
      · refine ih h ((List.mem_cons.1 hmem).resolve_left ?_)
        rintro rfl
        rw [hx] at hd
        cases hd
    · cases h
      exact hmem

theorem mem_of_readNumber {radix maxDigits bound : ℕ} {allowZero : Bool} {x : Char}
    (hx : toDigit radix x = none) {s rest : List Char} {n : ℕ}
    (h : readNumber radix maxDigits allowZero bound s = some (n, rest)) (hmem : x ∈ s) :
    x ∈ rest := by
  rw [readNumber] at h
  split at h
  · cases h
  · next hread =>
    split at h
    · cases h
    · split at h
      · cases h
      · split at h
        · cases h
          exact mem_of_readDigits hx hread hmem
        · cases h

/-- What is no digit of a base is none of a smaller one. -/
theorem toDigit_eq_none_of_le {radix radix' : ℕ} (h : radix ≤ radix') {x : Char}
    (hx : toDigit radix' x = none) : toDigit radix x = none := by
  unfold toDigit at hx ⊢
  rw [Option.filter_eq_none_iff] at hx ⊢
  intro d hd hlt
  exact hx d hd (decide_eq_true ((of_decide_eq_true hlt).trans_le h))

/-! ### A whole text -/

/-- Folds digits from the left; fails on any other character and as soon as the bound is reached. -/
def unsignedLoop (bound : ℕ) : List Char → ℕ → Option ℕ
  | [], acc => some acc
  | c :: rest, acc =>
    match toDigit 10 c with
    | some d => if push 10 acc d < bound then unsignedLoop bound rest (push 10 acc d) else none
    | none => none

/-- A decimal number below `bound`, with an optional `+` in front. -/
def parseUnsigned (bound : ℕ) (s : List Char) : Option ℕ :=
  match s with
  | [] => none
  | ['+'] => none
  | '+' :: rest => unsignedLoop bound rest 0
  | _ => unsignedLoop bound s 0

theorem unsignedLoop_toDigits {bound : ℕ} (n : ℕ) (h : n < bound) (s : List Char) :
    unsignedLoop bound (Nat.toDigits 10 n ++ s) 0 = unsignedLoop bound s n := by
  induction n using Nat.strong_induction_on generalizing s with
  | _ n ih =>
    by_cases hn : n < 10
    · rw [Nat.toDigits_of_lt_base hn, List.singleton_append, unsignedLoop,
        toDigit_digitChar hn (by decide)]
      simp only [push, Nat.zero_mul, Nat.zero_add, if_pos h]
    · have hval : push 10 (n / 10) (n % 10) = n := by rw [push, Nat.div_add_mod']
      rw [Nat.toDigits_of_base_le (by decide) (Nat.le_of_not_lt hn), List.append_assoc,
        ih (n / 10) (by omega) (by omega), List.singleton_append, unsignedLoop,
        toDigit_digitChar (Nat.mod_lt n (by decide)) (by decide)]
      simp only [hval, if_pos h]

theorem notMem_of_unsignedLoop {bound : ℕ} {x : Char} (hx : toDigit 10 x = none) {s : List Char}
    {acc n : ℕ} (h : unsignedLoop bound s acc = some n) : x ∉ s := by
  induction s generalizing acc with
  | nil => exact List.not_mem_nil
  | cons y s ih =>
    rw [unsignedLoop] at h
    split at h
    · next d hd =>
      split at h
      · refine List.not_mem_cons_of_ne_of_not_mem ?_ (ih h)
        rintro rfl
        rw [hx] at hd
        cases hd
      · cases h
    · cases h

/-- A number is written with digits and at most a `+`. -/
theorem notMem_of_parseUnsigned {bound : ℕ} {x : Char} (hx : toDigit 10 x = none) (hplus : x ≠ '+')
    {s : List Char} {n : ℕ} (h : parseUnsigned bound s = some n) : x ∉ s := by
  unfold parseUnsigned at h
  split at h
  · cases h
  · cases h
  · exact List.not_mem_cons_of_ne_of_not_mem hplus (notMem_of_unsignedLoop hx h)
  · exact notMem_of_unsignedLoop hx h

/-- One or more decimal digits, most significant first; zeros in front do not count. -/
def Decimal (s : List Char) (n : ℕ) : Prop :=
  ∃ ds, ds ≠ [] ∧ (∀ d ∈ ds, d < 10) ∧ s = ds.map Nat.digitChar ∧ value 10 ds = n

theorem le_foldl_push (ds : List ℕ) (acc : ℕ) : acc ≤ ds.foldl (push 10) acc := by
  rw [foldl_push_eq]
  exact Nat.le_add_right_of_le (Nat.le_mul_of_pos_right acc (Nat.pow_pos (by decide)))

theorem toDigit_eq_some {c : Char} {d : ℕ} : toDigit 10 c = some d ↔ d < 10 ∧
    c = Nat.digitChar d := by
  constructor
  · intro h
    unfold toDigit at h
    dsimp only at h
    rw [Option.filter_eq_some_iff] at h
    obtain ⟨h, hlt⟩ := h
    have hlt : d < 10 := of_decide_eq_true hlt
    split at h
    · next hc =>
      obtain rfl := Option.some.inj h
      have hsub : c.toNat - 48 < 10 := hlt
      have hle : 48 ≤ c.toNat := hc.1
      have hall : ∀ k < 10, Char.ofNat (k + 48) = Nat.digitChar k := by decide
      have hchar := hall _ hsub
      rw [Nat.sub_add_cancel hle, Char.ofNat_toNat] at hchar
      exact ⟨hlt, hchar⟩
    · split at h
      · cases h; omega
      · split at h
        · cases h; omega
        · cases h
  · rintro ⟨hd, rfl⟩
    exact toDigit_digitChar hd (by decide)

/-- The loop reads digits, and no number that reaches the bound. -/
theorem unsignedLoop_eq_some {bound : ℕ} {s : List Char} {acc n : ℕ} :
    unsignedLoop bound s acc = some n ↔
      ∃ ds, (∀ d ∈ ds, d < 10) ∧ s = ds.map Nat.digitChar ∧ ds.foldl (push 10) acc = n ∧
        (ds = [] ∨ n < bound) := by
  induction s generalizing acc with
  | nil =>
    rw [unsignedLoop]
    constructor
    · rintro h
      cases h
      exact ⟨[], by simp, rfl, rfl, .inl rfl⟩
    · rintro ⟨ds, -, hs, rfl, -⟩
      rw [List.map_eq_nil_iff.1 hs.symm]
      rfl
  | cons c s ih =>
    rw [unsignedLoop]
    constructor
    · intro h
      split at h
      · next d hd =>
        obtain ⟨hlt, rfl⟩ := toDigit_eq_some.1 hd
        split at h
        · next hbound =>
          obtain ⟨ds, hds, rfl, rfl, hn⟩ := ih.1 h
          refine ⟨d :: ds, List.forall_mem_cons.2 ⟨hlt, hds⟩, rfl, rfl, .inr ?_⟩
          rcases hn with rfl | hn
          · exact hbound
          · exact hn
        · cases h
      · cases h
    · rintro ⟨ds, hds, hs, rfl, hn⟩
      cases ds with
      | nil => cases hs
      | cons d ds =>
        obtain ⟨rfl, rfl⟩ := List.cons.inj hs
        rw [List.forall_mem_cons] at hds
        have hn : ds.foldl (push 10) (push 10 acc d) < bound :=
          hn.resolve_left (List.cons_ne_nil _ _)
        rw [toDigit_eq_some.2 ⟨hds.1, rfl⟩]
        dsimp only
        rw [if_pos ((le_foldl_push ds _).trans_lt hn)]
        exact ih.2 ⟨ds, hds.2, rfl, rfl, .inr hn⟩

theorem not_decimal_plus (s : List Char) (n : ℕ) : ¬Decimal ('+' :: s) n := by
  rintro ⟨ds, -, hds, hs, -⟩
  have hmem : '+' ∈ ds.map Nat.digitChar := by
    rw [← hs]
    exact List.mem_cons_self ..
  obtain ⟨d, hd, heq⟩ := List.mem_map.1 hmem
  exact (by decide : ∀ d < 10, Nat.digitChar d ≠ '+') d (hds d hd) heq

theorem not_decimal_nil (n : ℕ) : ¬Decimal [] n := by
  rintro ⟨ds, hne, -, hs, -⟩
  exact hne (List.map_eq_nil_iff.1 hs.symm)

/-- **What is parsed**: digits of a number below the bound, with at most a `+` in front. -/
theorem parseUnsigned_eq_some {bound : ℕ} {s : List Char} {n : ℕ} :
    parseUnsigned bound s = some n ↔
      n < bound ∧ ∃ digits, Decimal digits n ∧ (s = digits ∨ s = '+' :: digits) := by
  have hloop : ∀ {s : List Char}, s ≠ [] → (unsignedLoop bound s 0 = some n ↔ n < bound ∧
    Decimal s n) := by
    intro s hs
    rw [unsignedLoop_eq_some]
    constructor
    · rintro ⟨ds, hds, rfl, hval, hn⟩
      have hne : ds ≠ [] := fun hnil => hs (by rw [hnil]; rfl)
      exact ⟨hn.resolve_left hne, ds, hne, hds, rfl, hval⟩
    · rintro ⟨hn, ds, -, hds, rfl, hval⟩
      exact ⟨ds, hds, rfl, hval, .inr hn⟩
  unfold parseUnsigned
  split
  · refine iff_of_false (fun h => by cases h) ?_
    rintro ⟨-, digits, hdigits, rfl | hs⟩
    · exact not_decimal_nil n hdigits
    · cases hs
  · refine iff_of_false (fun h => by cases h) ?_
    rintro ⟨-, digits, hdigits, rfl | hs⟩
    · exact not_decimal_plus [] n hdigits
    · cases hs
      exact not_decimal_nil n hdigits
  · next rest hrest =>
    rw [hloop fun hempty => hrest (by rw [hempty])]
    refine and_congr_right fun _ => ⟨fun h => ⟨rest, h, .inr rfl⟩, ?_⟩
    rintro ⟨digits, hdigits, rfl | hs⟩
    · exact absurd hdigits (not_decimal_plus rest n)
    · cases hs
      exact hdigits
  · next hne _ hsign =>
    rw [hloop hne]
    refine and_congr_right fun _ => ⟨fun h => ⟨s, h, .inl rfl⟩, ?_⟩
    rintro ⟨digits, hdigits, rfl | hs⟩
    · exact hdigits
    · exact (hsign digits hs).elim

/-- **A written number is parsed back.** -/
theorem parseUnsigned_toDigits {bound n : ℕ} (h : n < bound) :
    parseUnsigned bound (Nat.toDigits 10 n) = some n := by
  have hloop : unsignedLoop bound (Nat.toDigits 10 n) 0 = some n := by
    have := unsignedLoop_toDigits n h []
    rwa [List.append_nil] at this
  have hdigit : ∀ c ∈ Nat.toDigits 10 n, c ≠ '+' := by
    rintro c hc rfl
    exact absurd (Nat.isDigit_of_mem_toDigits (by decide) (by decide) hc) (by decide)
  unfold parseUnsigned
  split
  · next hnil => exact absurd hnil Nat.toDigits_ne_nil
  · next hplus => exact absurd rfl (hdigit '+' (by rw [hplus]; simp))
  · next hplus => exact absurd rfl (hdigit '+' (by rw [hplus]; simp))
  · exact hloop

/-- Different numbers are written differently. -/
theorem toDigits_injective : Function.Injective (Nat.toDigits 10) := by
  intro m n h
  have hm := parseUnsigned_toDigits (show m < m + n + 1 by omega)
  have hn := parseUnsigned_toDigits (show n < m + n + 1 by omega)
  rw [h, hn] at hm
  exact (Option.some.inj hm).symm

end Numeral

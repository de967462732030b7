import Mathlib.Algebra.BigOperators.Group.List.Lemmas
import Mathlib.Algebra.GroupWithZero.Nat
import Mathlib.Data.List.AList

/-!
# Finite maps that keep the better value

Finite maps are Mathlib's `AList`.  The file adds the two operations dynamic programs and tallies
are written with, and how they act on lookups:

* `retain keep m` — the entries that pass a test (`lookup_retain`);
* `offer better m k v` — `v` becomes the value of `k` if `k` has none or `v` is better
  (`eq_or_of_lookup_offer`, `mem_offer`);
* `offerM` — an offer whose value is computed and may fail; a list of them that cannot fail keeps
  every property of values that all the offered ones have (`foldlM_offerM`);
* `Same m n` — the two maps have the same lookups; a lookup sees the offers for its own key only, in
  their order (`lookup_foldlM_offerM`);
* `Within size m k n` — the value of `k` has at most that size; where the smaller value is the
  better one, it is no larger than any that was offered (`Within.of_mem`);
* `bump m k` — one more for `k`, and for the `total` of all counts; after a list of keys every key
  counts its occurrences in it (`count_foldl_bump`);
* `insertSome f m c` — what `f` makes of the value of `c` becomes the value of its key, so that a
  loop over the entries of a map makes another one of it (`IterOrder.lookup_foldl_insertSome`);
* `push m (k, v)` — `v` is added to the values of `k`; after a list of pairs every key has the
  values listed for it, in their order (`lookup_foldl_push`), and as many as there are pairs
  (`IterOrder.sum_length_push`);
* `add m (k, n)` — `n` more for `k` (`count_foldl_add`);
* `IterOrder` — an order in which the entries of each map are visited.  Nothing may depend on it:
  two orders visit the same entries (`IterOrder.perm_of_lookup_eq`), and **the best offers are the
  same in every order** (`lookup_foldl_offer`).  What does depend on it shows where one key comes
  last (`IterOrder.lastly`).
-/

namespace FiniteMap

variable {κ ν : Type*} [DecidableEq κ]

/-- A finite map from `κ` to `ν`. -/
abbrev Map (κ ν : Type*) := AList fun _ : κ => ν

/-! ### Retaining -/

/-- The entries that pass the test. -/
def retain (keep : κ → ν → Bool) (m : Map κ ν) : Map κ ν :=
  ⟨m.entries.filter fun e => keep e.1 e.2,
    List.NodupKeys.sublist List.filter_sublist m.nodupKeys⟩

@[simp] theorem lookup_retain (keep : κ → ν → Bool) (m : Map κ ν) (k : κ) :
    (retain keep m).lookup k = (m.lookup k).filter (keep k) := by
  ext v
  have hmem : ∀ {m : Map κ ν}, m.lookup k = some v ↔ (⟨k, v⟩ : Sigma fun _ => ν) ∈ m.entries :=
    fun {m} => AList.mem_lookup_iff
  rw [hmem, Option.filter_eq_some_iff, hmem]
  exact List.mem_filter

theorem exists_lookup {m : Map κ ν} {k : κ} (h : k ∈ m) : ∃ v, m.lookup k = some v :=
  Option.isSome_iff_exists.1 (AList.lookup_isSome.2 h)

theorem mem_of_lookup {m : Map κ ν} {k : κ} {v : ν} (h : m.lookup k = some v) : k ∈ m :=
  AList.lookup_isSome.1 (by rw [h]; rfl)

theorem mem_of_mem_retain {keep : κ → ν → Bool} {m : Map κ ν} {k : κ} (h : k ∈ retain keep m) :
    k ∈ m := by
  obtain ⟨v, hv⟩ := exists_lookup h
  rw [lookup_retain, Option.filter_eq_some_iff] at hv
  exact mem_of_lookup hv.1

theorem mem_retain {keep : κ → ν → Bool} {m : Map κ ν} {k : κ} (h : k ∈ m)
    (hkeep : ∀ v, keep k v = true) : k ∈ retain keep m := by
  obtain ⟨v, hv⟩ := exists_lookup h
  exact mem_of_lookup (v := v) (by rw [lookup_retain, hv, Option.filter_some, if_pos (hkeep v)])

omit [DecidableEq κ] in
@[simp] theorem mem_singleton {k k' : κ} {v : ν} :
    k' ∈ (AList.singleton k v : Map κ ν) ↔ k' = k := by
  rw [AList.mem_keys, AList.keys_singleton, List.mem_singleton]

@[simp] theorem lookup_singleton (k k' : κ) (v : ν) :
    (AList.singleton k v : Map κ ν).lookup k' = if k = k' then some v else none := by
  rw [← AList.insert_empty]
  split
  · next hk =>
    rw [hk, AList.lookup_insert]
  · next hk =>
    rw [AList.lookup_insert_ne (Ne.symm hk), AList.lookup_empty]

/-! ### Offering -/

/-- `v` for the key `k`, unless a value that `v` does not beat is there. -/
def offer (better : ν → ν → Bool) (m : Map κ ν) (k : κ) (v : ν) : Map κ ν :=
  match m.lookup k with
  | some old => if better v old then m.insert k v else m
  | none => m.insert k v

theorem eq_or_of_lookup_insert {m : Map κ ν} {k k' : κ} {v w : ν}
    (h : (m.insert k v).lookup k' = some w) : (k' = k ∧ w = v) ∨ m.lookup k' = some w := by
  by_cases hk : k' = k
  · subst hk
    rw [AList.lookup_insert, Option.some.injEq] at h
    exact .inl ⟨rfl, h.symm⟩
  · rw [AList.lookup_insert_ne hk] at h
    exact .inr h

/-- What is found after an offer was offered or was there. -/
theorem eq_or_of_lookup_offer {better : ν → ν → Bool} {m : Map κ ν} {k k' : κ} {v w : ν}
    (h : (offer better m k v).lookup k' = some w) : (k' = k ∧ w = v) ∨ m.lookup k' = some w := by
  unfold offer at h
  split at h
  · split at h
    · exact eq_or_of_lookup_insert h
    · exact .inr h
  · exact eq_or_of_lookup_insert h

theorem mem_offer {better : ν → ν → Bool} {m : Map κ ν} {k k' : κ} {v : ν} :
    k' ∈ offer better m k v ↔ k' = k ∨ k' ∈ m := by
  unfold offer
  split
  · next old hold =>
    have hk : k ∈ m := AList.lookup_isSome.1 (by rw [hold]; rfl)
    split
    · exact AList.mem_insert m
    · constructor
      · exact .inr
      · rintro (rfl | h)
        · exact hk
        · exact h
  · exact AList.mem_insert m

/-! ### Offers that may fail -/

variable {α ε : Type*}

/-- Computes a value for a key and offers it. -/
def offerM (better : ν → ν → Bool) (make : α → Except ε ν) (m : Map κ ν) (c : κ × α) :
    Except ε (Map κ ν) :=
  (make c.2).map (offer better m c.1)

/-- **Offers that cannot fail**: the keys are those that were there and those offered, and what all
offered values have in common with those that were there, all values have. -/
theorem foldlM_offerM (better : ν → ν → Bool) (make : α → Except ε ν) {P : κ → ν → Prop}
    {L : List (κ × α)} (hL : ∀ c ∈ L, ∃ v, make c.2 = .ok v ∧ P c.1 v) {m : Map κ ν}
    (hm : ∀ k v, m.lookup k = some v → P k v) :
    ∃ m', L.foldlM (offerM better make) m = .ok m' ∧
      (∀ k v, m'.lookup k = some v → P k v) ∧ ∀ k, k ∈ m' ↔ k ∈ m ∨ k ∈ L.map Prod.fst := by
  induction L generalizing m with
  | nil => exact ⟨m, rfl, hm, fun k => by simp⟩
  | cons c L ih =>
    obtain ⟨v, hv, hP⟩ := hL c (by simp)
    have hoffer : ∀ k w, (offer better m c.1 v).lookup k = some w → P k w := by
      intro k w hw
      rcases eq_or_of_lookup_offer hw with ⟨rfl, rfl⟩ | hw
      · exact hP
      · exact hm k w hw
    obtain ⟨m', hfold, hall, hmem⟩ := ih (fun c' hc' => hL c' (by simp [hc'])) hoffer
    refine ⟨m', ?_, hall, fun k => ?_⟩
    · rw [List.foldlM_cons, offerM, hv]
      exact hfold
    · rw [hmem, mem_offer, List.map_cons, List.mem_cons, or_assoc, or_left_comm]

/-- Offers that did not fail had all their values. -/
theorem exists_of_foldlM_offerM {better : ν → ν → Bool} {make : α → Except ε ν} {L : List (κ × α)}
    {m m' : Map κ ν} (h : L.foldlM (offerM better make) m = .ok m') {c : κ × α} (hc : c ∈ L) :
    ∃ v, make c.2 = .ok v := by
  induction L generalizing m with
  | nil => cases hc
  | cons c' L ih =>
    rw [List.foldlM_cons, offerM] at h
    cases hmake : make c'.2 with
    | error e =>
      rw [hmake] at h
      cases h
    | ok v =>
      rw [hmake] at h
      rcases List.mem_cons.1 hc with rfl | hc
      · exact ⟨v, hmake⟩
      · exact ih h hc

omit [DecidableEq κ] in
/-- Steps that cannot fail from a state with the invariant keep it. -/
theorem foldlM_ok {σ : Type*} {f : σ → α → Except ε σ} {P : σ → Prop} {L : List α}
    (h : ∀ a ∈ L, ∀ s, P s → ∃ s', f s a = .ok s' ∧ P s') {s : σ} (hs : P s) :
    ∃ s', L.foldlM f s = .ok s' ∧ P s' := by
  induction L generalizing s with
  | nil => exact ⟨s, rfl, hs⟩
  | cons a L ih =>
    obtain ⟨s₁, hf, hs₁⟩ := h a (by simp) s hs
    obtain ⟨s', hfold, hs'⟩ := ih (fun b hb => h b (by simp [hb])) hs₁
    refine ⟨s', ?_, hs'⟩
    rw [List.foldlM_cons, hf]
    exact hfold

/-! ### Maps that answer alike -/

/-- Two maps with the same lookups, whatever order they hold their entries in. -/
def Same (m n : Map κ ν) : Prop := ∀ k, m.lookup k = n.lookup k

namespace Same

variable {m n : Map κ ν}

theorem mem_iff (h : Same m n) {k : κ} : k ∈ m ↔ k ∈ n := by
  rw [← AList.lookup_isSome, ← AList.lookup_isSome, h k]

theorem perm_keys (h : Same m n) : m.keys.Perm n.keys :=
  (List.perm_ext_iff_of_nodup m.keys_nodup n.keys_nodup).2 fun _ => h.mem_iff

theorem retain (h : Same m n) (keep : κ → ν → Bool) :
    Same (FiniteMap.retain keep m) (FiniteMap.retain keep n) := fun k => by
  rw [lookup_retain, lookup_retain, h k]

end Same

/-- The value an offer leaves for its key. -/
def pick (better : ν → ν → Bool) (old : Option ν) (v : ν) : ν :=
  match old with
  | some w => if better v w then v else w
  | none => v

theorem lookup_offer (better : ν → ν → Bool) (m : Map κ ν) (k : κ) (v : ν) (k' : κ) :
    (offer better m k v).lookup k' = if k = k' then some (pick better (m.lookup k') v)
      else m.lookup k' := by
  by_cases hk : k = k'
  · subst hk
    rw [if_pos rfl, offer]
    cases hold : m.lookup k with
    | none => exact AList.lookup_insert m
    | some old =>
      dsimp only [pick]
      split
      · exact AList.lookup_insert m
      · exact hold
  · have hinsert : (m.insert k v).lookup k' = m.lookup k' := AList.lookup_insert_ne (Ne.symm hk)
    rw [if_neg hk, offer]
    split
    · split
      · exact hinsert
      · rfl
    · exact hinsert

theorem Same.offer {m n : Map κ ν} (h : Same m n) (better : ν → ν → Bool) (k : κ) (v : ν) :
    Same (FiniteMap.offer better m k v) (FiniteMap.offer better n k v) := fun k' => by
  rw [lookup_offer, lookup_offer, h k']

/-- `pick` on a value that is computed. -/
def pickM (better : ν → ν → Bool) (make : α → Except ε ν) (old : Option ν) (a : α) :
    Except ε (Option ν) :=
  (make a).map fun v => some (pick better old v)

/-- **A key sees only its own offers**, in their order. -/
theorem lookup_foldlM_offerM {better : ν → ν → Bool} {make : α → Except ε ν} {L : List (κ × α)}
    {m m' : Map κ ν} (h : L.foldlM (offerM better make) m = .ok m') (k : κ) :
    ((L.filter fun c => c.1 = k).map Prod.snd).foldlM (pickM better make) (m.lookup k) =
      .ok (m'.lookup k) := by
  induction L generalizing m with
  | nil =>
    cases h
    rfl
  | cons c L ih =>
    rw [List.foldlM_cons, offerM] at h
    cases hmake : make c.2 with
    | error e =>
      rw [hmake] at h
      cases h
    | ok v =>
      rw [hmake] at h
      have hrest := ih h
      rw [lookup_offer] at hrest
      by_cases hk : c.1 = k
      · rw [if_pos hk] at hrest
        rw [List.filter_cons_of_pos (by simpa using hk), List.map_cons, List.foldlM_cons, pickM,
          hmake]
        exact hrest
      · rw [if_neg hk] at hrest
        rw [List.filter_cons_of_neg (by simpa using hk)]
        exact hrest

omit [DecidableEq κ] in
/-- Steps that succeed where others did succeed as they did. -/
theorem foldlM_of_ok {σ ε' : Type*} {f : σ → α → Except ε σ} {g : σ → α → Except ε' σ} {L : List α}
    (hfg : ∀ a ∈ L, ∀ s s', f s a = .ok s' → g s a = .ok s') {s r : σ} (h : L.foldlM f s = .ok r) :
    L.foldlM g s = .ok r := by
  induction L generalizing s with
  | nil =>
    cases h
    rfl
  | cons a L ih =>
    rw [List.foldlM_cons] at h ⊢
    cases hf : f s a with
    | error e =>
      rw [hf] at h
      cases h
    | ok s' =>
      rw [hf] at h
      rw [hfg a (by simp) s s' hf]
      exact ih (fun b hb => hfg b (by simp [hb])) h

omit [DecidableEq κ] in
/-- Two loops over one list in step. -/
theorem foldlM_sim {σ τ ε' : Type*} {f : σ → α → Except ε σ} {g : τ → α → Except ε' τ}
    {R : σ → τ → Prop} {L : List α}
    (h : ∀ a ∈ L, ∀ s t, R s t → ∃ s' t', f s a = .ok s' ∧ g t a = .ok t' ∧ R s' t') {s : σ} {t : τ}
    (hst : R s t) : ∃ s' t', L.foldlM f s = .ok s' ∧ L.foldlM g t = .ok t' ∧ R s' t' := by
  induction L generalizing s t with
  | nil => exact ⟨s, t, rfl, rfl, hst⟩
  | cons a L ih =>
    obtain ⟨s₁, t₁, hs₁, ht₁, hst₁⟩ := h a (by simp) s t hst
    obtain ⟨s', t', hs', ht', hst'⟩ := ih (fun b hb => h b (by simp [hb])) hst₁
    refine ⟨s', t', ?_, ?_, hst'⟩
    · rw [List.foldlM_cons, hs₁]
      exact hs'
    · rw [List.foldlM_cons, ht₁]
      exact ht'

/-! ### Small values -/

/-- The key has a value of at most this size. -/
def Within (size : ν → ℕ) (m : Map κ ν) (k : κ) (n : ℕ) : Prop :=
  ∃ v, m.lookup k = some v ∧ size v ≤ n

/-- The smaller of two values is better. -/
def smaller (size : ν → ℕ) (v w : ν) : Bool := size v < size w

namespace Within

variable {size : ν → ℕ} {m m' : Map κ ν} {k : κ} {n : ℕ}

theorem mono (h : Within size m k n) {n' : ℕ} (hn : n ≤ n') : Within size m k n' := by
  obtain ⟨v, hv, hle⟩ := h
  exact ⟨v, hv, Nat.le_trans hle hn⟩

/-- Offers of smaller values only make a value smaller. -/
theorem offer (h : Within size m k n) (k' : κ) (v : ν) :
    Within size (FiniteMap.offer (smaller size) m k' v) k n := by
  obtain ⟨w, hw, hle⟩ := h
  rw [Within, lookup_offer]
  split
  · rw [hw, pick]
    refine ⟨_, rfl, ?_⟩
    split
    · next hlt => exact Nat.le_trans (Nat.le_of_lt (of_decide_eq_true hlt)) hle
    · exact hle
  · exact ⟨w, hw, hle⟩

theorem offer_self (m : Map κ ν) (k : κ) (v : ν) :
    Within size (FiniteMap.offer (smaller size) m k v) k (size v) := by
  rw [Within, lookup_offer, if_pos rfl]
  refine ⟨_, rfl, ?_⟩
  cases m.lookup k with
  | none => exact le_rfl
  | some w =>
    rw [pick]
    split
    · exact le_rfl
    · next hlt => exact Nat.le_of_not_lt fun hwv => hlt (decide_eq_true hwv)

theorem foldlM_offerM {make : α → Except ε ν} {L : List (κ × α)} (h : Within size m k n)
    (hfold : L.foldlM (offerM (smaller size) make) m = .ok m') : Within size m' k n := by
  induction L generalizing m with
  | nil =>
    cases hfold
    exact h
  | cons c L ih =>
    rw [List.foldlM_cons, offerM] at hfold
    cases hmake : make c.2 with
    | error e =>
      rw [hmake] at hfold
      cases hfold
    | ok v =>
      rw [hmake] at hfold
      exact ih (h.offer c.1 v) hfold

/-- **A key keeps a value no larger than any offered for it.** -/
theorem of_mem {make : α → Except ε ν} {L : List (κ × α)}
    (hfold : L.foldlM (offerM (smaller size) make) m = .ok m') {c : κ × α} (hc : c ∈ L) {v : ν}
    (hv : make c.2 = .ok v) : Within size m' c.1 (size v) := by
  induction L generalizing m with
  | nil => cases hc
  | cons c' L ih =>
    rw [List.foldlM_cons, offerM] at hfold
    cases hmake : make c'.2 with
    | error e =>
      rw [hmake] at hfold
      cases hfold
    | ok w =>
      rw [hmake] at hfold
      rcases List.mem_cons.1 hc with rfl | hc
      · obtain rfl : w = v := Except.ok.inj (hmake.symm.trans hv)
        exact (offer_self m c.1 w).foldlM_offerM hfold
      · exact ih hfold hc

end Within

/-! ### The best offer -/

/-- `v` is offered for `k` and nothing offered for `k` beats it. -/
def IsBest (better : ν → ν → Bool) (L : List (κ × ν)) (k : κ) (v : ν) : Prop :=
  (k, v) ∈ L ∧ ∀ w, (k, w) ∈ L → better w v = false

omit [DecidableEq κ] in
theorem IsBest.perm {better : ν → ν → Bool} {L M : List (κ × ν)} (hp : L.Perm M) {k : κ} {v : ν}
    (h : IsBest better L k v) : IsBest better M k v :=
  ⟨hp.mem_iff.1 h.1, fun w hw => h.2 w (hp.mem_iff.2 hw)⟩

omit [DecidableEq κ] in
theorem IsBest.unique {better : ν → ν → Bool}
    (htotal : ∀ v w, better v w = false → better w v = false → v = w) {L : List (κ × ν)} {k : κ}
    {v w : ν} (hv : IsBest better L k v) (hw : IsBest better L k w) : v = w :=
  htotal v w (hw.2 v hv.1) (hv.2 w hw.1)

section Best

variable {better : ν → ν → Bool} (hirrefl : ∀ v, better v v = false)
  (htrans : ∀ u v w, better u v = true → better v w = true → better u w = true)
include hirrefl htrans

/-- One offer keeps the best of the offers made so far. -/
theorem isBest_offer {L : List (κ × ν)} {m : Map κ ν}
    (hm : ∀ k v, m.lookup k = some v → IsBest better L k v) (hmem : ∀ k, k ∈ L.map Prod.fst → k ∈ m)
    (k : κ) (v : ν) {k' : κ} {w : ν} (h : (offer better m k v).lookup k' = some w) :
    IsBest better (L ++ [(k, v)]) k' w := by
  by_cases hk : k' = k
  · subst hk
    -- what is offered for the key now was offered before, or is the new value
    have hoffered : ∀ u, (k', u) ∈ L ++ [(k', v)] → (k', u) ∈ L ∨ u = v := by
      intro u hu
      simpa using hu
    unfold offer at h
    split at h
    · next old hold =>
      have hbest := hm k' old hold
      split at h
      · next hbetter =>
        rw [AList.lookup_insert, Option.some.injEq] at h
        subst h
        refine ⟨by simp, fun u hu => ?_⟩
        rcases hoffered u hu with hu | rfl
        · have hold := hbest.2 u hu
          rw [← Bool.not_eq_true] at hold ⊢
          exact fun hlt => hold (htrans u v old hlt hbetter)
        · exact hirrefl u
      · next hbetter =>
        rw [hold, Option.some.injEq] at h
        subst h
        refine ⟨by simp [hbest.1], fun u hu => ?_⟩
        rcases hoffered u hu with hu | rfl
        · exact hbest.2 u hu
        · rwa [Bool.not_eq_true] at hbetter
    · next hnone =>
      rw [AList.lookup_insert, Option.some.injEq] at h
      subst h
      refine ⟨by simp, fun u hu => ?_⟩
      rcases hoffered u hu with hu | rfl
      · have hin := hmem k' (List.mem_map.2 ⟨(k', u), hu, rfl⟩)
        rw [← AList.lookup_isSome, hnone] at hin
        cases hin
      · exact hirrefl u
  · rcases eq_or_of_lookup_offer h with ⟨rfl, -⟩ | h
    · exact absurd rfl hk
    · have hbest := hm k' w h
      refine ⟨by simp [hbest.1], fun u hu => hbest.2 u ?_⟩
      simpa [hk] using hu

theorem isBest_foldl_offer (M : List (κ × ν)) {L : List (κ × ν)} {m : Map κ ν}
    (hm : ∀ k v, m.lookup k = some v → IsBest better L k v)
    (hmem : ∀ k, k ∈ m ↔ k ∈ L.map Prod.fst) :
    (∀ k v, (M.foldl (fun m c => offer better m c.1 c.2) m).lookup k = some v →
      IsBest better (L ++ M) k v) ∧
    ∀ k, k ∈ M.foldl (fun m c => offer better m c.1 c.2) m ↔ k ∈ (L ++ M).map Prod.fst := by
  induction M generalizing L m with
  | nil =>
    rw [List.append_nil]
    exact ⟨hm, hmem⟩
  | cons c M ih =>
    have := ih (L := L ++ [c]) (m := offer better m c.1 c.2)
      (fun k v h => isBest_offer hirrefl htrans hm (fun k => (hmem k).2) c.1 c.2 h)
      (fun k => by rw [mem_offer, hmem]; simp [or_comm])
    simpa only [List.append_assoc, List.singleton_append, List.foldl_cons] using this

/-- What has an offer is kept, with a best one. -/
theorem exists_lookup_foldl_offer {L : List (κ × ν)} {k : κ} {v : ν} (h : (k, v) ∈ L) :
    ∃ w, (L.foldl (fun m c => offer better m c.1 c.2) ∅).lookup k = some w ∧
      IsBest better L k w := by
  obtain ⟨hbest, hmem⟩ := isBest_foldl_offer hirrefl htrans L (L := []) (m := (∅ : Map κ ν))
    (fun k v h => by simp at h) (fun k => by simp [AList.notMem_empty])
  rw [List.nil_append] at hbest hmem
  obtain ⟨w, hw⟩ := exists_lookup ((hmem k).2 (List.mem_map.2 ⟨(k, v), h, rfl⟩))
  exact ⟨w, hw, hbest k w hw⟩

/-- **The best offer wins**, whatever the order of the offers. -/
theorem lookup_foldl_offer (htotal : ∀ v w, better v w = false → better w v = false → v = w)
    (L : List (κ × ν)) (k : κ) (v : ν) :
    (L.foldl (fun m c => offer better m c.1 c.2) ∅).lookup k = some v ↔ IsBest better L k v := by
  constructor
  · intro h
    have hbest := (isBest_foldl_offer hirrefl htrans L (L := []) (m := (∅ : Map κ ν))
      (fun k v h => by simp at h) (fun k => by simp [AList.notMem_empty])).1 k v h
    rwa [List.nil_append] at hbest
  · intro hv
    obtain ⟨w, hw, hbest⟩ := exists_lookup_foldl_offer hirrefl htrans hv.1
    rw [hw, hbest.unique htotal hv]

end Best

/-! ### Counting -/

/-- The count of a key; an absent key counts zero. -/
def count (m : Map κ ℕ) (k : κ) : ℕ := (m.lookup k).getD 0

/-- One more for `k`. -/
def bump (m : Map κ ℕ) (k : κ) : Map κ ℕ := m.insert k (count m k + 1)

@[simp] theorem count_empty (k : κ) : count (∅ : Map κ ℕ) k = 0 := by
  rw [count, AList.lookup_empty, Option.getD_none]

@[simp] theorem count_bump_self (m : Map κ ℕ) (k : κ) : count (bump m k) k = count m k + 1 := by
  rw [count, bump, AList.lookup_insert, Option.getD_some]

theorem lookup_bump_ne (m : Map κ ℕ) {k k' : κ} (h : k' ≠ k) :
    (bump m k).lookup k' = m.lookup k' := AList.lookup_insert_ne h

theorem count_bump_ne (m : Map κ ℕ) {k k' : κ} (h : k' ≠ k) : count (bump m k) k' = count m k' := by
  rw [count, lookup_bump_ne m h, count]

/-- **Counting a list of keys** adds to every key its occurrences. -/
theorem count_foldl_bump (m : Map κ ℕ) (ks : List κ) (k : κ) :
    count (ks.foldl bump m) k = count m k + ks.count k := by
  induction ks generalizing m with
  | nil => rfl
  | cons k' ks ih =>
    rw [List.foldl_cons, ih]
    by_cases h : k' = k
    · subst h
      rw [count_bump_self, List.count_cons_self]
      omega
    · rw [count_bump_ne m (Ne.symm h), List.count_cons_of_ne h]

/-- Keys that do not repeat count one each. -/
theorem count_foldl_bump_of_nodup (m : Map κ ℕ) {ks : List κ} (h : ks.Nodup) (k : κ)
    [Decidable (k ∈ ks)] :
    count (ks.foldl bump m) k = count m k + if k ∈ ks then 1 else 0 := by
  rw [count_foldl_bump]
  by_cases hk : k ∈ ks
  · rw [if_pos hk, List.count_eq_one_of_mem h hk]
  · rw [if_neg hk, List.count_eq_zero_of_not_mem hk]

/-- The sum of all counts. -/
def total (m : Map κ ℕ) : ℕ := (m.entries.map Sigma.snd).sum

omit [DecidableEq κ] in
@[simp] theorem total_empty : total (∅ : Map κ ℕ) = 0 := rfl

/-- What a key counts is what erasing it takes from the sum. -/
theorem sum_kerase_add (k : κ) (l : List (Sigma fun _ : κ => ℕ)) :
    ((l.kerase k).map Sigma.snd).sum + (l.dlookup k).getD 0 = (l.map Sigma.snd).sum := by
  induction l with
  | nil => rfl
  | cons e l ih =>
    by_cases h : k = e.1
    · obtain ⟨k', n⟩ := e
      obtain rfl : k = k' := h
      have hhead : (⟨k, n⟩ :: l : List (Sigma fun _ : κ => ℕ)).kerase k = l :=
        List.kerase_cons_eq rfl
      rw [hhead, List.dlookup_cons_eq, List.map_cons, List.sum_cons,
        Option.getD_some, Nat.add_comm]
    · rw [List.kerase_cons_ne h, List.dlookup_cons_ne _ _ h, List.map_cons, List.sum_cons,
        List.map_cons, List.sum_cons, Nat.add_assoc, ih]

/-- **One more for a key is one more in the sum.** -/
@[simp] theorem total_bump (m : Map κ ℕ) (k : κ) : total (bump m k) = total m + 1 := by
  have herase := sum_kerase_add k m.entries
  show ((⟨k, count m k + 1⟩ :: m.entries.kerase k).map Sigma.snd).sum =
    (m.entries.map Sigma.snd).sum + 1
  rw [List.map_cons, List.sum_cons, ← herase]
  show (m.entries.dlookup k).getD 0 + 1 + _ = _
  omega

theorem mem_bump {m : Map κ ℕ} {k k' : κ} : k' ∈ bump m k ↔ k' = k ∨ k' ∈ m := AList.mem_insert m

/-- No key is kept with count zero. -/
def Positive (m : Map κ ℕ) : Prop := ∀ k, m.lookup k ≠ some 0

theorem positive_empty : Positive (∅ : Map κ ℕ) := fun k => by simp

theorem Positive.foldl_bump {m : Map κ ℕ} (h : Positive m) (ks : List κ) :
    Positive (ks.foldl bump m) := by
  induction ks generalizing m with
  | nil => exact h
  | cons k ks ih =>
    apply ih
    intro k' hk'
    rcases eq_or_of_lookup_insert hk' with ⟨-, hz⟩ | hz
    · exact absurd hz (Nat.succ_ne_zero _).symm
    · exact h k' hz

/-- A key that counts zero is absent. -/
theorem Positive.lookup_eq {m : Map κ ℕ} (h : Positive m) (k : κ) :
    m.lookup k = if count m k = 0 then none else some (count m k) := by
  cases hk : m.lookup k with
  | none => simp [count, hk]
  | some n =>
    have hn : n ≠ 0 := fun hz => h k (by rw [hk, hz])
    simp [count, hk, hn]

/-! ### Inserting -/

/-- What the function makes of a value, if anything, becomes the value of its key. -/
def insertSome {ν' : Type*} (f : ν → Option ν') (m : Map κ ν') (c : κ × ν) : Map κ ν' :=
  match f c.2 with
  | none => m
  | some w => m.insert c.1 w

section InsertSome

variable {ν' : Type*} {f : ν → Option ν'} {L : List (κ × ν)} {m : Map κ ν'} {k : κ}

theorem lookup_insertSome_ne {c : κ × ν} (h : c.1 = k → f c.2 = none) :
    (insertSome f m c).lookup k = m.lookup k := by
  rw [insertSome]
  split
  · rfl
  · next w hw =>
    refine AList.lookup_insert_ne fun hk => ?_
    rw [h hk.symm] at hw
    cases hw

theorem lookup_foldl_insertSome_of_none (h : ∀ c ∈ L, c.1 = k → f c.2 = none) :
    (L.foldl (insertSome f) m).lookup k = m.lookup k := by
  induction L generalizing m with
  | nil => rfl
  | cons c L ih =>
    rw [List.forall_mem_cons] at h
    rw [List.foldl_cons, ih h.2, lookup_insertSome_ne h.1]

theorem lookup_foldl_insertSome_of_mem (hL : (L.map Prod.fst).Nodup) {v : ν} {w : ν'}
    (hv : (k, v) ∈ L) (hw : f v = some w) : (L.foldl (insertSome f) m).lookup k = some w := by
  induction L generalizing m with
  | nil => cases hv
  | cons c L ih =>
    rw [List.map_cons, List.nodup_cons] at hL
    rw [List.foldl_cons]
    rcases List.mem_cons.1 hv with rfl | hv
    · have hrest : ∀ c ∈ L, c.1 = k → f c.2 = none := fun c hc hck =>
        absurd (List.mem_map.2 ⟨c, hc, hck⟩) hL.1
      rw [lookup_foldl_insertSome_of_none hrest, insertSome, hw]
      exact AList.lookup_insert m
    · exact ih hL.2 hv

end InsertSome

/-! ### Lists of values -/

/-- The value is added to those of its key. -/
def push (m : Map κ (List ν)) (c : κ × ν) : Map κ (List ν) :=
  m.insert c.1 ((m.lookup c.1).getD [] ++ [c.2])

/-- The values listed for a key. -/
def valuesAt (L : List (κ × ν)) (k : κ) : List ν := (L.filter fun c => c.1 = k).map Prod.snd

section ValuesAt

variable {L M : List (κ × ν)} {k : κ}

theorem mem_valuesAt {v : ν} : v ∈ valuesAt L k ↔ (k, v) ∈ L := by
  rw [valuesAt, List.mem_map]
  constructor
  · rintro ⟨c, hc, rfl⟩
    rw [List.mem_filter, decide_eq_true_eq] at hc
    exact hc.2 ▸ hc.1
  · intro h
    exact ⟨(k, v), List.mem_filter.2 ⟨h, decide_eq_true rfl⟩, rfl⟩

theorem valuesAt_perm (h : L.Perm M) : (valuesAt L k).Perm (valuesAt M k) := (h.filter _).map _

theorem valuesAt_cons (c : κ × ν) (L : List (κ × ν)) (k : κ) :
    valuesAt (c :: L) k = if c.1 = k then c.2 :: valuesAt L k else valuesAt L k := by
  rw [valuesAt, List.filter_cons]
  by_cases hc : c.1 = k
  · rw [if_pos (decide_eq_true hc), if_pos hc]
    rfl
  · rw [if_neg (by rwa [decide_eq_true_eq]), if_neg hc]
    rfl

/-- **A key has the values that are listed for it**, behind those that it had; without any it keeps
none. -/
theorem lookup_foldl_push (L : List (κ × ν)) (m : Map κ (List ν)) (k : κ) :
    (L.foldl push m).lookup k =
      if valuesAt L k = [] then m.lookup k else some ((m.lookup k).getD [] ++ valuesAt L k) := by
  induction L generalizing m with
  | nil => rfl
  | cons c L ih =>
    rw [List.foldl_cons, ih, valuesAt_cons]
    by_cases hc : c.1 = k
    · have hpush : (push m c).lookup k = some ((m.lookup k).getD [] ++ [c.2]) := by
        rw [push, hc, AList.lookup_insert]
      rw [if_pos hc, if_neg (List.cons_ne_nil _ _), hpush, Option.getD_some, List.append_assoc]
      split
      · next hnil => rw [hnil]
      · rfl
    · have hpush : (push m c).lookup k = m.lookup k := AList.lookup_insert_ne (Ne.symm hc)
      rw [if_neg hc, hpush]

theorem length_valuesAt (L : List (κ × ν)) (k : κ) :
    (valuesAt L k).length = (L.map Prod.fst).count k := by
  induction L with
  | nil => rfl
  | cons c L ih =>
    rw [valuesAt_cons, List.map_cons, List.count_cons, ← ih]
    by_cases hc : c.1 = k
    · rw [if_pos hc, if_pos (beq_iff_eq.2 hc), List.length_cons]
    · rw [if_neg hc, if_neg (by rwa [beq_iff_eq]), Nat.add_zero]

/-- Pushing onto nothing, the keys are those that are listed. -/
theorem lookup_foldl_push_empty {vs : List ν} :
    (L.foldl push ∅).lookup k = some vs ↔ vs ≠ [] ∧ vs = valuesAt L k := by
  rw [lookup_foldl_push]
  by_cases hnil : valuesAt L k = []
  · rw [if_pos hnil, hnil, AList.lookup_empty]
    simp
  · rw [if_neg hnil, AList.lookup_empty, Option.getD_none, List.nil_append, Option.some.injEq]
    exact ⟨fun h => ⟨h ▸ hnil, h.symm⟩, fun h => h.2.symm⟩

/-- The amount is added to the count of its key. -/
def add (m : Map κ ℕ) (c : κ × ℕ) : Map κ ℕ := m.insert c.1 (count m c.1 + c.2)

theorem count_foldl_add (L : List (κ × ℕ)) (m : Map κ ℕ) (k : κ) :
    count (L.foldl add m) k = count m k + (valuesAt L k).sum := by
  induction L generalizing m with
  | nil => rfl
  | cons c L ih =>
    rw [List.foldl_cons, ih, valuesAt_cons]
    by_cases hc : c.1 = k
    · have hadd : count (add m c) k = count m k + c.2 := by
        rw [count, add, hc, AList.lookup_insert, Option.getD_some]
      rw [if_pos hc, List.sum_cons, hadd, Nat.add_assoc]
    · have hadd : count (add m c) k = count m k := by
        rw [count, add, AList.lookup_insert_ne (Ne.symm hc), count]
      rw [if_neg hc, hadd]

end ValuesAt

/-! ### Iteration orders -/

/-- An order in which the entries of each map are visited. -/
structure IterOrder (κ ν : Type*) [DecidableEq κ] where
  entries : Map κ ν → List (κ × ν)
  perm : ∀ m, (entries m).Perm (m.entries.map fun e => (e.1, e.2))

namespace IterOrder

/-- Last inserted first. -/
def newestFirst : IterOrder κ ν where
  entries m := m.entries.map fun e => (e.1, e.2)
  perm _ := .refl _

/-- A key at the end of what is otherwise an order. -/
def lastly [DecidableEq ν] (o : IterOrder κ ν) (k : κ) : IterOrder κ ν where
  entries m :=
    match m.lookup k with
    | none => o.entries m
    | some v => (o.entries m).erase (k, v) ++ [(k, v)]
  perm m := by
    cases hk : m.lookup k with
    | none => exact o.perm m
    | some v =>
      have hmem : (k, v) ∈ o.entries m := by
        rw [(o.perm m).mem_iff, List.mem_map]
        exact ⟨⟨k, v⟩, AList.mem_lookup_iff.1 hk, rfl⟩
      exact (List.perm_append_singleton ..).trans
        ((List.perm_cons_erase hmem).symm.trans (o.perm m))

theorem entries_lastly [DecidableEq ν] (o : IterOrder κ ν) {m : Map κ ν} {k : κ} {v : ν}
    (h : m.lookup k = some v) :
    (o.lastly k).entries m = (o.entries m).erase (k, v) ++ [(k, v)] := by
  simp only [lastly, h]

theorem mem_entries (o : IterOrder κ ν) {m : Map κ ν} {c : κ × ν} :
    c ∈ o.entries m ↔ m.lookup c.1 = some c.2 := by
  rw [(o.perm m).mem_iff, List.mem_map]
  have hmem : m.lookup c.1 = some c.2 ↔ (⟨c.1, c.2⟩ : Sigma fun _ => ν) ∈ m.entries :=
    AList.mem_lookup_iff
  rw [hmem]
  constructor
  · rintro ⟨e, he, rfl⟩
    exact he
  · exact fun h => ⟨_, h, rfl⟩

theorem nodup_keys (o : IterOrder κ ν) (m : Map κ ν) : ((o.entries m).map Prod.fst).Nodup := by
  rw [((o.perm m).map Prod.fst).nodup_iff, List.map_map]
  exact m.nodupKeys

/-- **Two orders visit the same entries.** -/
theorem perm_of_lookup_eq (o o' : IterOrder κ ν) {m m' : Map κ ν}
    (h : ∀ k, m.lookup k = m'.lookup k) : (o.entries m).Perm (o'.entries m') := by
  rw [List.perm_ext_iff_of_nodup (o.nodup_keys m).of_map (o'.nodup_keys m').of_map]
  intro c
  rw [mem_entries, mem_entries, h]

/-- **Inserting what a function makes of the values of a map** does so whatever the order: a key
that it makes nothing of keeps its value. -/
theorem lookup_foldl_insertSome {ν' : Type*} (f : ν → Option ν') (o : IterOrder κ ν) (m : Map κ ν)
    (m₀ : Map κ ν') (k : κ) :
    ((o.entries m).foldl (insertSome f) m₀).lookup k = ((m.lookup k).bind f).or (m₀.lookup k) := by
  cases hk : m.lookup k with
  | none =>
    refine lookup_foldl_insertSome_of_none fun c hc hck => ?_
    rw [o.mem_entries, hck, hk] at hc
    cases hc
  | some v =>
    have hmem : (k, v) ∈ o.entries m := o.mem_entries.2 hk
    rw [Option.bind_some]
    cases hf : f v with
    | some w => exact lookup_foldl_insertSome_of_mem (o.nodup_keys m) hmem hf
    | none =>
      refine lookup_foldl_insertSome_of_none fun c hc hck => ?_
      rw [o.mem_entries, hck, hk, Option.some.injEq] at hc
      rw [← hc, hf]

section Pushed

variable {L : List (κ × ν)} (o : IterOrder κ (List ν))

theorem mem_entries_push {g : κ × List ν} :
    g ∈ o.entries (L.foldl push ∅) ↔ g.2 ≠ [] ∧ g.2 = valuesAt L g.1 := by
  rw [o.mem_entries, lookup_foldl_push_empty]

theorem keys_push_perm : ((o.entries (L.foldl push ∅)).map Prod.fst).Perm
    (L.map Prod.fst).dedup := by
  rw [List.perm_ext_iff_of_nodup (o.nodup_keys _) (List.nodup_dedup _)]
  intro k
  have hlisted : k ∈ L.map Prod.fst ↔ valuesAt L k ≠ [] := by
    rw [← List.count_pos_iff, ← length_valuesAt, List.length_pos_iff]
  rw [List.mem_dedup, hlisted, List.mem_map]
  constructor
  · rintro ⟨g, hg, rfl⟩
    rw [o.mem_entries_push] at hg
    exact hg.2 ▸ hg.1
  · intro hne
    exact ⟨(k, valuesAt L k), o.mem_entries_push.2 ⟨hne, rfl⟩, rfl⟩

/-- What is made of the number of values of each key is made of how often the key is listed. -/
theorem map_length_push {β : Type*} (f : κ → ℕ → β) :
    ((o.entries (L.foldl push ∅)).map fun g => f g.1 g.2.length).Perm
      ((L.map Prod.fst).dedup.map fun k => f k ((L.map Prod.fst).count k)) := by
  have hlength : (o.entries (L.foldl push ∅)).map (fun g => f g.1 g.2.length) =
      ((o.entries (L.foldl push ∅)).map Prod.fst).map fun k => f k ((L.map Prod.fst).count k) := by
    rw [List.map_map]
    refine List.map_congr_left fun g hg => ?_
    show f g.1 g.2.length = f g.1 ((L.map Prod.fst).count g.1)
    rw [(o.mem_entries_push.1 hg).2, length_valuesAt]
  rw [hlength]
  exact o.keys_push_perm.map _

/-- The numbers of values do not depend on the order in which they were pushed. -/
theorem map_length_push_perm {L' : List (κ × ν)} (o' : IterOrder κ (List ν))
    (hp : (L.map Prod.fst).Perm (L'.map Prod.fst)) {β : Type*} (f : κ → ℕ → β) :
    ((o.entries (L.foldl push ∅)).map fun g => f g.1 g.2.length).Perm
      ((o'.entries (L'.foldl push ∅)).map fun g => f g.1 g.2.length) := by
  refine (o.map_length_push f).trans (List.Perm.trans ?_ (o'.map_length_push f).symm)
  refine (hp.dedup.map _).trans (.of_eq (List.map_congr_left fun k _ => ?_))
  rw [hp.count_eq]

/-- **Together the keys have as many values as were pushed**, also those of some of the keys. -/
theorem sum_length_push (p : κ → Bool) :
    (((o.entries (L.foldl push ∅)).filter fun g => p g.1).map fun g => g.2.length).sum =
      L.countP fun c => p c.1 := by
  have hkept : (((o.entries (L.foldl push ∅)).filter fun g => p g.1).map fun g => g.2.length) =
      ((((o.entries (L.foldl push ∅)).map fun g => (g.1, g.2.length)).filter fun g => p g.1).map
        Prod.snd) := by
    rw [List.filter_map, List.map_map]
    rfl
  rw [hkept, (((o.map_length_push Prod.mk).filter _).map _).sum_eq, List.filter_map, List.map_map]
  have hcount := List.sum_map_count_dedup_filter_eq_countP p (L.map Prod.fst)
  rw [List.countP_map] at hcount
  exact hcount

end Pushed

end IterOrder

end FiniteMap

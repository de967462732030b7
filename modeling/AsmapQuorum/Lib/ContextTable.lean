import AsmapQuorum.Lib.FiniteMap

/-!
# Dynamic programs over contexts

A dynamic program over a binary tree may keep for each subtree not one best value but one for each
*context*: under `some k` the surroundings of the subtree provide `k`, under `none` nothing is known
of them, so that a value for `none` serves in every context.  The tables of two subtrees are joined
context by context, and at each the value for `none` may stand in on either side.

* `pairs`, `candidates` — the pairs of values that are joined (`mem_pairs`, `mem_fst_candidates`).
* `same_join` — the order in which the contexts are visited makes no difference.
* `Table good hole m` — the invariant: every value is good for its context, and the table has the
  context `some z` if something below *must* be left as it is, and `none` otherwise.
* `Table.join`, `Table.retain`, `Table.prune`, `Table.cover` — what one level of the recursion does
  to it; `Table.join` and `Table.cover` also say that nothing fails.
* `Affords size m k n` — in the context `some k` a value of at most that size can be had; joining
  adds the sizes up (`Affords.join`) and pruning loses nothing (`Affords.prune`).
-/

namespace ContextTable

open FiniteMap

variable {κ ν ν' ε : Type*} [DecidableEq κ]

/-! ### Joining two tables -/

/-- The pairs of values that are joined for one context. -/
def pairs (left right : Map (Option κ) ν) (ctx : Option κ) : List (Option κ × ν × ν) :=
  [(left.lookup ctx, right.lookup ctx), (left.lookup none, right.lookup ctx),
    (left.lookup ctx, right.lookup none)].filterMap fun
    | (some a, some b) => some (ctx, a, b)
    | _ => none

/-- All pairs that are joined, when the contexts are visited in this order. -/
def candidates (order : List (Option κ)) (left right : Map (Option κ) ν) :
    List (Option κ × ν × ν) :=
  order.flatMap (pairs left right)

theorem mem_pairs {left right : Map (Option κ) ν} {ctx : Option κ} {c : Option κ × ν × ν} :
    c ∈ pairs left right ctx ↔ c.1 = ctx ∧
      ((left.lookup ctx = some c.2.1 ∧ right.lookup ctx = some c.2.2) ∨
        (left.lookup none = some c.2.1 ∧ right.lookup ctx = some c.2.2) ∨
          (left.lookup ctx = some c.2.1 ∧ right.lookup none = some c.2.2)) := by
  obtain ⟨ctx', a, b⟩ := c
  have hpair : ∀ o o' : Option ν,
      (match (o, o') with
        | (some a, some b) => some (ctx, a, b)
        | _ => none) = some (ctx', a, b) ↔ ctx' = ctx ∧ o = some a ∧ o' = some b := by
    intro o o'
    cases o <;> cases o' <;> simp [eq_comm]
  simp only [pairs, List.mem_filterMap, List.mem_cons, List.not_mem_nil, or_false,
    exists_eq_or_imp, exists_eq_left, hpair]
  tauto

/-- Which contexts get a candidate. -/
theorem mem_fst_candidates {order : List (Option κ)} {left right : Map (Option κ) ν}
    (horder : ∀ ctx, ctx ∈ order ↔ ctx ∈ left ∨ ctx ∈ right) {ctx : Option κ} :
    ctx ∈ (candidates order left right).map Prod.fst ↔
      (ctx ∈ left ∧ ctx ∈ right) ∨ (none ∈ left ∧ ctx ∈ right) ∨ (ctx ∈ left ∧ none ∈ right) := by
  simp only [candidates, List.mem_map, List.mem_flatMap, horder, mem_pairs]
  constructor
  · rintro ⟨c, ⟨ctx', -, rfl, hc⟩, rfl⟩
    exact hc.imp (And.imp mem_of_lookup mem_of_lookup)
      (Or.imp (And.imp mem_of_lookup mem_of_lookup) (And.imp mem_of_lookup mem_of_lookup))
  · rintro (⟨hl, hr⟩ | ⟨hl, hr⟩ | ⟨hl, hr⟩) <;>
      obtain ⟨a, ha⟩ := exists_lookup hl <;> obtain ⟨b, hb⟩ := exists_lookup hr
    · exact ⟨(ctx, a, b), ⟨ctx, .inl hl, rfl, .inl ⟨ha, hb⟩⟩, rfl⟩
    · exact ⟨(ctx, a, b), ⟨ctx, .inr hr, rfl, .inr (.inl ⟨ha, hb⟩)⟩, rfl⟩
    · exact ⟨(ctx, a, b), ⟨ctx, .inl hl, rfl, .inr (.inr ⟨ha, hb⟩)⟩, rfl⟩

/-- A candidate's context is one of the two tables'. -/
theorem mem_of_candidates {order : List (Option κ)} {left right : Map (Option κ) ν}
    (horder : ∀ ctx, ctx ∈ order ↔ ctx ∈ left ∨ ctx ∈ right) {c : Option κ × ν × ν}
    (hc : c ∈ candidates order left right) : c.1 ∈ left ∨ c.1 ∈ right := by
  have hfst : c.1 ∈ (candidates order left right).map Prod.fst := List.mem_map_of_mem hc
  rw [mem_fst_candidates horder] at hfst
  tauto

/-- The candidates of one context are its pairs, when it is visited once. -/
theorem filter_candidates {order : List (Option κ)} {left right : Map (Option κ) ν}
    (hnodup : order.Nodup) (horder : ∀ ctx, ctx ∈ order ↔ ctx ∈ left ∨ ctx ∈ right)
    (ctx : Option κ) :
    (candidates order left right).filter (fun c => c.1 = ctx) = pairs left right ctx := by
  have hsame : (pairs left right ctx).filter (fun c => c.1 = ctx) = pairs left right ctx :=
    List.filter_eq_self.2 fun c hc => decide_eq_true (mem_pairs.1 hc).1
  have hother : ∀ ctx', ctx' ≠ ctx → (pairs left right ctx').filter (fun c => c.1 = ctx) = [] := by
    intro ctx' hne
    refine List.filter_eq_nil_iff.2 fun c hc heq => ?_
    exact hne ((mem_pairs.1 hc).1.symm.trans (of_decide_eq_true heq))
  have hvisit : ∀ L : List (Option κ), L.Nodup →
      (L.flatMap (pairs left right)).filter (fun c => c.1 = ctx) =
      if ctx ∈ L then pairs left right ctx else [] := by
    intro L hL
    induction L with
    | nil => rfl
    | cons ctx' L ih =>
      rw [List.nodup_cons] at hL
      rw [List.flatMap_cons, List.filter_append, ih hL.2]
      by_cases hctx : ctx' = ctx
      · subst hctx
        rw [hsame, if_neg hL.1, if_pos List.mem_cons_self, List.append_nil]
      · rw [hother ctx' hctx, List.nil_append]
        simp [Ne.symm hctx]
  rw [candidates, hvisit order hnodup]
  split
  · rfl
  · next hno =>
    rw [horder, not_or] at hno
    have hl : left.lookup ctx = none := AList.lookup_eq_none.2 hno.1
    have hr : right.lookup ctx = none := AList.lookup_eq_none.2 hno.2
    simp [pairs, hl, hr]

/-- **Two ways of joining** that differ in the order of the contexts, in the order of the entries of
the tables and in how the values are made, but not in what is made, come to the same table. -/
theorem same_join {ε' : Type*} {order order' : List (Option κ)}
    {left left' right right' : Map (Option κ) ν} {better : ν → ν → Bool} (make : ν × ν → Except ε ν)
    (make' : ν × ν → Except ε' ν) (hl : Same left left') (hr : Same right right')
    (hnodup : order.Nodup) (hnodup' : order'.Nodup) (horder : ∀ ctx, ctx ∈ order ↔ ctx ∈ left ∨
      ctx ∈ right)
    (horder' : ∀ ctx, ctx ∈ order' ↔ ctx ∈ left' ∨ ctx ∈ right')
    (hmake : ∀ c ∈ candidates order left right, ∀ v, make c.2 = .ok v → make' c.2 = .ok v)
    {m : Map (Option κ) ν} (h : (candidates order left right).foldlM (offerM better make) ∅ =
      .ok m) :
    ∃ m', (candidates order' left' right').foldlM (offerM better make') ∅ = .ok m' ∧ Same m m' := by
  have hpairs : ∀ ctx, pairs left' right' ctx = pairs left right ctx := by
    intro ctx
    rw [pairs, pairs, hl ctx, hl none, hr ctx, hr none]
  have hmem : ∀ c, c ∈ candidates order' left' right' → c ∈ candidates order left right := by
    intro c hc
    obtain ⟨ctx, hctx, hc⟩ := List.mem_flatMap.1 hc
    rw [hpairs] at hc
    rw [horder', ← hl.mem_iff, ← hr.mem_iff, ← horder] at hctx
    exact List.mem_flatMap.2 ⟨ctx, hctx, hc⟩
  obtain ⟨m', hm', -, -⟩ := foldlM_offerM better make' (P := fun _ _ => True)
    (L := candidates order' left' right') (m := ∅)
    (fun c hc => by
      obtain ⟨v, hv⟩ := exists_of_foldlM_offerM h (hmem c hc)
      exact ⟨v, hmake c (hmem c hc) v hv, trivial⟩)
    (fun _ _ _ => trivial)
  refine ⟨m', hm', fun ctx => ?_⟩
  have hown := lookup_foldlM_offerM h ctx
  have hown' := lookup_foldlM_offerM hm' ctx
  rw [filter_candidates hnodup horder] at hown
  rw [filter_candidates hnodup' horder', hpairs] at hown'
  have hpick := foldlM_of_ok (g := pickM better make') (fun ab hab s s' hs => by
    obtain ⟨c, hc, rfl⟩ := List.mem_map.1 hab
    rw [← filter_candidates hnodup horder] at hc
    unfold pickM at hs ⊢
    cases hv : make c.2 with
    | error e =>
      rw [hv] at hs
      cases hs
    | ok v =>
      rw [hv] at hs
      cases hs
      rw [hmake c (List.mem_filter.1 hc).1 v hv]
      rfl) hown
  exact Except.ok.inj (hpick.symm.trans hown')

/-- What does not beat the value for `none` is dropped. -/
def prune (size : ν → ℕ) (m : Map (Option κ) ν) : Map (Option κ) ν :=
  match m.lookup none with
  | some best => retain (fun ctx v => ctx.isNone || size v < size best) m
  | none => m

theorem same_prune {m n : Map (Option κ) ν} (h : Same m n) (size : ν → ℕ) :
    Same (ContextTable.prune size m) (ContextTable.prune size n) := by
  unfold ContextTable.prune
  rw [← h none]
  split
  · exact h.retain _
  · exact h

/-! ### The invariant -/

/-- Every value is good for its context; the table has the context `some z` exactly under a hole,
and `none` exactly without one. -/
structure Table (z : κ) (good : Option κ → ν → Prop) (hole : Bool) (m : Map (Option κ) ν) :
    Prop where
  good : ∀ ctx v, m.lookup ctx = some v → good ctx v
  zero_iff : some z ∈ m ↔ hole = true
  none_iff : none ∈ m ↔ hole = false

namespace Table

variable {z : κ} {good : Option κ → ν → Prop} {hole : Bool} {m : Map (Option κ) ν}

/-- Under a weaker notion of good. -/
theorem mono {good' : Option κ → ν → Prop} (h : Table z good hole m)
    (hgood : ∀ ctx v, good ctx v → good' ctx v) : Table z good' hole m :=
  ⟨fun ctx v hv => hgood ctx v (h.good ctx v hv), h.zero_iff, h.none_iff⟩

/-- The two values of a candidate are good for its context, on either side. -/
theorem good_candidates {goodl goodr : Option κ → ν → Prop} {holel holer : Bool}
    {left right : Map (Option κ) ν} (hl : Table z goodl holel left) (hr : Table z goodr holer right)
    (hanyl : ∀ ctx v, goodl none v → goodl ctx v) (hanyr : ∀ ctx v, goodr none v → goodr ctx v)
    {order : List (Option κ)} {c : Option κ × ν × ν} (hc : c ∈ candidates order left right) :
    goodl c.1 c.2.1 ∧ goodr c.1 c.2.2 := by
  obtain ⟨ctx, -, hpairs⟩ := List.mem_flatMap.1 hc
  rw [mem_pairs] at hpairs
  obtain ⟨rfl, ⟨ha, hb⟩ | ⟨ha, hb⟩ | ⟨ha, hb⟩⟩ := hpairs
  · exact ⟨hl.good _ _ ha, hr.good _ _ hb⟩
  · exact ⟨hanyl _ _ (hl.good _ _ ha), hr.good _ _ hb⟩
  · exact ⟨hl.good _ _ ha, hanyr _ _ (hr.good _ _ hb)⟩

/-- **Joining two tables.**  Where the values of every candidate can be joined to a good one, all of
them are, and the joined table has a hole if one of the two has. -/
theorem join {goodl goodr : Option κ → ν → Prop} {holel holer : Bool}
    {left right : Map (Option κ) ν} (hl : Table z goodl holel left) (hr : Table z goodr holer right)
    (hanyl : ∀ ctx v, goodl none v → goodl ctx v) (hanyr : ∀ ctx v, goodr none v → goodr ctx v)
    {order : List (Option κ)} (horder : ∀ ctx, ctx ∈ order ↔ ctx ∈ left ∨ ctx ∈ right)
    (better : ν → ν → Bool) (make : ν × ν → Except ε ν)
    (hmake : ∀ c ∈ candidates order left right, goodl c.1 c.2.1 → goodr c.1 c.2.2 →
      ∃ v, make c.2 = .ok v ∧ good c.1 v) :
    ∃ m, (candidates order left right).foldlM (offerM better make) ∅ = .ok m ∧
      Table z good (holel || holer) m := by
  have hgood : ∀ c ∈ candidates order left right, ∃ v, make c.2 = .ok v ∧ good c.1 v := by
    intro c hc
    obtain ⟨ha, hb⟩ := hl.good_candidates hr hanyl hanyr hc
    exact hmake c hc ha hb
  obtain ⟨m, hfold, hall, hmem⟩ := foldlM_offerM better make (m := ∅) hgood
    (by intro k v h; cases h)
  have hkeys : ∀ ctx, ctx ∈ m ↔
      (ctx ∈ left ∧ ctx ∈ right) ∨ (none ∈ left ∧ ctx ∈ right) ∨ (ctx ∈ left ∧ none ∈ right) := by
    intro ctx
    rw [hmem, mem_fst_candidates horder]
    simp
  refine ⟨m, hfold, hall, ?_, ?_⟩
  · rw [hkeys, hl.zero_iff, hr.zero_iff, hl.none_iff, hr.none_iff]
    cases holel <;> cases holer <;> simp
  · rw [hkeys, hl.none_iff, hr.none_iff]
    cases holel <;> cases holer <;> simp

theorem retain (h : Table z good hole m) {keep : Option κ → ν → Bool}
    (hnone : ∀ v, keep none v = true) (hzero : hole = true → ∀ v, keep (some z) v = true) :
    Table z good hole (FiniteMap.retain keep m) where
  good := by
    intro ctx v hv
    rw [lookup_retain, Option.filter_eq_some_iff] at hv
    exact h.good ctx v hv.1
  zero_iff := by
    rw [← h.zero_iff]
    exact ⟨mem_of_mem_retain, fun h₀ => mem_retain h₀ (hzero (h.zero_iff.1 h₀))⟩
  none_iff := by
    rw [← h.none_iff]
    exact ⟨mem_of_mem_retain, fun h₀ => mem_retain h₀ hnone⟩

/-- Under a hole, a table that was cut down to the contexts `none` and `some z` only has the
latter. -/
theorem eq_of_mem_retain {keep : Option κ → ν → Bool}
    (h : Table z good true (FiniteMap.retain keep m))
    (hkeep : ∀ k v, keep (some k) v = true → k = z) {ctx : Option κ}
    (hctx : ctx ∈ FiniteMap.retain keep m) :
    ctx = some z := by
  cases ctx with
  | none => cases h.none_iff.1 hctx
  | some k =>
    obtain ⟨v, hv⟩ := exists_lookup hctx
    rw [lookup_retain, Option.filter_eq_some_iff] at hv
    rw [hkeep k v hv.2]

theorem prune (h : Table z good hole m) (size : ν → ℕ) :
    Table z good hole (ContextTable.prune size m) := by
  unfold ContextTable.prune
  split
  · next best hbest =>
    refine h.retain (fun _ => rfl) fun hopen => ?_
    rw [h.none_iff.1 (mem_of_lookup hbest)] at hopen
    cases hopen
  · exact h

/-- A value for `none` may be offered where there is no hole. -/
theorem offer_none (h : Table z good false m) (better : ν → ν → Bool) {v : ν} (hv : good none v) :
    Table z good false (offer better m none v) where
  good := by
    intro ctx w hw
    rcases eq_or_of_lookup_offer hw with ⟨rfl, rfl⟩ | hw
    · exact hv
    · exact h.good ctx w hw
  zero_iff := by
    rw [mem_offer, ← h.zero_iff]
    simp
  none_iff := by
    rw [mem_offer, h.none_iff]
    simp

/-- **Covering.**  Without a hole, the value of every context `some k` may be made one for `none`;
where that fails for no key of the table, it fails for none of a list of them. -/
theorem cover (h : Table z good false m) {step : Map (Option κ) ν → κ → Except ε (Map (Option κ) ν)}
    {keys : List κ} (hkeys : ∀ k ∈ keys, some k ∈ m)
    (hstep : ∀ k m', Table z good false m' → some k ∈ m' → ∃ m'', step m' k = .ok m'' ∧
      Table z good false m'' ∧ ∀ k', some k' ∈ m'' ↔ some k' ∈ m') :
    ∃ m', keys.foldlM step m = .ok m' ∧ Table z good false m' ∧ ∀ k, some k ∈ m' ↔ some k ∈ m :=
  foldlM_ok (P := fun s => Table z good false s ∧ ∀ k, some k ∈ s ↔ some k ∈ m)
    (fun k hk s hs => by
      obtain ⟨s', hs', htable, hsame⟩ := hstep k s hs.1 ((hs.2 k).2 (hkeys k hk))
      exact ⟨s', hs', htable, fun k' => (hsame k').trans (hs.2 k')⟩)
    ⟨h, fun _ => Iff.rfl⟩

end Table

/-! ### The smallest value for a context -/

/-- Under the context `some k` there is a value of at most this size: its own, or the one for
`none`. -/
def Affords (size : ν → ℕ) (m : Map (Option κ) ν) (k : κ) (n : ℕ) : Prop :=
  ∃ ctx, (ctx = some k ∨ ctx = none) ∧ Within size m ctx n

namespace Affords

variable {size : ν → ℕ} {m : Map (Option κ) ν} {k : κ} {n : ℕ}

theorem of_none (h : Within size m none n) (k : κ) : Affords size m k n := ⟨none, .inr rfl, h⟩

theorem mono (h : Affords size m k n) {n' : ℕ} (hn : n ≤ n') : Affords size m k n' := by
  obtain ⟨ctx, hctx, hle⟩ := h
  exact ⟨ctx, hctx, hle.mono hn⟩

/-- **Joining adds the sizes up**: the value for `none` stands in on either side. -/
theorem join {left right : Map (Option κ) ν} {order : List (Option κ)}
    (horder : ∀ ctx, ctx ∈ order ↔ ctx ∈ left ∨ ctx ∈ right) {make : ν × ν → Except ε ν}
    (hmake : ∀ a b, ∃ v, make (a, b) = .ok v ∧ size v ≤ size a + size b)
    (hfold : (candidates order left right).foldlM (offerM (smaller size) make) ∅ = .ok m) {a b : ℕ}
    (hl : Affords size left k a) (hr : Affords size right k b) : Affords size m k (a + b) := by
  obtain ⟨cl, hcl, v, hv, hva⟩ := hl
  obtain ⟨cr, hcr, w, hw, hwb⟩ := hr
  obtain ⟨u, hu, hsize⟩ := hmake v w
  have hsum : size u ≤ a + b := Nat.le_trans hsize (Nat.add_le_add hva hwb)
  -- the candidate for this context is one of its three pairs
  have hoffered : ∀ ctx, (ctx = some k ∨ ctx = none) → ctx ∈ left ∨ ctx ∈ right →
      (ctx, v, w) ∈ pairs left right ctx → Affords size m k (a + b) := by
    intro ctx hctx hin hpair
    have hmem : (ctx, v, w) ∈ candidates order left right :=
      List.mem_flatMap.2 ⟨ctx, (horder ctx).2 hin, hpair⟩
    exact ⟨ctx, hctx, (Within.of_mem hfold hmem hu).mono hsum⟩
  rcases hcl with rfl | rfl <;> rcases hcr with rfl | rfl
  · exact hoffered (some k) (.inl rfl) (.inl (mem_of_lookup hv)) (mem_pairs.2 ⟨rfl, .inl ⟨hv, hw⟩⟩)
  · exact hoffered (some k) (.inl rfl) (.inl (mem_of_lookup hv))
      (mem_pairs.2 ⟨rfl, .inr (.inr ⟨hv, hw⟩)⟩)
  · exact hoffered (some k) (.inl rfl) (.inr (mem_of_lookup hw))
      (mem_pairs.2 ⟨rfl, .inr (.inl ⟨hv, hw⟩)⟩)
  · exact hoffered none (.inr rfl) (.inl (mem_of_lookup hv)) (mem_pairs.2 ⟨rfl, .inl ⟨hv, hw⟩⟩)

theorem retain (h : Affords size m k n) {keep : Option κ → ν → Bool}
    (hnone : ∀ v, keep none v = true) (hk : ∀ v, keep (some k) v = true) :
    Affords size (FiniteMap.retain keep m) k n := by
  obtain ⟨ctx, hctx, v, hv, hle⟩ := h
  refine ⟨ctx, hctx, v, ?_, hle⟩
  rw [lookup_retain, hv, Option.filter_some, if_pos]
  rcases hctx with rfl | rfl
  · exact hk v
  · exact hnone v

/-- **Pruning loses nothing**: what is dropped is no smaller than the value for `none`. -/
theorem prune (h : Affords size m k n) : Affords size (ContextTable.prune size m) k n := by
  rw [ContextTable.prune]
  split
  · next best hbest =>
    have hkeep : (FiniteMap.retain (fun ctx v => ctx.isNone || size v < size best) m).lookup none =
        some best := by
      rw [lookup_retain, hbest]
      rfl
    obtain ⟨ctx, hctx, v, hv, hle⟩ := h
    by_cases hlt : size v < size best
    · refine ⟨ctx, hctx, v, ?_, hle⟩
      rw [lookup_retain, hv, Option.filter_some, if_pos (by simp [hlt])]
    · exact .of_none ⟨best, hkeep, Nat.le_trans (Nat.le_of_not_lt hlt) hle⟩ k
  · exact h

end Affords

/-- What is left after pruning beats the value for `none`. -/
theorem lt_of_lookup_prune {size : ν → ℕ} {m : Map (Option κ) ν} {best v : ν} {k : κ}
    (hbest : (ContextTable.prune size m).lookup none = some best)
    (hv : (ContextTable.prune size m).lookup (some k) = some v) : size v < size best := by
  cases hnone : m.lookup none with
  | none =>
    rw [ContextTable.prune, hnone] at hbest
    exact absurd (hnone.symm.trans hbest) (by simp)
  | some best' =>
    rw [ContextTable.prune, hnone] at hbest hv
    rw [lookup_retain, Option.filter_eq_some_iff] at hbest hv
    obtain rfl : best' = best := Option.some.inj (hnone.symm.trans hbest.1)
    simpa using hv.2

end ContextTable

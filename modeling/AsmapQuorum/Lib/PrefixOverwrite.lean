import Mathlib.Data.Stream.Init
import Mathlib.Data.List.Sort
import Mathlib.Data.List.Infix

/-!
# Overwriting functions on infinite words, one prefix at a time

A prefix `p` names the set of infinite words that start with `p`.  A table of `(prefix, value)`
assignments changes a function on infinite words by overwriting it on those sets in turn.  The file
develops that operation over an arbitrary alphabet and value type:

* `Covers p x` — the word `x` starts with `p`; two prefixes of one word are nested
  (`Covers.prefix_of_length_le`);
* `Before p q` — the two part, so that neither lies in the other, and `p` comes first
  (`pairwise_before_append`, `eq_of_prefix_of_before`);
* `assign`, `assignAll` — one overwrite, and a list of them in order;
* `assignAll_apply` — a list of overwrites gives `x` the value of the *last* listed prefix of `x`;
* `Longest L x e` — `e` is a longest entry of `L` covering `x`;
* `assignAll_sorted_of_longest` — applied shortest first, the overwrites give `x` the value of its
  longest prefix in the table, whatever the order of the table was (`assignMulti_perm`);
* `assignMulti_of_isLast` — among several entries of that prefix the last one counts;
* `below`, `ground` — the part of a table below a first symbol, and what it leaves of a constant
  (`assignMulti_cons`).
-/

namespace PrefixOverwrite

variable {α β : Type*}

/-! ### Prefixes of infinite words -/

/-- The infinite word `x` starts with the finite word `p`. -/
def Covers (p : List α) (x : Stream' α) : Prop := x.take p.length = p

instance [DecidableEq α] (p : List α) (x : Stream' α) : Decidable (Covers p x) :=
  inferInstanceAs (Decidable (x.take p.length = p))

@[simp] theorem covers_nil (x : Stream' α) : Covers [] x := rfl

@[simp] theorem covers_cons (a : α) (p : List α) (x : Stream' α) :
    Covers (a :: p) x ↔ x.head = a ∧ Covers p x.tail := by
  simp only [Covers, List.length_cons, Stream'.take_succ, List.cons.injEq]

theorem covers_append (p : List α) (x : Stream' α) : Covers p (p ++ₛ x) := by
  rw [Covers, Stream'.take_append_of_le_length _ p x le_rfl, List.take_length]

/-- A short prefix covers an extension of a long one exactly when it is a prefix of it. -/
theorem covers_append_iff {p q : List α} (x : Stream' α) (h : p.length ≤ q.length) :
    Covers p (q ++ₛ x) ↔ p <+: q := by
  rw [Covers, Stream'.take_append_of_le_length _ q x h, List.prefix_iff_eq_take, eq_comm]

theorem covers_append_left (p q : List α) (x : Stream' α) :
    Covers (p ++ q) x ↔ Covers p x ∧ Covers q (x.drop p.length) := by
  induction p generalizing x with
  | nil => simp
  | cons a p ih =>
    rw [List.cons_append, covers_cons, covers_cons, ih, and_assoc]
    rfl

/-- Two prefixes of one word are nested. -/
theorem Covers.prefix_of_length_le {p q : List α} {x : Stream' α} (hp : Covers p x)
    (hq : Covers q x) (h : p.length ≤ q.length) : p <+: q := by
  have hx : q ++ₛ x.drop q.length = x := by
    conv_rhs => rw [← Stream'.append_take_drop q.length x, show x.take q.length = q from hq]
  rw [← hx] at hp
  exact (covers_append_iff _ h).1 hp

theorem Covers.eq_of_length_eq {p q : List α} {x : Stream' α} (hp : Covers p x)
    (hq : Covers q x) (h : p.length = q.length) : p = q :=
  (hp.prefix_of_length_le hq h.le).eq_of_length h

/-- A word behind a prefix, its first symbol moved into the prefix. -/
theorem append_head_tail (p : List α) (x : Stream' α) : p ++ₛ x = (p ++ [x.head]) ++ₛ x.tail := by
  rw [Stream'.append_append_stream, Stream'.cons_append_stream, Stream'.nil_append_stream,
    Stream'.eta]

/-- Two symbols behind one prefix lead to different words. -/
theorem eq_of_prefix_snoc {p q : List α} {a b : α} (ha : p ++ [a] <+: q) (hb : p ++ [b] <+: q) :
    a = b := by
  have heq := (List.prefix_of_prefix_length_le ha hb (by simp)).eq_of_length (by simp)
  exact (List.cons.inj ((List.append_right_inj p).1 heq)).1

/-- What lies below a symbol covers only what goes on with it. -/
theorem head_eq_of_covers {p q : List α} {b : α} {x : Stream' α} (hq : p ++ [b] <+: q)
    (hx : Covers q (p ++ₛ x)) : x.head = b := by
  obtain ⟨r, rfl⟩ := hq
  rw [append_head_tail, covers_append_left, covers_append_iff _ (by simp)] at hx
  exact eq_of_prefix_snoc List.prefix_rfl hx.1

/-! ### Prefixes in order -/

section Before

variable [Preorder α] {p q : List α}

/-- `p` and `q` part, and `p` goes on with the smaller symbol. -/
def Before (p q : List α) : Prop :=
  ∃ s a b u v, a < b ∧ p = s ++ a :: u ∧ q = s ++ b :: v

theorem Before.lt (h : Before p q) : p < q := by
  obtain ⟨s, a, b, u, v, hab, rfl, rfl⟩ := h
  exact List.append_left_lt (List.cons_lt_cons_iff.2 (.inl hab))

/-- Prefixes that part cover no common word. -/
theorem Before.not_nested (h : Before p q) : ¬p <+: q ∧ ¬q <+: p := by
  obtain ⟨s, a, b, u, v, hab, rfl, rfl⟩ := h
  rw [List.prefix_append_right_inj, List.prefix_append_right_inj, List.cons_prefix_cons,
    List.cons_prefix_cons]
  exact ⟨fun heq => hab.ne heq.1, fun heq => hab.ne' heq.1⟩

/-- Lists below two symbols of one prefix, in the order of the symbols. -/
theorem pairwise_before_append {P Q : List (List α)} {s : List α} {a b : α} (hab : a < b)
    (hP : P.Pairwise Before) (hQ : Q.Pairwise Before) (hbelowP : ∀ p ∈ P, s ++ [a] <+: p)
    (hbelowQ : ∀ q ∈ Q, s ++ [b] <+: q) : (P ++ Q).Pairwise Before := by
  refine List.pairwise_append.2 ⟨hP, hQ, fun p hp q hq => ?_⟩
  obtain ⟨u, hu⟩ := hbelowP p hp
  obtain ⟨v, hv⟩ := hbelowQ q hq
  exact ⟨s, a, b, u, v, hab, by simp [← hu], by simp [← hv]⟩

/-- A list in that order is increasing and no prefix in it lies in another. -/
theorem pairwise_of_before {P : List (List α)} (h : P.Pairwise Before) :
    P.Pairwise fun p q => p < q ∧ ¬p <+: q ∧ ¬q <+: p :=
  h.imp fun hpq => ⟨hpq.lt, hpq.not_nested⟩

/-- A word extends at most one prefix of a list in that order. -/
theorem eq_of_prefix_of_before {γ : Type*} {f : γ → List α} {L : List γ}
    (h : (L.map f).Pairwise Before) {c d : γ} (hc : c ∈ L) (hd : d ∈ L) {w : List α}
    (hcw : f c <+: w) (hdw : f d <+: w) : c = d := by
  rw [List.pairwise_map] at h
  have hpart : ∀ c d, Before (f c) (f d) → f c <+: w → f d <+: w → c = d := by
    intro c d hcd hcw hdw
    rcases List.prefix_or_prefix_of_prefix hcw hdw with hpre | hpre
    · exact absurd hpre hcd.not_nested.1
    · exact absurd hpre hcd.not_nested.2
  refine List.Pairwise.forall_of_forall_of_flip (R := fun c d => f c <+: w → f d <+: w → c = d)
    (fun _ _ _ _ => rfl) (h.imp fun {c d} => hpart c d) ?_ hc hd hcw hdw
  exact h.imp fun {c d} hcd hdw hcw => (hpart c d hcd hcw hdw).symm

end Before

/-! ### Overwriting -/

variable [DecidableEq α]

/-- `f` with the value `v` on every word that starts with `p`. -/
def assign (f : Stream' α → β) (p : List α) (v : β) : Stream' α → β :=
  fun x => if Covers p x then v else f x

/-- The overwrites of a list, first to last. -/
def assignAll (f : Stream' α → β) (L : List (List α × β)) : Stream' α → β :=
  L.foldl (fun g e => assign g e.1 e.2) f

@[simp] theorem assignAll_nil (f : Stream' α → β) : assignAll f [] = f := rfl

@[simp] theorem assignAll_cons (f : Stream' α → β) (e : List α × β) (L : List (List α × β)) :
    assignAll f (e :: L) = assignAll (assign f e.1 e.2) L := rfl

theorem assignAll_append (f : Stream' α → β) (L M : List (List α × β)) :
    assignAll f (L ++ M) = assignAll (assignAll f L) M := by
  simp only [assignAll, List.foldl_append]

/-- **The last covering entry wins.** -/
theorem assignAll_apply (f : Stream' α → β) (L : List (List α × β)) (x : Stream' α) :
    assignAll f L x =
      (((L.filter fun e => Covers e.1 x).getLast?).map Prod.snd).getD (f x) := by
  induction L using List.reverseRecOn with
  | nil => rfl
  | append_singleton L e ih =>
    rw [assignAll_append, assignAll_cons, assignAll_nil]
    by_cases h : Covers e.1 x
    · simp [assign, h]
    · simp [assign, h, ih]

theorem assignAll_of_not_covers (f : Stream' α → β) {L : List (List α × β)} {x : Stream' α}
    (h : ∀ e ∈ L, ¬Covers e.1 x) : assignAll f L x = f x := by
  have hnil : (L.filter fun e => Covers e.1 x) = [] := by
    rw [List.filter_eq_nil_iff]
    intro e he
    simpa using h e he
  rw [assignAll_apply, hnil]
  rfl

/-! ### Shortest first is longest match -/

/-- `e` is a longest entry of the table `L` among those that cover `x`. -/
def Longest (L : List (List α × β)) (x : Stream' α) (e : List α × β) : Prop :=
  e ∈ L ∧ Covers e.1 x ∧ ∀ e' ∈ L, Covers e'.1 x → e'.1.length ≤ e.1.length

omit [DecidableEq α] in
theorem Longest.perm {L M : List (List α × β)} {x : Stream' α} {e : List α × β}
    (h : Longest L x e) (hp : L.Perm M) : Longest M x e :=
  ⟨hp.mem_iff.1 h.1, h.2.1, fun e' he' => h.2.2 e' (hp.mem_iff.2 he')⟩

omit [DecidableEq α] in
/-- Two longest matches are the same prefix. -/
theorem Longest.fst_eq {L : List (List α × β)} {x : Stream' α} {e e' : List α × β}
    (h : Longest L x e) (h' : Longest L x e') : e.1 = e'.1 :=
  h.2.1.eq_of_length_eq h'.2.1 (le_antisymm (h'.2.2 e h.1 h.2.1) (h.2.2 e' h'.1 h'.2.1))

omit [DecidableEq α] in
theorem Longest.unique {L : List (List α × β)} {x : Stream' α} {e e' : List α × β}
    (hL : (L.map Prod.fst).Nodup) (h : Longest L x e) (h' : Longest L x e') : e = e' :=
  List.inj_on_of_nodup_map hL h.1 h'.1 (h.fst_eq h')

/-- Entries in the order of their prefix lengths. -/
def byLength (e e' : List α × β) : Prop := e.1.length ≤ e'.1.length

instance : DecidableRel (byLength : List α × β → List α × β → Prop) :=
  fun e e' => inferInstanceAs (Decidable (e.1.length ≤ e'.1.length))

instance : IsTrans (List α × β) byLength := ⟨fun _ _ _ h h' => Nat.le_trans h h'⟩

instance : Std.Total (byLength : List α × β → List α × β → Prop) :=
  ⟨fun e e' => Nat.le_total e.1.length e'.1.length⟩

/-- The last covering entry of a sorted table is a longest one. -/
theorem longest_of_getLast? {L : List (List α × β)} (hs : L.Pairwise byLength) {x : Stream' α}
    {e : List α × β} (h : (L.filter fun e => Covers e.1 x).getLast? = some e) : Longest L x e := by
  obtain ⟨M, hM⟩ := List.getLast?_eq_some_iff.1 h
  have hmem : ∀ e', e' ∈ L ∧ Covers e'.1 x ↔ e' ∈ M ++ [e] := by
    intro e'
    rw [← hM]
    simp
  have hsort : (M ++ [e]).Pairwise byLength := by
    rw [← hM]
    exact hs.filter _
  have hlast : ∀ e' ∈ M ++ [e], e'.1.length ≤ e.1.length := by
    intro e' he'
    rcases List.mem_append.1 he' with hin | hin
    · exact (List.pairwise_append.1 hsort).2.2 e' hin e (List.mem_singleton_self e)
    · rw [List.mem_singleton.1 hin]
  have he := (hmem e).2 (by simp)
  exact ⟨he.1, he.2, fun e' h₁ h₂ => hlast e' ((hmem e').1 ⟨h₁, h₂⟩)⟩

/-- **Applied shortest first, the longest match wins** — or nothing changes at `x`. -/
theorem assignAll_sorted (f : Stream' α → β) {L : List (List α × β)} (hs : L.Pairwise byLength)
    (x : Stream' α) :
    (∃ e, Longest L x e ∧ assignAll f L x = e.2) ∨
      ((∀ e ∈ L, ¬Covers e.1 x) ∧ assignAll f L x = f x) := by
  cases hlast : (L.filter fun e => Covers e.1 x).getLast? with
  | none =>
    right
    have hcov : ∀ e ∈ L, ¬Covers e.1 x := by
      simpa [List.filter_eq_nil_iff] using hlast
    exact ⟨hcov, assignAll_of_not_covers f hcov⟩
  | some e =>
    left
    refine ⟨e, longest_of_getLast? hs hlast, ?_⟩
    rw [assignAll_apply, hlast]
    rfl

theorem assignAll_sorted_of_longest (f : Stream' α → β) {L : List (List α × β)}
    (hs : L.Pairwise byLength) (hL : (L.map Prod.fst).Nodup) {x : Stream' α} {e : List α × β}
    (h : Longest L x e) : assignAll f L x = e.2 := by
  rcases assignAll_sorted f hs x with ⟨e', he', hv⟩ | ⟨hcov, -⟩
  · rw [hv, he'.unique hL h]
  · exact absurd h.2.1 (hcov e h.1)

/-- The overwrites of a table, shortest prefix first (ties in table order). -/
def assignMulti (f : Stream' α → β) (L : List (List α × β)) : Stream' α → β :=
  assignAll f (L.insertionSort byLength)

theorem assignMulti_of_longest (f : Stream' α → β) {L : List (List α × β)}
    (hL : (L.map Prod.fst).Nodup) {x : Stream' α} {e : List α × β} (h : Longest L x e) :
    assignMulti f L x = e.2 := by
  have hp : (L.insertionSort byLength).Perm L := List.perm_insertionSort _ L
  exact assignAll_sorted_of_longest f (List.pairwise_insertionSort _ L)
    ((hp.map Prod.fst).nodup_iff.2 hL) (h.perm hp.symm)

theorem assignMulti_of_not_covers (f : Stream' α → β) {L : List (List α × β)} {x : Stream' α}
    (h : ∀ e ∈ L, ¬Covers e.1 x) : assignMulti f L x = f x :=
  assignAll_of_not_covers f fun e he => h e ((List.mem_insertionSort _).1 he)

theorem exists_longest {L : List (List α × β)} {x : Stream' α} {e : List α × β} (he : e ∈ L)
    (hx : Covers e.1 x) : ∃ e', Longest L x e' := by
  have hp : (L.insertionSort byLength).Perm L := List.perm_insertionSort _ L
  rcases assignAll_sorted (fun _ => e.2) (List.pairwise_insertionSort byLength L) x with
    ⟨e', he', -⟩ | ⟨hcov, -⟩
  · exact ⟨e', he'.perm hp⟩
  · exact absurd hx (hcov e (hp.mem_iff.2 he))

/-- **Only the entries that cover a path decide its value**: tables of distinct prefixes that agree
on these give it the same one. -/
theorem assignMulti_congr (f : Stream' α → β) {L M : List (List α × β)}
    (hL : (L.map Prod.fst).Nodup) (hM : (M.map Prod.fst).Nodup) {x : Stream' α}
    (h : ∀ e, Covers e.1 x → (e ∈ L ↔ e ∈ M)) : assignMulti f L x = assignMulti f M x := by
  by_cases hcov : ∃ e ∈ L, Covers e.1 x
  · obtain ⟨e, he, hx⟩ := hcov
    obtain ⟨e', he'⟩ := exists_longest he hx
    have hlongest : Longest M x e' :=
      ⟨(h e' he'.2.1).1 he'.1, he'.2.1, fun d hd hdx => he'.2.2 d ((h d hdx).2 hd) hdx⟩
    rw [assignMulti_of_longest f hL he', assignMulti_of_longest f hM hlongest]
  · push Not at hcov
    rw [assignMulti_of_not_covers f hcov,
      assignMulti_of_not_covers f fun e he hx => hcov e ((h e hx).2 he) hx]

theorem assignMulti_append_left (f : Stream' α → β) {L M : List (List α × β)}
    (hLM : ((L ++ M).map Prod.fst).Nodup) {x : Stream' α} (h : ∀ e ∈ M, ¬Covers e.1 x) :
    assignMulti f (L ++ M) x = assignMulti f L x := by
  have hL : (L.map Prod.fst).Nodup := hLM.sublist ((List.sublist_append_left L M).map _)
  refine assignMulti_congr f hLM hL fun e hx => ?_
  rw [List.mem_append, or_iff_left fun he => h e he hx]

theorem assignMulti_append_right (f : Stream' α → β) {L M : List (List α × β)}
    (hLM : ((L ++ M).map Prod.fst).Nodup) {x : Stream' α} (h : ∀ e ∈ L, ¬Covers e.1 x) :
    assignMulti f (L ++ M) x = assignMulti f M x := by
  have hM : (M.map Prod.fst).Nodup := hLM.sublist ((List.sublist_append_right L M).map _)
  refine assignMulti_congr f hLM hM fun e hx => ?_
  rw [List.mem_append, or_iff_right fun he => h e he hx]

/-- **An entry that is shorter than all others is their ground.** -/
theorem assignMulti_cons_of_covers (f : Stream' α → β) {p : List α} {v : β} {L : List (List α × β)}
    (hL : (((p, v) :: L).map Prod.fst).Nodup) {x : Stream' α} (hp : Covers p x)
    (hshort : ∀ e ∈ L, p.length ≤ e.1.length) :
    assignMulti f ((p, v) :: L) x = assignMulti (fun _ => v) L x := by
  by_cases hcov : ∃ e ∈ L, Covers e.1 x
  · obtain ⟨e, he, hx⟩ := hcov
    obtain ⟨d, hd⟩ := exists_longest he hx
    have hlongest : Longest ((p, v) :: L) x d := by
      refine ⟨List.mem_cons_of_mem _ hd.1, hd.2.1, fun e' he' hx' => ?_⟩
      rcases List.mem_cons.1 he' with rfl | he'
      · exact hshort d hd.1
      · exact hd.2.2 e' he' hx'
    rw [assignMulti_of_longest f hL hlongest,
      assignMulti_of_longest _ (hL.sublist ((List.sublist_cons_self _ L).map _)) hd]
  · push Not at hcov
    have hlongest : Longest ((p, v) :: L) x (p, v) := by
      refine ⟨List.mem_cons_self, hp, fun e' he' hx' => ?_⟩
      rcases List.mem_cons.1 he' with rfl | he'
      · exact le_rfl
      · exact absurd hx' (hcov e' he')
    rw [assignMulti_of_longest f hL hlongest, assignMulti_of_not_covers _ hcov]

/-- A table gives a word the value of one of its entries, or leaves it alone. -/
theorem assignMulti_eq_or (f : Stream' α → β) {L : List (List α × β)}
    (hL : (L.map Prod.fst).Nodup) (x : Stream' α) :
    (∃ e ∈ L, Covers e.1 x ∧ assignMulti f L x = e.2) ∨ assignMulti f L x = f x := by
  by_cases hcov : ∃ e ∈ L, Covers e.1 x
  · obtain ⟨e, he, hx⟩ := hcov
    obtain ⟨d, hd⟩ := exists_longest he hx
    exact .inl ⟨d, hd.1, hd.2.1, assignMulti_of_longest f hL hd⟩
  · push Not at hcov
    exact .inr (assignMulti_of_not_covers f hcov)

/-- **The order of a table of distinct prefixes is immaterial.** -/
theorem assignMulti_perm (f : Stream' α → β) {L M : List (List α × β)} (hp : L.Perm M)
    (hL : (L.map Prod.fst).Nodup) : assignMulti f L = assignMulti f M := by
  funext x
  exact assignMulti_congr f hL ((hp.map Prod.fst).nodup_iff.1 hL) fun e _ => hp.mem_iff

/-! ### Repeated prefixes -/

/-- A stable sort keeps the entries of one prefix in their order. -/
theorem filter_insertionSort (L : List (List α × β)) (q : List α) :
    (L.insertionSort byLength).filter (fun e => e.1 = q) = L.filter fun e => e.1 = q := by
  have hfst : ∀ e ∈ L.filter (fun e => e.1 = q), e.1 = q := fun e he =>
    of_decide_eq_true (List.mem_filter.1 he).2
  have hsorted : (L.filter fun e => e.1 = q).Pairwise byLength := by
    refine List.pairwise_of_forall_mem_list fun e he e' he' => ?_
    rw [byLength, hfst e he, hfst e' he']
  have hsub := (List.sublist_insertionSort hsorted List.filter_sublist).filter fun e => e.1 = q
  rw [List.filter_filter] at hsub
  simp only [Bool.and_self] at hsub
  have hperm := (List.perm_insertionSort byLength L).filter fun e => e.1 = q
  exact (hsub.eq_of_length hperm.length_eq.symm).symm

/-- `e` is the last entry of its prefix. -/
def IsLast (L : List (List α × β)) (e : List α × β) : Prop :=
  (L.filter fun e' => e'.1 = e.1).getLast? = some e

theorem IsLast.mem {L : List (List α × β)} {e : List α × β} (h : IsLast L e) : e ∈ L :=
  (List.mem_filter.1 (List.mem_of_getLast? h)).1

theorem exists_isLast {L : List (List α × β)} {e : List α × β} (he : e ∈ L) :
    ∃ e', IsLast L e' ∧ e'.1 = e.1 := by
  cases hlast : (L.filter fun e' => e'.1 = e.1).getLast? with
  | none =>
    rw [List.getLast?_eq_none_iff, List.filter_eq_nil_iff] at hlast
    exact absurd (decide_eq_true rfl) (hlast e he)
  | some e' =>
    have hfst : e'.1 = e.1 :=
      of_decide_eq_true (List.mem_filter.1 (List.mem_of_getLast? hlast)).2
    refine ⟨e', ?_, hfst⟩
    rw [IsLast, hfst, hlast]

/-- What covers a word is outdone by a longest entry that is the last of its prefix. -/
theorem exists_longest_isLast {L : List (List α × β)} {x : Stream' α} {e : List α × β} (he : e ∈ L)
    (hx : Covers e.1 x) : ∃ e', Longest L x e' ∧ IsLast L e' := by
  obtain ⟨d, hd⟩ := exists_longest he hx
  obtain ⟨e', hlast, hfst⟩ := exists_isLast hd.1
  refine ⟨e', ⟨hlast.mem, ?_, fun d' hd' hx' => ?_⟩, hlast⟩
  · rw [hfst]
    exact hd.2.1
  · rw [hfst]
    exact hd.2.2 d' hd' hx'

/-- **The last of the longest matches wins.** -/
theorem assignMulti_of_isLast (f : Stream' α → β) {L : List (List α × β)} {x : Stream' α}
    {e : List α × β} (h : Longest L x e) (hlast : IsLast L e) : assignMulti f L x = e.2 := by
  have hp : (L.insertionSort byLength).Perm L := List.perm_insertionSort _ L
  cases hget : ((L.insertionSort byLength).filter fun e => Covers e.1 x).getLast? with
  | none =>
    rw [List.getLast?_eq_none_iff, List.filter_eq_nil_iff] at hget
    exact absurd (decide_eq_true h.2.1) (hget e (hp.mem_iff.2 h.1))
  | some d =>
    have hd := (longest_of_getLast? (List.pairwise_insertionSort byLength L) hget).perm hp
    have hfst : d.1 = e.1 := hd.fst_eq h
    -- among the entries of that prefix, the sorted table ends as the table does
    have hsame : ((L.insertionSort byLength).filter fun e' => e'.1 = e.1).getLast? = some d := by
      obtain ⟨M, hM⟩ := List.getLast?_eq_some_iff.1 hget
      have hfilter : (L.insertionSort byLength).filter (fun e' => e'.1 = e.1) =
          ((L.insertionSort byLength).filter fun e' => Covers e'.1 x).filter
            fun e' => e'.1 = e.1 := by
        rw [List.filter_filter]
        refine List.filter_congr fun e' _ => ?_
        by_cases heq : e'.1 = e.1
        · simp [heq, h.2.1]
        · simp [heq]
      rw [hfilter, hM, List.filter_append]
      simp [hfst]
    rw [filter_insertionSort, show _ = some e from hlast, Option.some.injEq] at hsame
    rw [assignMulti, assignAll_apply, hget, hsame]
    rfl

/-! ### Below the first symbol -/

/-- The entries below a symbol, without it. -/
def below (a : α) (L : List (List α × β)) : List (List α × β) :=
  L.filterMap fun e =>
    match e.1 with
    | [] => none
    | b :: q => if b = a then some (q, e.2) else none

/-- What the entries for everything leave of a constant. -/
def ground (d : β) (L : List (List α × β)) : β :=
  ((L.filter fun e => e.1.isEmpty).getLast?.map Prod.snd).getD d

omit [DecidableEq α] in
/-- Without entries for everything a constant stays. -/
theorem ground_of_ne {L : List (List α × β)} (h : ∀ e ∈ L, e.1 ≠ []) (d : β) : ground d L = d := by
  have hnil : (L.filter fun e => e.1.isEmpty) = [] :=
    List.filter_eq_nil_iff.2 fun e he => by simpa using h e he
  rw [ground, hnil]
  rfl

theorem mem_below {a : α} {L : List (List α × β)} {e : List α × β} :
    e ∈ below a L ↔ (a :: e.1, e.2) ∈ L := by
  rw [below, List.mem_filterMap]
  constructor
  · rintro ⟨⟨_ | ⟨b, q⟩, v⟩, hd, heq⟩
    · cases heq
    · dsimp only at heq
      split_ifs at heq with hb
      cases heq
      rw [← hb]
      exact hd
  · intro h
    exact ⟨_, h, if_pos rfl⟩

theorem filter_below (a : α) (L : List (List α × β)) (q : List α) :
    (below a L).filter (fun e => e.1 = q) =
      (L.filter fun e => e.1 = a :: q).map fun e => (e.1.tail, e.2) := by
  induction L with
  | nil => rfl
  | cons e L ih =>
    obtain ⟨_ | ⟨b, p⟩, v⟩ := e
    · simpa [below] using ih
    · by_cases hb : b = a
      · by_cases hp : p = q <;> simpa [below, hb, hp] using ih
      · simpa [below, hb] using ih

theorem IsLast.of_below {a : α} {L : List (List α × β)} {e : List α × β}
    (h : IsLast (below a L) e) :
    IsLast L (a :: e.1, e.2) := by
  rw [IsLast, filter_below, List.getLast?_map, Option.map_eq_some_iff] at h
  obtain ⟨d, hd, heq⟩ := h
  have hfst : d.1 = a :: e.1 := of_decide_eq_true (List.mem_filter.1 (List.mem_of_getLast? hd)).2
  subst heq
  have hroot : (a :: d.1.tail, d.2) = d := Prod.ext hfst.symm rfl
  rw [hroot, IsLast, hfst]
  exact hd

/-- **A table acts below a symbol as its part there**, on the ground that the rest of it lays. -/
theorem assignMulti_cons (d : β) (L : List (List α × β)) (a : α) (x : Stream' α) :
    assignMulti (fun _ => d) L (Stream'.cons a x) =
      assignMulti (fun _ => ground d L) (below a L) x := by
  have hlift : ∀ e ∈ L, Covers e.1 (Stream'.cons a x) → e.1 = [] ∨
      ∃ e' ∈ below a L, e = (a :: e'.1, e'.2) ∧ Covers e'.1 x := by
    rintro ⟨_ | ⟨b, q⟩, v⟩ he hx
    · exact .inl rfl
    · rw [covers_cons] at hx
      obtain ⟨rfl, hx⟩ := hx
      exact .inr ⟨(q, v), mem_below.2 he, rfl, hx⟩
  by_cases hcov : ∃ e ∈ below a L, Covers e.1 x
  · obtain ⟨e, he, hx⟩ := hcov
    obtain ⟨e', hlong, hlast⟩ := exists_longest_isLast he hx
    have hlong' : Longest L (Stream'.cons a x) (a :: e'.1, e'.2) := by
      refine ⟨mem_below.1 hlong.1, (covers_cons ..).2 ⟨rfl, hlong.2.1⟩, fun d hd hdx => ?_⟩
      rcases hlift d hd hdx with hroot | ⟨d', hd', rfl, hdx'⟩
      · simp [hroot]
      · exact Nat.succ_le_succ (hlong.2.2 d' hd' hdx')
    rw [assignMulti_of_isLast _ hlong hlast, assignMulti_of_isLast _ hlong' hlast.of_below]
  · push Not at hcov
    rw [assignMulti_of_not_covers _ hcov]
    have hroot : ∀ e ∈ L, Covers e.1 (Stream'.cons a x) → e.1 = [] := by
      intro e he hx
      rcases hlift e he hx with hnil | ⟨e', he', -, hx'⟩
      · exact hnil
      · exact absurd hx' (hcov e' he')
    by_cases hany : ∃ e ∈ L, e.1 = []
    · obtain ⟨e, he, hnil⟩ := hany
      obtain ⟨e', hlast, hfst⟩ := exists_isLast he
      rw [hnil] at hfst
      have hlong : Longest L (Stream'.cons a x) e' :=
        ⟨hlast.mem, by rw [hfst]; exact covers_nil _, fun d hd hdx => by simp [hroot d hd hdx]⟩
      have hsame : (L.filter fun e => e.1.isEmpty) = L.filter fun e => e.1 = e'.1 :=
        List.filter_congr fun e _ => by cases hp : e.1 <;> simp [hfst]
      rw [assignMulti_of_isLast _ hlong hlast, ground, hsame,
        show (L.filter fun d => d.1 = e'.1).getLast? = some e' from hlast]
      rfl
    · push Not at hany
      rw [assignMulti_of_not_covers _ fun e he hx => hany e he (hroot e he hx), ground_of_ne hany]

/-- Every entry lies at the root or below its first symbol. -/
theorem length_below (L : List (List Bool × β)) :
    L.length = (L.filter fun e => e.1.isEmpty).length +
      ((below false L).length + (below true L).length) := by
  induction L with
  | nil => rfl
  | cons e L ih =>
    obtain ⟨_ | ⟨b, q⟩, v⟩ := e
    · simp only [below, List.filterMap_cons, List.length_cons, List.filter_cons, List.isEmpty_nil,
        if_true] at ih ⊢
      omega
    · cases b <;> simp [below] at ih ⊢ <;> omega

end PrefixOverwrite

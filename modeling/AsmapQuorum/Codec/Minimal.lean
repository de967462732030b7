import AsmapQuorum.Codec.Patch

/-!
# The overlapping list is minimal

No list of assignments that rebuilds a map is shorter than the overlapping list of `to_entries`.

* `Makes fill t d L` — in surroundings of ASN `d` the list makes the trie.  It may list a
  prefix twice, or assign what a later entry takes back.
* `Makes.below_ground` — what is listed below one half makes that half, in the surroundings that the
  entries for the whole leave; `Makes.no_root` — **under a hole there are no such entries**.
* `Least fill t m` — the table affords, in all surroundings, a list as short as any that makes the
  trie.
* `TrieNode.entriesMinimal_least` — **the recursion keeps a shortest list**: joining, covering and
  pruning do; `ASMap.toEntries_minimal` — the same of the lists of the map.
-/

namespace AsmapQuorum

open FiniteMap PrefixOverwrite ContextTable

/-! ### Lists that make a trie -/

/-- Applied to surroundings of ASN `d`, the list gives every path the ASN of the trie; with `fill`,
every path that the trie assigns. -/
structure Makes (fill : Bool) (t : TrieNode) (d : ℕ) (L : List ASNEntry) : Prop where
  ne_zero : ∀ e ∈ L, e.2 ≠ 0
  restores : ∀ x, assignMulti (fun _ => d) L x = t.asnAt x ∨ fill = true ∧ t.asnAt x = 0

namespace Makes

variable {fill : Bool} {t l r : TrieNode} {d : ℕ} {L : List ASNEntry}

/-- **What is listed below a half makes it**, in the surroundings that the entries for the whole
leave. -/
theorem below_ground (h : Makes fill (.Branch l r) d L) :
    Makes fill l (ground d L) (below false L) ∧ Makes fill r (ground d L) (below true L) := by
  refine ⟨⟨fun e he => h.ne_zero (false :: e.1, e.2) (mem_below.1 he), fun x => ?_⟩,
    ⟨fun e he => h.ne_zero (true :: e.1, e.2) (mem_below.1 he), fun x => ?_⟩⟩
  · rw [← assignMulti_cons]
    exact h.restores (Stream'.cons false x)
  · rw [← assignMulti_cons]
    exact h.restores (Stream'.cons true x)

/-- **Under a hole** the surroundings are unassigned, and nothing is listed for the whole. -/
theorem no_root (h : Makes false t d L) {x : Stream' Bool} (hx : t.asnAt x = 0) :
    d = 0 ∧ ∀ e ∈ L, e.1 ≠ [] := by
  have hzero : assignMulti (fun _ => d) L x = 0 := by
    rcases h.restores x with heq | ⟨hfill, -⟩
    · rw [heq, hx]
    · cases hfill
  have hcov : ∀ e ∈ L, ¬Covers e.1 x := by
    intro e he hx
    obtain ⟨e', hlong, hlast⟩ := exists_longest_isLast he hx
    rw [assignMulti_of_isLast _ hlong hlast] at hzero
    exact h.ne_zero e' hlast.mem hzero
  rw [assignMulti_of_not_covers _ hcov] at hzero
  refine ⟨hzero, fun e he hnil => hcov e he ?_⟩
  rw [hnil]
  exact covers_nil x

end Makes

/-! ### Covering -/

namespace EntryTable

/-- What the `if !hole` loop does: contexts `some k` are left alone, and each that is visited offers
the list without a context one more entry than its own. -/
theorem cover_spec {pfx : List Bool} {keys : List ℕ} {m m' : EntryTable}
    (hfold : keys.foldlM (cover pfx) m = .ok m') :
    (∀ k, m'.lookup (some k) = m.lookup (some k)) ∧
    (∀ n, Within List.length m none n → Within List.length m' none n) ∧
    ∀ k ∈ keys, ∀ n, Within List.length m (some k) n → Within List.length m' none (n + 1) := by
  induction keys generalizing m with
  | nil =>
    cases hfold
    exact ⟨fun _ => rfl, fun _ h => h, fun k hk => by cases hk⟩
  | cons asn keys ih =>
    rw [List.foldlM_cons, cover] at hfold
    cases hfixups : m.lookup (some asn) with
    | none =>
      rw [hfixups] at hfold
      cases hfold
    | some fixups =>
      rw [hfixups] at hfold
      have hrest : keys.foldlM (cover pfx) (offer shorter m none ((pfx, asn) :: fixups)) = .ok m' :=
        hfold
      obtain ⟨hsome, hnone, hkeys⟩ := ih hrest
      have hsame : ∀ k, (offer shorter m none ((pfx, asn) :: fixups)).lookup (some k) =
          m.lookup (some k) := fun k => by
        rw [lookup_offer, if_neg (by simp)]
      refine ⟨fun k => (hsome k).trans (hsame k), fun n h => hnone n (h.offer none _), ?_⟩
      intro k hk n hn
      rcases List.mem_cons.1 hk with rfl | hk
      · obtain ⟨v, hv, hle⟩ := hn
        obtain rfl : fixups = v := Option.some.inj (hfixups.symm.trans hv)
        exact (hnone _ (Within.offer_self m none _)).mono (Nat.succ_le_succ hle)
      · refine hkeys k hk n ?_
        rw [Within, hsame]
        exact hn

end EntryTable

/-! ### The table -/

/-- In all surroundings the table affords a list as short as any that makes the trie, and a list for
certain surroundings is shorter than the one for all. -/
structure Least (fill : Bool) (t : TrieNode) (m : EntryTable) : Prop where
  affords : ∀ d L, Makes fill t d L → Affords List.length m d L.length
  shorter : ∀ best, m.lookup none = some best → ∀ k v, m.lookup (some k) = some v →
    v.length < best.length

namespace Least

open EntryTable

variable {fill : Bool} {l r : TrieNode}

theorem leaf_zero : Least fill (.Leaf 0) (AList.singleton (if fill then none else some 0) []) where
  affords d L h := by
    cases fill with
    | true => exact .of_none ⟨[], by simp, Nat.zero_le _⟩ d
    | false =>
      obtain ⟨rfl, -⟩ := h.no_root (x := Stream'.const true) rfl
      exact ⟨some 0, .inl rfl, [], by simp, Nat.zero_le _⟩
  shorter best hbest k v hv := by
    cases fill with
    | true => simp at hv
    | false => simp at hbest

theorem leaf_succ {v : ℕ} {pfx : List Bool} : Least fill (.Leaf (v + 1))
    ((AList.singleton (some (v + 1)) []).insert none [(pfx, v + 1)]) where
  affords d L h := by
    by_cases hd : d = v + 1
    · subst hd
      exact ⟨some (v + 1), .inl rfl, [], by simp, Nat.zero_le _⟩
    · have hne : L ≠ [] := by
        rintro rfl
        rcases h.restores (Stream'.const true) with heq | ⟨-, hzero⟩
        · exact hd heq
        · exact absurd hzero (Nat.succ_ne_zero v)
      exact .of_none ⟨[(pfx, v + 1)], AList.lookup_insert _, List.length_pos_iff.2 hne⟩ d
  shorter best hbest k w hw := by
    rw [AList.lookup_insert, Option.some.injEq] at hbest
    rw [AList.lookup_insert_ne (by simp), lookup_singleton] at hw
    split at hw
    · cases hw
      rw [← hbest]
      exact Nat.zero_lt_one
    · cases hw

/-- The joined table affords the two parts of a list, in the surroundings that its root leaves. -/
theorem affords_join {ε : Type*} {left right ret : EntryTable} (hl : Least fill l left)
    (hr : Least fill r right) {visited : List Ctx}
    (hvisited : ∀ ctx, ctx ∈ visited ↔ ctx ∈ left ∨ ctx ∈ right)
    (hfold : (candidates visited left right).foldlM
      (offerM EntryTable.shorter fun ab => (.ok (ab.1 ++ ab.2) : Except ε (List ASNEntry))) ∅ =
        .ok ret)
    {d : ℕ} {L : List ASNEntry} (h : Makes fill (.Branch l r) d L) :
    Affords List.length ret (ground d L) ((below false L).length + (below true L).length) := by
  obtain ⟨hfalse, htrue⟩ := h.below_ground
  let make : List ASNEntry × List ASNEntry → Except ε (List ASNEntry) :=
    fun ab => .ok (ab.1 ++ ab.2)
  have hmake : ∀ a b, ∃ v, make (a, b) = .ok v ∧ v.length ≤ a.length + b.length := fun a b =>
    ⟨a ++ b, rfl, List.length_append.le⟩
  exact .join hvisited hmake hfold (hl.affords _ _ hfalse) (hr.affords _ _ htrue)

/-- **A branch without a hole**: what the root of a list costs is the covering entry. -/
theorem closed {ε : Type*} {left right ret ret' : EntryTable} {pfx : List Bool}
    (hl : Least fill l left) (hr : Least fill r right) {visited : List Ctx}
    (hvisited : ∀ ctx, ctx ∈ visited ↔ ctx ∈ left ∨ ctx ∈ right)
    (hfold : (candidates visited left right).foldlM
      (offerM EntryTable.shorter fun ab => (.ok (ab.1 ++ ab.2) : Except ε (List ASNEntry))) ∅ =
        .ok ret)
    {keys : List ℕ} (hall : ∀ k, some k ∈ ret → k ∈ keys)
    (hcover : keys.foldlM (EntryTable.cover pfx) ret = .ok ret') :
    Least fill (.Branch l r) (EntryTable.prune ret') where
  affords d L h := by
    obtain ⟨hsome, hnone, hkeys⟩ := cover_spec hcover
    obtain ⟨ctx, hctx, hparts⟩ := affords_join hl hr hvisited hfold h
    have hlen := length_below L
    refine Affords.prune ?_
    rcases hctx with rfl | rfl
    · by_cases hroot : ∃ e ∈ L, e.1 = []
      · obtain ⟨e, he, hnil⟩ := hroot
        have hpos : 0 < (L.filter fun e : List Bool × ℕ => e.1.isEmpty).length :=
          List.length_pos_of_mem (List.mem_filter.2 ⟨he, by simp [hnil]⟩)
        obtain ⟨v, hv, -⟩ := id hparts
        have hvisit : ground d L ∈ keys := hall _ (mem_of_lookup hv)
        exact (Affords.of_none (hkeys _ hvisit _ hparts) d).mono (by omega)
      · push Not at hroot
        rw [ground_of_ne hroot] at hparts
        obtain ⟨v, hv, hle⟩ := hparts
        exact ⟨some d, .inl rfl, v, (hsome d).trans hv, by omega⟩
    · exact (Affords.of_none (hnone _ hparts) d).mono (by omega)
  shorter best hbest k v hv := lt_of_lookup_prune hbest hv

/-- **A branch over a hole**: only unassigned surroundings can be asked for. -/
theorem hole {ε : Type*} {left right ret : EntryTable} (hl : Least false l left)
    (hr : Least false r right) {visited : List Ctx}
    (hvisited : ∀ ctx, ctx ∈ visited ↔ ctx ∈ left ∨ ctx ∈ right)
    (hfold : (candidates visited left right).foldlM
      (offerM EntryTable.shorter fun ab => (.ok (ab.1 ++ ab.2) : Except ε (List ASNEntry))) ∅ =
        .ok ret)
    {x : Stream' Bool} (hx : (TrieNode.Branch l r).asnAt x = 0) :
    Least false (.Branch l r) (retainHole (EntryTable.prune ret)) where
  affords d L h := by
    obtain ⟨rfl, hroot⟩ := h.no_root hx
    have hparts := affords_join hl hr hvisited hfold h
    rw [ground_of_ne hroot] at hparts
    have hlen := length_below L
    exact (hparts.mono (by omega)).prune.retain (fun _ => rfl) fun _ => rfl
  shorter best hbest k v hv := by
    rw [retainHole, lookup_retain, Option.filter_eq_some_iff] at hbest hv
    exact lt_of_lookup_prune hbest.1 hv.1

/-- What the table hands out at the root is no longer than a list that makes the trie. -/
theorem length_root_le {t : TrieNode} {m : EntryTable} (h : Least fill t m) {L R : List ASNEntry}
    (hL : Makes fill t 0 L) (hR : (m.lookup (some 0)).or (m.lookup none) = some R) :
    R.length ≤ L.length := by
  obtain ⟨ctx, hctx, v, hv, hle⟩ := h.affords 0 L hL
  cases hzero : m.lookup (some 0) with
  | some entries =>
    rw [hzero, Option.some_or, Option.some.injEq] at hR
    subst hR
    rcases hctx with rfl | rfl
    · rw [hzero, Option.some.injEq] at hv
      rwa [hv]
    · exact Nat.le_trans (Nat.le_of_lt (h.shorter v hv 0 _ hzero)) hle
  | none =>
    rw [hzero, Option.none_or] at hR
    rcases hctx with rfl | rfl
    · rw [hzero] at hv
      cases hv
    · rw [hR, Option.some.injEq] at hv
      rwa [hv]

end Least

/-- **The recursion keeps a shortest list** for all surroundings, and knows of a hole only where
there is one. -/
theorem TrieNode.entriesMinimal_least (fill : Bool) (t : TrieNode) (pfx : List Bool)
    {m : EntryTable} {hole : Bool} (h : t.entriesMinimal fill pfx = .ok (m, hole)) :
    Least fill t m ∧ (hole = true → ∃ x, t.asnAt x = 0) := by
  induction t generalizing pfx m hole with
  | Leaf v =>
    cases v with
    | zero =>
      cases h
      exact ⟨.leaf_zero, fun _ => ⟨Stream'.const true, rfl⟩⟩
    | succ v =>
      cases h
      exact ⟨.leaf_succ, by simp⟩
  | Branch l r ihl ihr =>
    obtain ⟨⟨left, lhole⟩, hl, h⟩ := bind_eq_ok.1 h
    obtain ⟨⟨right, rhole⟩, hr, h⟩ := bind_eq_ok.1 h
    obtain ⟨ret, hret, h⟩ := bind_eq_ok.1 h
    obtain ⟨hleastl, hholel⟩ := ihl _ hl
    obtain ⟨hleastr, hholer⟩ := ihr _ hr
    cases hhole : !fill && (lhole || rhole) with
    | true =>
      rw [Bool.and_eq_true, Bool.not_eq_true', Bool.or_eq_true] at hhole
      obtain ⟨rfl, hside⟩ := hhole
      have hx : ∃ x, (Branch l r).asnAt x = 0 := by
        rcases hside with hside | hside
        · obtain ⟨x, hx⟩ := hholel hside
          exact ⟨Stream'.cons false x, hx⟩
        · obtain ⟨x, hx⟩ := hholer hside
          exact ⟨Stream'.cons true x, hx⟩
      have hopen : (!false && (lhole || rhole)) = true := by simpa using hside
      simp only [hopen, if_true] at h
      cases h
      obtain ⟨x, hzero⟩ := hx
      exact ⟨.hole hleastl hleastr (fun _ => EntryTable.For.mem_order) hret hzero,
        fun _ => ⟨x, hzero⟩⟩
    | false =>
      simp only [hhole, Bool.false_eq_true, if_false] at h
      obtain ⟨ret', hret', h⟩ := bind_eq_ok.1 h
      cases h
      have hall : ∀ k, some k ∈ ret → k ∈ EntryTable.snapshot ret :=
        fun _ => EntryTable.For.mem_snapshot.2
      exact ⟨.closed hleastl hleastr (fun _ => EntryTable.For.mem_order) hret hall hret', by simp⟩

namespace ASMap

/-- A list that makes the trie is no shorter than the minimal list. -/
theorem toEntriesMinimal_le {m : ASMap} {fill : Bool} {R : List ASNEntry}
    (hR : m.toEntriesMinimal fill = .ok R) {L : List ASNEntry} (h : Makes fill m.trie 0 L) :
    R.length ≤ L.length := by
  obtain ⟨table, hole, htable, hspec⟩ := m.trie.entriesMinimal_spec fill []
  obtain ⟨hleast, -⟩ := m.trie.entriesMinimal_least fill [] htable
  obtain ⟨entries, hroot, -⟩ := hspec.exists_root
  rw [toEntriesMinimal_of_table htable, hroot, Option.getD_some] at hR
  cases hR
  exact hleast.length_root_le h hroot

/-- **The overlapping list is minimal**: it rebuilds the map, if that is in normal form, and no list
of assignments that does is shorter; with `fill` its map extends the map, and no list whose map does
is shorter. -/
theorem toEntries_minimal (m : ASMap) :
    ∃ R F, m.toEntries false true = .ok R ∧ m.toEntries true true = .ok F ∧
      (∀ e ∈ R, e.2 ≠ 0) ∧ (m.trie.Canonical → new.updateMulti R = m) ∧
      (∀ e ∈ F, e.2 ≠ 0) ∧ (new.updateMulti F).extendsMap m = true ∧
      (∀ L : List ASNEntry, (∀ e ∈ L, e.2 ≠ 0) → new.updateMulti L = m → R.length ≤ L.length) ∧
      ∀ L : List ASNEntry, (∀ e ∈ L, e.2 ≠ 0) → (new.updateMulti L).extendsMap m = true →
        F.length ≤ L.length := by
  obtain ⟨R, hR, hdescR⟩ := m.toEntries_spec false true
  obtain ⟨F, hF, hdescF⟩ := m.toEntries_spec true true
  refine ⟨R, F, hR, hF, hdescR.ne_zero, fun hm => hdescR.updateMulti hm (.refl R), hdescF.ne_zero,
    hdescF.extendsMap (.refl F), fun L hL hmake => ?_, fun L hL hext => ?_⟩
  · refine toEntriesMinimal_le hR ⟨hL, fun x => .inl ?_⟩
    rw [← hmake, TrieNode.asnAt_updateMulti]
    rfl
  · refine toEntriesMinimal_le hF ⟨hL, fun x => ?_⟩
    by_cases hx : m.trie.asnAt x = 0
    · exact .inr ⟨rfl, hx⟩
    · left
      rw [← TrieNode.extendsTrie_iff.1 hext x hx, TrieNode.asnAt_updateMulti]
      rfl

end ASMap

end AsmapQuorum

import AsmapQuorum.Codec.Entries
import AsmapQuorum.Codec.ReferenceEncode
import AsmapQuorum.Codec.Sizes

/-!
# Holes

Both dynamic programs over the trie return a flag with their tables, the hole: unassigned space that
nothing above may cover.  The codec has no case for a table without a context to go on from, nor for
a program of the ASN 0, because the hole decides which contexts a table has.

* `HoleInvariant` — the contexts of a table.
* `Builder.guarded` — the recursion of `to_binnode` with everything that must not happen made an
  abort.
* `TrieNode.toBinnode_made` — the recursion completes as long as its Jumps can be built, for ASNs in
  range or not.
* `hole_invariant` — **the tables have the contexts that the hole says**, so nothing guarded against
  happens and no instruction `End` is ever written.
-/

namespace AsmapQuorum

open FiniteMap ContextTable Programs

/-! ### The contexts of a table -/

/-- Without `fill` a subtree with an unassigned leaf has a hole and only the context `some 0`, any
other has none and a program for every context; with `fill` every subtree has the latter. -/
structure HoleInvariant {ν : Type*} (fill : Bool) (t : TrieNode) (m : Map Ctx ν) (hole : Bool) :
    Prop where
  unassigned : fill = false → 0 ∈ t.asns → hole = true ∧ ∀ ctx, ctx ∈ m ↔ ctx = some 0
  assigned : fill = false → 0 ∉ t.asns → hole = false ∧ none ∈ m ∧ some 0 ∉ m
  filled : fill = true → none ∈ m ∧ some 0 ∉ m

/-- What the recursions carry upwards for it: the flag says where the unassigned leaves are, and
under a hole nothing but `some 0` is kept. -/
structure HoleStep {ν : Type*} (fill : Bool) (t : TrieNode) (m : Map Ctx ν) (hole : Bool) :
    Prop where
  flag : fill = false → (hole = true ↔ 0 ∈ t.asns)
  sole : (hole && !fill) = true → ∀ ctx ∈ m, ctx = some 0

section Contexts

variable {ν : Type*} {fill hole lhole rhole : Bool} {t l r : TrieNode} {m left right : Map Ctx ν}
  {good : Ctx → ν → Prop}

theorem HoleStep.leaf_zero (v : ν) :
    HoleStep fill (.Leaf 0) (AList.singleton (if fill then none else some 0) v) true where
  flag _ := by simp [TrieNode.asns]
  sole hopen ctx hctx := by
    rw [mem_singleton] at hctx
    cases fill with
    | true => cases hopen
    | false => exact hctx

theorem HoleStep.leaf_succ (v : ℕ) (m : Map Ctx ν) : HoleStep fill (.Leaf (v + 1)) m false where
  flag _ := by simp [TrieNode.asns]
  sole hopen := by cases hopen

theorem HoleStep.branch (hl : HoleStep fill l left lhole) (hr : HoleStep fill r right rhole)
    (hhole : hole = ((lhole || rhole) && !fill)) (h : Table 0 good (hole && !fill) m)
    (hretain : hole = true → ∃ ret,
      m = FiniteMap.retain (fun ctx _ => ctx.isNone || ctx == some 0) ret) :
    HoleStep fill (.Branch l r) m hole where
  flag hfill := by
    rw [hhole, TrieNode.asns, List.mem_append, ← hl.flag hfill, ← hr.flag hfill, hfill]
    simp
  sole hopen := by
    obtain ⟨ret, rfl⟩ := hretain (Bool.and_eq_true_iff.1 hopen).1
    rw [hopen] at h
    exact fun ctx => h.eq_of_mem_retain (by simp)

theorem HoleInvariant.of_table (h : Table 0 good (hole && !fill) m)
    (hstep : HoleStep fill t m hole) :
    HoleInvariant fill t m hole where
  unassigned hfill hmem := by
    subst hfill
    obtain rfl := (hstep.flag rfl).2 hmem
    refine ⟨rfl, fun ctx => ⟨hstep.sole rfl ctx, ?_⟩⟩
    rintro rfl
    exact h.zero_iff.2 rfl
  assigned hfill hmem := by
    subst hfill
    obtain rfl : hole = false := by
      rw [← Bool.not_eq_true]
      exact fun htrue => hmem ((hstep.flag rfl).1 htrue)
    exact ⟨rfl, h.none_iff.2 rfl, fun hzero => Bool.false_ne_true (h.zero_iff.1 hzero)⟩
  filled hfill := by
    subst hfill
    have hclosed : (hole && !true) = false := Bool.and_false hole
    rw [hclosed] at h
    exact ⟨h.none_iff.2 rfl, fun hzero => Bool.false_ne_true (h.zero_iff.1 hzero)⟩

/-- There is always a context for the root. -/
theorem HoleInvariant.root (h : HoleInvariant fill t m hole) : some 0 ∈ m ∨ none ∈ m := by
  cases fill with
  | true => exact .inr (h.filled rfl).1
  | false =>
    by_cases hmem : 0 ∈ t.asns
    · exact .inl (((h.unassigned rfl hmem).2 _).2 rfl)
    · exact .inr (h.assigned rfl hmem).2.1

end Contexts

/-! ### The minimal list -/

namespace TrieNode

variable {fill hole : Bool} {t l r : TrieNode} {pfx : List Bool} {m : EntryTable}

/-- A branch that completed. -/
theorem entriesMinimal_Branch_ok (h : (Branch l r).entriesMinimal fill pfx = .ok (m, hole)) :
    ∃ left lhole right rhole, l.entriesMinimal fill (pfx ++ [false]) = .ok (left, lhole) ∧
      r.entriesMinimal fill (pfx ++ [true]) = .ok (right, rhole) ∧
      hole = ((lhole || rhole) && !fill) ∧
        (hole = true → ∃ ret, m = EntryTable.retainHole ret) := by
  rw [entriesMinimal] at h
  obtain ⟨⟨left, lhole⟩, hl, h⟩ := bind_eq_ok.1 h
  obtain ⟨⟨right, rhole⟩, hr, h⟩ := bind_eq_ok.1 h
  obtain ⟨ret, -, h⟩ := bind_eq_ok.1 h
  rw [Bool.and_comm] at h
  refine ⟨left, lhole, right, rhole, hl, hr, ?_⟩
  cases hhole : (lhole || rhole) && !fill with
  | true =>
    simp only [hhole] at h
    cases h
    exact ⟨rfl, fun _ => ⟨_, rfl⟩⟩
  | false =>
    simp only [hhole, Bool.false_eq_true, if_false] at h
    obtain ⟨ret', -, h⟩ := bind_eq_ok.1 h
    cases h
    exact ⟨rfl, fun hopen => by cases hopen⟩

theorem entriesMinimal_hole (h : t.entriesMinimal fill pfx = .ok (m, hole)) :
    HoleStep fill t m hole := by
  induction t generalizing pfx m hole with
  | Leaf v =>
    cases v with
    | zero =>
      cases h
      exact .leaf_zero []
    | succ v =>
      cases h
      exact .leaf_succ v _
  | Branch l r ihl ihr =>
    obtain ⟨m', hole', h', htable⟩ := (Branch l r).entriesMinimal_spec fill pfx
    obtain ⟨rfl, rfl⟩ := Prod.mk.inj (Except.ok.inj (h'.symm.trans h))
    obtain ⟨left, lhole, right, rhole, hl, hr, hhole, hretain⟩ := entriesMinimal_Branch_ok h
    exact (ihl hl).branch (ihr hr) hhole htable hretain

end TrieNode

/-! ### Programs of any ASNs -/

/-- The empty program, or one that the constructors build from ASNs other than 0. -/
def BinNode.Made (n : BinNode) : Prop := n = endNode ∨ n.MadeWith (1 ≤ ·) Buildable

/-- A table of such programs. -/
abbrev Programs.Made (hole : Bool) (m : Programs) : Prop :=
  Table 0 (fun _ n => BinNode.Made n) hole m

/-- The recursion with an abort where the source relies on never coming to: a leaf or a default of
the ASN 0, and a table with neither of the contexts that the root looks for. -/
def Builder.guarded : Builder Panic where
  leaf v := if v = 0 then .error .assertionFailed else BinNode.leaf v
  branch := BinNode.branch
  default v sub := if v = 0 then .error .assertionFailed else BinNode.default v sub
  missing := .unwrapNone
  neither := .error .unwrapNone
  order _ := contexts

namespace Programs

variable {fill lhole rhole : Bool} {left right m : Programs}

theorem made_leaf_zero : Made (!fill)
    (AList.singleton (if fill then none else some 0) BinNode.endNode) where
  good ctx n h := by
    rw [← AList.insert_empty] at h
    rcases eq_or_of_lookup_insert h with ⟨-, rfl⟩ | h
    · exact .inl rfl
    · cases h
  zero_iff := by cases fill <;> simp
  none_iff := by cases fill <;> simp

theorem made_leaf_succ (v : ℕ) : Made false ((AList.singleton none
    (.Return (v + 1) (1 + BinNode.opSize coderAsn (v + 1)))).insert
      (some (v + 1)) BinNode.endNode) where
  good ctx n h := by
    rcases eq_or_of_lookup_insert h with ⟨-, rfl⟩ | h
    · exact .inl rfl
    · rw [← AList.insert_empty] at h
      rcases eq_or_of_lookup_insert h with ⟨-, rfl⟩ | h
      · exact .inr ⟨Nat.succ_pos v, rfl⟩
      · cases h
  zero_iff := by simp
  none_iff := by simp

/-- The candidates of a branch, when its Jumps can be built. -/
theorem made_candidates (hl : Made lhole left) (hr : Made rhole right)
    (hjump : Jumps BinNode.Buildable left right) :
    ∃ ret, (candidates left right).foldlM candidate ∅ = .ok ret ∧ Made (lhole || rhole) ret := by
  have hmake : ∀ c ∈ ContextTable.candidates (contexts left right) left right, BinNode.Made c.2.1 →
      BinNode.Made c.2.2 → ∃ n, BinNode.branch c.2.1 c.2.2 = .ok n ∧ BinNode.Made n := by
    intro c hc ha hb
    obtain ⟨n, hn, hmade, -⟩ :=
      BinNode.branch_made (fun _ _ h => h) ha hb (hjump c (candidates_eq left right ▸ hc))
    exact ⟨n, hn, hmade⟩
  rw [candidates_eq]
  exact hl.join hr (fun _ _ => id) (fun _ _ => id) (fun _ => mem_contexts) smaller
    (fun ab => BinNode.branch ab.1 ab.2) hmake

/-- A covering default, which is not of the ASN 0: a table without a hole has no such context. -/
theorem made_cover (h : Made false m) {k : ℕ} (hk : some k ∈ m) :
    ∃ m', Programs.cover m k = .ok m' ∧ Builder.guarded.cover m k = .ok m' ∧ Made false m' ∧
      ∀ k', some k' ∈ m' ↔ some k' ∈ m := by
  have hne : k ≠ 0 := by
    rintro rfl
    exact Bool.false_ne_true (h.zero_iff.1 hk)
  obtain ⟨node, hnode⟩ := exists_lookup hk
  have hpos : 1 ≤ k := Nat.pos_of_ne_zero hne
  obtain ⟨n, hn, hmade, -⟩ := BinNode.default_made hpos hpos (h.good _ _ hnode)
  refine ⟨offer smaller m none n, ?_, ?_, h.offer_none smaller (.inr hmade),
    fun k' => by simp [mem_offer]⟩
  · simp only [Programs.cover, hnode, hn, bind, Except.bind, pure, Except.pure]
  · simp only [Builder.cover, Builder.guarded, hnode, if_neg hne, hn, bind, Except.bind, pure,
      Except.pure]

theorem made_coverAll (h : Made false m) :
    ∃ m', (someKeys m).foldlM Programs.cover m = .ok m' ∧
      (someKeys m).foldlM Builder.guarded.cover m = .ok m' ∧ Made false m' := by
  obtain ⟨m', n', hm', hn', htable, -, rfl⟩ := foldlM_sim (f := Programs.cover)
    (g := Builder.guarded.cover)
    (R := fun s s' => Made false s ∧ (∀ k, some k ∈ s ↔ some k ∈ m) ∧ s = s') (L := someKeys m)
    (fun k hk s s' hs => by
      obtain ⟨htable, hkeys, rfl⟩ := hs
      obtain ⟨s'', hs'', hguarded, htable', hkeys'⟩ :=
        made_cover htable ((hkeys k).2 (ProgramTable.mem_of_someKeys hk))
      exact ⟨s'', s'', hs'', hguarded, htable', fun k' => (hkeys' k').trans (hkeys k'), rfl⟩)
    (s := m) (t := m) ⟨h, fun _ => Iff.rfl, rfl⟩
  exact ⟨m', hm', hn', htable⟩

end Programs

namespace TrieNode

variable {fill : Bool} {t : TrieNode}

/-- **The recursion completes** where its Jumps can be built. -/
theorem toBinnode_made (hjump : t.Jumps BinNode.Buildable fill) :
    ∃ m hole, t.toBinnode fill = .ok (m, hole) ∧ Programs.Made (hole && !fill) m := by
  induction t with
  | Leaf v =>
    cases v with
    | zero => exact ⟨_, true, rfl, made_leaf_zero⟩
    | succ v =>
      refine ⟨_, false, ?_, made_leaf_succ v⟩
      simp only [toBinnode, BinNode.leaf_eq (Nat.succ_pos v), bind, Except.bind, pure, Except.pure]
  | Branch l r ihl ihr =>
    obtain ⟨hjl, hjr, hrange⟩ := hjump
    obtain ⟨left, lhole, hl, htl⟩ := ihl hjl
    obtain ⟨right, rhole, hr, htr⟩ := ihr hjr
    rw [hl, hr] at hrange
    obtain ⟨ret, hret, htable⟩ := made_candidates htl htr hrange
    rw [← Bool.and_or_distrib_right] at htable
    cases hhole : (lhole || rhole) && !fill with
    | true =>
      rw [hhole] at htable
      have hfill : (!fill) = true := (Bool.and_eq_true_iff.1 hhole).2
      refine ⟨ret.prune.retainHole, true, ?_, ?_⟩
      · simp only [toBinnode, hl, hr, hret, hhole, bind, Except.bind, pure, Except.pure, if_true]
      · rw [hfill, prune_eq]
        exact (htable.prune BinNode.size).retain (fun _ => rfl) fun _ _ => rfl
    | false =>
      rw [hhole] at htable
      obtain ⟨ret', hret', -, htable'⟩ := made_coverAll htable
      refine ⟨ret'.prune, false, ?_, ?_⟩
      · simp only [toBinnode, hl, hr, hret, hret', hhole, bind, Except.bind, pure, Except.pure,
          Bool.false_eq_true, if_false]
      · rw [prune_eq]
        exact htable'.prune BinNode.size

/-- What it came to, if it completed. -/
theorem made_of_toBinnode {m : Programs} {hole : Bool} (h : t.toBinnode fill = .ok (m, hole)) :
    Programs.Made (hole && !fill) m := by
  obtain ⟨m', hole', h', htable⟩ := toBinnode_made (jumps_of_toBinnode h)
  obtain ⟨rfl, rfl⟩ := Prod.mk.inj (Except.ok.inj (h'.symm.trans h))
  exact htable

/-- A branch that completed. -/
theorem toBinnode_Branch_ok {l r : TrieNode} {m : Programs} {hole : Bool}
    (h : (Branch l r).toBinnode fill = .ok (m, hole)) :
    ∃ left lhole right rhole, l.toBinnode fill = .ok (left, lhole) ∧
      r.toBinnode fill = .ok (right, rhole) ∧ hole = ((lhole || rhole) && !fill) ∧
        (hole = true → ∃ ret, m = Programs.retainHole ret) := by
  rw [toBinnode] at h
  obtain ⟨⟨left, lhole⟩, hl, h⟩ := bind_eq_ok.1 h
  obtain ⟨⟨right, rhole⟩, hr, h⟩ := bind_eq_ok.1 h
  obtain ⟨ret, -, h⟩ := bind_eq_ok.1 h
  refine ⟨left, lhole, right, rhole, hl, hr, ?_⟩
  cases hhole : (lhole || rhole) && !fill with
  | true =>
    simp only [hhole] at h
    cases h
    exact ⟨rfl, fun _ => ⟨_, rfl⟩⟩
  | false =>
    simp only [hhole, Bool.false_eq_true, if_false] at h
    obtain ⟨ret', -, h⟩ := bind_eq_ok.1 h
    cases h
    exact ⟨rfl, fun hopen => by cases hopen⟩

theorem toBinnode_hole {m : Programs} {hole : Bool} (h : t.toBinnode fill = .ok (m, hole)) :
    HoleStep fill t m hole := by
  induction t generalizing m hole with
  | Leaf v =>
    cases v with
    | zero =>
      cases h
      exact .leaf_zero _
    | succ v =>
      obtain ⟨node, -, h⟩ := bind_eq_ok.1 h
      cases h
      exact .leaf_succ v _
  | Branch l r ihl ihr =>
    obtain ⟨left, lhole, right, rhole, hl, hr, hhole, hretain⟩ := toBinnode_Branch_ok h
    exact (ihl hl).branch (ihr hr) hhole (made_of_toBinnode h) hretain

/-! ### Nothing guarded against happens -/

/-- The guarded recursion comes to what the crate's comes to, an abort of a Jump included. -/
theorem guarded_table (t : TrieNode) (path : List Bool) :
    Builder.guarded.table fill t path = t.toBinnode fill := by
  induction t generalizing path with
  | Leaf v => cases v <;> rfl
  | Branch l r ihl ihr =>
    rw [toBinnode, Builder.table, ihl (path ++ [false]), ihr (path ++ [true])]
    cases hl : l.toBinnode fill with
    | error p => rfl
    | ok leftTable =>
      obtain ⟨left, lhole⟩ := leftTable
      cases hr : r.toBinnode fill with
      | error p => rfl
      | ok rightTable =>
        obtain ⟨right, rhole⟩ := rightTable
        have hfold : (ContextTable.candidates (Builder.guarded.order path left right) left
          right).foldlM
            (offerM smaller fun ab => Builder.guarded.branch ab.1 ab.2) ∅ =
              (Programs.candidates left right).foldlM candidate ∅ := by
          rw [candidates_eq]
          rfl
        simp only [bind, Except.bind, hfold]
        cases hret : (Programs.candidates left right).foldlM candidate ∅ with
        | error p => rfl
        | ok ret =>
          obtain ⟨ret', hret', htable⟩ :=
            made_candidates (made_of_toBinnode hl) (made_of_toBinnode hr) (jumps_of_candidates hret)
          obtain rfl := Except.ok.inj (hret'.symm.trans hret)
          rw [← Bool.and_or_distrib_right] at htable
          cases hhole : (lhole || rhole) && !fill with
          | true => simp only [if_true, prune_eq]
          | false =>
            rw [hhole] at htable
            obtain ⟨all, hall, hguarded, -⟩ := made_coverAll htable
            simp only [Bool.false_eq_true, if_false, hall, hguarded, prune_eq]

end TrieNode

/-- One of the two contexts of the root is there, so the program for neither is never asked for. -/
theorem guarded_toBinnode (fill : Bool) (m : ASMap) :
    Builder.guarded.toBinnode fill m.trie = m.toBinnode fill := by
  rw [Builder.toBinnode, ASMap.toBinnode, TrieNode.guarded_table]
  cases htable : m.trie.toBinnode fill with
  | error p => rfl
  | ok table =>
    obtain ⟨res, hole⟩ := table
    have hroot := (HoleInvariant.of_table (TrieNode.made_of_toBinnode htable)
      (TrieNode.toBinnode_hole htable)).root
    simp only [bind, Except.bind]
    cases hzero : res.lookup (some 0) with
    | some node => rfl
    | none =>
      rcases hroot with hctx | hctx
      · exact absurd hzero (by simpa [AList.lookup_eq_none] using hctx)
      · obtain ⟨node, hnode⟩ := exists_lookup hctx
        simp only [hnode, Option.getD_some]

/-- The program for the root is one of the table's. -/
theorem ASMap.made_of_toBinnode {fill : Bool} {m : ASMap} {n : BinNode}
    (h : m.toBinnode fill = .ok n) :
    n.Made := by
  obtain ⟨⟨res, hole⟩, htable, h⟩ := bind_eq_ok.1 h
  have hgood := (TrieNode.made_of_toBinnode htable).good
  cases hzero : res.lookup (some 0) with
  | some node =>
    simp only [hzero] at h
    obtain rfl : node = n := Except.ok.inj h
    exact hgood _ _ hzero
  | none =>
    simp only [hzero] at h
    obtain rfl : (res.lookup none).getD BinNode.endNode = n := Except.ok.inj h
    cases hnone : res.lookup none with
    | some node => exact hgood _ _ hnone
    | none => exact .inl rfl

theorem BinNode.Made.of_mem_subprograms {n sub : BinNode} (h : n.Made)
    (hsub : sub ∈ n.subprograms) :
    sub = endNode ∧ n = endNode ∨ sub.MadeWith (1 ≤ ·) Buildable := by
  rcases h with rfl | h
  · exact .inl ⟨List.mem_singleton.1 hsub, rfl⟩
  · exact .inr (h.of_mem_subprograms hsub)

/-- **The hole invariant** of both recursions, for every trie.  That of `to_entries_minimal` always
completes; that of `to_binnode` completes unless a Jump cannot be built, and the programs it keeps
have no `End` under a Jump.  The guarded recursion comes to the same, and no program that is written
contains an `End`. -/
theorem hole_invariant (fill : Bool) :
    (∀ (t : TrieNode) pfx, ∃ m hole, t.entriesMinimal fill pfx = .ok (m, hole) ∧
      HoleInvariant fill t m hole) ∧
      (∀ t : TrieNode, (∃ r, t.toBinnode fill = .ok r) ↔ t.Jumps BinNode.Buildable fill) ∧
      (∀ (t : TrieNode) m hole, t.toBinnode fill = .ok (m, hole) → HoleInvariant fill t m hole ∧
        ∀ ctx n, m.lookup ctx = some n → ∀ l r size, .Jump l r size ∈ n.subprograms →
          l.isEnd = false ∧ r.isEnd = false) ∧
      ∀ m : ASMap, Builder.guarded.toBinnode fill m.trie = m.toBinnode fill ∧
        (∀ res hole, m.trie.entriesMinimal fill [] = .ok (res, hole) → some 0 ∈ res ∨ none ∈ res) ∧
        ∀ n, m.toBinnode fill = .ok n → n.isEnd = false →
          ∀ sub ∈ n.subprograms, sub.insValue ≠ Instruction.End.toNat := by
  have hentries : ∀ (t : TrieNode) pfx, ∃ m hole, t.entriesMinimal fill pfx = .ok (m, hole) ∧
      HoleInvariant fill t m hole := by
    intro t pfx
    obtain ⟨m, hole, hm, htable⟩ := t.entriesMinimal_spec fill pfx
    exact ⟨m, hole, hm, .of_table htable (TrieNode.entriesMinimal_hole hm)⟩
  refine ⟨hentries, fun t => ⟨?_, ?_⟩, fun t m hole h => ⟨?_, ?_⟩, fun m => ⟨?_, ?_, ?_⟩⟩
  · rintro ⟨r, hr⟩
    exact TrieNode.jumps_of_toBinnode hr
  · intro hjump
    obtain ⟨m, hole, hm, -⟩ := TrieNode.toBinnode_made hjump
    exact ⟨(m, hole), hm⟩
  · exact .of_table (TrieNode.made_of_toBinnode h) (TrieNode.toBinnode_hole h)
  · intro ctx n hn l r size hsub
    rcases ((TrieNode.made_of_toBinnode h).good ctx n hn).of_mem_subprograms hsub
      with ⟨hend, -⟩ | hmade
    · cases hend
    · exact ⟨hmade.1.isEnd, hmade.2.1.isEnd⟩
  · exact guarded_toBinnode fill m
  · intro res hole hres
    obtain ⟨res', hole', hres', hinv⟩ := hentries m.trie []
    obtain ⟨rfl, rfl⟩ := Prod.mk.inj (Except.ok.inj (hres'.symm.trans hres))
    exact hinv.root
  · intro n hn hend sub hsub
    rcases (ASMap.made_of_toBinnode hn).of_mem_subprograms hsub with ⟨-, rfl⟩ | hmade
    · cases hend
    · cases sub with
      | End size => exact hmade.elim
      | _ => simp [BinNode.insValue, BinNode.instruction, Instruction.toNat]

end AsmapQuorum

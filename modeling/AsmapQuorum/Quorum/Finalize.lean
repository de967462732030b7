import AsmapQuorum.Codec.Trie
import AsmapQuorum.Quorum.Run
import Mathlib.Data.Finset.Sort

/-!
# Finalizing a round

`finalize` selects the consensus entries out of the tally and builds their map.  It walks two hash
maps, so it is given an iteration order for each.

* `bestByPrefix_spec` — **the selection is the quorum rule** of the poll: `Poll.Decided`.
* `mem_entries`, `nodup_entries`, `pairwise_entries` — the entries of the artifact: every decided
  network, once, most votes first.
* `lookup_of_longest`, `lookup_of_not_covered` — the map is longest-prefix match over the entries.
* `finalize_congr` — rounds with the same votes have the same entries and map, in whatever orders.
* `finalize_spec` — all of it for one reachable engine.
-/

namespace AsmapQuorum

open FiniteMap PrefixOverwrite QuorumEngine

/-- Quorum-selected mapping with its vote count. -/
structure ConsensusEntry where
  ipPrefix : String
  asn : ℕ
  votes : ℕ
  deriving DecidableEq, Repr

/-- Consensus result persisted as JSON report and binary map. -/
structure ConsensusArtifact where
  epoch : UInt64
  topic : String
  localPeerId : String
  threshold : ℕ
  participants : List String
  acceptedClaims : ℕ
  rejectedClaims : Map String ℕ
  entries : List ConsensusEntry
  observations : List ClaimObservation
  map : ASMap

/-! ### Selection -/

/-- The comparison of two candidates `(asn, votes)` for one network. -/
def beats (new old : ℕ × ℕ) : Bool := new.2 > old.2 ∨ new.2 = old.2 ∧ new.1 < old.1

/-- The best candidate of each network, of those that reach the threshold. -/
def bestByPrefix (threshold : ℕ) (votes : List ((String × ℕ) × ℕ)) : Map String (ℕ × ℕ) :=
  votes.foldl
    (fun best entry =>
      if entry.2 < threshold then best else offer beats best entry.1.1 (entry.1.2, entry.2))
    ∅

/-- A selected entry for the map and for the report; it is dropped from both if its prefix has no
path. -/
def usableEntry (pfx : String) (asn votes : ℕ) : Option (ASNEntry × ConsensusEntry) :=
  match canonicalConsensusPrefix pfx with
  | .ok (_, ip, prefixLen) => some ((ipToBits ip prefixLen, asn), ⟨pfx, asn, votes⟩)
  | .error _ => none

def usableEntries (best : List (String × ℕ × ℕ)) : List (ASNEntry × ConsensusEntry) :=
  best.filterMap fun c => usableEntry c.1 c.2.1 c.2.2

/-- The entries of the round, for the map and for the report, in the order they are visited. -/
def QuorumEngine.usable (e : QuorumEngine) (votesOrder : IterOrder (String × ℕ) ℕ)
    (bestOrder : IterOrder String (ℕ × ℕ)) : List (ASNEntry × ConsensusEntry) :=
  usableEntries (bestOrder.entries (bestByPrefix e.threshold (votesOrder.entries e.votes)))

/-- The order of the report: most votes first, then by prefix, then by ASN. -/
def reportKey (entry : ConsensusEntry) : ℕᵒᵈ ×ₗ String ×ₗ ℕ :=
  toLex (OrderDual.toDual entry.votes, toLex (entry.ipPrefix, entry.asn))

def reportLe (a b : ConsensusEntry) : Prop := reportKey a ≤ reportKey b

instance : DecidableRel reportLe := fun a b =>
  inferInstanceAs (Decidable (reportKey a ≤ reportKey b))

/-- Materializes the current quorum artifact for export. -/
def QuorumEngine.finalize (e : QuorumEngine) (votesOrder : IterOrder (String × ℕ) ℕ)
    (bestOrder : IterOrder String (ℕ × ℕ)) (topic localPeerId : String) : ConsensusArtifact :=
  let usable := e.usable votesOrder bestOrder
  { epoch := e.epoch
    topic := topic
    localPeerId := localPeerId
    threshold := e.threshold
    participants := e.seenSenders.sort
    acceptedClaims := e.acceptedClaims
    rejectedClaims := e.rejectedClaims
    entries := (usable.map Prod.snd).insertionSort reportLe
    observations := e.observations
    map := ASMap.new.updateMulti (usable.map Prod.fst) }

/-! ### The orders of the comparisons -/

theorem beats_iff {new old : ℕ × ℕ} :
    beats new old = true ↔ new.2 > old.2 ∨ new.2 = old.2 ∧ new.1 < old.1 := decide_eq_true_iff

theorem beats_irrefl (v : ℕ × ℕ) : beats v v = false := by
  rw [← Bool.not_eq_true, beats_iff]
  omega

theorem beats_trans (u v w : ℕ × ℕ) (huv : beats u v = true) (hvw : beats v w = true) :
    beats u w = true := by
  rw [beats_iff] at huv hvw ⊢
  omega

theorem eq_of_not_beats (v w : ℕ × ℕ) (hvw : beats v w = false) (hwv : beats w v = false) :
    v = w := by
  rw [← Bool.not_eq_true, beats_iff] at hvw hwv
  apply Prod.ext <;> omega

theorem reportKey_injective : Function.Injective reportKey := by
  intro a b h
  cases a
  cases b
  simp only [reportKey, EmbeddingLike.apply_eq_iff_eq, Prod.mk.injEq] at h
  obtain ⟨rfl, rfl, rfl⟩ := h
  rfl

instance : IsTrans ConsensusEntry reportLe := ⟨fun _ _ _ h h' => le_trans h h'⟩

instance : Std.Total reportLe := ⟨fun a b => le_total (reportKey a) (reportKey b)⟩

instance : Std.Antisymm reportLe := ⟨fun _ _ h h' => reportKey_injective (le_antisymm h h')⟩

/-! ### The selection is the quorum rule -/

variable {e : QuorumEngine} {accepted : List AsmapClaim}

/-- The candidates that reach the threshold, as offers. -/
def offers (threshold : ℕ) (votes : List ((String × ℕ) × ℕ)) : List (String × ℕ × ℕ) :=
  (votes.filter fun entry => ¬entry.2 < threshold).map fun entry => (entry.1.1, entry.1.2, entry.2)

theorem bestByPrefix_eq (threshold : ℕ) (votes : List ((String × ℕ) × ℕ)) :
    bestByPrefix threshold votes =
      (offers threshold votes).foldl (fun m c => offer beats m c.1 c.2) ∅ := by
  rw [offers, List.foldl_map, List.foldl_filter, bestByPrefix]
  congr 1
  funext best entry
  by_cases h : entry.2 < threshold
  · rw [if_pos h, if_neg (by simpa using h)]
  · rw [if_neg h, if_pos (by simpa using h)]

theorem mem_offers (order : IterOrder (String × ℕ) ℕ) {threshold : ℕ} {votes : Map (String × ℕ) ℕ}
    {pfx : String} {a n : ℕ} : (pfx, a, n) ∈ offers threshold (order.entries votes) ↔
      votes.lookup (pfx, a) = some n ∧ threshold ≤ n := by
  rw [offers, List.mem_map]
  constructor
  · rintro ⟨⟨⟨p, b⟩, m⟩, hmem, heq⟩
    obtain ⟨rfl, rfl, rfl⟩ : p = pfx ∧ b = a ∧ m = n := by simpa using heq
    obtain ⟨hmem, hge⟩ := List.mem_filter.1 hmem
    exact ⟨order.mem_entries.1 hmem, Nat.not_lt.1 (of_decide_eq_true hge)⟩
  · rintro ⟨hlookup, hge⟩
    refine ⟨((pfx, a), n), List.mem_filter.2 ⟨order.mem_entries.2 hlookup, ?_⟩, rfl⟩
    exact decide_eq_true (Nat.not_lt.2 hge)

/-- A candidate is in the tally with the number of its supporters, if it has any. -/
theorem Tallied.lookup_votes (h : Tallied e accepted) {pfx : String} {a n : ℕ} :
    e.votes.lookup (pfx, a) = some n ↔ 1 ≤ n ∧ (poll accepted).votes pfx a = n := by
  rw [h.positive.lookup_eq, h.votes_eq]
  split
  · next hz =>
    rw [hz]
    constructor
    · exact fun hc => by cases hc
    · omega
  · next hz =>
    rw [Option.some.injEq]
    omega

/-- **The selection is the quorum rule.** -/
theorem bestByPrefix_spec (h : Tallied e accepted) (order : IterOrder (String × ℕ) ℕ)
    {pfx : String} {a n : ℕ} :
    (bestByPrefix e.threshold (order.entries e.votes)).lookup pfx = some (a, n) ↔
      (poll accepted).Decided e.threshold pfx a ∧ (poll accepted).votes pfx a = n := by
  rw [bestByPrefix_eq, lookup_foldl_offer beats_irrefl beats_trans eq_of_not_beats, IsBest]
  simp only [mem_offers, h.lookup_votes, Prod.forall]
  constructor
  · rintro ⟨⟨⟨hpos, hn⟩, hge⟩, hbest⟩
    have hnot : ∀ b, 1 ≤ (poll accepted).votes pfx b → e.threshold ≤ (poll accepted).votes pfx b →
        ¬((poll accepted).votes pfx b > n ∨ (poll accepted).votes pfx b = n ∧ b < a) := by
      intro b hb hbt
      have := hbest b _ ⟨⟨hb, rfl⟩, hbt⟩
      rwa [← Bool.not_eq_true, beats_iff] at this
    refine ⟨⟨by omega, by omega, fun b => ?_, fun b hb => ?_⟩, hn⟩
    · by_contra hlt
      have := hnot b (by omega) (by omega)
      omega
    · have := hnot b (by omega) (by omega)
      omega
  · rintro ⟨hdec, hn⟩
    have hpos := hdec.pos
    have hquorum := hdec.quorum
    refine ⟨⟨⟨by omega, hn⟩, by omega⟩, ?_⟩
    rintro b m ⟨⟨-, hm⟩, -⟩
    have hle := hdec.best b
    rw [← Bool.not_eq_true, beats_iff]
    rintro (hlt | ⟨heq, hlt⟩)
    · dsimp only at hlt
      omega
    · have hleast := hdec.least b (by dsimp only at heq; omega)
      dsimp only at hlt
      omega

/-! ### Voted networks -/

/-- The trie path of a prefix text. -/
def prefixPath (pfx : String) : Option (List Bool) :=
  match canonicalConsensusPrefix pfx with
  | .ok (_, ip, prefixLen) => some (ipToBits ip prefixLen)
  | .error _ => none

theorem prefixPath_text (N : Network) : prefixPath N.text = some N.path := by
  rw [prefixPath, canonicalConsensusPrefix_text]
  rfl

theorem usableEntry_text (N : Network) (a n : ℕ) :
    usableEntry N.text a n = some ((N.path, a), ⟨N.text, a, n⟩) := by
  rw [usableEntry, canonicalConsensusPrefix_text]
  rfl

theorem ipPrefix_of_usableEntry {pfx : String} {a n : ℕ} {u : ASNEntry × ConsensusEntry}
    (h : usableEntry pfx a n = some u) : u.2.ipPrefix = pfx := by
  unfold usableEntry at h
  split at h
  · obtain rfl := Option.some.inj h
    rfl
  · cases h

/-- What has a vote is an admitted network with an encodable ASN. -/
theorem Tallied.network (h : Tallied e accepted) {pfx : String} {a : ℕ}
    (hpos : 1 ≤ (poll accepted).votes pfx a) :
    ∃ N : Network, N.Admitted ∧ pfx = N.text ∧ asnMin ≤ a ∧ a ≤ asnMax := by
  rw [← h.votes_eq, h.votes, Nat.one_le_iff_ne_zero, Nat.ne_zero_iff_zero_lt,
    List.countP_pos_iff] at hpos
  obtain ⟨c, hc, hass⟩ := hpos
  obtain ⟨voteKeys, hkeys⟩ := h.valid c hc
  have hspec := validatedVoteKeys_spec hkeys
  exact hspec.network ((hspec.mem_iff_asserts _).2 hass)

/-- **No decided entry is dropped**: every one of them has a path. -/
theorem mem_usableEntries (h : Tallied e accepted) (order : IterOrder (String × ℕ) ℕ)
    (order' : IterOrder String (ℕ × ℕ)) {u : ASNEntry × ConsensusEntry} :
    u ∈ usableEntries (order'.entries (bestByPrefix e.threshold (order.entries e.votes))) ↔
      (poll accepted).Decided e.threshold u.2.ipPrefix u.2.asn ∧
      u.2.votes = (poll accepted).votes u.2.ipPrefix u.2.asn ∧
      prefixPath u.2.ipPrefix = some u.1.1 ∧ u.1.2 = u.2.asn := by
  rw [usableEntries, List.mem_filterMap]
  constructor
  · rintro ⟨⟨pfx, a, n⟩, hmem, hu⟩
    have hspec := (bestByPrefix_spec h order).1 (order'.mem_entries.1 hmem)
    obtain ⟨N, -, rfl, -⟩ := h.network hspec.1.pos
    rw [usableEntry_text] at hu
    obtain rfl := Option.some.inj hu
    exact ⟨hspec.1, hspec.2.symm, prefixPath_text N, rfl⟩
  · rintro ⟨hdec, hvotes, hpath, hasn⟩
    obtain ⟨⟨path, asn⟩, pfx, a, n⟩ := u
    dsimp only at hdec hvotes hpath hasn
    obtain ⟨N, -, rfl, -⟩ := h.network hdec.pos
    rw [prefixPath_text, Option.some.injEq] at hpath
    refine ⟨(N.text, a, n), order'.mem_entries.2 ((bestByPrefix_spec h order).2 ⟨hdec,
      hvotes.symm⟩), ?_⟩
    rw [usableEntry_text, hasn, hpath]

/-- A network with enough votes for one ASN is decided. -/
theorem Tallied.exists_decided (h : Tallied e accepted) {pfx : String} {a : ℕ}
    (hpos : 1 ≤ (poll accepted).votes pfx a) (hge : e.threshold ≤ (poll accepted).votes pfx a) :
    ∃ b, (poll accepted).Decided e.threshold pfx b := by
  have hoffer := (mem_offers IterOrder.newestFirst).2 ⟨h.lookup_votes.2 ⟨hpos, rfl⟩, hge⟩
  obtain ⟨⟨b, n⟩, hlookup, -⟩ := exists_lookup_foldl_offer beats_irrefl beats_trans hoffer
  rw [← bestByPrefix_eq] at hlookup
  exact ⟨b, ((bestByPrefix_spec h _).1 hlookup).1⟩

/-! ### The artifact -/

section Artifact

variable (h : Tallied e accepted) (votesOrder : IterOrder (String × ℕ) ℕ)
  (bestOrder : IterOrder String (ℕ × ℕ)) (topic localPeerId : String)

/-- The prefixes of the usable entries do not repeat. -/
theorem nodup_usable : ((e.usable votesOrder bestOrder).map fun u => u.2.ipPrefix).Nodup := by
  have hsub : ∀ L : List (String × ℕ × ℕ),
      ((usableEntries L).map fun u => u.2.ipPrefix).Sublist (L.map Prod.fst) := by
    intro L
    induction L with
    | nil => exact List.Sublist.slnil
    | cons c L ih =>
      rw [usableEntries, List.filterMap_cons]
      split
      · exact ih.cons _
      · next u hu =>
        rw [List.map_cons, List.map_cons, ipPrefix_of_usableEntry hu]
        exact ih.cons_cons _
  exact (bestOrder.nodup_keys _).sublist (hsub _)

include h

/-- **The entries are the decided networks**, with the number of their votes. -/
theorem mem_entries {entry : ConsensusEntry} :
    entry ∈ (e.finalize votesOrder bestOrder topic localPeerId).entries ↔
      (poll accepted).Decided e.threshold entry.ipPrefix entry.asn ∧
      entry.votes = (poll accepted).votes entry.ipPrefix entry.asn := by
  have hmem : entry ∈ (e.finalize votesOrder bestOrder topic localPeerId).entries ↔
      ∃ u ∈ e.usable votesOrder bestOrder, u.2 = entry := by
    show entry ∈ ((e.usable votesOrder bestOrder).map Prod.snd).insertionSort reportLe ↔ _
    rw [List.mem_insertionSort, List.mem_map]
  rw [hmem]
  constructor
  · rintro ⟨u, hu, rfl⟩
    obtain ⟨hdec, hvotes, -⟩ := (mem_usableEntries h votesOrder bestOrder).1 hu
    exact ⟨hdec, hvotes⟩
  · rintro ⟨hdec, hvotes⟩
    obtain ⟨N, -, hpfx, -⟩ := h.network hdec.pos
    refine ⟨((N.path, entry.asn), entry), ?_, rfl⟩
    refine (mem_usableEntries h votesOrder bestOrder).2 ⟨hdec, hvotes, ?_, rfl⟩
    rw [hpfx, prefixPath_text]

omit h in
theorem nodup_entries :
    ((e.finalize votesOrder bestOrder topic localPeerId).entries.map
      ConsensusEntry.ipPrefix).Nodup := by
  have hperm : (e.finalize votesOrder bestOrder topic localPeerId).entries.Perm
      ((e.usable votesOrder bestOrder).map Prod.snd) := List.perm_insertionSort _ _
  rw [(hperm.map _).nodup_iff, List.map_map]
  exact nodup_usable votesOrder bestOrder

omit h in
/-- Most votes first, then by prefix. -/
theorem pairwise_entries :
    (e.finalize votesOrder bestOrder topic localPeerId).entries.Pairwise fun a b =>
      b.votes < a.votes ∨ b.votes = a.votes ∧ a.ipPrefix < b.ipPrefix := by
  have hsorted : (e.finalize votesOrder bestOrder topic localPeerId).entries.Pairwise reportLe :=
    List.pairwise_insertionSort reportLe _
  have hdistinct :=
    List.pairwise_map.1 (nodup_entries (e := e) votesOrder bestOrder topic localPeerId)
  refine (hsorted.and hdistinct).imp ?_
  rintro a b ⟨hle, hne⟩
  rcases Prod.Lex.toLex_le_toLex.1 hle with hlt | ⟨heq, hle⟩
  · exact .inl (OrderDual.toDual_lt_toDual.1 hlt)
  · refine .inr ⟨(OrderDual.toDual_inj.1 heq).symm, ?_⟩
    rcases Prod.Lex.toLex_le_toLex.1 hle with hlt | ⟨heq, -⟩
    · exact hlt
    · exact absurd heq hne

/-! ### The map -/

/-- The paths of the map's table do not repeat. -/
theorem nodup_paths :
    (((e.usable votesOrder bestOrder).map Prod.fst).map Prod.fst).Nodup := by
  rw [List.map_map]
  have hnodup := nodup_usable (e := e) votesOrder bestOrder
  refine hnodup.of_map.map_on ?_
  intro u hu v hv huv
  obtain ⟨hdecu, -, hpathu, -⟩ := (mem_usableEntries h votesOrder bestOrder).1 hu
  obtain ⟨hdecv, -, hpathv, -⟩ := (mem_usableEntries h votesOrder bestOrder).1 hv
  obtain ⟨N, hN, hpfxu, -⟩ := h.network hdecu.pos
  obtain ⟨M, hM, hpfxv, -⟩ := h.network hdecv.pos
  rw [hpfxu, prefixPath_text, Option.some.injEq] at hpathu
  rw [hpfxv, prefixPath_text, Option.some.injEq] at hpathv
  have hNM : N = M := Network.path_injective hN hM (by rw [hpathu, hpathv]; exact huv)
  exact List.inj_on_of_nodup_map hnodup hu hv (by rw [hpfxu, hpfxv, hNM])

/-- The map's table holds the entries under their paths. -/
theorem mem_table {path : List Bool} {asn : ℕ} :
    (path, asn) ∈ (e.usable votesOrder bestOrder).map Prod.fst ↔
      ∃ entry ∈ (e.finalize votesOrder bestOrder topic localPeerId).entries,
        prefixPath entry.ipPrefix = some path ∧ entry.asn = asn := by
  rw [List.mem_map]
  constructor
  · rintro ⟨u, hu, hfst⟩
    obtain ⟨hdec, hvotes, hpath, hasn⟩ := (mem_usableEntries h votesOrder bestOrder).1 hu
    rw [hfst] at hpath hasn
    exact ⟨u.2, (mem_entries h ..).2 ⟨hdec, hvotes⟩, hpath, hasn.symm⟩
  · rintro ⟨entry, hentry, hpath, rfl⟩
    obtain ⟨hdec, hvotes⟩ := (mem_entries h ..).1 hentry
    exact ⟨((path, entry.asn), entry),
      (mem_usableEntries h votesOrder bestOrder).2 ⟨hdec, hvotes, hpath, rfl⟩, rfl⟩

theorem length_le_of_mem_table {t : ASNEntry}
    (ht : t ∈ (e.usable votesOrder bestOrder).map Prod.fst) : t.1.length ≤ 128 := by
  obtain ⟨entry, hentry, hpath, -⟩ := (mem_table h votesOrder bestOrder "" "").1 ht
  obtain ⟨N, -, hpfx, -⟩ := h.network ((mem_entries h ..).1 hentry).1.pos
  rw [hpfx, prefixPath_text, Option.some.injEq] at hpath
  rw [← hpath]
  exact N.length_path_le

/-- A full-length lookup is the meaning of the table. -/
theorem lookup_eq_assignMulti {q : List Bool} (hq : q.length = 128) (x : Stream' Bool) :
    (e.finalize votesOrder bestOrder topic localPeerId).map.lookup q =
      some (assignMulti (fun _ => 0) ((e.usable votesOrder bestOrder).map Prod.fst) (q ++ₛ x)) := by
  have hdepth : (ASMap.new.updateMulti ((e.usable votesOrder bestOrder).map Prod.fst)).trie.depth ≤
      q.length := by
    rw [hq]
    exact ASMap.depth_updateMulti_le (Nat.zero_le _) fun t ht =>
      length_le_of_mem_table h votesOrder bestOrder ht
  show (ASMap.new.updateMulti ((e.usable votesOrder bestOrder).map Prod.fst)).lookup q = _
  rw [ASMap.lookup_eq_asnAt hdepth x, TrieNode.asnAt_updateMulti, TrieNode.asnAt_new]

/-- **The longest entry that covers an address gives its ASN.** -/
theorem lookup_of_longest {q : List Bool} (hq : q.length = 128) {entry : ConsensusEntry}
    (hentry : entry ∈ (e.finalize votesOrder bestOrder topic localPeerId).entries)
    {path : List Bool} (hpath : prefixPath entry.ipPrefix = some path) (hcov : path <+: q)
    (hlong : ∀ entry' ∈ (e.finalize votesOrder bestOrder topic localPeerId).entries,
      ∀ path', prefixPath entry'.ipPrefix = some path' → path' <+: q → path'.length ≤ path.length) :
    (e.finalize votesOrder bestOrder topic localPeerId).map.lookup q = some entry.asn := by
  have hlongest : Longest ((e.usable votesOrder bestOrder).map Prod.fst)
      (q ++ₛ Stream'.const false) (path, entry.asn) := by
    refine ⟨(mem_table h ..).2 ⟨entry, hentry, hpath, rfl⟩, ?_, ?_⟩
    · exact (covers_append_iff _ hcov.length_le).2 hcov
    · intro t ht hcov'
      have hlen := length_le_of_mem_table h votesOrder bestOrder ht
      obtain ⟨entry', hentry', hpath', -⟩ :=
        (mem_table h votesOrder bestOrder topic localPeerId).1 ht
      rw [covers_append_iff _ (by omega)] at hcov'
      exact hlong entry' hentry' t.1 hpath' hcov'
  rw [lookup_eq_assignMulti h votesOrder bestOrder topic localPeerId hq,
    assignMulti_of_longest _ (nodup_paths h votesOrder bestOrder) hlongest]

/-- An address that no entry covers is unassigned. -/
theorem lookup_of_not_covered {q : List Bool} (hq : q.length = 128)
    (hcov : ∀ entry ∈ (e.finalize votesOrder bestOrder topic localPeerId).entries,
      ∀ path, prefixPath entry.ipPrefix = some path → ¬path <+: q) :
    (e.finalize votesOrder bestOrder topic localPeerId).map.lookup q = some 0 := by
  rw [lookup_eq_assignMulti h votesOrder bestOrder topic localPeerId hq (Stream'.const false),
    assignMulti_of_not_covers]
  intro t ht hcov'
  have hlen := length_le_of_mem_table h votesOrder bestOrder ht
  obtain ⟨entry, hentry, hpath, -⟩ := (mem_table h votesOrder bestOrder topic localPeerId).1 ht
  rw [covers_append_iff _ (by omega)] at hcov'
  exact hcov entry hentry t.1 hpath hcov'

end Artifact

/-! ### The order of iteration -/

/-- Rounds with the same votes visit the same entries, in whatever orders. -/
theorem usable_perm {e e' : QuorumEngine} (hthreshold : e.threshold = e'.threshold)
    (hvotes : ∀ key, e.votes.lookup key = e'.votes.lookup key)
    (votesOrder votesOrder' : IterOrder (String × ℕ) ℕ)
    (bestOrder bestOrder' : IterOrder String (ℕ × ℕ)) :
    (e.usable votesOrder bestOrder).Perm (e'.usable votesOrder' bestOrder') := by
  have hoffers : (offers e.threshold (votesOrder.entries e.votes)).Perm
      (offers e'.threshold (votesOrder'.entries e'.votes)) := by
    rw [hthreshold]
    exact ((votesOrder.perm_of_lookup_eq votesOrder' hvotes).filter _).map _
  have hbest : ∀ pfx, (bestByPrefix e.threshold (votesOrder.entries e.votes)).lookup pfx =
      (bestByPrefix e'.threshold (votesOrder'.entries e'.votes)).lookup pfx := by
    intro pfx
    ext v
    rw [bestByPrefix_eq, bestByPrefix_eq,
      lookup_foldl_offer beats_irrefl beats_trans eq_of_not_beats,
      lookup_foldl_offer beats_irrefl beats_trans eq_of_not_beats]
    exact ⟨fun hv => hv.perm hoffers, fun hv => hv.perm hoffers.symm⟩
  exact (bestOrder.perm_of_lookup_eq bestOrder' hbest).filterMap _

/-- **Rounds with the same votes have the same entries and the same map.** -/
theorem finalize_congr {e e' : QuorumEngine} {accepted : List AsmapClaim} (h : Tallied e accepted)
    (hthreshold : e.threshold = e'.threshold)
    (hvotes : ∀ key, e.votes.lookup key = e'.votes.lookup key)
    (votesOrder votesOrder' : IterOrder (String × ℕ) ℕ)
    (bestOrder bestOrder' : IterOrder String (ℕ × ℕ)) (topic localPeerId : String) :
    (e.finalize votesOrder bestOrder topic localPeerId).entries =
      (e'.finalize votesOrder' bestOrder' topic localPeerId).entries ∧
    (e.finalize votesOrder bestOrder topic localPeerId).map =
      (e'.finalize votesOrder' bestOrder' topic localPeerId).map := by
  have hperm := usable_perm hthreshold hvotes votesOrder votesOrder' bestOrder bestOrder'
  constructor
  · have hsorted : (((e.usable votesOrder bestOrder).map Prod.snd).insertionSort reportLe).Perm
        (((e'.usable votesOrder' bestOrder').map Prod.snd).insertionSort reportLe) :=
      (List.perm_insertionSort _ _).trans
        ((hperm.map Prod.snd).trans (List.perm_insertionSort _ _).symm)
    exact hsorted.eq_of_pairwise' (List.pairwise_insertionSort reportLe _)
      (List.pairwise_insertionSort reportLe _)
  · exact ASMap.updateMulti_perm (m := ASMap.new) trivial (hperm.map Prod.fst)
      (nodup_paths h votesOrder bestOrder)

/-- **Finalizing is exactly the quorum rule, in every order of iteration.** -/
theorem finalize_spec {lib : Crates} {e : QuorumEngine} (h : Reachable lib e)
    (votesOrder votesOrder' : IterOrder (String × ℕ) ℕ)
    (bestOrder bestOrder' : IterOrder String (ℕ × ℕ)) (topic localPeerId : String) :
    let artifact := e.finalize votesOrder bestOrder topic localPeerId
    artifact = e.finalize votesOrder' bestOrder' topic localPeerId ∧
    (∀ pfx, pfx ∈ artifact.entries.map ConsensusEntry.ipPrefix ↔
      ∃ a, 1 ≤ count e.votes (pfx, a) ∧ e.threshold ≤ count e.votes (pfx, a)) ∧
    (artifact.entries.map ConsensusEntry.ipPrefix).Nodup ∧
    (∀ entry ∈ artifact.entries, entry.votes = count e.votes (entry.ipPrefix, entry.asn) ∧
      ∀ a, count e.votes (entry.ipPrefix, a) ≤ entry.votes ∧
        (count e.votes (entry.ipPrefix, a) = entry.votes → entry.asn ≤ a)) ∧
    artifact.entries.Pairwise (fun a b =>
      b.votes < a.votes ∨ b.votes = a.votes ∧ a.ipPrefix < b.ipPrefix) ∧
    (∀ c ∈ bestOrder.entries (bestByPrefix e.threshold (votesOrder.entries e.votes)),
      (usableEntry c.1 c.2.1 c.2.2).isSome = true) ∧
    ∀ q : List Bool, q.length = 128 →
      (∀ entry ∈ artifact.entries, ∀ path, prefixPath entry.ipPrefix = some path → path <+: q →
        (∀ entry' ∈ artifact.entries, ∀ path', prefixPath entry'.ipPrefix = some path' →
          path' <+: q → path'.length ≤ path.length) →
        artifact.map.lookup q = some entry.asn) ∧
      ((∀ entry ∈ artifact.entries, ∀ path, prefixPath entry.ipPrefix = some path → ¬path <+: q) →
        artifact.map.lookup q = some 0) := by
  obtain ⟨accepted, hrun⟩ := h
  have htallied := hrun.tallied
  intro artifact
  refine ⟨?_, ?_, nodup_entries .., ?_, pairwise_entries .., ?_, ?_⟩
  · obtain ⟨hentries, hmap⟩ := finalize_congr htallied rfl (fun _ => rfl) votesOrder votesOrder'
      bestOrder bestOrder' topic localPeerId
    show ConsensusArtifact.mk _ _ _ _ _ _ _ artifact.entries _ artifact.map = _
    rw [hentries, hmap]
    rfl
  · intro pfx
    simp only [htallied.votes_eq]
    constructor
    · intro hpfx
      obtain ⟨entry, hentry, rfl⟩ := List.mem_map.1 hpfx
      have hdec := ((mem_entries htallied ..).1 hentry).1
      exact ⟨entry.asn, hdec.pos, hdec.quorum⟩
    · rintro ⟨a, hpos, hge⟩
      obtain ⟨b, hdec⟩ := htallied.exists_decided hpos hge
      exact List.mem_map.2 ⟨⟨pfx, b, (poll accepted).votes pfx b⟩,
        (mem_entries htallied ..).2 ⟨hdec, rfl⟩, rfl⟩
  · intro entry hentry
    obtain ⟨hdec, hvotes⟩ := (mem_entries htallied ..).1 hentry
    simp only [htallied.votes_eq, hvotes]
    exact ⟨trivial, fun a => ⟨hdec.best a, hdec.least a⟩⟩
  · rintro ⟨pfx, a, n⟩ hc
    have hspec := (bestByPrefix_spec htallied votesOrder).1 (bestOrder.mem_entries.1 hc)
    obtain ⟨N, -, rfl, -⟩ := htallied.network hspec.1.pos
    rw [usableEntry_text]
    rfl
  · intro q hq
    exact ⟨fun entry hentry path hpath hcov hlong => lookup_of_longest htallied votesOrder bestOrder
        topic localPeerId hq hentry hpath hcov hlong,
      lookup_of_not_covered htallied votesOrder bestOrder topic localPeerId hq⟩

/-- Both networks of the known round are selected. -/
theorem finalize_spec_two_claims :
    let artifact := (knownRound false).finalize .newestFirst .newestFirst "asmap" "observer"
    ("1.0.0.0/8" ∈ artifact.entries.map ConsensusEntry.ipPrefix) ∧
      "2001:db8::/32" ∈ artifact.entries.map ConsensusEntry.ipPrefix := by
  intro artifact
  obtain ⟨-, hentries, -⟩ := finalize_spec ⟨_, run_knownRound false⟩ .newestFirst .newestFirst
    .newestFirst .newestFirst "asmap" "observer"
  obtain ⟨h₄, h₆⟩ := votes_knownRound false
  rw [hentries, hentries, threshold_knownRound]
  exact ⟨⟨64500, by omega⟩, ⟨64501, by omega⟩⟩

end AsmapQuorum

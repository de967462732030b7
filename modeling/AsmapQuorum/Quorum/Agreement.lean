import AsmapQuorum.Quorum.Finalize

/-!
# Comparing two engines

Two engines that ran on their own, in any orders, finalize separately.

* `quorum_intersection` — **engines with one threshold agree** on every network both of them select,
  when their senders and equivocators together are fewer than two thresholds.
* `lookup_congr` — an address depends on the votes of the networks that cover it only.  So **votes
  written in one family's text never change the addresses of the other** (`votes_separate`).
-/

namespace AsmapQuorum

open FiniteMap PrefixOverwrite QuorumEngine

/-! ### Equivocators -/

/-- The vote keys that are tallied for a sender. -/
def talliedKeys (accepted : List AsmapClaim) (sender : String) : Finset (String × ℕ) :=
  match accepted.find? fun c => c.senderId = sender with
  | none => ∅
  | some claim =>
    match validatedVoteKeys claim with
    | .error _ => ∅
    | .ok voteKeys => voteKeys.toFinset

/-- The senders in both engines whose tallied vote keys differ. -/
def equivocators (A B : QuorumEngine) (acceptedA acceptedB : List AsmapClaim) : Finset String :=
  (A.seenSenders ∩ B.seenSenders).filter fun sender =>
    talliedKeys acceptedA sender ≠ talliedKeys acceptedB sender

/-- A ballot is the tallied keys of its sender. -/
theorem Tallied.ballot_eq_some {e : QuorumEngine} {accepted : List AsmapClaim}
    (h : Tallied e accepted) {sender pfx : String} {a : ℕ} :
    (poll accepted).ballot sender pfx = some a ↔ (pfx, a) ∈ talliedKeys accepted sender := by
  show (accepted.find? fun c => c.senderId = sender).bind (·.answer pfx) = some a ↔ _
  unfold talliedKeys
  cases hfind : accepted.find? fun c => c.senderId = sender with
  | none => simp
  | some claim =>
    obtain ⟨voteKeys, hkeys⟩ := h.valid claim (List.mem_of_find?_eq_some hfind)
    have hspec := validatedVoteKeys_spec hkeys
    dsimp only [Option.bind_some]
    rw [hkeys, hspec.answer_eq_some, ← hspec.mem_iff_asserts]
    exact List.mem_toFinset.symm

/-- **Quorum intersection.** -/
theorem quorum_intersection {lib libB : Crates} {A B : QuorumEngine}
    {acceptedA acceptedB : List AsmapClaim} (hA : Run lib A acceptedA) (hB : Run libB B acceptedB)
    (hthreshold : A.threshold = B.threshold)
    (hcount : (A.seenSenders ∪ B.seenSenders).card +
      (equivocators A B acceptedA acceptedB).card < 2 * A.threshold)
    (votesOrder votesOrder' : IterOrder (String × ℕ) ℕ)
    (bestOrder bestOrder' : IterOrder String (ℕ × ℕ))
    (topic topic' localPeerId localPeerId' : String) :
    ∀ entry ∈ (A.finalize votesOrder bestOrder topic localPeerId).entries,
    ∀ entry' ∈ (B.finalize votesOrder' bestOrder' topic' localPeerId').entries,
      entry.ipPrefix = entry'.ipPrefix → entry.asn = entry'.asn := by
  intro entry hentry entry' hentry' hpfx
  have hdec := ((mem_entries hA.tallied ..).1 hentry).1
  have hdec' := ((mem_entries hB.tallied ..).1 hentry').1
  rw [← hthreshold, ← hpfx] at hdec'
  rw [← hA.tallied.voters_eq, ← hB.tallied.voters_eq] at hcount
  refine Poll.agreement hcount ?_ hdec hdec'
  intro sender hsender hnot
  have hkeys : talliedKeys acceptedA sender = talliedKeys acceptedB sender := by
    by_contra hne
    rw [hA.tallied.voters_eq, hB.tallied.voters_eq] at hsender
    exact hnot (Finset.mem_filter.2 ⟨hsender, hne⟩)
  funext pfx
  ext a
  rw [hA.tallied.ballot_eq_some, hB.tallied.ballot_eq_some, hkeys]

/-- The known round in its two orders: two senders, and no equivocator. -/
theorem quorum_intersection_two_orders :
    ((knownRound false).seenSenders ∪ (knownRound true).seenSenders).card +
        (equivocators (knownRound false) (knownRound true)
          [knownClaim false knownEntries, knownClaim true knownEntries]
          [knownClaim true knownEntries, knownClaim false knownEntries]).card < 2 * 2 ∧
      ∀ entry ∈ ((knownRound false).finalize .newestFirst .newestFirst "asmap" "first").entries,
      ∀ entry' ∈ ((knownRound true).finalize .newestFirst .newestFirst "asmap" "second").entries,
        entry.ipPrefix = entry'.ipPrefix → entry.asn = entry'.asn := by
  have hfirst : Run knownCrates (knownRound false)
      [knownClaim false knownEntries, knownClaim true knownEntries] := run_knownRound false
  have hsecond : Run knownCrates (knownRound true)
      [knownClaim true knownEntries, knownClaim false knownEntries] := run_knownRound true
  have hcount : ((knownRound false).seenSenders ∪ (knownRound true).seenSenders).card +
      (equivocators (knownRound false) (knownRound true)
        [knownClaim false knownEntries, knownClaim true knownEntries]
        [knownClaim true knownEntries, knownClaim false knownEntries]).card < 2 * 2 := by
    rw [equivocators, hfirst.tallied.seenSenders, hsecond.tallied.seenSenders]
    decide +kernel
  refine ⟨hcount, quorum_intersection hfirst hsecond ?_ ?_ _ _ _ _ _ _ _ _⟩
  · rw [threshold_knownRound, threshold_knownRound]
  · rw [threshold_knownRound]
    exact hcount

/-! ### Votes and addresses -/

/-- What the tally of one engine puts in its map over an address, an engine with the same votes on
the networks that cover the address puts there too. -/
theorem mem_table_of_votes {e e' : QuorumEngine} {accepted accepted' : List AsmapClaim}
    (h : Tallied e accepted) (h' : Tallied e' accepted') (hthreshold : e.threshold = e'.threshold)
    {q : List Bool}
    (hvotes : ∀ N : Network, N.Admitted → N.path <+: q → ∀ a,
      e.votes.lookup (N.text, a) = e'.votes.lookup (N.text, a))
    {votesOrder : IterOrder (String × ℕ) ℕ} {bestOrder : IterOrder String (ℕ × ℕ)}
    (votesOrder' : IterOrder (String × ℕ) ℕ) (bestOrder' : IterOrder String (ℕ × ℕ)) {t : ASNEntry}
    (ht : t ∈ (e.usable votesOrder bestOrder).map Prod.fst) (hcov : t.1 <+: q) :
    t ∈ (e'.usable votesOrder' bestOrder').map Prod.fst := by
  obtain ⟨u, hu, rfl⟩ := List.mem_map.1 ht
  obtain ⟨hdec, hn, hpath, hasn⟩ := (mem_usableEntries h votesOrder bestOrder).1 hu
  obtain ⟨N, hN, hpfx, -⟩ := h.network hdec.pos
  have hNpath : N.path = u.1.1 := by
    rwa [hpfx, prefixPath_text, Option.some.injEq] at hpath
  have hsame : ∀ a, (poll accepted).votes u.2.ipPrefix a = (poll accepted').votes u.2.ipPrefix
      a := by
    intro a
    rw [← h.votes_eq, ← h'.votes_eq, count, count, hpfx, hvotes N hN (hNpath ▸ hcov)]
  refine List.mem_map.2 ⟨u, (mem_usableEntries h' votesOrder' bestOrder').2 ⟨?_, ?_, hpath, hasn⟩,
    rfl⟩
  · rw [← hthreshold]
    exact hdec.congr hsame
  · rw [hn, hsame]

/-- **The votes of the networks that cover an address decide its ASN.** -/
theorem lookup_congr {e e' : QuorumEngine} {accepted accepted' : List AsmapClaim}
    (h : Tallied e accepted) (h' : Tallied e' accepted') (hthreshold : e.threshold = e'.threshold)
    {q : List Bool} (hq : q.length = 128)
    (hvotes : ∀ N : Network, N.Admitted → N.path <+: q → ∀ a,
      e.votes.lookup (N.text, a) = e'.votes.lookup (N.text, a))
    (votesOrder votesOrder' : IterOrder (String × ℕ) ℕ)
    (bestOrder bestOrder' : IterOrder String (ℕ × ℕ))
    (topic topic' localPeerId localPeerId' : String) :
    (e.finalize votesOrder bestOrder topic localPeerId).map.lookup q =
      (e'.finalize votesOrder' bestOrder' topic' localPeerId').map.lookup q := by
  rw [lookup_eq_assignMulti h votesOrder bestOrder topic localPeerId hq (Stream'.const false),
    lookup_eq_assignMulti h' votesOrder' bestOrder' topic' localPeerId' hq (Stream'.const false)]
  refine congrArg some (assignMulti_congr _ (nodup_paths h votesOrder bestOrder)
    (nodup_paths h' votesOrder' bestOrder') ?_)
  intro t hcov
  have hpfx : t.1.length ≤ 128 → t.1 <+: q := fun hlen => (covers_append_iff _ (by omega)).1 hcov
  constructor
  · intro ht
    exact mem_table_of_votes h h' hthreshold hvotes votesOrder' bestOrder' ht
      (hpfx (length_le_of_mem_table h _ _ ht))
  · intro ht
    exact mem_table_of_votes h' h hthreshold.symm (fun N hN hNq a => (hvotes N hN hNq a).symm)
      votesOrder bestOrder ht (hpfx (length_le_of_mem_table h' _ _ ht))

/-! ### The two families -/

/-- The prefix is written as a dotted quad. -/
def writtenInIpv4 (pfx : String) : Bool :=
  match canonicalConsensusPrefix pfx with
  | .ok (_, .V4 _, _) => true
  | _ => false

/-- The prefix is written in IPv6 text. -/
def writtenInIpv6 (pfx : String) : Bool :=
  match canonicalConsensusPrefix pfx with
  | .ok (_, .V6 _, _) => true
  | _ => false

/-- A network over an IPv4 address is written as a dotted quad. -/
theorem writtenInIpv4_of_path {N : Network} (hN : N.Admitted) {q : List Bool} (hcov : N.path <+: q)
    (hq : mappedPath <+: q) : writtenInIpv4 N.text = true := by
  rw [writtenInIpv4, canonicalConsensusPrefix_text]
  cases hip : N.ip with
  | V4 addr => rfl
  | V6 addr =>
    have hapart := N.apart_of_V6 hN hip
    rcases List.prefix_or_prefix_of_prefix hcov hq with hle | hle
    · exact absurd hle hapart.1
    · exact absurd hle hapart.2

/-- A network over an address outside the mapped range is written in IPv6 text. -/
theorem writtenInIpv6_of_path {N : Network} {q : List Bool} (hcov : N.path <+: q)
    (hq : ¬mappedPath <+: q) : writtenInIpv6 N.text = true := by
  rw [writtenInIpv6, canonicalConsensusPrefix_text]
  cases hip : N.ip with
  | V4 addr =>
    rw [N.path_V4 hip] at hcov
    exact absurd ((List.prefix_append _ _).trans hcov) hq
  | V6 addr => rfl

/-- **No vote in IPv6 text changes an IPv4 address, and no dotted quad changes an IPv6 address.** -/
theorem votes_separate {lib lib' : Crates} {e e' : QuorumEngine} (h : Reachable lib e)
    (h' : Reachable lib' e') (hthreshold : e.threshold = e'.threshold)
    (votesOrder votesOrder' : IterOrder (String × ℕ) ℕ)
    (bestOrder bestOrder' : IterOrder String (ℕ × ℕ))
    (topic topic' localPeerId localPeerId' : String) :
    ((∀ pfx a, writtenInIpv4 pfx = true → e.votes.lookup (pfx, a) = e'.votes.lookup (pfx, a)) →
      ∀ host : List Bool, host.length = 32 →
        (e.finalize votesOrder bestOrder topic localPeerId).map.lookup (mappedPath ++ host) =
          (e'.finalize votesOrder' bestOrder' topic' localPeerId').map.lookup
            (mappedPath ++ host)) ∧
    ((∀ pfx a, writtenInIpv6 pfx = true → e.votes.lookup (pfx, a) = e'.votes.lookup (pfx, a)) →
      ∀ q : List Bool, q.length = 128 → ¬mappedPath <+: q →
        (e.finalize votesOrder bestOrder topic localPeerId).map.lookup q =
          (e'.finalize votesOrder' bestOrder' topic' localPeerId').map.lookup q) := by
  obtain ⟨accepted, hrun⟩ := h
  obtain ⟨accepted', hrun'⟩ := h'
  constructor
  · intro hvotes host hhost
    have hq : (mappedPath ++ host).length = 128 := by
      rw [List.length_append, hhost]
      rfl
    apply lookup_congr hrun.tallied hrun'.tallied hthreshold hq
    intro N hN hcov a
    exact hvotes N.text a (writtenInIpv4_of_path hN hcov (List.prefix_append _ _))
  · intro hvotes q hq hout
    apply lookup_congr hrun.tallied hrun'.tallied hthreshold hq
    intro N _ hcov a
    exact hvotes N.text a (writtenInIpv6_of_path hcov hout)

/-- A claim with networks in IPv6 text alone leaves `0.0.0.0` as it is in an empty round. -/
theorem votes_separate_ipv6_claim :
    let e := withLimits 1 7 default
    let e' := (e.processClaim knownCrates (knownClaim false knownText)).1
    let address := mappedPath ++ List.replicate 32 false
    (e.finalize .newestFirst .newestFirst "asmap" "observer").map.lookup address =
      (e'.finalize .newestFirst .newestFirst "asmap" "observer").map.lookup address := by
  intro e e' address
  have hstart : Run knownCrates e [] := .start 1 7 default
  have hrun : Run knownCrates e' _ := hstart.claim (knownClaim false knownText)
  have hthreshold : e'.threshold = e.threshold :=
    (processClaim_settled knownCrates hstart.tallied.maxSenders_pos _).threshold
  have hkeys : ∀ key ∈ e'.votes.keys, writtenInIpv4 key.1 = false := by decide +kernel
  have hempty : e.votes = ∅ := rfl
  clear_value e e'
  refine (votes_separate ⟨_, hstart⟩ ⟨_, hrun⟩ hthreshold.symm .newestFirst .newestFirst
    .newestFirst .newestFirst "asmap" "asmap" "observer" "observer").1 ?_
      _ (List.length_replicate ..)
  intro pfx a hpfx
  have hnot : (pfx, a) ∉ e'.votes := by
    intro hmem
    rw [hkeys _ (AList.mem_keys.1 hmem)] at hpfx
    cases hpfx
  rw [hempty, AList.lookup_empty, AList.lookup_eq_none.2 hnot]

end AsmapQuorum

import AsmapQuorum.Lib.Poll
import AsmapQuorum.Quorum.Engine

/-!
# Runs of the engine

A run starts with `withLimits` and makes any calls in any order.  Beside the engine it carries the
claims accepted since the epoch was last changed or reset; the engine itself does not store them.

* `Tallied` — the invariant between the two: one claim a sender, and votes that count claims.
  `Run.tallied` carries it through every run.
* `poll`, `Tallied.votes_eq` — **the tally is a poll**: each sender is a voter, and its claim
  answers each network with at most one ASN.
* `call_accepts_or_rejects`, `tally_exact` — what follows for one call and for the books.
-/

namespace AsmapQuorum

open FiniteMap QuorumEngine

/-! ### Runs -/

/-- The accepted claims of the epoch after a call. -/
def history (e : QuorumEngine) (accepted : List AsmapClaim) (claim : AsmapClaim)
    (r : QuorumEngine × Verdict) : List AsmapClaim :=
  (if r.1.epoch = e.epoch then accepted else []) ++
    match r.2 with
    | .accepted _ => [claim]
    | .rejected _ => []

/-- The engines of all runs, each with the claims accepted since its epoch was last changed or
reset. -/
inductive Run (lib : Crates) : QuorumEngine → List AsmapClaim → Prop where
  | start (threshold : ℕ) (epoch : UInt64) (limits : ClaimLimits) :
      Run lib (withLimits threshold epoch limits) []
  | claim {e : QuorumEngine} {accepted : List AsmapClaim} (h : Run lib e accepted)
      (c : AsmapClaim) :
      Run lib (e.processClaim lib c).1 (history e accepted c (e.processClaim lib c))
  | claimFromPeer {e : QuorumEngine} {accepted : List AsmapClaim} (h : Run lib e accepted)
      (c : AsmapClaim) (source : lib.PeerId) :
      Run lib (e.processClaimFromPeer lib c source).1
        (history e accepted c (e.processClaimFromPeer lib c source))
  | oversize {e : QuorumEngine} {accepted : List AsmapClaim} (h : Run lib e accepted) :
      Run lib e.recordOversizeClaim accepted
  | malformed {e : QuorumEngine} {accepted : List AsmapClaim} (h : Run lib e accepted) :
      Run lib e.recordMalformedClaim accepted
  | advance {e : QuorumEngine} {accepted : List AsmapClaim} (h : Run lib e accepted)
      (epoch : UInt64) : Run lib (e.advanceEpoch epoch) []

/-- The engine can be reached by some run. -/
def Reachable (lib : Crates) (e : QuorumEngine) : Prop := ∃ accepted, Run lib e accepted

/-! ### The invariant -/

/-- The books of the engine are those of the accepted claims. -/
structure Tallied (e : QuorumEngine) (accepted : List AsmapClaim) : Prop where
  maxSenders_pos : 1 ≤ e.limits.maxSenders
  epoch : ∀ c ∈ accepted, c.epoch = e.epoch
  valid : ∀ c ∈ accepted, ∃ voteKeys, validatedVoteKeys c = .ok voteKeys
  nodup : (accepted.map AsmapClaim.senderId).Nodup
  seenSenders : e.seenSenders = (accepted.map AsmapClaim.senderId).toFinset
  acceptedClaims : e.acceptedClaims = accepted.length
  room : accepted.length ≤ e.limits.maxSenders
  positive : Positive e.votes
  votes : ∀ key, count e.votes key = accepted.countP (·.asserts key)

namespace Tallied

variable {e e' : QuorumEngine} {accepted : List AsmapClaim} {claim : AsmapClaim}

/-- A round without claims. -/
theorem nil (hpos : 1 ≤ e.limits.maxSenders) (hseen : e.seenSenders = ∅) (hvotes : e.votes = ∅)
    (haccepted : e.acceptedClaims = 0) : Tallied e [] where
  maxSenders_pos := hpos
  epoch := by simp
  valid := by simp
  nodup := List.nodup_nil
  seenSenders := hseen
  acceptedClaims := haccepted
  room := Nat.zero_le _
  positive := hvotes ▸ positive_empty
  votes key := by rw [hvotes, count_empty, List.countP_nil]

/-- **A rejected claim keeps the books.** -/
theorem rejects (h : Tallied e accepted) {reason : String} (hrej : e.Rejects e' reason) :
    Tallied e' accepted where
  maxSenders_pos := hrej.limits ▸ h.maxSenders_pos
  epoch c hc := by rw [h.epoch c hc, hrej.epoch]
  valid := h.valid
  nodup := h.nodup
  seenSenders := by rw [hrej.seenSenders, h.seenSenders]
  acceptedClaims := by rw [hrej.acceptedClaims, h.acceptedClaims]
  room := hrej.limits ▸ h.room
  positive := hrej.votes ▸ h.positive
  votes key := by rw [hrej.votes, h.votes]

theorem card_seenSenders (h : Tallied e accepted) : e.seenSenders.card = accepted.length := by
  rw [h.seenSenders, List.toFinset_card_of_nodup h.nodup, List.length_map]

/-- The round a claim is tallied in: the one that is open, or a new one. -/
theorem adopt (h : Tallied e accepted) (claim : AsmapClaim) :
    Tallied (e.adopt claim) (if e.epoch < claim.epoch then [] else accepted) := by
  split
  · next hlt =>
    rw [adopt_of_lt e hlt]
    exact nil h.maxSenders_pos rfl rfl rfl
  · next hlt =>
    rw [adopt_of_not_lt e hlt]
    exact h

/-- **An accepted claim is entered in the books.** -/
theorem accepts (h : Tallied e accepted) {voteKeys : List (String × ℕ)}
    (hacc : e.Accepts e' claim voteKeys) :
    Tallied e' ((if e.epoch < claim.epoch then [] else accepted) ++ [claim]) := by
  have hbase := h.adopt claim
  have hspec := validatedVoteKeys_spec hacc.valid
  have hlimits := adopt_limits e claim
  have hcard := hbase.card_seenSenders
  have hroom := hacc.room
  generalize (if e.epoch < claim.epoch then [] else accepted) = base at hbase hcard ⊢
  have hnew : claim.senderId ∉ base.map AsmapClaim.senderId := by
    have := hacc.new_sender
    rwa [hbase.seenSenders, List.mem_toFinset] at this
  exact
    { maxSenders_pos := hacc.limits ▸ h.maxSenders_pos
      epoch := by
        intro c hc
        rcases List.mem_append.1 hc with hc | hc
        · rw [hbase.epoch c hc, adopt_epoch e hacc.not_stale, hacc.epoch]
        · rw [List.mem_singleton.1 hc, hacc.epoch]
      valid := by
        intro c hc
        rcases List.mem_append.1 hc with hc | hc
        · exact hbase.valid c hc
        · exact ⟨voteKeys, List.mem_singleton.1 hc ▸ hacc.valid⟩
      nodup := by
        rw [List.map_append, List.nodup_append_comm]
        exact List.nodup_cons.2 ⟨hnew, hbase.nodup⟩
      seenSenders := by
        rw [hacc.seenSenders, hbase.seenSenders]
        ext s
        simp
      acceptedClaims := by
        rw [hacc.acceptedClaims, hbase.acceptedClaims, List.length_append, List.length_singleton]
      room := by
        rw [hacc.limits, List.length_append, List.length_singleton]
        omega
      positive := by
        rw [hacc.votes]
        exact hbase.positive.foldl_bump voteKeys
      votes := by
        intro key
        -- the claim's keys do not repeat, and are what it asserts
        rw [hacc.votes, count_foldl_bump_of_nodup _ hspec.nodup.of_map, hbase.votes,
          List.countP_append, List.countP_singleton]
        exact congrArg _ (if_congr (hspec.mem_iff_asserts key) rfl rfl) }

/-- **A call keeps the invariant.** -/
theorem settled (h : Tallied e accepted) {r : QuorumEngine × Verdict} (hr : e.Settled claim r) :
    Tallied r.1 (history e accepted claim r) := by
  obtain ⟨e', verdict⟩ := r
  cases verdict with
  | rejected reason =>
    have hrej : e.Rejects e' reason := hr
    rw [history, if_pos hrej.epoch, List.append_nil]
    exact h.rejects hrej
  | accepted quorum =>
    obtain ⟨⟨voteKeys, hacc⟩, -⟩ := hr
    have heq : (if e'.epoch = e.epoch then accepted else []) =
        if e.epoch < claim.epoch then [] else accepted := by
      have := hacc.not_stale
      rw [hacc.epoch]
      by_cases hlt : e.epoch < claim.epoch
      · rw [if_pos hlt, if_neg (by grind)]
      · rw [if_neg hlt, if_pos (by grind)]
    rw [history, heq]
    exact h.accepts hacc

end Tallied

/-- **The books agree in every run.** -/
theorem Run.tallied {lib : Crates} {e : QuorumEngine} {accepted : List AsmapClaim}
    (h : Run lib e accepted) : Tallied e accepted := by
  induction h with
  | start threshold epoch limits =>
    exact .nil (withLimits_maxSenders_pos threshold epoch limits) rfl rfl rfl
  | claim _ c ih => exact ih.settled (processClaim_settled lib ih.maxSenders_pos c)
  | claimFromPeer _ c source ih =>
    exact ih.settled (processClaimFromPeer_settled lib ih.maxSenders_pos c source)
  | oversize _ ih => exact ih.rejects (countRejection_rejects _ _)
  | malformed _ ih => exact ih.rejects (countRejection_rejects _ _)
  | advance _ epoch ih => exact .nil ih.maxSenders_pos rfl rfl rfl

/-! ### The tally as a poll -/

/-- The senders as voters, each with the answers of its claim. -/
def poll (accepted : List AsmapClaim) : Poll String String ℕ where
  voters := (accepted.map AsmapClaim.senderId).toFinset
  ballot sender pfx := (accepted.find? fun c => c.senderId = sender).bind (·.answer pfx)

namespace Tallied

variable {e : QuorumEngine} {accepted : List AsmapClaim}

/-- The claim of a sender is found by its sender. -/
theorem find_sender (h : Tallied e accepted) {c : AsmapClaim} (hc : c ∈ accepted) :
    (accepted.find? fun c' => c'.senderId = c.senderId) = some c := by
  cases hfind : accepted.find? fun c' => c'.senderId = c.senderId with
  | none => exact absurd (decide_eq_true rfl) (List.find?_eq_none.1 hfind c hc)
  | some c' =>
    have hsender : c'.senderId = c.senderId := by simpa using List.find?_some hfind
    rw [List.inj_on_of_nodup_map h.nodup (List.mem_of_find?_eq_some hfind) hc hsender]

/-- A claim in the books answers what it asserts. -/
theorem answer_eq_some (h : Tallied e accepted) {c : AsmapClaim} (hc : c ∈ accepted) {pfx : String}
    {a : ℕ} : c.answer pfx = some a ↔ c.asserts (pfx, a) = true := by
  obtain ⟨voteKeys, hkeys⟩ := h.valid c hc
  exact (validatedVoteKeys_spec hkeys).answer_eq_some

/-- The supporters of an ASN are the senders of the claims that assert it. -/
theorem supporters_eq (h : Tallied e accepted) (pfx : String) (a : ℕ) :
    (poll accepted).supporters pfx a =
      ((accepted.filter (·.asserts (pfx, a))).map AsmapClaim.senderId).toFinset := by
  ext s
  rw [Poll.mem_supporters, List.mem_toFinset, List.mem_map]
  constructor
  · rintro ⟨hs, hballot⟩
    obtain ⟨c, hc, rfl⟩ := List.mem_map.1 (List.mem_toFinset.1 hs)
    simp only [poll, h.find_sender hc, Option.bind_some] at hballot
    exact ⟨c, List.mem_filter.2 ⟨hc, (h.answer_eq_some hc).1 hballot⟩, rfl⟩
  · rintro ⟨c, hc, rfl⟩
    obtain ⟨hc, hass⟩ := List.mem_filter.1 hc
    refine ⟨List.mem_toFinset.2 (List.mem_map.2 ⟨c, hc, rfl⟩), ?_⟩
    simp only [poll, h.find_sender hc, Option.bind_some]
    exact (h.answer_eq_some hc).2 hass

/-- **The votes of the engine are the votes of the poll.** -/
theorem votes_eq (h : Tallied e accepted) (pfx : String) (a : ℕ) :
    count e.votes (pfx, a) = (poll accepted).votes pfx a := by
  have hsub : ((accepted.filter (·.asserts (pfx, a))).map AsmapClaim.senderId).Nodup :=
    h.nodup.sublist (List.filter_sublist.map _)
  rw [h.votes, Poll.votes, h.supporters_eq, List.toFinset_card_of_nodup hsub, List.length_map,
    List.countP_eq_length_filter]

theorem voters_eq (h : Tallied e accepted) : (poll accepted).voters = e.seenSenders :=
  h.seenSenders.symm

end Tallied

/-! ### A known round -/

/-- Both known peers claim the same at epoch 7, in either order. -/
def knownRound (first : Bool) : QuorumEngine :=
  let e := ((withLimits 2 7 default).processClaim knownCrates (knownClaim first knownEntries)).1
  (e.processClaim knownCrates (knownClaim (!first) knownEntries)).1

theorem run_knownRound (first : Bool) : Run knownCrates (knownRound first)
    [knownClaim first knownEntries, knownClaim (!first) knownEntries] := by
  have hstart : Run knownCrates (withLimits 2 7 default) [] := .start 2 7 default
  have hrun := (hstart.claim (knownClaim first knownEntries)).claim
    (knownClaim (!first) knownEntries)
  have hhistory : history
      ((withLimits 2 7 default).processClaim knownCrates (knownClaim first knownEntries)).1
      (history (withLimits 2 7 default) [] (knownClaim first knownEntries)
        ((withLimits 2 7 default).processClaim knownCrates (knownClaim first knownEntries)))
      (knownClaim (!first) knownEntries)
      (((withLimits 2 7 default).processClaim knownCrates
        (knownClaim first knownEntries)).1.processClaim knownCrates
          (knownClaim (!first) knownEntries)) =
      [knownClaim first knownEntries, knownClaim (!first) knownEntries] := by
    cases first <;> decide +kernel
  rw [hhistory] at hrun
  exact hrun

theorem threshold_knownRound (first : Bool) : (knownRound first).threshold = 2 := by
  have hfirst := processClaim_settled knownCrates (e := withLimits 2 7 default)
    (withLimits_maxSenders_pos 2 7 default) (knownClaim first knownEntries)
  have hpos := (Tallied.nil (withLimits_maxSenders_pos 2 7 default) rfl rfl rfl).settled hfirst
  have hsecond := processClaim_settled knownCrates hpos.maxSenders_pos
    (knownClaim (!first) knownEntries)
  exact hsecond.threshold.trans hfirst.threshold

theorem votes_knownRound (first : Bool) : count (knownRound first).votes ("1.0.0.0/8", 64500) = 2 ∧
    count (knownRound first).votes ("2001:db8::/32", 64501) = 2 := by
  rw [(run_knownRound first).tallied.votes, (run_knownRound first).tallied.votes]
  cases first <;> decide +kernel

/-! ### Main results -/

/-- **A rejected claim never mutates the round**, and an accepted one adds its sender to the round
it found, or to the empty round of its own newer epoch. -/
theorem call_accepts_or_rejects {lib : Crates} {e : QuorumEngine} (h : Reachable lib e)
    (claim : AsmapClaim) (source : lib.PeerId) :
    ∀ r ∈ [e.processClaim lib claim, e.processClaimFromPeer lib claim source],
      (∃ quorum voteKeys, r.2 = .accepted quorum ∧ e.Accepts r.1 claim voteKeys ∧
        r.1.acceptedClaims = r.1.seenSenders.card) ∨
      ∃ reason, r.2 = .rejected reason ∧ e.Rejects r.1 reason := by
  obtain ⟨accepted, hrun⟩ := h
  have htallied := hrun.tallied
  intro r hr
  have hsettled : e.Settled claim r := by
    rcases List.mem_cons.1 hr with rfl | hr
    · exact processClaim_settled lib htallied.maxSenders_pos claim
    · rw [List.mem_singleton.1 hr]
      exact processClaimFromPeer_settled lib htallied.maxSenders_pos claim source
  have hafter := htallied.settled hsettled
  obtain ⟨e', verdict⟩ := r
  cases verdict with
  | rejected reason => exact .inr ⟨reason, rfl, hsettled⟩
  | accepted quorum =>
    obtain ⟨⟨voteKeys, hacc⟩, -⟩ := hsettled
    refine .inl ⟨quorum, voteKeys, rfl, hacc, ?_⟩
    rw [hafter.acceptedClaims, hafter.card_seenSenders]

/-- With limits that admit no sender, and no votes needed, a first claim is accepted still. -/
theorem call_accepts_or_rejects_no_senders :
    let e := withLimits 0 7 { (default : ClaimLimits) with maxSenders := 0 }
    let r := e.processClaim knownCrates (knownClaim false knownEntries)
    ∃ quorum voteKeys, r.2 = .accepted quorum ∧
      e.Accepts r.1 (knownClaim false knownEntries) voteKeys ∧
      r.1.acceptedClaims = r.1.seenSenders.card := by
  intro e r
  have hverdict : r.2 = .accepted true := by decide +kernel
  have hreachable : Reachable knownCrates e := ⟨[], .start 0 7 _⟩
  have hcall := call_accepts_or_rejects hreachable (knownClaim false knownEntries) false r
    (List.mem_cons_self ..)
  apply hcall.resolve_right
  rintro ⟨reason, hrejected, -⟩
  rw [hverdict] at hrejected
  cases hrejected

/-- **The tally is exact**: one vote for each sender and canonical network. -/
theorem tally_exact {lib : Crates} {e : QuorumEngine} {accepted : List AsmapClaim}
    (h : Run lib e accepted) :
    (accepted.map AsmapClaim.senderId).Nodup ∧
    e.seenSenders = (accepted.map AsmapClaim.senderId).toFinset ∧
    e.acceptedClaims = accepted.length ∧ accepted.length ≤ e.limits.maxSenders ∧
    (∀ key, e.votes.lookup key =
      if accepted.countP (·.asserts key) = 0 then
        none else some (accepted.countP (·.asserts key))) ∧
    (∀ pfx (asns : Finset ℕ), ∑ a ∈ asns, count e.votes (pfx, a) ≤ e.seenSenders.card) ∧
    ∀ c ∈ accepted, ∀ c' ∈ accepted, c.senderId = c'.senderId → ∀ pfx a b,
      c.asserts (pfx, a) = true → c'.asserts (pfx, b) = true → c = c' ∧ a = b := by
  have htallied := h.tallied
  refine ⟨htallied.nodup, htallied.seenSenders, htallied.acceptedClaims, htallied.room, ?_, ?_, ?_⟩
  · intro key
    rw [htallied.positive.lookup_eq, htallied.votes]
  · intro pfx asns
    calc ∑ a ∈ asns, count e.votes (pfx, a) = ∑ a ∈ asns, (poll accepted).votes pfx a :=
          Finset.sum_congr rfl fun a _ => htallied.votes_eq pfx a
      _ ≤ (poll accepted).voters.card := Poll.sum_votes_le _ pfx asns
      _ = e.seenSenders.card := by rw [htallied.voters_eq]
  · intro c hc c' hc' hsender pfx a b ha hb
    obtain rfl := List.inj_on_of_nodup_map htallied.nodup hc hc' hsender
    obtain ⟨voteKeys, hkeys⟩ := htallied.valid c hc
    exact ⟨rfl, (validatedVoteKeys_spec hkeys).asserts_unique ha hb⟩

/-- Two claims, two votes. -/
theorem tally_exact_two_claims : (knownRound false).acceptedClaims = 2 ∧
    (knownRound false).seenSenders = {knownPeerText false, knownPeerText true} ∧
    ∑ a ∈ {64500, 64501}, count (knownRound false).votes ("1.0.0.0/8", a) ≤ 2 := by
  obtain ⟨-, hseen, haccepted, -, -, hsum, -⟩ := tally_exact (run_knownRound false)
  have hcard : (knownRound false).seenSenders.card = 2 :=
    (run_knownRound false).tallied.card_seenSenders
  exact ⟨haccepted, hseen, hcard ▸ hsum "1.0.0.0/8" {64500, 64501}⟩

end AsmapQuorum

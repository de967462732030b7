import AsmapQuorum.Quorum.Engine

/-!
# The rejection ledger

Operators read from a report that nothing was dropped silently: every claim and every payload is
either accepted or counted under one of a fixed list of reasons, and the rows retained for
inspection stay bounded.

* `rejectionReasons` — the reasons of all gates; `gates_counted`, `gates_recorded` say which gate
  can give which.
* `Booked` — one accounting event.  **Every call books exactly one**, in the round it found or in
  the round it opened (`processClaimFromPeer_books`, `processClaim_books`).
* `Ledger` — the invariant of the books, which one event keeps (`Ledger.booked`); `Handled.ledger`
  carries it through every run.
-/

namespace AsmapQuorum

open FiniteMap

/-! ### Reasons -/

/-- Everything a claim or a payload can be rejected for. -/
def rejectionReasons : List String :=
  ["oversize_claim", "malformed_claim", "invalid_sender_id", "source_mismatch",
    "malformed_claim_hash", "claim_hash_mismatch", "empty_claim", "too_many_entries",
    "epoch_out_of_range", "stale_epoch",
    "epoch_jump_too_large", "asn_out_of_range", "unassigned_asn", "invalid_prefix",
    "ipv4_mapped_prefix", "default_route_prefix", "conflicting_entry", "sender_limit_exceeded",
    "duplicate_sender", "unparsable_sender"]

theorem voteKey_error {entry : AsmapEntry} {reason : String} (h : voteKey entry = .error reason) :
    reason ∈ rejectionReasons := by
  unfold voteKey at h
  repeat' split at h
  all_goals cases h
  all_goals simp [rejectionReasons]

theorem voteKeysLoop_error (entries : List AsmapEntry) {seen : Map String ℕ}
    {keys : List (String × ℕ)} {reason : String}
    (h : voteKeysLoop seen keys entries = .error reason) : reason ∈ rejectionReasons := by
  induction entries generalizing seen keys with
  | nil => cases h
  | cons entry rest ih =>
    unfold voteKeysLoop at h
    split at h
    · next reason' hreason =>
      cases h
      exact voteKey_error hreason
    · split at h
      · split at h
        · cases h
          simp [rejectionReasons]
        · exact ih h
      · exact ih h

namespace QuorumEngine

theorem shapeViolation_mem {e : QuorumEngine} {claim : AsmapClaim} {reason : String}
    (h : e.shapeViolation claim = some reason) : reason ∈ rejectionReasons := by
  unfold shapeViolation at h
  repeat' split at h
  all_goals cases h
  all_goals simp [rejectionReasons]

/-! ### Rows -/

/-- A sender that is its own source, of bounded length, and a hash of its full length. -/
structure Presentable (limits : ClaimLimits) (sourcePeerId senderId claimHash : String) : Prop where
  source : senderId = sourcePeerId
  senderId_le : senderId.utf8ByteSize ≤ limits.maxSenderIdLen
  claimHash_length : claimHash.length = claimHashLen

/-- Of a claim that passed the first two gates a row may be kept. -/
theorem presentable_of_shape {e : QuorumEngine} {claim : AsmapClaim} {sourcePeerId : String}
    (hshape : e.shapeViolation claim = none) (hsource : claim.senderId = sourcePeerId) :
    Presentable e.limits sourcePeerId claim.senderId claim.claimHash := by
  obtain ⟨hsender, hhash, -⟩ := shapeViolation_eq_none.1 hshape
  exact ⟨hsource, hsender, (hash_shape_iff.1 hhash).1⟩

section Gates

variable {lib : Crates} {e : QuorumEngine} {claim : AsmapClaim} {source : lib.PeerId}
  {reason : String}

/-- The gates that only count. -/
theorem gates_counted (h : e.gates lib claim source = .error (.counted reason)) :
    reason ∈ rejectionReasons := by
  unfold gates at h
  split at h
  · next hshape =>
    cases h
    exact shapeViolation_mem hshape
  · repeat' split at h
    all_goals cases h
    simp [rejectionReasons]

/-- The gates that keep a row come after the source of the claim is known. -/
theorem gates_recorded (h : e.gates lib claim source = .error (.recorded reason)) :
    reason ∈ rejectionReasons ∧
      Presentable e.limits (lib.peerIdText source) claim.senderId claim.claimHash := by
  unfold gates at h
  split at h
  · cases h
  · next hshape =>
    split at h
    · cases h
    · next hsource =>
      refine ⟨?_, presentable_of_shape hshape (not_not.1 hsource)⟩
      split at h
      · cases h
        simp [rejectionReasons]
      · split at h
        · cases h
          simp [rejectionReasons]
        · split at h
          · cases h
            simp [rejectionReasons]
          · split at h
            · next hkeys =>
              cases h
              exact voteKeysLoop_error claim.entries hkeys
            · cases h

end Gates

/-! ### One event -/

/-- One accounting event: a reason counted, a rejection recorded, or a claim tallied. -/
inductive Booked (lib : Crates) (e : QuorumEngine) : QuorumEngine → Prop where
  | counted {reason : String}
      (h : reason ∈ rejectionReasons) : Booked lib e (e.countRejection reason)
  | recorded {epoch : UInt64} {sourcePeerId senderId claimHash reason : String}
      (h : reason ∈ rejectionReasons)
      (hrow : Presentable e.limits sourcePeerId senderId claimHash) :
      Booked lib e (e.recordRejection epoch sourcePeerId senderId claimHash reason)
  | tallied {claim : AsmapClaim} {source : lib.PeerId} {voteKeys : List (String × ℕ)}
      (hrow : Presentable e.limits (lib.peerIdText source) claim.senderId
        (claimHash lib claim.epoch claim.senderId claim.entries)) :
      Booked lib e (e.tally lib claim source voteKeys)

variable {lib : Crates}

theorem Booked.epoch {e e' : QuorumEngine} (h : Booked lib e e') : e'.epoch = e.epoch := by
  cases h with
  | counted _ => rfl
  | recorded _ _ => exact (recordRejection_rejects ..).epoch
  | tallied _ => rfl

/-- No row is ever taken back. -/
theorem Booked.observations {e e' : QuorumEngine} (h : Booked lib e e') :
    e.observations <+: e'.observations := by
  cases h with
  | counted _ => exact List.prefix_rfl
  | recorded _ _ => exact (recordRejection_rejects ..).observations
  | tallied _ => exact List.prefix_append _ _

/-- A call books one event, in the round it found or in one that it opened. -/
def Books (lib : Crates) (e e' : QuorumEngine) : Prop :=
  Booked lib e e' ∨ ∃ epoch, e.epoch < epoch ∧ Booked lib (e.resetForEpoch epoch) e'

/-- **Every claim attributed to a peer is booked once.** -/
theorem processClaimFromPeer_books (e : QuorumEngine) (claim : AsmapClaim) (source : lib.PeerId) :
    Books lib e (e.processClaimFromPeer lib claim source).1 := by
  unfold processClaimFromPeer
  cases hgates : e.gates lib claim source with
  | error rejection =>
    cases rejection with
    | counted reason => exact .inl (.counted (gates_counted hgates))
    | recorded reason =>
      obtain ⟨hreason, hrow⟩ := gates_recorded hgates
      exact .inl (.recorded hreason hrow)
  | ok voteKeys =>
    obtain ⟨hshape, hsource, hhash, -⟩ := gates_eq_ok lib hgates
    have hrow := presentable_of_shape hshape hsource
    have hround : ∀ e', Booked lib (e.adopt claim) e' → Books lib e e' := by
      intro e' h
      by_cases hlt : e.epoch < claim.epoch
      · rw [adopt_of_lt e hlt] at h
        exact .inr ⟨claim.epoch, hlt, h⟩
      · rw [adopt_of_not_lt e hlt] at h
        exact .inl h
    rw [← adopt_limits e claim] at hrow
    apply hround
    dsimp only
    split
    · exact .recorded (by simp [rejectionReasons]) hrow
    · split
      · exact .recorded (by simp [rejectionReasons]) hrow
      · rw [hhash] at hrow
        exact .tallied hrow

/-- **Every claim of a file is booked once.** -/
theorem processClaim_books (e : QuorumEngine) (claim : AsmapClaim) :
    Books lib e (e.processClaim lib claim).1 := by
  unfold processClaim
  split
  · exact .inl (.counted (by simp [rejectionReasons]))
  · split
    · exact .inl (.counted (by simp [rejectionReasons]))
    · exact processClaimFromPeer_books e claim _

theorem recordOversizeClaim_booked (lib : Crates) (e : QuorumEngine) :
    Booked lib e e.recordOversizeClaim :=
  .counted (by simp [rejectionReasons])

theorem recordMalformedClaim_booked (lib : Crates) (e : QuorumEngine) :
    Booked lib e e.recordMalformedClaim :=
  .counted (by simp [rejectionReasons])

end QuorumEngine

open QuorumEngine

/-! ### The books -/

/-- The number of claims and payloads handled in the round after a call: a call that opened the
round is its first. -/
def handledAfter (e : QuorumEngine) (handled : ℕ) (e' : QuorumEngine) : ℕ :=
  if e'.epoch = e.epoch then handled + 1 else 1

/-- The engines of all runs, each with the number of claims and payloads handled since its round was
last cleared. -/
inductive Handled (lib : Crates) : QuorumEngine → ℕ → Prop where
  | start (threshold : ℕ) (epoch : UInt64) (limits : ClaimLimits) :
      Handled lib (withLimits threshold epoch limits) 0
  | claim {e : QuorumEngine} {handled : ℕ} (h : Handled lib e handled) (c : AsmapClaim) :
      Handled lib (e.processClaim lib c).1 (handledAfter e handled (e.processClaim lib c).1)
  | claimFromPeer {e : QuorumEngine} {handled : ℕ} (h : Handled lib e handled) (c : AsmapClaim)
      (source : lib.PeerId) :
      Handled lib (e.processClaimFromPeer lib c source).1
        (handledAfter e handled (e.processClaimFromPeer lib c source).1)
  | oversize {e : QuorumEngine} {handled : ℕ} (h : Handled lib e handled) :
      Handled lib e.recordOversizeClaim (handled + 1)
  | malformed {e : QuorumEngine} {handled : ℕ} (h : Handled lib e handled) :
      Handled lib e.recordMalformedClaim (handled + 1)
  | advance {e : QuorumEngine} {handled : ℕ} (h : Handled lib e handled) (epoch : UInt64) :
      Handled lib (e.advanceEpoch epoch) 0

/-- The books of the engine are those of `handled` events. -/
structure Ledger (e : QuorumEngine) (handled : ℕ) : Prop where
  handled_eq : e.acceptedClaims + total e.rejectedClaims = handled
  rows_length : e.observations.length =
    e.acceptedClaims + min e.rejectionsSeen e.limits.maxRejectionObservations
  rows_accepted : e.observations.countP (·.accepted) = e.acceptedClaims
  seen_le : e.rejectionsSeen ≤ total e.rejectedClaims
  rows : ∀ o ∈ e.observations, Presentable e.limits o.sourcePeerId o.senderId o.claimHash
  reasons : ∀ reason ∈ e.rejectedClaims, reason ∈ rejectionReasons

namespace Ledger

variable {lib : Crates} {e e' : QuorumEngine} {handled : ℕ}

/-- Empty books. -/
theorem cleared (haccepted : e.acceptedClaims = 0) (hrejected : e.rejectedClaims = ∅)
    (hseen : e.rejectionsSeen = 0) (hrows : e.observations = []) : Ledger e 0 where
  handled_eq := by rw [haccepted, hrejected, total_empty]
  rows_length := by rw [hrows, haccepted, hseen, Nat.zero_min, List.length_nil]
  rows_accepted := by rw [hrows, haccepted, List.countP_nil]
  seen_le := by rw [hseen]; exact Nat.zero_le _
  rows := by simp [hrows]
  reasons := by
    rw [hrejected]
    exact fun reason h => absurd h (AList.notMem_empty reason)

theorem countRejection (h : Ledger e handled) {reason : String}
    (hreason : reason ∈ rejectionReasons) :
    Ledger (e.countRejection reason) (handled + 1) where
  handled_eq := by
    show e.acceptedClaims + total (bump e.rejectedClaims reason) = _
    rw [total_bump, ← h.handled_eq, Nat.add_assoc]
  rows_length := h.rows_length
  rows_accepted := h.rows_accepted
  seen_le := by
    show e.rejectionsSeen ≤ total (bump e.rejectedClaims reason)
    rw [total_bump]
    exact Nat.le_succ_of_le h.seen_le
  rows := h.rows
  reasons := by
    intro r hr
    rcases mem_bump.1 hr with rfl | hr
    · exact hreason
    · exact h.reasons r hr

/-- A rejection that is recorded: its row is kept while the log has room. -/
theorem recordRejection (h : Ledger e handled) {epoch : UInt64}
    {sourcePeerId senderId claimHash reason : String} (hreason : reason ∈ rejectionReasons)
    (hrow : Presentable e.limits sourcePeerId senderId claimHash) :
    Ledger (e.recordRejection epoch sourcePeerId senderId claimHash reason) (handled + 1) := by
  have hlength := h.rows_length
  have hcount := h.countRejection hreason
  have hseen : e.rejectionsSeen + 1 ≤ total (bump e.rejectedClaims reason) := by
    rw [total_bump]
    exact Nat.succ_le_succ h.seen_le
  unfold QuorumEngine.recordRejection
  dsimp only
  split
  · next hroom =>
    exact
      { hcount with
        seen_le := hseen
        rows_length := by
          show (e.observations ++ [_]).length =
            e.acceptedClaims + min (e.rejectionsSeen + 1) e.limits.maxRejectionObservations
          rw [List.length_append, List.length_singleton, hlength, Nat.min_eq_left hroom,
            Nat.min_eq_left (Nat.le_of_succ_le hroom), Nat.add_assoc]
        rows_accepted := by
          show (e.observations ++ [_]).countP _ = e.acceptedClaims
          rw [List.countP_append, h.rows_accepted]
          rfl
        rows := by
          intro o ho
          rcases List.mem_append.1 ho with ho | ho
          · exact h.rows o ho
          · rw [List.mem_singleton.1 ho]
            exact hrow }
  · next hroom =>
    exact
      { hcount with
        seen_le := hseen
        rows_length := by
          show e.observations.length =
            e.acceptedClaims + min (e.rejectionsSeen + 1) e.limits.maxRejectionObservations
          omega }

theorem tally (h : Ledger e handled) {claim : AsmapClaim} {source : lib.PeerId}
    {voteKeys : List (String × ℕ)}
    (hrow : Presentable e.limits (lib.peerIdText source) claim.senderId
      (claimHash lib claim.epoch claim.senderId claim.entries)) :
    Ledger (e.tally lib claim source voteKeys) (handled + 1) where
  handled_eq := by
    show e.acceptedClaims + 1 + total e.rejectedClaims = _
    rw [← h.handled_eq, Nat.add_right_comm]
  rows_length := by
    show (e.observations ++ [_]).length = e.acceptedClaims + 1 + _
    rw [List.length_append, List.length_singleton, h.rows_length, Nat.add_right_comm]
    rfl
  rows_accepted := by
    show (e.observations ++ [_]).countP _ = e.acceptedClaims + 1
    rw [List.countP_append, h.rows_accepted]
    rfl
  seen_le := h.seen_le
  rows := by
    intro o ho
    rcases List.mem_append.1 ho with ho | ho
    · exact h.rows o ho
    · rw [List.mem_singleton.1 ho]
      exact hrow
  reasons := h.reasons

/-- **One event keeps the books.** -/
theorem booked (h : Ledger e handled) (hbooked : Booked lib e e') : Ledger e' (handled + 1) := by
  cases hbooked with
  | counted hreason => exact h.countRejection hreason
  | recorded hreason hrow => exact h.recordRejection hreason hrow
  | tallied hrow => exact h.tally hrow

/-- **A call keeps the books**, or starts new ones with itself. -/
theorem books (h : Ledger e handled) (hbooks : Books lib e e') :
    Ledger e' (handledAfter e handled e') := by
  rcases hbooks with hbooked | ⟨epoch, hlt, hbooked⟩
  · rw [handledAfter, if_pos hbooked.epoch]
    exact h.booked hbooked
  · have hepoch : e'.epoch = epoch := hbooked.epoch
    have hne : ¬e'.epoch = e.epoch := by
      rw [hepoch]
      grind
    have hcleared : Ledger (e.resetForEpoch epoch) 0 := .cleared rfl rfl rfl rfl
    rw [handledAfter, if_neg hne]
    exact hcleared.booked hbooked

end Ledger

/-- **The books agree in every run.** -/
theorem Handled.ledger {lib : Crates} {e : QuorumEngine} {handled : ℕ} (h : Handled lib e handled) :
    Ledger e handled := by
  induction h with
  | start threshold epoch limits => exact .cleared rfl rfl rfl rfl
  | claim _ c ih => exact ih.books (processClaim_books _ c)
  | claimFromPeer _ c source ih => exact ih.books (processClaimFromPeer_books _ c source)
  | oversize _ ih => exact ih.booked (recordOversizeClaim_booked lib _)
  | malformed _ ih => exact ih.booked (recordMalformedClaim_booked lib _)
  | advance _ epoch ih => exact .cleared rfl rfl rfl rfl

/-- Every call that leaves the round open leaves its rows where they are. -/
theorem observations_prefix_of_books {lib : Crates} {e e' : QuorumEngine} (h : Books lib e e')
    (hepoch : e'.epoch = e.epoch) : e.observations <+: e'.observations := by
  rcases h with hbooked | ⟨epoch, hlt, hbooked⟩
  · exact hbooked.observations
  · have hnew : e'.epoch = epoch := hbooked.epoch
    rw [← hnew, hepoch] at hlt
    grind

/-- **The rejection ledger reconciles and stays bounded.** -/
theorem ledger_reconciles {lib : Crates} {e : QuorumEngine} {handled : ℕ}
    (h : Handled lib e handled) :
    e.acceptedClaims + total e.rejectedClaims = handled ∧
    (e.observations.length = e.acceptedClaims +
      min e.rejectionsSeen e.limits.maxRejectionObservations ∧
      e.observations.countP (·.accepted) = e.acceptedClaims ∧
      ∀ (claim : AsmapClaim) (source : lib.PeerId), ∀ e' ∈ [(e.processClaim lib claim).1,
        (e.processClaimFromPeer lib claim source).1, e.recordOversizeClaim, e.recordMalformedClaim],
        e'.epoch = e.epoch → e.observations <+: e'.observations) ∧
    e.rejectionsSeen ≤ total e.rejectedClaims ∧
    (∀ o ∈ e.observations, o.senderId = o.sourcePeerId ∧
      o.senderId.utf8ByteSize ≤ e.limits.maxSenderIdLen ∧ o.claimHash.length = 64) ∧
    (∀ reason ∈ e.rejectedClaims, reason ∈ rejectionReasons) ∧
    rejectionReasons.length = 20 ∧ rejectionReasons.Nodup := by
  have hledger := h.ledger
  refine ⟨hledger.handled_eq, ⟨hledger.rows_length, hledger.rows_accepted, ?_⟩, hledger.seen_le, ?_,
    hledger.reasons, rfl, by decide⟩
  · intro claim source e' he'
    refine observations_prefix_of_books (?_ : Books lib e e')
    simp only [List.mem_cons, List.not_mem_nil, or_false] at he'
    rcases he' with rfl | rfl | rfl | rfl
    · exact processClaim_books e claim
    · exact processClaimFromPeer_books e claim source
    · exact .inl (recordOversizeClaim_booked lib e)
    · exact .inl (recordMalformedClaim_booked lib e)
  · intro o ho
    obtain ⟨hsource, hsender, hhash⟩ := hledger.rows o ho
    exact ⟨hsource, hsender, hhash⟩

/-- An accepted claim, the same claim once more, and a payload that is no claim. -/
theorem ledger_reconciles_three_events :
    let e :=
      (((withLimits 2 7 default).processClaim knownCrates
        (knownClaim false knownEntries)).1.processClaim knownCrates
          (knownClaim false knownEntries)).1.recordMalformedClaim
    e.acceptedClaims + total e.rejectedClaims = 3 ∧ e.observations.countP (·.accepted) = 1 := by
  have hstart : Handled knownCrates (withLimits 2 7 default) 0 := .start 2 7 default
  have hrun := ((hstart.claim (knownClaim false knownEntries)).claim
    (knownClaim false knownEntries)).malformed
  obtain ⟨hhandled, ⟨-, haccepted, -⟩, -⟩ := ledger_reconciles hrun
  refine ⟨hhandled.trans (by decide +kernel), haccepted.trans (by decide +kernel)⟩

end AsmapQuorum

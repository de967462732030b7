import AsmapQuorum.Quorum.Claim
import Mathlib.Data.Finset.Card

/-!
# The quorum engine

The stateful processor of claims: nine gates, of which the first six only read, and the books they
keep.

* `QuorumEngine`, `withLimits`, `advanceEpoch`, `processClaim`, `processClaimFromPeer` and the
  counters for payloads that never became claims — the operations of the source.
* `Settled` — what one call can do: accept the claim into a round that it may have opened
  (`Accepts`), or reject it, counting one reason and touching nothing else (`Rejects`).
* `processClaimFromPeer_settled`, `processClaim_settled` — **every call does one of the two**, as
  long as at least one sender is admitted at all.
-/

namespace AsmapQuorum

open FiniteMap

/-! ### Limits -/

/-- Injectable bounds for claim validation. -/
structure ClaimLimits where
  maxEntries : ℕ
  minEntries : ℕ
  maxSenderIdLen : ℕ
  maxSenders : ℕ
  maxRejectionObservations : ℕ
  maxEpoch : UInt64
  maxEpochSkew : UInt64
  deriving DecidableEq, Repr

/-- Hard ceiling on any claimed epoch: 2100-01-01 as Unix seconds. -/
def epochAbsoluteMax : UInt64 := 4102444800

/-- The clock-free limits. -/
instance : Inhabited ClaimLimits where
  default :=
    { maxEntries := 2097152
      minEntries := 1
      maxSenderIdLen := 64
      maxSenders := 1024
      maxRejectionObservations := 1024
      maxEpoch := epochAbsoluteMax
      maxEpochSkew := 86400 }

/-- `u64::saturating_add`. -/
def saturatingAdd (a b : UInt64) : UInt64 :=
  if a.toNat + b.toNat < 2 ^ 64 then a + b else 18446744073709551615

theorem toNat_saturatingAdd (a b : UInt64) :
    (saturatingAdd a b).toNat = min (a.toNat + b.toNat) (2 ^ 64 - 1) := by
  unfold saturatingAdd
  split
  · next h =>
    rw [UInt64.toNat_add, Nat.mod_eq_of_lt h]
    omega
  · next h =>
    show 18446744073709551615 = _
    omega

theorem le_max_left (a b : UInt64) : a ≤ max a b := by
  show a ≤ if a ≤ b then b else a
  split
  · assumption
  · exact UInt64.le_refl a

/-! ### State -/

/-- Validation outcome for one observed claim. -/
structure ClaimObservation where
  epoch : UInt64
  sourcePeerId : String
  senderId : String
  claimHash : String
  accepted : Bool
  reason : String
  deriving DecidableEq, Repr

/-- Stateful quorum processor for claim validation and vote tallying. -/
structure QuorumEngine where
  threshold : ℕ
  epoch : UInt64
  limits : ClaimLimits
  seenSenders : Finset String
  votes : Map (String × ℕ) ℕ
  observations : List ClaimObservation
  rejectionsSeen : ℕ
  acceptedClaims : ℕ
  rejectedClaims : Map String ℕ

/-- How a call ended. -/
inductive Verdict where
  | accepted (quorum : Bool)
  | rejected (reason : String)
  deriving DecidableEq, Repr

/-- What the call returns: whether it accepted a claim and the quorum is there. -/
def Verdict.toBool : Verdict → Bool
  | accepted quorum => quorum
  | rejected _ => false

/-- A gate that rejects counts its reason, and from the third gate on it also records the claim. -/
inductive Rejection where
  | counted (reason : String)
  | recorded (reason : String)
  deriving DecidableEq, Repr

namespace QuorumEngine

/-! ### Construction and epochs -/

def withLimits (threshold : ℕ) (epoch : UInt64) (limits : ClaimLimits) : QuorumEngine where
  threshold := threshold
  epoch := epoch
  limits :=
    { limits with
      maxSenders := max (max limits.maxSenders threshold) 1
      maxEpoch :=
        max limits.maxEpoch (min (saturatingAdd epoch limits.maxEpochSkew) epochAbsoluteMax) }
  seenSenders := ∅
  votes := ∅
  observations := []
  rejectionsSeen := 0
  acceptedClaims := 0
  rejectedClaims := ∅

def resetForEpoch (e : QuorumEngine) (epoch : UInt64) : QuorumEngine :=
  { e with
    epoch := epoch
    seenSenders := ∅
    votes := ∅
    observations := []
    rejectionsSeen := 0
    acceptedClaims := 0
    rejectedClaims := ∅ }

/-- Advances on local authority, which also raises the epoch ceiling. -/
def advanceEpoch (e : QuorumEngine) (epoch : UInt64) : QuorumEngine :=
  let limits :=
    { e.limits with
      maxEpoch := max e.limits.maxEpoch
        (min (saturatingAdd epoch e.limits.maxEpochSkew) epochAbsoluteMax) }
  { e with limits := limits }.resetForEpoch epoch

/-! ### Rejections -/

def countRejection (e : QuorumEngine) (reason : String) : QuorumEngine :=
  { e with rejectedClaims := bump e.rejectedClaims reason }

/-- The observation is retained while the log has room; the reason is always counted. -/
def recordRejection (e : QuorumEngine) (epoch : UInt64) (sourcePeerId senderId claimHash : String)
    (reason : String) : QuorumEngine :=
  let e := { e with rejectionsSeen := e.rejectionsSeen + 1 }
  let e :=
    if e.rejectionsSeen ≤ e.limits.maxRejectionObservations then
      { e with
        observations := e.observations ++ [⟨epoch, sourcePeerId, senderId, claimHash, false,
          reason⟩] }
    else e
  e.countRejection reason

def recordOversizeClaim (e : QuorumEngine) : QuorumEngine := e.countRejection "oversize_claim"

def recordMalformedClaim (e : QuorumEngine) : QuorumEngine := e.countRejection "malformed_claim"

/-! ### Gates -/

def isAsciiHexdigit (c : Char) : Bool :=
  c.isDigit || ('a' ≤ c && c ≤ 'f') || ('A' ≤ c && c ≤ 'F')

/-- Length of a claim hash: the hex form of a SHA-256 digest. -/
def claimHashLen : ℕ := 64

/-- Gate 1: a pure predicate over the claim alone. -/
def shapeViolation (e : QuorumEngine) (claim : AsmapClaim) : Option String :=
  if claim.senderId.utf8ByteSize > e.limits.maxSenderIdLen then some "invalid_sender_id"
  else if claim.claimHash.utf8ByteSize ≠ claimHashLen ∨
      ¬(claim.claimHash.toList.all fun c => isAsciiHexdigit c && !c.isUpper) then
    some "malformed_claim_hash"
  else if claim.entries.length < e.limits.minEntries then some "empty_claim"
  else if claim.entries.length > e.limits.maxEntries then some "too_many_entries"
  else if claim.epoch > e.limits.maxEpoch then some "epoch_out_of_range"
  else none

variable (lib : Crates)

/-- Gates 1 to 6: shape, authenticity, integrity, stale epoch, epoch jump, entries.  None writes. -/
def gates (e : QuorumEngine) (claim : AsmapClaim) (source : lib.PeerId) :
    Except Rejection (List (String × ℕ)) :=
  match e.shapeViolation claim with
  | some reason => .error (.counted reason)
  | none =>
    if claim.senderId ≠ lib.peerIdText source then .error (.counted "source_mismatch")
    else if claim.claimHash ≠ claimHash lib claim.epoch claim.senderId claim.entries then
      .error (.recorded "claim_hash_mismatch")
    else if claim.epoch < e.epoch then .error (.recorded "stale_epoch")
    else if claim.epoch > saturatingAdd e.epoch e.limits.maxEpochSkew then
      .error (.recorded "epoch_jump_too_large")
    else
      match validatedVoteKeys claim with
      | .error reason => .error (.recorded reason)
      | .ok voteKeys => .ok voteKeys

/-- Gate 7: a claim that passed the gates above opens its epoch if it is a new one. -/
def adopt (e : QuorumEngine) (claim : AsmapClaim) : QuorumEngine :=
  if claim.epoch > e.epoch then e.resetForEpoch claim.epoch else e

/-- Gate 9: one vote for each key, and the books. -/
def tally (e : QuorumEngine) (claim : AsmapClaim) (source : lib.PeerId)
    (voteKeys : List (String × ℕ)) : QuorumEngine :=
  { e with
    seenSenders := insert claim.senderId e.seenSenders
    votes := voteKeys.foldl bump e.votes
    observations := e.observations ++
      [⟨e.epoch, lib.peerIdText source, claim.senderId,
        claimHash lib claim.epoch claim.senderId claim.entries, true, "accepted"⟩]
    acceptedClaims := e.acceptedClaims + 1 }

/-- Processes a claim attributed to a concrete libp2p source peer. -/
def processClaimFromPeer (e : QuorumEngine) (claim : AsmapClaim) (source : lib.PeerId) :
    QuorumEngine × Verdict :=
  match e.gates lib claim source with
  | .error (.counted reason) => (e.countRejection reason, .rejected reason)
  | .error (.recorded reason) =>
    (e.recordRejection claim.epoch (lib.peerIdText source) claim.senderId claim.claimHash reason,
      .rejected reason)
  | .ok voteKeys =>
    let e := e.adopt claim
    -- Gate 8: sender cap, then one claim for each sender
    if claim.senderId ∉ e.seenSenders ∧ e.seenSenders.card ≥ e.limits.maxSenders then
      (e.recordRejection claim.epoch (lib.peerIdText source) claim.senderId claim.claimHash
        "sender_limit_exceeded", .rejected "sender_limit_exceeded")
    else if claim.senderId ∈ e.seenSenders then
      (e.recordRejection claim.epoch (lib.peerIdText source) claim.senderId claim.claimHash
        "duplicate_sender", .rejected "duplicate_sender")
    else
      let e := e.tally lib claim source voteKeys
      (e, .accepted (decide (e.seenSenders.card ≥ e.threshold)))

/-- Processes a claim whose source is derived from its `sender_id`. -/
def processClaim (e : QuorumEngine) (claim : AsmapClaim) : QuorumEngine × Verdict :=
  if claim.senderId.utf8ByteSize > e.limits.maxSenderIdLen then
    (e.countRejection "invalid_sender_id", .rejected "invalid_sender_id")
  else
    match lib.parsePeerId claim.senderId with
    | none => (e.countRejection "unparsable_sender", .rejected "unparsable_sender")
    | some source => e.processClaimFromPeer lib claim source

/-! ### Hashes -/

/-- A digit that `hex::encode` writes. -/
def LowerHex (c : Char) : Prop := ('0' ≤ c ∧ c ≤ '9') ∨ ('a' ≤ c ∧ c ≤ 'f')

theorem isUpper_iff {c : Char} : c.isUpper = true ↔ 65 ≤ c.val.toNat ∧ c.val.toNat ≤ 90 := by
  show decide (c.val ≥ 'A'.val ∧ c.val ≤ 'Z'.val) = true ↔ _
  rw [decide_eq_true_iff, ge_iff_le, UInt32.le_iff_toNat_le, UInt32.le_iff_toNat_le]
  exact Iff.rfl

theorem lowerHex_iff {c : Char} : (isAsciiHexdigit c && !c.isUpper) = true ↔ LowerHex c := by
  rw [Bool.and_eq_true, Bool.not_eq_true', ← Bool.not_eq_true, isUpper_iff]
  simp only [isAsciiHexdigit, LowerHex, Char.isDigit, Bool.and_eq_true, Bool.or_eq_true,
    decide_eq_true_eq, Char.le_def, UInt32.le_iff_toNat_le, ge_iff_le]
  have hcodes : '0'.val.toNat = 48 ∧ '9'.val.toNat = 57 ∧ 'a'.val.toNat = 97 ∧ 'f'.val.toNat = 102 ∧
      'A'.val.toNat = 65 ∧ 'F'.val.toNat = 70 := by decide
  obtain ⟨h0, h9, ha, hf, hA, hF⟩ := hcodes
  rw [h0, h9, ha, hf, hA, hF]
  omega

theorem utf8Size_of_lowerHex {c : Char} (h : LowerHex c) : c.utf8Size = 1 := by
  have hle : c.val.toNat ≤ 127 := by
    simp only [LowerHex, Char.le_def, UInt32.le_iff_toNat_le] at h
    rcases h with ⟨-, h⟩ | ⟨-, h⟩
    · exact h.trans (by decide)
    · exact h.trans (by decide)
  rw [Char.utf8Size, if_pos (UInt32.le_iff_toNat_le.2 hle)]

/-- The shape of a hash that gate 1 asks for. -/
theorem hash_shape_iff {hash : String} :
    hash.utf8ByteSize = claimHashLen ∧ (hash.toList.all fun c => isAsciiHexdigit c && !c.isUpper) =
      true ↔
      hash.length = 64 ∧ ∀ c ∈ hash.toList, LowerHex c := by
  have hall : (hash.toList.all fun c => isAsciiHexdigit c && !c.isUpper) = true ↔
      ∀ c ∈ hash.toList, LowerHex c := by
    rw [List.all_eq_true]
    exact forall₂_congr fun c _ => lowerHex_iff
  rw [hall]
  refine and_congr_left fun hhex => ?_
  have hsize : hash.utf8ByteSize = hash.length := by
    rw [← String.ofList_toList (s := hash), String.utf8ByteSize_ofList,
      utf8Len_of_ascii fun c hc => utf8Size_of_lowerHex (hhex c hc), String.length_ofList]
  rw [hsize, claimHashLen]

/-! ### What the helpers do -/

theorem ite_some_eq_none {α : Type*} {p : Prop} [Decidable p] {a : α} {o : Option α} :
    (if p then some a else o) = none ↔ ¬p ∧ o = none := by
  by_cases h : p <;> simp [h]

/-- What gate 1 lets through. -/
theorem shapeViolation_eq_none {e : QuorumEngine} {claim : AsmapClaim} :
    e.shapeViolation claim = none ↔
      claim.senderId.utf8ByteSize ≤ e.limits.maxSenderIdLen ∧
      (claim.claimHash.utf8ByteSize = claimHashLen ∧
        (claim.claimHash.toList.all fun c => isAsciiHexdigit c && !c.isUpper) = true) ∧
      e.limits.minEntries ≤ claim.entries.length ∧ claim.entries.length ≤ e.limits.maxEntries ∧
      ¬claim.epoch > e.limits.maxEpoch := by
  unfold shapeViolation
  rw [ite_some_eq_none, ite_some_eq_none, ite_some_eq_none, ite_some_eq_none, ite_some_eq_none,
    Nat.not_lt, Nat.not_lt, Nat.not_lt, not_or, not_not, not_not]
  simp only [and_true]

section Fields

variable (e : QuorumEngine)

@[simp] theorem adopt_threshold (claim : AsmapClaim) : (e.adopt claim).threshold = e.threshold := by
  unfold adopt
  split <;> rfl

@[simp] theorem adopt_limits (claim : AsmapClaim) : (e.adopt claim).limits = e.limits := by
  unfold adopt
  split <;> rfl

theorem adopt_of_lt {claim : AsmapClaim} (h : e.epoch < claim.epoch) :
    e.adopt claim = e.resetForEpoch claim.epoch := if_pos h

theorem adopt_of_not_lt {claim : AsmapClaim} (h : ¬e.epoch < claim.epoch) : e.adopt claim = e :=
  if_neg h

/-- A claim that is not stale is in the epoch it is tallied in. -/
theorem adopt_epoch {claim : AsmapClaim} (h : ¬claim.epoch < e.epoch) :
    (e.adopt claim).epoch = claim.epoch := by
  by_cases hlt : e.epoch < claim.epoch
  · rw [adopt_of_lt e hlt]
    rfl
  · rw [adopt_of_not_lt e hlt]
    grind

@[simp] theorem withLimits_maxSenders_pos (threshold : ℕ) (epoch : UInt64) (limits : ClaimLimits) :
    1 ≤ (withLimits threshold epoch limits).limits.maxSenders := Nat.le_max_right _ _

end Fields

/-! ### The outcomes of a call -/

/-- From `e` to `e'` one counter of rejections went up by one, observations may have been added, and
nothing else changed. -/
structure Rejects (e e' : QuorumEngine) (reason : String) : Prop where
  threshold : e'.threshold = e.threshold
  epoch : e'.epoch = e.epoch
  limits : e'.limits = e.limits
  seenSenders : e'.seenSenders = e.seenSenders
  votes : e'.votes = e.votes
  acceptedClaims : e'.acceptedClaims = e.acceptedClaims
  observations : e.observations <+: e'.observations
  counter : count e'.rejectedClaims reason = count e.rejectedClaims reason + 1
  others : ∀ r, r ≠ reason → e'.rejectedClaims.lookup r = e.rejectedClaims.lookup r

theorem countRejection_rejects (e : QuorumEngine) (reason : String) :
    e.Rejects (e.countRejection reason) reason where
  threshold := rfl
  epoch := rfl
  limits := rfl
  seenSenders := rfl
  votes := rfl
  acceptedClaims := rfl
  observations := List.prefix_rfl
  counter := count_bump_self _ _
  others _ h := lookup_bump_ne _ h

theorem recordRejection_rejects (e : QuorumEngine) (epoch : UInt64)
    (sourcePeerId senderId claimHash reason : String) :
    e.Rejects (e.recordRejection epoch sourcePeerId senderId claimHash reason) reason := by
  unfold recordRejection
  dsimp only
  split
  · exact ⟨rfl, rfl, rfl, rfl, rfl, rfl, List.prefix_append _ _, count_bump_self _ _,
      fun _ h => lookup_bump_ne _ h⟩
  · exact ⟨rfl, rfl, rfl, rfl, rfl, rfl, List.prefix_rfl, count_bump_self _ _,
      fun _ h => lookup_bump_ne _ h⟩

/-- The round that a claim is tallied in: the one that is open, or an empty one where its epoch is a
newer one. -/
structure Adopts (e round : QuorumEngine) (claim : AsmapClaim) : Prop where
  kept : ¬e.epoch < claim.epoch → round = e
  seenSenders : e.epoch < claim.epoch → round.seenSenders = ∅
  votes : e.epoch < claim.epoch → round.votes = ∅
  observations : e.epoch < claim.epoch → round.observations = []
  rejectionsSeen : e.epoch < claim.epoch → round.rejectionsSeen = 0
  acceptedClaims : e.epoch < claim.epoch → round.acceptedClaims = 0
  rejectedClaims : e.epoch < claim.epoch → round.rejectedClaims = ∅

theorem adopts_adopt (e : QuorumEngine) (claim : AsmapClaim) : e.Adopts (e.adopt claim) claim where
  kept h := adopt_of_not_lt e h
  seenSenders h := by rw [adopt_of_lt e h]; rfl
  votes h := by rw [adopt_of_lt e h]; rfl
  observations h := by rw [adopt_of_lt e h]; rfl
  rejectionsSeen h := by rw [adopt_of_lt e h]; rfl
  acceptedClaims h := by rw [adopt_of_lt e h]; rfl
  rejectedClaims h := by rw [adopt_of_lt e h]; rfl

/-- From `e` to `e'` the claim was accepted, into the round it found or, where its epoch is a newer
one, into the empty round it opened.  The round keeps its observations and rejections, and observes
the claim. -/
structure Accepts (e e' : QuorumEngine) (claim : AsmapClaim) (voteKeys : List (String × ℕ)) :
    Prop where
  valid : validatedVoteKeys claim = .ok voteKeys
  not_stale : ¬claim.epoch < e.epoch
  round : e.Adopts (e.adopt claim) claim
  new_sender : claim.senderId ∉ (e.adopt claim).seenSenders
  room : (e.adopt claim).seenSenders.card < e.limits.maxSenders
  threshold : e'.threshold = e.threshold
  epoch : e'.epoch = claim.epoch
  limits : e'.limits = e.limits
  seenSenders : e'.seenSenders = insert claim.senderId (e.adopt claim).seenSenders
  votes : e'.votes = voteKeys.foldl bump (e.adopt claim).votes
  observations : e'.observations = (e.adopt claim).observations ++
    [⟨claim.epoch, claim.senderId, claim.senderId, claim.claimHash, true, "accepted"⟩]
  rejectionsSeen : e'.rejectionsSeen = (e.adopt claim).rejectionsSeen
  acceptedClaims : e'.acceptedClaims = (e.adopt claim).acceptedClaims + 1
  rejectedClaims : e'.rejectedClaims = (e.adopt claim).rejectedClaims

/-- What a call does to the state, according to how it ended. -/
def Settled (e : QuorumEngine) (claim : AsmapClaim) : QuorumEngine × Verdict → Prop
  | (e', .accepted quorum) =>
    (∃ voteKeys, e.Accepts e' claim voteKeys) ∧ (quorum = true ↔ e'.threshold ≤ e'.seenSenders.card)
  | (e', .rejected reason) => e.Rejects e' reason

theorem Settled.threshold {e : QuorumEngine} {claim : AsmapClaim} {r : QuorumEngine × Verdict}
    (h : e.Settled claim r) : r.1.threshold = e.threshold := by
  obtain ⟨e', verdict⟩ := r
  cases verdict with
  | accepted quorum =>
    obtain ⟨⟨voteKeys, haccepts⟩, -⟩ := h
    exact haccepts.threshold
  | rejected reason => exact Rejects.threshold h

/-- What the gates that passed have checked. -/
theorem gates_eq_ok {e : QuorumEngine} {claim : AsmapClaim} {source : lib.PeerId}
    {voteKeys : List (String × ℕ)} (h : e.gates lib claim source = .ok voteKeys) :
    e.shapeViolation claim = none ∧ claim.senderId = lib.peerIdText source ∧
      claim.claimHash = claimHash lib claim.epoch claim.senderId claim.entries ∧
      ¬claim.epoch < e.epoch ∧ ¬claim.epoch > saturatingAdd e.epoch e.limits.maxEpochSkew ∧
      validatedVoteKeys claim = .ok voteKeys := by
  unfold gates at h
  split at h
  · cases h
  · next hshape =>
    split at h
    · cases h
    · next hsource =>
      split at h
      · cases h
      · next hhash =>
        split at h
        · cases h
        · next hstale =>
          split at h
          · cases h
          · next hjump =>
            split at h
            · cases h
            · next hkeys =>
              rw [not_not] at hsource hhash
              cases h
              exact ⟨hshape, hsource, hhash, hstale, hjump, hkeys⟩

theorem gates_of_checks {e : QuorumEngine} {claim : AsmapClaim} {source : lib.PeerId}
    {voteKeys : List (String × ℕ)} (hshape : e.shapeViolation claim = none)
    (hsource : claim.senderId = lib.peerIdText source)
    (hhash : claim.claimHash = claimHash lib claim.epoch claim.senderId claim.entries)
    (hstale : ¬claim.epoch < e.epoch)
    (hjump : ¬claim.epoch > saturatingAdd e.epoch e.limits.maxEpochSkew)
    (hkeys : validatedVoteKeys claim = .ok voteKeys) : e.gates lib claim source = .ok voteKeys := by
  unfold gates
  rw [hshape]
  dsimp only
  rw [if_neg (not_not.2 hsource), if_neg (not_not.2 hhash), if_neg hstale, if_neg hjump, hkeys]

/-- A claim that passes the gates, from a sender not seen in its round, with room for one more. -/
theorem processClaimFromPeer_accepts {e : QuorumEngine} {claim : AsmapClaim} {source : lib.PeerId}
    {voteKeys : List (String × ℕ)} (hgates : e.gates lib claim source = .ok voteKeys)
    (hnew : claim.senderId ∉ (e.adopt claim).seenSenders)
    (hroom : (e.adopt claim).seenSenders.card < e.limits.maxSenders) :
    let e' := (e.adopt claim).tally lib claim source voteKeys
    e.processClaimFromPeer lib claim source =
        (e', .accepted (decide (e'.seenSenders.card ≥ e'.threshold))) ∧
      e.Accepts e' claim voteKeys := by
  obtain ⟨-, hsource, hhash, hstale, -, hkeys⟩ := gates_eq_ok lib hgates
  have hcap : ¬(claim.senderId ∉ (e.adopt claim).seenSenders ∧
      (e.adopt claim).seenSenders.card ≥ (e.adopt claim).limits.maxSenders) := by
    rw [adopt_limits]
    omega
  constructor
  · unfold processClaimFromPeer
    rw [hgates]
    dsimp only
    rw [if_neg hcap, if_neg hnew]
  · exact
      { valid := hkeys
        not_stale := hstale
        round := adopts_adopt e claim
        new_sender := hnew
        room := hroom
        threshold := adopt_threshold e claim
        epoch := adopt_epoch e hstale
        limits := adopt_limits e claim
        seenSenders := rfl
        votes := rfl
        observations := by
          show (e.adopt claim).observations ++ _ = _
          rw [adopt_epoch e hstale, ← hsource, ← hhash]
        rejectionsSeen := rfl
        acceptedClaims := rfl
        rejectedClaims := rfl }

/-- A claim that passes the gates and is rejected after them found its round open: a new round has
room, and no senders. -/
theorem adopt_eq_self_of_full {e : QuorumEngine} {claim : AsmapClaim}
    (hpos : 1 ≤ e.limits.maxSenders) (h : claim.senderId ∈ (e.adopt claim).seenSenders ∨
      (e.adopt claim).seenSenders.card ≥ e.limits.maxSenders) : e.adopt claim = e := by
  by_cases hlt : e.epoch < claim.epoch
  · rw [adopt_of_lt e hlt] at h
    rcases h with h | h
    · exact absurd h (Finset.notMem_empty _)
    · have hzero : 0 ≥ e.limits.maxSenders := h
      omega
  · exact adopt_of_not_lt e hlt

/-- A claim from a sender already seen, or with no room left, is rejected. -/
theorem processClaimFromPeer_full {e : QuorumEngine} {claim : AsmapClaim} {source : lib.PeerId}
    {voteKeys : List (String × ℕ)} (hpos : 1 ≤ e.limits.maxSenders)
    (hgates : e.gates lib claim source = .ok voteKeys)
    (h : claim.senderId ∈ (e.adopt claim).seenSenders ∨
      (e.adopt claim).seenSenders.card ≥ e.limits.maxSenders) :
    ∃ reason, (e.processClaimFromPeer lib claim source).2 = .rejected reason ∧
      e.Rejects (e.processClaimFromPeer lib claim source).1 reason := by
  have hself := adopt_eq_self_of_full hpos h
  unfold processClaimFromPeer
  rw [hgates]
  dsimp only
  rw [hself] at h ⊢
  split
  · exact ⟨_, rfl, recordRejection_rejects ..⟩
  · split
    · exact ⟨_, rfl, recordRejection_rejects ..⟩
    · next hcap hnew => exact absurd ⟨hnew, h.resolve_left hnew⟩ hcap

/-- **Every call settles its claim.** -/
theorem processClaimFromPeer_settled {e : QuorumEngine} (hpos : 1 ≤ e.limits.maxSenders)
    (claim : AsmapClaim) (source : lib.PeerId) :
    e.Settled claim (e.processClaimFromPeer lib claim source) := by
  cases hgates : e.gates lib claim source with
  | error rejection =>
    unfold processClaimFromPeer
    rw [hgates]
    cases rejection with
    | counted reason => exact countRejection_rejects e reason
    | recorded reason => exact recordRejection_rejects ..
  | ok voteKeys =>
    by_cases h : claim.senderId ∈ (e.adopt claim).seenSenders ∨
        (e.adopt claim).seenSenders.card ≥ e.limits.maxSenders
    · obtain ⟨reason, hverdict, hrejects⟩ := processClaimFromPeer_full lib hpos hgates h
      rw [← Prod.mk.eta (p := e.processClaimFromPeer lib claim source), hverdict]
      exact hrejects
    · push Not at h
      obtain ⟨heq, haccepts⟩ := processClaimFromPeer_accepts lib hgates h.1 h.2
      rw [heq]
      exact ⟨⟨voteKeys, haccepts⟩, decide_eq_true_iff⟩

theorem processClaim_settled {e : QuorumEngine} (hpos : 1 ≤ e.limits.maxSenders)
    (claim : AsmapClaim) : e.Settled claim (e.processClaim lib claim) := by
  unfold processClaim
  split
  · exact countRejection_rejects e _
  · split
    · exact countRejection_rejects e _
    · exact processClaimFromPeer_settled lib hpos claim _

end QuorumEngine

end AsmapQuorum

import AsmapQuorum.Quorum.Engine

/-!
# The epoch and its ceiling

Two things move the epoch of an engine: an accepted claim, within the relative skew and under the
ceiling, and the local timer, which also raises the ceiling.  The composition of the two must not
lift the ceiling without bound, and the timer must not carry the epoch where no claim is in range
any more.

* `ClaimMoves`, `toNat_tick_epoch`, `toNat_tick_maxEpoch` — what one claim and one tick do.
* `WithinCeiling` — the invariant; `withinCeiling_handleAll` carries it through every run.
* `ceiling_is_no_ratchet` — **the ceiling stays under its absolute maximum, and above the epoch**.
-/

namespace AsmapQuorum

theorem toNat_max (a b : UInt64) : (max a b).toNat = max a.toNat b.toNat := by
  show (if a ≤ b then b else a).toNat = _
  split
  · next h => exact (Nat.max_eq_right (UInt64.le_iff_toNat_le.1 h)).symm
  · next h =>
      exact (Nat.max_eq_left (Nat.le_of_not_le fun hle => h (UInt64.le_iff_toNat_le.2 hle))).symm

theorem toNat_min (a b : UInt64) : (min a b).toNat = min a.toNat b.toNat := by
  show (if a ≤ b then a else b).toNat = _
  split
  · next h => exact (Nat.min_eq_left (UInt64.le_iff_toNat_le.1 h)).symm
  · next h =>
      exact (Nat.min_eq_right (Nat.le_of_not_le fun hle => h (UInt64.le_iff_toNat_le.2 hle))).symm

/-- How far `with_limits` and `advance_epoch` raise a ceiling. -/
theorem toNat_raised (ceiling epoch skew : UInt64) :
    (max ceiling (min (saturatingAdd epoch skew) epochAbsoluteMax)).toNat =
      max ceiling.toNat
        (min (min (epoch.toNat + skew.toNat) (2 ^ 64 - 1)) epochAbsoluteMax.toNat) := by
  rw [toNat_max, toNat_min, toNat_saturatingAdd]

namespace QuorumEngine

variable (lib : Crates)

/-! ### One claim, one tick -/

/-- What a claim can do to the epoch and the limits: nothing, or move the epoch to its own, which is
in range. -/
structure ClaimMoves (e e' : QuorumEngine) (claim : AsmapClaim) : Prop where
  limits : e'.limits = e.limits
  epoch : e'.epoch = e.epoch ∨
    e'.epoch = claim.epoch ∧ e.epoch ≤ claim.epoch ∧
      claim.epoch ≤ saturatingAdd e.epoch e.limits.maxEpochSkew ∧ claim.epoch ≤ e.limits.maxEpoch

theorem ClaimMoves.of_rejects {e e' : QuorumEngine} {reason : String} (h : e.Rejects e' reason)
    (claim : AsmapClaim) : e.ClaimMoves e' claim :=
  ⟨h.limits, .inl h.epoch⟩

theorem processClaimFromPeer_moves (e : QuorumEngine) (claim : AsmapClaim) (source : lib.PeerId) :
    e.ClaimMoves (e.processClaimFromPeer lib claim source).1 claim := by
  unfold processClaimFromPeer
  cases hgates : e.gates lib claim source with
  | error rejection =>
    cases rejection with
    | counted reason => exact .of_rejects (countRejection_rejects e reason) claim
    | recorded reason => exact .of_rejects (recordRejection_rejects ..) claim
  | ok voteKeys =>
    obtain ⟨hshape, -, -, hstale, hjump, -⟩ := gates_eq_ok lib hgates
    obtain ⟨-, -, -, -, hmax⟩ := shapeViolation_eq_none.1 hshape
    have hopened : e.ClaimMoves (e.adopt claim) claim :=
      { limits := adopt_limits e claim
        epoch := .inr ⟨adopt_epoch e hstale, by grind, by grind, by grind⟩ }
    -- what happens in the opened round moves neither
    have hstay : ∀ e', e'.limits = (e.adopt claim).limits → e'.epoch = (e.adopt claim).epoch →
        e.ClaimMoves e' claim := by
      intro e' hlimits hepoch
      exact ⟨hlimits.trans hopened.limits, hepoch ▸ hopened.epoch⟩
    dsimp only
    split
    · exact hstay _ (recordRejection_rejects ..).limits (recordRejection_rejects ..).epoch
    · split
      · exact hstay _ (recordRejection_rejects ..).limits (recordRejection_rejects ..).epoch
      · exact hstay _ rfl rfl

theorem processClaim_moves (e : QuorumEngine) (claim : AsmapClaim) :
    e.ClaimMoves (e.processClaim lib claim).1 claim := by
  unfold processClaim
  split
  · exact .of_rejects (countRejection_rejects e _) claim
  · split
    · exact .of_rejects (countRejection_rejects e _) claim
    · exact processClaimFromPeer_moves lib e claim _

/-- The epoch timer: one more, on local authority. -/
def tick (e : QuorumEngine) : QuorumEngine := e.advanceEpoch (saturatingAdd e.epoch 1)

theorem toNat_tick_epoch (e : QuorumEngine) :
    e.tick.epoch.toNat = min (e.epoch.toNat + 1) (2 ^ 64 - 1) :=
  toNat_saturatingAdd e.epoch 1

/-- A tick raises the ceiling as far as the new epoch and the skew need it, up to the absolute
maximum. -/
theorem toNat_tick_maxEpoch (e : QuorumEngine) :
    e.tick.limits.maxEpoch.toNat = max e.limits.maxEpoch.toNat
      (min (min (e.tick.epoch.toNat + e.limits.maxEpochSkew.toNat) (2 ^ 64 - 1))
        epochAbsoluteMax.toNat) :=
  toNat_raised e.limits.maxEpoch e.tick.epoch e.limits.maxEpochSkew

/-! ### Runs -/

/-- What can happen to a serving engine. -/
inductive Event (lib : Crates) where
  | claim (c : AsmapClaim)
  | claimFromPeer (c : AsmapClaim) (source : lib.PeerId)
  | tick

/-- The claim an event brings. -/
def Event.claim? {lib : Crates} : Event lib → Option AsmapClaim
  | claim c => some c
  | claimFromPeer c _ => some c
  | tick => none

def handle (e : QuorumEngine) : Event lib → QuorumEngine
  | .claim c => (e.processClaim lib c).1
  | .claimFromPeer c source => (e.processClaimFromPeer lib c source).1
  | .tick => e.tick

def handleAll (e : QuorumEngine) (events : List (Event lib)) : QuorumEngine :=
  events.foldl (handle lib) e

theorem handle_moves {e : QuorumEngine} {event : Event lib} {claim : AsmapClaim}
    (h : event.claim? = some claim) : e.ClaimMoves (e.handle lib event) claim := by
  cases event with
  | claim c =>
    cases h
    exact processClaim_moves lib e _
  | claimFromPeer c source =>
    cases h
    exact processClaimFromPeer_moves lib e _ source
  | tick => cases h

theorem eq_tick_or_claim (event : Event lib) : event = .tick ∨
    ∃ claim, event.claim? = some claim := by
  cases event with
  | claim c => exact .inr ⟨c, rfl⟩
  | claimFromPeer c source => exact .inr ⟨c, rfl⟩
  | tick => exact .inl rfl

/-- **Neither the epoch nor its ceiling ever decreases.** -/
theorem le_handle (e : QuorumEngine) (event : Event lib) :
    e.epoch ≤ (e.handle lib event).epoch ∧
      e.limits.maxEpoch ≤ (e.handle lib event).limits.maxEpoch := by
  rcases eq_tick_or_claim lib event with rfl | ⟨claim, hclaim⟩
  · have hepoch := toNat_tick_epoch e
    have hmax := toNat_tick_maxEpoch e
    have hlt := e.epoch.toNat_lt
    simp only [handle, UInt64.le_iff_toNat_le]
    omega
  · have hmoves := handle_moves lib (e := e) hclaim
    rw [hmoves.limits]
    rcases hmoves.epoch with h | ⟨h, hle, -⟩
    · rw [h]
      exact ⟨UInt64.le_refl _, UInt64.le_refl _⟩
    · rw [h]
      exact ⟨hle, UInt64.le_refl _⟩

theorem le_handleAll (events : List (Event lib)) (e : QuorumEngine) :
    e.epoch ≤ (e.handleAll lib events).epoch ∧
      e.limits.maxEpoch ≤ (e.handleAll lib events).limits.maxEpoch := by
  induction events generalizing e with
  | nil => exact ⟨UInt64.le_refl _, UInt64.le_refl _⟩
  | cons event events ih =>
    have hstep := le_handle lib e event
    have hrest := ih (e.handle lib event)
    exact ⟨UInt64.le_trans hstep.1 hrest.1, UInt64.le_trans hstep.2 hrest.2⟩

/-- **The invariant**: the ceiling is under `bound`, and the epoch under the ceiling as long as it
is under the absolute maximum. -/
structure WithinCeiling (bound : UInt64) (e : QuorumEngine) : Prop where
  ceiling : e.limits.maxEpoch ≤ max bound epochAbsoluteMax
  epoch : min e.epoch epochAbsoluteMax ≤ e.limits.maxEpoch

theorem withinCeiling_withLimits (threshold : ℕ) (epoch : UInt64) (limits : ClaimLimits) :
    WithinCeiling limits.maxEpoch (withLimits threshold epoch limits) := by
  have hmax : (withLimits threshold epoch limits).limits.maxEpoch.toNat = max limits.maxEpoch.toNat
      (min (min (epoch.toNat + limits.maxEpochSkew.toNat) (2 ^ 64 - 1)) epochAbsoluteMax.toNat) :=
    toNat_raised limits.maxEpoch epoch limits.maxEpochSkew
  have hlt := epoch.toNat_lt
  constructor
  · rw [UInt64.le_iff_toNat_le, toNat_max, hmax]
    omega
  · rw [UInt64.le_iff_toNat_le, toNat_min, hmax]
    show min epoch.toNat _ ≤ _
    omega

/-- **One event keeps the invariant.** -/
theorem WithinCeiling.handle {bound : UInt64} {e : QuorumEngine} (h : WithinCeiling bound e)
    (event : Event lib) : WithinCeiling bound (e.handle lib event) := by
  obtain ⟨hceiling, hepoch⟩ := h
  rw [UInt64.le_iff_toNat_le, toNat_max] at hceiling
  rw [UInt64.le_iff_toNat_le, toNat_min] at hepoch
  rcases eq_tick_or_claim lib event with rfl | ⟨claim, hclaim⟩
  · have hmax := toNat_tick_maxEpoch e
    have htick := toNat_tick_epoch e
    constructor
    · rw [UInt64.le_iff_toNat_le, toNat_max, QuorumEngine.handle]
      omega
    · rw [UInt64.le_iff_toNat_le, toNat_min, QuorumEngine.handle]
      omega
  · have hmoves := handle_moves lib (e := e) hclaim
    constructor
    · rw [UInt64.le_iff_toNat_le, toNat_max, hmoves.limits]
      exact hceiling
    · rw [UInt64.le_iff_toNat_le, toNat_min, hmoves.limits]
      rcases hmoves.epoch with hsame | ⟨hmoved, -, -, hmax⟩
      · rw [hsame]
        exact hepoch
      · rw [UInt64.le_iff_toNat_le] at hmax
        rw [hmoved]
        omega

theorem withinCeiling_handleAll {bound : UInt64} (events : List (Event lib)) {e : QuorumEngine}
    (h : WithinCeiling bound e) : WithinCeiling bound (e.handleAll lib events) := by
  induction events generalizing e with
  | nil => exact h
  | cons event events ih => exact ih (h.handle lib event)

/-- **The epoch ceiling is no ratchet, and the engine never goes deaf.**  Over any run of claims and
ticks: claims never move the ceiling, and move the epoch only to their own, within the skew and the
ceiling; nothing lowers either; and the ceiling stays between the epoch, up to the absolute maximum,
and the larger of that maximum and the ceiling that was asked for. -/
theorem ceiling_is_no_ratchet (threshold : ℕ) (epoch₀ : UInt64) (limits₀ : ClaimLimits)
    (events : List (Event lib)) :
    let e := (withLimits threshold epoch₀ limits₀).handleAll lib events
    e.limits.maxEpoch ≤ max limits₀.maxEpoch epochAbsoluteMax ∧
    min e.epoch epochAbsoluteMax ≤ e.limits.maxEpoch ∧
    (∀ event claim, event.claim? = some claim →
      (e.handle lib event).limits.maxEpoch = e.limits.maxEpoch ∧
      ((e.handle lib event).epoch ≠ e.epoch → (e.handle lib event).epoch = claim.epoch ∧
        (e.handle lib event).epoch.toNat ≤
          min (e.epoch.toNat + e.limits.maxEpochSkew.toNat) e.limits.maxEpoch.toNat)) ∧
    ∀ more, e.epoch ≤ (e.handleAll lib more).epoch ∧
      e.limits.maxEpoch ≤ (e.handleAll lib more).limits.maxEpoch := by
  intro e
  have hinv : WithinCeiling limits₀.maxEpoch e :=
    withinCeiling_handleAll lib events (withinCeiling_withLimits threshold epoch₀ limits₀)
  refine ⟨hinv.ceiling, hinv.epoch, ?_, fun more => le_handleAll lib more e⟩
  intro event claim hclaim
  have hmoves := handle_moves lib (e := e) hclaim
  refine ⟨congrArg ClaimLimits.maxEpoch hmoves.limits, fun hne => ?_⟩
  obtain ⟨hmoved, -, hskew, hmax⟩ := hmoves.epoch.resolve_left hne
  rw [UInt64.le_iff_toNat_le, toNat_saturatingAdd] at hskew
  rw [UInt64.le_iff_toNat_le] at hmax
  refine ⟨hmoved, ?_⟩
  rw [hmoved]
  omega

end QuorumEngine

end AsmapQuorum

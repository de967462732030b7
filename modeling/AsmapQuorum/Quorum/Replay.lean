import AsmapQuorum.Quorum.Finalize
import Mathlib.Order.Bounds.Defs

/-!
# Replaying claims

`replay` feeds a list of claims to an engine, as the command of that name does with the claims of a
file.

* `passes` — what a claim must pass wherever the engine is: the sender parse and the gates on the
  claim itself.  Only the two gates on the epoch, and the two on the round, look at anything else.
* `Replayed`, `replayed` — the invariant: **the engine is in the newest epoch of the passing claims
  so far, and its books are all passing claims of that epoch**.
* `replay_perm` — hence the order of the claims is immaterial.
-/

namespace AsmapQuorum

open FiniteMap QuorumEngine

variable (lib : Crates)

/-- Feeds the claims to the engine, one after the other. -/
def replay (e : QuorumEngine) (claims : List AsmapClaim) : QuorumEngine :=
  claims.foldl (fun e c => (e.processClaim lib c).1) e

/-- The sender parse of `processClaim` and gates 1, 2, 3 and 6. -/
def passes (e : QuorumEngine) (claim : AsmapClaim) : Bool :=
  match lib.parsePeerId claim.senderId with
  | none => false
  | some source =>
    decide (e.shapeViolation claim = none) && decide (claim.senderId = lib.peerIdText source) &&
      decide (claim.claimHash = claimHash lib claim.epoch claim.senderId claim.entries) &&
      (validatedVoteKeys claim).isOk

variable {lib} {e e' : QuorumEngine} {claim : AsmapClaim}

/-! ### One claim -/

theorem passes_iff : passes lib e claim = true ↔
    ∃ source voteKeys, lib.parsePeerId claim.senderId = some source ∧
      e.shapeViolation claim = none ∧ claim.senderId = lib.peerIdText source ∧
      claim.claimHash = claimHash lib claim.epoch claim.senderId claim.entries ∧
      validatedVoteKeys claim = .ok voteKeys := by
  unfold passes
  cases hparse : lib.parsePeerId claim.senderId with
  | none => simp
  | some source =>
    cases hkeys : validatedVoteKeys claim with
    | error reason => simp [Except.isOk, Except.toBool]
    | ok voteKeys => simp [Except.isOk, Except.toBool, and_assoc]

/-- Passing depends on the limits of the engine only. -/
theorem passes_congr (h : e.limits = e'.limits) (claim : AsmapClaim) :
    passes lib e claim = passes lib e' claim := by
  have hshape : e.shapeViolation claim = e'.shapeViolation claim := by
    unfold shapeViolation
    rw [h]
  unfold passes
  rw [hshape]

/-- An accepted claim passes and is not stale. -/
theorem passes_of_accepted {quorum : Bool} (h : (e.processClaim lib claim).2 = .accepted quorum) :
    passes lib e claim = true ∧ ¬claim.epoch < e.epoch := by
  unfold processClaim at h
  split at h
  · cases h
  · split at h
    · cases h
    · next source hparse =>
      cases hgates : e.gates lib claim source with
      | error rejection =>
        unfold processClaimFromPeer at h
        rw [hgates] at h
        cases rejection <;> cases h
      | ok voteKeys =>
        obtain ⟨hshape, hsource, hhash, hstale, -, hkeys⟩ := gates_eq_ok lib hgates
        exact ⟨passes_iff.2 ⟨source, voteKeys, hparse, hshape, hsource, hhash, hkeys⟩, hstale⟩

/-- A passing claim, near enough and not stale, of a new sender and with room in its round, is
accepted. -/
theorem accepts_of_passes (hpass : passes lib e claim = true) (hstale : ¬claim.epoch < e.epoch)
    (hjump : ¬claim.epoch > saturatingAdd e.epoch e.limits.maxEpochSkew)
    (hnew : claim.senderId ∉ (e.adopt claim).seenSenders)
    (hroom : (e.adopt claim).seenSenders.card < e.limits.maxSenders) :
    ∃ quorum voteKeys, (e.processClaim lib claim).2 = .accepted quorum ∧
      e.Accepts (e.processClaim lib claim).1 claim voteKeys := by
  obtain ⟨source, voteKeys, hparse, hshape, hsource, hhash, hkeys⟩ := passes_iff.1 hpass
  have hlen := Nat.not_lt.2 (shapeViolation_eq_none.1 hshape).1
  obtain ⟨heq, haccepts⟩ := processClaimFromPeer_accepts lib
    (gates_of_checks lib hshape hsource hhash hstale hjump hkeys) hnew hroom
  have hprocess : e.processClaim lib claim = e.processClaimFromPeer lib claim source := by
    unfold processClaim
    rw [if_neg hlen, hparse]
  rw [hprocess, heq]
  exact ⟨_, voteKeys, rfl, haccepts⟩

/-! ### Lists that can be replayed in any order -/

/-- No epoch is out of reach from the start, no sender repeats an epoch, and each epoch has room for
all its senders. -/
structure Replayable (e : QuorumEngine) (claims : List AsmapClaim) : Prop where
  near : ∀ c ∈ claims, c.epoch.toNat ≤ e.epoch.toNat + e.limits.maxEpochSkew.toNat
  distinct : (claims.map fun c => (c.senderId, c.epoch)).Nodup
  room : ∀ epoch, ((claims.filter fun c => c.epoch = epoch).map
    AsmapClaim.senderId).toFinset.card ≤ e.limits.maxSenders

namespace Replayable

variable {claims claims' : List AsmapClaim}

theorem perm (h : Replayable e claims) (hp : claims.Perm claims') : Replayable e claims' where
  near c hc := h.near c (hp.mem_iff.2 hc)
  distinct := (hp.map _).nodup_iff.1 h.distinct
  room epoch := by
    rw [← List.toFinset_eq_of_perm _ _ ((hp.filter _).map _)]
    exact h.room epoch

theorem of_append (h : Replayable e (claims ++ claims')) : Replayable e claims where
  near c hc := h.near c (List.mem_append_left _ hc)
  distinct := by
    have := h.distinct
    rw [List.map_append] at this
    exact this.of_append_left
  room epoch := by
    refine (Finset.card_le_card ?_).trans (h.room epoch)
    intro s hs
    rw [List.mem_toFinset, List.mem_map] at hs ⊢
    obtain ⟨c, hc, rfl⟩ := hs
    rw [List.filter_append]
    exact ⟨c, List.mem_append_left _ hc, rfl⟩

/-- The claims of one epoch have distinct senders. -/
theorem nodup_senders (h : Replayable e claims) (epoch : UInt64) :
    ((claims.filter fun c => c.epoch = epoch).map AsmapClaim.senderId).Nodup := by
  refine (h.distinct.of_map.filter _).map_on ?_
  intro c hc c' hc' hsender
  obtain ⟨hc, hce⟩ := List.mem_filter.1 hc
  obtain ⟨hc', hce'⟩ := List.mem_filter.1 hc'
  refine List.inj_on_of_nodup_map h.distinct hc hc' (Prod.ext hsender ?_)
  rw [of_decide_eq_true hce, of_decide_eq_true hce']

/-- The claims of one epoch fit in its round. -/
theorem length_le (h : Replayable e claims) (epoch : UInt64) :
    (claims.filter fun c => c.epoch = epoch).length ≤ e.limits.maxSenders := by
  have := h.room epoch
  rwa [List.toFinset_card_of_nodup (h.nodup_senders epoch), List.length_map] at this

end Replayable

/-! ### The invariant -/

/-- The claims of an epoch that pass. -/
def passingIn (lib : Crates) (e : QuorumEngine) (epoch : UInt64) (claims : List AsmapClaim) :
    List AsmapClaim :=
  claims.filter fun c => passes lib e c = true ∧ c.epoch = epoch

/-- What replaying `claims` from `e` has come to. -/
structure Replayed (lib : Crates) (e : QuorumEngine) (claims : List AsmapClaim)
    (e' : QuorumEngine) :
    Prop where
  threshold : e'.threshold = e.threshold
  limits : e'.limits = e.limits
  tallied : Tallied e' (passingIn lib e e'.epoch claims)
  epoch : IsGreatest {epoch | epoch = e.epoch ∨ ∃ c ∈ claims, passes lib e c = true ∧
    c.epoch = epoch}
    e'.epoch

namespace Replayed

variable {claims : List AsmapClaim}

theorem mem_passingIn {epoch : UInt64} {c : AsmapClaim} :
    c ∈ passingIn lib e epoch claims ↔ c ∈ claims ∧ passes lib e c = true ∧ c.epoch = epoch := by
  rw [passingIn, List.mem_filter, decide_eq_true_eq]

theorem passingIn_append (epoch : UInt64) : passingIn lib e epoch (claims ++ [claim]) =
    passingIn lib e epoch claims ++
      if passes lib e claim = true ∧ claim.epoch = epoch then [claim] else [] := by
  rw [passingIn, List.filter_append]
  by_cases h : passes lib e claim = true ∧ claim.epoch = epoch
  · rw [if_pos h, List.filter_cons_of_pos (by rwa [decide_eq_true_eq])]
    rfl
  · rw [if_neg h, List.filter_cons_of_neg (by rwa [decide_eq_true_eq])]
    rfl

/-- The start. -/
theorem nil (h : Tallied e []) : Replayed lib e [] e where
  threshold := rfl
  limits := rfl
  tallied := h
  epoch := by
    refine ⟨.inl rfl, ?_⟩
    rintro epoch (rfl | ⟨c, hc, -⟩)
    · exact UInt64.le_refl _
    · exact absurd hc List.not_mem_nil

/-- No passing claim is newer than the engine. -/
theorem le_epoch (h : Replayed lib e claims e') {c : AsmapClaim} (hc : c ∈ claims)
    (hpass : passes lib e c = true) : c.epoch ≤ e'.epoch := h.epoch.2 (.inr ⟨c, hc, hpass, rfl⟩)

/-- An epoch that is new to the engine has no passing claims yet. -/
theorem passingIn_of_lt (h : Replayed lib e claims e') {epoch : UInt64} (hlt : e'.epoch < epoch) :
    passingIn lib e epoch claims = [] := by
  rw [List.eq_nil_iff_forall_not_mem]
  intro c hc
  obtain ⟨hmem, hpass, hepoch⟩ := mem_passingIn.1 hc
  have := h.le_epoch hmem hpass
  grind

/-- The round a claim is tallied in holds the passing claims of its epoch. -/
theorem adopt (h : Replayed lib e claims e') (hstale : ¬claim.epoch < e'.epoch) :
    (if e'.epoch < claim.epoch then [] else passingIn lib e e'.epoch claims) =
      passingIn lib e claim.epoch claims := by
  split
  · next hlt => rw [h.passingIn_of_lt hlt]
  · next hlt =>
    have heq : e'.epoch = claim.epoch := by grind
    rw [heq]

/-- **A passing claim that is not stale is accepted**: in a list that can be replayed, gates 5 and 8
never reject. -/
theorem accepts (h : Replayed lib e claims e') (hrep : Replayable e (claims ++ [claim]))
    (hpass : passes lib e claim = true) (hstale : ¬claim.epoch < e'.epoch) :
    ∃ quorum voteKeys, (e'.processClaim lib claim).2 = .accepted quorum ∧
      e'.Accepts (e'.processClaim lib claim).1 claim voteKeys := by
  have hround := h.tallied.adopt claim
  rw [h.adopt hstale] at hround
  have hclaim : claim ∈ claims ++ [claim] := by simp
  have hjump : ¬claim.epoch > saturatingAdd e'.epoch e'.limits.maxEpochSkew := by
    have hnear := hrep.near claim hclaim
    have hstart : e.epoch ≤ e'.epoch := h.epoch.2 (.inl rfl)
    have hmax := claim.epoch.toNat_lt
    rw [UInt64.le_iff_toNat_le] at hstart
    rw [gt_iff_lt, UInt64.lt_iff_toNat_lt, toNat_saturatingAdd, h.limits]
    omega
  have hnew : claim.senderId ∉ (e'.adopt claim).seenSenders := by
    rw [hround.seenSenders, List.mem_toFinset, List.mem_map]
    rintro ⟨c, hc, hsender⟩
    obtain ⟨hc, -, hepoch⟩ := mem_passingIn.1 hc
    have hdistinct := hrep.distinct
    rw [List.map_append, List.nodup_append] at hdistinct
    refine hdistinct.2.2 (c.senderId, c.epoch) (List.mem_map.2 ⟨c, hc, rfl⟩) _
      (List.mem_map.2 ⟨claim, List.mem_singleton_self claim, rfl⟩) ?_
    rw [hsender, hepoch]
  have hroom : (e'.adopt claim).seenSenders.card < e'.limits.maxSenders := by
    have hlen := hrep.length_le claim.epoch
    have hsub : (passingIn lib e claim.epoch claims).length ≤
        (claims.filter fun c => c.epoch = claim.epoch).length := by
      apply List.Sublist.length_le
      apply List.monotone_filter_right
      intro c hc
      rw [decide_eq_true_eq] at hc ⊢
      exact hc.2
    have hone : ([claim].filter fun c => c.epoch = claim.epoch).length = 1 := by simp
    rw [List.filter_append, List.length_append, hone] at hlen
    rw [hround.card_seenSenders, h.limits]
    omega
  exact accepts_of_passes (by rwa [passes_congr h.limits]) hstale hjump hnew hroom

/-- A claim that is stale or does not pass is rejected. -/
theorem rejects (h : Replayed lib e claims e')
    (hno : ¬(passes lib e claim = true ∧ ¬claim.epoch < e'.epoch)) :
    ∃ reason, e'.Rejects (e'.processClaim lib claim).1 reason := by
  have hsettled := processClaim_settled lib h.tallied.maxSenders_pos claim
  have haccepted : ∀ quorum, (e'.processClaim lib claim).2 = .accepted quorum →
      passes lib e' claim = true ∧ ¬claim.epoch < e'.epoch := fun _ => passes_of_accepted
  generalize e'.processClaim lib claim = r at hsettled haccepted
  obtain ⟨e'', verdict⟩ := r
  cases verdict with
  | accepted quorum =>
    obtain ⟨hpass, hstale⟩ := haccepted quorum rfl
    rw [passes_congr h.limits] at hpass
    exact absurd ⟨hpass, hstale⟩ hno
  | rejected reason => exact ⟨reason, hsettled⟩

/-- **One more claim keeps the invariant.** -/
theorem step (h : Replayed lib e claims e') (hrep : Replayable e (claims ++ [claim])) :
    Replayed lib e (claims ++ [claim]) (e'.processClaim lib claim).1 := by
  by_cases hok : passes lib e claim = true ∧ ¬claim.epoch < e'.epoch
  · obtain ⟨hpass, hstale⟩ := hok
    obtain ⟨_, voteKeys, -, haccepts⟩ := h.accepts hrep hpass hstale
    refine ⟨haccepts.threshold.trans h.threshold, haccepts.limits.trans h.limits, ?_, ?_⟩
    · have htallied := h.tallied.accepts haccepts
      rw [h.adopt hstale] at htallied
      rwa [haccepts.epoch, passingIn_append, if_pos ⟨hpass, rfl⟩]
    · rw [haccepts.epoch]
      refine ⟨.inr ⟨claim, by simp, hpass, rfl⟩, ?_⟩
      have hstart : e.epoch ≤ e'.epoch := h.epoch.2 (.inl rfl)
      rintro epoch (rfl | ⟨c, hc, hcpass, rfl⟩)
      · grind
      · rcases List.mem_append.1 hc with hc | hc
        · have := h.le_epoch hc hcpass
          grind
        · rw [List.mem_singleton.1 hc]
          exact UInt64.le_refl _
  · obtain ⟨reason, hrejects⟩ := h.rejects hok
    refine ⟨hrejects.threshold.trans h.threshold, hrejects.limits.trans h.limits, ?_, ?_⟩
    · have hnot : ¬(passes lib e claim = true ∧ claim.epoch = e'.epoch) := by
        rintro ⟨hpass, hepoch⟩
        exact hok ⟨hpass, by rw [hepoch]; exact UInt64.lt_irrefl _⟩
      rw [hrejects.epoch, passingIn_append, if_neg hnot, List.append_nil]
      exact h.tallied.rejects hrejects
    · rw [hrejects.epoch]
      constructor
      · rcases h.epoch.1 with hepoch | ⟨c, hc, hcpass, hepoch⟩
        · exact .inl hepoch
        · exact .inr ⟨c, by simp [hc], hcpass, hepoch⟩
      · rintro epoch (rfl | ⟨c, hc, hcpass, rfl⟩)
        · exact h.epoch.2 (.inl rfl)
        · rcases List.mem_append.1 hc with hc | hc
          · exact h.le_epoch hc hcpass
          · rw [List.mem_singleton.1 hc] at hcpass ⊢
            by_contra hle
            exact hok ⟨hcpass, by grind⟩

end Replayed

/-- **Replaying ends in the newest passing epoch, with all its passing claims in the books.** -/
theorem replayed (h : Tallied e []) (claims : List AsmapClaim) (hrep : Replayable e claims) :
    Replayed lib e claims (replay lib e claims) := by
  induction claims using List.reverseRecOn with
  | nil => exact .nil h
  | append_singleton claims claim ih =>
    rw [replay, List.foldl_append]
    exact (ih hrep.of_append).step hrep

/-! ### Claims of the epoch the engine is in -/

section OneEpoch

variable {claims : List AsmapClaim}
  (hall : ∀ c ∈ claims, passes lib e c = true ∧ c.epoch = e.epoch)
include hall

theorem Replayed.epoch_eq (h : Replayed lib e claims e') : e'.epoch = e.epoch := by
  rcases h.epoch.1 with heq | ⟨c, hc, -, heq⟩
  · exact heq
  · rw [← heq, (hall c hc).2]

/-- All of them are in the books. -/
theorem Replayed.tallied_all (h : Replayed lib e claims e') : Tallied e' claims := by
  have hself : passingIn lib e e'.epoch claims = claims := by
    rw [passingIn, List.filter_eq_self]
    intro c hc
    rw [decide_eq_true_eq, h.epoch_eq hall]
    exact hall c hc
  have htallied := h.tallied
  rwa [hself] at htallied

/-- **Each of them is accepted**, wherever it stands in the list. -/
theorem accepted_of_passes (h : Tallied e []) (hrep : Replayable e claims)
    {before after : List AsmapClaim} {c : AsmapClaim} (hsplit : claims = before ++ c :: after) :
    ∃ quorum voteKeys,
      ((replay lib e before).processClaim lib c).2 = .accepted quorum ∧
      (replay lib e before).Accepts ((replay lib e before).processClaim lib c).1 c voteKeys ∧
      (replay lib e before).epoch = c.epoch := by
  subst hsplit
  rw [List.append_cons] at hrep
  have hbefore : Replayed lib e before (replay lib e before) :=
    replayed h before hrep.of_append.of_append
  have hepoch := hbefore.epoch_eq fun d hd => hall d (by simp [hd])
  obtain ⟨hpass, hc⟩ := hall c (by simp)
  have hstale : ¬c.epoch < (replay lib e before).epoch := by
    rw [hepoch, hc]
    exact UInt64.lt_irrefl _
  obtain ⟨quorum, voteKeys, hverdict, haccepts⟩ := hbefore.accepts hrep.of_append hpass hstale
  exact ⟨quorum, voteKeys, hverdict, haccepts, by rw [hepoch, hc]⟩

/-- Nothing is rejected. -/
theorem rejectedClaims_replay (h : Tallied e []) (hrep : Replayable e claims) :
    (replay lib e claims).rejectedClaims = e.rejectedClaims := by
  induction claims using List.reverseRecOn with
  | nil => rfl
  | append_singleton claims c ih =>
    obtain ⟨quorum, voteKeys, -, haccepts, hepoch⟩ := accepted_of_passes hall h hrep rfl
    have hlast : (replay lib e (claims ++ [c])).rejectedClaims =
        ((replay lib e claims).processClaim lib c).1.rejectedClaims := by
      rw [replay, List.foldl_append]
      rfl
    rw [hlast, haccepts.rejectedClaims,
      adopt_of_not_lt _ (by rw [hepoch]; exact UInt64.lt_irrefl _),
      ih (fun d hd => hall d (by simp [hd])) hrep.of_append]

end OneEpoch

/-! ### The order of the claims -/

/-- The newest passing epoch does not depend on the order of the claims. -/
theorem Replayed.epoch_le_of_perm {claims claims' : List AsmapClaim} {a b : QuorumEngine}
    (h : Replayed lib e claims a) (h' : Replayed lib e claims' b) (hperm : claims.Perm claims') :
    a.epoch ≤ b.epoch := by
  rcases h.epoch.1 with hstart | ⟨c, hc, hpass, hepoch⟩
  · exact h'.epoch.2 (.inl hstart)
  · exact h'.epoch.2 (.inr ⟨c, hperm.mem_iff.1 hc, hpass, hepoch⟩)

/-- Books that hold the same claims count the same votes. -/
theorem Tallied.lookup_votes_of_perm {a b : QuorumEngine} {accepted accepted' : List AsmapClaim}
    (h : Tallied a accepted) (h' : Tallied b accepted') (hperm : accepted.Perm accepted')
    (key : String × ℕ) : a.votes.lookup key = b.votes.lookup key := by
  rw [h.positive.lookup_eq, h'.positive.lookup_eq, h.votes, h'.votes, hperm.countP_eq]

/-- **Replay is independent of claim order.** -/
theorem replay_perm {lib : Crates} (threshold : ℕ) (start : UInt64) (limits : ClaimLimits)
    {claims claims' : List AsmapClaim}
    (hrep : Replayable (withLimits threshold start limits) claims) (hperm : claims.Perm claims')
    (votesOrder votesOrder' : IterOrder (String × ℕ) ℕ)
    (bestOrder bestOrder' : IterOrder String (ℕ × ℕ)) (topic localPeerId : String) :
    let engine := withLimits threshold start limits
    let e := replay lib engine claims
    let e' := replay lib engine claims'
    let artifact := e.finalize votesOrder bestOrder topic localPeerId
    let artifact' := e'.finalize votesOrder' bestOrder' topic localPeerId
    e.epoch = e'.epoch ∧
    IsGreatest {epoch | epoch = start ∨
      ∃ c ∈ claims, passes lib engine c = true ∧ c.epoch = epoch} e.epoch ∧
    artifact.entries = artifact'.entries ∧ artifact.map = artifact'.map ∧
    artifact.participants = artifact'.participants ∧
    artifact.acceptedClaims = artifact'.acceptedClaims := by
  intro engine e e' artifact artifact'
  have hstart : Tallied engine [] :=
    .nil (withLimits_maxSenders_pos threshold start limits) rfl rfl rfl
  have h : Replayed lib engine claims e := replayed hstart claims hrep
  have h' : Replayed lib engine claims' e' := replayed hstart claims' (hrep.perm hperm)
  have hepoch : e.epoch = e'.epoch :=
    UInt64.le_antisymm (h.epoch_le_of_perm h' hperm) (h'.epoch_le_of_perm h hperm.symm)
  have hbooks : (passingIn lib engine e.epoch claims).Perm
      (passingIn lib engine e'.epoch claims') := by
    rw [hepoch]
    exact hperm.filter _
  have hseen : e.seenSenders = e'.seenSenders := by
    rw [h.tallied.seenSenders, h'.tallied.seenSenders]
    exact List.toFinset_eq_of_perm _ _ (hbooks.map _)
  obtain ⟨hentries, hmap⟩ := finalize_congr h.tallied (h.threshold.trans h'.threshold.symm)
    (h.tallied.lookup_votes_of_perm h'.tallied hbooks) votesOrder votesOrder' bestOrder bestOrder'
      topic
    localPeerId
  refine ⟨hepoch, h.epoch, hentries, hmap, ?_, ?_⟩
  · show e.seenSenders.sort = e'.seenSenders.sort
    rw [hseen]
  · show e.acceptedClaims = e'.acceptedClaims
    rw [h.tallied.acceptedClaims, h'.tallied.acceptedClaims, hbooks.length_eq]

/-- The known claims, and one of them moved to an epoch for which its hash is wrong. -/
theorem replay_perm_three_claims :
    let engine := withLimits 2 7 default
    let first := knownClaim false knownEntries
    let second := knownClaim true knownEntries
    let e := replay knownCrates engine [first, { first with epoch := 9 }, second]
    let e' := replay knownCrates engine [second, first, { first with epoch := 9 }]
    (e.finalize .newestFirst .newestFirst "asmap" "observer").map =
      (e'.finalize .newestFirst .newestFirst "asmap" "observer").map := by
  intro engine first second e e'
  have hrep : Replayable engine [first, { first with epoch := 9 }, second] := by
    refine ⟨by decide +kernel, by decide +kernel, fun epoch => ?_⟩
    refine (List.toFinset_card_le _).trans ?_
    rw [List.length_map]
    exact (List.length_filter_le _ _).trans (show 3 ≤ 1024 by decide)
  exact (replay_perm 2 7 default hrep (by decide +kernel) .newestFirst .newestFirst .newestFirst
    .newestFirst "asmap" "observer").2.2.2.1

end AsmapQuorum

import AsmapQuorum.Codec.Io
import AsmapQuorum.Quorum.Epochs
import AsmapQuorum.Quorum.Finalize

/-!
# The serve loop

`serve` listens to gossip and writes the consensus of each round once: when a payload brings the
quorum and the flag `consensus_written` is clear, it writes the artifact of `finalize` and sets the
flag.  The epoch timer clears it.

* `quorumFromGossip`, `serveGossip`, `serveTick`, `Serving` — the loop and its runs.
* `Opens` — the gossip that makes the engine adopt a newer epoch.  The flag is not cleared then.
* `Published` — the invariant of the runs in which no gossip opens a round while the flag is set;
  `Serving.published`: in these **each round that reaches its quorum is published**.
* `Stuck` — what a round is that was opened while the flag was set: it is never published
  (`stuck_of_opens`, `Overheard.stuck`).
-/

namespace AsmapQuorum

open FiniteMap QuorumEngine

/-! ### The loop -/

/-- Cap on one gossip payload, in bytes. -/
def maxClaimBytes : ℕ := 65536

/-- Limits with a clock-derived epoch ceiling. -/
def ClaimLimits.atUnixTime (nowUnix : UInt64) : ClaimLimits :=
  let defaults : ClaimLimits := default
  { defaults with maxEpoch := min (saturatingAdd nowUnix defaults.maxEpochSkew) epochAbsoluteMax }

/-- `QuorumEngine::new`, at a reading of the clock. -/
def QuorumEngine.new (threshold : ℕ) (epoch nowUnix : UInt64) : QuorumEngine :=
  withLimits threshold epoch (.atUnixTime nowUnix)

/-- What the loop takes from outside: the JSON reader, the topic and its own name. -/
structure Host where
  fromSlice : List UInt8 → Option AsmapClaim
  topic : String
  localPeerId : String

/-- A gossip message, with the orders in which `finalize` would visit its hash maps. -/
structure Message (lib : Crates) where
  data : List UInt8
  source : lib.PeerId
  votesOrder : IterOrder (String × ℕ) ℕ
  bestOrder : IterOrder String (ℕ × ℕ)

structure ServeState where
  engine : QuorumEngine
  consensusWritten : Bool
  /-- The artifact that was last written. -/
  written : Option ConsensusArtifact

variable (lib : Crates) (host : Host)

/-- Feeds one gossip payload to the engine; says whether quorum was reached. -/
def quorumFromGossip (e : QuorumEngine) (data : List UInt8) (source : lib.PeerId) :
    QuorumEngine × Bool :=
  if data.length > maxClaimBytes then (e.recordOversizeClaim, false)
  else
    match host.fromSlice data with
    | some claim =>
      let r := e.processClaimFromPeer lib claim source
      (r.1, r.2.toBool)
    | none => (e.recordMalformedClaim, false)

/-- The gossip branch of the loop.  The loop ends if the map cannot be written. -/
def serveGossip (s : ServeState) (msg : Message lib) : Option ServeState :=
  let r := quorumFromGossip lib host s.engine msg.data msg.source
  if r.2 && !s.consensusWritten then
    let artifact := r.1.finalize msg.votesOrder msg.bestOrder host.topic host.localPeerId
    match saveBinary artifact.map false with
    | .ok _ => some ⟨r.1, true, some artifact⟩
    | .error _ => none
  else some ⟨r.1, s.consensusWritten, s.written⟩

/-- The epoch-timer branch of the loop. -/
def serveTick (s : ServeState) : ServeState := ⟨s.engine.tick, false, s.written⟩

/-- The states of the loop in which every gossip step so far was one that `ok` allows. -/
inductive Serving (ok : ServeState → Message lib → Prop) (threshold : ℕ) (epoch now : UInt64) :
    ServeState → Prop where
  | start : Serving ok threshold epoch now ⟨.new threshold epoch now, false, none⟩
  | gossip {s s' : ServeState} (h : Serving ok threshold epoch now s) (msg : Message lib)
      (hok : ok s msg) (hstep : serveGossip lib host s msg = some s') :
      Serving ok threshold epoch now s'
  | tick {s : ServeState} (h : Serving ok threshold epoch now s) : Serving ok threshold epoch now
      (serveTick s)

/-- The states that gossip alone leads to. -/
inductive Overheard (s : ServeState) : ServeState → Prop where
  | refl : Overheard s s
  | gossip {s' s'' : ServeState} (h : Overheard s s') (msg : Message lib)
      (hstep : serveGossip lib host s' msg = some s'') : Overheard s s''

/-- The message opens a round: it is a claim of a newer epoch that passes the gates. -/
def Opens (e : QuorumEngine) (msg : Message lib) : Prop :=
  msg.data.length ≤ maxClaimBytes ∧ ∃ claim, host.fromSlice msg.data = some claim ∧
    (∃ voteKeys, e.gates lib claim msg.source = .ok voteKeys) ∧ e.epoch < claim.epoch

/-- The message does not open a round while the flag is set. -/
def KeepsFlag (s : ServeState) (msg : Message lib) : Prop :=
  s.consensusWritten = true → ¬Opens lib host s.engine msg

/-! ### What gossip does to the engine -/

/-- A payload leaves the threshold and the cap alone, and moves the epoch only forward.  If it does
not bring the quorum, the quorum was there before or is not there now. -/
structure Heard (e e' : QuorumEngine) (quorum : Bool) : Prop where
  threshold : e'.threshold = e.threshold
  maxSenders_pos : 1 ≤ e'.limits.maxSenders
  epoch_le : e.epoch ≤ e'.epoch
  quorum : quorum = false → e'.threshold ≤ e'.seenSenders.card → e.threshold ≤ e.seenSenders.card

variable {lib host}

theorem Heard.of_rejects {e e' : QuorumEngine} {reason : String} (hpos : 1 ≤ e.limits.maxSenders)
    (h : e.Rejects e' reason) : Heard e e' false where
  threshold := h.threshold
  maxSenders_pos := h.limits ▸ hpos
  epoch_le := h.epoch ▸ UInt64.le_refl _
  quorum _ hle := by rwa [h.threshold, h.seenSenders] at hle

theorem Heard.of_settled {e : QuorumEngine} {claim : AsmapClaim} {r : QuorumEngine × Verdict}
    (hpos : 1 ≤ e.limits.maxSenders) (h : e.Settled claim r) : Heard e r.1 r.2.toBool := by
  obtain ⟨e', verdict⟩ := r
  cases verdict with
  | rejected reason => exact .of_rejects hpos h
  | accepted quorum =>
    obtain ⟨⟨voteKeys, hacc⟩, hquorum⟩ := h
    exact
      { threshold := hacc.threshold
        maxSenders_pos := hacc.limits ▸ hpos
        epoch_le := by
          have hstale := hacc.not_stale
          show e.epoch ≤ e'.epoch
          rw [hacc.epoch]
          grind
        quorum := by
          intro hfalse hle
          cases hfalse.symm.trans (hquorum.2 hle) }

theorem quorumFromGossip_heard (lib : Crates) (host : Host) {e : QuorumEngine}
    (hpos : 1 ≤ e.limits.maxSenders) (data : List UInt8) (source : lib.PeerId) :
    Heard e (quorumFromGossip lib host e data source).1
      (quorumFromGossip lib host e data source).2 := by
  unfold quorumFromGossip
  split
  · exact .of_rejects hpos (countRejection_rejects e _)
  · split
    · exact .of_settled hpos (processClaimFromPeer_settled lib hpos _ source)
    · exact .of_rejects hpos (countRejection_rejects e _)

/-- A claim that passes the gates moves the engine to its own epoch. -/
theorem epoch_of_gates {e : QuorumEngine} {claim : AsmapClaim} {source : lib.PeerId}
    {voteKeys : List (String × ℕ)} (h : e.gates lib claim source = .ok voteKeys) :
    (e.processClaimFromPeer lib claim source).1.epoch = claim.epoch := by
  obtain ⟨-, -, -, hstale, -⟩ := gates_eq_ok lib h
  have hopened := adopt_epoch e hstale
  unfold processClaimFromPeer
  rw [h]
  dsimp only
  split
  · exact (recordRejection_rejects ..).epoch.trans hopened
  · split
    · exact (recordRejection_rejects ..).epoch.trans hopened
    · exact hopened

/-- A message that opens no round leaves the epoch alone. -/
theorem epoch_of_not_opens {e : QuorumEngine} {msg : Message lib} (h : ¬Opens lib host e msg) :
    (quorumFromGossip lib host e msg.data msg.source).1.epoch = e.epoch := by
  unfold quorumFromGossip
  split
  · rfl
  · next hsize =>
    split
    · next claim hclaim =>
      cases hgates : e.gates lib claim msg.source with
      | error rejection =>
        unfold processClaimFromPeer
        rw [hgates]
        cases rejection with
        | counted reason => rfl
        | recorded reason => exact (recordRejection_rejects ..).epoch
      | ok voteKeys =>
        have hle : ¬e.epoch < claim.epoch := fun hlt =>
          h ⟨Nat.not_lt.1 hsize, claim, hclaim, ⟨voteKeys, hgates⟩, hlt⟩
        obtain ⟨-, -, -, hstale, -⟩ := gates_eq_ok lib hgates
        show (e.processClaimFromPeer lib claim msg.source).1.epoch = e.epoch
        rw [epoch_of_gates hgates]
        grind
    · rfl

/-- A message that opens a round moves the epoch forward. -/
theorem epoch_of_opens {e : QuorumEngine} {msg : Message lib} (h : Opens lib host e msg) :
    e.epoch < (quorumFromGossip lib host e msg.data msg.source).1.epoch := by
  obtain ⟨hsize, claim, hclaim, ⟨voteKeys, hgates⟩, hlt⟩ := h
  unfold quorumFromGossip
  rw [if_neg (Nat.not_lt.2 hsize), hclaim]
  show e.epoch < (e.processClaimFromPeer lib claim msg.source).1.epoch
  rw [epoch_of_gates hgates]
  exact hlt

/-- The two ways a gossip step can go. -/
theorem serveGossip_cases {s s' : ServeState} {msg : Message lib}
    (h : serveGossip lib host s msg = some s') :
    ∃ quorum, quorumFromGossip lib host s.engine msg.data msg.source = (s'.engine, quorum) ∧
      ((quorum = true ∧ s.consensusWritten = false ∧ s'.consensusWritten = true ∧
          ∃ artifact, s'.written = some artifact ∧ artifact.epoch = s'.engine.epoch) ∨
        ((quorum = true → s.consensusWritten = true) ∧ s'.consensusWritten = s.consensusWritten ∧
          s'.written = s.written)) := by
  unfold serveGossip at h
  generalize quorumFromGossip lib host s.engine msg.data msg.source = r at h ⊢
  obtain ⟨engine, quorum⟩ := r
  dsimp only at h
  split at h
  · next hwrite =>
    rw [Bool.and_eq_true, Bool.not_eq_true'] at hwrite
    split at h
    · cases h
      exact ⟨quorum, rfl, .inl ⟨hwrite.1, hwrite.2, rfl, _, rfl, rfl⟩⟩
    · cases h
  · next hkeep =>
    cases h
    refine ⟨quorum, rfl, .inr ⟨fun hquorum => ?_, rfl, rfl⟩⟩
    rw [hquorum, Bool.true_and, Bool.not_eq_true', Bool.not_eq_false] at hkeep
    exact hkeep

/-! ### Published rounds -/

/-- The last artifact written is of an epoch for which `p` holds. -/
def WrittenAt (s : ServeState) (p : UInt64 → Prop) : Prop :=
  ∃ artifact, s.written = some artifact ∧ p artifact.epoch

/-- **The invariant.**  The flag says that the artifact of the open round was written, and it is set
whenever that round has its quorum. -/
structure Published (threshold : ℕ) (s : ServeState) : Prop where
  threshold_eq : s.engine.threshold = threshold
  maxSenders_pos : 1 ≤ s.engine.limits.maxSenders
  flag : s.consensusWritten = true → WrittenAt s (· = s.engine.epoch)
  quorum : threshold ≤ s.engine.seenSenders.card → s.consensusWritten = true

/-- **A gossip step keeps the invariant**, unless it opens a round while the flag is set. -/
theorem Published.gossip {threshold : ℕ} {s s' : ServeState} {msg : Message lib}
    (h : Published threshold s) (hok : KeepsFlag lib host s msg)
    (hstep : serveGossip lib host s msg = some s') : Published threshold s' := by
  obtain ⟨quorum, hgossip, hcase⟩ := serveGossip_cases hstep
  have hheard := quorumFromGossip_heard lib host h.maxSenders_pos msg.data msg.source
  rw [hgossip] at hheard
  have hthreshold : s'.engine.threshold = threshold := hheard.threshold.trans h.threshold_eq
  rcases hcase with ⟨-, -, hflag, hwritten⟩ | ⟨hquorum, hflag, hwritten⟩
  · exact ⟨hthreshold, hheard.maxSenders_pos, fun _ => hwritten, fun _ => hflag⟩
  · refine ⟨hthreshold, hheard.maxSenders_pos, fun hset => ?_, fun hle => ?_⟩
    · rw [hflag] at hset
      have hepoch := epoch_of_not_opens (hok hset)
      rw [hgossip] at hepoch
      show WrittenAt s' (· = s'.engine.epoch)
      rw [hepoch, WrittenAt, hwritten]
      exact h.flag hset
    · rw [hflag]
      cases quorum with
      | true => exact hquorum rfl
      | false =>
        have hbefore := hheard.quorum rfl (hthreshold.symm ▸ hle)
        exact h.quorum (h.threshold_eq ▸ hbefore)

theorem Published.tick {threshold : ℕ} (hpos : 1 ≤ threshold) {s : ServeState}
    (h : Published threshold s) : Published threshold (serveTick s) where
  threshold_eq := h.threshold_eq
  maxSenders_pos := h.maxSenders_pos
  flag hset := by cases hset
  quorum hle := by
    have hnone : threshold ≤ 0 := hle
    omega

/-- **Every run that keeps the flag honest publishes its rounds.** -/
theorem Serving.published {threshold : ℕ} (hpos : 1 ≤ threshold) {epoch now : UInt64}
    {s : ServeState} (h : Serving lib host (KeepsFlag lib host) threshold epoch now s) :
    Published threshold s := by
  induction h with
  | start =>
    refine ⟨rfl, withLimits_maxSenders_pos .., fun hset => ?_, fun hle => ?_⟩
    · cases hset
    · have hnone : threshold ≤ 0 := hle
      omega
  | gossip _ msg hok hstep ih => exact ih.gossip hok hstep
  | tick _ ih => exact ih.tick hpos

/-! ### Rounds that are never published -/

/-- The flag is set, but what was written is of an older epoch. -/
structure Stuck (s : ServeState) : Prop where
  maxSenders_pos : 1 ≤ s.engine.limits.maxSenders
  flag : s.consensusWritten = true
  older : WrittenAt s (· < s.engine.epoch)

/-- With the flag set, gossip writes nothing. -/
theorem written_of_flag {s s' : ServeState} {msg : Message lib} (hset : s.consensusWritten = true)
    (hstep : serveGossip lib host s msg = some s') :
    s'.engine = (quorumFromGossip lib host s.engine msg.data msg.source).1 ∧
      s'.consensusWritten = true ∧ s'.written = s.written := by
  obtain ⟨quorum, hgossip, hcase⟩ := serveGossip_cases hstep
  rw [hgossip]
  rcases hcase with ⟨-, hclear, -⟩ | ⟨-, hflag, hwritten⟩
  · rw [hset] at hclear
    cases hclear
  · exact ⟨rfl, hflag.trans hset, hwritten⟩

/-- **A round opened while the flag is set is stuck.** -/
theorem stuck_of_opens {threshold : ℕ} {s s' : ServeState} {msg : Message lib}
    (h : Published threshold s) (hset : s.consensusWritten = true)
    (hopens : Opens lib host s.engine msg) (hstep : serveGossip lib host s msg = some s') :
    Stuck s' := by
  obtain ⟨hengine, hflag, hwritten⟩ := written_of_flag hset hstep
  have hheard := quorumFromGossip_heard lib host h.maxSenders_pos msg.data msg.source
  have hlt := epoch_of_opens hopens
  rw [← hengine] at hheard hlt
  obtain ⟨artifact, hartifact, hepoch⟩ := h.flag hset
  refine ⟨hheard.maxSenders_pos, hflag, artifact, hwritten.trans hartifact, ?_⟩
  rw [hepoch]
  exact hlt

/-- **Gossip alone never frees a stuck round.** -/
theorem Overheard.stuck {s s' : ServeState} (h : Overheard lib host s s') (hs : Stuck s) :
    Stuck s' := by
  induction h with
  | refl => exact hs
  | gossip _ msg hstep ih =>
    obtain ⟨hengine, hflag, hwritten⟩ := written_of_flag ih.flag hstep
    have hheard := quorumFromGossip_heard lib host ih.maxSenders_pos msg.data msg.source
    rw [← hengine] at hheard
    have hle := hheard.epoch_le
    obtain ⟨artifact, hartifact, hlt⟩ := ih.older
    refine ⟨hheard.maxSenders_pos, hflag, artifact, hwritten.trans hartifact, ?_⟩
    grind

/-! ### Main results -/

/-- **The serve loop publishes each round that reaches its quorum, as long as no claim opens a round
while the flag is set.**  A claim that does leaves a round that no gossip will ever publish. -/
theorem serve_publishes_kept_rounds {threshold : ℕ} (hpos : 1 ≤ threshold) {epoch now : UInt64}
    {s : ServeState} (h : Serving lib host (KeepsFlag lib host) threshold epoch now s) :
    (threshold ≤ s.engine.seenSenders.card → WrittenAt s (· = s.engine.epoch)) ∧
    ∀ msg s', ¬KeepsFlag lib host s msg → serveGossip lib host s msg = some s' →
      ∀ s'', Overheard lib host s' s'' → ¬WrittenAt s'' (· = s''.engine.epoch) := by
  have hpublished := h.published hpos
  refine ⟨fun hle => hpublished.flag (hpublished.quorum hle), ?_⟩
  intro msg s' hbreaks hstep s'' hlater hwritten
  unfold KeepsFlag at hbreaks
  rw [Classical.not_imp, not_not] at hbreaks
  have hstuck := hlater.stuck (stuck_of_opens hpublished hbreaks.1 hbreaks.2 hstep)
  obtain ⟨old, hold, hlt⟩ := hstuck.older
  obtain ⟨artifact, hartifact, heq⟩ := hwritten
  obtain rfl : old = artifact := Option.some.inj (hold.symm.trans hartifact)
  grind

/-! ### A round that is missed -/

/-- `serde_json::to_vec` of a claim whose strings need no escapes. -/
def claimJson (claim : AsmapClaim) : List UInt8 :=
  let entries := claim.entries.map fun entry =>
    "\x7b\"ip_prefix\":\"" ++ entry.ipPrefix ++ "\",\"asn\":" ++ toString entry.asn ++ "\x7d"
  utf8Bytes ("\x7b\"epoch\":" ++ toString claim.epoch ++ ",\"sender_id\":\"" ++ claim.senderId ++
    "\",\"claim_hash\":\"" ++ claim.claimHash ++ "\",\"entries\":[" ++ ",".intercalate entries ++
      "]\x7d")

/-- The known crates, on what is hashed for the claim of epoch 8 too. -/
def servingCrates : Crates :=
  { knownCrates with
    sha256 := fun bytes =>
      if bytes = canonicalClaimBytes 8 (knownPeerText false) knownText then
        ⟨#[57, 76, 85, 6, 124, 147, 143, 56, 36, 63, 78, 60, 241, 171, 96, 185, 45, 29, 67, 192,
          181, 158, 64, 138, 35, 44, 47, 132, 53, 164, 46, 73], rfl⟩
      else knownCrates.sha256 bytes }

/-- What the first known peer claims at an epoch. -/
def servedClaim (epoch : UInt64) : AsmapClaim where
  epoch := epoch
  senderId := knownPeerText false
  claimHash := claimHash servingCrates epoch (knownPeerText false) knownText
  entries := knownText

/-- A host that hears that peer's claims of epochs 7 and 8. -/
def servingHost : Host where
  fromSlice data := [servedClaim 7, servedClaim 8].find? fun claim => claimJson claim = data
  topic := "asmap"
  localPeerId := knownPeerText true

def servedMessage (epoch : UInt64) : Message servingCrates where
  data := claimJson (servedClaim epoch)
  source := false
  votesOrder := IterOrder.newestFirst
  bestOrder := IterOrder.newestFirst

/-- The loop at the start, with a threshold of one. -/
def servingStart : ServeState := ⟨.new 1 7 1772726400, false, none⟩

/-- Both claims are accepted and bring the quorum of their epochs; the artifact of the first is
written. -/
theorem serveGossip_served : ∃ s s',
    serveGossip servingCrates servingHost servingStart (servedMessage 7) = some s ∧
    serveGossip servingCrates servingHost s (servedMessage 8) = some s' ∧
    s.engine.seenSenders.card = 1 ∧ s'.engine.epoch = 8 ∧ s'.engine.seenSenders.card = 1 ∧
      s'.written.map (·.epoch) = some 7 := by
  have hrun : ((serveGossip servingCrates servingHost servingStart (servedMessage 7)).bind fun s =>
      (serveGossip servingCrates servingHost s (servedMessage 8)).map fun s' =>
        (s.engine.seenSenders.card, s'.engine.epoch, s'.engine.seenSenders.card,
          s'.written.map (·.epoch))) =
      some (1, 8, 1, some 7) := by decide +kernel
  obtain ⟨s, hs, hrest⟩ := Option.bind_eq_some_iff.1 hrun
  obtain ⟨s', hs', hvalues⟩ := Option.map_eq_some_iff.1 hrest
  simp only [Prod.mk.injEq] at hvalues
  exact ⟨s, s', hs, hs', hvalues⟩

/-- The artifact of the first claim is written. -/
theorem serve_publishes_kept_rounds_first :
    ∃ s, serveGossip servingCrates servingHost servingStart (servedMessage 7) = some s ∧
      WrittenAt s (· = s.engine.epoch) := by
  obtain ⟨s, -, hs, -, hcard, -⟩ := serveGossip_served
  have hrun : Serving servingCrates servingHost (KeepsFlag servingCrates servingHost) 1 7 1772726400
      s :=
    .gossip .start (servedMessage 7) (fun hset => by cases hset) hs
  exact ⟨s, hs, (serve_publishes_kept_rounds le_rfl hrun).1 hcard.ge⟩

/-- After a claim of epoch 7 and one of epoch 8 the quorum is there, and the artifact is of epoch
7. -/
theorem serve_misses_a_round :
    ¬∀ (lib : Crates) (host : Host) (threshold : ℕ) (epoch now : UInt64) (s : ServeState),
      1 ≤ threshold → Serving lib host (fun _ _ => True) threshold epoch now s →
        threshold ≤ s.engine.seenSenders.card → WrittenAt s (· = s.engine.epoch) := by
  intro hall
  obtain ⟨s, s', hs, hs', -, hepoch, hcard, hold⟩ := serveGossip_served
  have hrun : Serving servingCrates servingHost (fun _ _ => True) 1 7 1772726400 s' :=
    .gossip (.gossip .start (servedMessage 7) trivial hs) (servedMessage 8) trivial hs'
  obtain ⟨artifact, hartifact, hwritten⟩ := hall _ _ 1 7 1772726400 s' le_rfl hrun hcard.ge
  rw [hartifact, Option.map_some, Option.some.injEq, hwritten, hepoch] at hold
  exact absurd hold (by decide)

end AsmapQuorum

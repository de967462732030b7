import AsmapQuorum.Quorum.Unanimous
import AsmapQuorum.Quorum.Written

/-!
# A mesh of peers

Peers that run `serve` or `collect` publish their claims on one topic and hear what it carries.  The
transport may lose, repeat, reorder and forward payloads, and anyone may put a payload on the topic.

* `Peer`, `Peer.step` — the loop of one peer with all its timers, and the claim that it publishes.
* `Mesh`, `Running` — the peers, the payloads on the topic and the artifacts written, over all
  interleavings.
* `Settled`, `Mesh.Sound`, `Running.sound` — the invariant: every artifact is backed by claims on
  the topic, and no peer comes back to an epoch it has written.
* `mesh_writes_each_epoch_once` — **a peer writes one artifact for an epoch at most, in increasing
  order**.
* `mesh_agreement` — **artifacts of one epoch agree** when the names on the topic, and those that
  claim two things, are together fewer than two thresholds.
* `serve_mesh_agreement`, `serve_mesh_validity` — peers with fixed maps and a few outsiders: all
  artifacts ever written agree, and what they say stands in the map of a peer.
-/

namespace AsmapQuorum

open FiniteMap QuorumEngine

/-! ### The loop of a peer -/

/-- The command that a peer runs. -/
inductive Mode where
  | serve
  | collect
  deriving DecidableEq, Repr

/-- The JSON of claims.  A claim that was written is not read as another one. -/
structure Wire where
  toVec : AsmapClaim → List UInt8
  fromSlice : List UInt8 → Option AsmapClaim
  eq_of_fromSlice : ∀ claim claim', fromSlice (toVec claim) = some claim' → claim' = claim

/-- What the loop keeps from one event to the next. -/
structure Peer where
  serve : ServeState
  localClaim : AsmapClaim

/-- What wakes the loop.  `collected` is the outcome of reading the collectors. -/
inductive PeerEvent (lib : Crates) where
  | publish
  | gossip (msg : Message lib)
  | epoch (collected : Option ASMap)
  | refresh (collected : Option ASMap)

section Loop

variable (lib : Crates)

/-- The claim with a new epoch, and the hash that goes with it. -/
def stampClaim (claim : AsmapClaim) (epoch : UInt64) : AsmapClaim :=
  { claim with epoch := epoch, claimHash := claimHash lib epoch claim.senderId claim.entries }

variable (host : Host)

/-- The peer before its first event; `template` is the claim over the map it starts with. -/
def startPeer (threshold : ℕ) (epoch now : UInt64) (template : AsmapClaim) : Peer :=
  let engine := QuorumEngine.new threshold epoch now
  { serve := ⟨engine, false, none⟩
    localClaim := stampClaim lib { template with senderId := host.localPeerId } engine.epoch }

namespace Peer

/-- `collect` takes over a claim over the collected map; it keeps the one it has if that failed. -/
def rebuild (p : Peer) (collected : Option ASMap) (epoch : UInt64) : Option Peer :=
  match collected with
  | none => some p
  | some state =>
    match asmapToClaim lib state epoch host.localPeerId with
    | .error _ => none
    | .ok refreshed =>
      some { p with
        localClaim := stampClaim lib { refreshed with senderId := host.localPeerId } epoch }

/-- The branches of the loop.  `serve` has no refresh timer. -/
def step (mode : Mode) (p : Peer) : PeerEvent lib → Option Peer
  | .publish => some { p with localClaim := stampClaim lib p.localClaim p.serve.engine.epoch }
  | .gossip msg => (serveGossip lib host p.serve msg).map fun s => { p with serve := s }
  | .epoch collected =>
    let p := { p with serve := serveTick p.serve }
    match mode with
    | .serve => some { p with localClaim := stampClaim lib p.localClaim p.serve.engine.epoch }
    | .collect => p.rebuild lib host collected p.serve.engine.epoch
  | .refresh collected =>
    match mode with
    | .serve => some p
    | .collect => p.rebuild lib host collected p.serve.engine.epoch

end Peer

end Loop

/-! ### The mesh -/

/-- What the peers are started with. -/
structure Setup (lib : Crates) (ι : Type*) where
  wire : Wire
  topic : String
  threshold : ℕ
  id : ι → lib.PeerId
  mode : ι → Mode
  epoch : ι → UInt64
  now : ι → UInt64
  state : ι → ASMap
  template : ι → AsmapClaim
  template_eq : ∀ i, ∃ sender, asmapToClaim lib (state i) (epoch i) sender = .ok (template i)

/-- The peers, the payloads put on the topic, and the artifacts written, each with who wrote it. -/
structure Mesh (ι : Type*) where
  peer : ι → Peer
  sent : List (List UInt8)
  log : List (ι × ConsensusArtifact)

/-- What the step puts on the topic. -/
def publishedBy {lib : Crates} (wire : Wire) (p : Peer) : PeerEvent lib → List (List UInt8)
  | .publish => [wire.toVec p.localClaim]
  | _ => []

/-- The artifact that the step wrote. -/
def writtenBy (s s' : ServeState) : Option ConsensusArtifact :=
  if s'.consensusWritten && !s.consensusWritten then s'.written else none

variable {lib : Crates} {ι : Type*}

namespace Setup

variable (net : Setup lib ι)

def name (i : ι) : String := lib.peerIdText (net.id i)

def host (i : ι) : Host := ⟨net.wire.fromSlice, net.topic, net.name i⟩

def start : Mesh ι where
  peer i := startPeer lib (net.host i) net.threshold (net.epoch i) (net.now i) (net.template i)
  sent := []
  log := []

end Setup

namespace Mesh

/-- The claim is on the topic. -/
def Carries (net : Setup lib ι) (m : Mesh ι) (claim : AsmapClaim) : Prop :=
  ∃ data ∈ m.sent, net.wire.fromSlice data = some claim

variable [DecidableEq ι]

/-- The mesh after a step of one peer. -/
def after (net : Setup lib ι) (m : Mesh ι) (i : ι) (event : PeerEvent lib) (p : Peer) : Mesh ι where
  peer := Function.update m.peer i p
  sent := m.sent ++ publishedBy net.wire p event
  log := m.log ++ ((writtenBy (m.peer i).serve p.serve).map fun artifact => (i, artifact)).toList

/-- The epochs of the artifacts that a peer wrote. -/
def epochs (m : Mesh ι) (i : ι) : List UInt64 := (m.log.filter fun w => w.1 = i).map fun w =>
    w.2.epoch

end Mesh

/-- All interleavings: a peer takes a step, hearing no payload that is not on the topic, or a
`foreign` payload is put there. -/
inductive Running [DecidableEq ι] (net : Setup lib ι) (foreign : List UInt8 → Prop) : Mesh ι →
    Prop where
  | start : Running net foreign net.start
  | step {m : Mesh ι} (h : Running net foreign m) (i : ι) (event : PeerEvent lib)
      (hheard : ∀ msg, event = .gossip msg → msg.data ∈ m.sent) {p : Peer}
      (hstep : (m.peer i).step lib (net.host i) (net.mode i) event = some p) :
      Running net foreign (m.after net i event p)
  | inject {m : Mesh ι} (h : Running net foreign m) (data : List UInt8) (hdata : foreign data) :
      Running net foreign { m with sent := m.sent ++ [data] }

/-! ### One step -/

theorem Peer.rebuild_cases {host : Host} {p p' : Peer} {collected : Option ASMap} {epoch : UInt64}
    (h : p.rebuild lib host collected epoch = some p') :
    p'.serve = p.serve ∧
      (p'.localClaim.senderId = p.localClaim.senderId ∨
        p'.localClaim.senderId = host.localPeerId) := by
  unfold rebuild at h
  cases collected with
  | none =>
    cases h
    exact ⟨rfl, .inl rfl⟩
  | some state =>
    dsimp only at h
    split at h
    · cases h
    · cases h
      exact ⟨rfl, .inr rfl⟩

/-- **What a step of a peer can do** to its loop and to its claim. -/
theorem Peer.step_cases {host : Host} {mode : Mode} {p p' : Peer} {event : PeerEvent lib}
    (h : p.step lib host mode event = some p') :
    (p'.serve = p.serve ∨ p'.serve = serveTick p.serve ∨
      ∃ msg, event = .gossip msg ∧ serveGossip lib host p.serve msg = some p'.serve) ∧
    (p'.localClaim.senderId = p.localClaim.senderId ∨ p'.localClaim.senderId = host.localPeerId) ∧
    (mode = .serve → p'.localClaim.entries = p.localClaim.entries) := by
  cases event with
  | publish =>
    cases h
    exact ⟨.inl rfl, .inl rfl, fun _ => rfl⟩
  | gossip msg =>
    obtain ⟨s, hs, rfl⟩ := Option.map_eq_some_iff.1 h
    exact ⟨.inr (.inr ⟨msg, rfl, hs⟩), .inl rfl, fun _ => rfl⟩
  | epoch collected =>
    cases mode with
    | serve =>
      cases h
      exact ⟨.inr (.inl rfl), .inl rfl, fun _ => rfl⟩
    | collect =>
      obtain ⟨hserve, hname⟩ := Peer.rebuild_cases h
      exact ⟨.inr (.inl hserve), hname, nofun⟩
  | refresh collected =>
    cases mode with
    | serve =>
      cases h
      exact ⟨.inl rfl, .inl rfl, fun _ => rfl⟩
    | collect =>
      obtain ⟨hserve, hname⟩ := Peer.rebuild_cases h
      exact ⟨.inl hserve, hname, nofun⟩

/-- The loop is done with an epoch: it is over, or its artifact was written. -/
structure Past (s : ServeState) (epoch : UInt64) : Prop where
  ceiling : epoch ≤ epochAbsoluteMax
  le : epoch ≤ s.engine.epoch
  flag : epoch = s.engine.epoch → s.consensusWritten = true

namespace Past

variable {s s' : ServeState} {epoch : UInt64}

/-- The timer leaves every epoch that a claim can have. -/
theorem tick (h : Past s epoch) : Past (serveTick s) epoch := by
  have htick := toNat_tick_epoch s.engine
  have hle := h.le
  have hceiling := h.ceiling
  rw [UInt64.le_iff_toNat_le] at hle hceiling
  have habs : epochAbsoluteMax.toNat < 2 ^ 64 - 1 := by decide
  refine ⟨h.ceiling, ?_, fun heq => ?_⟩
  · rw [UInt64.le_iff_toNat_le]
    show epoch.toNat ≤ s.engine.tick.epoch.toNat
    omega
  · have hsame : epoch.toNat = s.engine.tick.epoch.toNat := congrArg UInt64.toNat heq
    omega

theorem gossip {host : Host} {msg : Message lib} (hpos : 1 ≤ s.engine.limits.maxSenders)
    (h : Past s epoch) (hstep : serveGossip lib host s msg = some s') : Past s' epoch := by
  obtain ⟨hengine, hcase⟩ := serveGossip_finalizes hstep
  have hle := (quorumFromGossip_heard lib host hpos msg.data msg.source).epoch_le
  rw [← hengine] at hle
  refine ⟨h.ceiling, UInt64.le_trans h.le hle, fun heq => ?_⟩
  have hset := h.flag (UInt64.le_antisymm h.le (heq ▸ hle))
  rcases hcase with ⟨-, hclear, -⟩ | ⟨-, hflag, -⟩
  · rw [hset] at hclear
    cases hclear
  · exact hflag.trans hset

/-- An epoch that the loop is done with is older than any that it writes. -/
theorem lt_of_clear (h : Past s epoch) (hclear : s.consensusWritten = false) :
    epoch < s.engine.epoch := by
  refine UInt64.lt_of_le_of_ne h.le fun heq => ?_
  rw [h.flag heq] at hclear
  cases hclear

end Past

/-- **One step of the loop**: the invariant is kept, what is written is backed and new, and no epoch
comes back. -/
theorem Listening.step {host : Host} {mode : Mode} {p p' : Peer} {event : PeerEvent lib}
    {threshold : ℕ} {heard : AsmapClaim → Prop} (h : Listening lib threshold heard p.serve)
    (hheard : ∀ msg, event = .gossip msg → ∀ c, host.fromSlice msg.data = some c → heard c)
    (hstep : p.step lib host mode event = some p') :
    Listening lib threshold heard p'.serve ∧
      (∀ artifact, writtenBy p.serve p'.serve = some artifact →
        Backed lib host threshold heard artifact ∧ Past p'.serve artifact.epoch ∧
          ∀ epoch, Past p.serve epoch → epoch < artifact.epoch) ∧
      ∀ epoch, Past p.serve epoch → Past p'.serve epoch := by
  have hidle : ∀ s', s'.consensusWritten = p.serve.consensusWritten →
      writtenBy p.serve s' = none := by
    intro s' hflag
    rw [writtenBy, hflag, Bool.and_not_self, if_neg Bool.false_ne_true]
  rcases (Peer.step_cases hstep).1 with hserve | hserve | ⟨msg, rfl, hserve⟩
  · rw [hserve]
    refine ⟨h, fun artifact hartifact => ?_, fun _ hpast => hpast⟩
    rw [hidle _ rfl] at hartifact
    cases hartifact
  · rw [hserve]
    refine ⟨h.tick, nofun, fun _ hpast => hpast.tick⟩
  · obtain ⟨accepted, hrun, -⟩ := h.books
    have hpos := hrun.tallied.maxSenders_pos
    have hle := (quorumFromGossip_heard lib host hpos msg.data msg.source).epoch_le
    rw [← (serveGossip_finalizes hserve).1] at hle
    obtain ⟨hlistening, hcase⟩ := h.gossip (fun c hc _ => hheard msg rfl c hc) hserve
    refine ⟨hlistening, fun artifact hartifact => ?_, fun _ hpast => hpast.gossip hpos hserve⟩
    rcases hcase with ⟨hflag, -⟩ | ⟨hclear, hset, artifact', hwritten, hepoch, hbacked⟩
    · rw [hidle _ hflag] at hartifact
      cases hartifact
    · rw [writtenBy, hset, hclear, hwritten] at hartifact
      obtain rfl : artifact' = artifact := Option.some.inj hartifact
      refine ⟨hbacked, ⟨?_, hepoch ▸ UInt64.le_refl _, fun _ => hset⟩, fun epoch hpast => ?_⟩
      · obtain ⟨e, -, -, -, -, -, -, hceiling, -, rfl⟩ := hbacked
        exact hceiling
      · rw [hepoch]
        exact UInt64.lt_of_lt_of_le (hpast.lt_of_clear hclear) hle

/-! ### All peers -/

namespace Mesh

variable [DecidableEq ι] {net : Setup lib ι} {m : Mesh ι} {i : ι} {event : PeerEvent lib} {p : Peer}

theorem peer_after_self : (m.after net i event p).peer i = p := Function.update_self ..

theorem peer_after_ne {j : ι} (hne : j ≠ i) : (m.after net i event p).peer j = m.peer j :=
  Function.update_of_ne hne ..

theorem mem_log_after {w : ι × ConsensusArtifact} : w ∈ (m.after net i event p).log ↔
    w ∈ m.log ∨ w.1 = i ∧ writtenBy (m.peer i).serve p.serve = some w.2 := by
  rw [after, List.mem_append, Option.mem_toList, Option.map_eq_some_iff]
  constructor
  · rintro (hw | ⟨artifact, hartifact, rfl⟩)
    · exact .inl hw
    · exact .inr ⟨rfl, hartifact⟩
  · rintro (hw | ⟨rfl, hartifact⟩)
    · exact .inl hw
    · exact .inr ⟨w.2, hartifact, rfl⟩

theorem epochs_after_self : (m.after net i event p).epochs i =
    m.epochs i ++ ((writtenBy (m.peer i).serve p.serve).map fun artifact =>
      artifact.epoch).toList := by
  rw [epochs, after, List.filter_append, List.map_append, epochs]
  cases writtenBy (m.peer i).serve p.serve with
  | none => rfl
  | some artifact => simp

theorem epochs_after_ne {j : ι} (hne : j ≠ i) : (m.after net i event p).epochs j = m.epochs j := by
  rw [epochs, after, List.filter_append, List.map_append, epochs]
  cases writtenBy (m.peer i).serve p.serve with
  | none => simp
  | some artifact => simp [hne.symm]

theorem mem_epochs {epoch : UInt64} : epoch ∈ m.epochs i ↔ ∃ w ∈ m.log, w.1 = i ∧
    w.2.epoch = epoch := by
  simp only [epochs, List.mem_map, List.mem_filter, decide_eq_true_eq, and_assoc]

/-- **The invariant of the mesh.** -/
structure Sound (net : Setup lib ι) (m : Mesh ι) : Prop where
  listening : ∀ i, Listening lib net.threshold (m.Carries net) (m.peer i).serve
  backed : ∀ w ∈ m.log, Backed lib (net.host w.1) net.threshold (m.Carries net) w.2
  past : ∀ w ∈ m.log, Past (m.peer w.1).serve w.2.epoch
  ordered : ∀ i, (m.epochs i).Pairwise (· < ·)

theorem Sound.start (net : Setup lib ι) : Sound net net.start where
  listening i := .start lib net.threshold (net.epoch i) (net.now i) _
  backed := by simp [Setup.start]
  past := by simp [Setup.start]
  ordered i := .nil

/-- **More payloads** change nothing else. -/
theorem Sound.sent (h : Sound net m) (data : List (List UInt8)) :
    Sound net { m with sent := m.sent ++ data } := by
  have hcarries : ∀ c, m.Carries net c → Carries net { m with sent := m.sent ++ data } c :=
    fun c ⟨d, hd, hc⟩ => ⟨d, List.mem_append_left _ hd, hc⟩
  exact ⟨fun i => (h.listening i).mono hcarries, fun w hw => (h.backed w hw).mono hcarries, h.past,
    h.ordered⟩

/-- **A step of a peer keeps the invariant.** -/
theorem Sound.step (h : Sound net m) (hheard : ∀ msg, event = .gossip msg → msg.data ∈ m.sent)
    (hstep : (m.peer i).step lib (net.host i) (net.mode i) event = some p) :
    Sound net (m.after net i event p) := by
  have hcarries : ∀ c, m.Carries net c → (m.after net i event p).Carries net c :=
    fun c ⟨d, hd, hc⟩ => ⟨d, List.mem_append_left _ hd, hc⟩
  obtain ⟨hlistening, hwritten, hpast⟩ := (h.listening i).step
    (fun msg hmsg c hc => ⟨msg.data, hheard msg hmsg, hc⟩) hstep
  refine ⟨fun j => ?_, fun w hw => ?_, fun w hw => ?_, fun j => ?_⟩
  · by_cases hj : j = i
    · subst hj
      rw [peer_after_self]
      exact hlistening.mono hcarries
    · rw [peer_after_ne hj]
      exact (h.listening j).mono hcarries
  · rcases mem_log_after.1 hw with hw | ⟨hi, hartifact⟩
    · exact (h.backed w hw).mono hcarries
    · rw [hi]
      exact (hwritten w.2 hartifact).1.mono hcarries
  · rcases mem_log_after.1 hw with hw | ⟨hi, hartifact⟩
    · by_cases hj : w.1 = i
      · have hold := h.past w hw
        rw [hj] at hold ⊢
        rw [peer_after_self]
        exact hpast _ hold
      · rw [peer_after_ne hj]
        exact h.past w hw
    · rw [hi, peer_after_self]
      exact (hwritten w.2 hartifact).2.1
  · by_cases hj : j = i
    · subst hj
      rw [epochs_after_self, List.pairwise_append]
      refine ⟨h.ordered j, by
        cases writtenBy (m.peer j).serve p.serve <;> simp, fun old hold new hnew => ?_⟩
      obtain ⟨w, hw, rfl, rfl⟩ := mem_epochs.1 hold
      rw [Option.mem_toList, Option.map_eq_some_iff] at hnew
      obtain ⟨artifact, hartifact, rfl⟩ := hnew
      exact (hwritten artifact hartifact).2.2 _ (h.past w hw)
    · rw [epochs_after_ne hj]
      exact h.ordered j

end Mesh

variable [DecidableEq ι] {net : Setup lib ι} {foreign : List UInt8 → Prop} {m : Mesh ι}

/-- **The invariant holds over all interleavings.** -/
theorem Running.sound (h : Running net foreign m) : m.Sound net := by
  induction h with
  | start => exact .start net
  | step _ i event hheard hstep ih => exact ih.step hheard hstep
  | inject _ data _ ih => exact ih.sent [data]

/-! ### Rounds -/

/-- **A peer writes each epoch once**: the epochs of its artifacts increase. -/
theorem mesh_writes_each_epoch_once (h : Running net foreign m) (i : ι) :
    (m.epochs i).Pairwise (· < ·) ∧ ∀ epoch ∈ m.epochs i, epoch ≤ epochAbsoluteMax := by
  refine ⟨h.sound.ordered i, fun epoch hepoch => ?_⟩
  obtain ⟨w, hw, rfl, rfl⟩ := Mesh.mem_epochs.1 hepoch
  exact (h.sound.past w hw).ceiling

/-! ### Agreement -/

/-- A claim asserts what its entries say. -/
theorem asserts_congr {c c' : AsmapClaim} (h : c.entries = c'.entries) (key : String × ℕ) :
    c.asserts key = c'.asserts key := by
  rw [AsmapClaim.asserts, AsmapClaim.asserts, h]

/-- **Artifacts that share a participant with one claim agree.** -/
theorem agree_of_common {host host' : Host} {threshold threshold' : ℕ} {heard : AsmapClaim → Prop}
    {A B : ConsensusArtifact} (hA : Backed lib host threshold heard A)
    (hB : Backed lib host' threshold' heard B) {sender : String} (hsA : sender ∈ A.participants)
    (hsB : sender ∈ B.participants) (hone : ∀ c c', heard c → heard c' → c.senderId = sender →
      c'.senderId = sender → c.epoch = A.epoch → c'.epoch = B.epoch → c.entries = c'.entries) :
    ∀ entry ∈ A.entries, ∀ entry' ∈ B.entries, entry.ipPrefix = entry'.ipPrefix →
      entry.asn = entry'.asn := by
  obtain ⟨acceptedA, -, -, -, hnamesA, hclaimsA, hentriesA⟩ := hA.exists_claims
  obtain ⟨acceptedB, -, -, -, hnamesB, hclaimsB, hentriesB⟩ := hB.exists_claims
  obtain ⟨c, hc, hcs⟩ := List.mem_map.1 (hnamesA.mem_iff.1 hsA)
  obtain ⟨c', hc', hcs'⟩ := List.mem_map.1 (hnamesB.mem_iff.1 hsB)
  obtain ⟨hheard, hepoch, voteKeys, hkeys⟩ := hclaimsA c hc
  obtain ⟨hheard', hepoch', -⟩ := hclaimsB c' hc'
  have hsame := hone c c' hheard hheard' hcs hcs' hepoch hepoch'
  intro entry hentry entry' hentry' hpfx
  have hass := (hentriesA entry.ipPrefix entry.asn).1 ⟨entry, hentry, rfl, rfl⟩ c hc
  have hass' := (hentriesB entry'.ipPrefix entry'.asn).1 ⟨entry', hentry', rfl, rfl⟩ c' hc'
  rw [← asserts_congr hsame, ← hpfx] at hass'
  exact (validatedVoteKeys_spec hkeys).asserts_unique hass hass'

/-- Two quorums among few names share one that is not faulty. -/
theorem exists_common_name {P Q names faulty : Finset String} {threshold : ℕ} (hP : P ⊆ names)
    (hQ : Q ⊆ names) (hPcard : threshold ≤ P.card) (hQcard : threshold ≤ Q.card)
    (hcount : names.card + faulty.card < 2 * threshold) : ∃ s ∈ P, s ∈ Q ∧ s ∉ faulty := by
  have hunion := Finset.card_le_card (Finset.union_subset hP hQ)
  have hinter := Finset.card_union_add_card_inter P Q
  obtain ⟨s, hs, hnot⟩ := Finset.exists_mem_notMem_of_card_lt_card (s := faulty) (t := P ∩ Q)
    (by omega)
  obtain ⟨hsP, hsQ⟩ := Finset.mem_inter.1 hs
  exact ⟨s, hsP, hsQ, hnot⟩

/-- The participants of a backed artifact are a quorum of senders of claims. -/
theorem Backed.participants {host : Host} {threshold : ℕ} {heard : AsmapClaim → Prop}
    {A : ConsensusArtifact} (h : Backed lib host threshold heard A) :
    threshold ≤ A.participants.toFinset.card ∧
      ∀ s ∈ A.participants, ∃ c, heard c ∧ c.senderId = s ∧ c.epoch = A.epoch := by
  obtain ⟨accepted, hlen, -, hnodup, hnames, hclaims, -⟩ := h.exists_claims
  constructor
  · rw [List.toFinset_card_of_nodup (hnames.nodup_iff.2 hnodup), hnames.length_eq, List.length_map,
      hlen]
    exact Nat.le_max_right _ _
  · intro s hs
    obtain ⟨c, hc, rfl⟩ := List.mem_map.1 (hnames.mem_iff.1 hs)
    exact ⟨c, (hclaims c hc).1, rfl, (hclaims c hc).2.1⟩

/-- **Agreement.**  The artifacts of one epoch agree on every network, if the names that claim it
and those that claim two things for it are together fewer than two thresholds. -/
theorem mesh_agreement (h : Running net foreign m) {A B : ι × ConsensusArtifact} (hA : A ∈ m.log)
    (hB : B ∈ m.log) (hepoch : A.2.epoch = B.2.epoch) {names faulty : Finset String}
    (hnames : ∀ c, m.Carries net c → c.epoch = A.2.epoch → c.senderId ∈ names)
    (hfaulty : ∀ c c', m.Carries net c → m.Carries net c' → c.epoch = A.2.epoch →
      c'.epoch = A.2.epoch → c.senderId = c'.senderId → c.entries ≠ c'.entries →
        c.senderId ∈ faulty)
    (hcount : names.card + faulty.card < 2 * net.threshold) :
    ∀ entry ∈ A.2.entries, ∀ entry' ∈ B.2.entries,
      entry.ipPrefix = entry'.ipPrefix → entry.asn = entry'.asn := by
  have hbackedA := h.sound.backed A hA
  have hbackedB := h.sound.backed B hB
  obtain ⟨hcardA, hclaimA⟩ := hbackedA.participants
  obtain ⟨hcardB, hclaimB⟩ := hbackedB.participants
  have hsubA : A.2.participants.toFinset ⊆ names := by
    intro s hs
    obtain ⟨c, hc, rfl, hce⟩ := hclaimA s (List.mem_toFinset.1 hs)
    exact hnames c hc hce
  have hsubB : B.2.participants.toFinset ⊆ names := by
    intro s hs
    obtain ⟨c, hc, rfl, hce⟩ := hclaimB s (List.mem_toFinset.1 hs)
    exact hnames c hc (hce.trans hepoch.symm)
  obtain ⟨s, hsA, hsB, hnot⟩ := exists_common_name hsubA hsubB hcardA hcardB hcount
  refine agree_of_common hbackedA hbackedB (List.mem_toFinset.1 hsA) (List.mem_toFinset.1 hsB) ?_
  intro c c' hc hc' hcs hcs' hce hce'
  by_contra hne
  exact hnot (hcs ▸ hfaulty c c' hc hc' hce (hce'.trans hepoch.symm) (hcs.trans hcs'.symm) hne)

/-! ### Peers with fixed maps -/

/-- A printed network, in range or not, is read as what it was printed from. -/
theorem eq_of_readsAs_networkText {ip ip' : IpAddr} {n len : ℕ}
    (h : ReadsAs (.ofList (networkText ip n)) ip' len) : ip' = ip ∧ len = n := by
  obtain ⟨addr, digits, hsplit, hparse, hlen⟩ := readsAs_iff.1 h
  rw [String.toList_ofList, splitOnce_networkText, Option.some.injEq, Prod.mk.injEq] at hsplit
  obtain ⟨rfl, rfl⟩ := hsplit
  rw [IpAddr.parse_display, Option.some.injEq] at hparse
  obtain ⟨hbound, digits, hdigits⟩ := Numeral.parseUnsigned_eq_some.1 hlen
  have hwide := Numeral.parseUnsigned_eq_some.2 ⟨Nat.lt_of_lt_of_le hbound (Nat.le_add_right 256 n),
    digits, hdigits⟩
  rw [Numeral.parseUnsigned_toDigits (by omega), Option.some.injEq] at hwide
  exact ⟨hparse.symm, hwide.symm⟩

/-- What a path is written as is voted on under the prefix of that path. -/
theorem prefixPath_of_bitsToNetwork {path : List Bool} {text pfx : String} {asn : ℕ}
    (h : bitsToNetwork path = .ok text)
    (hpfx : (AsmapEntry.mk text asn).canonicalPrefix = some pfx) :
    prefixPath pfx = some path := by
  by_cases hlen : path.length ≤ 128
  · obtain ⟨ip, len, htext, hle, hzero, hpath, -⟩ := bitsToNetwork_spec hlen
    obtain rfl : text = (Network.mk ip len hle hzero).text := Except.ok.inj (h.symm.trans htext)
    rw [AsmapEntry.canonicalPrefix, canonicalConsensusPrefix_text] at hpfx
    rw [← Option.some.inj hpfx, prefixPath_text]
    exact congrArg some hpath
  · -- such a text has a length that no address has
    have hno : ∀ ip n, ip.width < n → text ≠ .ofList (networkText ip n) := by
      rintro ip n hwidth rfl
      unfold AsmapEntry.canonicalPrefix at hpfx
      split at hpfx
      · next r hr =>
        obtain ⟨p, ⟨ip', len, hreads, hle, -⟩, -⟩ := canonicalConsensusPrefix_eq_ok_iff.1 hr
        obtain ⟨rfl, rfl⟩ := eq_of_readsAs_networkText hreads
        omega
      · cases hpfx
    unfold bitsToNetwork at h
    cases hloop : netrangeLoop path 0 0 with
    | error panic =>
      rw [hloop] at h
      cases h
    | ok netrange =>
      rw [hloop] at h
      dsimp only [bind, Except.bind] at h
      split at h
      · exact absurd (Except.ok.inj h).symm (hno (.V4 _) _ (show 32 < _ by omega))
      · exact absurd (Except.ok.inj h).symm (hno (.V6 _) _ (show 128 < _ by omega))

/-- The claim over a map asserts nothing but flat entries of the map. -/
theorem mem_flat_of_asserts {m : ASMap} {epoch : UInt64} {sender : String} {claim c : AsmapClaim}
    (h : asmapToClaim lib m epoch sender = .ok claim) (hc : c.entries = claim.entries)
    {pfx : String} {a : ℕ} (hass : c.asserts (pfx, a) = true) :
    ∃ path, prefixPath pfx = some path ∧ (path, a) ∈ m.toEntriesFlat false := by
  unfold asmapToClaim at h
  cases hentries : claimEntries m with
  | error panic =>
    rw [hentries] at h
    cases h
  | ok entries =>
    rw [hentries] at h
    obtain rfl := Except.ok.inj h
    obtain ⟨entry, hentry, hpfx, rfl⟩ := AsmapClaim.asserts_iff.1 hass
    rw [hc] at hentry
    obtain ⟨t, ht, htext⟩ := exists_of_mem_mapM hentries hentry
    cases hnet : bitsToNetwork t.1 with
    | error panic =>
      rw [hnet] at htext
      cases htext
    | ok text =>
      rw [hnet] at htext
      obtain rfl := Except.ok.inj htext
      exact ⟨t.1, prefixPath_of_bitsToNetwork hnet hpfx, ht⟩

/-- **The invariant of peers that serve fixed maps**: a claim on the topic is over the map of the
peer it names, or an outsider's. -/
structure Mesh.Genuine (net : Setup lib ι) (outsiders : Finset String) (m : Mesh ι) : Prop where
  own : ∀ i, (m.peer i).localClaim.senderId = net.name i ∧
    (m.peer i).localClaim.entries = (net.template i).entries
  topic : ∀ c, m.Carries net c →
    (∃ i, c.senderId = net.name i ∧ c.entries = (net.template i).entries) ∨ c.senderId ∈ outsiders

theorem Running.genuine (h : Running net foreign m) (hserve : ∀ i, net.mode i = .serve)
    {outsiders : Finset String}
    (hout : ∀ data, foreign data → ∀ c, net.wire.fromSlice data = some c → c.senderId ∈ outsiders) :
    m.Genuine net outsiders := by
  induction h with
  | start => exact ⟨fun i => ⟨rfl, rfl⟩, fun c ⟨_, hdata, _⟩ => absurd hdata List.not_mem_nil⟩
  | inject _ data hdata ih =>
    refine ⟨ih.own, fun c ⟨d, hd, hc⟩ => ?_⟩
    rcases List.mem_append.1 hd with hd | hd
    · exact ih.topic c ⟨d, hd, hc⟩
    · rw [List.mem_singleton.1 hd] at hc
      exact .inr (hout data hdata c hc)
  | @step m _ i event _ p hstep ih =>
    obtain ⟨-, hname, hentries⟩ := Peer.step_cases hstep
    have hown : p.localClaim.senderId = net.name i ∧
        p.localClaim.entries = (net.template i).entries := by
      refine ⟨?_, (hentries (hserve i)).trans (ih.own i).2⟩
      rcases hname with hname | hname
      · exact hname.trans (ih.own i).1
      · exact hname
    refine ⟨fun j => ?_, fun c ⟨d, hd, hc⟩ => ?_⟩
    · by_cases hj : j = i
      · subst hj
        rw [Mesh.peer_after_self]
        exact hown
      · rw [Mesh.peer_after_ne hj]
        exact ih.own j
    · rcases List.mem_append.1 hd with hd | hd
      · exact ih.topic c ⟨d, hd, hc⟩
      · -- only the publish timer puts anything on the topic
        cases event with
        | publish =>
          rw [publishedBy, List.mem_singleton] at hd
          rw [hd] at hc
          rw [net.wire.eq_of_fromSlice _ _ hc]
          exact .inl ⟨i, hown⟩
        | gossip msg => cases hd
        | epoch collected => cases hd
        | refresh collected => cases hd

/-- **Agreement of peers with fixed maps.**  If the peers and twice the outsiders are fewer than two
thresholds, no two artifacts that any of them ever writes disagree on a network, whatever their
epochs.

The loop compares the sender of a claim with the peer that forwarded it, so that no outsider speaks
in the name of a peer is left to the transport (`hout`). -/
theorem serve_mesh_agreement [Fintype ι] (h : Running net foreign m)
    (hserve : ∀ i, net.mode i = .serve) (hnames : Function.Injective net.name)
    {outsiders : Finset String}
    (hout : ∀ data, foreign data → ∀ c, net.wire.fromSlice data = some c → c.senderId ∈ outsiders)
    (hcount : Fintype.card ι + 2 * outsiders.card < 2 * net.threshold) {A B : ι × ConsensusArtifact}
    (hA : A ∈ m.log) (hB : B ∈ m.log) :
    ∀ entry ∈ A.2.entries, ∀ entry' ∈ B.2.entries,
      entry.ipPrefix = entry'.ipPrefix → entry.asn = entry'.asn := by
  have hgenuine := h.genuine hserve hout
  have hbackedA := h.sound.backed A hA
  have hbackedB := h.sound.backed B hB
  obtain ⟨hcardA, hclaimA⟩ := hbackedA.participants
  obtain ⟨hcardB, hclaimB⟩ := hbackedB.participants
  have hall : ∀ c, m.Carries net c → c.senderId ∈ Finset.univ.image net.name ∪ outsiders := by
    intro c hc
    rcases hgenuine.topic c hc with ⟨i, hi, -⟩ | hout
    · exact Finset.mem_union_left _ (hi ▸ Finset.mem_image_of_mem _ (Finset.mem_univ i))
    · exact Finset.mem_union_right _ hout
  have hsize : (Finset.univ.image net.name ∪ outsiders).card + outsiders.card <
      2 * net.threshold := by
    have hunion := Finset.card_union_le (Finset.univ.image net.name) outsiders
    rw [Finset.card_image_of_injective _ hnames, Finset.card_univ] at hunion
    omega
  obtain ⟨s, hsA, hsB, hnot⟩ := exists_common_name
    (fun s hs => by obtain ⟨c, hc, rfl, -⟩ := hclaimA s (List.mem_toFinset.1 hs); exact hall c hc)
    (fun s hs => by obtain ⟨c, hc, rfl, -⟩ := hclaimB s (List.mem_toFinset.1 hs); exact hall c hc)
    hcardA hcardB hsize
  refine agree_of_common hbackedA hbackedB (List.mem_toFinset.1 hsA) (List.mem_toFinset.1 hsB) ?_
  intro c c' hc hc' hcs hcs' _ _
  rcases hgenuine.topic c hc with ⟨i, hi, hentries⟩ | hout
  · rcases hgenuine.topic c' hc' with ⟨j, hj, hentries'⟩ | hout'
    · rw [hentries, hentries', hnames (hi.symm.trans (hcs.trans (hcs'.symm.trans hj)))]
    · exact absurd (hcs' ▸ hout') hnot
  · exact absurd (hcs ▸ hout) hnot

/-- **Validity.**  With fewer outsiders than the threshold, what an artifact says of a network
stands in the map of every participant that is a peer, and there is one. -/
theorem serve_mesh_validity (h : Running net foreign m) (hserve : ∀ i, net.mode i = .serve)
    (hnames : Function.Injective net.name) {outsiders : Finset String}
    (hapart : ∀ i, net.name i ∉ outsiders)
    (hout : ∀ data, foreign data → ∀ c, net.wire.fromSlice data = some c → c.senderId ∈ outsiders)
    (hcount : outsiders.card < net.threshold) {A : ι × ConsensusArtifact} (hA : A ∈ m.log) :
    (∃ i, net.name i ∈ A.2.participants) ∧
      ∀ entry ∈ A.2.entries, ∃ path, prefixPath entry.ipPrefix = some path ∧
        ∀ i, net.name i ∈ A.2.participants →
          (path, entry.asn) ∈ (net.state i).toEntriesFlat false := by
  have hgenuine := h.genuine hserve hout
  have hbacked := h.sound.backed A hA
  obtain ⟨hcard, hclaim⟩ := hbacked.participants
  have hpeer : ∃ i, net.name i ∈ A.2.participants := by
    obtain ⟨s, hs, hnot⟩ := Finset.exists_mem_notMem_of_card_lt_card
      (Nat.lt_of_lt_of_le hcount hcard)
    obtain ⟨c, hc, rfl, -⟩ := hclaim s (List.mem_toFinset.1 hs)
    obtain ⟨i, hi, -⟩ := (hgenuine.topic c hc).resolve_right hnot
    exact ⟨i, hi ▸ List.mem_toFinset.1 hs⟩
  refine ⟨hpeer, fun entry hentry => ?_⟩
  obtain ⟨accepted, -, -, -, hparticipants, hclaims, hentries⟩ := hbacked.exists_claims
  have hall := (hentries entry.ipPrefix entry.asn).1 ⟨entry, hentry, rfl, rfl⟩
  have hflat : ∀ i, net.name i ∈ A.2.participants → ∃ path, prefixPath entry.ipPrefix = some path ∧
      (path, entry.asn) ∈ (net.state i).toEntriesFlat false := by
    intro i hi
    obtain ⟨c, hc, hcs⟩ := List.mem_map.1 (hparticipants.mem_iff.1 hi)
    rcases hgenuine.topic c (hclaims c hc).1 with ⟨j, hj, hce⟩ | hout
    · obtain rfl := hnames (hj.symm.trans hcs)
      obtain ⟨sender, htemplate⟩ := net.template_eq j
      exact mem_flat_of_asserts htemplate hce (hall c hc)
    · exact absurd (hcs ▸ hout) (hapart i)
  obtain ⟨i, hi⟩ := hpeer
  obtain ⟨path, hpath, -⟩ := hflat i hi
  refine ⟨path, hpath, fun j hj => ?_⟩
  obtain ⟨path', hpath', hmem⟩ := hflat j hj
  rw [hpath, Option.some.injEq] at hpath'
  exact hpath' ▸ hmem

/-! ### Three peers -/

/-- The JSON of these three claims. -/
def meshWire : Wire where
  toVec claim := if claim ∈ (List.finRange 3).map meshClaim then claimJson claim else []
  fromSlice := meshFromSlice
  eq_of_fromSlice := by
    intro claim claim' h
    obtain ⟨i, hi, rfl⟩ := Option.map_eq_some_iff.1 h
    have hsame := List.find?_some hi
    rw [decide_eq_true_eq] at hsame
    split at hsame
    · next hclaim =>
      obtain ⟨j, -, rfl⟩ := List.mem_map.1 hclaim
      have hjson : meshJson j = claimJson (meshClaim j) := by rw [meshJson]
      rw [meshJson_injective (hsame.trans hjson.symm)]
    · rw [meshJson] at hsame
      exact absurd hsame (claimJson_ne_nil _)

theorem toVec_meshClaim (i : Fin 3) : meshWire.toVec (meshClaim i) = meshJson i := by
  rw [meshJson]
  exact if_pos (List.mem_map_of_mem (List.mem_finRange i))

/-- Three peers that serve one map of two networks, with a threshold of two. -/
def meshSetup : Setup meshCrates (Fin 3) where
  wire := meshWire
  topic := "asmap"
  threshold := 2
  id peer := peer
  mode _ := .serve
  epoch _ := 7
  now _ := 1772726400
  state _ := ASMap.new.updateMulti [([false, false, true], 1), ([false, true], 2)]
  template peer := meshClaim peer
  template_eq peer := ⟨meshPeerText peer, by rfl⟩

theorem Running.publish (h : Running net foreign m) (i : ι) :
    Running net foreign (m.after net i .publish ⟨(m.peer i).serve,
      stampClaim lib (m.peer i).localClaim (m.peer i).serve.engine.epoch⟩) :=
  h.step i .publish nofun rfl

theorem Running.hear (h : Running net foreign m) (i : ι) (msg : Message lib)
    (hmsg : msg.data ∈ m.sent) {s s' : ServeState} (hs : (m.peer i).serve = s)
    (hs' : serveGossip lib (net.host i) s msg = some s') :
    Running net foreign (m.after net i (.gossip msg) ⟨s', (m.peer i).localClaim⟩) := by
  refine h.step i (.gossip msg) (fun _ heq => ?_) ?_
  · cases heq
    exact hmsg
  · show (serveGossip lib (net.host i) (m.peer i).serve msg).map _ = _
    rw [hs, hs']
    rfl

/-- Two peers publish; the third hears both of them and writes an artifact. -/
theorem running_meshSetup : ∃ m artifact, Running meshSetup (fun _ => False) m ∧
    (2, artifact) ∈ m.log ∧ artifact.epoch = 7 ∧ artifact.entries.length = 2 := by
  obtain ⟨s, s', artifact, hs, hs', hflag, hflag', hwritten, hepoch, hentries, -⟩ :=
    serveGossip_meshMessages
  have hartifact : writtenBy s s' = some artifact := by
    rw [writtenBy, hflag, hflag', hwritten]
    rfl
  have hclaim : ∀ i, stampClaim meshCrates (meshSetup.start.peer i).localClaim
      (meshSetup.start.peer i).serve.engine.epoch = meshClaim i := by
    intro i
    have hepoch : (QuorumEngine.new 2 7 1772726400).epoch = 7 := by decide +kernel
    show stampClaim meshCrates _ (QuorumEngine.new 2 7 1772726400).epoch = _
    rw [hepoch]
    rfl
  have hpublished := (Running.start.publish 0 : Running meshSetup (fun _ => False) _).publish 1
  have hpeer : ∀ (p : Peer) {i j : Fin 3}, j ≠ i →
      (meshSetup.start.after meshSetup i .publish p).peer j = meshSetup.start.peer j :=
    fun _ => Mesh.peer_after_ne
  have hmem : ∀ i s, (meshMessage i).data ∈ publishedBy meshSetup.wire ⟨s, stampClaim meshCrates
      (meshSetup.start.peer i).localClaim (meshSetup.start.peer i).serve.engine.epoch⟩
      (.publish : PeerEvent meshCrates) := by
    intro i s
    rw [hclaim, publishedBy, List.mem_singleton]
    exact (toVec_meshClaim i).symm
  -- publishing leaves the third peer as it was
  have hquiet : ∀ p q,
      (((meshSetup.start.after meshSetup 0 .publish p).after meshSetup 1 .publish q).peer 2).serve =
      meshStart := by
    intro p q
    rw [Mesh.peer_after_ne (by decide), hpeer _ (by decide)]
    rfl
  have hfirst := hpublished.hear 2 (meshMessage 0)
    (List.mem_append_left _ (List.mem_append_right _ (hmem 0 _))) (hquiet _ _) hs
  have hone := hmem 1 (meshSetup.start.peer 1).serve
  have hsecond := hfirst.hear 2 (meshMessage 1)
    (List.mem_append_left _ (List.mem_append_right _ (by rw [hpeer _ (by decide)]; exact hone)))
    (by rw [Mesh.peer_after_self]) hs'
  refine ⟨_, artifact, hsecond, Mesh.mem_log_after.2 (.inr ⟨rfl, ?_⟩), ?_⟩
  · rw [Mesh.peer_after_self]
    exact hartifact
  · exact ⟨hepoch, hentries⟩

theorem meshSetup_name_injective : Function.Injective meshSetup.name := by
  show ∀ i j, meshPeerText i = meshPeerText j → i = j
  decide +kernel

/-- The third peer wrote the epoch of its artifact once. -/
theorem mesh_writes_each_epoch_once_three : ∃ m, Running meshSetup (fun _ => False) m ∧
    7 ∈ m.epochs 2 ∧ (m.epochs 2).Pairwise (· < ·) := by
  obtain ⟨m, artifact, hm, hlog, hepoch, -⟩ := running_meshSetup
  exact ⟨m, hm, Mesh.mem_epochs.2 ⟨_, hlog, rfl, hepoch⟩, (mesh_writes_each_epoch_once hm 2).1⟩

/-- The artifact of the third peer agrees with itself. -/
theorem mesh_agreement_three : ∃ m artifact, Running meshSetup (fun _ => False) m ∧
    (2, artifact) ∈ m.log ∧ artifact.entries.length = 2 ∧ ∀ entry ∈ artifact.entries,
    ∀ entry' ∈ artifact.entries,
      entry.ipPrefix = entry'.ipPrefix → entry.asn = entry'.asn := by
  obtain ⟨m, artifact, hm, hlog, hepoch, hlen⟩ := running_meshSetup
  have hgenuine : m.Genuine meshSetup ∅ := hm.genuine (fun _ => rfl) nofun
  have htopic : ∀ c, m.Carries meshSetup c → ∃ i, c.senderId = meshSetup.name i ∧
      c.entries = knownText :=
    fun c hc => (hgenuine.topic c hc).resolve_right (Finset.notMem_empty _)
  have hnames : ∀ c, m.Carries meshSetup c → c.epoch = artifact.epoch →
      c.senderId ∈ Finset.univ.image meshSetup.name := by
    intro c hc _
    obtain ⟨i, hi, -⟩ := htopic c hc
    exact hi ▸ Finset.mem_image_of_mem _ (Finset.mem_univ i)
  have hfaulty : ∀ c c', m.Carries meshSetup c → m.Carries meshSetup c' → c.epoch = artifact.epoch →
      c'.epoch = artifact.epoch → c.senderId = c'.senderId → c.entries ≠ c'.entries →
      c.senderId ∈ (∅ : Finset String) := by
    intro c c' hc hc' _ _ _ hne
    obtain ⟨-, -, hentries⟩ := htopic c hc
    obtain ⟨-, -, hentries'⟩ := htopic c' hc'
    exact absurd (hentries.trans hentries'.symm) hne
  exact ⟨m, artifact, hm, hlog, hlen,
    mesh_agreement hm hlog hlog rfl hnames hfaulty (by decide +kernel)⟩

/-- Three peers and no outsider are fewer than two thresholds. -/
theorem serve_mesh_agreement_three : ∃ m artifact, Running meshSetup (fun _ => False) m ∧
    (2, artifact) ∈ m.log ∧ artifact.entries.length = 2 ∧ ∀ entry ∈ artifact.entries,
    ∀ entry' ∈ artifact.entries,
      entry.ipPrefix = entry'.ipPrefix → entry.asn = entry'.asn := by
  obtain ⟨m, artifact, hm, hlog, -, hlen⟩ := running_meshSetup
  have hcount : Fintype.card (Fin 3) + 2 * (∅ : Finset String).card < 2 * meshSetup.threshold := by
    decide
  exact ⟨m, artifact, hm, hlog, hlen,
    serve_mesh_agreement hm (fun _ => rfl) meshSetup_name_injective nofun hcount hlog hlog⟩

/-- A peer is a participant of the artifact of the third one, and its map has the entries. -/
theorem serve_mesh_validity_three : ∃ m artifact, Running meshSetup (fun _ => False) m ∧
    (2, artifact) ∈ m.log ∧ ∃ i, meshSetup.name i ∈ artifact.participants ∧
    ∀ entry ∈ artifact.entries,
      ∃ path, prefixPath entry.ipPrefix = some path ∧
        (path, entry.asn) ∈ (meshSetup.state i).toEntriesFlat false := by
  obtain ⟨m, artifact, hm, hlog, -, -⟩ := running_meshSetup
  have hcount : (∅ : Finset String).card < meshSetup.threshold := by decide
  obtain ⟨⟨i, hi⟩, hentries⟩ := serve_mesh_validity hm (fun _ => rfl) meshSetup_name_injective
    (fun _ => Finset.notMem_empty _) nofun hcount hlog
  refine ⟨m, artifact, hm, hlog, i, hi, fun entry hentry => ?_⟩
  obtain ⟨path, hpath, hmem⟩ := hentries entry hentry
  exact ⟨path, hpath, hmem i hi⟩

end AsmapQuorum

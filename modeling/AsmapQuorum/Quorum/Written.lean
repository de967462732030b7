import AsmapQuorum.Quorum.Domain
import AsmapQuorum.Quorum.Serve
import AsmapQuorum.Quorum.Unanimous

/-!
# What the serve loop writes

The loop writes at the moment a round gets its quorum, so a written artifact holds the claims of
exactly a quorum, and a network is in it only if all of them assert it.

* `Run.gossip` — a payload continues the run of the engine; the claims on its books were all heard.
* `Listening`, `Listening.gossip`, `Listening.tick` — the invariant of the loop: while the flag is
  clear the quorum is not there.
* `Backed` — an artifact made of the claims of a quorum; `Backed.exists_claims`: **its entries are
  exactly what all these claims assert**.
* `serve_writes_common_entries` — every artifact that the loop writes is of this kind.
-/

namespace AsmapQuorum

open FiniteMap QuorumEngine

variable {lib : Crates} {host : Host}

/-! ### One payload -/

/-- **A payload continues the run of the engine.**  What comes on the books is the claim it holds,
through the gates. -/
theorem Run.gossip (host : Host) {e : QuorumEngine} {accepted : List AsmapClaim}
    (h : Run lib e accepted) (data : List UInt8) (source : lib.PeerId) :
    ∃ accepted', Run lib (quorumFromGossip lib host e data source).1 accepted' ∧
      ∀ c ∈ accepted', c ∈ accepted ∨
        (host.fromSlice data = some c ∧ ∃ voteKeys, e.gates lib c source = .ok voteKeys) := by
  unfold quorumFromGossip
  split
  · exact ⟨accepted, h.oversize, fun c hc => .inl hc⟩
  · split
    · next claim hclaim =>
      refine ⟨_, h.claimFromPeer claim source, fun c hc => ?_⟩
      rw [history, List.mem_append] at hc
      rcases hc with hc | hc
      · split at hc
        · exact .inl hc
        · cases hc
      · split at hc
        · next quorum hquorum =>
          rw [List.mem_singleton.1 hc]
          exact .inr ⟨hclaim, exists_gates_of_accepted hquorum⟩
        · cases hc
    · exact ⟨accepted, h.malformed, fun c hc => .inl hc⟩

/-- A payload leaves the limits alone. -/
theorem quorumFromGossip_limits (host : Host) (e : QuorumEngine) (data : List UInt8)
    (source : lib.PeerId) :
    (quorumFromGossip lib host e data source).1.limits = e.limits := by
  unfold quorumFromGossip
  split
  · rfl
  · split
    · exact (processClaimFromPeer_moves lib e _ source).limits
    · rfl

/-- An accepted claim adds one sender to its round. -/
theorem card_of_accepts {e e' : QuorumEngine} {claim : AsmapClaim} {voteKeys : List (String × ℕ)}
    (h : e.Accepts e' claim voteKeys) : 1 ≤ e'.seenSenders.card ∧
    e'.seenSenders.card ≤ e.seenSenders.card + 1 := by
  rw [h.seenSenders, Finset.card_insert_of_notMem h.new_sender]
  refine ⟨Nat.le_add_left _ _, Nat.succ_le_succ ?_⟩
  unfold adopt
  split
  · exact Nat.zero_le _
  · exact le_rfl

/-- Before the quorum, a payload either brings it exactly or leaves it out of reach. -/
theorem quorumFromGossip_card (host : Host) {e : QuorumEngine} (hpos : 1 ≤ e.limits.maxSenders)
    (hwait : e.seenSenders.card < max 1 e.threshold) (data : List UInt8) (source : lib.PeerId) :
    let r := quorumFromGossip lib host e data source
    (r.2 = true → r.1.seenSenders.card = max 1 e.threshold ∧ r.1.epoch ≤ e.limits.maxEpoch) ∧
      (r.2 = false → r.1.seenSenders.card < max 1 e.threshold) := by
  intro r
  have hkept : ∀ {e' : QuorumEngine} {reason : String}, e.Rejects e' reason →
      e'.seenSenders.card < max 1 e.threshold := fun hrej => hrej.seenSenders ▸ hwait
  have hr : r = quorumFromGossip lib host e data source := rfl
  unfold quorumFromGossip at hr
  split at hr
  · rw [hr]
    exact ⟨nofun, fun _ => hkept (countRejection_rejects e _)⟩
  · split at hr
    · next claim _ =>
      have hsettled := processClaimFromPeer_settled lib hpos claim source
      have hepoch : ∀ quorum, (e.processClaimFromPeer lib claim source).2 = .accepted quorum →
          claim.epoch ≤ e.limits.maxEpoch := by
        intro quorum hquorum
        obtain ⟨voteKeys, hgates⟩ := exists_gates_of_accepted hquorum
        have hshape := shapeViolation_eq_none.1 (gates_eq_ok lib hgates).1
        exact UInt64.not_lt.1 hshape.2.2.2.2
      rw [hr]
      generalize e.processClaimFromPeer lib claim source = call at hsettled hepoch ⊢
      obtain ⟨e', verdict⟩ := call
      cases verdict with
      | rejected reason => exact ⟨nofun, fun _ => hkept hsettled⟩
      | accepted quorum =>
        obtain ⟨⟨voteKeys, hacc⟩, hquorum⟩ := hsettled
        obtain ⟨hone, hcard⟩ := card_of_accepts hacc
        rw [hacc.threshold] at hquorum
        refine ⟨fun h => ⟨?_, ?_⟩, fun h => ?_⟩
        · have hle := hquorum.1 h
          show e'.seenSenders.card = _
          omega
        · show e'.epoch ≤ _
          rw [hacc.epoch]
          exact hepoch quorum rfl
        · have hlt : ¬e.threshold ≤ e'.seenSenders.card := fun hle => by
            cases h.symm.trans (hquorum.2 hle)
          show e'.seenSenders.card < _
          omega
    · rw [hr]
      exact ⟨nofun, fun _ => hkept (countRejection_rejects e _)⟩

/-! ### The loop -/

/-- The artifact was made of the claims of exactly a quorum, all of them `heard`. -/
def Backed (lib : Crates) (host : Host) (threshold : ℕ) (heard : AsmapClaim → Prop)
    (artifact : ConsensusArtifact) : Prop :=
  ∃ (e : QuorumEngine) (accepted : List AsmapClaim) (votesOrder : IterOrder (String × ℕ) ℕ)
    (bestOrder : IterOrder String (ℕ × ℕ)), Run lib e accepted ∧ e.threshold = threshold ∧
      accepted.length = max 1 threshold ∧ e.epoch ≤ epochAbsoluteMax ∧ (∀ c ∈ accepted, heard c) ∧
      artifact = e.finalize votesOrder bestOrder host.topic host.localPeerId

theorem Backed.mono {threshold : ℕ} {heard heard' : AsmapClaim → Prop}
    {artifact : ConsensusArtifact} (h : Backed lib host threshold heard artifact)
    (hle : ∀ c, heard c → heard' c) :
    Backed lib host threshold heard' artifact := by
  obtain ⟨e, accepted, votesOrder, bestOrder, hrun, hthreshold, hlen, hepoch, hheard, heq⟩ := h
  exact ⟨e, accepted, votesOrder, bestOrder, hrun, hthreshold, hlen, hepoch,
    fun c hc => hle c (hheard c hc), heq⟩

/-- The limits on a claim by itself, its epoch aside. -/
structure ClaimLimits.SameSizes (limits limits' : ClaimLimits) : Prop where
  maxSenderIdLen : limits.maxSenderIdLen = limits'.maxSenderIdLen
  minEntries : limits.minEntries = limits'.minEntries
  maxEntries : limits.maxEntries = limits'.maxEntries

/-- **The invariant of the loop.**  While the flag is clear the round has no quorum yet. -/
structure Listening (lib : Crates) (threshold : ℕ) (heard : AsmapClaim → Prop) (s : ServeState) :
    Prop where
  threshold_eq : s.engine.threshold = threshold
  ceiling : s.engine.limits.maxEpoch ≤ epochAbsoluteMax
  sizes : s.engine.limits.SameSizes default
  books : ∃ accepted, Run lib s.engine accepted ∧ ∀ c ∈ accepted, heard c
  waiting : s.consensusWritten = false → s.engine.seenSenders.card < max 1 threshold

/-- The two ways a gossip step can go: it writes what `finalize` returns, or it writes nothing. -/
theorem serveGossip_finalizes {s s' : ServeState} {msg : Message lib}
    (h : serveGossip lib host s msg = some s') :
    let r := quorumFromGossip lib host s.engine msg.data msg.source
    s'.engine = r.1 ∧
      ((r.2 = true ∧ s.consensusWritten = false ∧ s'.consensusWritten = true ∧
          s'.written = some (r.1.finalize msg.votesOrder msg.bestOrder host.topic
            host.localPeerId)) ∨
        ((s.consensusWritten = false → r.2 = false) ∧ s'.consensusWritten = s.consensusWritten ∧
          s'.written = s.written)) := by
  intro r
  unfold serveGossip at h
  have hr : quorumFromGossip lib host s.engine msg.data msg.source = r := rfl
  rw [hr] at h
  dsimp only at h
  split at h
  · next hwrite =>
    rw [Bool.and_eq_true, Bool.not_eq_true'] at hwrite
    split at h
    · cases h
      exact ⟨rfl, .inl ⟨hwrite.1, hwrite.2, rfl, rfl⟩⟩
    · cases h
  · next hkeep =>
    cases h
    refine ⟨rfl, .inr ⟨fun hclear => ?_, rfl, rfl⟩⟩
    rw [hclear, Bool.not_false, Bool.and_true, Bool.not_eq_true] at hkeep
    exact hkeep

namespace Listening

variable {threshold : ℕ} {heard : AsmapClaim → Prop} {s s' : ServeState}

theorem mono {heard' : AsmapClaim → Prop} (h : Listening lib threshold heard s)
    (hle : ∀ c, heard c → heard' c) : Listening lib threshold heard' s := by
  obtain ⟨accepted, hrun, hheard⟩ := h.books
  exact ⟨h.threshold_eq, h.ceiling, h.sizes, ⟨accepted, hrun, fun c hc => hle c (hheard c hc)⟩,
    h.waiting⟩

theorem start (lib : Crates) (threshold : ℕ) (epoch now : UInt64) (heard : AsmapClaim → Prop) :
    Listening lib threshold heard ⟨.new threshold epoch now, false, none⟩ where
  threshold_eq := rfl
  ceiling := by
    have hceiling := (withinCeiling_withLimits threshold epoch (.atUnixTime now)).ceiling
    have hnow : (ClaimLimits.atUnixTime now).maxEpoch ≤ epochAbsoluteMax := by
      rw [UInt64.le_iff_toNat_le]
      refine (toNat_min _ _).le.trans (Nat.min_le_right _ _)
    rw [UInt64.le_iff_toNat_le] at hceiling hnow ⊢
    rw [toNat_max] at hceiling
    exact hceiling.trans (Nat.max_le.2 ⟨hnow, le_rfl⟩)
  sizes := ⟨rfl, rfl, rfl⟩
  books := ⟨[], .start .., by simp⟩
  waiting _ := Nat.lt_of_lt_of_le Nat.zero_lt_one (Nat.le_max_left _ _)

/-- **The timer keeps the invariant**: it opens an empty round. -/
theorem tick (h : Listening lib threshold heard s) :
    Listening lib threshold heard (serveTick s) where
  threshold_eq := h.threshold_eq
  ceiling := by
    have hmax := toNat_tick_maxEpoch s.engine
    have hceiling := h.ceiling
    rw [UInt64.le_iff_toNat_le] at hceiling ⊢
    show s.engine.tick.limits.maxEpoch.toNat ≤ _
    omega
  sizes := ⟨h.sizes.maxSenderIdLen, h.sizes.minEntries, h.sizes.maxEntries⟩
  books := by
    obtain ⟨accepted, hrun, -⟩ := h.books
    exact ⟨[], hrun.advance _, by simp⟩
  waiting _ := Nat.lt_of_lt_of_le Nat.zero_lt_one (Nat.le_max_left _ _)

/-- **A payload keeps the invariant**, and what is written at it is backed by the claims on the
books. -/
theorem gossip (h : Listening lib threshold heard s) {msg : Message lib}
    (hmsg : ∀ c, host.fromSlice msg.data = some c →
      (∃ voteKeys, s.engine.gates lib c msg.source = .ok voteKeys) → heard c)
    (hstep : serveGossip lib host s msg = some s') :
    Listening lib threshold heard s' ∧
      (s'.consensusWritten = s.consensusWritten ∧ s'.written = s.written ∨
        s.consensusWritten = false ∧ s'.consensusWritten = true ∧
          ∃ artifact, s'.written = some artifact ∧ artifact.epoch = s'.engine.epoch ∧
            Backed lib host threshold heard artifact) := by
  obtain ⟨accepted, hrun, hheard⟩ := h.books
  obtain ⟨hengine, hcase⟩ := serveGossip_finalizes hstep
  obtain ⟨accepted', hrun', hnew⟩ := Run.gossip host hrun msg.data msg.source
  have hheard' : ∀ c ∈ accepted', heard c := fun c hc =>
    (hnew c hc).elim (hheard c) fun hnew => hmsg c hnew.1 hnew.2
  have hpos := hrun.tallied.maxSenders_pos
  have hthreshold := (quorumFromGossip_heard lib host hpos msg.data msg.source).threshold
  have hlimits := quorumFromGossip_limits host s.engine msg.data msg.source
  have hcard := fun hclear => quorumFromGossip_card host hpos
    (h.threshold_eq.symm ▸ h.waiting hclear) msg.data msg.source
  rw [h.threshold_eq] at hthreshold hcard
  dsimp only at hcard
  rw [← hengine] at hrun' hthreshold hlimits hcard hcase
  have hbooks : ∃ accepted, Run lib s'.engine accepted ∧ ∀ c ∈ accepted, heard c :=
    ⟨accepted', hrun', hheard'⟩
  have hceiling : s'.engine.limits.maxEpoch ≤ epochAbsoluteMax := hlimits ▸ h.ceiling
  have hsizes : s'.engine.limits.SameSizes default := hlimits ▸ h.sizes
  rcases hcase with ⟨hquorum, hclear, hset, hwritten⟩ | ⟨hnone, hflag, hwritten⟩
  · refine ⟨⟨hthreshold, hceiling, hsizes, hbooks, fun hfalse => ?_⟩,
      .inr ⟨hclear, hset, _, hwritten, rfl, ?_⟩⟩
    · rw [hset] at hfalse
      cases hfalse
    · obtain ⟨hexact, hepoch⟩ := (hcard hclear).1 hquorum
      exact ⟨s'.engine, accepted', msg.votesOrder, msg.bestOrder, hrun', hthreshold,
        hrun'.tallied.card_seenSenders ▸ hexact, UInt64.le_trans hepoch h.ceiling, hheard', rfl⟩
  · refine ⟨⟨hthreshold, hceiling, hsizes, hbooks, fun hclear => ?_⟩, .inl ⟨hflag, hwritten⟩⟩
    rw [hflag] at hclear
    exact (hcard hclear).2 (hnone hclear)

end Listening

/-! ### Backed artifacts -/

/-- **A backed artifact holds what all claims of its quorum assert**, and nothing else. -/
theorem Backed.exists_claims {threshold : ℕ} {heard : AsmapClaim → Prop}
    {artifact : ConsensusArtifact} (h : Backed lib host threshold heard artifact) :
    ∃ accepted : List AsmapClaim, accepted.length = max 1 threshold ∧
      artifact.acceptedClaims = max 1 threshold ∧
      (accepted.map AsmapClaim.senderId).Nodup ∧
      artifact.participants.Perm (accepted.map AsmapClaim.senderId) ∧
      (∀ c ∈ accepted, heard c ∧ c.epoch = artifact.epoch ∧
        ∃ voteKeys, validatedVoteKeys c = .ok voteKeys) ∧
      ∀ pfx a, (∃ entry ∈ artifact.entries, entry.ipPrefix = pfx ∧ entry.asn = a) ↔
        ∀ c ∈ accepted, c.asserts (pfx, a) = true := by
  obtain ⟨e, accepted, votesOrder, bestOrder, hrun, rfl, hlen, -, hheard, rfl⟩ := h
  have htallied := hrun.tallied
  refine ⟨accepted, hlen, htallied.acceptedClaims.trans hlen, htallied.nodup, ?_,
    fun c hc => ⟨hheard c hc, htallied.epoch c hc, htallied.valid c hc⟩, fun pfx a => ?_⟩
  · refine (List.perm_ext_iff_of_nodup (Finset.sort_nodup _ _) htallied.nodup).2 fun s => ?_
    show s ∈ e.seenSenders.sort ↔ _
    rw [Finset.mem_sort, htallied.seenSenders, List.mem_toFinset]
  · have hall : (∀ c ∈ accepted, c.asserts (pfx, a) = true) ↔
        (poll accepted).votes pfx a = accepted.length := by
      rw [← htallied.votes_eq, htallied.votes, List.countP_eq_length]
    have hmost : ∀ b, (poll accepted).votes pfx b ≤ accepted.length := by
      intro b
      rw [← htallied.votes_eq, htallied.votes]
      exact List.countP_le_length
    rw [hall]
    constructor
    · rintro ⟨entry, hentry, rfl, rfl⟩
      have hdec := ((mem_entries htallied ..).1 hentry).1
      have hpos := hdec.pos
      have hquorum := hdec.quorum
      have hle := hmost entry.asn
      omega
    · intro hvotes
      have hdec : (poll accepted).Decided e.threshold pfx a := by
        refine ⟨by omega, by omega, fun b => hvotes ▸ hmost b, fun b hb => ?_⟩
        -- a claim gives a network one ASN only
        obtain ⟨c, hc⟩ := List.exists_mem_of_length_pos (l := accepted) (by omega)
        obtain ⟨voteKeys, hkeys⟩ := htallied.valid c hc
        have hb' : ∀ c ∈ accepted, c.asserts (pfx, b) = true := by
          rw [hvotes, ← htallied.votes_eq, htallied.votes, List.countP_eq_length] at hb
          exact hb
        exact ((validatedVoteKeys_spec hkeys).asserts_unique (hall.2 hvotes c hc) (hb' c hc)).le
      exact ⟨⟨pfx, a, (poll accepted).votes pfx a⟩, (mem_entries htallied ..).2 ⟨hdec, rfl⟩, rfl,
        rfl⟩

/-- The claim came in a message of the run, through the gates. -/
def HeardUnder (lib : Crates) (host : Host) (ok : ServeState → Message lib → Prop) (threshold : ℕ)
    (epoch now : UInt64) (c : AsmapClaim) : Prop :=
  ∃ s msg, Serving lib host ok threshold epoch now s ∧ ok s msg ∧ host.fromSlice msg.data = some c ∧
    ∃ voteKeys, s.engine.gates lib c msg.source = .ok voteKeys

/-- **In every run of the loop, what was last written is backed by a quorum.** -/
theorem Serving.backed {ok : ServeState → Message lib → Prop} {threshold : ℕ} {epoch now : UInt64}
    {s : ServeState} (h : Serving lib host ok threshold epoch now s) :
    Listening lib threshold (HeardUnder lib host ok threshold epoch now) s ∧
      ∀ artifact, s.written = some artifact →
        Backed lib host threshold (HeardUnder lib host ok threshold epoch now) artifact := by
  induction h with
  | start => exact ⟨.start lib threshold epoch now _, nofun⟩
  | @gossip s s' h msg hok hstep ih =>
    have hmsg : ∀ c, host.fromSlice msg.data = some c →
        (∃ voteKeys, s.engine.gates lib c msg.source = .ok voteKeys) →
          HeardUnder lib host ok threshold epoch now c :=
      fun c hc hgates => ⟨s, msg, h, hok, hc, hgates⟩
    obtain ⟨hlistening, hcase⟩ := ih.1.gossip hmsg hstep
    refine ⟨hlistening, fun artifact hartifact => ?_⟩
    rcases hcase with ⟨-, hwritten⟩ | ⟨-, -, artifact', hwritten, -, hbacked⟩
    · exact ih.2 artifact (hwritten ▸ hartifact)
    · rw [hwritten] at hartifact
      exact Option.some.inj hartifact ▸ hbacked
  | tick _ ih => exact ⟨ih.1.tick, ih.2⟩

/-! ### Two claims -/

/-- Three of the bootstrap peers. -/
def meshPeerText (peer : Fin 3) : String :=
  match peer with
  | 0 => knownPeerText false
  | 1 => knownPeerText true
  | 2 => "QmbLHAnMoJPWSCR5Zhtx6BHJX9KiKNN6tpvbUcqanj75Nb"

/-- The other crates, on three peers and on what is hashed for their claims of epoch 7. -/
def meshCrates : Crates where
  PeerId := Fin 3
  parsePeerId s := (List.finRange 3).find? fun peer => s = meshPeerText peer
  peerIdText := meshPeerText
  sha256 bytes :=
    if bytes = canonicalClaimBytes 7 (meshPeerText 1) knownText then
      ⟨#[112, 177, 46, 58, 183, 147, 12, 202, 177, 102, 196, 94, 164, 127, 3, 108, 106, 234, 82,
        148, 34, 29, 171, 43, 115, 117, 238, 191, 155, 128, 167, 121], rfl⟩
    else if bytes = canonicalClaimBytes 7 (meshPeerText 2) knownText then
      ⟨#[49, 76, 234, 89, 195, 76, 187, 56, 196, 13, 40, 47, 41, 143, 11, 174, 5, 125, 185, 3, 90,
        101, 8, 247, 216, 74, 247, 84, 5, 210, 88, 11], rfl⟩
    else knownCrates.sha256 bytes

def meshClaim (peer : Fin 3) : AsmapClaim where
  epoch := 7
  senderId := meshPeerText peer
  claimHash := claimHash meshCrates 7 (meshPeerText peer) knownText
  entries := knownText

theorem utf8Bytes_append (s t : String) : utf8Bytes (s ++ t) = utf8Bytes s ++ utf8Bytes t := by
  rw [utf8Bytes, String.toList_append, List.flatMap_append, utf8Bytes, utf8Bytes]

/-- The JSON of claims of one epoch tells senders of one length apart. -/
theorem senderId_of_claimJson {c c' : AsmapClaim} (hepoch : c.epoch = c'.epoch)
    (hlen : (utf8Bytes c.senderId).length = (utf8Bytes c'.senderId).length)
    (h : claimJson c = claimJson c') :
    utf8Bytes c.senderId = utf8Bytes c'.senderId := by
  simp only [claimJson, utf8Bytes_append, List.append_assoc, hepoch] at h
  exact (List.append_inj (List.append_cancel_left
    (List.append_cancel_left (List.append_cancel_left h))) hlen).1

theorem claimJson_ne_nil (c : AsmapClaim) : claimJson c ≠ [] := by
  intro h
  simp only [claimJson, utf8Bytes_append, List.append_assoc] at h
  exact absurd (List.append_eq_nil_iff.1 h).1 (by decide)

/-- `serde_json::to_vec` of the claim. -/
@[irreducible] def meshJson (peer : Fin 3) : List UInt8 := claimJson (meshClaim peer)

theorem meshJson_injective : Function.Injective meshJson := by
  intro i j h
  have hlen : ∀ i, (utf8Bytes (meshPeerText i)).length = 46 := by decide +kernel
  have hinj : ∀ i j, utf8Bytes (meshPeerText i) = utf8Bytes (meshPeerText j) → i = j := by
    decide +kernel
  rw [meshJson, meshJson] at h
  have hepoch : (meshClaim i).epoch = (meshClaim j).epoch := rfl
  exact hinj i j (senderId_of_claimJson hepoch ((hlen i).trans (hlen j).symm) h)

/-- Reads the JSON of these three claims. -/
def meshFromSlice (data : List UInt8) : Option AsmapClaim :=
  ((List.finRange 3).find? fun peer => meshJson peer = data).map meshClaim

theorem fromSlice_meshJson (i : Fin 3) : meshFromSlice (meshJson i) = some (meshClaim i) := by
  have hpred : (fun peer => decide (meshJson peer = meshJson i)) = fun peer => decide (peer = i) :=
    funext fun peer => decide_eq_decide.2 meshJson_injective.eq_iff
  have hfind : ∀ i : Fin 3, (List.finRange 3).find? (fun peer => decide (peer = i)) = some i := by
    decide
  show Option.map meshClaim ((List.finRange 3).find? fun peer =>
    decide (meshJson peer = meshJson i)) = _
  rw [hpred, hfind]
  rfl

/-- What a peer hears from another one. -/
def meshMessage (peer : Fin 3) : Message meshCrates where
  data := meshJson peer
  source := peer
  votesOrder := IterOrder.newestFirst
  bestOrder := IterOrder.newestFirst

theorem length_utf8Bytes (s : String) : (utf8Bytes s).length = s.utf8ByteSize := by
  have hlist : ∀ l : List Char, (l.flatMap String.utf8EncodeChar).length = String.utf8Len l := by
    intro l
    induction l with
    | nil => rfl
    | cons c l ih => rw [List.flatMap_cons, List.length_append, ih, String.utf8Len_cons,
        String.length_utf8EncodeChar, Nat.add_comm]
  rw [utf8Bytes, hlist, ← String.utf8ByteSize_ofList, String.ofList_toList]

theorem length_meshJson (i : Fin 3) : (meshJson i).length ≤ maxClaimBytes := by
  have hpeer : (meshPeerText i).utf8ByteSize = 46 := by
    revert i
    decide +kernel
  have hhash : (meshClaim i).claimHash.utf8ByteSize = 64 := (claimHash_shape ..).1
  rw [meshJson]
  simp only [claimJson, length_utf8Bytes, String.utf8ByteSize_append, hhash]
  show _ + (meshPeerText i).utf8ByteSize + _ + _ + _ + _ + _ ≤ _
  rw [hpeer]
  decide +kernel +revert

/-- The third peer, that hears the others. -/
def meshHost : Host where
  fromSlice := meshFromSlice
  topic := "asmap"
  localPeerId := meshPeerText 2

/-- What the message does to an engine. -/
theorem quorumFromGossip_meshMessage (e : QuorumEngine) (i : Fin 3) :
    quorumFromGossip meshCrates meshHost e (meshMessage i).data (meshMessage i).source =
      ((e.processClaimFromPeer meshCrates (meshClaim i) (meshMessage i).source).1,
        (e.processClaimFromPeer meshCrates (meshClaim i) (meshMessage i).source).2.toBool) := by
  have hlen : ¬(meshMessage i).data.length > maxClaimBytes := Nat.not_lt.2 (length_meshJson i)
  have hread : meshHost.fromSlice (meshMessage i).data = some (meshClaim i) := fromSlice_meshJson i
  rw [quorumFromGossip, if_neg hlen, hread]

/-- The loop of the third peer at the start, with a threshold of two. -/
def meshStart : ServeState := ⟨.new 2 7 1772726400, false, none⟩

/-- The claims of the two other peers bring the quorum; an artifact of two networks is written. -/
theorem serveGossip_meshMessages : ∃ s s' artifact,
    serveGossip meshCrates meshHost meshStart (meshMessage 0) = some s ∧
    serveGossip meshCrates meshHost s (meshMessage 1) = some s' ∧
    s.consensusWritten = false ∧ s'.consensusWritten = true ∧ s'.written = some artifact ∧
    artifact.epoch = 7 ∧ artifact.entries.length = 2 ∧
      (saveBinary artifact.map false).isOk = true := by
  have hrun : ((serveGossip meshCrates meshHost meshStart (meshMessage 0)).bind fun s =>
      (serveGossip meshCrates meshHost s (meshMessage 1)).bind fun s' =>
        s'.written.map fun artifact =>
        (s.consensusWritten, s'.consensusWritten, artifact.epoch, artifact.entries.length,
          (saveBinary artifact.map false).isOk)) = some (false, true, 7, 2, true) := by
    simp only [serveGossip, quorumFromGossip_meshMessage]
    decide +kernel
  obtain ⟨s, hs, hrest⟩ := Option.bind_eq_some_iff.1 hrun
  obtain ⟨s', hs', hrest⟩ := Option.bind_eq_some_iff.1 hrest
  obtain ⟨artifact, hwritten, hvalues⟩ := Option.map_eq_some_iff.1 hrest
  simp only [Prod.mk.injEq] at hvalues
  obtain ⟨hflag, hflag', hepoch, hentries, hsaved⟩ := hvalues
  exact ⟨s, s', artifact, hs, hs', hflag, hflag', hwritten, hepoch, hentries, hsaved⟩

/-! ### What is written -/

/-- **What the serve loop writes** is made of claims that `max 1 threshold` senders made for one
epoch, all of them heard and let through the gates, and its entries are exactly the networks and
ASNs that all of these claims assert. -/
theorem serve_writes_common_entries {ok : ServeState → Message lib → Prop} {threshold : ℕ}
    {epoch now : UInt64} {s : ServeState} (h : Serving lib host ok threshold epoch now s)
    {artifact : ConsensusArtifact} (hwritten : s.written = some artifact) :
    ∃ accepted : List AsmapClaim, accepted.length = max 1 threshold ∧
      artifact.acceptedClaims = max 1 threshold ∧
      (accepted.map AsmapClaim.senderId).Nodup ∧
      artifact.participants.Perm (accepted.map AsmapClaim.senderId) ∧
      (∀ c ∈ accepted, HeardUnder lib host ok threshold epoch now c ∧ c.epoch = artifact.epoch ∧
        ∃ voteKeys, validatedVoteKeys c = .ok voteKeys) ∧
      ∀ pfx a, (∃ entry ∈ artifact.entries, entry.ipPrefix = pfx ∧ entry.asn = a) ↔
        ∀ c ∈ accepted, c.asserts (pfx, a) = true :=
  (h.backed.2 artifact hwritten).exists_claims

/-- The artifact of the third peer is made of the claims of the two others. -/
theorem serve_writes_common_entries_two : ∃ s s' artifact,
    serveGossip meshCrates meshHost meshStart (meshMessage 0) = some s ∧
    serveGossip meshCrates meshHost s (meshMessage 1) = some s' ∧ s'.written = some artifact ∧
    artifact.acceptedClaims = 2 ∧ artifact.participants.length = 2 ∧
      artifact.entries.length = 2 := by
  obtain ⟨s, s', artifact, hs, hs', -, -, hwritten, -, hentries, -⟩ := serveGossip_meshMessages
  have hrun : Serving meshCrates meshHost (fun _ _ => True) 2 7 1772726400 s' :=
    .gossip (.gossip .start (meshMessage 0) trivial hs) (meshMessage 1) trivial hs'
  obtain ⟨accepted, hlen, haccepted, -, hnames, -⟩ := serve_writes_common_entries hrun hwritten
  have hparticipants : artifact.participants.length = 2 := by
    rw [hnames.length_eq, List.length_map, hlen]
    rfl
  exact ⟨s, s', artifact, hs, hs', hwritten, haccepted, hparticipants, hentries⟩

end AsmapQuorum

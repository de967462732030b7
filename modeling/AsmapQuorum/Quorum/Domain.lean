import AsmapQuorum.Lib.Cylinder
import AsmapQuorum.Quorum.Ledger
import AsmapQuorum.Quorum.Run

/-!
# The domain of claims

Which claims an engine accepts, said without its gates: what a sender, a hash, an epoch and the
entries have to be like, and that there is room for the sender in its round.

* `AsmapEntry.InDomain` — one entry; `voteKey_eq_ok_iff` says that its checks let through exactly
  these.
* `QuorumEngine.InDomain` — the claim, for an engine and a source.
* `Counts` — the claim was accepted, as the books of the engine say.
* `processClaimFromPeer_counts_iff` — **a claim is accepted exactly on its domain**, whatever the
  order of the gates, and the quorum is reported exactly when it is there.
-/

namespace AsmapQuorum

open FiniteMap PrefixOverwrite

/-! ### One entry -/

/-- The addresses that agree with this one on the first bits. -/
def addressRange (ip : IpAddr) (len : ℕ) : Set (List Bool) := cylinder 128 (ipToBits ip len)

/-- What an entry of a claim has to be like. -/
structure AsmapEntry.InDomain (entry : AsmapEntry) : Prop where
  asn_pos : 1 ≤ entry.asn
  asn_le : entry.asn ≤ asnMax
  size_le : entry.ipPrefix.utf8ByteSize ≤ 49
  network : ∃ ip len, ReadsAs entry.ipPrefix ip len ∧ 1 ≤ len ∧ len ≤ ip.width ∧
    ∀ addr, ip = .V6 addr → Disjoint (addressRange ip len) (addressRange (.V6 ipv4MappedRange) 96)

/-- Clearing the host bits does not move a network with respect to the mapped range. -/
theorem touchesMappedRange_canonicalized {ip : IpAddr} {len : ℕ} (hpos : 1 ≤ len)
    (hle : len ≤ ip.width) :
    touchesMappedRange (RoutingPrefix.canonicalized ip len).ip
      (RoutingPrefix.canonicalized ip len).mask =
        false ↔
      ∀ addr, ip = .V6 addr → Disjoint (addressRange ip len)
        (addressRange (.V6 ipv4MappedRange) 96) := by
  obtain ⟨N, hN, -, hpath⟩ := Network.exists_canonicalized hle
  cases ip with
  | V4 addr =>
    obtain ⟨addr', haddr⟩ := canonicalized_V4 addr len
    rw [haddr]
    exact iff_of_true rfl fun _ h => IpAddr.noConfusion h
  | V6 addr =>
    obtain ⟨addr', haddr⟩ := canonicalized_V6 addr len
    have hmapped : ipToBits (.V6 ipv4MappedRange) 96 = mappedPath := by decide
    have hsame : ipToBits (.V6 addr') len = ipToBits (.V6 addr) len := by
      rw [hN, RoutingPrefix.mk.injEq] at haddr
      rw [← hpath, Network.path, haddr.1, haddr.2]
    have hlen : (ipToBits (.V6 addr) len).length ≤ 128 := by
      rw [← hpath]
      exact N.length_path_le
    have hdisjoint := disjoint_cylinder_iff hlen (show mappedPath.length ≤ 128 by decide)
    rw [haddr, touchesMappedRange_eq_false hpos, hsame]
    constructor
    · rintro hapart addr₁ -
      rw [addressRange, addressRange, hmapped]
      exact hdisjoint.2 hapart
    · intro hdisj
      have := hdisj addr rfl
      rw [addressRange, addressRange, hmapped] at this
      exact hdisjoint.1 this

theorem ite_error_eq_ok {ε α : Type*} {p : Prop} [Decidable p] {e : ε} {r : Except ε α} {a : α} :
    (if p then .error e else r) = .ok a ↔ ¬p ∧ r = .ok a := by
  by_cases h : p <;> simp [h]

/-- The checks one after the other. -/
theorem voteKey_eq_ok_iff_checks {entry : AsmapEntry} {pfx : String} :
    voteKey entry = .ok pfx ↔
      (1 ≤ entry.asn ∧ entry.asn ≤ asnMax ∧ entry.ipPrefix.utf8ByteSize ≤ 49) ∧
        ∃ p, Denotes entry.ipPrefix p ∧ 1 ≤ p.mask ∧ touchesMappedRange p.ip p.mask = false ∧
          pfx = p.text := by
  have hchecks : (¬entry.asn = 0 ∧ ¬(entry.asn < asnMin ∨ entry.asn > asnMax) ∧
      ¬entry.ipPrefix.utf8ByteSize > maxPrefixLen) ↔
      1 ≤ entry.asn ∧ entry.asn ≤ asnMax ∧ entry.ipPrefix.utf8ByteSize ≤ 49 := by
    rw [maxPrefixLen, asnMin]
    omega
  rw [voteKey, ite_error_eq_ok, ite_error_eq_ok, ite_error_eq_ok, ← and_assoc, ← and_assoc,
    and_assoc (a := ¬entry.asn = 0), hchecks]
  refine and_congr_right fun _ => ?_
  constructor
  · intro h
    split at h
    · cases h
    · next r ip len hcanon =>
      rw [ite_error_eq_ok, ite_error_eq_ok, Bool.not_eq_true, Except.ok.injEq] at h
      obtain ⟨p, hp, heq⟩ := canonicalConsensusPrefix_eq_ok_iff.1 hcanon
      obtain ⟨rfl, rfl, rfl⟩ : r = p.text ∧ ip = p.ip ∧ len = p.mask := by simpa using heq
      exact ⟨p, hp, Nat.pos_of_ne_zero h.1, h.2.1, h.2.2.symm⟩
  · rintro ⟨p, hp, hpos, htouch, rfl⟩
    rw [canonicalConsensusPrefix_eq_ok_iff.2 ⟨p, hp, rfl⟩]
    show (if p.mask = 0 then _ else if touchesMappedRange p.ip p.mask then _ else _) = _
    rw [if_neg (Nat.pos_iff_ne_zero.1 hpos), htouch]
    rfl

/-- **An entry passes its checks exactly on its domain**, and its key is the text of its network. -/
theorem voteKey_eq_ok_iff {entry : AsmapEntry} {pfx : String} :
    voteKey entry = .ok pfx ↔ entry.InDomain ∧ ∃ p, Denotes entry.ipPrefix p ∧ pfx = p.text := by
  rw [voteKey_eq_ok_iff_checks]
  constructor
  · rintro ⟨⟨hpos, hle, hsize⟩, p, ⟨ip, len, hreads, hwidth, rfl⟩, hmask, htouch, rfl⟩
    rw [mask_canonicalized] at hmask
    exact ⟨⟨hpos, hle, hsize, ip, len, hreads, hmask, hwidth,
      (touchesMappedRange_canonicalized hmask hwidth).1 htouch⟩, _, ⟨ip, len, hreads, hwidth, rfl⟩,
        rfl⟩
  · rintro ⟨hdomain, p, ⟨ip, len, hreads, hwidth, rfl⟩, rfl⟩
    obtain ⟨ip', len', hreads', hmask, -, hdisj⟩ := hdomain.network
    obtain ⟨rfl, rfl⟩ := hreads.unique hreads'
    refine ⟨⟨hdomain.asn_pos, hdomain.asn_le, hdomain.size_le⟩, _, ⟨ip, len, hreads, hwidth, rfl⟩,
      ?_, ?_, rfl⟩
    · rw [mask_canonicalized]
      exact hmask
    · exact (touchesMappedRange_canonicalized hmask hwidth).2 hdisj

theorem AsmapEntry.InDomain.exists_denotes {entry : AsmapEntry} (h : entry.InDomain) :
    ∃ p, Denotes entry.ipPrefix p := by
  obtain ⟨ip, len, hreads, -, hwidth, -⟩ := h.network
  exact ⟨_, ip, len, hreads, hwidth, rfl⟩

/-- A network has one text, and a text one network. -/
theorem Denotes.eq_of_text_eq {text text' : String} {p p' : RoutingPrefix} (h : Denotes text p)
    (h' : Denotes text' p') (heq : p.text = p'.text) : p = p' := by
  obtain ⟨ip, len, -, hwidth, rfl⟩ := h
  obtain ⟨ip', len', -, hwidth', rfl⟩ := h'
  obtain ⟨N, hN, -⟩ := Network.exists_canonicalized hwidth
  obtain ⟨N', hN', -⟩ := Network.exists_canonicalized hwidth'
  rw [hN, hN'] at heq ⊢
  rw [Network.text_injective heq]

/-- **The entries of a claim pass exactly if** each is in its domain and no two give one network
different ASNs. -/
theorem exists_validatedVoteKeys_iff {claim : AsmapClaim} :
    (∃ voteKeys, validatedVoteKeys claim = .ok voteKeys) ↔
      (∀ entry ∈ claim.entries, entry.InDomain) ∧
      ∀ entry ∈ claim.entries, ∀ entry' ∈ claim.entries, ∀ p, Denotes entry.ipPrefix p →
        Denotes entry'.ipPrefix p → entry.asn = entry'.asn := by
  constructor
  · rintro ⟨voteKeys, h⟩
    have hspec := validatedVoteKeys_spec h
    have hdomain : ∀ entry ∈ claim.entries, entry.InDomain := by
      intro entry hentry
      obtain ⟨pfx, hkey⟩ := hspec.valid entry hentry
      exact (voteKey_eq_ok_iff.1 hkey).1
    refine ⟨hdomain, fun entry hentry entry' hentry' p hp hp' => ?_⟩
    have hkey := voteKey_eq_ok_iff.2 ⟨hdomain entry hentry, p, hp, rfl⟩
    have hkey' := voteKey_eq_ok_iff.2 ⟨hdomain entry' hentry', p, hp', rfl⟩
    exact hspec.eq_of_mem ((hspec.mem_iff (p.text, entry.asn)).2 ⟨entry, hentry, hkey, rfl⟩)
      ((hspec.mem_iff (p.text, entry'.asn)).2 ⟨entry', hentry', hkey', rfl⟩)
  · rintro ⟨hdomain, hone⟩
    have hkey : ∀ entry ∈ claim.entries, ∃ p, Denotes entry.ipPrefix p ∧
        voteKey entry = .ok p.text := by
      intro entry hentry
      obtain ⟨p, hp⟩ := (hdomain entry hentry).exists_denotes
      exact ⟨p, hp, voteKey_eq_ok_iff.2 ⟨hdomain entry hentry, p, hp, rfl⟩⟩
    refine exists_validatedVoteKeys (fun entry hentry => ?_)
      fun entry hentry entry' hentry' hsame => ?_
    · obtain ⟨p, -, hok⟩ := hkey entry hentry
      exact ⟨p.text, hok⟩
    · obtain ⟨p, hp, hok⟩ := hkey entry hentry
      obtain ⟨p', hp', hok'⟩ := hkey entry' hentry'
      rw [hok, hok', Except.ok.injEq] at hsame
      refine hone entry hentry entry' hentry' p hp ?_
      rw [hp.eq_of_text_eq hp' hsame]
      exact hp'

namespace QuorumEngine

/-! ### Claims -/

variable {lib : Crates}

/-- What a claim has to be like for an engine to accept it from a source. -/
structure InDomain (lib : Crates) (e : QuorumEngine) (claim : AsmapClaim) (source : lib.PeerId) :
    Prop where
  senderId_le : claim.senderId.utf8ByteSize ≤ e.limits.maxSenderIdLen
  source : claim.senderId = lib.peerIdText source
  hash_length : claim.claimHash.length = 64
  hash_digits : ∀ c ∈ claim.claimHash.toList, LowerHex c
  hash : claim.claimHash = claimHash lib claim.epoch claim.senderId claim.entries
  minEntries_le : e.limits.minEntries ≤ claim.entries.length
  le_maxEntries : claim.entries.length ≤ e.limits.maxEntries
  epoch_le : e.epoch.toNat ≤ claim.epoch.toNat
  le_epoch : claim.epoch.toNat ≤ min (e.epoch.toNat + e.limits.maxEpochSkew.toNat)
    e.limits.maxEpoch.toNat
  entries : ∀ entry ∈ claim.entries, entry.InDomain
  /-- No network is given two ASNs. -/
  agree : ∀ entry ∈ claim.entries, ∀ entry' ∈ claim.entries, ∀ p, Denotes entry.ipPrefix p →
    Denotes entry'.ipPrefix p → entry.asn = entry'.asn
  /-- A new round, or one with room for a new sender. -/
  room : e.epoch.toNat < claim.epoch.toNat ∨
    claim.senderId ∉ e.seenSenders ∧ e.seenSenders.card < e.limits.maxSenders

/-- The round that the call leaves counts one accepted claim more than it did before; a round that
the call opened did not count any. -/
def Counts (e e' : QuorumEngine) : Prop :=
  e'.acceptedClaims = (if e'.epoch = e.epoch then e.acceptedClaims else 0) + 1

theorem counts_of_accepts {e e' : QuorumEngine} {claim : AsmapClaim} {voteKeys : List (String × ℕ)}
    (h : e.Accepts e' claim voteKeys) : e.Counts e' := by
  rw [Counts, h.acceptedClaims, h.epoch]
  by_cases hlt : e.epoch < claim.epoch
  · rw [adopt_of_lt e hlt, if_neg fun heq => UInt64.ne_of_lt hlt heq.symm]
    rfl
  · have heq : claim.epoch = e.epoch := by
      have := h.not_stale
      grind
    rw [adopt_of_not_lt e hlt, if_pos heq]

theorem not_counts_of_rejects {e e' : QuorumEngine} {reason : String} (h : e.Rejects e' reason) :
    ¬e.Counts e' := by
  rw [Counts, h.epoch, if_pos rfl, h.acceptedClaims]
  omega

/-- The books tell how the call ended. -/
theorem Settled.counts_iff {e : QuorumEngine} {claim : AsmapClaim} {r : QuorumEngine × Verdict}
    (h : e.Settled claim r) : e.Counts r.1 ↔ ∃ quorum, r.2 = .accepted quorum := by
  obtain ⟨e', verdict⟩ := r
  cases verdict with
  | accepted quorum =>
    obtain ⟨⟨voteKeys, hacc⟩, -⟩ := h
    exact iff_of_true (counts_of_accepts hacc) ⟨quorum, rfl⟩
  | rejected reason =>
    refine iff_of_false (not_counts_of_rejects h) ?_
    rintro ⟨quorum, hq⟩
    cases hq

/-- What the call returns is read off the books. -/
theorem Settled.toBool_iff {e : QuorumEngine} {claim : AsmapClaim} {r : QuorumEngine × Verdict}
    (h : e.Settled claim r) :
    r.2.toBool = true ↔ e.Counts r.1 ∧ e.threshold ≤ r.1.seenSenders.card := by
  rw [h.counts_iff, ← h.threshold]
  obtain ⟨e', verdict⟩ := r
  cases verdict with
  | accepted quorum =>
    rw [and_iff_right ⟨quorum, rfl⟩]
    exact h.2
  | rejected reason =>
    refine iff_of_false Bool.false_ne_true ?_
    rintro ⟨⟨quorum, hq⟩, -⟩
    cases hq

/-- What is accepted passed the gates. -/
theorem exists_gates_of_accepted {e : QuorumEngine} {claim : AsmapClaim} {source : lib.PeerId}
    {quorum : Bool} (h : (e.processClaimFromPeer lib claim source).2 = .accepted quorum) :
    ∃ voteKeys, e.gates lib claim source = .ok voteKeys := by
  cases hgates : e.gates lib claim source with
  | error rejection =>
    unfold processClaimFromPeer at h
    rw [hgates] at h
    cases rejection with
    | counted reason => cases h
    | recorded reason => cases h
  | ok voteKeys => exact ⟨voteKeys, rfl⟩

/-- What the call comes to, once a sender is admitted at all. -/
theorem accepted_iff {e : QuorumEngine} (hpos : 1 ≤ e.limits.maxSenders) {claim : AsmapClaim}
    {source : lib.PeerId} :
    (∃ quorum, (e.processClaimFromPeer lib claim source).2 = .accepted quorum) ↔
      (∃ voteKeys, e.gates lib claim source = .ok voteKeys) ∧
        claim.senderId ∉ (e.adopt claim).seenSenders ∧
        (e.adopt claim).seenSenders.card < e.limits.maxSenders := by
  constructor
  · rintro ⟨quorum, hacc⟩
    obtain ⟨voteKeys, hgates⟩ := exists_gates_of_accepted hacc
    refine ⟨⟨voteKeys, hgates⟩, ?_⟩
    by_contra hfull
    rw [not_and_or, not_not, Nat.not_lt] at hfull
    obtain ⟨reason, hrej, -⟩ := processClaimFromPeer_full lib hpos hgates hfull
    rw [hrej] at hacc
    cases hacc
  · rintro ⟨⟨voteKeys, hgates⟩, hnew, hroom⟩
    obtain ⟨heq, -⟩ := processClaimFromPeer_accepts lib hgates hnew hroom
    exact ⟨_, congrArg Prod.snd heq⟩

/-- A round has room for a sender if it is a new one, or an open one with room. -/
theorem room_iff {e : QuorumEngine} (hpos : 1 ≤ e.limits.maxSenders) {claim : AsmapClaim} :
    (claim.senderId ∉ (e.adopt claim).seenSenders ∧
        (e.adopt claim).seenSenders.card < e.limits.maxSenders) ↔
      e.epoch.toNat < claim.epoch.toNat ∨
        claim.senderId ∉ e.seenSenders ∧ e.seenSenders.card < e.limits.maxSenders := by
  rw [← UInt64.lt_iff_toNat_lt]
  by_cases hlt : e.epoch < claim.epoch
  · rw [adopt_of_lt e hlt]
    exact iff_of_true ⟨Finset.notMem_empty _, hpos⟩ (.inl hlt)
  · rw [adopt_of_not_lt e hlt, or_iff_right hlt]

/-- The gates as one condition. -/
theorem exists_gates_iff {e : QuorumEngine} {claim : AsmapClaim} {source : lib.PeerId} :
    (∃ voteKeys, e.gates lib claim source = .ok voteKeys) ↔
      e.shapeViolation claim = none ∧ claim.senderId = lib.peerIdText source ∧
        claim.claimHash = claimHash lib claim.epoch claim.senderId claim.entries ∧
        ¬claim.epoch < e.epoch ∧ ¬claim.epoch > saturatingAdd e.epoch e.limits.maxEpochSkew ∧
        ∃ voteKeys, validatedVoteKeys claim = .ok voteKeys := by
  constructor
  · rintro ⟨voteKeys, h⟩
    obtain ⟨hshape, hsource, hhash, hstale, hjump, hkeys⟩ := gates_eq_ok lib h
    exact ⟨hshape, hsource, hhash, hstale, hjump, voteKeys, hkeys⟩
  · rintro ⟨hshape, hsource, hhash, hstale, hjump, voteKeys, hkeys⟩
    exact ⟨voteKeys, gates_of_checks lib hshape hsource hhash hstale hjump hkeys⟩

/-- A claimed epoch is below every sum that saturates. -/
theorem epoch_window_iff {e : QuorumEngine} {claim : AsmapClaim} :
    (¬claim.epoch > e.limits.maxEpoch ∧
      ¬claim.epoch > saturatingAdd e.epoch e.limits.maxEpochSkew) ↔
      claim.epoch.toNat ≤
        min (e.epoch.toNat + e.limits.maxEpochSkew.toNat) e.limits.maxEpoch.toNat := by
  have hbound := claim.epoch.toNat_lt
  rw [gt_iff_lt, gt_iff_lt, UInt64.lt_iff_toNat_lt, UInt64.lt_iff_toNat_lt, toNat_saturatingAdd]
  omega

/-- **A claim passes the gates and finds room exactly on its domain.** -/
theorem inDomain_iff {e : QuorumEngine} {claim : AsmapClaim} {source : lib.PeerId}
    (hpos : 1 ≤ e.limits.maxSenders) :
    ((∃ voteKeys, e.gates lib claim source = .ok voteKeys) ∧
        claim.senderId ∉ (e.adopt claim).seenSenders ∧
        (e.adopt claim).seenSenders.card < e.limits.maxSenders) ↔ e.InDomain lib claim source := by
  rw [room_iff hpos, exists_gates_iff, shapeViolation_eq_none, exists_validatedVoteKeys_iff,
    hash_shape_iff, UInt64.lt_iff_toNat_lt, Nat.not_lt]
  constructor
  · rintro ⟨⟨⟨hsender, ⟨hlength, hdigits⟩, hmin, hmax, hceiling⟩, hsource, hhash, hstale, hjump,
      hentries, hagree⟩, hroom⟩
    exact ⟨hsender, hsource, hlength, hdigits, hhash, hmin, hmax, hstale,
      epoch_window_iff.1 ⟨hceiling, hjump⟩, hentries, hagree, hroom⟩
  · intro h
    obtain ⟨hceiling, hjump⟩ := epoch_window_iff.2 h.le_epoch
    exact ⟨⟨⟨h.senderId_le, ⟨h.hash_length, h.hash_digits⟩, h.minEntries_le, h.le_maxEntries,
      hceiling⟩, h.source, h.hash, h.epoch_le, hjump, h.entries, h.agree⟩, h.room⟩

end QuorumEngine

open QuorumEngine

/-- **A claim is accepted exactly on its documented domain**, and the call reports a quorum exactly
if it accepts and as many senders as the threshold have been seen. -/
theorem processClaimFromPeer_counts_iff {lib : Crates} {e : QuorumEngine} (h : Reachable lib e)
    (claim : AsmapClaim) (source : lib.PeerId) :
    (e.Counts (e.processClaimFromPeer lib claim source).1 ↔ e.InDomain lib claim source) ∧
      ((e.processClaimFromPeer lib claim source).2.toBool = true ↔
        e.Counts (e.processClaimFromPeer lib claim source).1 ∧
          e.threshold ≤ (e.processClaimFromPeer lib claim source).1.seenSenders.card) := by
  obtain ⟨accepted, hrun⟩ := h
  have hpos := hrun.tallied.maxSenders_pos
  have hsettled := processClaimFromPeer_settled lib hpos claim source
  exact ⟨hsettled.counts_iff.trans ((accepted_iff hpos).trans (inDomain_iff hpos)),
    hsettled.toBool_iff⟩

/-- The first claim on a new engine. -/
theorem processClaimFromPeer_counts_iff_first :
    let e := withLimits 1 7 default
    let claim := knownClaim false knownEntries
    (e.Counts (e.processClaimFromPeer knownCrates claim false).1 ↔
      e.InDomain knownCrates claim false) ∧
      ((e.processClaimFromPeer knownCrates claim false).2.toBool = true ↔
        e.Counts (e.processClaimFromPeer knownCrates claim false).1 ∧
          e.threshold ≤ (e.processClaimFromPeer knownCrates claim false).1.seenSenders.card) :=
  have hreachable : Reachable knownCrates (withLimits 1 7 default) := ⟨[], .start 1 7 default⟩
  processClaimFromPeer_counts_iff hreachable (knownClaim false knownEntries) false

end AsmapQuorum

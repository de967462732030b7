import AsmapQuorum.Codec.Binary
import AsmapQuorum.Quorum.Replay

/-!
# Honest claims

`asmapToClaim` turns a map into the claim of an honest sender: its flat entries, written as
networks.

* `validatedVoteKeys_honest`, `passes_honest` — an honest claim trips no gate.
* `votes_honest` — in a round of honest claims over one map, every flat entry has the votes of all.
* `unanimous` — **a unanimous round reproduces the map.**
-/

namespace AsmapQuorum

open FiniteMap PrefixOverwrite QuorumEngine Reading

/-- The text is that of a peer identity. -/
def Crates.IsPeerIdText (lib : Crates) (s : String) : Prop :=
  ∃ peer, lib.parsePeerId s = some peer ∧ lib.peerIdText peer = s

/-- The flat entries of the map, with their networks written out. -/
def claimEntries (state : ASMap) : Except Panic (List AsmapEntry) :=
  (state.toEntriesFlat false).mapM fun e => (bitsToNetwork e.1).map fun net => ⟨net, e.2⟩

def asmapToClaim (lib : Crates) (state : ASMap) (epoch : UInt64) (senderId : String) :
    Except Panic AsmapClaim := do
  let entries ← claimEntries state
  let hash := claimHash lib epoch senderId entries
  return { epoch := epoch, senderId := senderId, claimHash := hash, entries := entries }

/-! ### The hash has its shape -/

theorem mem_hexEncode {bytes : List UInt8} {c : Char} (hc : c ∈ (hexEncode bytes).toList) :
    (isAsciiHexdigit c && !c.isUpper) = true ∧ c.utf8Size = 1 := by
  have hdigit : ∀ d < 16, (isAsciiHexdigit (Nat.digitChar d) && !(Nat.digitChar d).isUpper) = true ∧
      (Nat.digitChar d).utf8Size = 1 := by decide
  rw [hexEncode, String.toList_ofList, List.mem_flatMap] at hc
  obtain ⟨b, -, hc⟩ := hc
  have hb := b.toNat_lt
  rcases List.mem_cons.1 hc with rfl | hc
  · exact hdigit _ (by omega)
  · rw [List.mem_singleton.1 hc]
    exact hdigit _ (by omega)

theorem length_hexEncode (bytes : List UInt8) :
    (hexEncode bytes).toList.length = 2 * bytes.length := by
  rw [hexEncode, String.toList_ofList]
  induction bytes with
  | nil => rfl
  | cons b bytes ih =>
    rw [List.flatMap_cons, List.length_append, ih, List.length_cons]
    show 2 + 2 * bytes.length = 2 * (bytes.length + 1)
    omega

/-- **The hash of a claim passes the gate on its shape.** -/
theorem claimHash_shape (lib : Crates) (epoch : UInt64) (senderId : String)
    (entries : List AsmapEntry) :
    (claimHash lib epoch senderId entries).utf8ByteSize = claimHashLen ∧
    ((claimHash lib epoch senderId entries).toList.all fun c => isAsciiHexdigit c && !c.isUpper) =
      true := by
  constructor
  · have hascii : ∀ c ∈ (claimHash lib epoch senderId entries).toList, c.utf8Size = 1 :=
      fun c hc => (mem_hexEncode hc).2
    rw [← String.ofList_toList (s := claimHash lib epoch senderId entries),
      String.utf8ByteSize_ofList, utf8Len_of_ascii hascii, claimHash, length_hexEncode,
      Vector.length_toList]
    rfl
  · rw [List.all_eq_true]
    exact fun c hc => (mem_hexEncode hc).1

/-! ### Maps that can be claimed -/

/-- What an honest producer's map is expected to be: within the length of an address, with encodable
ASNs, and without an entry that is or covers the whole of the mapped range. -/
structure Claimable (m : ASMap) : Prop where
  canonical : m.trie.Canonical
  depth : m.trie.depth ≤ 128
  asn : ∀ t ∈ m.toEntriesFlat false, t.2 ≤ asnMax
  clear : ∀ t ∈ m.toEntriesFlat false, ¬t.1 <+: mappedPath

/-- The networks that the flat entries are written as. -/
structure Rendering (m : ASMap) (net : ASNEntry → Network) : Prop where
  admitted : ∀ t ∈ m.toEntriesFlat false, (net t).Admitted
  path : ∀ t ∈ m.toEntriesFlat false, (net t).path = t.1
  text : ∀ t ∈ m.toEntriesFlat false, bitsToNetwork t.1 = .ok (net t).text

/-- The entry that claims a flat entry. -/
def render (net : ASNEntry → Network) (t : ASNEntry) : AsmapEntry := ⟨(net t).text, t.2⟩

theorem Claimable.exists_rendering {m : ASMap} (h : Claimable m) : ∃ net, Rendering m net := by
  have hnet : ∀ t, ∃ N : Network, t ∈ m.toEntriesFlat false →
      N.Admitted ∧ N.path = t.1 ∧ bitsToNetwork t.1 = .ok N.text := by
    intro t
    by_cases ht : t ∈ m.toEntriesFlat false
    · have hlen : t.1.length ≤ 128 := by
        rw [ASMap.toEntriesFlat_false] at ht
        exact (TrieNode.length_le_of_mem_flat ht).trans h.depth
      obtain ⟨N, hN⟩ := Network.exists_bitsToNetwork hlen (h.clear t ht)
      exact ⟨N, fun _ => hN⟩
    · exact ⟨⟨.V6 0, 0, Nat.zero_le _, fun i _ => BitVec.getMsbD_zero⟩, fun ht' => absurd ht' ht⟩
  choose net hnet using hnet
  exact ⟨net, fun t ht => (hnet t ht).1, fun t ht => (hnet t ht).2.1, fun t ht => (hnet t ht).2.2⟩

section Honest

variable {m : ASMap} {net : ASNEntry → Network} (hm : Claimable m) (hnet : Rendering m net)
include hnet

theorem claimEntries_eq : claimEntries m = .ok ((m.toEntriesFlat false).map (render net)) := by
  apply mapM_eq_map
  intro t ht
  rw [hnet.text t ht]
  rfl

/-- Flat entries written alike are the same. -/
theorem Rendering.eq_of_text_eq {t u : ASNEntry} (ht : t ∈ m.toEntriesFlat false)
    (hu : u ∈ m.toEntriesFlat false) (h : (net t).text = (net u).text) : t = u := by
  have hpath : t.1 = u.1 := by
    rw [← hnet.path t ht, ← hnet.path u hu, Network.text_injective h]
  rw [ASMap.toEntriesFlat_false] at ht hu
  exact List.inj_on_of_nodup_map m.trie.nodup_flat ht hu hpath

include hm in
theorem voteKey_render {t : ASNEntry} (ht : t ∈ m.toEntriesFlat false) :
    voteKey (render net t) = .ok (net t).text := by
  have hpos : 0 < t.2 := by
    rw [ASMap.toEntriesFlat_false] at ht
    exact TrieNode.pos_of_mem_flat ht
  exact voteKey_text (hnet.admitted t ht) hpos (hm.asn t ht)

include hm in
/-- **An honest claim passes the gate on its entries.** -/
theorem validatedVoteKeys_honest {claim : AsmapClaim}
    (hentries : claim.entries = (m.toEntriesFlat false).map (render net)) :
    ∃ voteKeys, validatedVoteKeys claim = .ok voteKeys := by
  apply exists_validatedVoteKeys
  · rw [hentries]
    intro entry hentry
    obtain ⟨t, ht, rfl⟩ := List.mem_map.1 hentry
    exact ⟨_, voteKey_render hm hnet ht⟩
  · rw [hentries]
    intro entry hentry entry' hentry' hkey
    obtain ⟨t, ht, rfl⟩ := List.mem_map.1 hentry
    obtain ⟨u, hu, rfl⟩ := List.mem_map.1 hentry'
    rw [voteKey_render hm hnet ht, voteKey_render hm hnet hu, Except.ok.injEq] at hkey
    rw [hnet.eq_of_text_eq ht hu hkey]

include hm in
/-- An honest claim asserts the flat entries. -/
theorem asserts_honest {claim : AsmapClaim}
    (hentries : claim.entries = (m.toEntriesFlat false).map (render net)) {pfx : String} {a : ℕ} :
    claim.asserts (pfx, a) = true ↔ ∃ t ∈ m.toEntriesFlat false, (net t).text = pfx ∧ t.2 = a := by
  rw [AsmapClaim.asserts_iff, hentries]
  constructor
  · rintro ⟨entry, hentry, hcanon, hasn⟩
    obtain ⟨t, ht, rfl⟩ := List.mem_map.1 hentry
    rw [canonicalPrefix_of_voteKey (voteKey_render hm hnet ht), Option.some.injEq] at hcanon
    exact ⟨t, ht, hcanon, hasn⟩
  · rintro ⟨t, ht, rfl, rfl⟩
    exact ⟨render net t, List.mem_map.2 ⟨t, ht, rfl⟩,
      canonicalPrefix_of_voteKey (voteKey_render hm hnet ht), rfl⟩

/-! ### A round of honest claims -/

variable {e : QuorumEngine} {accepted : List AsmapClaim} (h : Tallied e accepted)
  (hhonest : ∀ c ∈ accepted, c.entries = (m.toEntriesFlat false).map (render net))
include hm h hhonest

/-- Every flat entry has the votes of all. -/
theorem votes_honest {t : ASNEntry} (ht : t ∈ m.toEntriesFlat false) :
    (poll accepted).votes (net t).text t.2 = accepted.length := by
  rw [← h.votes_eq, h.votes, List.countP_eq_length]
  intro c hc
  exact (asserts_honest hm hnet (hhonest c hc)).2 ⟨t, ht, rfl, rfl⟩

/-- Nothing else has a vote. -/
theorem exists_of_votes_honest {pfx : String} {a : ℕ} (hpos : 1 ≤ (poll accepted).votes pfx a) :
    ∃ t ∈ m.toEntriesFlat false, (net t).text = pfx ∧ t.2 = a := by
  have hcount : 0 < accepted.countP (·.asserts (pfx, a)) := by
    rwa [← h.votes, h.votes_eq]
  obtain ⟨c, hc, hass⟩ := List.countP_pos_iff.1 hcount
  exact (asserts_honest hm hnet (hhonest c hc)).1 hass

/-- **The decided networks are the flat entries.** -/
theorem decided_honest (hpos : 1 ≤ e.threshold) (hquorum : e.threshold ≤ accepted.length)
    {pfx : String} {a : ℕ} : (poll accepted).Decided e.threshold pfx a ↔
      ∃ t ∈ m.toEntriesFlat false, (net t).text = pfx ∧ t.2 = a := by
  constructor
  · exact fun hdec => exists_of_votes_honest hm hnet h hhonest hdec.pos
  · rintro ⟨t, ht, rfl, rfl⟩
    have hvotes := votes_honest hm hnet h hhonest ht
    refine ⟨by omega, by omega, fun b => ?_, fun b hb => ?_⟩
    · rw [hvotes, ← h.votes_eq, h.votes]
      exact List.countP_le_length
    · have hvoted : 1 ≤ (poll accepted).votes (net t).text b := by omega
      obtain ⟨u, hu, htext, rfl⟩ := exists_of_votes_honest hm hnet h hhonest hvoted
      rw [hnet.eq_of_text_eq hu ht htext]

/-- One entry for each flat entry. -/
theorem entries_honest (hpos : 1 ≤ e.threshold) (hquorum : e.threshold ≤ accepted.length)
    (votesOrder : IterOrder (String × ℕ) ℕ) (bestOrder : IterOrder String (ℕ × ℕ))
    (topic localPeerId : String) :
    (e.finalize votesOrder bestOrder topic localPeerId).entries.Perm
      ((m.toEntriesFlat false).map fun t => ⟨(net t).text, t.2, accepted.length⟩) := by
  have hflat : (m.toEntriesFlat false).Nodup := by
    rw [ASMap.toEntriesFlat_false]
    exact m.trie.nodup_flat.of_map
  refine (List.perm_ext_iff_of_nodup (nodup_entries ..).of_map (hflat.map_on ?_)).2 fun entry => ?_
  · intro t ht u hu heq
    exact hnet.eq_of_text_eq ht hu (congrArg ConsensusEntry.ipPrefix heq)
  · rw [mem_entries h, decided_honest hm hnet h hhonest hpos hquorum, List.mem_map]
    constructor
    · rintro ⟨⟨t, ht, htext, hasn⟩, hvotes⟩
      refine ⟨t, ht, ?_⟩
      rw [← htext, ← hasn, votes_honest hm hnet h hhonest ht] at hvotes
      rw [htext, hasn, ← hvotes]
    · rintro ⟨t, ht, rfl⟩
      exact ⟨⟨t, ht, rfl, rfl⟩, (votes_honest hm hnet h hhonest ht).symm⟩

/-- **The map is the one that was claimed.** -/
theorem map_honest (hpos : 1 ≤ e.threshold) (hquorum : e.threshold ≤ accepted.length)
    (votesOrder : IterOrder (String × ℕ) ℕ) (bestOrder : IterOrder String (ℕ × ℕ))
    (topic localPeerId : String) :
    (e.finalize votesOrder bestOrder topic localPeerId).map = m := by
  refine ASMap.updateMulti_flat hm.canonical (nodup_paths h votesOrder bestOrder) fun t => ?_
  obtain ⟨path, asn⟩ := t
  rw [mem_table h votesOrder bestOrder topic localPeerId]
  have hmem := fun entry =>
    (entries_honest hm hnet h hhonest hpos hquorum votesOrder bestOrder topic localPeerId).mem_iff
      (a := entry)
  constructor
  · rintro ⟨entry, hentry, hpath, rfl⟩
    obtain ⟨u, hu, rfl⟩ := List.mem_map.1 ((hmem entry).1 hentry)
    rw [prefixPath_text, hnet.path u hu, Option.some.injEq] at hpath
    rwa [← hpath]
  · intro ht
    refine ⟨_, (hmem _).2 (List.mem_map.2 ⟨(path, asn), ht, rfl⟩), ?_, rfl⟩
    rw [prefixPath_text, hnet.path _ ht]

end Honest

/-! ### The unanimous round -/

/-- The claim of a sender, once its entries are known. -/
def honestClaim (lib : Crates) (epoch : UInt64) (entries : List AsmapEntry) (senderId : String) :
    AsmapClaim :=
  { epoch := epoch
    senderId := senderId
    claimHash := claimHash lib epoch senderId entries
    entries := entries }

/-- The claims of the senders. -/
def honestClaims (lib : Crates) (epoch : UInt64) (entries : List AsmapEntry)
    (senders : List String) :
    List AsmapClaim :=
  senders.map (honestClaim lib epoch entries)

section Round

variable {lib : Crates} {m : ASMap} {net : ASNEntry → Network} {limits : ClaimLimits}
    {epoch : UInt64}
  {entries : List AsmapEntry} {senders : List String}

theorem mapM_asmapToClaim (hnet : Rendering m net) : senders.mapM (asmapToClaim lib m epoch) =
    .ok (honestClaims lib epoch ((m.toEntriesFlat false).map (render net)) senders) := by
  apply mapM_eq_map
  intro s _
  rw [asmapToClaim, claimEntries_eq hnet]
  rfl

theorem entries_of_mem_honestClaims {c : AsmapClaim}
    (hc : c ∈ honestClaims lib epoch entries senders) : c.entries = entries := by
  obtain ⟨s, -, rfl⟩ := List.mem_map.1 hc
  rfl

theorem length_honestClaims (lib : Crates) (epoch : UInt64) (entries : List AsmapEntry)
    (senders : List String) : (honestClaims lib epoch entries senders).length = senders.length :=
  List.length_map _

/-- Distinct senders that all have room can be heard in any order. -/
theorem replayable_honestClaims (threshold : ℕ) (hdistinct : senders.Nodup)
    (hroom : senders.length ≤ limits.maxSenders) :
    Replayable (withLimits threshold epoch limits) (honestClaims lib epoch entries senders) where
  near c hc := by
    obtain ⟨s, -, rfl⟩ := List.mem_map.1 hc
    exact Nat.le_add_right _ _
  distinct := by
    rw [honestClaims, List.map_map]
    exact hdistinct.map fun s s' heq => congrArg Prod.fst heq
  room ep := by
    refine (List.toFinset_card_le _).trans ?_
    rw [List.length_map]
    refine (List.length_filter_le _ _).trans ?_
    rw [length_honestClaims]
    exact hroom.trans ((Nat.le_max_left _ _).trans (Nat.le_max_left _ _))

/-- **An honest claim trips no gate** that looks at the claim alone. -/
theorem passes_honest (hm : Claimable m) (hnet : Rendering m net)
    (hmin : limits.minEntries ≤ (m.toEntriesFlat false).length)
    (hmax : (m.toEntriesFlat false).length ≤ limits.maxEntries) (threshold : ℕ)
    (hepoch : epoch ≤ limits.maxEpoch) {sender : String} (hpeer : lib.IsPeerIdText sender)
    (hlen : sender.utf8ByteSize ≤ limits.maxSenderIdLen) :
    passes lib (withLimits threshold epoch limits)
      (honestClaim lib epoch ((m.toEntriesFlat false).map (render net)) sender) = true := by
  obtain ⟨source, hparse, hsource⟩ := hpeer
  have hentries : (honestClaim lib epoch ((m.toEntriesFlat false).map (render net))
    sender).entries =
      (m.toEntriesFlat false).map (render net) := rfl
  obtain ⟨voteKeys, hkeys⟩ := validatedVoteKeys_honest hm hnet hentries
  obtain ⟨hsize, hhex⟩ := claimHash_shape lib epoch sender
    ((m.toEntriesFlat false).map (render net))
  have hceiling : ¬epoch > (withLimits threshold epoch limits).limits.maxEpoch := by
    have hle : limits.maxEpoch ≤ (withLimits threshold epoch limits).limits.maxEpoch :=
      le_max_left _ _
    grind
  have hcount : ((m.toEntriesFlat false).map (render net)).length =
      (m.toEntriesFlat false).length :=
    List.length_map _
  exact passes_iff.2 ⟨source, voteKeys, hparse, shapeViolation_eq_none.2
    ⟨hlen, ⟨hsize, hhex⟩, hcount ▸ hmin, hcount ▸ hmax, hceiling⟩, hsource.symm, rfl, hkeys⟩

end Round

/-- **A unanimous round reproduces the map.** -/
theorem unanimous {lib : Crates} {m : ASMap} (hm : m.Reachable) (hdepth : m.trie.depth ≤ 128)
    (hasn : ∀ t ∈ m.toEntriesFlat false, t.2 ≤ asnMax)
    (hclear : ∀ t ∈ m.toEntriesFlat false, ¬t.1 <+: mappedPath) {limits : ClaimLimits}
    (hmin : max 1 limits.minEntries ≤ (m.toEntriesFlat false).length)
    (hmax : (m.toEntriesFlat false).length ≤ limits.maxEntries) {threshold : ℕ}
    (hpos : 1 ≤ threshold) {epoch : UInt64} (hepoch : epoch ≤ limits.maxEpoch)
    {senders : List String} (hpeer : ∀ s ∈ senders, lib.IsPeerIdText s) (hdistinct : senders.Nodup)
    (hlen : ∀ s ∈ senders, s.utf8ByteSize ≤ limits.maxSenderIdLen)
    (hquorum : threshold ≤ senders.length) (hroom : senders.length ≤ limits.maxSenders)
    (votesOrder : IterOrder (String × ℕ) ℕ) (bestOrder : IterOrder String (ℕ × ℕ))
    (topic localPeerId : String) :
    ∃ claims, senders.mapM (asmapToClaim lib m epoch) = .ok claims ∧
      let engine := withLimits threshold epoch limits
      let artifact := (replay lib engine claims).finalize votesOrder bestOrder topic localPeerId
      (∀ before c after, claims = before ++ c :: after →
        ∃ quorum, ((replay lib engine before).processClaim lib c).2 = .accepted quorum) ∧
      artifact.rejectedClaims = ∅ ∧ artifact.map = m ∧
      (artifact.entries.map fun x => (prefixPath x.ipPrefix, x.asn, x.votes)).Perm
        ((m.toEntriesFlat false).map fun t => (some t.1, t.2, senders.length)) := by
  have hclaimable : Claimable m := ⟨hm.canonical, hdepth, hasn, hclear⟩
  obtain ⟨net, hnet⟩ := hclaimable.exists_rendering
  refine ⟨_, mapM_asmapToClaim hnet, ?_⟩
  intro engine artifact
  have hstart : Tallied engine [] :=
    .nil (withLimits_maxSenders_pos threshold epoch limits) rfl rfl rfl
  have hrep : Replayable engine
      (honestClaims lib epoch ((m.toEntriesFlat false).map (render net)) senders) :=
    replayable_honestClaims threshold hdistinct hroom
  have hall : ∀ c ∈ honestClaims lib epoch ((m.toEntriesFlat false).map (render net)) senders,
      passes lib engine c = true ∧ c.epoch = engine.epoch := by
    intro c hc
    obtain ⟨s, hs, rfl⟩ := List.mem_map.1 hc
    exact ⟨passes_honest hclaimable hnet ((Nat.le_max_right _ _).trans hmin) hmax threshold hepoch
      (hpeer s hs) (hlen s hs), rfl⟩
  have hreplayed : Replayed lib engine _
      (replay lib engine (honestClaims lib epoch ((m.toEntriesFlat false).map (render net))
        senders)) :=
    replayed hstart _ hrep
  have htallied := hreplayed.tallied_all hall
  have hhonest : ∀ c ∈ honestClaims lib epoch ((m.toEntriesFlat false).map (render net)) senders,
      c.entries = (m.toEntriesFlat false).map (render net) := fun c => entries_of_mem_honestClaims
  have hthreshold : (replay lib engine (honestClaims lib epoch
      ((m.toEntriesFlat false).map (render net)) senders)).threshold = threshold :=
        hreplayed.threshold
  have hcount := length_honestClaims lib epoch ((m.toEntriesFlat false).map (render net)) senders
  refine ⟨fun before c after hsplit => ?_, rejectedClaims_replay hall hstart hrep, ?_, ?_⟩
  · obtain ⟨quorum, -, hverdict, -⟩ := accepted_of_passes hall hstart hrep hsplit
    exact ⟨quorum, hverdict⟩
  · exact map_honest hclaimable hnet htallied hhonest (by omega)
      (by omega) votesOrder bestOrder topic
      localPeerId
  · have hperm := entries_honest hclaimable hnet htallied hhonest (by omega) (by omega) votesOrder
      bestOrder topic localPeerId
    refine (hperm.map _).trans (List.Perm.of_eq ?_)
    rw [List.map_map]
    apply List.map_congr_left
    intro t ht
    show (prefixPath (net t).text, t.2, _) = _
    rw [prefixPath_text, hnet.path t ht, hcount]

/-- Two peers and one network of each family. -/
theorem unanimous_two_networks :
    let m := ASMap.new.updateMulti
      [(mappedPath ++ bigEndian 8 1, 64500), (bigEndian 32 0x20010db8, 64501)]
    ∃ claims, [knownPeerText false, knownPeerText true].mapM (asmapToClaim knownCrates m 7) =
      .ok claims ∧
      ((replay knownCrates (withLimits 2 7 default) claims).finalize .newestFirst .newestFirst
        "asmap" "observer").map = m := by
  intro m
  have hpeer : ∀ s ∈ [knownPeerText false, knownPeerText true], knownCrates.IsPeerIdText s := by
    intro s hs
    rcases List.mem_cons.1 hs with rfl | hs
    · exact ⟨false, by decide +kernel, rfl⟩
    · rw [List.mem_singleton.1 hs]
      exact ⟨true, by decide +kernel, rfl⟩
  have hlen : ∀ s ∈ [knownPeerText false, knownPeerText true],
      s.utf8ByteSize ≤ (default : ClaimLimits).maxSenderIdLen := by decide +kernel
  have hepoch : (7 : UInt64) ≤ (default : ClaimLimits).maxEpoch := by decide
  have hmap : m.Reachable := .updateMulti .new _
  obtain ⟨claims, hclaims, -, -, hmap, -⟩ := unanimous hmap (by decide +kernel) (by decide +kernel)
    (by decide +kernel) (by decide +kernel) (by decide +kernel) (by decide) hepoch hpeer
    (by decide +kernel) hlen Nat.le.refl (by decide +kernel) .newestFirst .newestFirst "asmap"
    "observer"
  exact ⟨claims, hclaims, hmap⟩

end AsmapQuorum

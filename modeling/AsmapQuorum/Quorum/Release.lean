import AsmapQuorum.Quorum.Report
import AsmapQuorum.Quorum.Unanimous
import AsmapQuorum.Quorum.Written

/-!
# Releasing a map

`import` turns snapshot files into claims, and `replay` turns claims into a map and its report.

* `seedMaterial_injective` — snapshots at different places have different sender keys, whatever
  their names.
* `runImport`, `runReplay` — the two commands; `Batch` — an import whose snapshots can all be
  claimed.
* `Batch.tallied` — every claim of a batch is accepted.
* `release_spec` — **the released map is a vote of the snapshots**: a network has an ASN in it
  exactly if the threshold of the snapshots have it, no ASN has more of them, and it is the least of
  those with as many.
* `release_perm` — hence the order of the files, their names and those of the senders are immaterial
  to the map.
* `replay_served` — **whoever replays the claims of an artifact** that the serve loop wrote gets
  that artifact's entries and map, in any order of the claims.
-/

namespace AsmapQuorum

open FiniteMap PrefixOverwrite QuorumEngine Reading

/-! ### The senders of snapshots -/

/-- `Path::file_name`: the last component, unless it leads up. -/
def fileName (path : List Char) : Option (List Char) :=
  match ((path.splitOn '/').filter fun c => c ≠ [] ∧ c ≠ ['.']).getLast? with
  | some c => if c = ['.', '.'] then none else some c
  | none => none

/-- `Path::file_stem`: the file name before its last dot, if anything stands there. -/
def fileStem (path : String) : Option String :=
  (fileName path.toList).map fun name =>
    let before := (name.rdropWhile (· ≠ '.')).dropLast
    .ofList (if before = [] then name else before)

/-- What the key of a snapshot's sender is made of. -/
def seedMaterial (senderPrefix path : String) (idx : ℕ) : String :=
  senderPrefix ++ ":" ++ (fileStem path).getD "snapshot" ++ ":" ++ .ofList (Nat.toDigits 10 idx)

/-- **The place of a snapshot can be read off its seed.** -/
theorem seedMaterial_injective {senderPrefix senderPrefix' path path' : String} {idx idx' : ℕ}
    (h : seedMaterial senderPrefix path idx = seedMaterial senderPrefix' path' idx') :
    idx = idx' := by
  have hdigits : ∀ n, ':' ∉ (Nat.toDigits 10 n).reverse := by
    intro n hmem
    exact IpAddr.notMem_toDigits (by decide) n (List.mem_reverse.1 hmem)
  have hback := congrArg (fun s : String => s.toList.reverse) h
  simp only [seedMaterial, String.toList_append, String.toList_ofList, List.reverse_append,
    List.append_assoc]
    at hback
  have hsame := (Text.append_sep_inj (hdigits idx) (hdigits idx') hback).1
  exact Numeral.toDigits_injective (List.reverse_inj.1 hsame)

/-- Libp2p's ed25519 keys: the peer identity of a key, from its seed. -/
structure Keys (lib : Crates) where
  peerIdOfSeed : Vector UInt8 32 → Except String lib.PeerId

variable {lib : Crates}

/-- The sender that goes with a seed. -/
def Keys.senderId (keys : Keys lib) (material : String) : Except String String :=
  match keys.peerIdOfSeed (lib.sha256 (utf8Bytes material)) with
  | .ok peer => .ok (lib.peerIdText peer)
  | .error err => .error ("failed to derive sender keypair: " ++ err)

def snapshotSenderId (keys : Keys lib) (senderPrefix path : String) (idx : ℕ) :
    Except String String :=
  keys.senderId (seedMaterial senderPrefix path idx)

/-! ### Importing -/

/-- A snapshot file. -/
structure Snapshot where
  path : String
  contents : List UInt8

def Snapshot.load (s : Snapshot) : Except LoadError ASMap := loadFile s.contents s.path

structure ImportConfig where
  epoch : UInt64
  senderPrefix : String

inductive ImportError where
  | load (e : LoadError)
  | sender (message : String)
  /-- Not an error of the source: `asmap_to_claim` aborted. -/
  | aborted (p : Panic)
  deriving DecidableEq, Repr

section Import

variable (keys : Keys lib) (cfg : ImportConfig)

/-- The claim of one snapshot, at its place among the inputs. -/
def importSnapshot (input : Snapshot × ℕ) : Except ImportError AsmapClaim := do
  let state ← input.1.load.mapError .load
  let senderId ← (snapshotSenderId keys cfg.senderPrefix input.1.path input.2).mapError .sender
  (asmapToClaim lib state cfg.epoch senderId).mapError .aborted

/-- `run_import` on the files it is given; the claims that it writes. -/
def runImport (inputs : List Snapshot) : Except ImportError (List AsmapClaim) :=
  inputs.zipIdx.mapM (importSnapshot keys cfg)

end Import

theorem mapError_eq_ok {ε ε' α : Type} {f : ε → ε'} {x : Except ε α} {a : α} :
    x.mapError f = .ok a ↔ x = .ok a := by
  cases x with
  | error e => exact ⟨nofun, nofun⟩
  | ok b => simp [Except.mapError]

theorem importSnapshot_eq_ok {keys : Keys lib} {cfg : ImportConfig} {input : Snapshot × ℕ}
    {c : AsmapClaim} :
    importSnapshot keys cfg input = .ok c ↔ ∃ state senderId, input.1.load = .ok state ∧
      keys.senderId (seedMaterial cfg.senderPrefix input.1.path input.2) = .ok senderId ∧
        asmapToClaim lib state cfg.epoch senderId = .ok c := by
  simp only [importSnapshot, bind_eq_ok, mapError_eq_ok, snapshotSenderId, exists_and_left]

/-! ### Replaying -/

structure ReplayConfig where
  threshold : ℕ
  epoch : Option UInt64
  topic : String
  localPeerId : String
  report : String

/-- The two files that `replay` writes: the report, with the map it is about, and the encoded
map. -/
structure Release where
  artifact : ConsensusArtifact
  map : List UInt8

inductive ReplayError where
  | bail (message : String)
  /-- Not an error of the source: `to_binary` aborted. -/
  | aborted (p : Panic)
  deriving DecidableEq, Repr

/-- What was written, and whether the command succeeds. -/
structure ReplayOutcome where
  written : Option Release
  result : Except ReplayError Unit

def ceilingMessage (cfg : ReplayConfig) (epoch maxEpoch : UInt64) : String :=
  "starting epoch " ++ toString epoch ++ " is above the absolute ceiling " ++ toString maxEpoch ++
    " (" ++
    (if cfg.epoch.isSome then "from --epoch" else "read from the first claim in the file") ++
    "); refusing to replay"

/-- The rejections, by reason. -/
def rejectionBreakdown (artifact : ConsensusArtifact) : String :=
  if artifact.rejectedClaims.entries.isEmpty then
    "no claims were rejected, so no prefix reached the threshold"
  else
    ", ".intercalate
      (((artifact.rejectedClaims.entries.map fun e => (e.1, e.2)).insertionSort fun a b =>
        a.1 ≤ b.1).map fun e => e.1 ++ "=" ++ toString e.2)

def emptyMapMessage (cfg : ReplayConfig) (claimCount : ℕ) (artifact : ConsensusArtifact) : String :=
  "replay produced an empty consensus map at epoch " ++ toString artifact.epoch ++ " from " ++
    toString claimCount ++ " claims (" ++ toString artifact.acceptedClaims ++ " accepted, " ++
    toString (artifact.rejectedClaims.entries.map fun e => e.2).sum ++ " rejected: " ++
    rejectionBreakdown artifact ++ "); see " ++ cfg.report ++
    " for the full ledger. Refusing to report success on an unpublishable map"

/-- `run_replay` on the claims of its file, with the orders in which `finalize` visits its hash
maps. -/
def runReplay (lib : Crates) (cfg : ReplayConfig) (votesOrder : IterOrder (String × ℕ) ℕ)
    (bestOrder : IterOrder String (ℕ × ℕ)) (claims : List AsmapClaim) : ReplayOutcome :=
  match claims with
  | [] => ⟨none, .error (.bail "replay input contains no claims")⟩
  | first :: _ =>
    let limits : ClaimLimits := default
    let epoch := cfg.epoch.getD first.epoch
    if epoch > limits.maxEpoch then
      ⟨none, .error (.bail (ceilingMessage cfg epoch limits.maxEpoch))⟩
    else
      let engine := replay lib (withLimits cfg.threshold epoch limits) claims
      let artifact := engine.finalize votesOrder bestOrder cfg.topic cfg.localPeerId
      match saveBinary artifact.map false with
      | .error p => ⟨none, .error (.aborted p)⟩
      | .ok map =>
        ⟨some ⟨artifact, map⟩,
          if artifact.entries.isEmpty then
            .error (.bail (emptyMapMessage cfg claims.length artifact))
          else .ok ()⟩

/-- **What a replay from a known epoch comes to.** -/
theorem runReplay_eq {cfg : ReplayConfig} {epoch : UInt64} (hepoch : epoch ≤ epochAbsoluteMax)
    {claims : List AsmapClaim} (hne : claims ≠ []) (hclaims : ∀ c ∈ claims, c.epoch = epoch)
    (hstart : cfg.epoch = none ∨ cfg.epoch = some epoch) (votesOrder : IterOrder (String × ℕ) ℕ)
    (bestOrder : IterOrder String (ℕ × ℕ)) :
    let artifact := (replay lib (withLimits cfg.threshold epoch default) claims).finalize votesOrder
      bestOrder
      cfg.topic cfg.localPeerId
    runReplay lib cfg votesOrder bestOrder claims =
      match saveBinary artifact.map false with
      | .error p => ⟨none, .error (.aborted p)⟩
      | .ok map =>
        ⟨some ⟨artifact, map⟩,
          if artifact.entries.isEmpty then
            .error (.bail (emptyMapMessage cfg claims.length artifact))
          else .ok ()⟩ := by
  obtain ⟨first, rest, rfl⟩ := List.exists_cons_of_ne_nil hne
  have hgetD : cfg.epoch.getD first.epoch = epoch := by
    rcases hstart with h | h
    · rw [h]
      exact hclaims first (List.mem_cons_self ..)
    · rw [h]
      rfl
  have hceiling : ¬epoch > (default : ClaimLimits).maxEpoch := UInt64.not_lt.2 hepoch
  intro artifact
  show (if cfg.epoch.getD first.epoch > (default : ClaimLimits).maxEpoch then _ else _) = _
  rw [hgetD, if_neg hceiling]

/-- **A replay of one round**: claims of one epoch that pass, with distinct senders and room for
all, are all on the books, and nothing is rejected. -/
theorem tallied_round {threshold : ℕ} {epoch : UInt64} {claims : List AsmapClaim}
    (hall : ∀ c ∈ claims, passes lib (withLimits threshold epoch default) c = true ∧
      c.epoch = epoch)
    (hsenders : (claims.map AsmapClaim.senderId).Nodup)
    (hroom : claims.length ≤ max (max (default : ClaimLimits).maxSenders threshold) 1) :
    let e := replay lib (withLimits threshold epoch default) claims
    Tallied e claims ∧ e.threshold = threshold ∧ e.epoch = epoch ∧ e.rejectedClaims = ∅ := by
  intro e
  have hrep : Replayable (withLimits threshold epoch default) claims := by
    refine ⟨fun c hc => ?_, ?_, fun ep => ?_⟩
    · rw [(hall c hc).2]
      exact Nat.le_add_right _ _
    · refine List.Nodup.of_map Prod.fst ?_
      rw [List.map_map]
      exact hsenders
    · refine (List.toFinset_card_le _).trans ?_
      rw [List.length_map]
      exact (List.length_filter_le _ _).trans hroom
  have hstart : Tallied (withLimits threshold epoch default) [] :=
    .nil (withLimits_maxSenders_pos threshold epoch default) rfl rfl rfl
  have hreplayed : Replayed lib (withLimits threshold epoch default) claims e :=
    replayed hstart claims hrep
  exact ⟨hreplayed.tallied_all hall, hreplayed.threshold, hreplayed.epoch_eq hall,
    rejectedClaims_replay hall hstart hrep⟩

/-! ### What snapshots vote for -/

/-- The map of the snapshot has the network with this ASN. -/
def Snapshot.assigns (s : Snapshot) (path : List Bool) (asn : ℕ) : Bool :=
  match s.load with
  | .ok state => (path, asn) ∈ state.toEntriesFlat false
  | .error _ => false

/-- The number of snapshots that say so. -/
def support (inputs : List Snapshot) (path : List Bool) (asn : ℕ) : ℕ :=
  inputs.countP (·.assigns path asn)

/-- The ASN that the snapshots give the network: said by the threshold of them, none by more, and
the least of those said by as many. -/
structure Elected (threshold : ℕ) (inputs : List Snapshot) (path : List Bool) (asn : ℕ) : Prop where
  pos : 1 ≤ support inputs path asn
  quorum : threshold ≤ support inputs path asn
  best : ∀ b, support inputs path b ≤ support inputs path asn
  least : ∀ b, support inputs path b = support inputs path asn → asn ≤ b

/-- The name of a snapshot says nothing about its map. -/
theorem Snapshot.assigns_eq (s : Snapshot) (name : String) (path : List Bool) (asn : ℕ) :
    s.assigns path asn = (⟨name, s.contents⟩ : Snapshot).assigns path asn := by
  have hload : ∀ m, s.load = .ok m ↔ (⟨name, s.contents⟩ : Snapshot).load = .ok m :=
    fun m => loadFile_eq_ok.trans loadFile_eq_ok.symm
  rw [assigns, assigns]
  cases h : s.load with
  | ok m => rw [(hload m).1 h]
  | error e =>
    cases h' : (⟨name, s.contents⟩ : Snapshot).load with
    | ok m =>
      rw [(hload m).2 h'] at h
      cases h
    | error e' => rfl

theorem support_eq (inputs : List Snapshot) (path : List Bool) (asn : ℕ) :
    support inputs path asn = (inputs.map Snapshot.contents).countP fun contents =>
      (⟨"", contents⟩ : Snapshot).assigns path asn := by
  rw [support, List.countP_map]
  exact List.countP_congr fun s _ => iff_of_eq (congrArg (· = true) (s.assigns_eq "" path asn))

theorem support_perm {inputs inputs' : List Snapshot}
    (h : (inputs.map Snapshot.contents).Perm (inputs'.map Snapshot.contents)) (path : List Bool)
    (asn : ℕ) : support inputs path asn = support inputs' path asn := by
  rw [support_eq, support_eq, h.countP_eq]

/-- A claim over a map asserts of an admitted network what the map has for it. -/
theorem asserts_text_iff {m : ASMap} (hm : Claimable m) {epoch : UInt64} {senderId : String}
    {c : AsmapClaim} (hc : asmapToClaim lib m epoch senderId = .ok c) {N : Network}
    (hN : N.Admitted) {a : ℕ} :
    c.asserts (N.text, a) = true ↔ (N.path, a) ∈ m.toEntriesFlat false := by
  obtain ⟨net, hnet⟩ := hm.exists_rendering
  rw [asmapToClaim, claimEntries_eq hnet] at hc
  obtain rfl := Except.ok.inj hc
  rw [asserts_honest hm hnet rfl]
  constructor
  · rintro ⟨t, ht, htext, rfl⟩
    rw [← Network.text_injective htext, hnet.path t ht]
    exact ht
  · intro ht
    have hpath := hnet.path _ ht
    exact ⟨_, ht, congrArg Network.text (Network.path_injective (hnet.admitted _ ht) hN hpath), rfl⟩

/-- Two lists whose members correspond have as many members that pass. -/
theorem countP_of_forall₂ {α β : Type*} {R : α → β → Prop} {p : α → Bool} {q : β → Bool}
    {L : List α} {M : List β} (h : List.Forall₂ R L M) (hR : ∀ a ∈ L, ∀ b, R a b → p a = q b) :
    L.countP p = M.countP q := by
  induction h with
  | nil => rfl
  | @cons a b L M hab _ ih =>
    rw [List.countP_cons, List.countP_cons, hR a (List.mem_cons_self ..) b hab,
      ih fun a ha => hR a (List.mem_cons_of_mem _ ha)]

/-! ### A batch of snapshots -/

/-- An import of snapshots that can all be claimed, in a round that has room for them.  No two of
their seeds lead to one sender. -/
structure Batch (keys : Keys lib) (cfg : ImportConfig) (inputs : List Snapshot)
    (claims : List AsmapClaim) :
    Prop where
  imported : runImport keys cfg inputs = .ok claims
  claimable : ∀ s ∈ inputs, ∀ m, s.load = .ok m → Claimable m ∧
    (default : ClaimLimits).minEntries ≤ (m.toEntriesFlat false).length ∧
      (m.toEntriesFlat false).length ≤ (default : ClaimLimits).maxEntries
  senders : Set.InjOn keys.senderId {material | ∃ input ∈ inputs.zipIdx,
    material = seedMaterial cfg.senderPrefix input.1.path input.2}
  room : inputs.length ≤ (default : ClaimLimits).maxSenders
  epoch_le : cfg.epoch ≤ epochAbsoluteMax

/-- What is relied on of libp2p's peer identities: the text of one is short, and is read as it. -/
structure Crates.PeerTexts (lib : Crates) : Prop where
  parse : ∀ peer, lib.parsePeerId (lib.peerIdText peer) = some peer
  size : ∀ peer, (lib.peerIdText peer).utf8ByteSize ≤ (default : ClaimLimits).maxSenderIdLen

namespace Batch

variable {keys : Keys lib} {cfg : ImportConfig} {inputs : List Snapshot} {claims : List AsmapClaim}
  (h : Batch keys cfg inputs claims)
include h

theorem forall₂ : List.Forall₂ (fun input c => importSnapshot keys cfg input = .ok c) inputs.zipIdx
    claims :=
  mapM_eq_ok.1 h.imported

theorem length_eq : claims.length = inputs.length := by
  rw [← h.forall₂.length_eq, List.length_zipIdx]

/-- A claim is over the map of the snapshot at its place, from the sender of that place. -/
theorem snapshot_at (k : ℕ) (hk : k < claims.length) : ∃ input ∈ inputs.zipIdx, input.2 = k ∧
    ∃ state, input.1.load = .ok state ∧
      keys.senderId (seedMaterial cfg.senderPrefix input.1.path input.2) = .ok claims[k].senderId ∧
        asmapToClaim lib state cfg.epoch claims[k].senderId = .ok claims[k] := by
  have hk' : k < inputs.zipIdx.length := h.forall₂.length_eq.symm ▸ hk
  have himport : importSnapshot keys cfg inputs.zipIdx[k] = .ok claims[k] := h.forall₂.get hk' hk
  obtain ⟨state, senderId, hload, hsender, hclaim⟩ := importSnapshot_eq_ok.1 himport
  have hname : senderId = claims[k].senderId := by
    obtain ⟨entries, -, hc⟩ := bind_eq_ok.1 hclaim
    rw [← Except.ok.inj hc]
  have hidx : inputs.zipIdx[k].2 = k := by
    rw [List.getElem_zipIdx, Nat.zero_add]
  exact ⟨_, List.getElem_mem hk', hidx, state, hload, hname ▸ hsender, hname ▸ hclaim⟩

/-- **Every claim passes the gates** that look at it alone. -/
theorem passes (hlib : lib.PeerTexts) (threshold : ℕ) {c : AsmapClaim} (hc : c ∈ claims) :
    passes lib (withLimits threshold cfg.epoch default) c = true ∧ c.epoch = cfg.epoch := by
  obtain ⟨k, hk, rfl⟩ := List.getElem_of_mem hc
  obtain ⟨input, hinput, -, state, hload, hsender, hclaim⟩ := h.snapshot_at k hk
  obtain ⟨hstate, hmin, hmax⟩ := h.claimable input.1 (List.fst_mem_of_mem_zipIdx hinput) state hload
  obtain ⟨net, hnet⟩ := hstate.exists_rendering
  rw [asmapToClaim, claimEntries_eq hnet] at hclaim
  have hhonest : claims[k] =
      honestClaim lib cfg.epoch ((state.toEntriesFlat false).map (render net)) claims[k].senderId :=
    (Except.ok.inj hclaim).symm
  obtain ⟨peer, hpeer⟩ : ∃ peer, lib.peerIdText peer = claims[k].senderId := by
    unfold Keys.senderId at hsender
    split at hsender
    · next peer _ => exact ⟨peer, Except.ok.inj hsender⟩
    · cases hsender
  rw [hhonest]
  exact ⟨passes_honest hstate hnet hmin hmax threshold h.epoch_le ⟨peer, hpeer ▸ hlib.parse peer,
    hpeer⟩ (hpeer ▸ hlib.size peer), rfl⟩

/-- **No two claims have one sender.** -/
theorem nodup_senders : (claims.map AsmapClaim.senderId).Nodup := by
  rw [List.Nodup, List.pairwise_map, List.pairwise_iff_getElem]
  intro i j hi hj hij heq
  obtain ⟨input, hinput, hidx, -, -, hsender, -⟩ := h.snapshot_at i hi
  obtain ⟨input', hinput', hidx', -, -, hsender', -⟩ := h.snapshot_at j hj
  have hseed := h.senders ⟨input, hinput, rfl⟩ ⟨input', hinput', rfl⟩
    (hsender.trans (heq ▸ hsender'.symm))
  have hplace := seedMaterial_injective hseed
  omega

/-- **A replay of a batch has all its claims on the books**, and nothing is rejected. -/
theorem tallied (threshold : ℕ) (hlib : lib.PeerTexts) :
    let e := replay lib (withLimits threshold cfg.epoch default) claims
    Tallied e claims ∧ e.threshold = threshold ∧ e.epoch = cfg.epoch ∧ e.rejectedClaims = ∅ := by
  have hroom : claims.length ≤ (default : ClaimLimits).maxSenders := h.length_eq ▸ h.room
  exact tallied_round (fun c hc => h.passes hlib threshold hc) h.nodup_senders
    (hroom.trans ((Nat.le_max_left _ _).trans (Nat.le_max_left _ _)))

/-- **The votes of a batch are those of its snapshots.** -/
theorem votes_text {e : QuorumEngine} (htallied : Tallied e claims) {N : Network} (hN : N.Admitted)
    (a : ℕ) :
    (poll claims).votes N.text a = support inputs N.path a := by
  rw [← htallied.votes_eq, htallied.votes, support]
  conv_rhs => rw [← List.zipIdx_map_fst 0 inputs, List.countP_map]
  refine (countP_of_forall₂ h.forall₂ fun input hinput c hc => ?_).symm
  obtain ⟨state, senderId, hload, -, hclaim⟩ := importSnapshot_eq_ok.1 hc
  have hstate := (h.claimable input.1 (List.fst_mem_of_mem_zipIdx hinput) state hload).1
  rw [Bool.eq_iff_iff, asserts_text_iff hstate hclaim hN]
  show input.1.assigns N.path a = true ↔ _
  rw [Snapshot.assigns, hload, decide_eq_true_eq]

theorem decided_text {e : QuorumEngine} (htallied : Tallied e claims) (threshold : ℕ) {N : Network}
    (hN : N.Admitted) {a : ℕ} :
    (poll claims).Decided threshold N.text a ↔ Elected threshold inputs N.path a := by
  have hvotes := h.votes_text htallied hN
  constructor
  · intro hdec
    exact ⟨hvotes a ▸ hdec.pos, hvotes a ▸ hdec.quorum, fun b => hvotes a ▸ hvotes b ▸ hdec.best b,
      fun b hb => hdec.least b (by rwa [hvotes, hvotes])⟩
  · intro helected
    refine ⟨?_, ?_, fun b => ?_, fun b hb => helected.least b (by rwa [hvotes, hvotes] at hb)⟩
    · rw [hvotes]
      exact helected.pos
    · rw [hvotes]
      exact helected.quorum
    · rw [hvotes, hvotes]
      exact helected.best b

/-- What snapshots support is the path of a network that can be claimed. -/
theorem exists_network {path : List Bool} {a : ℕ} (hpos : 1 ≤ support inputs path a) :
    ∃ N : Network, N.Admitted ∧ N.path = path := by
  obtain ⟨s, hs, hsays⟩ := List.countP_pos_iff.1 hpos
  unfold Snapshot.assigns at hsays
  split at hsays
  · next state hload =>
    rw [decide_eq_true_eq] at hsays
    obtain ⟨net, hnet⟩ := (h.claimable s hs state hload).1.exists_rendering
    exact ⟨_, hnet.admitted _ hsays, hnet.path _ hsays⟩
  · cases hsays

/-- **The entries of a batch** are the elected networks, with the number of snapshots for each. -/
theorem mem_finalize_entries {e : QuorumEngine} (htallied : Tallied e claims)
    {votesOrder : IterOrder (String × ℕ) ℕ} {bestOrder : IterOrder String (ℕ × ℕ)}
    {topic localPeerId : String} {entry : ConsensusEntry} :
    entry ∈ (e.finalize votesOrder bestOrder topic localPeerId).entries ↔ ∃ N : Network,
      N.Admitted ∧ entry.ipPrefix = N.text ∧ Elected e.threshold inputs N.path entry.asn ∧
      entry.votes = support inputs N.path entry.asn := by
  rw [mem_entries htallied]
  constructor
  · rintro ⟨hdec, hvotes⟩
    obtain ⟨N, hN, htext, -⟩ := htallied.network hdec.pos
    rw [htext] at hdec hvotes
    exact ⟨N, hN, htext, (h.decided_text htallied _ hN).1 hdec,
      hvotes.trans (h.votes_text htallied hN _)⟩
  · rintro ⟨N, hN, htext, helected, hvotes⟩
    rw [htext]
    exact ⟨(h.decided_text htallied _ hN).2 helected,
      hvotes.trans (h.votes_text htallied hN _).symm⟩

/-- Batches of the same contents differ in their senders only. -/
theorem votes_perm {keys' : Keys lib} {cfg' : ImportConfig} {inputs' : List Snapshot}
    {claims' : List AsmapClaim} (h' : Batch keys' cfg' inputs' claims') {e e' : QuorumEngine}
    (htallied : Tallied e claims) (htallied' : Tallied e' claims')
    (hperm : (inputs.map Snapshot.contents).Perm (inputs'.map Snapshot.contents)) (pfx : String)
    (a : ℕ) : (poll claims).votes pfx a = (poll claims').votes pfx a := by
  by_cases hnetwork : ∃ N : Network, N.Admitted ∧ pfx = N.text
  · obtain ⟨N, hN, rfl⟩ := hnetwork
    rw [h.votes_text htallied hN, h'.votes_text htallied' hN, support_perm hperm]
  · -- what is no network has no votes in either of them
    have hnone : ∀ {e : QuorumEngine} {accepted : List AsmapClaim}, Tallied e accepted →
        (poll accepted).votes pfx a = 0 := by
      intro e accepted hbooks
      by_contra hpos
      obtain ⟨N, hN, htext, -⟩ := hbooks.network (Nat.one_le_iff_ne_zero.2 hpos)
      exact hnetwork ⟨N, hN, htext⟩
    rw [hnone htallied, hnone htallied']

end Batch

/-! ### Two known snapshots -/

/-- Two snapshot files that have one network in common. -/
def knownSnapshot (second : Bool) : Snapshot where
  path := if second then "data/b.txt" else "data/a.txt"
  contents := utf8Bytes (if second then
    "1.0.0.0/8 AS64500\n2000::/3 AS1\n" else "1.0.0.0/8 AS64500\n")

/-- What is hashed for a snapshot and for its claim of epoch 7, with the hashes and the sender. -/
structure KnownSender where
  material : String
  seed : Vector UInt8 32
  sender : String
  hashed : String
  hash : Vector UInt8 32

/-- Either file in either place. -/
def knownSenders : List KnownSender :=
  [
    { material := "snapshot:a:0"
      seed := ⟨#[199, 133, 57, 150, 89, 54, 252, 191, 21, 112, 73, 41, 139, 196, 89, 166, 45, 218,
          1, 203, 26, 187, 66, 220, 208, 74, 214, 70, 159, 209, 72, 28], rfl⟩
      sender := "12D3KooWFiU48VQneADdwtGEYg2cZsSW3cZdwZegLPUEuoKo2QL2"
      hashed :=
        "epoch=7\nsender=12D3KooWFiU48VQneADdwtGEYg2cZsSW3cZdwZegLPUEuoKo2QL2\n1.0.0.0/8|64500\n"
      hash := ⟨#[101, 115, 39, 166, 141, 38, 91, 81, 253, 105, 245, 151, 131, 140, 45, 168, 46, 93,
          4, 8, 138, 33, 228, 130, 72, 16, 89, 184, 31, 126, 82, 74], rfl⟩ },
    { material := "snapshot:b:1"
      seed := ⟨#[136, 167, 87, 77, 128, 118, 81, 1, 207, 226, 12, 160, 124, 25, 11, 211, 50, 84,
          119, 11, 73, 150, 24, 12, 224, 105, 231, 22, 253, 148, 126, 136], rfl⟩
      sender := "12D3KooWCH2YPEzHfuk8WXS48ognuNPSvH8mVncvYPRFgeFP1jHT"
      hashed :=
        "epoch=7\nsender=12D3KooWCH2YPEzHfuk8WXS48ognuNPSvH8mVncvYPRFgeFP1jHT\n" ++
          "1.0.0.0/8|64500\n2000::/3|1\n"
      hash := ⟨#[185, 158, 35, 224, 253, 72, 35, 108, 109, 46, 129, 198, 36, 187, 230, 232, 189,
          193, 150, 132, 39, 190, 54, 191, 238, 164, 206, 231, 81, 95, 47, 207], rfl⟩ },
    { material := "snapshot:b:0"
      seed := ⟨#[151, 154, 170, 60, 5, 158, 69, 135, 162, 137, 12, 216, 17, 230, 9, 28, 67, 81, 88,
          38, 216, 13, 255, 209, 93, 185, 53, 13, 174, 165, 95, 227], rfl⟩
      sender := "12D3KooWML9cjSDtqu5EBTk9wqXue2jvrMvi3fj4CQDRZrydXj21"
      hashed :=
        "epoch=7\nsender=12D3KooWML9cjSDtqu5EBTk9wqXue2jvrMvi3fj4CQDRZrydXj21\n" ++
          "1.0.0.0/8|64500\n2000::/3|1\n"
      hash := ⟨#[252, 129, 89, 37, 180, 152, 235, 236, 131, 112, 250, 228, 66, 173, 96, 152, 98,
          207, 135, 150, 121, 134, 93, 203, 241, 55, 3, 177, 24, 150, 24, 157], rfl⟩ },
    { material := "snapshot:a:1"
      seed := ⟨#[111, 170, 237, 153, 48, 175, 247, 107, 81, 196, 17, 8, 183, 21, 77, 210, 228, 168,
          15, 181, 151, 11, 122, 251, 110, 221, 210, 121, 30, 47, 43, 13], rfl⟩
      sender := "12D3KooWPYhsBHkNLjrwZMWUh5iLzACAvYPHpVcWuvx3XS3z2ayf"
      hashed :=
        "epoch=7\nsender=12D3KooWPYhsBHkNLjrwZMWUh5iLzACAvYPHpVcWuvx3XS3z2ayf\n1.0.0.0/8|64500\n"
      hash := ⟨#[142, 64, 78, 208, 113, 24, 253, 18, 84, 100, 77, 182, 76, 109, 22, 141, 24, 230,
          93, 49, 33, 46, 253, 204, 5, 84, 236, 161, 44, 107, 242, 48], rfl⟩ }]

def knownSender (peer : Fin 4) : String := (knownSenders.get peer).sender

/-- The other crates, on these senders. -/
def releaseCrates : Crates where
  PeerId := Fin 4
  parsePeerId s := (List.finRange 4).find? fun peer => knownSender peer = s
  peerIdText := knownSender
  sha256 bytes := (knownSenders.findSome? fun known =>
    if utf8Bytes known.material = bytes then some known.seed
    else if utf8Bytes known.hashed = bytes then some known.hash
    else none).getD (Vector.replicate 32 0)

def releaseKeys : Keys releaseCrates where
  peerIdOfSeed seed :=
    match (List.finRange 4).find? fun peer => (knownSenders.get peer).seed = seed with
    | some peer => .ok peer
    | none => .error "unknown seed"

def releaseConfig : ReplayConfig := ⟨2, none, "asmap", "offline-replay", "asmap.json"⟩

/-- What the sender claims for the first file or for the second. -/
def snapshotClaim (second : Bool) (peer : Fin 4) : AsmapClaim where
  epoch := 7
  senderId := knownSender peer
  claimHash := hexEncode (knownSenders.get peer).hash.toList
  entries := ⟨"1.0.0.0/8", 64500⟩ :: if second then [⟨"2000::/3", 1⟩] else []

/-- The claims of both files, in either order. -/
def knownImport (first : Bool) : List AsmapClaim :=
  if first then [snapshotClaim true 2, snapshotClaim false 3]
    else [snapshotClaim false 0, snapshotClaim true 1]

theorem peerTexts_releaseCrates : releaseCrates.PeerTexts where
  parse := show ∀ peer : Fin 4,
    ((List.finRange 4).find? fun peer' => knownSender peer' = knownSender peer) =
    some peer by decide +kernel
  size := show ∀ peer : Fin 4, _ by decide +kernel

/-- Either file can be claimed. -/
theorem claimable_knownSnapshot (second : Bool) {m : ASMap}
    (h : (knownSnapshot second).load = .ok m) :
    Claimable m ∧ (default : ClaimLimits).minEntries ≤ (m.toEntriesFlat false).length ∧
      (m.toEntriesFlat false).length ≤ (default : ClaimLimits).maxEntries := by
  let entries : List ASNEntry := (mappedPath ++ bigEndian 8 1, 64500) ::
    if second then [([false, false, true], 1)] else []
  have hload : (knownSnapshot second).load = .ok (ASMap.new.updateMulti entries) := by
    cases second <;> decide +kernel
  obtain rfl : ASMap.new.updateMulti entries = m := Except.ok.inj (hload.symm.trans h)
  refine ⟨⟨ASMap.canonical_updateMulti (m := .new) trivial entries, ?_, ?_, ?_⟩, ?_, ?_⟩ <;>
    cases second <;> decide +kernel

theorem batch_knownImport (first : Bool) :
    Batch releaseKeys ⟨7, "snapshot"⟩ [knownSnapshot first, knownSnapshot (!first)]
      (knownImport first) where
  imported := by cases first <;> decide +kernel
  claimable s hs m hm := by
    rcases List.mem_cons.1 hs with rfl | hs
    · exact claimable_knownSnapshot first hm
    · rw [List.mem_singleton.1 hs] at hm
      exact claimable_knownSnapshot (!first) hm
  senders := by
    rintro _ ⟨input, hinput, rfl⟩ _ ⟨input', hinput', rfl⟩ heq
    have hall : ∀ i ∈ [knownSnapshot first, knownSnapshot (!first)].zipIdx,
        ∀ j ∈ [knownSnapshot first, knownSnapshot (!first)].zipIdx,
          releaseKeys.senderId (seedMaterial "snapshot" i.1.path i.2) =
              releaseKeys.senderId (seedMaterial "snapshot" j.1.path j.2) →
            seedMaterial "snapshot" i.1.path i.2 = seedMaterial "snapshot" j.1.path j.2 := by
      cases first <;> decide +kernel
    exact hall input hinput input' hinput' heq
  room := show 2 ≤ 1024 by decide
  epoch_le := by decide

/-- Both replays write. -/
theorem exists_release_known (first : Bool) :
    ∃ release, (runReplay releaseCrates releaseConfig .newestFirst .newestFirst
      (knownImport first)).written = some release := by
  apply Option.isSome_iff_exists.1
  cases first <;> decide +kernel

/-! ### The released map -/

section Released

variable {keys : Keys lib} {cfg : ImportConfig} {inputs : List Snapshot} {claims : List AsmapClaim}
  {rcfg : ReplayConfig} {votesOrder : IterOrder (String × ℕ) ℕ}
  {bestOrder : IterOrder String (ℕ × ℕ)} {release : Release}

/-- What was written comes from the engine that heard all claims. -/
theorem Batch.written_eq (h : Batch keys cfg inputs claims) (hlib : lib.PeerTexts)
    (hstart : rcfg.epoch = none ∨ rcfg.epoch = some cfg.epoch)
    (hwritten : (runReplay lib rcfg votesOrder bestOrder claims).written = some release) :
    release.artifact = (replay lib (withLimits rcfg.threshold cfg.epoch default) claims).finalize
      votesOrder bestOrder rcfg.topic rcfg.localPeerId ∧
    saveBinary release.artifact.map false = .ok release.map ∧
    ((runReplay lib rcfg votesOrder bestOrder claims).result = .ok () ↔
      release.artifact.entries ≠ []) := by
  have hne : claims ≠ [] := by
    rintro rfl
    cases hwritten
  rw [runReplay_eq h.epoch_le hne (fun c hc => (h.passes hlib 0 hc).2) hstart] at hwritten ⊢
  cases hsave : saveBinary ((replay lib (withLimits rcfg.threshold cfg.epoch default)
      claims).finalize votesOrder bestOrder rcfg.topic rcfg.localPeerId).map false with
  | error p =>
    rw [hsave] at hwritten
    cases hwritten
  | ok map =>
    rw [hsave] at hwritten
    obtain rfl := Option.some.inj hwritten
    refine ⟨rfl, hsave, ?_⟩
    dsimp only
    split
    · next hempty => exact ⟨nofun, fun hne => absurd (List.isEmpty_iff.1 hempty) hne⟩
    · next hempty => exact ⟨fun _ hnil => hempty (List.isEmpty_iff.2 hnil), fun _ => rfl⟩

/-- **The released map is a vote of the snapshots.**  The report has one entry for each network that
they elect an ASN for, with the number of snapshots that say so, and the map gives every address the
ASN elected for the longest of these networks around it. -/
theorem release_spec (h : Batch keys cfg inputs claims) (hlib : lib.PeerTexts)
    (hstart : rcfg.epoch = none ∨ rcfg.epoch = some cfg.epoch)
    (hwritten : (runReplay lib rcfg votesOrder bestOrder claims).written = some release) :
    release.artifact.epoch = cfg.epoch ∧ release.artifact.acceptedClaims = inputs.length ∧
    release.artifact.rejectedClaims = ∅ ∧
    (release.artifact.entries.map ConsensusEntry.ipPrefix).Nodup ∧
    (∀ entry, entry ∈ release.artifact.entries ↔ ∃ N : Network, N.Admitted ∧
      entry.ipPrefix = N.text ∧ Elected rcfg.threshold inputs N.path entry.asn ∧
      entry.votes = support inputs N.path entry.asn) ∧
    (∀ q : List Bool, q.length = 128 →
      (∀ path asn, path <+: q → Elected rcfg.threshold inputs path asn →
        (∀ path' asn', path' <+: q → Elected rcfg.threshold inputs path' asn' →
          path'.length ≤ path.length) →
          release.artifact.map.lookup q = some asn) ∧
      ((∀ path asn, Elected rcfg.threshold inputs path asn → ¬path <+: q) →
        release.artifact.map.lookup q = some 0)) ∧
    ((runReplay lib rcfg votesOrder bestOrder claims).result = .ok () ↔
      ∃ path asn, Elected rcfg.threshold inputs path asn) := by
  obtain ⟨hartifact, -, hresult⟩ := h.written_eq hlib hstart hwritten
  obtain ⟨htallied, hthreshold, hepoch, hrejected⟩ := h.tallied rcfg.threshold hlib
  have hmem : ∀ entry, entry ∈ release.artifact.entries ↔ ∃ N : Network, N.Admitted ∧
      entry.ipPrefix = N.text ∧
      Elected rcfg.threshold inputs N.path entry.asn ∧
        entry.votes = support inputs N.path entry.asn := by
    intro entry
    rw [hartifact, h.mem_finalize_entries htallied, hthreshold]
  -- an elected path is that of an entry
  have hentry : ∀ path asn, Elected rcfg.threshold inputs path asn →
      ∃ entry ∈ release.artifact.entries,
      prefixPath entry.ipPrefix = some path ∧ entry.asn = asn := by
    intro path asn helected
    obtain ⟨N, hN, rfl⟩ := h.exists_network helected.pos
    exact ⟨⟨N.text, asn, support inputs N.path asn⟩, (hmem _).2 ⟨N, hN, rfl, helected, rfl⟩,
      prefixPath_text N, rfl⟩
  have helected : ∀ entry ∈ release.artifact.entries, ∀ path,
      prefixPath entry.ipPrefix = some path →
      Elected rcfg.threshold inputs path entry.asn := by
    intro entry hmementry path hpath
    obtain ⟨N, -, htext, helected, -⟩ := (hmem entry).1 hmementry
    rw [htext, prefixPath_text, Option.some.injEq] at hpath
    exact hpath ▸ helected
  refine ⟨?_, ?_, ?_, ?_, hmem,
    fun q hq => ⟨fun path asn hcov hpath hlong => ?_, fun hnone => ?_⟩, ?_⟩
  · rw [hartifact]
    exact hepoch
  · rw [hartifact, ← h.length_eq]
    exact htallied.acceptedClaims
  · rw [hartifact]
    exact hrejected
  · rw [hartifact]
    exact nodup_entries _ _ _ _
  · obtain ⟨entry, hmementry, hprefix, rfl⟩ := hentry path asn hpath
    rw [hartifact] at hmementry helected ⊢
    exact lookup_of_longest htallied _ _ _ _ hq hmementry hprefix hcov
      fun entry' hmem' path' hpath' hcov' =>
      hlong path' entry'.asn hcov' (helected entry' hmem' path' hpath')
  · rw [hartifact] at helected ⊢
    exact lookup_of_not_covered htallied _ _ _ _ hq fun entry hmementry path hpath =>
      hnone path entry.asn (helected entry hmementry path hpath)
  · rw [hresult]
    constructor
    · intro hne
      obtain ⟨entry, hmementry⟩ := List.exists_mem_of_ne_nil _ hne
      obtain ⟨N, -, -, helected, -⟩ := (hmem entry).1 hmementry
      exact ⟨_, _, helected⟩
    · rintro ⟨path, asn, hpath⟩
      obtain ⟨entry, hmementry, -⟩ := hentry path asn hpath
      exact List.ne_nil_of_mem hmementry

/-- Two files, at a threshold of two. -/
theorem release_spec_two :
    ∃ release, (runReplay releaseCrates releaseConfig .newestFirst .newestFirst
      (knownImport false)).written = some release ∧
    release.artifact.acceptedClaims = 2 ∧ ∀ entry ∈ release.artifact.entries, 2 ≤ entry.votes := by
  obtain ⟨release, hwritten⟩ := exists_release_known false
  obtain ⟨-, hcount, -, -, hentries, -⟩ :=
    release_spec (batch_knownImport false) peerTexts_releaseCrates (.inl rfl) hwritten
  refine ⟨release, hwritten, hcount, fun entry hentry => ?_⟩
  obtain ⟨N, -, -, helected, hvotes⟩ := (hentries entry).1 hentry
  exact hvotes ▸ helected.quorum

/-- **Batches of the same snapshots release the same map**, whatever the order of the files and the
names of files and senders.  Either of them writes one, or neither does. -/
theorem release_perm {keys' : Keys lib} {cfg' : ImportConfig} {inputs' : List Snapshot}
    {claims' : List AsmapClaim} {rcfg' : ReplayConfig} {votesOrder' : IterOrder (String × ℕ) ℕ}
    {bestOrder' : IterOrder String (ℕ × ℕ)} (h : Batch keys cfg inputs claims)
    (h' : Batch keys' cfg' inputs' claims') (hlib : lib.PeerTexts)
    (hperm : (inputs.map Snapshot.contents).Perm (inputs'.map Snapshot.contents))
    (hthreshold : rcfg.threshold = rcfg'.threshold)
    (hstart : rcfg.epoch = none ∨ rcfg.epoch = some cfg.epoch)
    (hstart' : rcfg'.epoch = none ∨ rcfg'.epoch = some cfg'.epoch) :
    ((runReplay lib rcfg votesOrder bestOrder claims).written.map fun release =>
        (release.artifact.entries, release.map)) =
      (runReplay lib rcfg' votesOrder' bestOrder' claims').written.map fun release =>
        (release.artifact.entries, release.map) := by
  have hlength : claims.length = claims'.length := by
    have hfiles := hperm.length_eq
    rw [List.length_map, List.length_map] at hfiles
    rw [h.length_eq, h'.length_eq, hfiles]
  by_cases hne : claims = []
  · subst hne
    rw [List.eq_nil_of_length_eq_zero hlength.symm]
    rfl
  have hne' : claims' ≠ [] := by
    rintro rfl
    exact hne (List.eq_nil_of_length_eq_zero hlength)
  obtain ⟨htallied, ht, -⟩ := h.tallied rcfg.threshold hlib
  obtain ⟨htallied', ht', -⟩ := h'.tallied rcfg'.threshold hlib
  let e := replay lib (withLimits rcfg.threshold cfg.epoch default) claims
  let e' := replay lib (withLimits rcfg'.threshold cfg'.epoch default) claims'
  have hlookup : ∀ key, e.votes.lookup key = e'.votes.lookup key := by
    intro key
    rw [htallied.positive.lookup_eq, htallied'.positive.lookup_eq, htallied.votes_eq,
      htallied'.votes_eq, h.votes_perm h' htallied htallied' hperm]
  obtain ⟨hentries, hmap⟩ := finalize_congr htallied (ht.trans (hthreshold.trans ht'.symm)) hlookup
    votesOrder votesOrder' bestOrder bestOrder' rcfg.topic rcfg.localPeerId
  have hsaved : saveBinary (e.finalize votesOrder bestOrder rcfg.topic rcfg.localPeerId).map false =
      saveBinary (e'.finalize votesOrder' bestOrder' rcfg'.topic rcfg'.localPeerId).map false :=
    congrArg (saveBinary · false) hmap
  rw [runReplay_eq h.epoch_le hne (fun c hc => (h.passes hlib 0 hc).2) hstart,
    runReplay_eq h'.epoch_le hne' (fun c hc => (h'.passes hlib 0 hc).2) hstart', hsaved]
  cases saveBinary (e'.finalize votesOrder' bestOrder' rcfg'.topic rcfg'.localPeerId).map false with
  | error p => rfl
  | ok map => exact congrArg (fun entries => some (entries, map)) hentries

/-- The two files in either order. -/
theorem release_perm_two : ∃ release release',
    (runReplay releaseCrates releaseConfig .newestFirst .newestFirst (knownImport false)).written =
      some release ∧
    (runReplay releaseCrates releaseConfig .newestFirst .newestFirst (knownImport true)).written =
      some release' ∧
    release.artifact.entries = release'.artifact.entries ∧ release.map = release'.map := by
  obtain ⟨release, hwritten⟩ := exists_release_known false
  obtain ⟨release', hwritten'⟩ := exists_release_known true
  have hsame : ((runReplay releaseCrates releaseConfig .newestFirst .newestFirst
        (knownImport false)).written.map fun release => (release.artifact.entries, release.map)) =
      (runReplay releaseCrates releaseConfig .newestFirst .newestFirst
        (knownImport true)).written.map fun release => (release.artifact.entries, release.map) :=
    release_perm (batch_knownImport false) (batch_knownImport true) peerTexts_releaseCrates
      ((List.Perm.swap ..).map Snapshot.contents) rfl (.inl rfl) (.inl rfl)
  rw [hwritten, hwritten', Option.map_some, Option.map_some, Option.some.injEq,
    Prod.mk.injEq] at hsame
  exact ⟨release, release', hwritten, hwritten', hsame⟩

end Released

/-! ### Replaying what was served -/

section Served

variable {host : Host} {ok : ServeState → Message lib → Prop} {threshold : ℕ} {epoch now : UInt64}

/-- **A claim that the loop let through passes a replay** of its epoch. -/
theorem HeardUnder.passes (hparse : ∀ peer, lib.parsePeerId (lib.peerIdText peer) = some peer)
    {c : AsmapClaim} (h : HeardUnder lib host ok threshold epoch now c) (threshold' : ℕ) :
    passes lib (withLimits threshold' c.epoch default) c = true := by
  obtain ⟨s, msg, hserving, -, -, voteKeys, hgates⟩ := h
  have hlistening := hserving.backed.1
  have hsizes := hlistening.sizes
  obtain ⟨hshape, hsource, hhash, -, -, hkeys⟩ := gates_eq_ok lib hgates
  obtain ⟨hsender, hhex, hmin, hmax, hepoch⟩ := shapeViolation_eq_none.1 hshape
  rw [hsizes.maxSenderIdLen] at hsender
  rw [hsizes.minEntries] at hmin
  rw [hsizes.maxEntries] at hmax
  have hceiling : ¬c.epoch > (withLimits threshold' c.epoch default).limits.maxEpoch := by
    have hle : epochAbsoluteMax ≤ (withLimits threshold' c.epoch default).limits.maxEpoch :=
      le_max_left _ _
    exact UInt64.not_lt.2 (UInt64.le_trans
      (UInt64.le_trans (UInt64.not_lt.1 hepoch) hlistening.ceiling) hle)
  exact passes_iff.2 ⟨msg.source, voteKeys, hsource ▸ hparse msg.source,
    shapeViolation_eq_none.2 ⟨hsender, hhex, hmin, hmax, hceiling⟩, hsource, hhash, hkeys⟩

/-- **Whoever replays the claims of an artifact gets the artifact again.**  An artifact that the
loop wrote was made of some claims that it had heard; a replay of them at the same threshold, in any
order, writes a report with the same epoch, participants and entries, and the same map. -/
theorem replay_served (hparse : ∀ peer, lib.parsePeerId (lib.peerIdText peer) = some peer)
    {s : ServeState} (h : Serving lib host ok threshold epoch now s) {artifact : ConsensusArtifact}
    (hwritten : s.written = some artifact) :
    ∃ accepted : List AsmapClaim, accepted.length = max 1 threshold ∧
      (∀ c ∈ accepted, HeardUnder lib host ok threshold epoch now c) ∧
      ∀ claims, claims.Perm accepted → ∀ rcfg : ReplayConfig, rcfg.threshold = threshold →
        (rcfg.epoch = none ∨ rcfg.epoch = some artifact.epoch) → ∀ votesOrder bestOrder map,
          saveBinary artifact.map false = .ok map →
            ∃ release, (runReplay lib rcfg votesOrder bestOrder claims).written = some release ∧
              release.map = map ∧ release.artifact.map = artifact.map ∧
              release.artifact.entries = artifact.entries ∧
              release.artifact.epoch = artifact.epoch ∧
              release.artifact.participants = artifact.participants ∧
              release.artifact.acceptedClaims = artifact.acceptedClaims := by
  obtain ⟨e, accepted, votesOrder, bestOrder, hrun, hthreshold, hlen, hceiling, hheard, rfl⟩ :=
    h.backed.2 artifact hwritten
  have htallied := hrun.tallied
  refine ⟨accepted, hlen, hheard, ?_⟩
  intro claims hperm rcfg hrthreshold hstart votesOrder' bestOrder' map hsave
  have hepoch : ∀ c ∈ claims, c.epoch = e.epoch := fun c hc => htallied.epoch c (hperm.mem_iff.1 hc)
  have hall : ∀ c ∈ claims, passes lib (withLimits rcfg.threshold e.epoch default) c = true ∧
      c.epoch = e.epoch := by
    intro c hc
    have hpass := (hheard c (hperm.mem_iff.1 hc)).passes hparse rcfg.threshold
    rw [hepoch c hc] at hpass
    exact ⟨hpass, hepoch c hc⟩
  have hnodup : (claims.map AsmapClaim.senderId).Nodup := (hperm.map _).nodup_iff.2 htallied.nodup
  have hcount : claims.length = max 1 threshold := hperm.length_eq.trans hlen
  obtain ⟨hbooks, ht, hround, -⟩ := tallied_round hall hnodup (by omega)
  obtain ⟨hentries, hmap⟩ :=
    finalize_congr htallied (hthreshold.trans (hrthreshold.symm.trans ht.symm))
    (fun key => htallied.lookup_votes_of_perm hbooks hperm.symm key) votesOrder votesOrder'
      bestOrder bestOrder'
    host.topic host.localPeerId
  have hne : claims ≠ [] := List.ne_nil_of_length_pos (by omega)
  have hseen : (replay lib (withLimits rcfg.threshold e.epoch default) claims).seenSenders =
      e.seenSenders := by
    rw [hbooks.seenSenders, htallied.seenSenders, List.toFinset_eq_of_perm _ _ (hperm.map _)]
  rw [hmap] at hsave
  have hsave' : saveBinary ((replay lib (withLimits rcfg.threshold e.epoch default) claims).finalize
      votesOrder' bestOrder' rcfg.topic rcfg.localPeerId).map false = .ok map := hsave
  rw [runReplay_eq hceiling hne hepoch hstart, hsave']
  refine ⟨_, rfl, rfl, hmap.symm, hentries.symm, hround, ?_, ?_⟩
  · exact congrArg Finset.sort hseen
  · exact hbooks.acceptedClaims.trans (hperm.length_eq.trans htallied.acceptedClaims.symm)

/-- The artifact of the third peer, from the two claims that it was made of. -/
theorem replay_served_two : ∃ s s' artifact claims release,
    serveGossip meshCrates meshHost meshStart (meshMessage 0) = some s ∧
    serveGossip meshCrates meshHost s (meshMessage 1) = some s' ∧ s'.written = some artifact ∧
    claims.length = 2 ∧ (runReplay meshCrates ⟨2, none, "asmap", "offline-replay",
      "asmap.json"⟩ .newestFirst .newestFirst claims).written = some release ∧
    release.artifact.entries = artifact.entries ∧
      release.artifact.participants = artifact.participants := by
  obtain ⟨s, s', artifact, hs, hs', -, -, hwritten, -, -, hsaved⟩ := serveGossip_meshMessages
  have hrun : Serving meshCrates meshHost (fun _ _ => True) 2 7 1772726400 s' :=
    .gossip (.gossip .start (meshMessage 0) trivial hs) (meshMessage 1) trivial hs'
  have hparse : ∀ peer, meshCrates.parsePeerId (meshCrates.peerIdText peer) = some peer :=
    show ∀ peer : Fin 3, (List.finRange 3).find? (fun p => meshPeerText peer = meshPeerText p) =
      some peer by
      decide +kernel
  obtain ⟨map, hmap⟩ : ∃ map, saveBinary artifact.map false = .ok map := by
    cases hsave : saveBinary artifact.map false with
    | error p =>
      rw [hsave] at hsaved
      cases hsaved
    | ok map => exact ⟨map, rfl⟩
  obtain ⟨claims, hlen, -, hreplay⟩ := replay_served hparse hrun hwritten
  obtain ⟨release, hrelease, -, -, hentries, -, hparticipants, -⟩ := hreplay claims (.refl _)
    ⟨2, none, "asmap", "offline-replay", "asmap.json"⟩ rfl (.inl rfl) .newestFirst .newestFirst map
      hmap
  exact ⟨s, s', artifact, claims, release, hs, hs', hwritten, hlen, hrelease, hentries,
    hparticipants⟩

end Served

end AsmapQuorum

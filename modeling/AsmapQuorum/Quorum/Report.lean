import AsmapQuorum.Codec.Io
import AsmapQuorum.Quorum.Finalize

/-!
# Reports, and verifying them

An artifact is published as a report, which is everything but the map, and as a map file.
`verify_report` rebuilds the map from the report's entries and compares it with what the file loads
as.

* `tryIntoArtifact_ofArtifact` — **a report of a reachable engine becomes the artifact again**: its
  entries, in the order of the report and normalised once more, make the same map.
* `verify_iff` — hence the tool verifies what it has just written **exactly if the map file loads
  again**, which a map whose bytes happen to be a text does not (`verify_ambiguous`).
-/

namespace AsmapQuorum

open FiniteMap PrefixOverwrite QuorumEngine Reading Text

/-- The report of an artifact.  Its JSON form is taken to be read as it was written. -/
structure ConsensusReport where
  epoch : UInt64
  topic : String
  localPeerId : String
  threshold : ℕ
  participants : List String
  acceptedClaims : ℕ
  rejectedClaims : Map String ℕ
  entries : List ConsensusEntry
  observations : List ClaimObservation

namespace ConsensusReport

/-- `From<&ConsensusArtifact>`. -/
def ofArtifact (artifact : ConsensusArtifact) : ConsensusReport where
  epoch := artifact.epoch
  topic := artifact.topic
  localPeerId := artifact.localPeerId
  threshold := artifact.threshold
  participants := artifact.participants
  acceptedClaims := artifact.acceptedClaims
  rejectedClaims := artifact.rejectedClaims
  entries := artifact.entries
  observations := artifact.observations

end ConsensusReport

/-- The entries as they go into a map. -/
def entryPaths (entries : List ConsensusEntry) : Except String (List ASNEntry) :=
  entries.mapM fun entry => do
    let (_, ip, prefixLen) ← canonicalConsensusPrefix entry.ipPrefix
    return (ipToBits ip prefixLen, entry.asn)

/-- `TryFrom<ConsensusReport>`. -/
def ConsensusReport.tryIntoArtifact (report : ConsensusReport) :
    Except String ConsensusArtifact := do
  let entries ← entryPaths report.entries
  return {
    epoch := report.epoch
    topic := report.topic
    localPeerId := report.localPeerId
    threshold := report.threshold
    participants := report.participants
    acceptedClaims := report.acceptedClaims
    rejectedClaims := report.rejectedClaims
    entries := report.entries
    observations := report.observations
    map := ASMap.new.updateMulti entries }

/-- Why a report is not verified. -/
inductive VerifyError where
  | invalidEntry (message : String)
  | load (e : LoadError)
  | bail (message : String)
  deriving DecidableEq, Repr

/-- `verify_report` on a loaded report and, where there is one, on the name and contents of a map
file. -/
def verifyReport (report : ConsensusReport) (mapFile : Option (String × List UInt8)) :
    Except VerifyError Unit := do
  let artifact ← report.tryIntoArtifact.mapError .invalidEntry
  let expectedEntries ← (entryPaths artifact.entries).mapError .invalidEntry
  let expected := ASMap.new.updateMulti expectedEntries
  if expected ≠ artifact.map then
    .error (.bail "report map does not match the published consensus entries")
  else
    match mapFile with
    | none => .ok ()
    | some (mapPath, contents) => do
      let map ← (loadFile contents mapPath).mapError .load
      if map ≠ artifact.map then
        .error (.bail "binary/text map does not match the report artifact")
      else .ok ()

/-! ### A report becomes its artifact again -/

section Reload

variable {e : QuorumEngine} {accepted : List AsmapClaim} (h : Tallied e accepted)
  (votesOrder : IterOrder (String × ℕ) ℕ) (bestOrder : IterOrder String (ℕ × ℕ))
  (topic localPeerId : String)
include h

/-- The entries of the report are those the map was made of, in another order. -/
theorem entryPaths_finalize :
    ∃ L, entryPaths (e.finalize votesOrder bestOrder topic localPeerId).entries = .ok L ∧
      L.Perm ((e.usable votesOrder bestOrder).map Prod.fst) := by
  let path : ConsensusEntry → ASNEntry :=
    fun entry => ((prefixPath entry.ipPrefix).getD [], entry.asn)
  refine ⟨(e.finalize votesOrder bestOrder topic localPeerId).entries.map path, ?_, ?_⟩
  · apply mapM_eq_map
    intro entry hentry
    obtain ⟨N, -, hpfx, -⟩ := h.network ((mem_entries h ..).1 hentry).1.pos
    have hpath : path entry = (N.path, entry.asn) := by
      show ((prefixPath entry.ipPrefix).getD [], entry.asn) = _
      rw [hpfx, prefixPath_text]
      rfl
    rw [hpath, hpfx, canonicalConsensusPrefix_text]
    rfl
  · have hperm : (e.finalize votesOrder bestOrder topic localPeerId).entries.Perm
        ((e.usable votesOrder bestOrder).map Prod.snd) := List.perm_insertionSort _ _
    refine (hperm.map path).trans (List.Perm.of_eq ?_)
    rw [List.map_map]
    apply List.map_congr_left
    intro u hu
    obtain ⟨-, -, hpath, hasn⟩ := (mem_usableEntries h votesOrder bestOrder).1 hu
    show ((prefixPath u.2.ipPrefix).getD [], u.2.asn) = u.1
    rw [hpath, ← hasn]
    rfl

/-- The map is made again from the entries of the report. -/
theorem exists_entryPaths :
    ∃ L, entryPaths (e.finalize votesOrder bestOrder topic localPeerId).entries = .ok L ∧
      ASMap.new.updateMulti L = (e.finalize votesOrder bestOrder topic localPeerId).map := by
  obtain ⟨L, hL, hperm⟩ := entryPaths_finalize h votesOrder bestOrder topic localPeerId
  refine ⟨L, hL, ?_⟩
  refine (ASMap.updateMulti_perm (m := ASMap.new) trivial hperm.symm ?_).symm
  exact nodup_paths h votesOrder bestOrder

/-- **The report of an artifact becomes the artifact again.** -/
theorem tryIntoArtifact_ofArtifact :
    (ConsensusReport.ofArtifact
      (e.finalize votesOrder bestOrder topic localPeerId)).tryIntoArtifact =
      .ok (e.finalize votesOrder bestOrder topic localPeerId) := by
  obtain ⟨L, hL, hmap⟩ := exists_entryPaths h votesOrder bestOrder topic localPeerId
  have hpaths : entryPaths (ConsensusReport.ofArtifact
      (e.finalize votesOrder bestOrder topic localPeerId)).entries = .ok L := hL
  rw [ConsensusReport.tryIntoArtifact, hpaths]
  show Except.ok (ConsensusArtifact.mk _ _ _ _ _ _ _ _ _ (ASMap.new.updateMulti L)) = _
  rw [hmap]
  rfl

/-- Verifying what was written comes down to loading the map file. -/
theorem verifyReport_eq (mapPath : String) (contents : List UInt8) :
    verifyReport (.ofArtifact (e.finalize votesOrder bestOrder topic localPeerId))
        (some (mapPath, contents)) =
      match loadFile contents mapPath with
      | .error err => .error (.load err)
      | .ok map =>
        if map ≠ (e.finalize votesOrder bestOrder topic localPeerId).map then
          .error (.bail "binary/text map does not match the report artifact")
        else .ok () := by
  obtain ⟨L, hL, hmap⟩ := exists_entryPaths h votesOrder bestOrder topic localPeerId
  rw [verifyReport, tryIntoArtifact_ofArtifact h]
  simp only [Except.mapError, bind, Except.bind, hL, hmap, ne_eq, not_true_eq_false, if_false]
  cases loadFile contents mapPath with
  | error err => rfl
  | ok map => rfl

theorem verifyReport_iff (mapPath : String) (contents : List UInt8) :
    verifyReport (.ofArtifact (e.finalize votesOrder bestOrder topic localPeerId))
        (some (mapPath, contents)) = .ok () ↔
      loadFile contents mapPath = .ok (e.finalize votesOrder bestOrder topic localPeerId).map := by
  rw [verifyReport_eq h]
  cases loadFile contents mapPath with
  | error err => simp
  | ok map => simp

/-- The ASNs of the map are encodable. -/
theorem asns_finalize_le :
    ∀ v ∈ (e.finalize votesOrder bestOrder topic localPeerId).map.asns, v ≤ 33521664 := by
  refine ASMap.asns_updateMulti_le (by decide) ?_
  intro t ht
  obtain ⟨entry, hentry, -, hasn⟩ := (mem_table h votesOrder bestOrder topic localPeerId).1 ht
  obtain ⟨-, -, -, -, hmax⟩ := h.network ((mem_entries h ..).1 hentry).1.pos
  rw [← hasn]
  exact hmax

end Reload

/-! ### Verifying what was written -/

/-- **The tool verifies a report it has just written exactly if the map's bytes are no text.**  A
map with a Jump that does not fit is not written, or read back as a text at best. -/
theorem verify_iff {lib : Crates} {e : QuorumEngine} (h : Reachable lib e)
    (votesOrder : IterOrder (String × ℕ) ℕ) (bestOrder : IterOrder String (ℕ × ℕ))
    (topic localPeerId mapPath : String) :
    let artifact := e.finalize votesOrder bestOrder topic localPeerId
    (∃ contents, saveBinary artifact.map false = .ok contents ∧
      verifyReport (.ofArtifact artifact) (some (mapPath, contents)) = .ok ()) ↔
    ∃ contents, saveBinary artifact.map false = .ok contents ∧
      (artifact.map.Fits false ∧ (contents = [] ∨ ¬IsAsmapText contents) ∨
        ¬artifact.map.Fits false ∧
          ∃ entries, AsmapText contents entries ∧
          ASMap.new.updateMulti entries = artifact.map) := by
  intro artifact
  obtain ⟨accepted, hrun⟩ := h
  have htallied := hrun.tallied
  have hcanonical : artifact.map.trie.Canonical :=
    ASMap.canonical_updateMulti (m := ASMap.new) trivial _
  have hasn := asns_finalize_le htallied votesOrder bestOrder topic localPeerId
  apply exists_congr
  intro contents
  apply and_congr_right
  intro hsave
  rw [verifyReport_iff htallied votesOrder bestOrder topic localPeerId mapPath contents]
  exact loadFile_saveBinary hcanonical hasn hsave mapPath

/-- The map of the known round is verified. -/
theorem verify_iff_two_networks :
    let artifact := (knownRound false).finalize .newestFirst .newestFirst "asmap" "observer"
    ∃ contents, saveBinary artifact.map false = .ok contents ∧
      verifyReport (.ofArtifact artifact) (some ("asmap.dat", contents)) = .ok () := by
  intro artifact
  have hmap : artifact.map = ASMap.new.updateMulti
      [(mappedPath ++ bigEndian 8 1, 64500), (bigEndian 32 0x20010db8, 64501)] := by decide +kernel
  have hfit : artifact.map.Fits false := by
    rw [hmap]
    decide +kernel
  have hsave : saveBinary artifact.map false = .ok
      [139, 14, 124, 15, 236, 15, 176, 63, 192, 254, 0, 251, 3, 236, 15, 176, 63, 192, 254, 0,
        251, 3, 236, 15, 176, 255, 255, 254, 255, 251, 3, 202, 251, 121, 15, 236, 15, 184, 63, 236,
        254, 29,
        242, 126, 1] := by
    rw [hmap]
    decide +kernel
  refine (verify_iff ⟨_, run_knownRound false⟩ .newestFirst .newestFirst "asmap" "observer"
    "asmap.dat").2 ⟨_, hsave, .inl ⟨hfit, .inr ?_⟩⟩
  rintro ⟨entries, hentries⟩
  -- the first byte starts no character
  have htext := textEntries_eq_ok.2 hentries
  rw [textEntries, show fromUtf8 _ = none by decide +kernel] at htext
  cases htext

/-- Two networks whose map is the text `#t`, with control characters: one long comment. -/
theorem verify_ambiguous :
    let e := ((withLimits 1 7 default).processClaim knownCrates (knownClaim false knownText)).1
    let artifact := e.finalize .newestFirst .newestFirst "asmap" "observer"
    let contents := [0x23, 0x74, 0x02, 0x00, 0x00, 0x00, 0x08]
    Reachable knownCrates e ∧ saveBinary artifact.map false = .ok contents ∧
      verifyReport (.ofArtifact artifact) (some ("asmap.dat", contents)) =
        .error (.load (.Ambiguous "asmap.dat")) := by
  intro e artifact contents
  have hrun : Run knownCrates e _ := (Run.start 1 7 default).claim (knownClaim false knownText)
  refine ⟨⟨_, hrun⟩, by decide +kernel, ?_⟩
  have hload : loadFile contents "asmap.dat" = .error (.Ambiguous "asmap.dat") := by decide +kernel
  rw [verifyReport_eq hrun.tallied, hload]

end AsmapQuorum

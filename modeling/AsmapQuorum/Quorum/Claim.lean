import AsmapQuorum.Lib.FiniteMap
import AsmapQuorum.Quorum.Network
import Mathlib.Data.List.Sort
import Mathlib.Data.Prod.Lex
import Mathlib.Data.String.Basic

/-!
# Claims and their vote keys

A claim is one participant's snapshot of the map for one epoch.  This file has its data, its hash,
and the gate that turns its entries into vote keys.

* `voteKey` — the checks on one entry; an entry that passes names an admitted network
  (`voteKey_eq_ok`).
* `validatedVoteKeys` — the gate on all entries.  **What it gives is exactly what the claim
  asserts** (`VoteKeys`, `validatedVoteKeys_spec`): each network once, with one ASN, however often
  and however spelled the claim repeats it.
* `AsmapClaim.answer` — the claim as a ballot: the one ASN it asserts for a network, if any.
-/

namespace AsmapQuorum

open FiniteMap

/-- A single `prefix -> ASN` mapping used in claims and reports. -/
structure AsmapEntry where
  ipPrefix : String
  asn : ℕ
  deriving DecidableEq, Repr

/-- Snapshot claim broadcast by a participant for one epoch. -/
structure AsmapClaim where
  epoch : UInt64
  senderId : String
  claimHash : String
  entries : List AsmapEntry
  deriving DecidableEq, Repr

/-- What the consensus layer takes from other crates: libp2p's peer identities, and SHA-256. -/
structure Crates where
  PeerId : Type
  parsePeerId : String → Option PeerId
  peerIdText : PeerId → String
  sha256 : List UInt8 → Vector UInt8 32

/-! ### The claim hash -/

def utf8Bytes (s : String) : List UInt8 := s.toList.flatMap String.utf8EncodeChar

/-- The order of the canonical bytes: by text, then by ASN. -/
def entryLe (a b : AsmapEntry) : Prop := toLex (a.ipPrefix, a.asn) ≤ toLex (b.ipPrefix, b.asn)

instance : DecidableRel entryLe := fun a b =>
  inferInstanceAs (Decidable (toLex (a.ipPrefix, a.asn) ≤ toLex (b.ipPrefix, b.asn)))

def canonicalClaimBytes (epoch : UInt64) (senderId : String) (entries : List AsmapEntry) :
    List UInt8 :=
  utf8Bytes ("epoch=" ++ toString epoch ++ "\nsender=" ++ senderId ++ "\n") ++
    (entries.insertionSort entryLe).flatMap fun entry =>
      utf8Bytes (entry.ipPrefix ++ "|" ++ toString entry.asn ++ "\n")

/-- `hex::encode`: two lower-case digits a byte. -/
def hexEncode (bytes : List UInt8) : String :=
  .ofList (bytes.flatMap fun b => [Nat.digitChar (b.toNat / 16), Nat.digitChar (b.toNat % 16)])

def claimHash (lib : Crates) (epoch : UInt64) (senderId : String) (entries : List AsmapEntry) :
    String :=
  hexEncode (lib.sha256 (canonicalClaimBytes epoch senderId entries)).toList

/-! ### One entry -/

/-- Longest accepted prefix text, in bytes. -/
def maxPrefixLen : ℕ := 49

/-- Smallest and largest ASN that the binary format can carry. -/
def asnMin : ℕ := 1

def asnMax : ℕ := 33521664

/-- The checks on one entry: its canonical prefix, or the reason for which the claim is rejected. -/
def voteKey (entry : AsmapEntry) : Except String String :=
  if entry.asn = 0 then .error "unassigned_asn"
  else if entry.asn < asnMin ∨ entry.asn > asnMax then .error "asn_out_of_range"
  else if entry.ipPrefix.utf8ByteSize > maxPrefixLen then .error "invalid_prefix"
  else
    match canonicalConsensusPrefix entry.ipPrefix with
    | .error _ => .error "invalid_prefix"
    | .ok (pfx, ip, prefixLen) =>
      if prefixLen = 0 then .error "default_route_prefix"
      else if touchesMappedRange ip prefixLen then .error "ipv4_mapped_prefix"
      else .ok pfx

/-- **An entry that passes names an admitted network and an encodable ASN.** -/
theorem voteKey_eq_ok {entry : AsmapEntry} {pfx : String} (h : voteKey entry = .ok pfx) :
    ∃ N : Network, N.Admitted ∧ pfx = N.text ∧
      canonicalConsensusPrefix entry.ipPrefix = .ok (N.text, N.ip, N.mask) ∧
      asnMin ≤ entry.asn ∧ entry.asn ≤ asnMax := by
  unfold voteKey at h
  split at h
  · cases h
  · split at h
    · cases h
    · next hasn =>
      split at h
      · cases h
      · split at h
        · cases h
        · next r hr =>
          obtain ⟨N, hN⟩ := canonicalConsensusPrefix_ok hr
          obtain ⟨rfl, rfl, rfl⟩ : _ = N.text ∧ _ = N.ip ∧ _ = N.mask := by simpa using hN
          split at h
          · cases h
          · next hlen =>
            split at h
            · cases h
            · next hmapped =>
              refine ⟨N, ⟨Nat.pos_of_ne_zero hlen, ?_⟩, (Except.ok.inj h).symm, hr, ?_⟩
              · rwa [Bool.not_eq_true] at hmapped
              · omega

/-- An entry written as the text of an admitted network passes. -/
theorem voteKey_text {N : Network} (hN : N.Admitted) {asn : ℕ} (hmin : asnMin ≤ asn)
    (hmax : asn ≤ asnMax) : voteKey ⟨N.text, asn⟩ = .ok N.text := by
  have hmask : N.mask < 1000 := by
    have hle := N.mask_le
    have := width_le N.ip
    omega
  have hsize : N.text.utf8ByteSize ≤ maxPrefixLen := by
    rw [Network.text]
    exact (utf8Len_networkText_le N.ip hmask).trans (show 44 ≤ 49 by decide)
  have hone : 1 ≤ asn := hmin
  have hrange : ¬(asn < asnMin ∨ asn > asnMax) := by omega
  unfold voteKey
  rw [if_neg (show ¬asn = 0 by omega), if_neg hrange, if_neg (Nat.not_lt.2 hsize),
    canonicalConsensusPrefix_text]
  show (if N.mask = 0 then _ else if touchesMappedRange N.ip N.mask then _ else _) = _
  rw [if_neg (Nat.pos_iff_ne_zero.1 hN.1), hN.2]
  rfl

/-! ### What a claim asserts -/

/-- The canonical form of the entry's prefix, where it has one. -/
def AsmapEntry.canonicalPrefix (entry : AsmapEntry) : Option String :=
  match canonicalConsensusPrefix entry.ipPrefix with
  | .ok (pfx, _) => some pfx
  | .error _ => none

theorem canonicalPrefix_of_voteKey {entry : AsmapEntry} {pfx : String}
    (h : voteKey entry = .ok pfx) :
    entry.canonicalPrefix = some pfx := by
  obtain ⟨N, -, rfl, hcanon, -⟩ := voteKey_eq_ok h
  rw [AsmapEntry.canonicalPrefix, hcanon]

namespace AsmapClaim

/-- Some entry has this canonical prefix and this ASN. -/
def asserts (claim : AsmapClaim) (key : String × ℕ) : Bool :=
  claim.entries.any fun entry => entry.canonicalPrefix = some key.1 ∧ entry.asn = key.2

theorem asserts_iff {claim : AsmapClaim} {key : String × ℕ} : claim.asserts key = true ↔
    ∃ entry ∈ claim.entries, entry.canonicalPrefix = some key.1 ∧ entry.asn = key.2 := by
  simp only [asserts, List.any_eq_true, decide_eq_true_eq]

/-- The ASN that the claim's first entry on a network gives it. -/
def answer (claim : AsmapClaim) (pfx : String) : Option ℕ :=
  (claim.entries.find? fun entry => entry.canonicalPrefix = some pfx).map AsmapEntry.asn

end AsmapClaim

/-- The vote keys of a claim: every entry passes its checks, each network occurs once, and the keys
are what the entries assert. -/
structure VoteKeys (entries : List AsmapEntry) (keys : List (String × ℕ)) : Prop where
  valid : ∀ entry ∈ entries, ∃ pfx, voteKey entry = .ok pfx
  nodup : (keys.map Prod.fst).Nodup
  mem_iff : ∀ key, key ∈ keys ↔ ∃ entry ∈ entries, voteKey entry = .ok key.1 ∧ entry.asn = key.2

namespace VoteKeys

variable {entries : List AsmapEntry} {keys : List (String × ℕ)}

theorem nil : VoteKeys [] [] :=
  ⟨fun _ h => absurd h List.not_mem_nil, List.nodup_nil, fun _ => by simp⟩

/-- One ASN for one network. -/
theorem eq_of_mem (h : VoteKeys entries keys) {pfx : String} {a b : ℕ} (ha : (pfx, a) ∈ keys)
    (hb : (pfx, b) ∈ keys) : a = b :=
  congrArg Prod.snd (List.inj_on_of_nodup_map h.nodup ha hb rfl)

/-- One more entry on a network that was seen with the same ASN. -/
theorem append_seen (h : VoteKeys entries keys) {entry : AsmapEntry} {pfx : String}
    (hkey : voteKey entry = .ok pfx) (hseen : (pfx, entry.asn) ∈ keys) :
    VoteKeys (entries ++ [entry]) keys := by
  refine ⟨fun e he => ?_, h.nodup, fun key => ?_⟩
  · rcases List.mem_append.1 he with he | he
    · exact h.valid e he
    · exact ⟨pfx, by rwa [List.mem_singleton.1 he]⟩
  · rw [h.mem_iff]
    constructor
    · rintro ⟨e, he, hek⟩
      exact ⟨e, List.mem_append_left _ he, hek⟩
    · rintro ⟨e, he, hek⟩
      rcases List.mem_append.1 he with he | he
      · exact ⟨e, he, hek⟩
      · rw [List.mem_singleton] at he
        subst he
        rw [hkey, Except.ok.injEq] at hek
        obtain ⟨p, a⟩ := key
        obtain ⟨rfl, rfl⟩ : pfx = p ∧ e.asn = a := hek
        exact (h.mem_iff _).1 hseen

/-- One more entry, on a network not seen before. -/
theorem append_new (h : VoteKeys entries keys) {entry : AsmapEntry} {pfx : String}
    (hkey : voteKey entry = .ok pfx) (hnew : pfx ∉ keys.map Prod.fst) :
    VoteKeys (entries ++ [entry]) (keys ++ [(pfx, entry.asn)]) := by
  refine ⟨fun e he => ?_, ?_, fun key => ?_⟩
  · rcases List.mem_append.1 he with he | he
    · exact h.valid e he
    · exact ⟨pfx, by rwa [List.mem_singleton.1 he]⟩
  · rw [List.map_append, List.nodup_append]
    refine ⟨h.nodup, List.nodup_singleton _, ?_⟩
    rintro p hp q hq rfl
    rw [List.map_singleton, List.mem_singleton] at hq
    subst hq
    exact hnew hp
  · rw [List.mem_append, List.mem_singleton, h.mem_iff]
    constructor
    · rintro (⟨e, he, hek⟩ | rfl)
      · exact ⟨e, List.mem_append_left _ he, hek⟩
      · exact ⟨entry, by simp, hkey, rfl⟩
    · rintro ⟨e, he, hek⟩
      rcases List.mem_append.1 he with he | he
      · exact .inl ⟨e, he, hek⟩
      · rw [List.mem_singleton] at he
        subst he
        rw [hkey, Except.ok.injEq] at hek
        exact .inr (Prod.ext hek.1.symm hek.2.symm)

end VoteKeys

/-! ### The gate on all entries -/

/-- The loop of the source: `seen` is its map of networks, `keys` its result so far. -/
def voteKeysLoop (seen : Map String ℕ) (keys : List (String × ℕ)) :
    List AsmapEntry → Except String (List (String × ℕ))
  | [] => .ok keys
  | entry :: rest =>
    match voteKey entry with
    | .error reason => .error reason
    | .ok pfx =>
      match seen.lookup pfx with
      | some previous =>
        if previous ≠ entry.asn then .error "conflicting_entry"
        else voteKeysLoop (seen.insert pfx entry.asn) keys rest
      | none => voteKeysLoop (seen.insert pfx entry.asn) (keys ++ [(pfx, entry.asn)]) rest

def validatedVoteKeys (claim : AsmapClaim) : Except String (List (String × ℕ)) :=
  voteKeysLoop ∅ [] claim.entries

/-- `seen` is the map of the keys. -/
def Seen (seen : Map String ℕ) (keys : List (String × ℕ)) : Prop :=
  ∀ pfx a, seen.lookup pfx = some a ↔ (pfx, a) ∈ keys

theorem Seen.not_mem {seen : Map String ℕ} {keys : List (String × ℕ)} (h : Seen seen keys)
    {pfx : String} (hnone : seen.lookup pfx = none) : pfx ∉ keys.map Prod.fst := by
  intro hmem
  obtain ⟨⟨_, a⟩, hka, rfl⟩ := List.mem_map.1 hmem
  rw [(h _ a).2 hka] at hnone
  cases hnone

theorem Seen.insert_self {seen : Map String ℕ} {keys : List (String × ℕ)} (h : Seen seen keys)
    {pfx : String} {a : ℕ} (hsome : seen.lookup pfx = some a) : Seen (seen.insert pfx a) keys := by
  intro p b
  by_cases hp : p = pfx
  · subst hp
    rw [AList.lookup_insert, ← hsome, h]
  · rw [AList.lookup_insert_ne hp, h]

theorem Seen.insert_new {seen : Map String ℕ} {keys : List (String × ℕ)} (h : Seen seen keys)
    {pfx : String} (hnone : seen.lookup pfx = none) (a : ℕ) :
    Seen (seen.insert pfx a) (keys ++ [(pfx, a)]) := by
  intro p b
  rw [List.mem_append, List.mem_singleton, Prod.mk.injEq, ← h p b]
  by_cases hp : p = pfx
  · subst hp
    rw [AList.lookup_insert, hnone, Option.some.injEq]
    simp [eq_comm]
  · rw [AList.lookup_insert_ne hp]
    simp [hp]

/-- A loop that ends well has collected the vote keys of all entries. -/
theorem voteKeys_of_loop (rest : List AsmapEntry) {entries : List AsmapEntry} {seen : Map String ℕ}
    {keys keys' : List (String × ℕ)} (hkeys : VoteKeys entries keys) (hseen : Seen seen keys)
    (h : voteKeysLoop seen keys rest = .ok keys') : VoteKeys (entries ++ rest) keys' := by
  induction rest generalizing entries seen keys with
  | nil =>
    rw [voteKeysLoop, Except.ok.injEq] at h
    rwa [List.append_nil, ← h]
  | cons entry rest ih =>
    rw [List.append_cons]
    unfold voteKeysLoop at h
    split at h
    · cases h
    · next pfx hkey =>
      split at h
      · next previous hprev =>
        split at h
        · cases h
        · next heq =>
          rw [not_not] at heq
          subst heq
          exact ih (hkeys.append_seen hkey ((hseen _ _).1 hprev)) (hseen.insert_self hprev) h
      · next hnone =>
        exact ih (hkeys.append_new hkey (hseen.not_mem hnone)) (hseen.insert_new hnone _) h

/-- Entries that pass their checks and never give one network two ASNs end the loop well. -/
theorem exists_voteKeysLoop (rest : List AsmapEntry) {seen : Map String ℕ}
    (keys : List (String × ℕ)) (hvalid : ∀ entry ∈ rest, ∃ pfx, voteKey entry = .ok pfx)
    (hseen : ∀ entry ∈ rest, ∀ pfx a, voteKey entry = .ok pfx → seen.lookup pfx = some a →
      a = entry.asn)
    (hone : ∀ e ∈ rest, ∀ e' ∈ rest, voteKey e = voteKey e' → e.asn = e'.asn) :
    ∃ keys', voteKeysLoop seen keys rest = .ok keys' := by
  induction rest generalizing seen keys with
  | nil => exact ⟨keys, rfl⟩
  | cons entry rest ih =>
    obtain ⟨pfx, hkey⟩ := hvalid entry (by simp)
    have hvalid' : ∀ e ∈ rest, ∃ pfx, voteKey e = .ok pfx := fun e he => hvalid e (by simp [he])
    have hone' : ∀ e ∈ rest, ∀ e' ∈ rest, voteKey e = voteKey e' → e.asn = e'.asn :=
      fun e he e' he' => hone e (by simp [he]) e' (by simp [he'])
    have hinsert : ∀ e ∈ rest, ∀ p a, voteKey e = .ok p →
        (seen.insert pfx entry.asn).lookup p = some a → a = e.asn := by
      intro e he p a hp ha
      rcases eq_or_of_lookup_insert ha with ⟨rfl, rfl⟩ | ha
      · exact hone entry (by simp) e (by simp [he]) (by rw [hkey, hp])
      · exact hseen e (by simp [he]) p a hp ha
    simp only [voteKeysLoop, hkey]
    split
    · next previous hprev =>
      rw [if_neg (not_not.2 (hseen entry (by simp) pfx previous hkey hprev))]
      exact ih keys hvalid' hinsert hone'
    · exact ih _ hvalid' hinsert hone'

/-- **The gate gives what the claim asserts.** -/
theorem validatedVoteKeys_spec {claim : AsmapClaim} {keys : List (String × ℕ)}
    (h : validatedVoteKeys claim = .ok keys) : VoteKeys claim.entries keys := by
  have hempty : Seen ∅ [] := fun pfx a => by simp
  have hall := voteKeys_of_loop claim.entries VoteKeys.nil hempty h
  rwa [List.nil_append] at hall

/-- The gate lets through every claim whose entries pass their checks without contradiction. -/
theorem exists_validatedVoteKeys {claim : AsmapClaim}
    (hvalid : ∀ entry ∈ claim.entries, ∃ pfx, voteKey entry = .ok pfx)
    (hone : ∀ e ∈ claim.entries, ∀ e' ∈ claim.entries, voteKey e = voteKey e' → e.asn = e'.asn) :
    ∃ keys, validatedVoteKeys claim = .ok keys :=
  exists_voteKeysLoop claim.entries [] hvalid (fun _ _ _ _ _ h => by simp at h) hone

namespace VoteKeys

variable {claim : AsmapClaim} {keys : List (String × ℕ)}

theorem mem_iff_asserts (h : VoteKeys claim.entries keys) (key : String × ℕ) :
    key ∈ keys ↔ claim.asserts key = true := by
  rw [h.mem_iff, AsmapClaim.asserts_iff]
  apply exists_congr
  intro entry
  apply and_congr_right
  intro hentry
  apply and_congr_left
  intro _
  constructor
  · exact canonicalPrefix_of_voteKey
  · intro hcanon
    obtain ⟨pfx, hkey⟩ := h.valid entry hentry
    rw [canonicalPrefix_of_voteKey hkey, Option.some.injEq] at hcanon
    rw [hkey, hcanon]

/-- **A valid claim asserts one ASN for a network.** -/
theorem asserts_unique (h : VoteKeys claim.entries keys) {pfx : String} {a b : ℕ}
    (ha : claim.asserts (pfx, a) = true) (hb : claim.asserts (pfx, b) = true) : a = b :=
  h.eq_of_mem ((h.mem_iff_asserts _).2 ha) ((h.mem_iff_asserts _).2 hb)

/-- The answer of a valid claim is what it asserts. -/
theorem answer_eq_some (h : VoteKeys claim.entries keys) {pfx : String} {a : ℕ} :
    claim.answer pfx = some a ↔ claim.asserts (pfx, a) = true := by
  rw [AsmapClaim.answer, Option.map_eq_some_iff]
  constructor
  · rintro ⟨entry, hfind, rfl⟩
    have hp := List.find?_some hfind
    exact AsmapClaim.asserts_iff.2 ⟨entry, List.mem_of_find?_eq_some hfind, by simpa using hp, rfl⟩
  · intro hass
    obtain ⟨entry, hentry, hcanon, rfl⟩ := AsmapClaim.asserts_iff.1 hass
    cases hfind : claim.entries.find? fun entry => entry.canonicalPrefix = some pfx with
    | none =>
      have := List.find?_eq_none.1 hfind entry hentry
      exact absurd hcanon (by simpa using this)
    | some first =>
      have hp := List.find?_some hfind
      have hfirst : claim.asserts (pfx, first.asn) = true :=
        AsmapClaim.asserts_iff.2 ⟨first, List.mem_of_find?_eq_some hfind, by simpa using hp, rfl⟩
      exact ⟨first, rfl, h.asserts_unique hfirst hass⟩

/-- The keys of a claim are texts of admitted networks with encodable ASNs. -/
theorem network (h : VoteKeys claim.entries keys) {key : String × ℕ} (hkey : key ∈ keys) :
    ∃ N : Network, N.Admitted ∧ key.1 = N.text ∧ asnMin ≤ key.2 ∧ key.2 ≤ asnMax := by
  obtain ⟨entry, -, hok, hasn⟩ := (h.mem_iff key).1 hkey
  obtain ⟨N, hN, hpfx, -, hmin, hmax⟩ := voteKey_eq_ok hok
  rw [hasn] at hmin hmax
  exact ⟨N, hN, hpfx, hmin, hmax⟩

end VoteKeys

/-! ### Two known peers -/

/-- Two of the bootstrap peers. -/
def knownPeerText (peer : Bool) : String :=
  if peer then "QmQCU2EcMqAqQPR2i9bChDtGNJchTbq5TbXJJ16u19uLTa"
  else "QmNnooDu7bfjPFoTZYxMNLWUQJyrVwtbZg5gBMjTezGAJN"

/-- One network of each family. -/
def knownEntries : List AsmapEntry := [⟨"1.0.0.0/8", 64500⟩, ⟨"2001:db8::/32", 64501⟩]

/-- Two networks whose map is written as seven bytes of text. -/
def knownText : List AsmapEntry := [⟨"2000::/3", 1⟩, ⟨"4000::/2", 2⟩]

/-- The other crates, on the two peers and on what is hashed for their claims of epoch 7. -/
def knownCrates : Crates where
  PeerId := Bool
  parsePeerId s :=
    if s = knownPeerText false then some false
    else if s = knownPeerText true then some true
    else none
  peerIdText := knownPeerText
  sha256 bytes :=
    if bytes = canonicalClaimBytes 7 (knownPeerText false) knownEntries then
      ⟨#[114, 55, 182, 239, 94, 220, 10, 115, 34, 45, 20, 49, 150, 85, 79, 78, 81, 93, 226, 143, 68,
        17, 77, 220, 231, 87, 36, 206, 86, 45, 195, 240], rfl⟩
    else if bytes = canonicalClaimBytes 7 (knownPeerText true) knownEntries then
      ⟨#[148, 71, 215, 24, 63, 235, 1, 27, 240, 133, 99, 184, 135, 205, 116, 215, 153, 90, 14, 41,
        185, 126, 200, 91, 114, 76, 231, 75, 13, 14, 8, 56], rfl⟩
    else if bytes = canonicalClaimBytes 7 (knownPeerText false) knownText then
      ⟨#[211, 147, 145, 216, 124, 82, 41, 181, 56, 209, 22, 217, 21, 114, 169, 166, 84, 144, 71,
        225, 199, 31, 204, 149, 17, 2, 254, 215, 224, 79, 209, 42], rfl⟩
    else Vector.replicate 32 0

instance : DecidableEq knownCrates.PeerId := inferInstanceAs (DecidableEq Bool)

/-- What a known peer claims at epoch 7. -/
def knownClaim (peer : Bool) (entries : List AsmapEntry) : AsmapClaim where
  epoch := 7
  senderId := knownPeerText peer
  claimHash := claimHash knownCrates 7 (knownPeerText peer) entries
  entries := entries

end AsmapQuorum

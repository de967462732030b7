import AsmapQuorum.Lib.Text
import AsmapQuorum.Quorum.Domain

/-!
# What the hashed bytes identify

The hash of a claim is taken over lines of unescaped text: the epoch, the sender, and the entries in
a canonical order.

* `claimLines`, `canonicalClaimBytes_eq` — the bytes are those of the terminated lines.
* `canonicalClaimBytes_perm` — **the order of the entries does not enter**.
* `PlainFields` — the fields of a claim keep clear of the separators;
  `canonicalClaimBytes_injective` says that the bytes of such claims determine their fields, the
  entries up to their order.
* `notMem_of_readsAs`, `plainFields_of_acceptable` — no text that passes the gates contains a
  separator.
* `canonicalClaimBytes_eq_iff` — **the bytes identify an accepted claim up to the order of its
  entries**.
-/

namespace AsmapQuorum

open FiniteMap Numeral QuorumEngine Text

/-! ### Lines -/

def entryLine (entry : AsmapEntry) : List Char :=
  entry.ipPrefix.toList ++ '|' :: Nat.toDigits 10 entry.asn

def epochLine (epoch : UInt64) : List Char := "epoch=".toList ++ Nat.toDigits 10 epoch.toNat

def senderLine (senderId : String) : List Char := "sender=".toList ++ senderId.toList

def claimLines (epoch : UInt64) (senderId : String) (entries : List AsmapEntry) :
    List (List Char) :=
  epochLine epoch :: senderLine senderId :: (entries.insertionSort entryLe).map entryLine

theorem toList_toString (n : ℕ) : (toString n).toList = Nat.toDigits 10 n := by
  show (Nat.repr n).toList = _
  rw [Nat.repr, String.toList_ofList]

theorem toString_epoch (epoch : UInt64) : toString epoch = toString epoch.toNat := rfl

/-- A text of two lines. -/
theorem toList_twoLines {pre sep last u v : String} (mid : List Char)
    (hsep : sep.toList = '\n' :: mid) (hlast : last.toList = ['\n']) :
    (pre ++ u ++ sep ++ v ++ last).toList =
      pre.toList ++ u.toList ++ '\n' :: (mid ++ v.toList ++ ['\n']) := by
  rw [String.toList_append, String.toList_append, String.toList_append, String.toList_append, hsep,
    hlast]
  simp only [List.append_assoc, List.cons_append]

/-- A text of one line, with a bar in it. -/
theorem toList_barLine {bar last u v : String} (hbar : bar.toList = ['|'])
    (hlast : last.toList = ['\n']) :
    (u ++ bar ++ v ++ last).toList = u.toList ++ '|' :: v.toList ++ ['\n'] := by
  rw [String.toList_append, String.toList_append, String.toList_append, hbar, hlast]
  simp only [List.append_assoc, List.cons_append, List.nil_append]

theorem canonicalClaimBytes_eq (epoch : UInt64) (senderId : String) (entries : List AsmapEntry) :
    canonicalClaimBytes epoch senderId entries =
      (terminated '\n' (claimLines epoch senderId entries)).flatMap String.utf8EncodeChar := by
  have hhead : ("epoch=" ++ toString epoch ++ "\nsender=" ++ senderId ++ "\n").toList =
      epochLine epoch ++ '\n' :: (senderLine senderId ++ ['\n']) := by
    rw [toList_twoLines "sender=".toList rfl rfl, toString_epoch, toList_toString]
    rfl
  have hentry : ∀ entry : AsmapEntry,
      utf8Bytes (entry.ipPrefix ++ "|" ++ toString entry.asn ++ "\n") =
      (entryLine entry ++ ['\n']).flatMap String.utf8EncodeChar := by
    intro entry
    rw [utf8Bytes, toList_barLine rfl rfl, toList_toString]
    rfl
  have hentries : ((entries.insertionSort entryLe).flatMap fun entry =>
      utf8Bytes (entry.ipPrefix ++ "|" ++ toString entry.asn ++ "\n")) =
      (terminated '\n' ((entries.insertionSort entryLe).map entryLine)).flatMap
        String.utf8EncodeChar := by
    simp only [hentry]
    rw [terminated, List.flatMap_assoc, List.flatMap_map]
  rw [canonicalClaimBytes, hentries, utf8Bytes, hhead, claimLines, terminated_cons, terminated_cons,
    ← List.flatMap_append]
  simp only [List.append_assoc, List.cons_append, List.nil_append]

/-! ### The order of the entries -/

instance : IsTrans AsmapEntry entryLe := ⟨fun _ _ _ h h' => le_trans h h'⟩

instance : Std.Total entryLe :=
  ⟨fun a b => le_total (toLex (a.ipPrefix, a.asn)) (toLex (b.ipPrefix, b.asn))⟩

instance : Std.Antisymm entryLe where
  antisymm a b h h' := by
    have heq : toLex (a.ipPrefix, a.asn) = toLex (b.ipPrefix, b.asn) := le_antisymm h h'
    obtain ⟨hpfx, hasn⟩ := Prod.mk.inj (toLex.injective heq)
    cases a
    cases b
    cases hpfx
    cases hasn
    rfl

/-- **Sorting forgets the order of the entries, and nothing else.** -/
theorem insertionSort_entryLe_eq_iff {entries entries' : List AsmapEntry} :
    entries.insertionSort entryLe = entries'.insertionSort entryLe ↔ entries.Perm entries' := by
  have hperm := List.perm_insertionSort entryLe entries
  have hperm' := List.perm_insertionSort entryLe entries'
  constructor
  · intro h
    rw [h] at hperm
    exact hperm.symm.trans hperm'
  · intro h
    exact (hperm.trans (h.trans hperm'.symm)).eq_of_pairwise'
      (List.pairwise_insertionSort entryLe entries)
      (List.pairwise_insertionSort entryLe entries')

/-- **The order of the entries does not enter.** -/
theorem canonicalClaimBytes_perm (epoch : UInt64) (senderId : String)
    {entries entries' : List AsmapEntry} (h : entries.Perm entries') :
    canonicalClaimBytes epoch senderId entries = canonicalClaimBytes epoch senderId entries' := by
  rw [canonicalClaimBytes, canonicalClaimBytes, insertionSort_entryLe_eq_iff.2 h]

/-! ### What the bytes determine -/

/-- Fields without the separators of the lines they stand in. -/
structure PlainFields (senderId : String) (entries : List AsmapEntry) : Prop where
  sender : '\n' ∉ senderId.toList
  entry : ∀ entry ∈ entries, '\n' ∉ entry.ipPrefix.toList ∧ '|' ∉ entry.ipPrefix.toList

theorem notMem_epochLine (epoch : UInt64) : '\n' ∉ epochLine epoch := by
  have hname : '\n' ∉ "epoch=".toList := by decide +kernel
  show '\n' ∉ "epoch=".toList ++ Nat.toDigits 10 epoch.toNat
  rw [List.mem_append, not_or]
  exact ⟨hname, IpAddr.notMem_toDigits rfl _⟩

theorem notMem_senderLine {senderId : String} (h : '\n' ∉ senderId.toList) :
    '\n' ∉ senderLine senderId := by
  have hname : '\n' ∉ "sender=".toList := by decide +kernel
  show '\n' ∉ "sender=".toList ++ senderId.toList
  rw [List.mem_append, not_or]
  exact ⟨hname, h⟩

theorem notMem_entryLine {entry : AsmapEntry} (h : '\n' ∉ entry.ipPrefix.toList) :
    '\n' ∉ entryLine entry := by
  rw [entryLine, List.mem_append, List.mem_cons, not_or, not_or]
  exact ⟨h, by decide, IpAddr.notMem_toDigits rfl _⟩

/-- A line without a bar in its prefix determines its entry. -/
theorem eq_of_entryLine_eq {entry entry' : AsmapEntry} (h : '|' ∉ entry.ipPrefix.toList)
    (h' : '|' ∉ entry'.ipPrefix.toList) (heq : entryLine entry = entryLine entry') :
    entry = entry' := by
  obtain ⟨hpfx, hasn⟩ := append_sep_inj h h' heq
  have hpfx' := String.toList_injective hpfx
  have hasn' := Numeral.toDigits_injective hasn
  cases entry
  cases entry'
  cases hpfx'
  cases hasn'
  rfl

theorem map_entryLine_injective {entries entries' : List AsmapEntry}
    (h : ∀ entry ∈ entries, '|' ∉ entry.ipPrefix.toList)
    (h' : ∀ entry ∈ entries', '|' ∉ entry.ipPrefix.toList)
    (heq : entries.map entryLine = entries'.map entryLine) : entries = entries' := by
  induction entries generalizing entries' with
  | nil => exact (List.map_eq_nil_iff.1 heq.symm).symm
  | cons entry entries ih =>
    cases entries' with
    | nil => cases heq
    | cons entry' entries' =>
      obtain ⟨hline, hrest⟩ := List.cons.inj heq
      rw [List.forall_mem_cons] at h h'
      rw [eq_of_entryLine_eq h.1 h'.1 hline, ih h.2 h'.2 hrest]

theorem notMem_claimLines {epoch : UInt64} {senderId : String} {entries : List AsmapEntry}
    (h : PlainFields senderId entries) : ∀ line ∈ claimLines epoch senderId entries,
    '\n' ∉ line := by
  intro line hline
  rcases List.mem_cons.1 hline with rfl | hline
  · exact notMem_epochLine epoch
  · rcases List.mem_cons.1 hline with rfl | hline
    · exact notMem_senderLine h.sender
    · obtain ⟨entry, hentry, rfl⟩ := List.mem_map.1 hline
      exact notMem_entryLine (h.entry entry ((List.mem_insertionSort entryLe).1 hentry)).1

/-- **The bytes of plain fields determine them**, the entries up to their order. -/
theorem canonicalClaimBytes_injective {epoch epoch' : UInt64} {senderId senderId' : String}
    {entries entries' : List AsmapEntry} (h : PlainFields senderId entries)
    (h' : PlainFields senderId' entries')
    (heq : canonicalClaimBytes epoch senderId entries = canonicalClaimBytes epoch' senderId'
      entries') :
    epoch = epoch' ∧ senderId = senderId' ∧ entries.Perm entries' := by
  rw [canonicalClaimBytes_eq, canonicalClaimBytes_eq] at heq
  have hlines := terminated_injective (notMem_claimLines h) (notMem_claimLines h')
    (flatMap_utf8EncodeChar_injective heq)
  obtain ⟨hepoch, hrest⟩ := List.cons.inj hlines
  obtain ⟨hsender, hentries⟩ := List.cons.inj hrest
  refine ⟨?_, ?_, insertionSort_entryLe_eq_iff.1 (map_entryLine_injective ?_ ?_ hentries)⟩
  · exact UInt64.toNat_inj.1 (Numeral.toDigits_injective (List.append_cancel_left hepoch))
  · exact String.toList_injective (List.append_cancel_left hsender)
  · exact fun entry hentry => (h.entry entry ((List.mem_insertionSort entryLe).1 hentry)).2
  · exact fun entry hentry => (h'.entry entry ((List.mem_insertionSort entryLe).1 hentry)).2

/-! ### What passes the gates -/

/-- A prefix text has only characters of addresses and numbers, and one slash. -/
theorem notMem_of_readsAs {x : Char} (hx : IpAddr.Foreign x) (hslash : x ≠ '/') (hplus : x ≠ '+')
    {text : String} {ip : IpAddr} {len : ℕ} (h : ReadsAs text ip len) : x ∉ text.toList := by
  obtain ⟨addr, digits, htext, -, hip, hlen⟩ := h
  rw [htext, List.mem_append, List.mem_cons, not_or, not_or]
  have hdigit : toDigit 10 x = none := toDigit_eq_none_of_le (by decide) hx.1
  exact ⟨IpAddr.notMem_of_parse hx hip, hslash, notMem_of_parseUnsigned hdigit hplus hlen⟩

theorem AsmapEntry.InDomain.notMem {entry : AsmapEntry} (h : entry.InDomain) :
    '\n' ∉ entry.ipPrefix.toList ∧ '|' ∉ entry.ipPrefix.toList := by
  obtain ⟨ip, len, hreads, -⟩ := h.network
  have hnewline : IpAddr.Foreign '\n' := ⟨rfl, by decide, by decide⟩
  have hbar : IpAddr.Foreign '|' := ⟨rfl, by decide, by decide⟩
  exact ⟨notMem_of_readsAs hnewline (by decide) (by decide) hreads,
    notMem_of_readsAs hbar (by decide) (by decide) hreads⟩

/-- Some engine accepts the claim from some source. -/
def AsmapClaim.Acceptable (lib : Crates) (claim : AsmapClaim) : Prop :=
  ∃ (e : QuorumEngine) (source : lib.PeerId) (quorum : Bool),
    (e.processClaimFromPeer lib claim source).2 = .accepted quorum

/-- The digits and letters of base58: no zero, no capital `O` or `I`, no small `l`. -/
def isBase58 (c : Char) : Bool := c.isAlphanum && !(c == '0' || c == 'O' || c == 'I' || c == 'l')

theorem plainFields_of_acceptable {lib : Crates}
    (hbase58 : ∀ peer, ∀ c ∈ (lib.peerIdText peer).toList, isBase58 c = true) {claim : AsmapClaim}
    (h : claim.Acceptable lib) : PlainFields claim.senderId claim.entries := by
  obtain ⟨e, source, quorum, hverdict⟩ := h
  obtain ⟨voteKeys, hgates⟩ := QuorumEngine.exists_gates_of_accepted hverdict
  obtain ⟨-, hsource, -, -, -, hkeys⟩ := QuorumEngine.gates_eq_ok lib hgates
  obtain ⟨hdomain, -⟩ := exists_validatedVoteKeys_iff.1 ⟨voteKeys, hkeys⟩
  have hsender : '\n' ∉ claim.senderId.toList := by
    intro hmem
    rw [hsource] at hmem
    exact absurd (hbase58 source '\n' hmem) (by decide)
  exact ⟨hsender, fun entry hentry => (hdomain entry hentry).notMem⟩

/-- **The hashed bytes identify an accepted claim up to the order of its entries**: they do not
change with that order, and two accepted claims with the same bytes agree on their epoch, their
sender and, as a multiset, their entries. -/
theorem canonicalClaimBytes_eq_iff {lib : Crates}
    (hbase58 : ∀ peer, ∀ c ∈ (lib.peerIdText peer).toList, isBase58 c = true) :
    (∀ epoch senderId (entries entries' : List AsmapEntry), entries.Perm entries' →
      canonicalClaimBytes epoch senderId entries = canonicalClaimBytes epoch senderId entries') ∧
    ∀ claim claim' : AsmapClaim, claim.Acceptable lib → claim'.Acceptable lib →
      (canonicalClaimBytes claim.epoch claim.senderId claim.entries =
          canonicalClaimBytes claim'.epoch claim'.senderId claim'.entries ↔
        claim.epoch = claim'.epoch ∧ claim.senderId = claim'.senderId ∧
          claim.entries.Perm claim'.entries) := by
  refine ⟨fun epoch senderId _ _ => canonicalClaimBytes_perm epoch senderId,
    fun claim claim' h h' => ?_⟩
  constructor
  · exact canonicalClaimBytes_injective (plainFields_of_acceptable hbase58 h)
      (plainFields_of_acceptable hbase58 h')
  · rintro ⟨hepoch, hsender, hperm⟩
    rw [hepoch, hsender]
    exact canonicalClaimBytes_perm _ _ hperm

/-- The two known peers claim the same entries. -/
theorem canonicalClaimBytes_eq_iff_known :
    (∀ peer, (knownClaim peer knownEntries).Acceptable knownCrates) ∧
      (canonicalClaimBytes (knownClaim false knownEntries).epoch
            (knownClaim false knownEntries).senderId (knownClaim false knownEntries).entries =
          canonicalClaimBytes (knownClaim true knownEntries).epoch
            (knownClaim true knownEntries).senderId
            (knownClaim true knownEntries).entries ↔
        (knownClaim false knownEntries).epoch = (knownClaim true knownEntries).epoch ∧
          (knownClaim false knownEntries).senderId = (knownClaim true knownEntries).senderId ∧
          (knownClaim false knownEntries).entries.Perm (knownClaim true knownEntries).entries) := by
  have hknown : ∀ peer, ∀ c ∈ (knownCrates.peerIdText peer).toList, isBase58 c = true := by
    intro peer
    refine List.all_eq_true.1 ?_
    cases peer <;> decide +kernel
  have haccepted : ∀ peer : Bool, (knownClaim peer knownEntries).Acceptable knownCrates := by
    intro peer
    refine ⟨withLimits 1 7 default, peer, true, ?_⟩
    cases peer <;> decide +kernel
  refine ⟨haccepted, ?_⟩
  exact (canonicalClaimBytes_eq_iff hknown).2 _ _ (haccepted false) (haccepted true)

end AsmapQuorum

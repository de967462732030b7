import AsmapQuorum.Codec.Accepted
import AsmapQuorum.Codec.Entries

/-!
# Printing maps

`save_text` writes the entries of a map as lines `NETWORK ASn`; the changes between two maps are
printed with the same networks.  A network has at most 128 bits, but a binary file may describe
longer paths.

* `textLine_spec`, `saveText_spec` — entries of at most 128 bits are printed, and the text that was
  printed says these entries.
* `Canonical.depth_le_iff` — a canonical trie is as deep as the paths it tells apart.
* `prints_iff` — **a decoded map can be printed exactly if its bytecode tells apart no two paths
  with the same 128 bits**; `saveText_longPath` is a file that does.
* `loadFile_of_saved` — **a file that was written is read back as the map it was written from**, or
  it is ambiguous.
-/

namespace AsmapQuorum

open PrefixOverwrite Text

/-! ### The printed text -/

/-- `writeln!(output, "\x7bnet\x7d AS\x7basn\x7d")`. -/
def textLine (e : ASNEntry) : Except Panic (List Char) := do
  let net ← bitsToNetwork e.1
  return net.toList ++ " AS".toList ++ Nat.toDigits 10 e.2 ++ ['\n']

/-- The bytes that `save_text` writes.  When it aborts, the lines before are left out here. -/
def saveText (state : ASMap) (fill overlapping : Bool) : Except Panic (List UInt8) := do
  let entries ← state.toEntries fill overlapping
  let text ← entries.mapM textLine
  return text.flatten.flatMap String.utf8EncodeChar

/-- Neither white space nor the start of a comment. -/
def Plain (c : Char) : Prop := isWhitespace c = false ∧ c ≠ '#'

theorem Plain.ne_newline {s : List Char} (h : ∀ c ∈ s, Plain c) : '\n' ∉ s ∧ '\r' ∉ s :=
  ⟨fun hmem => absurd (h _ hmem).1 (by decide), fun hmem => absurd (h _ hmem).1 (by decide)⟩

theorem plain_digits (n : ℕ) : ∀ c ∈ Nat.toDigits 10 n, Plain c := by
  have hdigits : ∀ d < 10, isWhitespace (Nat.digitChar d) = false ∧ Nat.digitChar d ≠ '#' := by
    decide
  intro c hc
  obtain ⟨d, hd, rfl⟩ := IpAddr.mem_toDigits (by decide) hc
  exact hdigits d hd

theorem plain_networkText (ip : IpAddr) (prefixLen : ℕ) : ∀ c ∈ networkText ip prefixLen,
    Plain c := by
  have hdigits : ∀ d < 16, isWhitespace (Nat.digitChar d) = false ∧ Nat.digitChar d ≠ '#' := by
    decide
  intro c hc
  rw [networkText, List.mem_append, List.mem_cons] at hc
  rcases hc with hc | rfl | hc
  · rcases IpAddr.mem_display hc with rfl | rfl | ⟨d, hd, rfl⟩
    · exact ⟨rfl, by decide⟩
    · exact ⟨rfl, by decide⟩
    · exact hdigits d hd
  · exact ⟨rfl, by decide⟩
  · exact plain_digits prefixLen c hc

/-- A line `NETWORK ASn` of a network without host bits says so. -/
theorem lineSays_networkText {ip : IpAddr} {prefixLen asn : ℕ} (hlen : prefixLen ≤ ip.width)
    (hzero : HostZero ip prefixLen) (hasn : asn < 2 ^ 32) :
    LineSays (networkText ip prefixLen ++ ' ' :: 'A' :: 'S' :: Nat.toDigits 10 asn)
      (some (ipToBits ip prefixLen, asn)) := by
  have hfield : ∀ c ∈ 'A' :: 'S' :: Nat.toDigits 10 asn, Plain c := by
    rw [List.forall_mem_cons, List.forall_mem_cons]
    exact ⟨⟨rfl, by decide⟩, ⟨rfl, by decide⟩, plain_digits asn⟩
  have hline : uncommented (networkText ip prefixLen ++ ' ' :: 'A' :: 'S' :: Nat.toDigits 10 asn) =
      networkText ip prefixLen ++ ' ' :: 'A' :: 'S' :: Nat.toDigits 10 asn := by
    refine List.takeWhile_eq_self_iff.2 fun c hc => decide_eq_true ?_
    rw [List.mem_append, List.mem_cons] at hc
    rcases hc with hc | rfl | hc
    · exact (plain_networkText ip prefixLen c hc).2
    · decide
    · exact (hfield c hc).2
  refine .entry ?_ Nat.toDigits_ne_nil
    (fun c hc => Nat.isDigit_of_mem_toDigits (by decide) (by decide) hc)
    (parseNetworkPrefix_networkText hlen hzero) (Numeral.parseUnsigned_toDigits hasn)
  rw [hline]
  exact words_pair (fun c hc => (plain_networkText ip prefixLen c hc).1)
    (fun c hc => (hfield c hc).1)
    (by simp [networkText]) (List.cons_ne_nil _ _) rfl

/-- **An entry of at most 128 bits is printed** as a line that says it. -/
theorem textLine_spec {e : ASNEntry} (h : e.1.length ≤ 128) :
    ∃ line, textLine e = .ok (line ++ ['\n']) ∧ '\n' ∉ line ∧ '\r' ∉ line ∧
      (e.2 < 2 ^ 32 → LineSays line (some e)) := by
  obtain ⟨ip, prefixLen, hnet, hlen, hzero, hpath, -⟩ := bitsToNetwork_spec h
  refine ⟨networkText ip prefixLen ++ ' ' :: 'A' :: 'S' :: Nat.toDigits 10 e.2, ?_, ?_, ?_, ?_⟩
  · simp only [textLine, hnet, bind, Except.bind, pure, Except.pure, String.toList_ofList]
    simp
  · have h₁ := (Plain.ne_newline (plain_networkText ip prefixLen)).1
    have h₂ := (Plain.ne_newline (plain_digits e.2)).1
    simp [h₁, h₂]
  · have h₁ := (Plain.ne_newline (plain_networkText ip prefixLen)).2
    have h₂ := (Plain.ne_newline (plain_digits e.2)).2
    simp [h₁, h₂]
  · intro hasn
    have hspoken := lineSays_networkText hlen hzero hasn
    rwa [hpath] at hspoken

/-- The lines of what was printed say the entries, one by one. -/
theorem mapM_textLine_spec {L : List ASNEntry} (h : ∀ e ∈ L, e.1.length ≤ 128) :
    ∃ text, L.mapM textLine = .ok text ∧
      ((∀ e ∈ L, e.2 < 2 ^ 32) → List.Forall₂ LineSays (lines text.flatten) (L.map some)) := by
  induction L with
  | nil => exact ⟨[], rfl, fun _ => .nil⟩
  | cons e L ih =>
    rw [List.forall_mem_cons] at h
    obtain ⟨line, hline, hn, hr, hspoken⟩ := textLine_spec h.1
    obtain ⟨text, htext, hrest⟩ := ih h.2
    refine ⟨(line ++ ['\n']) :: text, ?_, fun hasn => ?_⟩
    · rw [List.mapM_cons, hline, htext]
      rfl
    · rw [List.forall_mem_cons] at hasn
      rw [List.flatten_cons, List.append_assoc, List.singleton_append, lines_append_newline hn hr,
        List.map_cons]
      exact .cons (hspoken hasn.1) (hrest hasn.2)

/-- **What `save_text` writes** is a text of the entries. -/
theorem saveText_spec {m : ASMap} {fill overlapping : Bool} {L : List ASNEntry}
    (hL : m.toEntries fill overlapping = .ok L) (h : ∀ e ∈ L, e.1.length ≤ 128) :
    ∃ bytes, saveText m fill overlapping = .ok bytes ∧
      ((∀ e ∈ L, e.2 < 2 ^ 32) → AsmapText bytes L) := by
  obtain ⟨text, htext, hlines⟩ := mapM_textLine_spec h
  refine ⟨text.flatten.flatMap String.utf8EncodeChar, ?_, fun hasn => ?_⟩
  · simp only [saveText, hL, htext, bind, Except.bind, pure, Except.pure]
  · exact ⟨text.flatten, L.map some, rfl, hlines hasn, by simp [List.reduceOption]⟩

/-! ### Differences of two maps -/

/-- `(prefix, old ASN, new ASN)`. -/
abbrev ASNDiff := List Bool × ℕ × ℕ

namespace TrieNode

/-- `diff`'s `recurse` below a leaf of the old trie. -/
def diffLeaf (a : ℕ) : TrieNode → List Bool → List ASNDiff
  | Leaf b, pfx => if a ≠ b then [(pfx, a, b)] else []
  | Branch left right, pfx => left.diffLeaf a (pfx ++ [false]) ++ right.diffLeaf a (pfx ++ [true])

/-- `diff`'s `recurse`. -/
def diff : TrieNode → TrieNode → List Bool → List ASNDiff
  | Leaf a, new, pfx => new.diffLeaf a pfx
  | Branch left right, new, pfx =>
    left.diff new.children.1 (pfx ++ [false]) ++ right.diff new.children.2 (pfx ++ [true])

theorem length_le_of_mem_diffLeaf {a : ℕ} {new : TrieNode} {pfx : List Bool} {c : ASNDiff}
    (h : c ∈ new.diffLeaf a pfx) : c.1.length ≤ pfx.length + new.depth := by
  induction new generalizing pfx with
  | Leaf b =>
    rw [diffLeaf] at h
    split at h
    · rw [List.mem_singleton.1 h]
      exact Nat.le_add_right _ _
    · cases h
  | Branch left right ihl ihr =>
    rw [diffLeaf, List.mem_append] at h
    rw [depth]
    rcases h with h | h
    · have := ihl h
      rw [List.length_append, List.length_singleton] at this
      omega
    · have := ihr h
      rw [List.length_append, List.length_singleton] at this
      omega

/-- A change is found no deeper than the deeper of the tries. -/
theorem length_le_of_mem_diff {old new : TrieNode} {pfx : List Bool} {c : ASNDiff}
    (h : c ∈ old.diff new pfx) : c.1.length ≤ pfx.length + max old.depth new.depth := by
  induction old generalizing new pfx with
  | Leaf a =>
    have := length_le_of_mem_diffLeaf h
    omega
  | Branch left right ihl ihr =>
    have hdepth := new.depth_children_le
    rw [diff, List.mem_append] at h
    rw [depth]
    rcases h with h | h
    · have := ihl h
      rw [List.length_append, List.length_singleton] at this
      omega
    · have := ihr h
      rw [List.length_append, List.length_singleton] at this
      omega

end TrieNode

/-- `ASMap::diff`. -/
def ASMap.diff (m other : ASMap) : List ASNDiff := m.trie.diff other.trie []

/-! ### Depths -/

namespace TrieNode

/-- Above its depth a trie has a path that ends at a branch. -/
theorem exists_lookup_eq_none {t : TrieNode} {k : ℕ} (h : k < t.depth) :
    ∃ p : List Bool, p.length = k ∧ t.lookup p = none := by
  induction t generalizing k with
  | Leaf v => exact absurd h (Nat.not_lt_zero k)
  | Branch l r ihl ihr =>
    cases k with
    | zero => exact ⟨[], rfl, rfl⟩
    | succ k =>
      rw [depth] at h
      rcases Nat.lt_or_ge k l.depth with hl | hl
      · obtain ⟨p, hp, hnone⟩ := ihl hl
        exact ⟨false :: p, by rw [List.length_cons, hp], hnone⟩
      · obtain ⟨p, hp, hnone⟩ := ihr (k := k) (by omega)
        exact ⟨true :: p, by rw [List.length_cons, hp], hnone⟩

/-- **A canonical trie is as deep as the paths it tells apart.** -/
theorem Canonical.depth_le_iff {t : TrieNode} (h : t.Canonical) {k : ℕ} : t.depth ≤ k ↔
    ∀ (p : List Bool) (x y : Stream' Bool), p.length = k →
      t.asnAt (p ++ₛ x) = t.asnAt (p ++ₛ y) := by
  constructor
  · intro hk p x y hp
    have hx := lookup_of_depth_le (t := t) (p := p) (by omega) x
    exact Option.some.inj (hx.symm.trans (lookup_of_depth_le (by omega) y))
  · intro hall
    by_contra hk
    obtain ⟨p, hp, hnone⟩ := exists_lookup_eq_none (Nat.not_le.1 hk)
    have hsome := h.lookup_eq fun x => hall p x (Stream'.const false) hp
    rw [hnone] at hsome
    cases hsome

/-- Entries of at most `k` bits make a trie no deeper than that. -/
theorem Canonical.depth_le_of_flat {t : TrieNode} (h : t.Canonical) {k : ℕ}
    (hflat : ∀ e ∈ t.flat, e.1.length ≤ k) : t.depth ≤ k := by
  have hside : ∀ (p : List Bool) (x y : Stream' Bool), p.length = k → t.asnAt (p ++ₛ x) ≠ 0 →
      t.asnAt (p ++ₛ y) = t.asnAt (p ++ₛ x) := by
    intro p x y hp hx
    obtain ⟨e, he, hcov⟩ := exists_mem_flat hx
    have hle : e.1.length ≤ p.length := hp ▸ hflat e he
    have hcov' : Covers e.1 (p ++ₛ y) :=
      (covers_append_iff y hle).2 ((covers_append_iff x hle).1 hcov)
    rw [asnAt_of_mem_flat he hcov, asnAt_of_mem_flat he hcov']
  refine h.depth_le_iff.2 fun p x y hp => ?_
  by_cases hx : t.asnAt (p ++ₛ x) = 0
  · by_cases hy : t.asnAt (p ++ₛ y) = 0
    · rw [hx, hy]
    · exact hside p y x hp hy
  · exact (hside p x y hp hx).symm

end TrieNode

/-- The entries of a list that describes a map are no longer than the map is deep, and their ASNs
are the map's. -/
theorem Describes.mem_spec {m : ASMap} {fill : Bool} {ctx : Ctx} {L : List ASNEntry}
    (h : Describes fill m.trie [] ctx L) {e : ASNEntry} (he : e ∈ L) :
    e.1.length ≤ m.trie.depth ∧ e.2 ∈ m.asns := by
  obtain ⟨d, hd, hpre, hasn⟩ := h.sourced e he
  rw [List.nil_append] at hpre
  refine ⟨hpre.length_le.trans (TrieNode.length_le_of_mem_flat hd), ?_⟩
  rw [hasn]
  have hx := covers_append d.1 (Stream'.const false)
  exact TrieNode.mem_asns_iff.2 ⟨_, TrieNode.asnAt_of_mem_flat hd hx⟩

/-! ### Decoded maps -/

/-- Two runs of the bytecode on paths with the same 128 bits do not end with different ASNs. -/
def DecidedByAddress (bindata : List UInt8) : Prop :=
  ∀ p q v w, p.take 128 = q.take 128 → execute bindata p = .result v →
    execute bindata q = .result w →
    v = w

/-- Above every path the bytecode has a run that ends with its ASN. -/
theorem exists_execute {b : List UInt8} (hne : b ≠ []) {m : ASMap} (h : ASMap.fromBinary b = .ok m)
    (p : List Bool) (x : Stream' Bool) :
    ∃ q, p <+: q ∧ execute b q = .result (m.trie.asnAt (p ++ₛ x)) := by
  let n := 8 * ((b.flatMap byteBits).length + 1)
  have hlong : n ≤ (p ++ x.take n).length := by
    rw [List.length_append, Stream'.length_take]
    omega
  obtain ⟨r, hr, hasn⟩ := asnAt_eq_execute hne h (exec_ne_outOfPath hlong)
  refine ⟨p ++ x.take n, List.prefix_append _ _, ?_⟩
  have hx := hasn (x.drop n)
  rw [Stream'.append_append_stream, Stream'.append_take_drop] at hx
  rw [hr, hx]

/-- Below the depth of the decoded map the bytecode decides no more. -/
theorem depth_le_iff_decidedByAddress {b : List UInt8} {m : ASMap}
    (h : ASMap.fromBinary b = .ok m) :
    m.trie.depth ≤ 128 ↔ DecidedByAddress b := by
  by_cases hne : b = []
  · subst hne
    cases h
    refine ⟨fun _ p q v w _ hp => ?_, fun _ => Nat.zero_le _⟩
    cases hp
  have hlookup : ∀ {p v}, execute b p = .result v → ∀ x, m.trie.asnAt (p ++ₛ x) = v := by
    intro p v hp x
    obtain ⟨r, hr, hasn⟩ := asnAt_eq_execute hne h (p := p) (by rw [hp]; simp)
    obtain rfl : v = r := Outcome.result.inj (hp.symm.trans hr)
    exact hasn x
  rw [(ASMap.canonical_of_fromBinary h).depth_le_iff]
  constructor
  · intro hall p q v w hpq hp hq
    have hsplit : ∀ r : List Bool, 128 ≤ r.length → ∀ x,
        (r.take 128) ++ₛ (r.drop 128 ++ₛ x) = r ++ₛ x := by
      intro r _ x
      rw [← Stream'.append_append_stream, List.take_append_drop]
    have hlen := congrArg List.length hpq
    rw [List.length_take, List.length_take] at hlen
    rcases Nat.lt_or_ge p.length 128 with hshort | hlong
    · rw [List.take_of_length_le (by omega), List.take_of_length_le (by omega)] at hpq
      rw [hpq, hq] at hp
      exact (Outcome.result.inj hp).symm
    · have hx := hlookup hp (Stream'.const false)
      have hy := hlookup hq (Stream'.const false)
      rw [← hsplit p hlong] at hx
      rw [← hsplit q (by omega), ← hpq] at hy
      rw [← hx, ← hy]
      exact hall _ _ _ (by rw [List.length_take]; omega)
  · intro hdec p x y hp
    obtain ⟨q, hq, hv⟩ := exists_execute hne h p x
    obtain ⟨q', hq', hw⟩ := exists_execute hne h p y
    refine hdec q q' _ _ ?_ hv hw
    rw [← hp, ← List.prefix_iff_eq_take.1 hq, ← List.prefix_iff_eq_take.1 hq']

/-- Whatever is printed of the map has at most 128 bits and does not abort: its entries, and its
changes from or to any decoded map that is itself decided by the address. -/
def ASMap.Prints (m : ASMap) : Prop :=
  (∀ fill overlapping, ∃ entries bytes, m.toEntries fill overlapping = .ok entries ∧
    (∀ e ∈ entries, e.1.length ≤ 128) ∧ saveText m fill overlapping = .ok bytes) ∧
  ∀ b' m', ASMap.fromBinary b' = .ok m' → DecidedByAddress b' →
    ∀ c ∈ m.diff m' ++ m'.diff m, c.1.length ≤ 128 ∧ ∃ net, bitsToNetwork c.1 = .ok net

/-- **Which decoded maps can be printed**: those whose bytecode is decided by the address. -/
theorem prints_iff {b : List UInt8} {m : ASMap} (h : ASMap.fromBinary b = .ok m) :
    m.Prints ↔ DecidedByAddress b := by
  rw [← depth_le_iff_decidedByAddress h]
  constructor
  · rintro ⟨hentries, -⟩
    obtain ⟨entries, bytes, hflat, hlen, -⟩ := hentries false false
    obtain rfl : m.toEntriesFlat false = entries := Except.ok.inj hflat
    rw [ASMap.toEntriesFlat_false] at hlen
    exact (ASMap.canonical_of_fromBinary h).depth_le_of_flat hlen
  · intro hdepth
    refine ⟨fun fill overlapping => ?_, fun b' m' h' hdec c hc => ?_⟩
    · obtain ⟨L, hL, hdesc⟩ := m.toEntries_spec fill overlapping
      have hlen : ∀ e ∈ L, e.1.length ≤ 128 := fun e he => (hdesc.mem_spec he).1.trans hdepth
      obtain ⟨bytes, hbytes, -⟩ := saveText_spec hL hlen
      exact ⟨L, bytes, hL, hlen, hbytes⟩
    · have hdepth' := (depth_le_iff_decidedByAddress h').2 hdec
      have hlen : c.1.length ≤ 128 := by
        rcases List.mem_append.1 hc with hc | hc
        · have := TrieNode.length_le_of_mem_diff hc
          rw [List.length_nil] at this
          omega
        · have := TrieNode.length_le_of_mem_diff hc
          rw [List.length_nil] at this
          omega
      obtain ⟨ip, prefixLen, hnet, -⟩ := bitsToNetwork_spec hlen
      exact ⟨hlen, _, hnet⟩

/-- The map of MATCH `1`, RETURN 9. -/
theorem prints_iff_one_match :
    (⟨.Branch (.Leaf 0) (.Leaf 9)⟩ : ASMap).Prints ↔ DecidedByAddress [19, 0, 4] :=
  prints_iff (by decide +kernel)

/-- Seventeen times MATCH `11111111`, then RETURN 1: a path of 136 bits. -/
def longPath : List UInt8 :=
  [251, 255, 239, 255, 191, 255, 255, 254, 255, 251, 255, 239, 255, 191, 255, 255, 254, 255, 251,
    255, 239, 255, 191, 255, 255, 254, 255, 251, 255, 239, 255, 191, 255, 255, 254, 255, 251, 255,
    3, 0, 0]

/-- It decodes, and printing what was decoded aborts. -/
theorem saveText_longPath :
    ∃ m, ASMap.fromBinary longPath = .ok m ∧ ∀ fill overlapping,
      m.toEntries fill overlapping = .ok [(List.replicate 136 true, 1)] ∧
        saveText m fill overlapping = .error .subtractOverflow :=
  ⟨ASMap.new.update (List.replicate 136 true) 1, by decide +kernel, by decide +kernel⟩

/-! ### Written files -/

/-- Loading the bytes gives the map back, unless they are a file of the other format as well and not
empty: then they are ambiguous. -/
structure ReadsBack (m : ASMap) (bytes : List UInt8) (other : Prop) (inputName : String) :
    Prop where
  ambiguous : bytes ≠ [] → other → loadFile bytes inputName = .error (.Ambiguous inputName)
  loads : bytes = [] ∨ ¬other → loadFile bytes inputName = .ok m
  only : ∀ m', loadFile bytes inputName = .ok m' → m' = m

theorem loadFile_ambiguous {bytes : List UInt8} {inputName : String} (hne : bytes ≠ [])
    (htext : IsAsmapText bytes) (hbin : ∃ m, ASMap.fromBinary bytes = .ok m) :
    loadFile bytes inputName = .error (.Ambiguous inputName) := by
  obtain ⟨entries, htext⟩ := htext
  obtain ⟨m, hbin⟩ := hbin
  have hempty : bytes.isEmpty = false := by simpa using hne
  simp only [loadFile, binaryMap, hbin, textEntries_eq_ok.2 htext, bind, Except.bind, hempty,
    Except.isOk, Except.toBool]
  rfl

/-- Once the two cases are known there is no third. -/
theorem ReadsBack.of_cases {m : ASMap} {bytes : List UInt8} {other : Prop} {inputName : String}
    (ambiguous : bytes ≠ [] → other → loadFile bytes inputName = .error (.Ambiguous inputName))
    (loads : bytes = [] ∨ ¬other → loadFile bytes inputName = .ok m) :
    ReadsBack m bytes other inputName := by
  refine ⟨ambiguous, loads, fun m' hm' => ?_⟩
  by_cases hother : bytes = [] ∨ ¬other
  · exact Except.ok.inj (hm'.symm.trans (loads hother))
  · rw [not_or, not_not] at hother
    rw [ambiguous hother.1 hother.2] at hm'
    cases hm'

/-- **A written file is never read back as another map.**  A reachable map of paths of at most 128
bits and ASNs in range, none of whose Jump candidates is out of range, is loaded from the text and
from the binary file written for it, or the file is ambiguous. -/
theorem loadFile_of_saved {m : ASMap} (hm : m.Reachable) (hdepth : m.trie.depth ≤ 128)
    (hasn : ∀ v ∈ m.asns, v ≤ 33521664) (hjump : m.JumpsInRange false) (inputName : String) :
    (∀ overlapping, ∃ bytes, saveText m false overlapping = .ok bytes ∧
      ReadsBack m bytes (∃ m', ASMap.fromBinary bytes = .ok m') inputName) ∧
    ∃ bytes, saveBinary m false = .ok bytes ∧ ReadsBack m bytes (IsAsmapText bytes) inputName := by
  constructor
  · intro overlapping
    obtain ⟨L, hL, hdesc⟩ := m.toEntries_spec false overlapping
    obtain ⟨bytes, hbytes, htext⟩ :=
      saveText_spec hL fun e he => (hdesc.mem_spec he).1.trans hdepth
    have htext := htext fun e he => (hasn _ (hdesc.mem_spec he).2).trans_lt (by decide)
    have hback := hdesc.updateMulti hm.canonical (List.Perm.refl L)
    refine ⟨bytes, hbytes, .of_cases (fun hne hbin => ?_) fun hother => ?_⟩
    · exact loadFile_ambiguous hne ⟨L, htext⟩ hbin
    · refine loadFile_eq_ok.2 (.inl ⟨L, htext, hback, hother.imp_right fun hno => ?_⟩)
      exact (ASMap.fromBinary_ok_or_reject bytes).resolve_left hno
  · have hfit := ASMap.fits_of_jumpsInRange hasn hjump
    obtain ⟨bytes, hbytes, hback⟩ := ASMap.fromBinary_toBinary_of_canonical hm.canonical hasn hfit
    refine ⟨bytes, hbytes, .of_cases (fun hne htext => ?_) fun hother => ?_⟩
    · exact loadFile_ambiguous hne htext ⟨m, hback⟩
    · exact (loadFile_saveBinary hm.canonical hasn hbytes inputName).2 (.inl ⟨hfit, hother⟩)

/-- A map of two networks. -/
theorem loadFile_of_saved_two_networks :
    let m := ASMap.new.updateMulti [([true], 5), ([false, true], 7)]
    (∀ overlapping, ∃ bytes, saveText m false overlapping = .ok bytes ∧
      ReadsBack m bytes (∃ m', ASMap.fromBinary bytes = .ok m') "map") ∧
    ∃ bytes, saveBinary m false = .ok bytes ∧ ReadsBack m bytes (IsAsmapText bytes) "map" :=
  loadFile_of_saved (.updateMulti .new _) (by decide) (by decide) (by decide) "map"

end AsmapQuorum

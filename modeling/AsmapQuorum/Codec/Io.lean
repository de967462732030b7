import AsmapQuorum.Codec.Binary
import AsmapQuorum.Lib.Text
import AsmapQuorum.Net.Prefix
import Mathlib.Data.List.ReduceOption

/-!
# Map files

`io.rs` of the codec: a map is stored as text, one `NETWORK ASn` a line, or in the binary format,
and `load_file` finds out which it is by trying both.

* `AsmapText` — the text files, said without the parser: what each line says, and in which order.
  `textEntries_eq_ok`: **the parser accepts these and no others**.
* `loadFile_eq_ok` — when a file loads: as text if it is one, as binary if it is not, and **not at
  all if it is both**, unless it is empty.
* `loadFile_saveBinary` — hence **a map that was saved loads again exactly if its bytes are no
  text**.
* `TextIs` — the grammar of the text format, down to the digits; the parser lets through a plus sign
  in front of a length as well (`lineSays_iff`).
* `loadsByGrammar_iff` — **when a text that does not decode loads by its grammar**: unless it is
  well formed but for such signs.
-/

namespace AsmapQuorum

open Numeral Text

/-! ### The text format -/

/-- What a line is before its comment. -/
def uncommented (line : List Char) : List Char := line.takeWhile (· ≠ '#')

/-- One round of the loop over the lines. -/
def parseLine (line : List Char) : Except String (Option ASNEntry) :=
  let line := trim isWhitespace (uncommented line)
  if line.isEmpty then .ok none
  else
    match words isWhitespace line with
    | [pfx, asn] =>
      if ¬"AS".toList <+: asn ∨ String.utf8Len asn ≤ 2 ∨ ¬(asn.drop 2).all Char.isDigit then
        .error ("invalid ASN '" ++ .ofList asn ++ "'")
      else
        match parseNetworkPrefix (.ofList pfx) with
        | .error _ => .error ("invalid network '" ++ .ofList pfx ++ "'")
        | .ok (ip, prefixLen) =>
          match parseUnsigned (2 ^ 32) (asn.drop 2) with
          | none => .error ("invalid ASN '" ++ .ofList asn ++ "'")
          | some asnValue => .ok (some (ipToBits ip prefixLen, asnValue))
    | _ => .error ("unparseable line '" ++ .ofList line ++ "'")

def parseLines : List (List Char) → Except String (List ASNEntry)
  | [] => .ok []
  | line :: rest => do
    let entry ← parseLine line
    let entries ← parseLines rest
    return entry.toList ++ entries

/-- The text reading of a file. -/
def textEntries (contents : List UInt8) : Except String (List ASNEntry) :=
  match fromUtf8 contents with
  | none => .error "invalid UTF-8"
  | some text => parseLines (lines text)

/-! ### Loading and saving -/

/-- Failure loading an ASMap; reading the input stream is left to the caller here. -/
inductive LoadError where
  | Ambiguous (inputName : String)
  | Unrecognized (inputName reason : String)
  /-- Not an error of the source: `from_binary` aborted. -/
  | Aborted (p : Panic)
  deriving DecidableEq, Repr

/-- `from_binary`'s own result, the source's `Option`. -/
def binaryMap (contents : List UInt8) : Except LoadError (Option ASMap) :=
  match ASMap.fromBinary contents with
  | .ok state => .ok (some state)
  | .error .reject => .ok none
  | .error (.panic p) => .error (.Aborted p)

/-- `load_file` on the contents of the input. -/
def loadFile (contents : List UInt8) (inputName : String) : Except LoadError ASMap := do
  let binAsmap ← binaryMap contents
  if (textEntries contents).isOk && binAsmap.isSome && !contents.isEmpty then
    .error (.Ambiguous inputName)
  else
    match textEntries contents with
    | .ok entries => return ASMap.new.updateMulti entries
    | .error reason =>
      match binAsmap with
      | some state => return state
      | none => .error (.Unrecognized inputName reason)

/-- The bytes that `save_binary` writes. -/
def saveBinary (state : ASMap) (fill : Bool) : Except Panic (List UInt8) := state.toBinary fill

/-! ### What a text file says -/

/-- A line says nothing, or that a network belongs to an ASN. -/
inductive LineSays (line : List Char) : Option ASNEntry → Prop
  | blank (h : words isWhitespace (uncommented line) = []) : LineSays line none
  | entry {pfx digits : List Char} {ip : IpAddr} {prefixLen asn : ℕ}
      (hwords : words isWhitespace (uncommented line) = [pfx, 'A' :: 'S' :: digits])
      (hne : digits ≠ []) (hdigits : ∀ c ∈ digits, c.isDigit = true)
      (hnet : parseNetworkPrefix (.ofList pfx) = .ok (ip, prefixLen))
      (hasn : parseUnsigned (2 ^ 32) digits = some asn) :
      LineSays line (some (ipToBits ip prefixLen, asn))

/-- The bytes are a text whose lines say these entries. -/
def AsmapText (contents : List UInt8) (entries : List ASNEntry) : Prop :=
  ∃ text said, contents = text.flatMap String.utf8EncodeChar ∧
    List.Forall₂ LineSays (lines text) said ∧ said.reduceOption = entries

def IsAsmapText (contents : List UInt8) : Prop := ∃ entries, AsmapText contents entries

/-- The check of the source on the second field. -/
theorem asn_field_iff {asn : List Char} :
    ¬(¬"AS".toList <+: asn ∨ String.utf8Len asn ≤ 2 ∨ ¬(asn.drop 2).all Char.isDigit = true) ↔
      ∃ digits, asn = 'A' :: 'S' :: digits ∧ digits ≠ [] ∧ ∀ c ∈ digits, c.isDigit = true := by
  have hsize : ∀ digits : List Char, String.utf8Len ('A' :: 'S' :: digits) = 2 +
      String.utf8Len digits := by
    intro digits
    rw [String.utf8Len_cons, String.utf8Len_cons, show 'A'.utf8Size = 1 from rfl,
      show 'S'.utf8Size = 1 from rfl]
    omega
  rw [not_or, not_or, not_not, not_not, Nat.not_le, List.all_eq_true]
  constructor
  · rintro ⟨⟨digits, rfl⟩, hlen, hdigits⟩
    have hlen : 2 < String.utf8Len ('A' :: 'S' :: digits) := hlen
    rw [hsize] at hlen
    refine ⟨digits, rfl, ?_, hdigits⟩
    rintro rfl
    exact absurd hlen (by decide)
  · rintro ⟨digits, rfl, hne, hdigits⟩
    obtain ⟨c, rest, rfl⟩ := List.exists_cons_of_ne_nil hne
    have hpos := c.utf8Size_pos
    refine ⟨⟨c :: rest, rfl⟩, ?_, hdigits⟩
    rw [hsize, String.utf8Len_cons]
    omega

/-- **What the parser makes of a line is what the line says.** -/
theorem parseLine_eq_ok {line : List Char} {r : Option ASNEntry} :
    parseLine line = .ok r ↔ LineSays line r := by
  unfold parseLine
  dsimp only
  simp only [List.isEmpty_iff, trim_eq_nil, words_trim]
  constructor
  · intro h
    split at h
    · next hblank =>
      cases h
      exact .blank hblank
    · split at h
      · next pfx asn hwords =>
        split at h
        · cases h
        · next hfield =>
          obtain ⟨digits, rfl, hne, hdigits⟩ := asn_field_iff.1 hfield
          split at h
          · cases h
          · next ip prefixLen hnet =>
            split at h
            · cases h
            · next asnValue hasn =>
              cases h
              exact .entry hwords hne hdigits hnet hasn
      · cases h
  · intro h
    cases h with
    | blank hblank => rw [if_pos hblank]
    | entry hwords hne hdigits hnet hasn =>
      rw [if_neg (by rw [hwords]; exact List.cons_ne_nil _ _), hwords]
      dsimp only
      rw [if_neg (asn_field_iff.2 ⟨_, rfl, hne, hdigits⟩), hnet]
      simp only [List.drop_succ_cons, List.drop_zero, hasn]

theorem parseLines_eq_ok {ls : List (List Char)} {entries : List ASNEntry} :
    parseLines ls = .ok entries ↔
      ∃ said, List.Forall₂ LineSays ls said ∧ said.reduceOption = entries := by
  induction ls generalizing entries with
  | nil =>
    constructor
    · intro h
      cases h
      exact ⟨[], .nil, rfl⟩
    · rintro ⟨said, hsaid, rfl⟩
      cases hsaid
      rfl
  | cons line rest ih =>
    rw [parseLines, bind_eq_ok]
    constructor
    · rintro ⟨entry, hentry, h⟩
      obtain ⟨entries', hentries', h⟩ := bind_eq_ok.1 h
      obtain ⟨said, hsaid, rfl⟩ := ih.1 hentries'
      cases h
      refine ⟨entry :: said, .cons (parseLine_eq_ok.1 hentry) hsaid, ?_⟩
      cases entry <;> rfl
    · rintro ⟨said, hsaid, rfl⟩
      cases hsaid with
      | cons hentry hsaid =>
        rename_i entry said
        refine ⟨entry, parseLine_eq_ok.2 hentry, ?_⟩
        rw [ih.2 ⟨said, hsaid, rfl⟩]
        cases entry <;> rfl

/-- **The parser accepts exactly the text files.** -/
theorem textEntries_eq_ok {contents : List UInt8} {entries : List ASNEntry} :
    textEntries contents = .ok entries ↔ AsmapText contents entries := by
  unfold textEntries AsmapText
  constructor
  · intro h
    split at h
    · cases h
    · next text htext =>
      obtain ⟨said, hsaid, hentries⟩ := parseLines_eq_ok.1 h
      exact ⟨text, said, fromUtf8_eq_some.1 htext, hsaid, hentries⟩
  · rintro ⟨text, said, hcontents, hsaid, hentries⟩
    rw [fromUtf8_eq_some.2 hcontents]
    exact parseLines_eq_ok.2 ⟨said, hsaid, hentries⟩

/-! ### What loads -/

/-- **When a file loads, and as what.**  A file that is a text and decodes as well is ambiguous,
unless it is empty. -/
theorem loadFile_eq_ok {contents : List UInt8} {inputName : String} {m : ASMap} :
    loadFile contents inputName = .ok m ↔
      (∃ entries, AsmapText contents entries ∧ ASMap.new.updateMulti entries = m ∧
        (contents = [] ∨ ASMap.fromBinary contents = .error .reject)) ∨
      ¬IsAsmapText contents ∧ ASMap.fromBinary contents = .ok m := by
  have hempty : contents = [] → ASMap.fromBinary contents = .ok ASMap.new := by
    rintro rfl
    rfl
  unfold IsAsmapText
  simp only [← textEntries_eq_ok]
  unfold loadFile binaryMap
  cases hbin : ASMap.fromBinary contents with
  | ok state =>
    cases htext : textEntries contents with
    | ok entries =>
      cases contents <;> simp [Except.isOk, Except.toBool, bind, Except.bind, pure, Except.pure]
    | error reason => simp [Except.isOk, Except.toBool, bind, Except.bind, pure, Except.pure]
  | error stop =>
    cases stop with
    | reject =>
      cases htext : textEntries contents <;>
        simp [Except.isOk, Except.toBool, bind, Except.bind, pure, Except.pure]
    | panic p =>
      have hne : contents ≠ [] := by
        intro hnil
        rw [hempty hnil] at hbin
        cases hbin
      simp [hne, bind, Except.bind]

/-- **A saved map loads again exactly if its bytes are no text.**  Where a Jump does not fit, only a
text could load. -/
theorem loadFile_saveBinary {m : ASMap} (hm : m.trie.Canonical) (hasn : ∀ v ∈ m.asns, v ≤ 33521664)
    {contents : List UInt8} (h : saveBinary m false = .ok contents) (inputName : String) :
    loadFile contents inputName = .ok m ↔
      m.Fits false ∧ (contents = [] ∨ ¬IsAsmapText contents) ∨
      ¬m.Fits false ∧ ∃ entries, AsmapText contents entries ∧
      ASMap.new.updateMulti entries = m := by
  rw [loadFile_eq_ok]
  by_cases hfit : m.Fits false
  · obtain ⟨bytes, hbytes, hback⟩ := ASMap.fromBinary_toBinary_of_canonical hm hasn hfit
    obtain rfl : bytes = contents := Except.ok.inj (hbytes.symm.trans h)
    simp only [hfit, hback, true_and, not_true_eq_false, false_and, or_false, and_true]
    constructor
    · rintro (⟨entries, -, -, hnil | hreject⟩ | htext)
      · exact .inl hnil
      · cases hreject
      · exact .inr htext
    · rintro (rfl | htext)
      · -- the empty file is the empty text, and decodes to the empty map
        have hnew : ASMap.new = m := Except.ok.inj hback
        exact .inl ⟨[], ⟨[], [], rfl, .nil, rfl⟩, hnew, .inl rfl⟩
      · exact .inr htext
  · have hreject := ASMap.fromBinary_of_not_fits hasn hfit h
    simp [hfit, hreject]

/-! ### The grammar -/

/-- `ADDR/LEN`, the digits of `LEN` behind one of these signs. -/
def NetIs (signs : Set (List Char)) (net : List Char) (ip : IpAddr) (len : ℕ) : Prop :=
  ∃ addr sign digits, net = addr ++ '/' :: (sign ++ digits) ∧ sign ∈ signs ∧
    IpAddr.parse addr = some ip ∧ Decimal digits len ∧ len ≤ ip.width ∧ HostZero ip len

/-- A line without its comment is empty, or two fields: a network and `AS` with a number. -/
inductive LineIs (signs : Set (List Char)) (line : List Char) : Option ASNEntry → Prop
  | blank (h : trim isWhitespace (uncommented line) = []) : LineIs signs line none
  | entry {net digits : List Char} {ip : IpAddr} {len asn : ℕ}
      (hwords : words isWhitespace (trim isWhitespace (uncommented line)) = [net,
        'A' :: 'S' :: digits])
      (hnet : NetIs signs net ip len) (hasn : Decimal digits asn) (hle : asn ≤ 2 ^ 32 - 1) :
      LineIs signs line (some (ipToBits ip len, asn))

/-- Every line is one, with these entries in the order of the lines. -/
def TextIs (signs : Set (List Char)) (text : List Char) (entries : List ASNEntry) : Prop :=
  ∃ said, List.Forall₂ (LineIs signs) (lines text) said ∧ said.reduceOption = entries

/-- The parser of the standard library lets a plus sign pass. -/
def anySign : Set (List Char) := {sign | sign = [] ∨ sign = ['+']}

theorem slash_notMem {addr : List Char} {ip : IpAddr} (h : IpAddr.parse addr = some ip) :
    '/' ∉ addr :=
  IpAddr.notMem_of_parse ⟨rfl, by decide, by decide⟩ h

theorem parseNetworkPrefix_eq_ok_iff_netIs {net : List Char} {ip : IpAddr} {len : ℕ} :
    parseNetworkPrefix (.ofList net) = .ok (ip, len) ↔ NetIs anySign net ip len := by
  rw [parseNetworkPrefix_eq_ok]
  constructor
  · rintro ⟨⟨addr, digits, htext, -, hip, hlen⟩, hle, hzero⟩
    rw [String.toList_ofList] at htext
    obtain ⟨-, digits', hdigits, rfl | rfl⟩ := parseUnsigned_eq_some.1 hlen
    · exact ⟨addr, [], digits, htext, .inl rfl, hip, hdigits, hle, hzero⟩
    · exact ⟨addr, ['+'], digits', htext, .inr rfl, hip, hdigits, hle, hzero⟩
  · rintro ⟨addr, sign, digits, rfl, hsign, hip, hdigits, hle, hzero⟩
    have hlt : len < 256 := by
      have := width_le ip
      omega
    refine ⟨⟨addr, sign ++ digits, String.toList_ofList, slash_notMem hip, hip, ?_⟩, hle, hzero⟩
    refine parseUnsigned_eq_some.2 ⟨hlt, digits, hdigits, ?_⟩
    rcases hsign with rfl | rfl
    · exact .inl rfl
    · exact .inr rfl

/-- A number behind `AS`, which has been looked at for other characters than digits. -/
theorem decimal_iff {digits : List Char} {asn : ℕ} :
    Decimal digits asn ∧ asn ≤ 2 ^ 32 - 1 ↔
      (digits ≠ [] ∧ ∀ c ∈ digits, c.isDigit = true) ∧
      parseUnsigned (2 ^ 32) digits = some asn := by
  rw [parseUnsigned_eq_some]
  constructor
  · rintro ⟨hdigits, hle⟩
    refine ⟨⟨?_, fun c hc => ?_⟩, by omega, digits, hdigits, .inl rfl⟩
    · rintro rfl
      exact not_decimal_nil asn hdigits
    · obtain ⟨ds, -, hds, rfl, -⟩ := hdigits
      obtain ⟨d, hd, rfl⟩ := List.mem_map.1 hc
      exact (by decide : ∀ d < 10, (Nat.digitChar d).isDigit = true) d (hds d hd)
  · rintro ⟨⟨-, hall⟩, hlt, digits', hdigits, rfl | rfl⟩
    · exact ⟨hdigits, by omega⟩
    · exact absurd (hall '+' (List.mem_cons_self ..)) (by decide)

/-- The lines that the parser accepts are those of the grammar in which a sign may stand. -/
theorem lineSays_iff {line : List Char} {r : Option ASNEntry} :
    LineSays line r ↔ LineIs anySign line r := by
  constructor
  · intro h
    cases h with
    | blank hblank => exact .blank (trim_eq_nil.2 hblank)
    | entry hwords hne hdigits hnet hasn =>
      obtain ⟨hdecimal, hle⟩ := decimal_iff.2 ⟨⟨hne, hdigits⟩, hasn⟩
      exact .entry (by rwa [words_trim]) (parseNetworkPrefix_eq_ok_iff_netIs.1 hnet) hdecimal hle
  · intro h
    cases h with
    | blank hblank => exact .blank (trim_eq_nil.1 hblank)
    | entry hwords hnet hasn hle =>
      obtain ⟨⟨hne, hdigits⟩, hparse⟩ := decimal_iff.1 ⟨hasn, hle⟩
      rw [words_trim] at hwords
      exact .entry hwords hne hdigits (parseNetworkPrefix_eq_ok_iff_netIs.2 hnet) hparse

theorem asmapText_iff {text : List Char} {entries : List ASNEntry} :
    AsmapText (text.flatMap String.utf8EncodeChar) entries ↔ TextIs anySign text entries := by
  have hline : LineSays = LineIs anySign := by
    funext line r
    exact propext lineSays_iff
  constructor
  · rintro ⟨text', said, htext, hsaid, hentries⟩
    rw [← flatMap_utf8EncodeChar_injective htext, hline] at hsaid
    exact ⟨said, hsaid, hentries⟩
  · rintro ⟨said, hsaid, hentries⟩
    exact ⟨text, said, rfl, by rwa [hline], hentries⟩

/-- A length is written with a sign or without one. -/
theorem NetIs.not_signed {net : List Char} {ip ip' : IpAddr} {len len' : ℕ}
    (h : NetIs {[]} net ip len) (h' : NetIs {['+']} net ip' len') : False := by
  obtain ⟨addr, sign, digits, rfl, rfl, hip, hdigits, -⟩ := h
  obtain ⟨addr', sign', digits', hnet, rfl, hip', -⟩ := h'
  obtain ⟨-, rfl⟩ := append_sep_inj (slash_notMem hip) (slash_notMem hip') hnet
  exact not_decimal_plus digits' len hdigits

theorem LineIs.mono {signs signs' : Set (List Char)} (hsigns : signs ⊆ signs') {line : List Char}
    {r : Option ASNEntry} (h : LineIs signs line r) : LineIs signs' line r := by
  cases h with
  | blank hblank => exact .blank hblank
  | entry hwords hnet hasn hle =>
    obtain ⟨addr, sign, digits, heq, hsign, hrest⟩ := hnet
    exact .entry hwords ⟨addr, sign, digits, heq, hsigns hsign, hrest⟩ hasn hle

theorem LineIs.not_signed {line : List Char} {r : Option ASNEntry} {e : ASNEntry}
    (h : LineIs {[]} line r) (h' : LineIs {['+']} line (some e)) : False := by
  cases h' with
  | entry hwords' hnet' hasn' hle' =>
    cases h with
    | blank hblank =>
      rw [hblank] at hwords'
      cases hwords'
    | entry hwords hnet hasn hle =>
      obtain ⟨rfl, -⟩ := List.cons.inj (hwords.symm.trans hwords')
      exact hnet.not_signed hnet'

/-- Each line of the wider grammar is one of the narrower, or has a sign. -/
theorem LineIs.signless_or {line : List Char} {r : Option ASNEntry} (h : LineIs anySign line r) :
    LineIs {[]} line r ∨ ∃ e, LineIs {['+']} line (some e) := by
  cases h with
  | blank hblank => exact .inl (.blank hblank)
  | entry hwords hnet hasn hle =>
    obtain ⟨addr, sign, digits, heq, rfl | rfl, hrest⟩ := hnet
    · exact .inl (.entry hwords ⟨addr, [], digits, heq, rfl, hrest⟩ hasn hle)
    · exact .inr ⟨_, .entry hwords ⟨addr, ['+'], digits, heq, rfl, hrest⟩ hasn hle⟩

/-- The text loads as its grammar says: as the map of all its entries, or as nothing. -/
def LoadsByGrammar (text : List Char) : Prop :=
  ∀ inputName,
    (∀ m, loadFile (text.flatMap String.utf8EncodeChar) inputName = .ok m ↔
      ∃ entries, TextIs {[]} text entries ∧ ASMap.new.updateMulti entries = m) ∧
    ((∃ m, loadFile (text.flatMap String.utf8EncodeChar) inputName = .ok m) ∨
      ∃ reason, loadFile (text.flatMap String.utf8EncodeChar) inputName =
        .error (.Unrecognized inputName reason))

/-- What a text that does not decode loads as. -/
theorem loadFile_text {text : List Char}
    (h : ASMap.fromBinary (text.flatMap String.utf8EncodeChar) = .error .reject)
    (inputName : String) :
    (∀ m, loadFile (text.flatMap String.utf8EncodeChar) inputName = .ok m ↔
      ∃ entries, TextIs anySign text entries ∧ ASMap.new.updateMulti entries = m) ∧
    ((∃ m, loadFile (text.flatMap String.utf8EncodeChar) inputName = .ok m) ∨
      ∃ reason, loadFile (text.flatMap String.utf8EncodeChar) inputName =
        .error (.Unrecognized inputName reason)) := by
  constructor
  · intro m
    rw [loadFile_eq_ok, h]
    simp only [asmapText_iff, or_true, and_true, reduceCtorEq, and_false, or_false]
  · unfold loadFile binaryMap
    rw [h]
    cases textEntries (text.flatMap String.utf8EncodeChar) with
    | ok entries => exact .inl ⟨ASMap.new.updateMulti entries, rfl⟩
    | error reason => exact .inr ⟨reason, rfl⟩

/-- A text with a plus sign in front of a length loads where it should not. -/
theorem not_loadsByGrammar {text line : List Char} {entries : List ASNEntry} {e : ASNEntry}
    (h : ASMap.fromBinary (text.flatMap String.utf8EncodeChar) = .error .reject)
    (hentries : TextIs anySign text entries) (hline : line ∈ lines text)
    (hsign : LineIs {['+']} line (some e)) : ¬LoadsByGrammar text := by
  intro hload
  have hok := ((loadFile_text h "").1 _).2 ⟨entries, hentries, rfl⟩
  obtain ⟨_, ⟨said, hsaid, -⟩, -⟩ := ((hload "").1 _).1 hok
  have hsignless : List.Forall₂ (fun line r => (¬∃ e, LineIs {['+']} line (some e)) ∧
    LineIs {[]} line r)
      (lines text) said :=
    hsaid.imp fun line r hr => ⟨fun ⟨_, he⟩ => hr.not_signed he, hr⟩
  exact ((List.forall₂_and_left _ _).1 hsignless).1 line hline ⟨e, hsign⟩

/-- **A text that does not decode loads by its grammar** unless all its lines are well formed but
for plus signs in front of lengths, and there is such a sign. -/
theorem loadsByGrammar_iff {text : List Char}
    (h : ASMap.fromBinary (text.flatMap String.utf8EncodeChar) = .error .reject) :
    LoadsByGrammar text ↔ ¬((∃ entries, TextIs anySign text entries) ∧
      ∃ line ∈ lines text, ∃ e, LineIs {['+']} line (some e)) := by
  constructor
  · rintro hload ⟨⟨entries, hentries⟩, line, hline, e, hsign⟩
    exact not_loadsByGrammar h hentries hline hsign hload
  · intro hnot inputName
    obtain ⟨hok, herror⟩ := loadFile_text h inputName
    refine ⟨fun m => (hok m).trans ⟨?_, ?_⟩, herror⟩
    · rintro ⟨entries, ⟨said, hsaid, hentries⟩, hm⟩
      have hsignless : ∀ line ∈ lines text, ¬∃ e, LineIs {['+']} line (some e) :=
        fun line hline hsign =>
        hnot ⟨⟨entries, said, hsaid, hentries⟩, line, hline, hsign⟩
      refine ⟨entries, ⟨said, ?_, hentries⟩, hm⟩
      exact ((List.forall₂_and_left _ _).2 ⟨hsignless, hsaid⟩).imp fun line r hr =>
        hr.2.signless_or.resolve_right hr.1
    · rintro ⟨entries, ⟨said, hsaid, hentries⟩, hm⟩
      have hsub : {[]} ⊆ anySign := Set.singleton_subset_iff.2 (.inl rfl)
      exact ⟨entries, ⟨said, hsaid.imp fun line r hline => hline.mono hsub, hentries⟩, hm⟩

/-- A line, and a comment. -/
theorem loadsByGrammar_iff_comment :
    LoadsByGrammar "::/0 AS9\n# rest".toList ↔
      ¬((∃ entries, TextIs anySign "::/0 AS9\n# rest".toList entries) ∧
        ∃ line ∈ lines "::/0 AS9\n# rest".toList, ∃ e, LineIs {['+']} line (some e)) :=
  loadsByGrammar_iff (by decide)

/-- A file of one line, with a plus sign in front of the length, loads as a map. -/
theorem not_loadsByGrammar_plus :
    ¬∀ text : List Char, ASMap.fromBinary (text.flatMap String.utf8EncodeChar) = .error .reject →
      LoadsByGrammar text := by
  intro h
  have hbin : ASMap.fromBinary ("::/+0 AS7\n".toList.flatMap String.utf8EncodeChar) =
      .error .reject := by decide
  have hnet : NetIs {['+']} "::/+0".toList (.V6 0) 0 :=
    ⟨"::".toList, ['+'], "0".toList, by decide, rfl, by decide,
      ⟨[0], by decide, by decide, by decide, by decide⟩, by decide, fun i _ => BitVec.getMsbD_zero⟩
  have hwords : words isWhitespace (trim isWhitespace (uncommented "::/+0 AS7".toList)) =
      ["::/+0".toList, "AS7".toList] := by decide
  have hline : LineIs {['+']} "::/+0 AS7".toList (some (ipToBits (.V6 0) 0, 7)) :=
    .entry hwords hnet ⟨[7], by decide, by decide, by decide, by decide⟩ (by decide)
  have hsub : {['+']} ⊆ anySign := Set.singleton_subset_iff.2 (.inr rfl)
  exact not_loadsByGrammar hbin ⟨_, .cons (hline.mono hsub) .nil, rfl⟩ (by decide) hline (h _ hbin)

end AsmapQuorum

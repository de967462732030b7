import AsmapQuorum.Quorum.AsPath

/-!
# The framing of attributes

A header declares how long its attribute is.  For an AS path the parser reads a segment by the
segment's own count first, and then passes over what remains of the declared length: nothing remains
of an attribute that the segment has left behind.

* `Framed` — reading one attribute ends where the attribute ends, and takes a path from nowhere
  else.
* `framed_iff_not_overruns` — this holds but where a complete segment overruns its attribute,
  `Overruns`.
* `Reaches`, `KeepsToAttributes` — the same for all the attributes that `parse` comes to;
  `framing` — **it keeps to attributes** but where well-formed ones lead to an overrun.
* `exists_attributes_of_parse` — a buffer that is parsed so is an encoding, of the attributes that
  were read.
-/

namespace AsmapQuorum

open Cursor Reading

namespace AsPathParser

/-! ### One attribute -/

/-- Where an attribute is read, `next` moves on by its header and the length declared there, and a
path that is returned stands at the head of so many bytes. -/
def Framed (buffer : List UInt8) (next : ℕ) : Prop :=
  ∀ r j, parseAttribute buffer next = (.ok r, j) →
    ∃ flag typeCode n, n < 256 ^ lengthSize flag ∧
    OccursAt buffer next (headerBytes flag typeCode n) ∧
      j = next + (2 + lengthSize flag) + n ∧
      ∀ asns, r = some asns → ∃ seg : AsSegment, seg.path = some asns ∧
        seg.bytes <+: (buffer.drop (next + (2 + lengthSize flag))).take n

/-- Behind the header of an AS path stands a complete segment, longer than the header says. -/
def Overruns (buffer : List UInt8) (next : ℕ) : Prop :=
  ∃ flag n, ∃ seg : AsSegment, n < 256 ^ lengthSize flag ∧
    OccursAt buffer next (headerBytes flag 2 n ++ seg.bytes) ∧ n < seg.bytes.length

/-- A segment that does not overrun its attribute is inside of it. -/
theorem length_le_of_not_overruns {buffer further : List UInt8} {next n : ℕ} {flag : UInt8}
    {seg : AsSegment} (hnot : ¬Overruns buffer next) (hn : n < 256 ^ lengthSize flag)
    (hocc : OccursAt buffer next (headerBytes flag 2 n ++ (seg.bytes ++ further))) :
    seg.bytes.length ≤ n := by
  refine Nat.le_of_not_lt fun hlt => hnot ⟨flag, n, seg, hn, ?_, hlt⟩
  rw [← List.append_assoc, occursAt_append] at hocc
  exact hocc.1

/-- **One attribute is framed** unless its segment overruns it. -/
theorem framed_iff_not_overruns {buffer : List UInt8} {next : ℕ} :
    Framed buffer next ↔ ¬Overruns buffer next := by
  constructor
  · rintro hframed ⟨flag, n, seg, hn, hocc, hover⟩
    have hreads : Reads (headerBytes flag 2 n ++ (seg.bytes ++ [])) seg.path :=
      .asPath seg hn (by rw [List.length_nil]; omega)
    rw [List.append_nil] at hreads
    have hparse := (accepts_parseAttribute buffer next _ _).2 ⟨_, hreads, hocc, rfl⟩
    obtain ⟨flag', typeCode', n', hn', hocc', hnext, -⟩ := hframed _ _ hparse
    obtain ⟨rfl, rfl, rfl⟩ := headerBytes_unique hn hn' ((occursAt_append ..).1 hocc).1 hocc'
    rw [List.length_append, length_headerBytes] at hnext
    omega
  · intro hnot r j hparse
    obtain ⟨_, hreads, hocc, rfl⟩ := (accepts_parseAttribute buffer next r j).1 hparse
    cases hreads with
    | @other flag typeCode n value hn htype hlen =>
      refine ⟨flag, typeCode, n, hn, ((occursAt_append ..).1 hocc).1, ?_, fun asns h => by cases h⟩
      rw [List.length_append, length_headerBytes]
      omega
    | @asPath flag n seg further hn hlen =>
      obtain ⟨hheader, hvalue⟩ := (occursAt_append ..).1 hocc
      have hle := length_le_of_not_overruns hnot hn hocc
      refine ⟨flag, 2, n, hn, hheader, ?_, fun asns hasns => ⟨seg, hasns, ?_⟩⟩
      · rw [List.length_append, List.length_append, length_headerBytes]
        omega
      · rw [length_headerBytes, occursAt_append] at hvalue
        exact List.prefix_take_iff.2 ⟨hvalue.1, hle⟩

/-! ### All attributes -/

/-- The positions at which `parse` reads an attribute, and the one behind the last. -/
inductive Reaches (buffer : List UInt8) : ℕ → Prop
  | start : Reaches buffer 0
  | step {i j : ℕ} {r : Option (List ℕ)} (h : Reaches buffer i) (hmore : i < buffer.length)
      (hparse : parseAttribute buffer i = (.ok r, j)) (hne : r ≠ some []) : Reaches buffer j

/-- Each attribute is framed, and starts behind well-formed ones. -/
def KeepsToAttributes (buffer : List UInt8) : Prop :=
  ∀ next, Reaches buffer next → Framed buffer next ∧
    ∃ attrs : List PathAttribute, attrs.flatMap PathAttribute.bytes <+: buffer ∧
      (attrs.flatMap PathAttribute.bytes).length = next

/-- What is read without an overrun is a well-formed attribute. -/
theorem exists_attribute {buffer : List UInt8} {i j : ℕ} {r : Option (List ℕ)}
    (hnot : ¬Overruns buffer i) (hparse : parseAttribute buffer i = (.ok r, j))
    (hne : r ≠ some []) :
    ∃ a : PathAttribute, OccursAt buffer i a.bytes ∧ a.path = r ∧ j = i + a.bytes.length := by
  obtain ⟨_, hreads, hocc, rfl⟩ := (accepts_parseAttribute buffer i r j).1 hparse
  cases hreads with
  | @other flag typeCode n value hn htype hlen =>
    subst hlen
    exact ⟨⟨flag, .other typeCode htype value, hn⟩, hocc, rfl, rfl⟩
  | @asPath flag n seg further hn hlen =>
    have hle := length_le_of_not_overruns hnot hn hocc
    have hsum : (seg.bytes ++ further).length = n := by
      rw [List.length_append]
      omega
    have hordered : seg.ordered = true → seg.asns ≠ [] := by
      intro hordered hnil
      refine hne ?_
      rw [AsSegment.path, if_pos hordered, hnil]
    subst hsum
    exact ⟨⟨flag, .asPath seg hordered further, hn⟩, hocc, rfl, rfl⟩

/-- Well-formed attributes are read up to any of them. -/
theorem reaches_flatMap {buffer : List UInt8} (attrs : List PathAttribute)
    (h : attrs.flatMap PathAttribute.bytes <+: buffer) :
    Reaches buffer (attrs.flatMap PathAttribute.bytes).length := by
  induction attrs using List.reverseRecOn with
  | nil => exact .start
  | append_singleton attrs a ih =>
    rw [List.flatMap_append, List.flatMap_singleton] at h ⊢
    have hreach := ih ((List.prefix_append _ _).trans h)
    have hocc : OccursAt buffer (0 + (attrs.flatMap PathAttribute.bytes).length) a.bytes :=
      ((occursAt_append buffer 0 _ _).1 h).2
    rw [Nat.zero_add] at hocc
    have hlen := h.length_le
    have hpos := List.length_pos_iff.2 a.bytes_ne_nil
    rw [List.length_append] at hlen ⊢
    exact hreach.step (by omega) (parseAttribute_bytes a hocc) a.path_ne

/-- **The framing of attributes.**  Reading one is framed exactly if its segment does not overrun
it; reading all of them keeps to attributes exactly if no well-formed attributes lead to such a
segment. -/
theorem framing (buffer : List UInt8) :
    (∀ next, Framed buffer next ↔ ¬Overruns buffer next) ∧
    (KeepsToAttributes buffer ↔ ∀ attrs : List PathAttribute,
      attrs.flatMap PathAttribute.bytes <+: buffer →
        ¬Overruns buffer (attrs.flatMap PathAttribute.bytes).length) := by
  refine ⟨fun next => framed_iff_not_overruns, ?_, ?_⟩
  · intro hkeeps attrs hattrs
    exact framed_iff_not_overruns.1 (hkeeps _ (reaches_flatMap attrs hattrs)).1
  · intro hnot
    have hchain : ∀ next, Reaches buffer next → ∃ attrs : List PathAttribute,
        attrs.flatMap PathAttribute.bytes <+: buffer ∧
          (attrs.flatMap PathAttribute.bytes).length = next := by
      intro next h
      induction h with
      | start => exact ⟨[], List.nil_prefix, rfl⟩
      | step h hmore hparse hne ih =>
        obtain ⟨attrs, hattrs, rfl⟩ := ih
        obtain ⟨a, hocc, -, rfl⟩ := exists_attribute (hnot attrs hattrs) hparse hne
        refine ⟨attrs ++ [a], ?_, ?_⟩
        · rw [List.flatMap_append, List.flatMap_singleton]
          refine (occursAt_append buffer 0 _ _).2 ⟨hattrs, ?_⟩
          rwa [Nat.zero_add]
        · rw [List.flatMap_append, List.flatMap_singleton, List.length_append]
    intro next h
    obtain ⟨attrs, hattrs, rfl⟩ := hchain next h
    exact ⟨framed_iff_not_overruns.2 (hnot attrs hattrs), attrs, hattrs, rfl⟩

/-- An AS path of no bytes, and behind it bytes that are taken for its sequence. -/
theorem not_framed_empty :
    parse [0x40, 2, 0, 2, 1, 0, 0, 0, 9] = .ok [9] ∧ ¬Framed [0x40, 2, 0, 2, 1, 0, 0, 0, 9] 0 := by
  refine ⟨by decide, fun hframed => ?_⟩
  have hocc : headerBytes 0x40 2 0 ++ (AsSegment.mk true [9] (by decide) (by decide)).bytes <+:
      List.drop 0 [0x40, 2, 0, 2, 1, 0, 0, 0, 9] := by decide
  exact framed_iff_not_overruns.1 hframed ⟨0x40, 0, _, by decide, hocc, by decide⟩

/-! ### What is parsed -/

/-- The loop goes on to the end of the buffer, over positions that are reached. -/
theorem reaches_of_attributesLoop {buffer : List UInt8} {fuel i j : ℕ}
    {paths paths' : List (List ℕ)} (h : Reaches buffer i)
    (hloop : attributesLoop fuel paths buffer i = (.ok paths', j)) :
    Reaches buffer j ∧ buffer.length ≤ j := by
  induction fuel generalizing paths i with
  | zero => exact (fail_ne_ok hloop).elim
  | succ fuel ih =>
    obtain ⟨b, k, hmore, hloop⟩ := bind_ok_iff.1 hloop
    obtain ⟨hb, hk⟩ := more_ok_iff.1 hmore
    subst k
    cases b with
    | false =>
      obtain ⟨-, rfl⟩ := pure_ok_iff.1 hloop
      exact ⟨h, Nat.le_of_not_lt (of_decide_eq_false hb.symm)⟩
    | true =>
      have hlt := of_decide_eq_true hb.symm
      obtain ⟨r, k, hparse, hloop⟩ := bind_ok_iff.1 hloop
      cases r with
      | none => exact ih (h.step hlt hparse (by simp)) hloop
      | some path =>
        dsimp only at hloop
        split at hloop
        · exact (fail_ne_ok hloop).elim
        · next hempty =>
          refine ih (h.step hlt hparse fun hnil => hempty ?_) hloop
          rw [Option.some.inj hnil]
          rfl

/-- **What is parsed without an overrun is an encoding**, of attributes with one sequence. -/
theorem exists_attributes_of_parse {buffer : List UInt8} {asns : List ℕ}
    (hkeeps : KeepsToAttributes buffer) (h : parse buffer = .ok asns) :
    ∃ attrs : List PathAttribute, attrs.flatMap PathAttribute.bytes = buffer ∧
      attrs.filterMap PathAttribute.path = [asns] := by
  have hbuffer : buffer.isEmpty = false := by
    rw [← Bool.not_eq_true]
    intro hempty
    rw [parse, if_pos hempty] at h
    cases h
  have hrun : parseAttributes (buffer.length + 1) buffer 0 =
      (.ok asns, (parseAttributes (buffer.length + 1) buffer 0).2) := by
    rw [parse, hbuffer, if_neg Bool.false_ne_true] at h
    exact Prod.ext h rfl
  obtain ⟨paths, j, hloop, -⟩ := bind_ok_iff.1 hrun
  obtain ⟨hreach, hle⟩ := reaches_of_attributesLoop .start hloop
  obtain ⟨attrs, hattrs, rfl⟩ := (hkeeps j hreach).2
  obtain rfl := hattrs.eq_of_length_le hle
  refine ⟨attrs, rfl, ?_⟩
  have hne : attrs ≠ [] := by
    rintro rfl
    cases hbuffer
  rw [parse_flatMap_bytes hne] at h
  cases hpaths : attrs.filterMap PathAttribute.path with
  | nil =>
    rw [hpaths] at h
    cases h
  | cons path rest =>
    rw [hpaths] at h
    cases rest with
    | nil => rw [Except.ok.inj h]
    | cons path' rest => cases h

end AsPathParser

end AsmapQuorum

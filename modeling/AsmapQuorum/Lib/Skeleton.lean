import AsmapQuorum.Lib.PrefixOverwrite
import Mathlib.Data.List.Nodup
import Mathlib.Data.List.Flatten

/-!
# Skeletons

The shape of a binary trie whose leaves are still to be filled in.

* `Skeleton`, `holes` — a hole has a name, and a path from the root.
* `exists_covers`, `eq_of_covers` — **every stream goes through exactly one hole**.
* `split`, `holes_split_perm` — a hole gives way to two, below it.
-/

open PrefixOverwrite

inductive Skeleton (ι : Type*) where
  | hole (i : ι)
  | node (l r : Skeleton ι)

namespace Skeleton

variable {ι : Type*}

/-- The holes and their paths, from left to right. -/
def holes : Skeleton ι → List (ι × List Bool)
  | hole i => [(i, [])]
  | node l r => (l.holes.map fun h => (h.1, false :: h.2)) ++ r.holes.map fun h =>
    (h.1, true :: h.2)

theorem mem_holes_node {l r : Skeleton ι} {h : ι × List Bool} : h ∈ (node l r).holes ↔
    (∃ d ∈ l.holes, (d.1, false :: d.2) = h) ∨ ∃ d ∈ r.holes, (d.1, true :: d.2) = h := by
  simp only [holes, List.mem_append, List.mem_map]

theorem length_holes_node (l r : Skeleton ι) :
    (node l r).holes.length = l.holes.length + r.holes.length := by
  rw [holes, List.length_append, List.length_map, List.length_map]

/-! ### Streams -/

theorem exists_covers (s : Skeleton ι) (x : Stream' Bool) : ∃ h ∈ s.holes, Covers h.2 x := by
  induction s generalizing x with
  | hole i => exact ⟨(i, []), List.mem_singleton_self _, covers_nil x⟩
  | node l r ihl ihr =>
    cases hx : x.head with
    | false =>
      obtain ⟨h, hmem, hcov⟩ := ihl x.tail
      exact ⟨_, mem_holes_node.2 (.inl ⟨h, hmem, rfl⟩), (covers_cons false h.2 x).2 ⟨hx, hcov⟩⟩
    | true =>
      obtain ⟨h, hmem, hcov⟩ := ihr x.tail
      exact ⟨_, mem_holes_node.2 (.inr ⟨h, hmem, rfl⟩), (covers_cons true h.2 x).2 ⟨hx, hcov⟩⟩

theorem eq_of_covers {s : Skeleton ι} {h h' : ι × List Bool} (hh : h ∈ s.holes) (hh' : h' ∈ s.holes)
    {x : Stream' Bool} (hx : Covers h.2 x) (hx' : Covers h'.2 x) : h = h' := by
  induction s generalizing h h' x with
  | hole i => rw [List.mem_singleton.1 hh, List.mem_singleton.1 hh']
  | node l r ihl ihr =>
    obtain ⟨d, hd, rfl⟩ | ⟨d, hd, rfl⟩ := mem_holes_node.1 hh <;>
    obtain ⟨d', hd', rfl⟩ | ⟨d', hd', rfl⟩ := mem_holes_node.1 hh' <;>
    obtain ⟨hhead, htail⟩ := (covers_cons _ _ x).1 hx <;>
    obtain ⟨hhead', htail'⟩ := (covers_cons _ _ x).1 hx'
    · rw [ihl hd hd' htail htail']
    · exact absurd (hhead.symm.trans hhead') (by decide)
    · exact absurd (hhead.symm.trans hhead') (by decide)
    · rw [ihr hd hd' htail htail']

/-- No two holes have the same path. -/
theorem nodup_paths (s : Skeleton ι) : (s.holes.map Prod.snd).Nodup := by
  induction s with
  | hole i => exact List.nodup_singleton _
  | node l r ihl ihr =>
    have hpaths : ((node l r).holes.map Prod.snd) =
        (l.holes.map Prod.snd).map (List.cons false) ++ (r.holes.map Prod.snd).map
          (List.cons true) := by
      rw [holes, List.map_append, List.map_map, List.map_map, List.map_map, List.map_map]
      rfl
    rw [hpaths, List.nodup_append]
    refine ⟨ihl.map List.cons_injective, ihr.map List.cons_injective, ?_⟩
    intro p hp q hq heq
    obtain ⟨p', -, rfl⟩ := List.mem_map.1 hp
    obtain ⟨q', -, rfl⟩ := List.mem_map.1 hq
    exact absurd (List.cons.inj heq).1 (by decide)

/-! ### Splitting a hole -/

section Split

variable [DecidableEq ι]

def split (s : Skeleton ι) (t a b : ι) : Skeleton ι :=
  match s with
  | hole i => if i = t then node (hole a) (hole b) else hole i
  | node l r => node (l.split t a b) (r.split t a b)

/-- A name that no hole has splits none. -/
theorem split_of_notMem {s : Skeleton ι} {t : ι} (h : t ∉ s.holes.map Prod.fst) (a b : ι) :
    s.split t a b = s := by
  induction s with
  | hole i =>
    rw [holes, List.map_singleton, List.mem_singleton] at h
    exact if_neg (Ne.symm h)
  | node l r ihl ihr =>
    rw [holes, List.map_append, List.map_map, List.map_map, List.mem_append, not_or] at h
    rw [split, ihl h.1, ihr h.2]

/-- What a hole gives way to when `t` is split. -/
def halves (t a b : ι) (h : ι × List Bool) : List (ι × List Bool) :=
  if h.1 = t then [(a, h.2 ++ [false]), (b, h.2 ++ [true])] else [h]

theorem holes_split (s : Skeleton ι) (t a b : ι) :
    (s.split t a b).holes = s.holes.flatMap (halves t a b) := by
  have hpush : ∀ (c : Bool) (d : ι × List Bool),
      (halves t a b d).map (fun h => (h.1, c :: h.2)) = halves t a b (d.1, c :: d.2) := by
    intro c d
    by_cases hd : d.1 = t <;> simp [halves, hd]
  induction s with
  | hole i => by_cases hi : i = t <;> simp [split, holes, halves, hi]
  | node l r ihl ihr =>
    rw [split, holes, ihl, ihr, holes, List.flatMap_append, List.map_flatMap, List.map_flatMap,
      List.flatMap_map, List.flatMap_map]
    simp only [hpush]

theorem flatMap_halves_of_notMem {t a b : ι} {L : List (ι × List Bool)} (h : t ∉ L.map Prod.fst) :
    L.flatMap (halves t a b) = L := by
  induction L with
  | nil => rfl
  | cons d L ih =>
    rw [List.map_cons, List.mem_cons, not_or] at h
    have hd : halves t a b d = [d] := if_neg (Ne.symm h.1)
    rw [List.flatMap_cons, hd, ih h.2]
    rfl

/-- **Splitting** replaces one hole by the two below it. -/
theorem holes_split_perm {s : Skeleton ι} {t : ι} {p : List Bool} {L : List (ι × List Bool)}
    (hp : s.holes.Perm ((t, p) :: L)) (ht : t ∉ L.map Prod.fst) (a b : ι) :
    (s.split t a b).holes.Perm (L ++ [(a, p ++ [false]), (b, p ++ [true])]) := by
  have hhalves : halves t a b (t, p) = [(a, p ++ [false]), (b, p ++ [true])] := if_pos rfl
  have hflat := hp.flatMap_right (halves t a b)
  rw [← holes_split, List.flatMap_cons, flatMap_halves_of_notMem ht, hhalves] at hflat
  exact hflat.trans List.perm_append_comm

end Split

end Skeleton

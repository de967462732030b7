import AsmapQuorum.Lib.Reading

/-!
# Cursors

A cursor reads a buffer from a position on, as a parser does that moves a field of its own forward:
where it fails, it stays where it got to.

* `next`, `skip`, `times`, `position`, `more`, `attempt` — what such parsers are made of.
* `bind_ok_iff`, `next_ok_iff`, `attempt_ok_iff` — when a step succeeds.
* `Accepts r L` — **a reader of words**: from any position of any buffer it succeeds exactly where
  one of the words stands that `L` relates to its result, and stops behind it.  `Accepts.bind` is
  the rule for sequences, `Accepts.times` for rounds.
* `FailsWith r bad` — the errors of a reader, with rules for the same steps.
-/

open Reading

/-- A reader that keeps its position when it fails. -/
def Cursor (β ε α : Type) : Type := List β → ℕ → Except ε α × ℕ

namespace Cursor

variable {β ε α γ : Type}

instance : Monad (Cursor β ε) where
  pure a := fun _ i => (.ok a, i)
  bind r f := fun s i =>
    match r s i with
    | (.ok a, j) => f a s j
    | (.error e, j) => (.error e, j)

def fail (e : ε) : Cursor β ε α := fun _ i => (.error e, i)

/-- One letter; `e` is the error at the end of the buffer. -/
def next (e : ε) : Cursor β ε β := fun s i =>
  match s[i]? with
  | some b => (.ok b, i + 1)
  | none => (.error e, i)

def position : Cursor β ε ℕ := fun _ i => (.ok i, i)

/-- The end of the buffer is not reached. -/
def more : Cursor β ε Bool := fun s i => (.ok (decide (i < s.length)), i)

/-- The outcome of a reader as a value; it has moved all the same. -/
def attempt (r : Cursor β ε α) : Cursor β ε (Except ε α) := fun s i => (.ok (r s i).1, (r s i).2)

/-- An outcome that was kept. -/
def ofExcept (r : Except ε α) : Cursor β ε α := fun _ i => (r, i)

/-- The results of so many rounds, in their order. -/
def times : ℕ → Cursor β ε α → Cursor β ε (List α)
  | 0, _ => pure []
  | n + 1, r => do
    let a ← r
    let rest ← times n r
    return a :: rest

/-- So many letters are passed over. -/
def skip (e : ε) (n : ℕ) : Cursor β ε Unit := do
  let _ ← times n (next e)

/-! ### When a step succeeds -/

section Steps

variable {s : List β} {i j : ℕ} {a : α} {c : γ}

@[simp] theorem pure_ok_iff {a' : α} : (pure a : Cursor β ε α) s i = (.ok a', j) ↔ a' = a ∧
    j = i := by
  show (Except.ok a, i) = (Except.ok a', j) ↔ _
  rw [Prod.mk.injEq, Except.ok.injEq, eq_comm, @eq_comm _ i]

@[simp] theorem bind_ok_iff {r : Cursor β ε α} {f : α → Cursor β ε γ} :
    (r >>= f) s i = (.ok c, j) ↔ ∃ a k, r s i = (.ok a, k) ∧ f a s k = (.ok c, j) := by
  show (match r s i with
    | (.ok a, k) => f a s k
    | (.error e, k) => (.error e, k)) = _ ↔ _
  constructor
  · intro h
    split at h
    · next a k hr => exact ⟨a, k, hr, h⟩
    · cases h
  · rintro ⟨a, k, hr, h⟩
    rw [hr]
    exact h

/-- What a step that succeeded goes on to. -/
theorem bind_of_eq {r : Cursor β ε α} (h : r s i = (.ok a, j)) (f : α → Cursor β ε γ) :
    (r >>= f) s i = f a s j := by
  show (match r s i with
    | (.ok a, k) => f a s k
    | (.error e, k) => (.error e, k)) = _
  rw [h]

@[simp] theorem fail_ne_ok {e : ε} : ¬(fail e : Cursor β ε α) s i = (.ok a, j) := by
  intro h
  cases h

@[simp] theorem next_ok_iff {e : ε} {b : β} : next e s i = (.ok b, j) ↔ s[i]? = some b ∧
    j = i + 1 := by
  unfold next
  cases s[i]? with
  | none => simp
  | some b' => simp [eq_comm]

@[simp] theorem position_ok_iff {k : ℕ} : (position : Cursor β ε ℕ) s i = (.ok k, j) ↔ k = i ∧
    j = i := by
  simp [position, eq_comm]

@[simp] theorem more_ok_iff {b : Bool} :
    (more : Cursor β ε Bool) s i = (.ok b, j) ↔ b = decide (i < s.length) ∧ j = i := by
  simp [more, eq_comm]

@[simp] theorem attempt_ok_iff {r : Cursor β ε α} {o : Except ε α} :
    attempt r s i = (.ok o, j) ↔ r s i = (o, j) := by
  simp [attempt, Prod.ext_iff]

@[simp] theorem ofExcept_ok_iff {o : Except ε α} : ofExcept o s i = (.ok a, j) ↔ o = .ok a ∧
    j = i := by
  simp [ofExcept, eq_comm]

end Steps

/-! ### Readers of words -/

/-- From any position of any buffer the reader succeeds exactly where a word stands that belongs to
its result, and stops behind the word. -/
def Accepts (r : Cursor β ε α) (L : List β → α → Prop) : Prop :=
  ∀ s i a j, r s i = (.ok a, j) ↔ ∃ w, L w a ∧ OccursAt s i w ∧ j = i + w.length

theorem accepts_pure (a : α) : Accepts (pure a : Cursor β ε α) fun w c => w = [] ∧ c = a := by
  intro s i c j
  rw [pure_ok_iff]
  constructor
  · rintro ⟨rfl, rfl⟩
    exact ⟨[], ⟨rfl, rfl⟩, occursAt_nil s _, rfl⟩
  · rintro ⟨_, ⟨rfl, rfl⟩, -, rfl⟩
    exact ⟨rfl, rfl⟩

theorem accepts_fail (e : ε) : Accepts (fail e : Cursor β ε α) fun _ _ => False := by
  intro s i a j
  exact iff_of_false fail_ne_ok fun ⟨_, h, _⟩ => h

theorem accepts_next (e : ε) : Accepts (next e : Cursor β ε β) fun w b => w = [b] := by
  intro s i b j
  simp

theorem Accepts.ite {r r' : Cursor β ε α} {L L' : List β → α → Prop} {p : Prop} [Decidable p]
    (h : Accepts r L) (h' : Accepts r' L') :
    Accepts (if p then r else r') fun w a => if p then L w a else L' w a := by
  by_cases hp : p
  · simpa only [if_pos hp] using h
  · simpa only [if_neg hp] using h'

/-- One reader behind another. -/
theorem Accepts.bind {r : Cursor β ε α} {f : α → Cursor β ε γ} {L : List β → α → Prop}
    {M : α → List β → γ → Prop} (hr : Accepts r L) (hf : ∀ a, Accepts (f a) (M a)) :
    Accepts (r >>= f) fun w c => ∃ u v a, w = u ++ v ∧ L u a ∧ M a v c := by
  intro s i c j
  rw [bind_ok_iff]
  constructor
  · rintro ⟨a, k, h, hrest⟩
    obtain ⟨u, hu, hocc, rfl⟩ := (hr s i a k).1 h
    obtain ⟨v, hv, hocc', rfl⟩ := (hf a s _ c j).1 hrest
    refine ⟨u ++ v, ⟨u, v, a, rfl, hu, hv⟩, (occursAt_append s i u v).2 ⟨hocc, hocc'⟩, ?_⟩
    rw [List.length_append, Nat.add_assoc]
  · rintro ⟨_, ⟨u, v, a, rfl, hu, hv⟩, hocc, rfl⟩
    obtain ⟨hocc, hocc'⟩ := (occursAt_append s i u v).1 hocc
    refine ⟨a, _, (hr s i a _).2 ⟨u, hu, hocc, rfl⟩, (hf a s _ c _).2 ⟨v, hv, hocc', ?_⟩⟩
    rw [List.length_append, Nat.add_assoc]

theorem Accepts.congr {r : Cursor β ε α} {L M : List β → α → Prop} (h : Accepts r L)
    (hLM : ∀ w a, L w a ↔ M w a) : Accepts r M := by
  intro s i a j
  simp only [h s i a j, hLM]

/-- **Rounds of a reader** whose words are codes of their values read the codes one behind the
other. -/
theorem Accepts.times {r : Cursor β ε α} {good : α → Prop} {code : α → List β}
    (h : Accepts r fun w a => good a ∧ w = code a) (n : ℕ) :
    Accepts (Cursor.times n r) fun w as => (as.length = n ∧ ∀ a ∈ as, good a) ∧
      w = as.flatMap code := by
  induction n with
  | zero =>
    refine (accepts_pure []).congr fun w as => ?_
    constructor
    · rintro ⟨rfl, rfl⟩
      exact ⟨⟨rfl, by simp⟩, rfl⟩
    · rintro ⟨⟨hlen, -⟩, rfl⟩
      obtain rfl := List.eq_nil_of_length_eq_zero hlen
      exact ⟨rfl, rfl⟩
  | succ n ih =>
    refine (h.bind fun a => ih.bind fun rest => accepts_pure (a :: rest)).congr fun w as => ?_
    constructor
    · rintro ⟨_, _, a, rfl, ⟨ha, rfl⟩, _, _, rest, rfl, ⟨⟨rfl, hrest⟩, rfl⟩, rfl, rfl⟩
      refine ⟨⟨rfl, List.forall_mem_cons.2 ⟨ha, hrest⟩⟩, ?_⟩
      rw [List.append_nil, List.flatMap_cons]
    · rintro ⟨⟨hlen, hall⟩, rfl⟩
      cases as with
      | nil => cases hlen
      | cons a rest =>
        rw [List.forall_mem_cons] at hall
        exact ⟨_, _, a, rfl, ⟨hall.1, rfl⟩, _, [], rest, (List.append_nil _).symm,
          ⟨⟨Nat.succ.inj hlen, hall.2⟩, rfl⟩, rfl, rfl⟩

theorem accepts_skip (e : ε) (n : ℕ) : Accepts (skip e n : Cursor β ε Unit) fun w _ =>
    w.length = n := by
  have hnext : Accepts (next e : Cursor β ε β) fun w b => True ∧ w = [b] :=
    (accepts_next e).congr fun w b => (iff_of_eq (true_and _)).symm
  have hflat : ∀ bs : List β, bs.flatMap (fun b => [b]) = bs := fun bs => by simp
  refine ((hnext.times n).bind fun _ => accepts_pure ()).congr fun w _ => ?_
  simp only [hflat]
  constructor
  · rintro ⟨_, _, bs, rfl, ⟨⟨hlen, -⟩, rfl⟩, rfl, -⟩
    rwa [List.append_nil]
  · rintro hlen
    exact ⟨w, [], w, (List.append_nil w).symm, ⟨⟨hlen, fun _ _ => trivial⟩, rfl⟩, rfl, trivial⟩

/-! ### How a reader fails -/

/-- All errors of the reader are of this kind. -/
def FailsWith (r : Cursor β ε α) (bad : ε → Prop) : Prop := ∀ s i e j, r s i = (.error e, j) → bad e

section Failures

variable {bad : ε → Prop}

theorem failsWith_pure (a : α) : FailsWith (pure a : Cursor β ε α) bad := by
  intro s i e j h
  cases h

theorem failsWith_fail {e : ε} (he : bad e) : FailsWith (fail e : Cursor β ε α) bad := by
  intro s i e' j h
  cases h
  exact he

theorem failsWith_next {e : ε} (he : bad e) : FailsWith (next e : Cursor β ε β) bad := by
  intro s i e' j h
  unfold next at h
  split at h
  · cases h
  · cases h
    exact he

theorem failsWith_position : FailsWith (position : Cursor β ε ℕ) bad := by
  intro s i e j h
  cases h

theorem FailsWith.ite {r r' : Cursor β ε α} {p : Prop} [Decidable p] (h : FailsWith r bad)
    (h' : FailsWith r' bad) : FailsWith (if p then r else r') bad := by
  by_cases hp : p
  · rwa [if_pos hp]
  · rwa [if_neg hp]

/-- The error of a sequence is that of the first reader, or of the second where the first has led
it. -/
theorem bind_error_iff {r : Cursor β ε α} {f : α → Cursor β ε γ} {s : List β} {i j : ℕ} {e : ε} :
    (r >>= f) s i = (.error e, j) ↔
      r s i = (.error e, j) ∨ ∃ a k, r s i = (.ok a, k) ∧ f a s k = (.error e, j) := by
  show (match r s i with
    | (.ok a, k) => f a s k
    | (.error e, k) => (.error e, k)) = _ ↔ _
  cases hr : r s i with
  | mk o k =>
    cases o with
    | ok a => simp
    | error e' => simp

theorem FailsWith.bind {r : Cursor β ε α} {f : α → Cursor β ε γ} (hr : FailsWith r bad)
    (hf : ∀ a, FailsWith (f a) bad) : FailsWith (r >>= f) bad := by
  intro s i e j h
  rcases bind_error_iff.1 h with h | ⟨a, k, -, h⟩
  · exact hr s i e j h
  · exact hf a s k e j h

theorem FailsWith.times {r : Cursor β ε α} (h : FailsWith r bad) (n : ℕ) :
    FailsWith (Cursor.times n r) bad := by
  induction n with
  | zero => exact failsWith_pure []
  | succ n ih => exact h.bind fun a => ih.bind fun rest => failsWith_pure (a :: rest)

theorem failsWith_skip {e : ε} (he : bad e) (n : ℕ) : FailsWith (skip e n : Cursor β ε Unit) bad :=
  ((failsWith_next he).times n).bind fun _ => failsWith_pure ()

end Failures

end Cursor

import GraphQL.Grammar.Reading
import Mathlib.Tactic.Common

/-!
# What readers yield

One lemma for each way to build a reader says when it yields a tree (`Reader.seq_eq_ok` and its
siblings) and one when it fails (`Reader.seq_eq_error`).  A loop is an item and then the same loop
within a smaller bound (`Reader.whileAt_succ`, `Reader.upTo_succ`), so that what holds of sequences
and choices holds of loops by induction on their bounds.

A reader that takes a token with each tree *progresses* (`Reader.Progresses`).  What it leaves over
is shorter than what it was given (`Reader.Progresses.induction`), so that a bound above the number
of tokens makes no difference to a loop (`Reader.whileAt_bound`, `Reader.upTo_bound`).
-/

namespace GraphQL

variable {α β : Type}

/-! ### Outcomes -/

/-- The tokens left over, or from the one at fault on. -/
def Outcome.rest : Outcome α → List Token
  | .ok (_, rest) => rest
  | .error e => e.rest

/-- What stopped the reading, if it failed. -/
def Outcome.obstacle? : Outcome α → Option Obstacle
  | .ok _ => none
  | .error e => some e.obstacle

theorem Outcome.obstacle?_eq_some {o : Outcome α} {b : Obstacle} :
    o.obstacle? = some b ↔ o = .error ⟨b, o.rest⟩ := by
  rcases o with ⟨b', ts⟩ | _ <;> simp [Outcome.obstacle?, Outcome.rest]

namespace Reader

/-! ### Trees and failures -/

theorem map_eq_ok {f : α → β} {r : Reader α} {ts rest : List Token} {b : β} :
    map f r ts = .ok (b, rest) ↔ ∃ a, r ts = .ok (a, rest) ∧ f a = b := by
  unfold map
  split <;> rename_i h <;> simp [h]
  tauto

theorem map_eq_error {f : α → β} {r : Reader α} {ts : List Token} {e : Failure} :
    map f r ts = .error e ↔ r ts = .error e := by
  unfold map
  split <;> rename_i h <;> simp [h]

theorem seq_eq_ok {f : Reader (α → β)} {r : Reader α} {ts rest : List Token} {b : β} :
    seq f r ts = .ok (b, rest) ↔
      ∃ g mid a, f ts = .ok (g, mid) ∧ r mid = .ok (a, rest) ∧ g a = b := by
  unfold seq
  split <;> rename_i h
  · simp [h, map_eq_ok]
  · simp [h]

theorem seq_eq_error {f : Reader (α → β)} {r : Reader α} {ts : List Token} {e : Failure} :
    seq f r ts = .error e ↔
      f ts = .error e ∨ ∃ g mid, f ts = .ok (g, mid) ∧ r mid = .error e := by
  unfold seq
  split <;> rename_i h
  · simp [h, map_eq_error]
  · simp [h]

theorem token_eq_ok {accepts : TokenKind → Bool} {expected : List TokenKind}
    {ts rest : List Token} {t : Token} :
    token accepts expected ts = .ok (t, rest) ↔ ts = t :: rest ∧ accepts t.kind = true := by
  constructor
  · intro h
    rcases ts with _ | ⟨u, us⟩
    · cases h
    · simp only [token] at h
      split at h
      · rename_i hu
        cases h
        exact ⟨rfl, hu⟩
      · cases h
  · rintro ⟨rfl, ht⟩
    exact if_pos ht

theorem token_eq_error {accepts : TokenKind → Bool} {expected : List TokenKind}
    {ts : List Token} {e : Failure} :
    token accepts expected ts = .error e ↔
      nextIs accepts ts = false ∧ ⟨.unexpected expected, ts⟩ = e := by
  rcases ts with _ | ⟨u, us⟩
  · simp [token, fail, nextIs]
  · by_cases hu : accepts u.kind = true <;> simp [token, fail, nextIs, hu]

theorem place_eq_ok {f : Token → Option DirectiveLocation} {ts rest : List Token}
    {l : DirectiveLocation} :
    place f ts = .ok (l, rest) ↔ ∃ t, ts = t :: rest ∧ t.kind = .name ∧ f t = some l := by
  constructor
  · intro h
    rcases ts with _ | ⟨u, us⟩
    · cases h
    · simp only [place] at h
      split at h
      · rename_i hu
        split at h
        · rename_i hl
          cases h
          exact ⟨u, rfl, hu, hl⟩
        · cases h
      · cases h
  · rintro ⟨t, rfl, ht, hl⟩
    simp [place, ht, hl]

theorem place_eq_error {f : Token → Option DirectiveLocation} {ts : List Token} {e : Failure} :
    place f ts = .error e ↔
      nextIs (· == .name) ts = false ∧ ⟨.unexpected [.name], ts⟩ = e ∨
      (∃ t ∈ ts.head?, t.kind = .name ∧ f t = none) ∧ ⟨.unknownPlace, ts⟩ = e := by
  rcases ts with _ | ⟨u, us⟩
  · simp [place, fail, nextIs]
  · by_cases hu : u.kind = .name
    · rcases hf : f u with _ | l <;> simp [place, fail, nextIs, hu, hf]
    · simp [place, fail, nextIs, hu]

theorem branch_eq_iff {test : TokenKind → Bool} {yes no : Reader α} {ts : List Token}
    {o : Outcome α} :
    branch test yes no ts = o ↔
      nextIs test ts = true ∧ yes ts = o ∨ nextIs test ts = false ∧ no ts = o := by
  unfold branch
  split <;> rename_i ht <;> simp [ht]

@[simp] theorem rest_map (f : α → β) (r : Reader α) (ts : List Token) :
    (map f r ts).rest = (r ts).rest := by
  unfold map
  split <;> rename_i h <;> simp [h, Outcome.rest]

@[simp] theorem obstacle?_map (f : α → β) (r : Reader α) (ts : List Token) :
    (map f r ts).obstacle? = (r ts).obstacle? := by
  unfold map
  split <;> rename_i h <;> simp [h, Outcome.obstacle?]

/-! ### Loops -/

/-- A loop reads an item and goes on, as long as the test holds. -/
theorem whileAt_succ (test : TokenKind → Bool) (item : Reader α) (bound : Nat) :
    whileAt test item (bound + 1) =
      branch test (seq (map List.cons item) (whileAt test item bound)) fun ts => .ok ([], ts) := by
  funext ts
  simp only [whileAt, branch, seq, map]
  cases item ts <;> rfl

/-- A loop up to a closing token takes this token, or reads an item and goes on. -/
theorem upTo_succ (close : TokenKind) (item : Reader α) (bound : Nat) :
    upTo close item (bound + 1) =
      branch (· == close) (fun ts => .ok ([], ts.drop 1))
        (seq (map List.cons item) (upTo close item bound)) := by
  funext ts
  simp only [upTo, branch, seq, map]
  cases item ts <;> rfl

theorem item_eq_ok {item : Reader α} {more : Reader (List α)} {ts rest : List Token}
    {as : List α} :
    seq (map List.cons item) more ts = .ok (as, rest) ↔
      ∃ a mid as', item ts = .ok (a, mid) ∧ more mid = .ok (as', rest) ∧ a :: as' = as := by
  simp only [seq_eq_ok, map_eq_ok]
  constructor
  · rintro ⟨_, mid, as', ⟨a, ha, rfl⟩, has, rfl⟩
    exact ⟨a, mid, as', ha, has, rfl⟩
  · rintro ⟨a, mid, as', ha, has, rfl⟩
    exact ⟨_, mid, as', ⟨a, ha, rfl⟩, has, rfl⟩

theorem item_eq_error {item : Reader α} {more : Reader (List α)} {ts : List Token} {e : Failure} :
    seq (map List.cons item) more ts = .error e ↔
      item ts = .error e ∨ ∃ a mid, item ts = .ok (a, mid) ∧ more mid = .error e := by
  simp only [seq_eq_error, map_eq_error, map_eq_ok]
  refine or_congr_right ⟨?_, ?_⟩
  · rintro ⟨_, mid, ⟨a, ha, rfl⟩, he⟩
    exact ⟨a, mid, ha, he⟩
  · rintro ⟨a, mid, ha, he⟩
    exact ⟨_, mid, ⟨a, ha, rfl⟩, he⟩

/-- What comes after an item matters only where an item was read. -/
theorem item_congr {item : Reader α} {more more' : Reader (List α)} {ts : List Token}
    (h : ∀ a mid, item ts = .ok (a, mid) → more mid = more' mid) :
    seq (map List.cons item) more ts = seq (map List.cons item) more' ts := by
  unfold seq map
  rcases ha : item ts with e | ⟨a, mid⟩
  · rfl
  · simp only [h a mid ha]

/-! ### Tokens left over

What a reader leaves is a final part of the tokens if this holds of its parts. -/

section

variable {f : Reader (α → β)} {r r' : Reader α}

theorem suffix_seq (hf : ∀ ts, ∃ u, ts = u ++ (f ts).rest) (hr : ∀ ts, ∃ u, ts = u ++ (r ts).rest)
    (ts : List Token) : ∃ u, ts = u ++ (seq f r ts).rest := by
  obtain ⟨u, hu⟩ := hf ts
  unfold seq
  split <;> rename_i h <;> rw [h] at hu
  · rename_i g mid
    obtain ⟨v, hv⟩ := hr mid
    refine ⟨u ++ v, ?_⟩
    rw [rest_map, List.append_assoc, ← hv]
    exact hu
  · exact ⟨u, hu⟩

theorem suffix_branch {test : TokenKind → Bool} (hr : ∀ ts, ∃ u, ts = u ++ (r ts).rest)
    (hr' : ∀ ts, ∃ u, ts = u ++ (r' ts).rest) (ts : List Token) :
    ∃ u, ts = u ++ (branch test r r' ts).rest := by
  unfold branch
  split
  · exact hr ts
  · exact hr' ts

theorem suffix_whileAt (h : ∀ ts, ∃ u, ts = u ++ (r ts).rest) (test : TokenKind → Bool)
    (bound : Nat) : ∀ ts, ∃ u, ts = u ++ (whileAt test r bound ts).rest := by
  induction bound with
  | zero => exact fun ts => ⟨[], rfl⟩
  | succ bound ih =>
    rw [whileAt_succ]
    exact suffix_branch (suffix_seq (by simpa using h) ih) fun ts => ⟨[], rfl⟩

theorem suffix_upTo (h : ∀ ts, ∃ u, ts = u ++ (r ts).rest) (close : TokenKind)
    (bound : Nat) : ∀ ts, ∃ u, ts = u ++ (upTo close r bound ts).rest := by
  induction bound with
  | zero => exact fun ts => ⟨[], rfl⟩
  | succ bound ih =>
    rw [upTo_succ]
    exact suffix_branch (fun ts => ⟨ts.take 1, (List.take_append_drop 1 ts).symm⟩)
      (suffix_seq (by simpa using h) ih)

end

/-! ### Readers that take tokens -/

/-- Every tree read takes a token at least. -/
def Progresses (r : Reader α) : Prop :=
  ∀ ⦃ts : List Token⦄ ⦃a : α⦄ ⦃rest : List Token⦄,
    r ts = .ok (a, rest) → rest.length < ts.length

/-- To show something of all tokens, it may be assumed of those left over by a reader that takes
a token at least. -/
theorem Progresses.induction {r : Reader α} (h : r.Progresses) {motive : List Token → Prop}
    (step : ∀ ts, (∀ ⦃a mid⦄, r ts = .ok (a, mid) → motive mid) → motive ts) (ts : List Token) :
    motive ts := by
  induction hlen : ts.length using Nat.strongRecOn generalizing ts with
  | ind k ih => exact step ts fun a mid ha => ih mid.length (hlen ▸ h ha) mid rfl

variable {item : Reader α}

theorem whileAt_bound (h : item.Progresses) (test : TokenKind → Bool) :
    ∀ (n m : Nat) (ts : List Token), ts.length < n → ts.length < m →
      whileAt test item n ts = whileAt test item m ts := by
  intro n
  induction n with
  | zero => intro m ts hn; omega
  | succ n ih =>
    intro m ts hn hm
    obtain ⟨m, rfl⟩ : ∃ k, m = k + 1 := ⟨m - 1, by omega⟩
    rw [whileAt_succ, whileAt_succ, branch, branch]
    refine if_congr Iff.rfl (item_congr fun a mid ha => ?_) rfl
    have := h ha
    exact ih m mid (by omega) (by omega)

theorem upTo_bound (h : item.Progresses) (close : TokenKind) :
    ∀ (n m : Nat) (ts : List Token), ts.length < n → ts.length < m →
      upTo close item n ts = upTo close item m ts := by
  intro n
  induction n with
  | zero => intro m ts hn; omega
  | succ n ih =>
    intro m ts hn hm
    obtain ⟨m, rfl⟩ : ∃ k, m = k + 1 := ⟨m - 1, by omega⟩
    rw [upTo_succ, upTo_succ, branch, branch]
    refine if_congr Iff.rfl rfl (item_congr fun a mid ha => ?_)
    have := h ha
    exact ih m mid (by omega) (by omega)

end Reader

end GraphQL

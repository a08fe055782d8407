import GraphQL.Proofs.Reading.Progress

/-!
# One token of lookahead, no more

Up to some token, reading depends on the tokens up to this one only: what comes after can be
exchanged, and the same tree is read, or reading stops there in the same way
(`Rule.readIn_local`).
-/

namespace GraphQL

variable {α β : Type}

/-- The same outcome with other tokens left over. -/
def Outcome.setRest (o : Outcome α) (rest : List Token) : Outcome α :=
  match o with
  | .ok (a, _) => .ok (a, rest)
  | .error e => .error ⟨e.obstacle, rest⟩

/-- Whether what a reader does before some token depends on the tokens up to it only. -/
def Reader.Local (r : Reader α) : Prop :=
  ∀ ⦃u x x' : List Token⦄, x ≠ [] → x.head? = x'.head? → (r (u ++ x)).rest = x →
    r (u ++ x') = (r (u ++ x)).setRest x'

namespace Reader

theorem head?_append_congr {x x' : List Token} (h : x.head? = x'.head?) (u : List Token) :
    (u ++ x).head? = (u ++ x').head? := by
  cases u <;> simp [h]

theorem nextIs_congr {ts ts' : List Token} (h : ts.head? = ts'.head?) (test : TokenKind → Bool) :
    nextIs test ts = nextIs test ts' := by
  rcases ts with _ | ⟨t, ts⟩ <;> rcases ts' with _ | ⟨t', ts'⟩ <;> cases h <;> rfl

theorem Local.done (a : α) : Local fun ts => .ok (a, ts) := by
  intro u x x' hx hhead hrest
  obtain rfl : u = [] := List.append_left_eq_self.1 hrest
  rfl

theorem Local.fail (obstacle : Obstacle) : Local (Reader.fail (α := α) obstacle) := by
  intro u x x' hx hhead hrest
  obtain rfl : u = [] := List.append_left_eq_self.1 hrest
  rfl

/-- A token that was taken is not the one at which reading stops. -/
theorem Local.skip (a : α) : Local fun ts => .ok (a, ts.drop 1) := by
  rintro (_ | ⟨t, u⟩) x x' hx hhead hrest
  · have hlen := congrArg List.length (show x.drop 1 = x from hrest)
    rw [List.length_drop] at hlen
    have := List.length_pos_iff.2 hx
    omega
  · obtain rfl : u = [] := List.append_left_eq_self.1 hrest
    rfl

theorem Local.token (accepts : TokenKind → Bool) (expected : List TokenKind) :
    (Reader.token accepts expected).Local := by
  intro u x x' hx hhead hrest
  rcases h : Reader.token accepts expected (u ++ x) with e | ⟨t, rest⟩ <;> rw [h] at hrest
  · obtain ⟨hnext, rfl⟩ := token_eq_error.1 h
    obtain rfl : u = [] := List.append_left_eq_self.1 hrest
    exact token_eq_error.2 ⟨(nextIs_congr hhead accepts).symm.trans hnext, rfl⟩
  · obtain ⟨hux, ht⟩ := token_eq_ok.1 h
    obtain rfl : rest = x := hrest
    obtain rfl : u = [t] := List.append_cancel_right (show u ++ rest = [t] ++ rest from hux)
    exact token_eq_ok.2 ⟨rfl, ht⟩

theorem Local.place (f : Token → Option DirectiveLocation) : (Reader.place f).Local := by
  intro u x x' hx hhead hrest
  rcases h : Reader.place f (u ++ x) with e | ⟨l, rest⟩ <;> rw [h] at hrest
  · obtain ⟨hnext, rfl⟩ | ⟨⟨t, ht, hname, hf⟩, rfl⟩ := place_eq_error.1 h <;>
      obtain rfl : u = [] := List.append_left_eq_self.1 hrest
    · exact place_eq_error.2 (.inl ⟨(nextIs_congr hhead _).symm.trans hnext, rfl⟩)
    · exact place_eq_error.2 (.inr ⟨⟨t, hhead ▸ ht, hname, hf⟩, rfl⟩)
  · obtain ⟨t, hux, ht, hf⟩ := place_eq_ok.1 h
    obtain rfl : rest = x := hrest
    obtain rfl : u = [t] := List.append_cancel_right (show u ++ rest = [t] ++ rest from hux)
    exact place_eq_ok.2 ⟨t, rfl, ht, hf⟩

theorem Local.map {r : Reader α} (h : r.Local) (f : α → β) : (Reader.map f r).Local := by
  intro u x x' hx hhead hrest
  rw [rest_map] at hrest
  rw [Reader.map, h hx hhead hrest, Reader.map]
  rcases r (u ++ x) with e | ⟨a, rest⟩ <;> rfl

/-- What one reader leaves over is what the next one reads. -/
theorem Local.append {r : Reader α} (h : r.Local) (hs : ∀ ts, ∃ u, ts = u ++ (r ts).rest)
    {u x x' mid : List Token} (hx : x ≠ []) (hhead : x.head? = x'.head?)
    (hmid : (r (u ++ x)).rest = mid) {v : List Token} (hv : mid = v ++ x) :
    r (u ++ x') = (r (u ++ x)).setRest (v ++ x') := by
  obtain ⟨w, hw⟩ := hs (u ++ x)
  rw [hmid, hv, ← List.append_assoc] at hw
  obtain rfl : u = w ++ v := List.append_cancel_right hw
  rw [List.append_assoc] at hmid ⊢
  rw [List.append_assoc]
  exact h (by simp [hx]) (head?_append_congr hhead v) (hmid.trans hv)

theorem Local.seq {f : Reader (α → β)} {r : Reader α} (hf : f.Local) (hr : r.Local)
    (hsf : ∀ ts, ∃ u, ts = u ++ (f ts).rest) (hsr : ∀ ts, ∃ u, ts = u ++ (r ts).rest) :
    (Reader.seq f r).Local := by
  intro u x x' hx hhead hrest
  simp only [Reader.seq] at hrest ⊢
  rcases hfu : f (u ++ x) with e | ⟨g, mid⟩
  · rw [hfu] at hrest
    rw [hf hx hhead ((congrArg Outcome.rest hfu).trans hrest), hfu]
    rfl
  · rw [hfu] at hrest
    obtain ⟨v, hv⟩ := hsr mid
    rw [rest_map] at hrest
    rw [hrest] at hv
    -- The second part stops at the exchanged tokens, so the first leaves these over, too.
    have h := hf.append hsf hx hhead (congrArg Outcome.rest hfu) hv
    subst hv
    rw [h, hfu]
    exact hr.map g hx hhead ((rest_map ..).trans hrest)

theorem Local.branch {yes no : Reader α} (hy : yes.Local) (hn : no.Local)
    (test : TokenKind → Bool) : (Reader.branch test yes no).Local := by
  intro u x x' hx hhead hrest
  simp only [Reader.branch] at hrest ⊢
  rw [← nextIs_congr (head?_append_congr hhead u)]
  split at hrest <;> rename_i ht
  · rw [if_pos ht, if_pos ht]
    exact hy hx hhead hrest
  · rw [if_neg ht, if_neg ht]
    exact hn hx hhead hrest

theorem Local.whileAt {item : Reader α} (h : item.Local)
    (hs : ∀ ts, ∃ u, ts = u ++ (item ts).rest) (test : TokenKind → Bool) (bound : Nat) :
    (Reader.whileAt test item bound).Local := by
  induction bound with
  | zero => exact .done []
  | succ bound ih =>
    rw [whileAt_succ]
    have hmore := (h.map List.cons).seq ih (by simpa using hs) (suffix_whileAt hs test bound)
    exact hmore.branch (.done []) test

theorem Local.upTo {item : Reader α} (h : item.Local)
    (hs : ∀ ts, ∃ u, ts = u ++ (item ts).rest) (close : TokenKind) (bound : Nat) :
    (Reader.upTo close item bound).Local := by
  induction bound with
  | zero => exact .done []
  | succ bound ih =>
    rw [upTo_succ]
    have hmore := (h.map List.cons).seq ih (by simpa using hs) (suffix_upTo hs close bound)
    exact (Local.skip []).branch hmore _

theorem Local.located {r : Reader (Nat → α)} (h : r.Local) : (Reader.located r).Local := by
  intro u x x' hx hhead hrest
  have hstart : (u ++ x').head? = (u ++ x).head? := (head?_append_congr hhead u).symm
  simp only [Reader.located, hstart] at hrest ⊢
  exact h.map _ hx hhead hrest

end Reader

section

variable {nested : (n : Nest) → Reader n.Tree}
  (hs : ∀ n ts, ∃ u, ts = u ++ (nested n ts).rest) (hp : ∀ n, (nested n).Progresses)

include hs hp

/-- Reading by a steady rule looks no further than one token. -/
theorem Rule.local_read (hn : ∀ n, (nested n).Local) :
    ∀ {α : Type} (r : Rule α), r.steady = true → (r.read nested).Local := by
  intro α r
  induction r with
  | done a => exact fun _ => .done a
  | token accepts expected => exact fun _ => .token accepts expected
  | place f => exact fun _ => .place f
  | stuck expected => exact fun _ => .fail _
  | map f r ih => exact fun hst => (ih hst).map f
  | seq f r ihf ihr =>
    intro hst
    simp only [steady, Bool.and_eq_true] at hst
    exact (ihf hst.1).seq (ihr hst.2) (read_suffix hs f) (read_suffix hs r)
  | branch test yes no ihy ihn =>
    intro hst
    simp only [steady, Bool.and_eq_true] at hst
    exact (ihy hst.1.1).branch (ihn hst.1.2) test
  | whileAt test item ih =>
    intro hst u x x'
    simp only [steady, Bool.and_eq_true, Bool.not_eq_true'] at hst
    have hitem := progresses_read hs hp item hst.1 hst.2
    -- Both lists of tokens are read within one bound.
    obtain ⟨bound, hb, hb'⟩ : ∃ n, (u ++ x).length < n ∧ (u ++ x').length < n :=
      ⟨(u ++ x).length + (u ++ x').length + 1, by omega, by omega⟩
    rw [read_whileAt_of_lt hitem test hb, read_whileAt_of_lt hitem test hb']
    exact fun hx => (ih hst.1).whileAt (read_suffix hs item) test _ hx
  | upTo close item ih =>
    intro hst u x x'
    simp only [steady, Bool.and_eq_true, Bool.not_eq_true'] at hst
    have hitem := progresses_read hs hp item hst.1 hst.2
    obtain ⟨bound, hb, hb'⟩ : ∃ n, (u ++ x).length < n ∧ (u ++ x').length < n :=
      ⟨(u ++ x).length + (u ++ x').length + 1, by omega, by omega⟩
    rw [read_upTo_of_lt hitem close hb, read_upTo_of_lt hitem close hb']
    exact fun hx => (ih hst.1).upTo (read_suffix hs item) close _ hx
  | nest n => exact fun _ => hn n
  | located r ih =>
    intro hst
    simp only [steady, Bool.and_eq_true] at hst
    exact (ih hst.1).located

end

theorem readNest_local (budget : Nat) (n : Nest) : (readNest Nest.body budget n).Local := by
  induction budget generalizing n with
  | zero => exact .fail _
  | succ budget ih =>
    exact Rule.local_read (readNest_suffix budget) (readNest_progresses budget) ih n.body
      (steady_body n)

/-- **Reading looks no further than one token**: where it stops, with a tree or for want of one,
depends on the tokens up to the one at which it stops. -/
theorem Rule.readIn_local (budget : Nat) {r : Rule α} (hst : r.steady = true) :
    (r.readIn budget).Local :=
  local_read (readNest_suffix budget) (readNest_progresses budget) (readNest_local budget) r hst

end GraphQL

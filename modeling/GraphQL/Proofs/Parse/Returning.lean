import GraphQL.Proofs.Parse.Descent
import GraphQL.Proofs.Parse.StreamSession

/-!
# Every production returns

What the steps of a descent do between the call of a production and its return is what reading by
the production does at once (`Rule.obeys_read`): a tree or an obstacle, and the tokens left.  The
nesting constructs that it opens on the way are closed again in both cases (`obeys_nest`).
-/

namespace GraphQL

open Descent
open TokenStream (StandsAt)

variable {α β : Type}

/-- Calling a production at one station leads to returning from it at another, whatever is left to
be done after it. -/
def Rule.Returns (limit? : Option Nat) (r : Rule α) (s : Station) (ending : Ending α)
    (s' : Station) : Prop :=
  ∀ {β : Type} (k : Frames β α), Steps limit? ⟨.call r k, s⟩ ⟨.back ending k, s'⟩

/-- How reading ends. -/
def Outcome.ending : Outcome α → Ending α
  | .ok (a, _) => .ok a
  | .error e => .error e.obstacle

/-- Calling a production with some nesting constructs open does what reading does, except where
reading runs out of a budget and there is no limit. -/
def Rule.Obeys (source : String) (limit? : Option Nat) (depth : Nat) (r : Rule α)
    (reader : Reader α) : Prop :=
  ∀ ⦃stream : TokenStream⦄ ⦃ts : List Token⦄, stream.StandsAt source ts →
    (limit? = none → ¬ (reader ts).TooDeep) →
    ∃ stream', StandsAt source stream' (reader ts).rest ∧
      r.Returns limit? ⟨stream, depth⟩ (reader ts).ending ⟨stream', depth⟩

theorem Outcome.ending_map (f : α → β) (reader : Reader α) (ts : List Token) :
    (Reader.map f reader ts).ending = (reader ts).ending.map f := by
  unfold Reader.map
  split <;> rename_i h <;> rw [h] <;> rfl

namespace Rule.Obeys

variable {source : String} {limit? : Option Nat} {depth : Nat} {r : Rule α} {reader : Reader α}

/-- Returning through a frame that turns a tree into another. -/
theorem step_map (f : α → β) {γ : Type} (k : Frames γ β) (ending : Ending α) (s : Station) :
    Descent.step limit? ⟨.back ending (.map f k), s⟩ = some ⟨.back (ending.map f) k, s⟩ := by
  cases ending <;> rfl

theorem done (a : α) : (Rule.done a).Obeys source limit? depth fun ts => .ok (a, ts) :=
  fun stream _ h _ => ⟨stream, h, fun _ => .single rfl⟩

theorem stuck (expected : List TokenKind) : (Rule.stuck expected : Rule α).Obeys source limit?
    depth (Reader.fail (.unexpected expected)) :=
  fun stream _ h _ => ⟨stream, h, fun _ => .single rfl⟩

theorem token (accepts : TokenKind → Bool) (expected : List TokenKind) :
    (Rule.token accepts expected).Obeys source limit? depth (Reader.token accepts expected) := by
  intro stream ts h _
  cases ts with
  | nil =>
    refine ⟨stream, h, fun k => .single ?_⟩
    rw [step, call, h.latestIs_eq]
    rfl
  | cons t ts =>
    rw [Reader.token]
    split <;> rename_i ht
    · refine ⟨stream.advance, h.advance, fun k => .single ?_⟩
      rw [step, call, h.latestIs_eq, Reader.nextIs, if_pos ht, consume_eq h]
      rfl
    · refine ⟨stream, h, fun k => .single ?_⟩
      rw [step, call, h.latestIs_eq, Reader.nextIs, if_neg ht]
      rfl

theorem place (read : Token → Option DirectiveLocation) :
    (Rule.place read).Obeys source limit? depth (Reader.place read) := by
  intro stream ts h _
  cases ts with
  | nil =>
    refine ⟨stream, h, fun k => .single ?_⟩
    rw [step, call, h.latestIs_eq]
    rfl
  | cons t ts =>
    rw [Reader.place]
    split <;> rename_i ht
    · have hname : stream.latestIs (· == .name) = true := by
        rw [h.latestIs_eq]
        exact beq_iff_eq.2 ht
      have hplace : stream.token?.bind read = read t := by
        rw [h.token]
        rfl
      rcases hread : read t with _ | location <;> rw [hread] at hplace
      · refine ⟨stream, h, fun k => .single ?_⟩
        rw [step, call, if_pos hname, hplace]
        rfl
      · refine ⟨stream.advance, h.advance, fun k => .single ?_⟩
        rw [step, call, if_pos hname, hplace]
        exact congrArg some (consume_eq h _ k)
    · refine ⟨stream, h, fun k => .single ?_⟩
      rw [step, call, h.latestIs_eq, Reader.nextIs, if_neg (mt beq_iff_eq.1 ht)]
      rfl

theorem map (hr : r.Obeys source limit? depth reader) (f : α → β) :
    (Rule.map f r).Obeys source limit? depth (Reader.map f reader) := by
  intro stream ts h hd
  rw [Reader.tooDeep_map] at hd
  obtain ⟨stream', hstands, hreturns⟩ := hr h hd
  rw [Reader.rest_map, Outcome.ending_map]
  exact ⟨stream', hstands, fun k => .head rfl ((hreturns _).tail (step_map f k _ _))⟩

theorem seq {f : Rule (α → β)} {reader' : Reader (α → β)}
    (hf : f.Obeys source limit? depth reader') (hr : r.Obeys source limit? depth reader) :
    (Rule.seq f r).Obeys source limit? depth (Reader.seq reader' reader) := by
  intro stream ts h hd
  have hf := @hf stream ts h
  unfold Reader.seq at hd ⊢
  rcases hfirst : reader' ts with e | ⟨g, mid⟩ <;> rw [hfirst] at hf hd
  · obtain ⟨stream', hstands, hreturns⟩ := hf hd
    exact ⟨stream', hstands, fun k => .head rfl ((hreturns _).tail rfl)⟩
  · simp only [Reader.tooDeep_map] at hd
    obtain ⟨stream', hstands, hreturns⟩ := hf fun _ => Outcome.not_tooDeep_ok _
    obtain ⟨stream'', hstands', hreturns'⟩ := hr hstands hd
    simp only [Reader.rest_map, Outcome.ending_map]
    exact ⟨stream'', hstands', fun k => .head rfl (((hreturns _).tail rfl).trans
      ((hreturns' _).tail (step_map g k _ _)))⟩

theorem branch {no : Rule α} {reader' : Reader α} (hr : r.Obeys source limit? depth reader)
    (hno : no.Obeys source limit? depth reader') (test : TokenKind → Bool) :
    (Rule.branch test r no).Obeys source limit? depth (Reader.branch test reader reader') := by
  intro stream ts h hd
  have hcall : ∀ {β : Type} (k : Frames β α),
      Descent.step limit? ⟨.call (.branch test r no) k, ⟨stream, depth⟩⟩ =
        some ⟨.call (if Reader.nextIs test ts then r else no) k, ⟨stream, depth⟩⟩ := by
    intro β k
    rw [Descent.step, Descent.call, h.latestIs_eq]
  unfold Reader.branch at hd ⊢
  split at hd <;> rename_i ht
  · obtain ⟨stream', hstands, hreturns⟩ := hr h hd
    rw [if_pos ht]
    refine ⟨stream', hstands, fun k => .head ?_ (hreturns k)⟩
    rw [hcall, if_pos ht]
  · obtain ⟨stream', hstands, hreturns⟩ := hno h hd
    rw [if_neg ht]
    refine ⟨stream', hstands, fun k => .head ?_ (hreturns k)⟩
    rw [hcall, if_neg ht]

theorem located {r : Rule (Nat → α)} {reader : Reader (Nat → α)}
    (hr : r.Obeys source limit? depth reader) (hprogress : reader.Progresses) :
    (Rule.located r).Obeys source limit? depth (Reader.located reader) := by
  intro stream ts h hd
  rw [Reader.located, Reader.tooDeep_map] at hd
  obtain ⟨stream', hstands, hreturns⟩ := hr h hd
  rw [Reader.located, Reader.rest_map, Outcome.ending_map]
  refine ⟨stream', hstands, fun k => .head rfl ((hreturns _).tail ?_)⟩
  rw [step_map]
  cases ts with
  | cons t ts =>
    rw [h.start t rfl]
    rfl
  | nil =>
    -- Without a token there is no tree, so that it does not matter what it would be handed.
    rcases hread : reader [] with e | ⟨g, rest⟩
    · rfl
    · exact absurd (hprogress hread) (Nat.not_lt_zero _)

end Rule.Obeys

/-! ### Loops -/

/-- A loop, with some items already there, comes to the end of an outcome.  What is left to be done
after the loop itself is `leave`. -/
def Rule.Loops (source : String) (limit? : Option Nat) (depth : Nat) (r : Rule α)
    (again : TokenStream → Bool)
    (leave : {β : Type} → Frames β (List α) → Frames β (List α)) (stream : TokenStream)
    (items : List α) (o : Outcome (List α)) : Prop :=
  ∃ stream', StandsAt source stream' o.rest ∧ ∀ {β : Type} (k : Frames β (List α)),
    Steps limit? ⟨.turn again r items (leave k) ⟨stream, depth⟩, ⟨stream, depth⟩⟩
      ⟨.back (o.ending.map (items ++ ·)) k, ⟨stream', depth⟩⟩

/-- The items of a loop, added to those before them. -/
theorem ending_cons (items : List α) (a : α) (ending : Ending (List α)) :
    (ending.map (a :: ·)).map (items ++ ·) = ending.map (items ++ [a] ++ ·) := by
  cases ending <;> simp [Except.map]

theorem ending_nil (ending : Ending (List α)) : ending.map ([] ++ ·) = ending := by
  cases ending <;> rfl

namespace Rule.Obeys

variable {source : String} {limit? : Option Nat} {depth : Nat} {r : Rule α} {reader : Reader α}
  {stream : TokenStream} {ts : List Token}

/-- A turn of a loop, after which the loop goes on as `next` reads. -/
theorem turn (hr : r.Obeys source limit? depth reader) (h : stream.StandsAt source ts)
    {again : TokenStream → Bool} (hagain : again stream = true)
    {leave : {β : Type} → Frames β (List α) → Frames β (List α)}
    (hleave : ∀ {β : Type} (k : Frames β (List α)) obstacle s,
      Steps limit? ⟨.back (.error obstacle) (leave k), s⟩ ⟨.back (.error obstacle) k, s⟩)
    (items : List α) {next : Reader (List α)} {o : Outcome (List α)}
    (ho : o = match reader ts with
      | .ok (a, rest) => Reader.map (a :: ·) next rest
      | .error e => .error e)
    (hd : limit? = none → ¬ o.TooDeep)
    (hnext : ∀ stream' a rest, StandsAt source stream' rest → reader ts = .ok (a, rest) →
      (limit? = none → ¬ (next rest).TooDeep) →
      r.Loops source limit? depth again leave stream' (items ++ [a]) (next rest)) :
    r.Loops source limit? depth again leave stream items o := by
  subst ho
  have hitem := @hr stream ts h
  unfold Loops
  simp only [Control.turn, if_pos hagain]
  rcases hread : reader ts with e | ⟨a, rest⟩ <;> rw [hread] at hitem hd
  · obtain ⟨stream', hstands, hreturns⟩ := hitem hd
    exact ⟨stream', hstands, fun k => ((hreturns _).tail rfl).trans (hleave k _ _)⟩
  · obtain ⟨stream', hstands, hreturns⟩ := hitem fun _ => Outcome.not_tooDeep_ok _
    simp only [Reader.tooDeep_map] at hd
    obtain ⟨stream'', hstands', hturns⟩ := hnext stream' a rest hstands hread hd
    simp only [Reader.rest_map, Outcome.ending_map, ending_cons]
    exact ⟨stream'', hstands', fun k => ((hreturns _).tail rfl).trans (hturns k)⟩

theorem loops_whileAt (hr : r.Obeys source limit? depth reader) (hprogress : reader.Progresses)
    (test : TokenKind → Bool) {bound : Nat} (h : stream.StandsAt source ts)
    (hlength : ts.length < bound) (items : List α)
    (hd : limit? = none → ¬ (Reader.whileAt test reader bound ts).TooDeep) :
    r.Loops source limit? depth (·.latestIs test) (fun k => k) stream items
      (Reader.whileAt test reader bound ts) := by
  induction bound generalizing stream ts items with
  | zero => exact absurd hlength (Nat.not_lt_zero _)
  | succ bound ih =>
    have hlatest := h.latestIs_eq test
    unfold Reader.whileAt at hd ⊢
    split at hd <;> rename_i ht
    · rw [if_pos ht]
      refine hr.turn h (hlatest.trans ht) (fun _ _ _ => .refl) items rfl hd ?_
      intro stream' a rest hstands hread hd
      have hlt := hprogress hread
      exact ih hstands (by omega) _ hd
    · rw [if_neg ht]
      refine ⟨stream, h, fun k => ?_⟩
      rw [Control.turn, hlatest, if_neg ht, Outcome.ending, Except.map, List.append_nil]

theorem loops_upTo (hr : r.Obeys source limit? depth reader) (hprogress : reader.Progresses)
    (close : TokenKind) {bound : Nat} (h : stream.StandsAt source ts)
    (hlength : ts.length < bound) (items : List α)
    (hd : limit? = none → ¬ (Reader.upTo close reader bound ts).TooDeep) :
    r.Loops source limit? depth (fun stream => !stream.latestIs (· == close)) (.closing close)
      stream items (Reader.upTo close reader bound ts) := by
  induction bound generalizing stream ts items with
  | zero => exact absurd hlength (Nat.not_lt_zero _)
  | succ bound ih =>
    have hlatest := h.latestIs_eq (· == close)
    unfold Reader.upTo at hd ⊢
    split at hd <;> rename_i ht
    · rw [if_pos ht]
      cases ts with
      | nil => cases ht
      | cons t rest =>
        have hread : Reader.token (· == close) [close] (t :: rest) = .ok (t, rest) := if_pos ht
        have hone : (Rule.one close).Obeys source limit? depth
          (Reader.token (· == close) [close]) := token _ _
        have hclose := @hone stream (t :: rest) h
        rw [hread] at hclose
        obtain ⟨stream', hstands, hreturns⟩ := hclose fun _ => Outcome.not_tooDeep_ok _
        refine ⟨stream', hstands, fun k => ?_⟩
        rw [Control.turn, hlatest, ht, if_neg (by decide), Outcome.ending, Except.map,
          List.append_nil]
        exact .head rfl (.head rfl ((hreturns _).tail rfl))
    · rw [if_neg ht]
      rw [Bool.not_eq_true] at ht
      refine hr.turn h (by rw [hlatest, ht]; rfl)
        (fun _ _ _ => .head rfl (.single rfl)) items rfl hd ?_
      intro stream' a rest hstands hread hd
      have hlt := hprogress hread
      exact ih hstands (by omega) _ hd

theorem whileAt (hr : r.Obeys source limit? depth reader) (hprogress : reader.Progresses)
    (test : TokenKind → Bool) : (Rule.whileAt test r).Obeys source limit? depth
      fun ts => Reader.whileAt test reader (ts.length + 1) ts := by
  intro stream ts h hd
  obtain ⟨stream', hstands, hloops⟩ := hr.loops_whileAt hprogress test h (Nat.lt_succ_self _) [] hd
  simp only [ending_nil] at hloops
  exact ⟨stream', hstands, fun k => .head rfl (hloops k)⟩

theorem upTo (hr : r.Obeys source limit? depth reader) (hprogress : reader.Progresses)
    (close : TokenKind) : (Rule.upTo close r).Obeys source limit? depth
      fun ts => Reader.upTo close reader (ts.length + 1) ts := by
  intro stream ts h hd
  obtain ⟨stream', hstands, hloops⟩ := hr.loops_upTo hprogress close h (Nat.lt_succ_self _) [] hd
  simp only [ending_nil] at hloops
  exact ⟨stream', hstands, fun k => .head rfl (hloops k)⟩

end Rule.Obeys

/-! ### All productions -/

section

variable {source : String} {limit? : Option Nat} {depth : Nat} {nested : (n : Nest) → Reader n.Tree}
  (hs : ∀ n ts, ∃ u, ts = u ++ (nested n ts).rest) (hp : ∀ n, (nested n).Progresses)
  (hn : ∀ n, (Rule.nest n).Obeys source limit? depth (nested n))

include hs hp hn

/-- Calling a production does what reading does, if this is so of the nesting constructs. -/
theorem Rule.obeys_read (r : Rule α) (hst : r.steady = true) :
    r.Obeys source limit? depth (r.read nested) := by
  induction r with
  | done a => exact .done a
  | token accepts expected => exact .token accepts expected
  | place read => exact .place read
  | stuck expected => exact .stuck expected
  | map f r ih => exact (ih hst).map f
  | seq f r ihf ihr =>
    obtain ⟨hf, hr⟩ := Bool.and_eq_true_iff.1 hst
    exact (ihf hf).seq (ihr hr)
  | branch test yes no ihy ihn =>
    simp only [steady, Bool.and_eq_true] at hst
    exact (ihy hst.1.1).branch (ihn hst.1.2) test
  | whileAt test item ih =>
    simp only [steady, Bool.and_eq_true, Bool.not_eq_true'] at hst
    exact (ih hst.1).whileAt (progresses_read hs hp item hst.1 hst.2) test
  | upTo close item ih =>
    simp only [steady, Bool.and_eq_true, Bool.not_eq_true'] at hst
    exact (ih hst.1).upTo (progresses_read hs hp item hst.1 hst.2) close
  | nest n => exact hn n
  | located r ih =>
    simp only [steady, Bool.and_eq_true, Bool.not_eq_true'] at hst
    exact (ih hst.1).located (progresses_read hs hp r hst.1 hst.2)

end

/-- Nesting constructs are opened and closed within the budget that the limit leaves. -/
theorem obeys_nest (source : String) {limit? : Option Nat} {depth budget : Nat}
    (hbudget : ∀ limit ∈ limit?, limit = depth + budget) (n : Nest) :
    (Rule.nest n).Obeys source limit? depth (readNest Nest.body budget n) := by
  -- The count and the budget make up the limit, so that one grows as the other shrinks.
  induction budget generalizing depth n with
  | zero =>
    intro stream ts h hd
    cases limit? with
    | none => exact absurd rfl (hd rfl)
    | some limit =>
      obtain rfl : limit = depth := hbudget limit rfl
      refine ⟨stream, h, fun k => .single ?_⟩
      rw [step, call, Station.enter, if_pos (by simp)]
      rfl
  | succ budget ih =>
    intro stream ts h hd
    have hentered : Station.enter limit? ⟨stream, depth⟩ = some ⟨stream, depth + 1⟩ := by
      refine Station.enter_eq_some.2 ⟨rfl, fun limit hl => ?_⟩
      rw [hbudget limit hl]
      exact Nat.lt_add_of_pos_right (Nat.succ_pos budget)
    have hnested : ∀ n : Nest,
        (Rule.nest n).Obeys source limit? (depth + 1) (readNest Nest.body budget n) := by
      refine ih fun limit hl => ?_
      rw [hbudget limit hl, Nat.add_assoc, Nat.add_comm 1]
    obtain ⟨stream', hstands, hreturns⟩ := Rule.obeys_read (readNest_suffix budget)
      (readNest_progresses budget) hnested n.body (steady_body n) h hd
    refine ⟨stream', hstands, fun k => .head ?_ ((hreturns (.leave k)).tail rfl)⟩
    rw [step, call, hentered]

/-- Calling a production does what reading does within the budget that the limit leaves, or within
one above the number of tokens if there is no limit. -/
theorem Rule.returns_readIn {source : String} {limit? : Option Nat} {depth budget : Nat}
    {r : Rule α} (hst : r.steady = true) (hbudget : ∀ limit ∈ limit?, limit = depth + budget)
    {stream : TokenStream} {ts : List Token} (hfree : limit? = none → ts.length < budget)
    (h : stream.StandsAt source ts) :
    ∃ stream', StandsAt source stream' (r.readIn budget ts).rest ∧
      r.Returns limit? ⟨stream, depth⟩ (r.readIn budget ts).ending ⟨stream', depth⟩ :=
  Rule.obeys_read (readNest_suffix budget) (readNest_progresses budget) (obeys_nest source hbudget)
    r hst h fun hl => Rule.readIn_not_tooDeep hst (hfree hl)

end GraphQL

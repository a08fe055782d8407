import GraphQL.Proofs.Grammar.Productions
import GraphQL.Proofs.Parse.Pull

/-!
# Descending step by step

A parser that pulls its tokens from a stream calls one production from another, loops up to a
closing token and counts the nesting constructs that are open.  `Descent.step` is one step of it,
with what is left to be done after the production at hand kept as `Frames`: nothing bounds how
often a loop turns or how deep productions call each other, and a count that would go below zero
or a step past the end of the input is a `Fault`.

What one step preserves (`Descent.Sound.step`) holds of all states of a run
(`Descent.Sound.steps`): the count is the number of nesting constructs under way, it does not
exceed the limit, and there is no fault.
-/

namespace GraphQL

variable {α β : Type}

/-- What must never happen to a parser. -/
inductive Fault where
  /-- It moves on where the input has ended. -/
  | pastEnd
  /-- It closes a nesting construct where none is open. -/
  | underflow
  /-- It wants the value of a string literal that has been taken out of the stream before. -/
  | valueTaken
  deriving DecidableEq, Repr

/-- A token stream, and how many nesting constructs are open. -/
structure Station where
  /-- The stream, with the token that is next as its latest. -/
  stream : TokenStream
  /-- How many nesting constructs are open. -/
  depth : Nat
  deriving DecidableEq, Repr

namespace Station

/-- Moves past the latest token, and takes its value if it is a string literal. -/
def consume (s : Station) : Except Fault (Token × Station) :=
  match s.stream.token? with
  | none => .error .pastEnd
  | some t =>
    match s.stream.consume t with
    | .ok (t, stream) => .ok (t, { s with stream })
    | .error _ => .error .valueTaken

/-- Opens a nesting construct, unless as many are open as the limit allows. -/
def enter (limit? : Option Nat) (s : Station) : Option Station :=
  if limit?.any (· ≤ s.depth) then none else some { s with depth := s.depth + 1 }

/-- Closes a nesting construct. -/
def leave (s : Station) : Except Fault Station :=
  match s.depth with
  | 0 => .error .underflow
  | depth + 1 => .ok { s with depth }

end Station

/-- What is left to be done with a tree of type `α`, up to one of type `β`. -/
inductive Frames (β : Type) : Type → Type 1 where
  /-- Nothing. -/
  | done : Frames β β
  /-- Turn it into another. -/
  | map {α γ : Type} (f : α → γ) (k : Frames β γ) : Frames β α
  /-- Read a second tree, and apply the first to it. -/
  | argument {α γ : Type} (r : Rule α) (k : Frames β γ) : Frames β (α → γ)
  /-- Add it to the items of a loop, and turn again as long as the stream says so. -/
  | loop {α : Type} (again : TokenStream → Bool) (item : Rule α) (items : List α)
    (k : Frames β (List α)) : Frames β α
  /-- Close the nesting construct that it is. -/
  | leave {α : Type} (k : Frames β α) : Frames β α

/-- Reads a closing token after the items of a loop, and keeps these. -/
def Frames.closing (close : TokenKind) (k : Frames β (List α)) : Frames β (List α) :=
  .map (fun items _ => items) (.argument (.one close) k)

/-- How a production ends. -/
abbrev Ending (α : Type) := Except Obstacle α

/-- What a descent is about to do. -/
inductive Control (β : Type) : Type 1 where
  /-- Call a production. -/
  | call {α : Type} (r : Rule α) (k : Frames β α)
  /-- Return from a production, with a tree or without. -/
  | back {α : Type} (ending : Ending α) (k : Frames β α)
  /-- Nothing any more. -/
  | fault (f : Fault)

/-- Begins a turn of a loop, or leaves the loop. -/
def Control.turn (again : TokenStream → Bool) (item : Rule α) (items : List α)
    (k : Frames β (List α)) (s : Station) : Control β :=
  if again s.stream then .call item (.loop again item items k) else .back (.ok items) k

/-- A parser at work. -/
structure Descent (β : Type) : Type 1 where
  /-- What it is about to do. -/
  control : Control β
  /-- Where it stands. -/
  station : Station

namespace Descent

/-- Moves past the latest token, and returns a tree made from it. -/
def consume (f : Token → α) (k : Frames β α) (s : Station) : Descent β :=
  match s.consume with
  | .ok (t, s) => ⟨.back (.ok (f t)) k, s⟩
  | .error fault => ⟨.fault fault, s⟩

/-- Returns without a tree. -/
def fail (obstacle : Obstacle) (k : Frames β α) (s : Station) : Descent β :=
  ⟨.back (.error obstacle) k, s⟩

/-- Calls a production. -/
def call (limit? : Option Nat) : {α : Type} → Rule α → Frames β α → Station → Descent β
  | _, .done a, k, s => ⟨.back (.ok a) k, s⟩
  | _, .token accepts expected, k, s =>
    if s.stream.latestIs accepts then consume id k s else fail (.unexpected expected) k s
  | _, .place read, k, s =>
    if s.stream.latestIs (· == .name) then
      match s.stream.token?.bind read with
      | some location => consume (fun _ => location) k s
      | none => fail .unknownPlace k s
    else fail (.unexpected [.name]) k s
  | _, .stuck expected, k, s => fail (.unexpected expected) k s
  | _, .map f r, k, s => ⟨.call r (.map f k), s⟩
  | _, .seq f r, k, s => ⟨.call f (.argument r k), s⟩
  | _, .branch test yes no, k, s => ⟨.call (if s.stream.latestIs test then yes else no) k, s⟩
  | _, .whileAt test item, k, s => ⟨.turn (·.latestIs test) item [] k s, s⟩
  | _, .upTo close item, k, s =>
    ⟨.turn (fun stream => !stream.latestIs (· == close)) item [] (.closing close k) s, s⟩
  | _, .nest n, k, s =>
    match s.enter limit? with
    | some s => ⟨.call n.body (.leave k), s⟩
    | none => fail .tooDeep k s
  | _, .located r, k, s => ⟨.call r (.map (· s.stream.tokenStart) k), s⟩

/-- Returns from a production; nothing more if it is the whole.  A nesting construct is closed
whether there is a tree or not. -/
def back : {α : Type} → Ending α → Frames β α → Station → Option (Descent β)
  | _, _, .done, _ => none
  | _, ending, .leave k, s =>
    match s.leave with
    | .ok s => some ⟨.back ending k, s⟩
    | .error fault => some ⟨.fault fault, s⟩
  | _, .ok a, .map f k, s => some ⟨.back (.ok (f a)) k, s⟩
  | _, .ok g, .argument r k, s => some ⟨.call r (.map g k), s⟩
  | _, .ok a, .loop again item items k, s => some ⟨.turn again item (items ++ [a]) k s, s⟩
  | _, .error obstacle, .map _ k, s => some (fail obstacle k s)
  | _, .error obstacle, .argument _ k, s => some (fail obstacle k s)
  | _, .error obstacle, .loop _ _ _ k, s => some (fail obstacle k s)

/-- One step, if there is one to do. -/
def step (limit? : Option Nat) : Descent β → Option (Descent β)
  | ⟨.call r k, s⟩ => some (call limit? r k s)
  | ⟨.back ending k, s⟩ => back ending k s
  | ⟨.fault _, _⟩ => none

/-- Any number of steps. -/
abbrev Steps (limit? : Option Nat) : Descent β → Descent β → Prop :=
  Relation.ReflTransGen fun d d' => d.step limit? = some d'

/-- The state after some steps, or at the end if that comes first. -/
def run (limit? : Option Nat) : Nat → Descent β → Descent β
  | 0, d => d
  | n + 1, d =>
    match d.step limit? with
    | some d => run limit? n d
    | none => d

theorem steps_run (limit? : Option Nat) (n : Nat) (d : Descent β) :
    Steps limit? d (d.run limit? n) := by
  induction n generalizing d with
  | zero => exact .refl
  | succ n ih =>
    unfold run
    split <;> rename_i hd
    · exact .head hd (ih _)
    · exact .refl

end Descent

/-! ### What one step preserves -/

/-- How many nesting constructs are to be closed. -/
def Frames.opened : {α : Type} → Frames β α → Nat
  | _, .done => 0
  | _, .map _ k | _, .argument _ k | _, .loop _ _ _ k => k.opened
  | _, .leave k => k.opened + 1

/-- Whether what is left to be done calls productions of the grammar only. -/
def Frames.InGrammar : {α : Type} → Frames β α → Prop
  | _, .done => True
  | _, .map _ k | _, .leave k => k.InGrammar
  | _, .argument r k => r.InGrammar ∧ k.InGrammar
  | _, .loop _ item _ k => item.InGrammar ∧ k.InGrammar

/-- How many nesting constructs are under way. -/
def Control.opened : Control β → Nat
  | .call _ k | .back _ k => k.opened
  | .fault _ => 0

/-- Whether there is no fault, and all that is called is in the grammar. -/
def Control.InGrammar : Control β → Prop
  | .call r k => r.InGrammar ∧ k.InGrammar
  | .back _ k => k.InGrammar
  | .fault _ => False

/-- The stream stands at some tokens of a source text, and no more nesting constructs are open than
the limit allows. -/
structure Station.Sound (source : String) (limit? : Option Nat) (s : Station) : Prop where
  /-- The stream stands at some tokens. -/
  stands : ∃ ts, s.stream.StandsAt source ts
  /-- The limit is kept. -/
  limited : ∀ limit ∈ limit?, s.depth ≤ limit

/-- The nesting constructs under way are counted, and nothing but productions of the grammar is
called. -/
structure Descent.Sound (source : String) (limit? : Option Nat) (d : Descent β) : Prop where
  /-- The parser stands at some tokens, within the limit. -/
  station : d.station.Sound source limit?
  /-- The count is right. -/
  counted : d.station.depth = d.control.opened
  /-- There is no fault, and all productions are those of the grammar. -/
  inGrammar : d.control.InGrammar

namespace Station

variable {source : String} {limit? : Option Nat} {s s' : Station} {t : Token} {ts : List Token}

/-- Where a token is next, it is moved past. -/
theorem consume_eq (h : s.stream.StandsAt source (t :: ts)) :
    s.consume = .ok (t, { s with stream := s.stream.advance }) := by
  rw [consume, h.token]
  simp only [List.head?_cons, h.consume_eq]

/-- A nesting construct is opened exactly if the limit allows one more. -/
theorem enter_eq_some : s.enter limit? = some s' ↔
    s' = { s with depth := s.depth + 1 } ∧ ∀ limit ∈ limit?, s.depth < limit := by
  unfold enter
  cases limit? with
  | none => simp [eq_comm]
  | some limit => by_cases h : limit ≤ s.depth <;> simp_all [eq_comm]

theorem Sound.enter (h : s.Sound source limit?) (hs : s.enter limit? = some s') :
    s'.Sound source limit? := by
  obtain ⟨rfl, hlimit⟩ := enter_eq_some.1 hs
  exact ⟨h.stands, hlimit⟩

end Station

namespace Descent

variable {source : String} {limit? : Option Nat} {s : Station} {r : Rule α} {k : Frames β α}

/-- Moving past a token, which is there. -/
theorem consume_eq {t : Token} {ts : List Token} (h : s.stream.StandsAt source (t :: ts))
    (f : Token → α) (k : Frames β α) :
    consume f k s = ⟨.back (.ok (f t)) k, { s with stream := s.stream.advance }⟩ := by
  rw [consume, Station.consume_eq h]

/-- A token is consumed only where one of the kind is next. -/
theorem sound_consume (h : s.Sound source limit?) {test : TokenKind → Bool}
    (ht : s.stream.latestIs test = true) (f : Token → α) (hk : k.InGrammar)
    (hopened : s.depth = k.opened) : (consume f k s).Sound source limit? := by
  obtain ⟨ts, hts⟩ := h.stands
  cases ts with
  | nil =>
    rw [hts.latestIs_eq] at ht
    cases ht
  | cons t ts =>
    rw [consume_eq hts]
    exact ⟨⟨⟨ts, hts.advance⟩, h.limited⟩, hopened, hk⟩

theorem sound_turn (h : s.Sound source limit?) (again : TokenStream → Bool)
    (hr : r.InGrammar) (items : List α) {k : Frames β (List α)} (hk : k.InGrammar)
    (hopened : s.depth = k.opened) : Sound source limit? ⟨.turn again r items k s, s⟩ := by
  unfold Control.turn
  split
  · exact ⟨h, hopened, hr, hr, hk⟩
  · exact ⟨h, hopened, hk⟩

theorem sound_call (h : s.Sound source limit?) (hr : r.InGrammar) (hk : k.InGrammar)
    (hopened : s.depth = k.opened) : (call limit? r k s).Sound source limit? := by
  cases r with
  | done a | stuck expected => exact ⟨h, hopened, hk⟩
  | token accepts expected =>
    rw [call]
    split
    · rename_i ht
      exact sound_consume h ht id hk hopened
    · exact ⟨h, hopened, hk⟩
  | place read =>
    rw [call]
    split
    · rename_i ht
      split
      · exact sound_consume h ht _ hk hopened
      · exact ⟨h, hopened, hk⟩
    · exact ⟨h, hopened, hk⟩
  | map f r => exact ⟨h, hopened, hr.map, hk⟩
  | seq f r => exact ⟨h, hopened, hr.left, hr.right, hk⟩
  | branch test yes no =>
    refine ⟨h, hopened, ?_, hk⟩
    split
    · exact hr.yes
    · exact hr.no
  | whileAt test item => exact sound_turn h _ hr.turn [] hk hopened
  | upTo close item =>
    exact sound_turn h _ hr.item [] (k := .closing close k) ⟨hr.close, hk⟩ hopened
  | nest n =>
    rw [call]
    split
    · rename_i s' hs'
      have hsound := h.enter hs'
      obtain ⟨rfl, -⟩ := Station.enter_eq_some.1 hs'
      exact ⟨hsound, congrArg (· + 1) hopened, hr.body, hk⟩
    · exact ⟨h, hopened, hk⟩
  | located r => exact ⟨h, hopened, hr.located, hk⟩

theorem sound_back (h : s.Sound source limit?) (hk : k.InGrammar) (hopened : s.depth = k.opened)
    (ending : Ending α) {d : Descent β} (hd : back ending k s = some d) :
    d.Sound source limit? := by
  cases k with
  | done => cases hd
  | leave k =>
    -- The construct that is closed is counted, so that the count is not zero.
    obtain ⟨stream, depth⟩ := s
    obtain rfl : depth = k.opened + 1 := hopened
    cases hd
    exact ⟨⟨h.stands, fun limit hl => Nat.le_of_succ_le (h.limited limit hl)⟩, rfl, hk⟩
  | map f k =>
    cases ending <;> cases hd
    · exact ⟨h, hopened, hk⟩
    · exact ⟨h, hopened, hk⟩
  | argument r k =>
    cases ending <;> cases hd
    · exact ⟨h, hopened, hk.2⟩
    · exact ⟨h, hopened, hk⟩
  | loop again item items k =>
    cases ending <;> cases hd
    · exact ⟨h, hopened, hk.2⟩
    · exact sound_turn h again hk.1 _ hk.2 hopened

/-- A step of a sound descent leads to one. -/
theorem Sound.step {d d' : Descent β} (h : d.Sound source limit?)
    (hd : d.step limit? = some d') : d'.Sound source limit? := by
  obtain ⟨control, s⟩ := d
  cases control with
  | call r k =>
    cases hd
    exact sound_call h.station h.inGrammar.1 h.inGrammar.2 h.counted
  | back ending k => exact sound_back h.station h.inGrammar h.counted ending hd
  | fault f => cases hd

/-- Any number of steps does, too. -/
theorem Sound.steps {d d' : Descent β} (h : d.Sound source limit?) (hd : Steps limit? d d') :
    d'.Sound source limit? := by
  induction hd with
  | refl => exact h
  | tail _ hstep ih => exact ih.step hstep

end Descent

end GraphQL

import GraphQL.Proofs.Parse.Descent

/-!
# How deep calls go

The frames of a descent are bounded by the nesting constructs that are open
(`Control.Fits.size_le`): a production calls itself through a nesting construct only, and between
two of these there are but so many calls (`Rule.height`).  With a limit on nesting, no source text
makes a parser call deeper than a fixed multiple of the limit.
-/

namespace GraphQL

variable {α β : Type}

/-- How many frames a rule needs at most at a time, with no nesting construct opened. -/
def Rule.height : {α : Type} → Rule α → Nat
  | _, .done _ | _, .token _ _ | _, .place _ | _, .stuck _ => 0
  | _, .nest _ => 1
  | _, .map _ r | _, .located r => r.height + 1
  | _, .seq f r => max f.height r.height + 1
  | _, .branch _ yes no => max yes.height no.height
  | _, .whileAt _ item => item.height + 1
  | _, .upTo _ item => item.height + 3

/-- How many frames the definitions of a document, or the body of a nesting construct, need at
most. -/
def frameBound : Nat := 38

theorem height_definitions : definitions.height ≤ frameBound := by decide

theorem height_body (n : Nest) : n.body.height ≤ frameBound := by
  cases n <;> decide

/-- How many frames there are. -/
def Frames.size : {α : Type} → Frames β α → Nat
  | _, .done => 0
  | _, .map _ k | _, .argument _ k | _, .loop _ _ _ k | _, .leave k => k.size + 1

/-- How many frames may be in use: so many for each nesting construct to be closed, and for the
definitions. -/
def Frames.room (k : Frames β α) : Nat := frameBound * (k.opened + 1)

section

variable {γ : Type}

@[simp] theorem Frames.room_map (f : α → γ) (k : Frames β γ) : (map f k).room = k.room := rfl

@[simp] theorem Frames.room_argument (r : Rule α) (k : Frames β γ) :
    (argument r k).room = k.room := rfl

@[simp] theorem Frames.room_loop (again : TokenStream → Bool) (item : Rule α) (items : List α)
    (k : Frames β (List α)) : (loop again item items k).room = k.room := rfl

@[simp] theorem Frames.room_leave (k : Frames β α) : (leave k).room = k.room + frameBound := by
  simp only [room, opened, Nat.mul_succ]

end

/-- Whether there is room for all frames that are in use at any time. -/
def Frames.Fits : {α : Type} → Frames β α → Prop
  | _, .done => True
  | _, .map _ k | _, .leave k => k.size + 1 ≤ k.room ∧ k.Fits
  | _, .argument r k => k.size + 1 + r.height ≤ k.room ∧ k.Fits
  | _, .loop _ item _ k => k.size + 1 + item.height ≤ k.room ∧ k.Fits

/-- Whether there is room for what is called, too. -/
def Control.Fits : Control β → Prop
  | .call r k => k.size + r.height ≤ k.room ∧ k.Fits
  | .back _ k => k.Fits
  | .fault _ => True

/-- How many frames a descent has. -/
def Control.size : Control β → Nat
  | .call _ k | .back _ k => k.size
  | .fault _ => 0

theorem Frames.Fits.size_le {k : Frames β α} (h : k.Fits) : k.size ≤ k.room := by
  cases k with
  | done => exact Nat.zero_le _
  | map f k => exact h.1
  | argument r k | loop again r items k => exact Nat.le_of_add_right_le h.1
  | leave k =>
    rw [room_leave]
    exact h.1.trans (Nat.le_add_right _ _)

namespace Descent

variable {limit? : Option Nat} {s : Station} {r : Rule α} {k : Frames β α}

theorem fits_consume (hk : k.Fits) (f : Token → α) : (consume f k s).control.Fits := by
  unfold consume
  split
  · exact hk
  · trivial

theorem fits_turn (again : TokenStream → Bool) (items : List α) {k : Frames β (List α)}
    (hsize : k.size + 1 + r.height ≤ k.room) (hk : k.Fits) :
    (Control.turn again r items k s).Fits := by
  unfold Control.turn
  split
  · exact ⟨hsize, hsize, hk⟩
  · exact hk

theorem fits_call (hsize : k.size + r.height ≤ k.room) (hk : k.Fits) :
    (call limit? r k s).control.Fits := by
  cases r with
  | done a | stuck expected => exact hk
  | token accepts expected =>
    rw [call]
    split
    · exact fits_consume hk id
    · exact hk
  | place read =>
    rw [call]
    split
    · split
      · exact fits_consume hk _
      · exact hk
    · exact hk
  | map f r | located r =>
    simp only [Rule.height] at hsize
    refine ⟨?_, ?_, hk⟩
    · simp only [Frames.size, Frames.room_map]
      omega
    · omega
  | seq f r =>
    simp only [Rule.height] at hsize
    refine ⟨?_, ?_, hk⟩
    · simp only [Frames.size, Frames.room_argument]
      omega
    · omega
  | branch test yes no =>
    simp only [Rule.height] at hsize
    refine ⟨?_, hk⟩
    split <;> omega
  | whileAt test item =>
    simp only [Rule.height] at hsize
    exact fits_turn _ [] (by omega) hk
  | upTo close item =>
    simp only [Rule.height] at hsize
    have hclosing : (Frames.closing close k).Fits := by
      refine ⟨?_, ?_, hk⟩
      · simp only [Frames.size, Frames.room_argument]
        omega
      · simp only [Rule.one, Rule.height]
        omega
    refine fits_turn (fun stream => !stream.latestIs (· == close)) [] ?_ hclosing
    simp only [Frames.closing, Frames.size, Frames.room_map, Frames.room_argument]
    omega
  | nest n =>
    simp only [Rule.height] at hsize
    rw [call]
    split
    · have hbody := height_body n
      refine ⟨?_, hsize, hk⟩
      simp only [Frames.size, Frames.room_leave]
      omega
    · exact hk

theorem fits_back (hk : k.Fits) (ending : Ending α) {d : Descent β}
    (hd : back ending k s = some d) : d.control.Fits := by
  cases k with
  | done => cases hd
  | leave k =>
    simp only [back] at hd
    split at hd <;> cases hd
    · exact hk.2
    · trivial
  | map f k => cases ending <;> cases hd <;> exact hk.2
  | argument r k =>
    obtain ⟨hsize, hk⟩ := hk
    cases ending <;> cases hd
    · exact hk
    · exact ⟨hsize, Nat.le_of_add_right_le hsize, hk⟩
  | loop again item items k =>
    cases ending <;> cases hd
    · exact hk.2
    · exact fits_turn again _ hk.1 hk.2

/-- A step keeps to the room that there is. -/
theorem fits_step {d d' : Descent β} (h : d.control.Fits) (hd : d.step limit? = some d') :
    d'.control.Fits := by
  obtain ⟨control, s⟩ := d
  cases control with
  | call r k =>
    cases hd
    exact fits_call h.1 h.2
  | back ending k => exact fits_back h ending hd
  | fault f => cases hd

/-- Any number of steps does, too. -/
theorem fits_steps {d d' : Descent β} (h : d.control.Fits) (hd : Steps limit? d d') :
    d'.control.Fits := by
  induction hd with
  | refl => exact h
  | tail _ hstep ih => exact fits_step ih hstep

end Descent

/-- The frames are bounded by the nesting constructs under way. -/
theorem Control.Fits.size_le {c : Control β} (h : c.Fits) :
    c.size ≤ frameBound * (c.opened + 1) := by
  cases c with
  | call r k => exact h.2.size_le
  | back ending k => exact Frames.Fits.size_le h
  | fault f => exact Nat.zero_le _

end GraphQL

/-!
# Offsets and lines in a source text

A position in a source text is a **byte offset** into its UTF-8 form.  Tokens and trees report
offsets in 32 bits: beyond the largest such number, `maxOffset`, all places are reported as that one
(`reportedOffset`).

Lines count from one, and only a line feed ends a line: the line of an offset is one more than the
number of line feeds that start before it (`lineAt`).  An offset inside a character or beyond the
end of the text has a line too.
-/

namespace GraphQL

/-- The largest offset that is reported. -/
def maxOffset : Nat := 4294967295

/-- The offset that is reported for a place: larger ones are cut down to the largest. -/
def reportedOffset (offset : Nat) : Nat := min offset maxOffset

theorem reportedOffset_of_le {offset : Nat} (h : offset ≤ maxOffset) :
    reportedOffset offset = offset :=
  Nat.min_eq_left h

/-- Cutting down before an addition makes no difference to what is reported in the end. -/
theorem reportedOffset_add (offset n : Nat) :
    reportedOffset (reportedOffset offset + n) = reportedOffset (offset + n) := by
  simp only [reportedOffset]
  omega

/-- The number of bytes that some text takes in UTF-8. -/
def byteLength : List Char → Nat
  | [] => 0
  | c :: cs => c.utf8Size + byteLength cs

/-- The number of line feeds that start before the byte offset. -/
def lineFeedsBefore : List Char → Nat → Nat
  | [], _ => 0
  | c :: cs, offset =>
    if offset = 0 then 0
    else (if c = '\n' then 1 else 0) + lineFeedsBefore cs (offset - c.utf8Size)

/-- The line, counted from one, that holds the byte offset. -/
def lineAt (source : String) (offset : Nat) : Nat :=
  1 + lineFeedsBefore source.toList offset

/-- The offset that is reported for the end of a piece of text that starts at `start`. -/
def endOffset (start : Nat) (text : String) : Nat :=
  reportedOffset (start + byteLength text.toList)

end GraphQL

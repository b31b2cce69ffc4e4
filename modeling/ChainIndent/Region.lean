import ChainIndent.Line.Kind
import ChainIndent.Text.Lines
import ChainIndent.Event

/-!
# ChainIndent.Region

The region of a document is the run of lines that is laid out anew; all
before it and after it stays.

1. The first line that holds the signature fixes the region.  It and the
   header lines that follow stay in front.
2. The region ends before the first line, outside a callback, that starts
   with the style's end prefix and does not hold the closer of callbacks;
   without such a line it runs to the end of the document.
3. A callback counts here from the first line of the region on: it is open
   behind an opener until a closer comes.
4. Without a signature there is no region, and all lines stand in front.
-/

namespace ChainIndent

/-- A document cut in three. -/
structure Region where
  before : List Line
  body : List Line
  after : List Line
  /-- The index of the line with the signature, if there is one. -/
  signatureLine : Option Nat
  deriving DecidableEq, Repr

namespace Region

/-- Whether the signature was found. -/
def isFound (r : Region) : Bool := r.signatureLine.isSome

/-- The text of the document with other lines for the body. -/
def rewrite (r : Region) (body : List Line) : List Char :=
  joinLines (r.before ++ body ++ r.after)

/-- What is reported on finding the region, or not. -/
def event (s : Style) (r : Region) : Event :=
  match r.signatureLine with
  | none => .signatureMissing s.signature
  | some i => .regionLocated (i + 1) r.body.length

end Region

namespace Style

/-- A line that ends the region, if no callback is open. -/
def endsRegion (s : Style) (l : Line) : Bool :=
  s.regionEndPrefix.isPrefixOf l && !occursIn s.verbatimEnd l

/-- Whether a callback is open behind a line of kind `k`, if `isOpen` tells
whether one is before it. -/
def opensAfter (isOpen : Bool) (k : LineKind) : Bool :=
  if isOpen then k ≠ .verbatimEnd else k = .verbatimStart

/-- How many lines the region has, `isOpen` telling whether a callback is
open before the first of them. -/
def bodyLength (s : Style) (isOpen : Bool) : List Line → Nat
  | [] => 0
  | l :: ls =>
    if !isOpen && s.endsRegion l then 0
    else s.bodyLength (opensAfter isOpen (s.kindOf l)) ls + 1

/-- Cut a document whose signature stands in line `i` and whose region
begins at line `start`, or at its end if it is shorter. -/
def cutAt (s : Style) (ls : List Line) (i start : Nat) : Region :=
  { before := ls.take start
    body := (ls.drop start).take (s.bodyLength false (ls.drop start))
    after := (ls.drop start).drop (s.bodyLength false (ls.drop start))
    signatureLine := some i }

/-- The index of the first line that holds the signature. -/
def signatureLine? (s : Style) (ls : List Line) : Option Nat := ls.findIdx? (occursIn s.signature)

/-- Cut a document at its region. -/
def locate (s : Style) (ls : List Line) : Region :=
  match s.signatureLine? ls with
  | none => { before := ls, body := [], after := [], signatureLine := none }
  | some i => s.cutAt ls i (i + 1 + s.headerLines)

theorem bodyLength_le (s : Style) (isOpen : Bool) (ls : List Line) :
    s.bodyLength isOpen ls ≤ ls.length := by
  induction ls generalizing isOpen with
  | nil => simp [bodyLength]
  | cons l ls ih =>
    rw [bodyLength]
    split
    · simp
    · simpa using ih _

/-- Cutting loses no line. -/
theorem cutAt_append (s : Style) (ls : List Line) (i start : Nat) :
    (s.cutAt ls i start).before ++ (s.cutAt ls i start).body ++ (s.cutAt ls i start).after = ls := by
  simp only [cutAt, List.append_assoc, List.take_append_drop]

/-- The three parts together are the document. -/
theorem locate_append (s : Style) (ls : List Line) :
    (s.locate ls).before ++ (s.locate ls).body ++ (s.locate ls).after = ls := by
  unfold locate
  split
  · simp
  · exact cutAt_append ..

end Style

end ChainIndent

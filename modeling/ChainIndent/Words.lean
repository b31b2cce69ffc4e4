import ChainIndent.Document

/-!
# ChainIndent.Words

Counting in 64-bit words.  The definitions of the library count in unbounded
numbers; on a machine the level, the line numbers and the tally are unsigned
words and the brace balance is a signed one, all of which wrap around.  A
valid style and a text that fits into memory never come near the limits.  A
style that has not been checked can: its header lines alone may wrap.

Sizes that are computed only to reserve memory, for a line or for a text, are
hints and not counts: nothing that is written or reported depends on them, and
they are left out.

Every count grows by one operation per line, so it is enough to reduce each
context to words after its step: sums of reduced numbers and reduced sums
are the same (`UInt64.toNat_add`, `Int64.toInt_add`).
-/

namespace ChainIndent

/-- An unsigned 64-bit word. -/
def unsignedWord (n : Nat) : Nat := n % UInt64.size

/-- A signed 64-bit word, in two's complement. -/
def signedWord (n : Int) : Int := n.bmod UInt64.size

theorem unsignedWord_of_lt {n : Nat} (h : n < UInt64.size) : unsignedWord n = n := Nat.mod_eq_of_lt h

theorem signedWord_of_bounds {n : Int} (h₁ : Int64.minValue.toInt ≤ n)
    (h₂ : n ≤ Int64.maxValue.toInt) : signedWord n = n := by
  have e₁ : Int64.minValue.toInt = -9223372036854775808 := by decide
  have e₂ : Int64.maxValue.toInt = 9223372036854775807 := by decide
  have e₃ : UInt64.size = 18446744073709551616 := by decide
  unfold signedWord
  rw [Int.bmod_eq_of_le] <;> omega

/-- A context held in words. -/
def Context.inWords (c : Context) : Context :=
  { c with level := unsignedWord c.level, balance := signedWord c.balance }

/-- A tally held in words. -/
def Tally.inWords (t : Tally) : Tally :=
  { t with
    reindentedLines := unsignedWord t.reindentedLines
    verbatimLines := unsignedWord t.verbatimLines
    verbatimBlocks := unsignedWord t.verbatimBlocks }

namespace Style

/-- Lay out one line, the new context held in words. -/
def stepInWords (s : Style) (c : Context) (raw : Line) : Step :=
  { s.step c raw with after := (s.step c raw).after.inWords }

/-- Lay out the lines of a region, counting in words. -/
def reindentInWords (s : Style) (ls : List Line) : Reindented :=
  let r := Reindented.ofRun s.indentUnit s.start (run s.stepInWords s.start ls)
  { r with tally := r.tally.inWords }

/-- Cut a document at its region, counting lines in words. -/
def locateInWords (s : Style) (ls : List Line) : Region :=
  match s.signatureLine? ls with
  | none => { before := ls, body := [], after := [], signatureLine := none }
  | some i => s.cutAt ls i (unsignedWord (i + 1 + s.headerLines))

end Style

end ChainIndent

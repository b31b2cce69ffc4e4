import ChainIndent.Style
import ChainIndent.Toml.Document

/-!
# ChainIndent.Style.Layer

Styles written in TOML.  There are two ways to read a table:

1. as a whole style: a field that the table lacks takes its standard value;
2. as a *layer*: a field that the table lacks stays open, so that layers can
   be laid over a style one after the other, each overriding only what it
   sets.

Both read the same keys and the same kinds of value: text, numbers that are
not negative, and lists of texts.  A known key with another kind of value is
a mistake; an unknown key is not looked at.
-/

namespace ChainIndent

open Toml (Table Value)

/-! ## Field values -/

namespace Toml.Value

/-- A text. -/
def text? : Value → Option (List Char)
  | .string s => some s
  | _ => none

/-- A number that is not negative. -/
def natural? : Value → Option Nat
  | .integer n => if 0 ≤ n then some n.toNat else none
  | _ => none

/-- A list of texts. -/
def texts? : Value → Option (List (List Char))
  | .array vs => vs.mapM text?
  | _ => none

end Toml.Value

namespace Style

/-! ## Whole styles -/

/-- A field read with `read`, or `standard` if the table lacks it. -/
def fieldOr {α : Type} (t : Table) (key : String) (read : Value → Option α) (standard : α) :
    Option α :=
  match t.lookup key.toList with
  | none => some standard
  | some v => read v

/-- The style that a table writes; the fields it lacks are standard. -/
def ofTable? (t : Table) : Option Style := do
  return {
    baseIndent := ← fieldOr t "base_indent" Value.natural? 2
    indentChar := ← fieldOr t "indent_char" Value.text? ['\t']
    indentWidth := ← fieldOr t "indent_width" Value.natural? 1
    signature := ← fieldOr t "signature" Value.text? "func buildRootCommand()".toList
    headerLines := ← fieldOr t "header_lines" Value.natural? 1
    commentPrefix := ← fieldOr t "comment_prefix" Value.text? "//".toList
    indentMarkers := ← fieldOr t "indent_markers" Value.texts?
      ["Subcommand(".toList, "Flag(".toList, "Arg(".toList]
    dedentMarkers := ← fieldOr t "dedent_markers" Value.texts? ["Done().".toList]
    verbatimStart := ← fieldOr t "verbatim_start" Value.text? "Handler(func".toList
    verbatimEnd := ← fieldOr t "verbatim_end" Value.text? ['}', ')', '.']
    regionEndPrefix := ← fieldOr t "region_end_prefix" Value.text? ['}'] }

/-- The style that a TOML document writes. -/
def ofToml? (text : List Char) : Option Style := (Toml.parse? text).bind ofTable?

/-! ## Layers -/

/-- The fields of a style that one file sets. -/
structure Layer where
  baseIndent : Option Nat := none
  indentChar : Option (List Char) := none
  indentWidth : Option Nat := none
  signature : Option (List Char) := none
  headerLines : Option Nat := none
  commentPrefix : Option (List Char) := none
  indentMarkers : Option (List (List Char)) := none
  dedentMarkers : Option (List (List Char)) := none
  verbatimStart : Option (List Char) := none
  verbatimEnd : Option (List Char) := none
  regionEndPrefix : Option (List Char) := none
  deriving DecidableEq, Repr

/-- A field read with `read`, open if the table lacks it. -/
def field? {α : Type} (t : Table) (key : String) (read : Value → Option α) : Option (Option α) :=
  match t.lookup key.toList with
  | none => some none
  | some v => (read v).map some

/-- The layer that a table writes. -/
def Layer.ofTable? (t : Table) : Option Layer := do
  return {
    baseIndent := ← field? t "base_indent" Value.natural?
    indentChar := ← field? t "indent_char" Value.text?
    indentWidth := ← field? t "indent_width" Value.natural?
    signature := ← field? t "signature" Value.text?
    headerLines := ← field? t "header_lines" Value.natural?
    commentPrefix := ← field? t "comment_prefix" Value.text?
    indentMarkers := ← field? t "indent_markers" Value.texts?
    dedentMarkers := ← field? t "dedent_markers" Value.texts?
    verbatimStart := ← field? t "verbatim_start" Value.text?
    verbatimEnd := ← field? t "verbatim_end" Value.text?
    regionEndPrefix := ← field? t "region_end_prefix" Value.text? }

/-- The layer that a TOML document writes. -/
def Layer.ofToml? (text : List Char) : Option Layer := (Toml.parse? text).bind Layer.ofTable?

/-- Lay a layer over a style: the fields it sets take its values. -/
def overlay (s : Style) (l : Layer) : Style :=
  { baseIndent := l.baseIndent.getD s.baseIndent
    indentChar := l.indentChar.getD s.indentChar
    indentWidth := l.indentWidth.getD s.indentWidth
    signature := l.signature.getD s.signature
    headerLines := l.headerLines.getD s.headerLines
    commentPrefix := l.commentPrefix.getD s.commentPrefix
    indentMarkers := l.indentMarkers.getD s.indentMarkers
    dedentMarkers := l.dedentMarkers.getD s.dedentMarkers
    verbatimStart := l.verbatimStart.getD s.verbatimStart
    verbatimEnd := l.verbatimEnd.getD s.verbatimEnd
    regionEndPrefix := l.regionEndPrefix.getD s.regionEndPrefix }

end Style

end ChainIndent

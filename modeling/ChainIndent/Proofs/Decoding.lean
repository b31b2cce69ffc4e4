import ChainIndent.Proofs.Layers

/-!
# ChainIndent.Proofs.Decoding

The two ways to read a style from a TOML table, and that they agree.

1. Each field has a key (`Field.key`) and one way to be written as a value
   (`Field.write`); what the decoders take from a table are just the values
   that are written so (`read_eq_some_iff`).
2. A layer is the table as far as the fields go (`Layer.ofTable?_eq_some_iff`),
   and a whole style is that layer over the standard style
   (`ofTable?_eq_map_overlay`).  So there is no field that the two know by
   different keys, of different kinds or with different standard values.
3. What stands under any other key is not looked at
   (`ofTable?_append_unknown`).
-/

namespace ChainIndent

open Toml (Table)

/-! ## values -/

namespace Toml.Value

theorem text?_eq_some_iff {v : Value} {s : List Char} : v.text? = some s ↔ v = .string s := by
  cases v <;> simp [text?]

/-- Numbers are read if they are not negative; no float is a number here. -/
theorem natural?_eq_some_iff {v : Value} {n : Nat} :
    v.natural? = some n ↔ v = .integer (Int.ofNat n) := by
  cases v with
  | integer i =>
      simp only [natural?, Option.ite_none_right_eq_some, Option.some.injEq, integer.injEq,
        Int.ofNat_eq_natCast]
      omega
  | _ => simp [natural?]

theorem mapM_text?_eq_some_iff {vs : List Value} {ss : List (List Char)} :
    vs.mapM text? = some ss ↔ vs = ss.map string := by
  induction vs generalizing ss with
  | nil => simp [eq_comm]
  | cons v vs ih =>
      simp only [List.mapM_cons, Option.bind_eq_bind, Option.bind_eq_some_iff, Option.pure_def,
        Option.some.injEq, text?_eq_some_iff, ih]
      cases ss <;> grind

/-- Lists are read if every item is a text. -/
theorem texts?_eq_some_iff {v : Value} {ss : List (List Char)} :
    v.texts? = some ss ↔ v = .array (ss.map string) := by
  cases v with
  | array vs => simp [texts?, mapM_text?_eq_some_iff]
  | _ => simp [texts?]

end Toml.Value

namespace Style

/-! ## fields in a table -/

namespace Field

/-- What a field is called in a style file. -/
def name : Field → String
  | .baseIndent => "base_indent"
  | .indentChar => "indent_char"
  | .indentWidth => "indent_width"
  | .signature => "signature"
  | .headerLines => "header_lines"
  | .commentPrefix => "comment_prefix"
  | .indentMarkers => "indent_markers"
  | .dedentMarkers => "dedent_markers"
  | .verbatimStart => "verbatim_start"
  | .verbatimEnd => "verbatim_end"
  | .regionEndPrefix => "region_end_prefix"

/-- The key under which a field stands in a table. -/
def key (f : Field) : Toml.Key := f.name.toList

/-- How the value of a field is read. -/
def read : (f : Field) → Toml.Value → Option f.Value
  | .baseIndent | .indentWidth | .headerLines => Toml.Value.natural?
  | .indentMarkers | .dedentMarkers => Toml.Value.texts?
  | .indentChar | .signature | .commentPrefix | .verbatimStart | .verbatimEnd
  | .regionEndPrefix => Toml.Value.text?

/-- The one TOML value that gives a value to a field. -/
def write : (f : Field) → f.Value → Toml.Value
  | .baseIndent | .indentWidth | .headerLines => fun n => .integer (Int.ofNat n)
  | .indentMarkers | .dedentMarkers => fun ss => .array (ss.map .string)
  | .indentChar | .signature | .commentPrefix | .verbatimStart | .verbatimEnd
  | .regionEndPrefix => .string

theorem read_eq_some_iff {f : Field} {v : Toml.Value} {x : f.Value} :
    f.read v = some x ↔ v = f.write x := by
  cases f with
  | baseIndent | indentWidth | headerLines => exact Toml.Value.natural?_eq_some_iff
  | indentMarkers | dedentMarkers => exact Toml.Value.texts?_eq_some_iff
  | indentChar | signature | commentPrefix | verbatimStart | verbatimEnd | regionEndPrefix =>
      exact Toml.Value.text?_eq_some_iff

theorem forall_iff {P : Field → Prop} :
    (∀ f, P f) ↔ P .baseIndent ∧ P .indentChar ∧ P .indentWidth ∧ P .signature ∧
      P .headerLines ∧ P .commentPrefix ∧ P .indentMarkers ∧ P .dedentMarkers ∧
      P .verbatimStart ∧ P .verbatimEnd ∧ P .regionEndPrefix := by
  constructor
  · intro h
    simp only [h, and_self]
  · rintro ⟨h₁, h₂, h₃, h₄, h₅, h₆, h₇, h₈, h₉, h₁₀, h₁₁⟩ f
    cases f <;> assumption

end Field

/-- A value stands under the key of a field that the field cannot have. -/
def Misfit (t : Table) (f : Field) : Prop :=
  ∃ v, t.lookup f.key = some v ∧ ∀ x, v ≠ f.write x

theorem field?_eq_some_iff {t : Table} {f : Field} {x : Option f.Value} :
    field? t f.name f.read = some x ↔ t.lookup f.key = x.map f.write := by
  rw [field?, ← Field.key]
  cases t.lookup f.key with
  | none => cases x <;> simp
  | some v => cases x <;> simp [Field.read_eq_some_iff]

/-- The two ways to read a field differ in what they make of a lack. -/
theorem fieldOr_eq_map_field? {α : Type} (t : Table) (key : String)
    (read : Toml.Value → Option α) (d : α) :
    fieldOr t key read d = (field? t key read).map (·.getD d) := by
  rw [fieldOr, field?]
  cases t.lookup key.toList with
  | none => rfl
  | some v => cases h : read v <;> simp [h]

theorem fieldOr_eq_some_iff {t : Table} {f : Field} {d x : f.Value} :
    fieldOr t f.name f.read d = some x ↔
      t.lookup f.key = some (f.write x) ∨ t.lookup f.key = none ∧ x = d := by
  rw [fieldOr_eq_map_field?, Option.map_eq_some_iff]
  simp only [field?_eq_some_iff]
  constructor
  · rintro ⟨_ | y, h, rfl⟩
    · exact .inr ⟨h, rfl⟩
    · exact .inl h
  · rintro (h | ⟨h, rfl⟩)
    · exact ⟨some x, h, rfl⟩
    · exact ⟨none, h, rfl⟩

/-! ## layers from tables -/

/-- The layer that has these fields. -/
def Layer.ofFields (x : (f : Field) → Option f.Value) : Layer :=
  { baseIndent := x .baseIndent
    indentChar := x .indentChar
    indentWidth := x .indentWidth
    signature := x .signature
    headerLines := x .headerLines
    commentPrefix := x .commentPrefix
    indentMarkers := x .indentMarkers
    dedentMarkers := x .dedentMarkers
    verbatimStart := x .verbatimStart
    verbatimEnd := x .verbatimEnd
    regionEndPrefix := x .regionEndPrefix }

@[simp] theorem Layer.get?_ofFields (x : (f : Field) → Option f.Value) (f : Field) :
    (Layer.ofFields x).get? f = x f := by
  cases f <;> rfl

theorem Layer.ofTable?_eq_some_iff {t : Table} {l : Layer} :
    Layer.ofTable? t = some l ↔ ∀ f : Field, t.lookup f.key = (l.get? f).map f.write := by
  simp only [← field?_eq_some_iff, Layer.ofTable?, Option.bind_eq_bind, Option.bind_eq_some_iff,
    Option.pure_def, Option.some.injEq]
  constructor
  · rintro ⟨_, h₁, _, h₂, _, h₃, _, h₄, _, h₅, _, h₆, _, h₇, _, h₈, _, h₉, _, h₁₀, _, h₁₁, rfl⟩
    exact Field.forall_iff.2 ⟨h₁, h₂, h₃, h₄, h₅, h₆, h₇, h₈, h₉, h₁₀, h₁₁⟩
  · intro h
    exact ⟨_, h .baseIndent, _, h .indentChar, _, h .indentWidth, _, h .signature,
      _, h .headerLines, _, h .commentPrefix, _, h .indentMarkers, _, h .dedentMarkers,
      _, h .verbatimStart, _, h .verbatimEnd, _, h .regionEndPrefix, rfl⟩

/-- What is no misfit can be read, and is what is written of what was read. -/
theorem lookup_of_not_misfit {t : Table} {f : Field} (h : ¬Misfit t f) :
    t.lookup f.key = ((t.lookup f.key).bind f.read).map f.write := by
  cases hlookup : t.lookup f.key with
  | none => rfl
  | some v =>
      have hx : ∃ x, v = f.write x := by
        by_contra hv
        exact h ⟨v, hlookup, not_exists.1 hv⟩
      obtain ⟨x, rfl⟩ := hx
      rw [Option.bind_some, Field.read_eq_some_iff.2 rfl, Option.map_some]

/-- A table makes a layer unless it has a misfit. -/
theorem Layer.ofTable?_eq_none_iff {t : Table} :
    Layer.ofTable? t = none ↔ ∃ f, Misfit t f := by
  rw [Option.eq_none_iff_forall_ne_some]
  constructor
  · intro h
    by_contra hfit
    refine h (Layer.ofFields fun f => (t.lookup f.key).bind f.read)
      (Layer.ofTable?_eq_some_iff.2 fun f => ?_)
    rw [Layer.get?_ofFields]
    exact lookup_of_not_misfit (not_exists.1 hfit f)
  · rintro ⟨f, v, hlookup, hv⟩ l hl
    have hf := Layer.ofTable?_eq_some_iff.1 hl f
    rw [hlookup] at hf
    obtain ⟨x, -, hx⟩ := Option.map_eq_some_iff.1 hf.symm
    exact hv x hx.symm

/-! ## styles from tables -/

theorem ofTable?_eq_some_iff {t : Table} {s : Style} :
    ofTable? t = some s ↔ ∀ f : Field,
      t.lookup f.key = some (f.write (s.get f)) ∨
        t.lookup f.key = none ∧ s.get f = standard.get f := by
  simp only [← fieldOr_eq_some_iff, ofTable?, Option.bind_eq_bind, Option.bind_eq_some_iff,
    Option.pure_def, Option.some.injEq]
  constructor
  · rintro ⟨_, h₁, _, h₂, _, h₃, _, h₄, _, h₅, _, h₆, _, h₇, _, h₈, _, h₉, _, h₁₀, _, h₁₁, rfl⟩
    exact Field.forall_iff.2 ⟨h₁, h₂, h₃, h₄, h₅, h₆, h₇, h₈, h₉, h₁₀, h₁₁⟩
  · intro h
    exact ⟨_, h .baseIndent, _, h .indentChar, _, h .indentWidth, _, h .signature,
      _, h .headerLines, _, h .commentPrefix, _, h .indentMarkers, _, h .dedentMarkers,
      _, h .verbatimStart, _, h .verbatimEnd, _, h .regionEndPrefix, rfl⟩

/-- **A whole style** is its layer over the standard style. -/
theorem ofTable?_eq_map_overlay (t : Table) :
    ofTable? t = (Layer.ofTable? t).map standard.overlay := by
  cases hl : Layer.ofTable? t with
  | none =>
      obtain ⟨f, v, hlookup, hv⟩ := Layer.ofTable?_eq_none_iff.1 hl
      rw [Option.map_none, Option.eq_none_iff_forall_ne_some]
      intro s hs
      rcases ofTable?_eq_some_iff.1 hs f with hf | ⟨hf, -⟩ <;> rw [hlookup] at hf
      · exact hv _ (Option.some.inj hf)
      · contradiction
  | some l =>
      rw [Option.map_some, ofTable?_eq_some_iff]
      intro f
      rw [get_overlay, Layer.ofTable?_eq_some_iff.1 hl f]
      cases l.get? f <;> simp

/-- The same for what a document is as a table, if it is one. -/
theorem bind_ofTable? (t? : Option Table) :
    t?.bind ofTable? = (t?.bind Layer.ofTable?).map standard.overlay := by
  rw [Option.map_bind]
  exact congrArg _ (funext ofTable?_eq_map_overlay)

/-! ## other keys -/

/-- What stands under a key that no field has is not looked at, be it a table. -/
theorem Layer.ofTable?_append_unknown {k : Toml.Key} (hk : ∀ f : Field, f.key ≠ k) (v : Toml.Value)
    (front back : Table) :
    Layer.ofTable? (front ++ (k, v) :: back) = Layer.ofTable? (front ++ back) := by
  have hlookup : ∀ f : Field,
      List.lookup f.key (front ++ (k, v) :: back) = List.lookup f.key (front ++ back) := by
    intro f
    rw [List.lookup_append, List.lookup_append, List.lookup_cons, beq_false_of_ne (hk f)]
  refine Option.ext fun l => ?_
  simp only [Layer.ofTable?_eq_some_iff, hlookup]

theorem ofTable?_append_unknown {k : Toml.Key} (hk : ∀ f : Field, f.key ≠ k) (v : Toml.Value)
    (front back : Table) : ofTable? (front ++ (k, v) :: back) = ofTable? (front ++ back) := by
  rw [ofTable?_eq_map_overlay, ofTable?_eq_map_overlay, Layer.ofTable?_append_unknown hk]

/-! ## one file -/

/-- One style file writes what its text writes as a whole style. -/
theorem value_loadFile {t : FileTree} {cwd : Place} {p : Path} :
    ((loadFile p).run cwd t).value =
      match t.text cwd p with
      | .error e => .error (.styleRead p e)
      | .ok text => (ofToml? text).elim (.error (.styleParse p)) .ok := by
  have hlayer : ((readLayer p).run cwd t).value = t.layerAt cwd p := rfl
  rw [loadFile, Action.value_run_bind (readOnly_readLayer p), hlayer, FileTree.layerAt, layerOf,
    ← FileTree.text]
  cases t.text cwd p with
  | error e => rfl
  | ok text =>
      have hstyle : ofToml? text = (Layer.ofToml? text).map standard.overlay :=
        bind_ofTable? (Toml.parse? text)
      simp only [hstyle]
      cases Layer.ofToml? text <;> rfl

/-! ## agreement -/

/-- **The two decoders agree.**

Whatever a document is as a table, reading it as a whole style and laying its
layer over the standard style both fail or make the same style.  They make the
style that has in each field the value written under its key, and the standard
value if there is none; they fail if some field has a misfit under its key.
Entries under other keys change nothing, whatever they hold.  So a style file
writes, in one step or in two, the style of its text. -/
theorem decoders_agree :
    (∀ (parse : List Char → Option Table) (text : List Char),
      (parse text).bind ofTable? =
        ((parse text).bind Layer.ofTable?).map standard.overlay) ∧
    (∀ (t : Table) (s : Style), ofTable? t = some s ↔ ∀ f : Field,
      t.lookup f.key = some (f.write (s.get f)) ∨
        t.lookup f.key = none ∧ s.get f = standard.get f) ∧
    (∀ t : Table, (ofTable? t = none ↔ ∃ f, Misfit t f) ∧
      (Layer.ofTable? t = none ↔ ∃ f, Misfit t f)) ∧
    (∀ (front back : Table) (k : Toml.Key) (v : Toml.Value), (∀ f : Field, f.key ≠ k) →
      ofTable? (front ++ (k, v) :: back) = ofTable? (front ++ back) ∧
        Layer.ofTable? (front ++ (k, v) :: back) = Layer.ofTable? (front ++ back)) ∧
    (∀ (t : FileTree) (cwd : Place) (p : Path), ((loadFile p).run cwd t).value =
      match t.text cwd p with
      | .error e => .error (.styleRead p e)
      | .ok text => (ofToml? text).elim (.error (.styleParse p)) .ok) := by
  refine ⟨fun parse text => bind_ofTable? (parse text), fun t s => ofTable?_eq_some_iff,
    fun t => ⟨?_, ?_⟩, fun front back k v hk => ⟨?_, ?_⟩, fun t cwd p => value_loadFile⟩
  · rw [ofTable?_eq_map_overlay, Option.map_eq_none_iff, Layer.ofTable?_eq_none_iff]
  · exact Layer.ofTable?_eq_none_iff
  · exact ofTable?_append_unknown hk v front back
  · exact Layer.ofTable?_append_unknown hk v front back

/-- A table of its own may hold what the document itself may not. -/
theorem decoders_agree_other_table :
    let other : Table := [("base_indent".toList, .integer (-1))]
    let p : Path := ⟨"/fluent-indent.toml".toList⟩
    let t : FileTree :=
      ⟨[([styleFileName],
        .file { content := encodeText "base_indent = 1\n[other]\nbase_indent = -1\n".toList })]⟩
    ofTable? other = none ∧
      ofTable? [("base_indent".toList, .integer 1), ("other".toList, .table .header other)] =
        some { standard with baseIndent := 1 } ∧
      ((loadFile p).run [] t).value = .ok { standard with baseIndent := 1 } := by
  intro other p t
  obtain ⟨-, -, hnone, hunknown, hfile⟩ := decoders_agree
  have hmisfit : Misfit other .baseIndent :=
    ⟨.integer (-1), rfl, fun n hn => by simp [Field.write] at hn⟩
  have hkey : ∀ f : Field, f.key ≠ "other".toList := Field.forall_iff.2 (by decide)
  have hone : ofTable? [("base_indent".toList, .integer 1)] =
      some { standard with baseIndent := 1 } := by decide +kernel
  refine ⟨(hnone other).1.2 ⟨_, hmisfit⟩, ?_, ?_⟩
  · exact ((hunknown [("base_indent".toList, .integer 1)] [] _ _ hkey).1).trans hone
  · have htext : t.text [] p = .ok "base_indent = 1\n[other]\nbase_indent = -1\n".toList :=
      FileTree.text_eq_ok_iff.2 ⟨_, _, rfl, rfl, decodeText?_encodeText _⟩
    have hstyle : ofToml? "base_indent = 1\n[other]\nbase_indent = -1\n".toList =
        some { standard with baseIndent := 1 } := by decide +kernel
    rw [hfile, htext]
    simp only [hstyle, Option.elim]

end Style

end ChainIndent

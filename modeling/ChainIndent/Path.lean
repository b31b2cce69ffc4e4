import ChainIndent.Text.Literal

/-!
# ChainIndent.Path

File paths as they are spelled, and the lexical questions asked of them.
Nothing here looks at a file system.

1. A path is cut at its slashes into *pieces*; one that begins with a slash
   is absolute.
2. The *components* of a path are the root of an absolute path and the
   pieces that name something: empty pieces and `.` do not, except a `.`
   that begins a relative path.  Two paths are the same place, lexically,
   when their components are.
3. The *parent* of a path is its spelling up to the end of the component
   before the last; a relative path of one component has the empty path as
   its parent, and the root and the empty path have none.
4. The *ancestors* of a path are the path itself, its parent, the parent of
   that and so on.
5. Joining a name to a path puts one slash between them, unless the path is
   empty or already ends in one.
-/

namespace ChainIndent

/-- A path, kept exactly as it is spelled. -/
structure Path where
  spelling : List Char
  deriving DecidableEq, Repr

/-- What a path is made of, lexically. -/
inductive Component where
  | root
  | here
  | up
  | name (n : List Char)
  deriving DecidableEq, Repr

namespace Path

instance : ToString Path := ⟨fun p => String.ofList p.spelling⟩

/-! ## Pieces -/

/-- Put a character in front of a spelling that is already cut. -/
def consCut (c : Char) : List (List Char) → List (List Char)
  | [] => if c = '/' then [[], []] else [[c]]
  | p :: ps => if c = '/' then [] :: p :: ps else (c :: p) :: ps

/-- A spelling cut at its slashes: one piece more than there are slashes. -/
def cut (t : List Char) : List (List Char) := t.foldr consCut [[]]

/-- The spelling of some pieces. -/
def glue : List (List Char) → List Char
  | [] => []
  | [p] => p
  | p :: ps => p ++ '/' :: glue ps

@[simp] theorem cut_nil : cut [] = [[]] := rfl

theorem cut_cons (c : Char) (t : List Char) : cut (c :: t) = consCut c (cut t) := rfl

theorem cut_ne_nil (t : List Char) : cut t ≠ [] := by
  cases t with
  | nil => simp
  | cons c t =>
    rw [cut_cons]
    unfold consCut
    split <;> split <;> simp

/-- No piece is lost by cutting. -/
@[simp] theorem glue_cut (t : List Char) : glue (cut t) = t := by
  induction t with
  | nil => rfl
  | cons c t ih =>
    rw [cut_cons]
    match h : cut t with
    | [] => exact absurd h (cut_ne_nil t)
    | [p] =>
      rw [h] at ih
      simp only [glue] at ih
      by_cases hc : c = '/' <;> simp [consCut, hc, glue, ih]
    | p :: q :: ps =>
      rw [h] at ih
      simp only [glue] at ih
      by_cases hc : c = '/' <;> simp [consCut, hc, glue, ih]

/-- A path that begins with a slash starts at the root. -/
def isAbsolute (p : Path) : Bool := p.spelling.head? = some '/'

/-- The pieces of a path, behind the root if it is absolute. -/
def body (p : Path) : List (List Char) :=
  cut (if p.isAbsolute then p.spelling.drop 1 else p.spelling)

/-! ## Components -/

/-- The component that one piece is, if any.  `leading` tells that the
piece begins a relative path. -/
def component? (leading : Bool) (piece : List Char) : Option Component :=
  if piece = [] then none
  else if piece = ['.'] then if leading then some .here else none
  else if piece = ['.', '.'] then some .up
  else some (.name piece)

/-- The components of a list of pieces. -/
def componentsOf (leading : Bool) : List (List Char) → List Component
  | [] => []
  | p :: ps => (component? leading p).toList ++ componentsOf false ps

/-- The components of a path, the root first. -/
def components (p : Path) : List Component :=
  if p.isAbsolute then .root :: componentsOf false p.body else componentsOf true p.body

/-- Paths with the same components. -/
def sameAs (p q : Path) : Bool := p.components = q.components

/-! ## Parent and ancestors -/

/-- The pieces up to the end of the component before the last one; none if
there is no component to take away. -/
def dropLastComponent (leading : Bool) : List (List Char) → Option (List (List Char))
  | [] => none
  | p :: ps =>
    match dropLastComponent false ps with
    | some [] => some (if (component? leading p).isSome then [p] else [])
    | some (q :: qs) => some (p :: q :: qs)
    | none => if (component? leading p).isSome then some [] else none

/-- The path without its last component. -/
def parent? (p : Path) : Option Path :=
  if p.isAbsolute then (dropLastComponent false p.body).map fun ps => ⟨'/' :: glue ps⟩
  else (dropLastComponent true p.body).map fun ps => ⟨glue ps⟩

/-- Some pieces glued together are no longer than with others behind them. -/
theorem length_glue_cons_le (p : List Char) (ps : List (List Char)) :
    p.length ≤ (glue (p :: ps)).length := by
  cases ps <;> simp [glue]

/-- What is left after a component is taken away is shorter. -/
theorem length_glue_dropLastComponent {leading : Bool} {ps qs : List (List Char)}
    (h : dropLastComponent leading ps = some qs) : (glue qs).length < (glue ps).length := by
  have hpos : ∀ {b : Bool} {p : List Char}, (component? b p).isSome = true → 0 < p.length := by
    intro b p hp
    cases p with
    | nil => simp [component?] at hp
    | cons c p => simp
  have hlt : ∀ {p : List Char} {r : List (List Char)} {k : Nat},
      k < (glue r).length → p.length + k < (glue (p :: r)).length ∧
        p.length + 1 + k < (glue (p :: r)).length + 1 := by
    intro p r k hk
    cases r with
    | nil => simp [glue] at hk
    | cons q r => simp only [glue, List.length_append, List.length_cons]; omega
  induction ps generalizing leading qs with
  | nil => simp [dropLastComponent] at h
  | cons p ps ih =>
    rw [dropLastComponent] at h
    split at h
    · next heq =>
      have := hlt (p := p) (ih heq)
      simp only [glue, List.length_nil, Nat.add_zero] at this
      cases h
      split
      · exact this.1
      · have h0 : 0 < (glue (p :: ps)).length := by omega
        simpa [glue] using h0
    · next q qs' heq =>
      cases h
      have := ih heq
      cases ps with
      | nil => simp [dropLastComponent] at heq
      | cons r ps => simp only [glue, List.length_append, List.length_cons] at this ⊢; omega
    · split at h
      · next hp =>
        cases h
        have := length_glue_cons_le p ps
        have := hpos hp
        simp only [glue, List.length_nil]
        omega
      · cases h

/-- The parent of a path is spelled shorter. -/
theorem length_parent? {p q : Path} (h : p.parent? = some q) :
    q.spelling.length < p.spelling.length := by
  unfold parent? body at h
  split at h
  · next =>
    obtain ⟨ps, hps, rfl⟩ := Option.map_eq_some_iff.1 h
    have := length_glue_dropLastComponent hps
    rw [glue_cut] at this
    simp only [List.length_drop, List.length_cons] at this ⊢
    omega
  · next =>
    obtain ⟨ps, hps, rfl⟩ := Option.map_eq_some_iff.1 h
    have := length_glue_dropLastComponent hps
    rwa [glue_cut] at this

/-- A path, its parent and so on, the nearest first. -/
def ancestors (p : Path) : List Path :=
  match _h : p.parent? with
  | none => [p]
  | some q => p :: ancestors q
termination_by p.spelling.length
decreasing_by exact length_parent? _h

theorem ancestors_of_parent?_eq_none {p : Path} (h : p.parent? = none) : p.ancestors = [p] := by
  rw [ancestors]
  split
  · rfl
  · next q hq => rw [h] at hq; cases hq

theorem ancestors_of_parent?_eq_some {p q : Path} (h : p.parent? = some q) :
    p.ancestors = p :: q.ancestors := by
  rw [ancestors]
  split
  · next hn => rw [h] at hn; cases hn
  · next r hr => rw [h] at hr; cases hr; rfl

/-! ## Joining -/

/-- A name inside the directory that the path leads to. -/
def join (p : Path) (name : List Char) : Path :=
  if p.spelling = [] ∨ p.spelling.getLast? = some '/' then ⟨p.spelling ++ name⟩
  else ⟨p.spelling ++ '/' :: name⟩

end Path

end ChainIndent

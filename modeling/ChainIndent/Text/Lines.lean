import ChainIndent.Text.Blank

/-!
# ChainIndent.Text.Lines

Cutting a text into lines and putting lines together again:

1. a newline ends a line, so a text that ends in one has no empty line
   after it, and the empty text has no line at all;
2. one carriage return at the end of a line belongs to the line ending;
   further ones, and any elsewhere, belong to the line;
3. every line written is ended by a newline, the last one too.

`splitLines` reads with 1 and 2, `joinLines` writes with 3: CR LF becomes LF
and a missing final newline is added.
-/

namespace ChainIndent

/-! ## Reading -/

/-- Put a character in front of a text that is already cut at its newlines. -/
def consPiece (c : Char) (ps : List Line) : List Line :=
  if c = '\n' then [] :: ps
  else match ps with
    | [] => [[c]]
    | p :: ps => (c :: p) :: ps

/-- The pieces of a text that its newlines end, and what follows the last
newline if that is not empty. -/
def pieces (t : List Char) : List Line := t.foldr consPiece []

/-- A piece without the one carriage return that belongs to its line ending. -/
def chomp (p : Line) : Line := if p.getLast? = some '\r' then p.dropLast else p

/-- The lines of a text. -/
def splitLines (t : List Char) : List Line := (pieces t).map chomp

@[simp] theorem pieces_nil : pieces [] = [] := rfl

theorem pieces_cons (c : Char) (t : List Char) : pieces (c :: t) = consPiece c (pieces t) := rfl

@[simp] theorem pieces_newline_cons (t : List Char) : pieces ('\n' :: t) = [] :: pieces t := rfl

/-- Only the empty text has no piece. -/
theorem pieces_eq_nil_iff {t : List Char} : pieces t = [] ↔ t = [] := by
  cases t with
  | nil => simp
  | cons c t =>
    rw [pieces_cons]
    unfold consPiece
    split
    · simp
    · split <;> simp

/-- A text that begins with a whole line is cut behind it. -/
theorem pieces_append_newline {l : Line} (h : '\n' ∉ l) (t : List Char) :
    pieces (l ++ '\n' :: t) = l :: pieces t := by
  induction l with
  | nil => rfl
  | cons c l ih =>
    simp only [List.mem_cons, not_or] at h
    rw [List.cons_append, pieces_cons, ih h.2]
    simp [consPiece, Ne.symm h.1]

/-- A last line without a newline is one piece, if it is not empty. -/
theorem pieces_of_not_mem {l : Line} (h : '\n' ∉ l) (hne : l ≠ []) : pieces l = [l] := by
  induction l with
  | nil => exact absurd rfl hne
  | cons c l ih =>
    simp only [List.mem_cons, not_or] at h
    rw [pieces_cons]
    cases l with
    | nil => simp [consPiece, Ne.symm h.1]
    | cons d l => rw [ih h.2 (by simp)]; simp [consPiece, Ne.symm h.1]

/-- No piece holds a newline. -/
theorem not_mem_of_mem_pieces {t : List Char} {p : Line} (h : p ∈ pieces t) : '\n' ∉ p := by
  induction t generalizing p with
  | nil => simp at h
  | cons c t ih =>
    rw [pieces_cons] at h
    unfold consPiece at h
    split at h
    · rcases List.mem_cons.1 h with rfl | h
      · simp
      · exact ih h
    · next hc =>
      split at h
      · next => simp only [List.mem_singleton] at h; subst h; simpa using Ne.symm hc
      · next q qs hq =>
        rcases List.mem_cons.1 h with rfl | h
        · have := ih (p := q) (by simp [hq])
          simp [this, Ne.symm hc]
        · exact ih (by simp [hq, h])

theorem chomp_of_getLast?_ne {l : Line} (h : l.getLast? ≠ some '\r') : chomp l = l := by
  simp [chomp, h]

@[simp] theorem chomp_append_cr (l : Line) : chomp (l ++ ['\r']) = l := by simp [chomp]

/-- Nothing but the end of a piece is dropped. -/
theorem chomp_prefix (l : Line) : chomp l <+: l := by
  unfold chomp
  split
  · exact List.dropLast_prefix l
  · exact List.prefix_refl l

/-! ## Writing -/

/-- The text of some lines, each ended by a newline. -/
def joinLines (ls : List Line) : List Char := ls.flatMap fun l => l ++ ['\n']

@[simp] theorem joinLines_nil : joinLines [] = [] := rfl

theorem joinLines_cons (l : Line) (ls : List Line) :
    joinLines (l :: ls) = l ++ '\n' :: joinLines ls := by simp [joinLines]

@[simp] theorem joinLines_append (ls ms : List Line) :
    joinLines (ls ++ ms) = joinLines ls ++ joinLines ms := by simp [joinLines]

/-- Lines without a newline inside are read back as the pieces of their text. -/
theorem pieces_joinLines {ls : List Line} (h : ∀ l ∈ ls, '\n' ∉ l) : pieces (joinLines ls) = ls := by
  induction ls with
  | nil => rfl
  | cons l ls ih =>
    rw [joinLines_cons, pieces_append_newline (h l (by simp)), ih fun m hm => h m (by simp [hm])]

end ChainIndent

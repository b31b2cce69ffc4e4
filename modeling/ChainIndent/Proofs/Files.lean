import ChainIndent.InPlace

/-!
# ChainIndent.Proofs.Files

What reading and writing a file depends on, and what it changes.  Both go
through the file that a path leads to, `target`; so all that there is to know
about them is:

* `read_eq_ok_iff`, `write_eq_ok_iff` — what succeeds: reading a readable file
  and writing a writable one, nothing else;
* `target_replaceContent` — the frame: another content at a place is seen by
  the paths that name the file there, and by no other;
* `replaceContent_comm`, `replaceContent_replaceContent` — contents replaced
  at different places commute, and at the same place the last one counts;
* `text_eq_ok_iff`, `text_replaceContent` — the same for the text of a file.

Places and directories never change, so that a path names the same file in
every tree that writing leads to (`names_replaceContent_iff`).
-/

namespace ChainIndent

/-- A guarded answer is given if there is a value and it passes the guard. -/
theorem bind_guard_eq_ok_iff {ε α β : Type} {x : Except ε α} {guard : α → Bool} {g : α → β}
    {e : ε} {y : β} :
    (x.bind fun a => if guard a then .ok (g a) else .error e) = .ok y ↔
      ∃ a, x = .ok a ∧ guard a = true ∧ g a = y := by
  cases x with
  | error e' => simp [Except.bind]
  | ok a =>
      constructor
      · intro h
        cases ha : guard a with
        | false => simp [Except.bind, ha] at h
        | true => exact ⟨a, rfl, ha, by simpa [Except.bind, ha] using h⟩
      · intro ⟨a', heq, ha, hy⟩
        cases heq
        simp [Except.bind, ha, hy]

theorem readText_eq_ok_iff {r : Except IoError ByteArray} {text : List Char} :
    readText r = .ok text ↔ ∃ b, r = .ok b ∧ decodeText? b = some text := by
  cases r with
  | error e => simp [readText]
  | ok b =>
      simp only [readText, Except.ok.injEq, exists_eq_left']
      cases decodeText? b with
      | none => simp
      | some text' => simp

/-- Another text is another content. -/
theorem encodeText_ne_of_decodeText? {b : ByteArray} {text out : List Char}
    (h : decodeText? b = some text) (hne : out ≠ text) : encodeText out ≠ b := by
  intro heq
  rw [← heq, decodeText?_encodeText] at h
  exact hne (Option.some.inj h)

namespace FileTree

/-- The file that a path leads to, and where it stands. -/
def target (t : FileTree) (cwd : Place) (p : Path) : Except IoError (Place × File) :=
  match t.resolve cwd p with
  | .error e => .error e
  | .ok q =>
    match t.node? q with
    | some (.file f) => .ok (q, f)
    | some .directory => .error .isADirectory
    | none => .error .notFound

/-- The path leads to the file at `q`. -/
def Names (t : FileTree) (cwd : Place) (p : Path) (q : Place) : Prop :=
  ∃ f, t.target cwd p = .ok (q, f)

variable {t t' : FileTree} {cwd : Place} {p : Path} {q q' : Place} {b b' : ByteArray} {f : File}

theorem Names.unique (h : t.Names cwd p q) (h' : t.Names cwd p q') : q = q' := by
  obtain ⟨f, hf⟩ := h
  obtain ⟨f', hf'⟩ := h'
  rw [hf] at hf'
  exact congrArg Prod.fst (Except.ok.inj hf')

theorem target_eq_ok_iff :
    t.target cwd p = .ok (q, f) ↔ t.resolve cwd p = .ok q ∧ t.node? q = some (.file f) := by
  rw [target]
  cases t.resolve cwd p with
  | error e => simp
  | ok r =>
      constructor
      · intro h
        dsimp only at h
        split at h
        · next g hg =>
            obtain ⟨rfl, rfl⟩ := Prod.mk.inj (Except.ok.inj h)
            exact ⟨rfl, hg⟩
        · contradiction
        · contradiction
      · intro ⟨hq, hf⟩
        cases hq
        simp only [hf]

/-- Two paths to one place lead to the same file. -/
theorem file_eq_of_target {p' : Path} {f' : File} (h : t.target cwd p = .ok (q, f))
    (h' : t.target cwd p' = .ok (q, f')) : f = f' := by
  have hnode := (target_eq_ok_iff.1 h).2
  rw [(target_eq_ok_iff.1 h').2] at hnode
  exact (Node.file.inj (Option.some.inj hnode)).symm

/-! ## reading and writing -/

theorem read_eq (t : FileTree) (cwd : Place) (p : Path) :
    t.read cwd p = (t.target cwd p).bind fun x =>
      if x.2.readable then .ok x.2.content else .error .permissionDenied := by
  rw [read, target]
  cases t.resolve cwd p with
  | error e => rfl
  | ok q =>
      simp only [bind, Except.bind]
      cases t.node? q with
      | none => rfl
      | some n => cases n <;> rfl

theorem write_eq (t : FileTree) (cwd : Place) (p : Path) (b : ByteArray) :
    t.write cwd p b = (t.target cwd p).bind fun x =>
      if x.2.writable then .ok (t.replaceContent x.1 b) else .error .permissionDenied := by
  rw [write, target]
  cases t.resolve cwd p with
  | error e => rfl
  | ok q =>
      simp only [bind, Except.bind]
      cases t.node? q with
      | none => rfl
      | some n => cases n <;> rfl

/-- Only a readable file can be read. -/
theorem read_eq_ok_iff :
    t.read cwd p = .ok b ↔
      ∃ q f, t.target cwd p = .ok (q, f) ∧ f.readable = true ∧ f.content = b := by
  rw [read_eq, bind_guard_eq_ok_iff, Prod.exists]

/-- Only a writable file can be written, and then only its content changes. -/
theorem write_eq_ok_iff :
    t.write cwd p b = .ok t' ↔
      ∃ q f, t.target cwd p = .ok (q, f) ∧ f.writable = true ∧ t.replaceContent q b = t' := by
  rw [write_eq, bind_guard_eq_ok_iff, Prod.exists]

/-! ## what changes -/

theorem Node.setContent_setContent (b b' : ByteArray) (n : Node) :
    (n.setContent b).setContent b' = n.setContent b' := by
  cases n <;> rfl

/-- At the same place the last content counts. -/
theorem replaceContent_replaceContent (t : FileTree) (q : Place) (b b' : ByteArray) :
    (t.replaceContent q b).replaceContent q b' = t.replaceContent q b' := by
  simp only [replaceContent, List.map_map, mk.injEq]
  refine List.map_congr_left fun e _ => ?_
  by_cases h : e.1 = q <;> simp [h, Node.setContent_setContent]

/-- At different places the order does not matter. -/
theorem replaceContent_comm (t : FileTree) (h : q ≠ q') (b b' : ByteArray) :
    (t.replaceContent q b).replaceContent q' b' = (t.replaceContent q' b').replaceContent q b := by
  simp only [replaceContent, List.map_map, mk.injEq]
  refine List.map_congr_left fun e _ => ?_
  by_cases h₁ : e.1 = q
  · simp [h₁, h]
  · by_cases h₂ : e.1 = q' <;> simp [h₁, h₂, Ne.symm h]

theorem node?_replaceContent_of_ne (t : FileTree) (h : q' ≠ q) (b : ByteArray) :
    (t.replaceContent q b).node? q' = t.node? q' := by
  simp [node?_replaceContent, h]

/-- What is seen of another content at `q`. -/
theorem target_replaceContent (t : FileTree) (cwd : Place) (p : Path) (q : Place) (b : ByteArray) :
    (t.replaceContent q b).target cwd p = (t.target cwd p).map fun x =>
      (x.1, if x.1 = q then { x.2 with content := b } else x.2) := by
  have hresolve : (t.replaceContent q b).resolve cwd p = t.resolve cwd p := by
    simp only [resolve, walk_replaceContent]
  rw [target, target, hresolve]
  cases t.resolve cwd p with
  | error e => rfl
  | ok r =>
      simp only [node?_replaceContent]
      cases t.node? r with
      | none => rfl
      | some n => cases n <;> by_cases h : r = q <;> simp [h, Node.setContent, Except.map]

/-- Writing does not move a file. -/
@[simp] theorem names_replaceContent_iff :
    (t.replaceContent q' b).Names cwd p q ↔ t.Names cwd p q := by
  rw [Names, Names, target_replaceContent]
  cases t.target cwd p with
  | error e => simp [Except.map]
  | ok x => simp [Except.map, Prod.ext_iff]

/-- A path sees nothing of what is done to a file that it does not name. -/
theorem target_replaceContent_of_not_names (h : ¬ t.Names cwd p q) (b : ByteArray) :
    (t.replaceContent q b).target cwd p = t.target cwd p := by
  rw [target_replaceContent]
  cases ht : t.target cwd p with
  | error e => rfl
  | ok x =>
      have hne : x.1 ≠ q := fun heq => h ⟨x.2, by rw [ht, ← heq]⟩
      simp [Except.map, hne]

theorem read_replaceContent (h : ¬ t.Names cwd p q) (b : ByteArray) :
    (t.replaceContent q b).read cwd p = t.read cwd p := by
  rw [read_eq, read_eq, target_replaceContent_of_not_names h]

/-- What was done to another file is still there after writing. -/
theorem write_replaceContent (h : ¬ t.Names cwd p q) (b b' : ByteArray) :
    (t.replaceContent q b).write cwd p b' =
      (t.write cwd p b').map fun t' => t'.replaceContent q b := by
  rw [write_eq, write_eq, target_replaceContent_of_not_names h]
  cases ht : t.target cwd p with
  | error e => rfl
  | ok x =>
      have hne : q ≠ x.1 := fun heq => h ⟨x.2, by rw [ht, heq]⟩
      simp only [Except.bind]
      cases x.2.writable with
      | false => rfl
      | true => exact congrArg Except.ok (replaceContent_comm t hne b b')

/-! ## texts -/

/-- The text of the file that a path leads to. -/
def text (t : FileTree) (cwd : Place) (p : Path) : Except IoError (List Char) :=
  readText (t.read cwd p)

/-- A readable file in UTF-8 has a text, nothing else has. -/
theorem text_eq_ok_iff {text : List Char} :
    t.text cwd p = .ok text ↔
      ∃ q f, t.target cwd p = .ok (q, f) ∧ f.readable = true ∧
        decodeText? f.content = some text := by
  rw [FileTree.text, readText_eq_ok_iff]
  constructor
  · intro ⟨b, hb, htext⟩
    obtain ⟨q, f, htarget, hr, rfl⟩ := read_eq_ok_iff.1 hb
    exact ⟨q, f, htarget, hr, htext⟩
  · intro ⟨q, f, htarget, hr, htext⟩
    exact ⟨f.content, read_eq_ok_iff.2 ⟨q, f, htarget, hr, rfl⟩, htext⟩

/-- A file that was read and then written could be both. -/
theorem exists_target_of_text_of_write {text : List Char} (hread : t.text cwd p = .ok text)
    (hwrite : t.write cwd p b = .ok t') :
    ∃ q f, t.target cwd p = .ok (q, f) ∧ f.readable = true ∧ f.writable = true ∧
      decodeText? f.content = some text ∧ t' = t.replaceContent q b := by
  obtain ⟨q, f, htarget, hr, htext⟩ := text_eq_ok_iff.1 hread
  obtain ⟨q', f', htarget', hw, rfl⟩ := write_eq_ok_iff.1 hwrite
  cases htarget.symm.trans htarget'
  exact ⟨q, f, htarget, hr, hw, htext, rfl⟩

/-- The text that was written is read back. -/
theorem text_replaceContent {text : List Char} (htarget : t.target cwd p = .ok (q, f))
    (hr : f.readable = true) : (t.replaceContent q (encodeText text)).text cwd p = .ok text := by
  refine text_eq_ok_iff.2
    ⟨q, { f with content := encodeText text }, ?_, hr, decodeText?_encodeText text⟩
  rw [target_replaceContent, htarget]
  simp [Except.map]

end FileTree

end ChainIndent

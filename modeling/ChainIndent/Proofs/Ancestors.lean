import ChainIndent.Path
import Mathlib.Data.List.Infix

/-!
# ChainIndent.Proofs.Ancestors

What taking parents and joining names do to the components of a path, whatever
way it is spelled.

A path is its root, if it has one, and its `trail`: the components behind the
root.  Repeated slashes, inner dots and a slash at the end are pieces of the
spelling without a component, and each of the following looks through them:

* `parent?_cases` — the parent lacks the last component of the trail, and is
  spelled as a beginning of the path; only an empty trail has no parent;
* `map_trail_ancestors` — so the trails of the ancestors are all beginnings of
  the trail of the path, each once;
* `trail_join_name` — a joined name is one more component.
-/

namespace ChainIndent

namespace Path

/-! ## cutting and gluing -/

/-- A name that a directory may hold. -/
structure IsName (n : List Char) : Prop where
  ne_nil : n ≠ []
  ne_here : n ≠ ['.']
  ne_up : n ≠ ['.', '.']
  slash_not_mem : '/' ∉ n

instance (n : List Char) : Decidable (IsName n) :=
  decidable_of_iff (n ≠ [] ∧ n ≠ ['.'] ∧ n ≠ ['.', '.'] ∧ '/' ∉ n)
    ⟨fun ⟨h₁, h₂, h₃, h₄⟩ => ⟨h₁, h₂, h₃, h₄⟩, fun ⟨h₁, h₂, h₃, h₄⟩ => ⟨h₁, h₂, h₃, h₄⟩⟩

@[simp] theorem cut_slash_cons (t : List Char) : cut ('/' :: t) = [] :: cut t := by
  rw [cut_cons]
  cases h : cut t with
  | nil => exact absurd h (cut_ne_nil t)
  | cons p ps => simp [consCut]

theorem cut_cons_of_ne {c : Char} (hc : c ≠ '/') {t p : List Char} {ps : List (List Char)}
    (h : cut t = p :: ps) : cut (c :: t) = (c :: p) :: ps := by
  rw [cut_cons, h]
  simp [consCut, hc]

theorem cut_of_slash_not_mem {n : List Char} (h : '/' ∉ n) : cut n = [n] := by
  induction n with
  | nil => rfl
  | cons c n ih =>
      rw [List.mem_cons, not_or] at h
      exact cut_cons_of_ne (Ne.symm h.1) (ih h.2)

theorem cut_append_slash (t u : List Char) : cut (t ++ '/' :: u) = cut t ++ cut u := by
  induction t with
  | nil => rw [List.nil_append, cut_slash_cons]; rfl
  | cons c t ih =>
      by_cases hc : c = '/'
      · subst hc
        rw [List.cons_append, cut_slash_cons, cut_slash_cons, ih, List.cons_append]
      · obtain ⟨p, ps, hcut⟩ := List.exists_cons_of_ne_nil (cut_ne_nil t)
        rw [hcut, List.cons_append] at ih
        rw [List.cons_append, cut_cons_of_ne hc ih, cut_cons_of_ne hc hcut, List.cons_append]

theorem slash_not_mem_of_mem_cut {t p : List Char} (h : p ∈ cut t) : '/' ∉ p := by
  induction t generalizing p with
  | nil => simp_all
  | cons c t ih =>
      obtain ⟨q, qs, hcut⟩ := List.exists_cons_of_ne_nil (cut_ne_nil t)
      by_cases hc : c = '/'
      · subst hc
        rw [cut_slash_cons, List.mem_cons] at h
        cases h with
        | inl hp => simp [hp]
        | inr hp => exact ih hp
      · rw [cut_cons_of_ne hc hcut, List.mem_cons] at h
        cases h with
        | inl hp =>
            have hq : '/' ∉ q := ih (by simp [hcut])
            simp [hp, hq, Ne.symm hc]
        | inr hp => exact ih (by simp [hcut, hp])

theorem cut_glue {ps : List (List Char)} (hne : ps ≠ []) (h : ∀ p ∈ ps, '/' ∉ p) :
    cut (glue ps) = ps := by
  induction ps with
  | nil => contradiction
  | cons p ps ih =>
      rw [List.forall_mem_cons] at h
      cases ps with
      | nil => exact cut_of_slash_not_mem h.1
      | cons q qs =>
          rw [glue, cut_append_slash, cut_of_slash_not_mem h.1, ih (by simp) h.2]
          · rfl
          · simp

theorem glue_prefix {ps qs : List (List Char)} (h : qs <+: ps) : glue qs <+: glue ps := by
  induction qs generalizing ps with
  | nil => exact List.nil_prefix
  | cons q qs ih =>
      obtain ⟨rest, rfl⟩ := h
      cases qs with
      | nil =>
          cases rest with
          | nil => exact List.prefix_refl _
          | cons r rest => exact List.prefix_append q _
      | cons r qs =>
          have hrest : glue (r :: qs) <+: glue (r :: qs ++ rest) := ih (List.prefix_append _ _)
          exact (List.prefix_append_right_inj _).2 (List.cons_prefix_cons.2 ⟨rfl, hrest⟩)

/-! ## the trail -/

/-- The components of a path behind its root. -/
def trail (p : Path) : List Component := componentsOf true (cut p.spelling)

theorem componentsOf_append (leading : Bool) (ps qs : List (List Char)) :
    componentsOf leading (ps ++ qs) =
      componentsOf leading ps ++ componentsOf (leading && ps.isEmpty) qs := by
  induction ps generalizing leading with
  | nil => simp [componentsOf]
  | cons p ps ih => simp [componentsOf, ih]

@[simp] theorem componentsOf_nil_cons (leading : Bool) (ps : List (List Char)) :
    componentsOf leading ([] :: ps) = componentsOf false ps := by
  simp [componentsOf, component?]

theorem component?_of_isName {n : List Char} (hn : IsName n) (leading : Bool) :
    component? leading n = some (.name n) := by
  simp [component?, hn.ne_nil, hn.ne_here, hn.ne_up]

theorem componentsOf_of_isName {ns : List (List Char)} (hns : ∀ n ∈ ns, IsName n)
    (leading : Bool) : componentsOf leading ns = ns.map .name := by
  induction ns generalizing leading with
  | nil => rfl
  | cons n ns ih =>
      rw [List.forall_mem_cons] at hns
      rw [componentsOf, component?_of_isName hns.1, ih hns.2]
      rfl

/-- The slash in front of an absolute path only makes the piece in front of
it, which is no component. -/
theorem trail_of_isAbsolute {p : Path} (h : p.isAbsolute = true) :
    p.trail = componentsOf false p.body := by
  obtain ⟨spelling⟩ := p
  cases spelling with
  | nil => contradiction
  | cons c u =>
      have hc : c = '/' := by simpa [isAbsolute] using h
      subst hc
      rw [trail, cut_slash_cons, componentsOf_nil_cons, body, if_pos h]
      rfl

theorem trail_of_not_isAbsolute {p : Path} (h : p.isAbsolute = false) :
    p.trail = componentsOf true p.body := by
  rw [trail, body, h]
  rfl

theorem components_eq (p : Path) :
    p.components = (if p.isAbsolute then [.root] else []) ++ p.trail := by
  cases h : p.isAbsolute with
  | true => rw [components, if_pos h, trail_of_isAbsolute h]; rfl
  | false => rw [components, h, trail_of_not_isAbsolute h]; rfl

/-! ## trails of names -/

/-- The first piece of a path of names is a name or no component at all. -/
theorem componentsOf_cons_eq_names {leading : Bool} {p : List Char} {ps ns : List (List Char)}
    (h : componentsOf leading (p :: ps) = ns.map .name) :
    ((p = [] ∨ p = ['.']) ∧ componentsOf false ps = ns.map .name) ∨
      (p ≠ [] ∧ p ≠ ['.'] ∧ p ≠ ['.', '.']) ∧
        ∃ ns', ns = p :: ns' ∧ componentsOf false ps = ns'.map .name := by
  by_cases hnil : p = []
  · exact .inl ⟨.inl hnil, by simpa [componentsOf, component?, hnil] using h⟩
  by_cases hhere : p = ['.']
  · refine .inl ⟨.inr hhere, ?_⟩
    cases leading with
    | true => cases ns <;> simp [componentsOf, component?, hhere] at h
    | false => simpa [componentsOf, component?, hhere] using h
  by_cases hup : p = ['.', '.']
  · cases ns <;> simp [componentsOf, component?, hup] at h
  · refine .inr ⟨⟨hnil, hhere, hup⟩, ?_⟩
    cases ns with
    | nil => simp [componentsOf, component?, hnil, hhere, hup] at h
    | cons n ns =>
        simp only [componentsOf, component?, hnil, hhere, hup, if_false, Option.toList_some,
          List.singleton_append, List.map_cons, List.cons.injEq, Component.name.injEq] at h
        exact ⟨ns, by rw [h.1], h.2⟩

/-- Names are components wherever they stand. -/
theorem componentsOf_false_eq_names {leading : Bool} {ps ns : List (List Char)}
    (h : componentsOf leading ps = ns.map .name) : componentsOf false ps = ns.map .name := by
  cases ps with
  | nil => exact h
  | cons p ps =>
      obtain ⟨hp, hrest⟩ | ⟨⟨hnil, hhere, hup⟩, ns', rfl, hrest⟩ := componentsOf_cons_eq_names h
      · cases hp with
        | inl hnil => simp [componentsOf, component?, hnil, hrest]
        | inr hhere => simp [componentsOf, component?, hhere, hrest]
      · simp [componentsOf, component?, hnil, hhere, hup, hrest]

/-- Its other pieces are those that stay where they are. -/
theorem filter_of_componentsOf_eq_names {leading : Bool} {ps ns : List (List Char)}
    (h : componentsOf leading ps = ns.map .name) :
    ps.filter (fun p => p ≠ [] ∧ p ≠ ['.']) = ns := by
  induction ps generalizing leading ns with
  | nil => simpa [componentsOf] using h
  | cons p ps ih =>
      obtain ⟨hp, hrest⟩ | ⟨⟨hnil, hhere, _⟩, ns', rfl, hrest⟩ := componentsOf_cons_eq_names h
      · rw [List.filter_cons_of_neg (by simpa using fun hne => hp.resolve_left hne), ih hrest]
      · rw [List.filter_cons_of_pos (by simp [hnil, hhere]), ih hrest]

theorem isName_of_componentsOf_eq_names {leading : Bool} {ps ns : List (List Char)}
    (hps : ∀ p ∈ ps, '/' ∉ p) (h : componentsOf leading ps = ns.map .name) :
    ∀ n ∈ ns, IsName n := by
  induction ps generalizing leading ns with
  | nil => simp_all [componentsOf]
  | cons p ps ih =>
      rw [List.forall_mem_cons] at hps
      obtain ⟨_, hrest⟩ | ⟨⟨hnil, hhere, hup⟩, ns', rfl, hrest⟩ := componentsOf_cons_eq_names h
      · exact ih hps.2 hrest
      · exact List.forall_mem_cons.2 ⟨⟨hnil, hhere, hup, hps.1⟩, ih hps.2 hrest⟩

theorem isName_of_trail {p : Path} {ns : List (List Char)} (h : p.trail = ns.map .name) :
    ∀ n ∈ ns, IsName n :=
  isName_of_componentsOf_eq_names (fun _ hp => slash_not_mem_of_mem_cut hp) h

/-- A path that consists of names is relative. -/
theorem of_components_eq_names {p : Path} {ns : List (List Char)}
    (h : p.components = ns.map .name) : p.isAbsolute = false ∧ p.trail = ns.map .name := by
  rw [components_eq] at h
  cases habs : p.isAbsolute with
  | true => cases ns <;> simp [habs] at h
  | false => exact ⟨rfl, by simpa [habs] using h⟩

/-- The empty path is the only relative path without components. -/
theorem trail_eq_nil_iff {p : Path} (h : p.isAbsolute = false) :
    p.trail = [] ↔ p.spelling = [] := by
  obtain ⟨spelling⟩ := p
  cases spelling with
  | nil => exact iff_of_true rfl rfl
  | cons c u =>
      have hc : c ≠ '/' := by simpa [isAbsolute] using h
      obtain ⟨q, qs, hcut⟩ := List.exists_cons_of_ne_nil (cut_ne_nil u)
      refine iff_of_false ?_ (List.cons_ne_nil c u)
      rw [trail, cut_cons_of_ne hc hcut, componentsOf, component?, if_neg (List.cons_ne_nil c q),
        if_pos rfl]
      split
      · exact List.cons_ne_nil _ _
      · split
        · exact List.cons_ne_nil _ _
        · exact List.cons_ne_nil _ _

/-! ## parents -/

/-- Without its last component a path is spelled up to the component before
that. -/
theorem dropLastComponent_cases (leading : Bool) (ps : List (List Char)) :
    (dropLastComponent leading ps = none ∧ componentsOf leading ps = []) ∨
      ∃ qs c, dropLastComponent leading ps = some qs ∧ qs <+: ps ∧
        componentsOf leading ps = componentsOf leading qs ++ [c] := by
  induction ps generalizing leading with
  | nil => exact .inl ⟨rfl, rfl⟩
  | cons p ps ih =>
      obtain ⟨hnone, hcomps⟩ | ⟨qs, c, hsome, hprefix, hcomps⟩ := ih false
      · cases hp : component? leading p with
        | none => exact .inl (by simp [dropLastComponent, componentsOf, hnone, hcomps, hp])
        | some d =>
            exact .inr ⟨[], d, by simp [dropLastComponent, hnone, hp], List.nil_prefix,
              by simp [componentsOf, hcomps, hp]⟩
      · cases qs with
        | nil =>
            cases hp : component? leading p with
            | none =>
                exact .inr ⟨[], c, by simp [dropLastComponent, hsome, hp], List.nil_prefix,
                  by simp [componentsOf, hcomps, hp]⟩
            | some d =>
                exact .inr ⟨[p], c, by simp [dropLastComponent, hsome, hp],
                  List.cons_prefix_cons.2 ⟨rfl, List.nil_prefix⟩,
                  by simp [componentsOf, hcomps, hp]⟩
        | cons q qs =>
            exact .inr ⟨p :: q :: qs, c, by simp [dropLastComponent, hsome],
              List.cons_prefix_cons.2 ⟨rfl, hprefix⟩, by
                rw [componentsOf, hcomps, ← List.append_assoc]; rfl⟩

theorem componentsOf_cut_glue {ps : List (List Char)} (h : ∀ p ∈ ps, '/' ∉ p) (leading : Bool) :
    componentsOf leading (cut (glue ps)) = componentsOf leading ps := by
  cases ps with
  | nil => simp [glue, componentsOf]
  | cons p ps => rw [cut_glue (by simp) h]

theorem isAbsolute_of_beginning {p q : Path} (hne : q.spelling ≠ [])
    (h : q.spelling <+: p.spelling) : q.isAbsolute = p.isAbsolute := by
  obtain ⟨c, u, hq⟩ := List.exists_cons_of_ne_nil hne
  obtain ⟨rest, hp⟩ := h
  rw [hq, List.cons_append] at hp
  simp [isAbsolute, ← hp, hq]

/-- **The parent** of a path lacks the last component of its trail. -/
theorem parent?_cases (p : Path) :
    (p.parent? = none ∧ p.trail = []) ∨
      ∃ q c, p.parent? = some q ∧ q.isAbsolute = p.isAbsolute ∧ q.spelling <+: p.spelling ∧
        p.trail = q.trail ++ [c] := by
  have hslash : ∀ {qs : List (List Char)}, qs <+: p.body → ∀ q ∈ qs, '/' ∉ q :=
    fun h q hq => slash_not_mem_of_mem_cut (h.subset hq)
  cases habs : p.isAbsolute with
  | true =>
      rw [parent?, if_pos habs, trail_of_isAbsolute habs]
      obtain ⟨hnone, hcomps⟩ | ⟨qs, c, hsome, hprefix, hcomps⟩ :=
        dropLastComponent_cases false p.body
      · exact .inl ⟨by rw [hnone]; rfl, hcomps⟩
      · refine .inr ⟨⟨'/' :: glue qs⟩, c, by rw [hsome]; rfl, rfl, ?_, ?_⟩
        · obtain ⟨spelling⟩ := p
          cases spelling with
          | nil => contradiction
          | cons d u =>
              have hd : d = '/' := by simpa [isAbsolute] using habs
              subst hd
              have hglue := glue_prefix hprefix
              rw [body, if_pos habs, glue_cut] at hglue
              exact List.cons_prefix_cons.2 ⟨rfl, hglue⟩
        · rw [hcomps, trail, cut_slash_cons, componentsOf_nil_cons,
            componentsOf_cut_glue (hslash hprefix)]
  | false =>
      rw [parent?, habs, trail_of_not_isAbsolute habs]
      obtain ⟨hnone, hcomps⟩ | ⟨qs, c, hsome, hprefix, hcomps⟩ :=
        dropLastComponent_cases true p.body
      · exact .inl ⟨by rw [hnone]; rfl, hcomps⟩
      · have hspelling : glue qs <+: p.spelling := by
          have hglue := glue_prefix hprefix
          rwa [body, habs, glue_cut] at hglue
        refine .inr ⟨⟨glue qs⟩, c, by rw [hsome]; rfl, ?_, hspelling, ?_⟩
        · by_cases hne : glue qs = []
          · rw [hne]; rfl
          · rw [← habs]
            exact isAbsolute_of_beginning hne hspelling
        · rw [hcomps, trail, componentsOf_cut_glue (hslash hprefix)]

/-- The parent of a path of names is one of names too, and empty only for a
mere name. -/
theorem exists_parent_of_names {p : Path} {ns : List (List Char)} (hp : p.trail = ns.map .name)
    (hne : ns ≠ []) :
    ∃ q, p.parent? = some q ∧ q.isAbsolute = p.isAbsolute ∧ q.trail = ns.dropLast.map .name ∧
      (q.spelling = [] ↔ p.isAbsolute = false ∧ ns.length = 1) := by
  obtain ⟨-, hnil⟩ | ⟨q, c, hq, hroot, -, htrail⟩ := p.parent?_cases
  · rw [hp, List.map_eq_nil_iff] at hnil
    exact absurd hnil hne
  have hqtrail : q.trail = ns.dropLast.map .name := by
    rw [List.map_dropLast, ← hp, htrail, List.dropLast_concat]
  have hone : ns.dropLast = [] ↔ ns.length = 1 := by
    have hpos := List.length_pos_iff.2 hne
    rw [← List.length_eq_zero_iff, List.length_dropLast]
    omega
  refine ⟨q, hq, hroot, hqtrail, fun hnil => ?_, fun ⟨hrel, hlength⟩ => ?_⟩
  · have hrel : q.isAbsolute = false := by rw [isAbsolute, hnil]; rfl
    have hlast := (trail_eq_nil_iff hrel).2 hnil
    rw [hqtrail, List.map_eq_nil_iff, hone] at hlast
    exact ⟨hroot.symm.trans hrel, hlast⟩
  · rw [← trail_eq_nil_iff (hroot.trans hrel), hqtrail, hone.2 hlength]
    rfl

/-! ## ancestors -/

theorem inits_append_singleton {α : Type} (xs : List α) (x : α) :
    (xs ++ [x]).inits = xs.inits ++ [xs ++ [x]] := by
  simp [List.inits_append]

/-- **The ancestors** of a path have the beginnings of its trail as trails. -/
theorem map_trail_ancestors (p : Path) : p.ancestors.reverse.map trail = p.trail.inits := by
  induction p using ancestors.induct with
  | case1 p hnone =>
      obtain ⟨-, htrail⟩ | ⟨q, c, hsome, -⟩ := p.parent?_cases
      · rw [ancestors_of_parent?_eq_none hnone, htrail]
        simp [htrail]
      · rw [hnone] at hsome
        contradiction
  | case2 p q hq ih =>
      obtain ⟨hnone, -⟩ | ⟨r, c, hsome, -, -, htrail⟩ := p.parent?_cases
      · rw [hnone] at hq
        contradiction
      · obtain rfl : r = q := Option.some.inj (hsome.symm.trans hq)
        rw [ancestors_of_parent?_eq_some hq, List.reverse_cons, List.map_append, ih, htrail,
          inits_append_singleton, ← htrail]
        rfl

/-- All ancestors have the root of the path, and are spelled as beginnings of
it. -/
theorem of_mem_ancestors {p a : Path} (h : a ∈ p.ancestors) :
    a.isAbsolute = p.isAbsolute ∧ a.spelling <+: p.spelling := by
  induction p using ancestors.induct with
  | case1 p hnone =>
      rw [ancestors_of_parent?_eq_none hnone, List.mem_singleton] at h
      subst h
      exact ⟨rfl, List.prefix_refl _⟩
  | case2 p q hq ih =>
      rw [ancestors_of_parent?_eq_some hq, List.mem_cons] at h
      obtain rfl | h := h
      · exact ⟨rfl, List.prefix_refl _⟩
      · obtain ⟨hnone, -⟩ | ⟨r, c, hsome, hroot, hspelling, -⟩ := p.parent?_cases
        · rw [hnone] at hq
          contradiction
        · obtain rfl : r = q := Option.some.inj (hsome.symm.trans hq)
          obtain ⟨hroot', hspelling'⟩ := ih h
          exact ⟨hroot'.trans hroot, hspelling'.trans hspelling⟩

theorem pairwise_length_inits {α : Type} (xs : List α) :
    xs.inits.Pairwise fun ys zs => ys.length < zs.length := by
  induction xs with
  | nil => simp
  | cons x xs ih => simpa [List.inits_cons, List.pairwise_map] using ih

/-- The beginnings of a list that is put together are those of its first part,
but for that part itself, and those that go on into the second part. -/
theorem inits_append_eq {α : Type} (xs ys : List α) :
    (xs ++ ys).inits = xs.inits.dropLast ++ ys.inits.map (xs ++ ·) := by
  induction xs with
  | nil => simp
  | cons x xs ih =>
      have hne : xs.inits.map (List.cons x) ≠ [] := by cases xs <;> simp
      rw [List.cons_append, List.inits_cons, ih, List.inits_cons, List.dropLast_cons_of_ne_nil hne,
        ← List.map_dropLast, List.map_append, List.map_map]
      rfl

theorem of_mem_dropLast_inits {α : Type} {xs ys : List α} (h : ys ∈ xs.inits.dropLast) :
    ys <+: xs ∧ ys ≠ xs := by
  have hlt : ys.length < xs.length := by
    have hpairwise := pairwise_length_inits xs
    rw [← xs.append_nil, inits_append_eq, List.pairwise_append] at hpairwise
    simpa using hpairwise.2.2 ys h xs (by simp)
  refine ⟨(List.mem_inits ys xs).1 (List.mem_of_mem_dropLast h), ?_⟩
  rintro rfl
  exact lt_irrefl _ hlt

/-- Every ancestor has more components than those above it. -/
theorem pairwise_length_ancestors (p : Path) :
    p.ancestors.reverse.Pairwise fun a b => a.components.length < b.components.length := by
  have htrails := pairwise_length_inits p.trail
  rw [← map_trail_ancestors, List.pairwise_map] at htrails
  refine htrails.imp_of_mem fun ha hb hlt => ?_
  rw [List.mem_reverse] at ha hb
  simp only [components_eq, (of_mem_ancestors ha).1, (of_mem_ancestors hb).1, List.length_append]
  omega

/-! ## joining -/

/-- The pieces of a joined path are those of the directory, but for an empty
one at its end, and those of what was joined. -/
theorem exists_cut_join (a : Path) (r : List Char) :
    ∃ ps, cut (a.join r).spelling = ps ++ cut r ∧ (ps = [] ↔ a.spelling = []) ∧
      componentsOf true ps = a.trail := by
  by_cases hnil : a.spelling = []
  · refine ⟨[], ?_, by simp [hnil], ?_⟩
    · simp [join, hnil]
    · simp [trail, hnil, componentsOf]
  · by_cases hlast : a.spelling.getLast? = some '/'
    · obtain ⟨u, hu⟩ := List.getLast?_eq_some_iff.1 hlast
      refine ⟨cut u, ?_, by simp [hnil, cut_ne_nil], ?_⟩
      · rw [join, if_pos (.inr hlast), hu, List.append_assoc]
        exact cut_append_slash u r
      · rw [trail, hu, cut_append_slash, componentsOf_append]
        simp [componentsOf]
    · refine ⟨cut a.spelling, ?_, by simp [hnil, cut_ne_nil], rfl⟩
      rw [join, if_neg (by simp [hnil, hlast])]
      exact cut_append_slash a.spelling r

theorem isAbsolute_join {a : Path} (ha : a.spelling ≠ []) (r : List Char) :
    (a.join r).isAbsolute = a.isAbsolute := by
  refine (isAbsolute_of_beginning ha ?_).symm
  rw [join]
  split
  · exact List.prefix_append _ _
  · exact List.prefix_append _ _

/-- **A joined name** is one more component. -/
theorem trail_join_name (a : Path) {n : List Char} (hn : IsName n) :
    (a.join n).trail = a.trail ++ [.name n] := by
  obtain ⟨ps, hcut, -, htrail⟩ := a.exists_cut_join n
  rw [trail, hcut, cut_of_slash_not_mem hn.slash_not_mem, componentsOf_append, htrail,
    componentsOf, component?_of_isName hn]
  rfl

theorem isAbsolute_join_name (a : Path) {n : List Char} (hn : IsName n) :
    (a.join n).isAbsolute = a.isAbsolute := by
  by_cases ha : a.spelling = []
  · obtain ⟨c, u, rfl⟩ := List.exists_cons_of_ne_nil hn.ne_nil
    have hc : c ≠ '/' := fun hc => hn.slash_not_mem (by simp [hc])
    simp [join, isAbsolute, ha, hc]
  · exact isAbsolute_join ha n

theorem components_join_name (a : Path) {n : List Char} (hn : IsName n) :
    (a.join n).components = a.components ++ [.name n] := by
  rw [components_eq, components_eq, isAbsolute_join_name a hn, trail_join_name a hn,
    List.append_assoc]

theorem trail_join {a : Path} (ha : a.spelling ≠ []) (r : List Char) :
    (a.join r).trail = a.trail ++ componentsOf false (cut r) := by
  obtain ⟨ps, hcut, hnil, htrail⟩ := a.exists_cut_join r
  have hps : ps.isEmpty = false := by
    rw [← Bool.not_eq_true, List.isEmpty_iff, hnil]
    exact ha
  rw [trail, hcut, componentsOf_append, htrail, hps, Bool.and_false]

end Path

end ChainIndent

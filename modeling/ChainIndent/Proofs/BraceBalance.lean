import ChainIndent.Proofs.FailOpen

/-!
# ChainIndent.Proofs.BraceBalance

The brace balance is that of one callback.  A context carries it on from line
to line, inside callbacks and between them, but what it holds can be told from
the lines of the last callback alone:

* inside a callback every line adds its braces, further openers among them and
  comments not (`balance_contextBehind_inner`);
* outside, nothing but an opener changes it (`balance_contextBehind_outer`),
  and an opener forgets what it was (`balance_step_opener`);
* so behind the opener of a callback it is the sum over the lines from there on
  (`balance_of_opensLast`), and behind the closer it stays what it is then
  (`balance_of_closed`).

The warning about a callback that is not closed reports it, and no other
warning does (`warnings_reindent`).
-/

namespace ChainIndent

/-! ## the braces of some lines -/

theorem netBraces_of_blank {u : Line} (h : isBlankLine u = true) : netBraces u = 0 := by
  have hbrace : ∀ c, isBlank c = false → u.count c = 0 := by
    intro c hc
    rw [List.count_eq_zero]
    intro hmem
    rw [List.all_eq_true.1 h c hmem] at hc
    contradiction
  have hopening := hbrace '{' (by decide)
  have hclosing := hbrace '}' (by decide)
  rw [netBraces, hopening, hclosing]
  rfl

/-- Indentation holds no braces. -/
@[simp] theorem netBraces_trimStart (l : Line) : netBraces (trimStart l) = netBraces l := by
  have hblank : isBlankLine (l.takeWhile isBlank) = true := List.all_takeWhile
  have hl : l.takeWhile isBlank ++ trimStart l = l := List.takeWhile_append_dropWhile
  conv => rhs; rw [← hl, netBraces_append, netBraces_of_blank hblank, Int.zero_add]

namespace Style

/-- How many more braces some lines open than they close, comments left out. -/
def netBracesOf (s : Style) (ls : List Line) : Int :=
  netBraces (ls.filter fun l => s.kindOf l ≠ .comment).flatten

@[simp] theorem netBracesOf_nil (s : Style) : s.netBracesOf [] = 0 := rfl

theorem netBracesOf_append (s : Style) (ls ms : List Line) :
    s.netBracesOf (ls ++ ms) = s.netBracesOf ls + s.netBracesOf ms := by
  simp [netBracesOf, netBraces_append]

theorem netBracesOf_cons (s : Style) (l : Line) (ls : List Line) :
    s.netBracesOf (l :: ls) = s.netBracesOf [l] + s.netBracesOf ls :=
  netBracesOf_append s [l] ls

theorem netBracesOf_singleton (s : Style) (l : Line) :
    s.netBracesOf [l] = if s.kindOf l = .comment then 0 else netBraces l := by
  by_cases h : s.kindOf l = .comment <;> simp [netBracesOf, h]

/-! ## one line -/

variable {s : Style} {c : Context} {l : Line}

/-- Inside a callback a line adds its braces, its closer and openers included. -/
theorem balance_step_inner (hc : c.inCallback = true) :
    (s.step c l).after.balance = c.balance + s.netBracesOf [l] := by
  have hblank : s.kindOf l = .blank → netBraces l = 0 :=
    fun hk => netBraces_of_blank (kindOf_eq_blank_iff.1 hk)
  rw [after_step, netBraces_trimStart, netBracesOf_singleton]
  obtain ⟨level, inCallback, balance, base⟩ := c
  cases hk : s.kindOf l <;> simp_all [Context.after]

/-- An opener forgets the callbacks before it. -/
theorem balance_step_opener (hc : c.inCallback = false) (hk : s.kindOf l = .verbatimStart) :
    (s.step c l).after.balance = s.netBracesOf [l] := by
  obtain ⟨level, inCallback, balance, base⟩ := c
  simp_all [after_step, Context.after, netBracesOf_singleton]

/-- Outside callbacks all other lines leave the balance. -/
theorem balance_step_outer (hc : c.inCallback = false) (hk : s.kindOf l ≠ .verbatimStart) :
    (s.step c l).after.balance = c.balance := by
  obtain ⟨level, inCallback, balance, base⟩ := c
  rw [after_step]
  cases h : s.kindOf l <;> simp_all [Context.after, Context.opened, Context.closed]

/-! ## several lines -/

/-- Lines inside a callback that do not close it. -/
theorem balance_contextBehind_inner {inner : List Line} (hc : c.inCallback = true)
    (h : ∀ l ∈ inner, s.kindOf l ≠ .verbatimEnd) :
    (s.contextBehind c inner).inCallback = true ∧
      (s.contextBehind c inner).balance = c.balance + s.netBracesOf inner := by
  induction inner generalizing c with
  | nil => simp [hc]
  | cons l inner ih =>
      rw [List.forall_mem_cons] at h
      have hinside : (s.step c l).after.inCallback = true := by
        rw [inCallback_after_step, hc, opensAfter_eq_true_iff]
        exact .inl ⟨rfl, h.1⟩
      obtain ⟨hopen, hbalance⟩ := ih hinside h.2
      rw [contextBehind_cons, netBracesOf_cons]
      refine ⟨hopen, ?_⟩
      rw [hbalance, balance_step_inner hc]
      omega

/-- Lines outside callbacks that open none. -/
theorem balance_contextBehind_outer {outer : List Line} (hc : c.inCallback = false)
    (h : ∀ l ∈ outer, s.kindOf l ≠ .verbatimStart) :
    (s.contextBehind c outer).balance = c.balance := by
  induction outer generalizing c with
  | nil => rfl
  | cons l outer ih =>
      rw [List.forall_mem_cons] at h
      have houtside : (s.step c l).after.inCallback = false := by
        rw [← Bool.not_eq_true, inCallback_after_step, hc, opensAfter_eq_true_iff]
        simp [h.1]
      rw [contextBehind_cons, ih houtside h.2, balance_step_outer hc h.1]

/-! ## the last callback -/

variable {ls : List Line} {o : Nat}

/-- Behind an opener with no closer the balance is that of the lines from there
on. -/
theorem balance_of_opensLast (h : OpensLast (s.kinds ls) o) :
    (s.contextBehind s.start ls).inCallback = true ∧
      (s.contextBehind s.start ls).balance = s.netBracesOf (ls.drop o) := by
  have hopener := h.opener
  rw [kinds, List.getElem?_map] at hopener
  obtain ⟨l, hl, hk⟩ := Option.map_eq_some_iff.1 hopener
  obtain ⟨hlen, rfl⟩ := List.getElem?_eq_some_iff.1 hl
  have hcut : ls.take o ++ ls[o] :: ls.drop (o + 1) = ls := by
    rw [← List.drop_eq_getElem_cons hlen, List.take_append_drop]
  have houtside : (s.contextBehind s.start (ls.take o)).inCallback = false := by
    rw [← Bool.not_eq_true]
    exact fun hin => h.not_insideCallback ((inCallback_contextBefore_iff s ls o).1 hin)
  have hinside : (s.step (s.contextBehind s.start (ls.take o)) ls[o]).after.inCallback = true := by
    rw [inCallback_after_step, hk, opensAfter_eq_true_iff]
    exact .inr rfl
  have hinner : ∀ m ∈ ls.drop (o + 1), s.kindOf m ≠ .verbatimEnd := by
    intro m hm hend
    have hmem : s.kindOf m ∈ (ls.drop (o + 1)).map s.kindOf := List.mem_map_of_mem hm
    rw [List.map_drop, hend] at hmem
    exact h.unclosed hmem
  have hbehind := balance_contextBehind_inner hinside hinner
  rw [balance_step_opener houtside hk, ← netBracesOf_cons, ← List.drop_eq_getElem_cons hlen,
    ← contextBehind_cons, ← contextBehind_append, hcut] at hbehind
  exact hbehind

/-- Behind the closer it stays that of the whole callback, up to the next
opener. -/
theorem balance_of_closed {front behind : List Line} {closer : Line}
    (h : OpensLast (s.kinds front) o) (hcloser : s.kindOf closer = .verbatimEnd)
    (hbehind : ∀ l ∈ behind, s.kindOf l ≠ .verbatimStart) :
    (s.contextBehind s.start (front ++ closer :: behind)).balance =
      s.netBracesOf (front.drop o ++ [closer]) := by
  obtain ⟨hopen, hbalance⟩ := balance_of_opensLast h
  have hclosed : (s.step (s.contextBehind s.start front) closer).after.inCallback = false := by
    rw [inCallback_after_step, hopen, hcloser]
    rfl
  rw [contextBehind_append, contextBehind_cons, balance_contextBehind_outer hclosed hbehind,
    balance_step_inner hopen, hbalance, netBracesOf_append]

/-- A callback is open behind some lines exactly when one of them opened it. -/
theorem inCallback_iff_exists_opensLast (s : Style) (ls : List Line) :
    (s.contextBehind s.start ls).inCallback = true ↔ ∃ o, OpensLast (s.kinds ls) o := by
  constructor
  · intro hopen
    exact exists_opensLast (unterminatedVerbatim_reindent_iff.1 hopen)
  · rintro ⟨o, ho⟩
    exact (balance_of_opensLast ho).1

/-! ## warnings -/

/-- Laying out a line is no reason to warn. -/
theorem filter_warn_traceEvents (n : Nat) (steps : List Step) :
    (traceEvents n steps).filter (·.severity = .warn) = [] := by
  induction steps generalizing n with
  | nil => rfl
  | cons t steps ih => rw [traceEvents, List.filter_cons_of_neg (by simp [Event.severity]), ih]

/-- The only warning about a region is that its last callback is not closed. -/
theorem warnings_reindent (s : Style) (ls : List Line) :
    (s.reindent ls).events.filter (·.severity = .warn) =
      if (s.contextBehind s.start ls).inCallback then
        [.callbackUnclosed (s.contextBehind s.start ls).balance]
      else [] := by
  rw [reindent, Reindented.ofRun, List.filter_append, filter_warn_traceEvents, List.nil_append,
    contextBehind, steps]
  split <;> simp [Event.severity]

/-- **The balance is of one callback.**  While a callback is open, one line opened
it, and the balance is that of the lines from there on, whatever was open before;
its closer adds its own braces, and no line behind changes it until the next
opener.  If the region ends inside a callback, the one warning reports it. -/
theorem balance_is_of_one_callback (s : Style) (ls : List Line) :
    (∀ n : Nat, (s.contextBefore ls n).inCallback = true ↔
      ∃ o, OpensLast (s.kinds (ls.take n)) o) ∧
    (∀ n o : Nat, OpensLast (s.kinds (ls.take n)) o →
      (s.contextBefore ls n).balance = s.netBracesOf ((ls.take n).drop o)) ∧
    (∀ (n o : Nat) (front behind : List Line) (closer : Line),
      ls.take n = front ++ closer :: behind → OpensLast (s.kinds front) o →
      s.kindOf closer = .verbatimEnd → (∀ l ∈ behind, s.kindOf l ≠ .verbatimStart) →
      (s.contextBefore ls n).balance = s.netBracesOf (front.drop o ++ [closer])) ∧
    (∀ o : Nat, OpensLast (s.kinds ls) o →
      (s.reindent ls).events.filter (·.severity = .warn) =
        [.callbackUnclosed (s.netBracesOf (ls.drop o))]) ∧
    ((∀ o : Nat, ¬ OpensLast (s.kinds ls) o) →
      (s.reindent ls).events.filter (·.severity = .warn) = []) := by
  refine ⟨fun n => inCallback_iff_exists_opensLast s (ls.take n),
    fun n o ho => (balance_of_opensLast ho).2, fun n o front behind closer hcut ho hk hbehind => ?_,
    fun o ho => ?_, fun hnone => ?_⟩
  · have hbalance := balance_of_closed ho hk hbehind
    rw [← hcut] at hbalance
    exact hbalance
  · obtain ⟨hopen, hbalance⟩ := balance_of_opensLast ho
    rw [warnings_reindent, if_pos hopen, hbalance]
  · have hclosed : ¬ (s.contextBehind s.start ls).inCallback = true := by
      rw [inCallback_iff_exists_opensLast]
      exact fun ⟨o, ho⟩ => hnone o ho
    rw [warnings_reindent, if_neg hclosed]

/-- A callback that leaves a brace open, a line with braces behind it, and a
callback with a comment and another opener inside it that is not closed. -/
theorem balance_is_of_one_callback_twice :
    let opener := "Handler(func() ".toList ++ ['{']
    let closer := standard.verbatimEnd
    let first := [opener ++ ['{']]
    let between := ["Flag(".toList ++ ['{', '{', '{']]
    let second := [opener, "// ".toList ++ ['{', '{'], '\t' :: opener,
      '}' :: " else ".toList ++ ['{']]
    let ls := first ++ closer :: between ++ second
    (OpensLast (standard.kinds first) 0 ∧ (standard.contextBefore ls 3).balance = 1) ∧
      (OpensLast (standard.kinds (ls.take 5)) 3 ∧ (standard.contextBefore ls 5).balance = 1) ∧
      OpensLast (standard.kinds ls) 3 ∧
        (standard.reindent ls).events.filter (·.severity = .warn) = [.callbackUnclosed 2] := by
  intro opener closer first between second ls
  obtain ⟨-, hinside, hbehind, hwarning, -⟩ := balance_is_of_one_callback standard ls
  have hfirst : OpensLast (standard.kinds first) 0 := by decide
  have hsecond : OpensLast (standard.kinds (ls.take 5)) 3 := by decide
  have hlast : OpensLast (standard.kinds ls) 3 := by decide
  exact ⟨⟨hfirst, hbehind 3 0 first between closer rfl hfirst (by decide) (by decide)⟩,
    ⟨hsecond, hinside 5 3 hsecond⟩, hlast, hwarning 3 hlast⟩

end Style

end ChainIndent

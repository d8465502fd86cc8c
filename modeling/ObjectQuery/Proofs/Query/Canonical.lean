import ObjectQuery.Proofs.Query.RoundTrip

/-!
# The canonical text of a query

Printing asks neither for the places of a query nor for what its words mean: a number without digits
and the literal it is read back as are the same characters. So what a canonical text is read as
prints as that text.
-/

set_option autoImplicit false

namespace ObjectQuery

theorem Atom.text_reread (a : Atom) : a.reread.text = a.text := by
  cases a with
  | number n =>
    cases n with
    | whole n => rfl
    | fraction x =>
      simp only [reread]
      cases x.isFinite with
      | true => rfl
      | false => rfl
  | name s => rfl
  | string s => rfl
  | literal s => rfl

theorem Argument.text_congr {a b : Argument} (hvalue : a.value.text = b.value.text)
    (hname : a.name = b.name) : a.text = b.text := by
  simp only [text, hvalue, hname]

theorem Argument.text_unplaced (a : Argument) : a.unplaced.text = a.text :=
  text_congr rfl rfl

theorem Argument.text_reread (a : Argument) : a.reread.text = a.text :=
  text_congr a.value.text_reread rfl

namespace Call

theorem headText_map (n : String) {f : Argument → Argument} (hf : ∀ a, (f a).text = a.text)
    (as : List Argument) : headText n (as.map f) = headText n as := by
  have htexts : (as.map f).map Argument.text = as.map Argument.text := by
    rw [List.map_map]
    exact List.map_congr_left fun a _ => hf a
  simp only [headText, List.isEmpty_map, htexts]

mutual

theorem lines_unplaced : ∀ (c : Call) (depth : Nat), lines depth c.unplaced = lines depth c
  | mk n as [] l, depth => by
    simp only [unplaced, unplacedAll, lines, headText_map n Argument.text_unplaced]
  | mk n as (c :: cs) l, depth => by
    have hblock := linesOf_unplacedAll (c :: cs) (depth + 1)
    rw [unplacedAll] at hblock
    simp only [unplaced, unplacedAll, lines, headText_map n Argument.text_unplaced, hblock]

/-- The lines of calls are the same wherever the calls stand. -/
theorem linesOf_unplacedAll : ∀ (cs : List Call) (depth : Nat),
    linesOf depth (unplacedAll cs) = linesOf depth cs
  | [], _ => rfl
  | c :: cs, depth => by
    rw [unplacedAll, linesOf, linesOf, lines_unplaced c depth, linesOf_unplacedAll cs depth]

end

mutual

theorem lines_reread : ∀ (c : Call) (depth : Nat), lines depth c.reread = lines depth c
  | mk n as [] l, depth => by
    simp only [reread, rereadAll, lines, headText_map n Argument.text_reread]
  | mk n as (c :: cs) l, depth => by
    have hblock := linesOf_rereadAll (c :: cs) (depth + 1)
    rw [rereadAll] at hblock
    simp only [reread, rereadAll, lines, headText_map n Argument.text_reread, hblock]

/-- The lines of what calls are read back as are the lines of the calls. -/
theorem linesOf_rereadAll : ∀ (cs : List Call) (depth : Nat),
    linesOf depth (rereadAll cs) = linesOf depth cs
  | [], _ => rfl
  | c :: cs, depth => by
    rw [rereadAll, linesOf, linesOf, lines_reread c depth, linesOf_rereadAll cs depth]

end

theorem rereadAll_ne_nil {cs : List Call} (h : cs ≠ []) : rereadAll cs ≠ [] := by
  cases cs with
  | nil => exact absurd rfl h
  | cons c cs => exact List.cons_ne_nil _ _

end Call

namespace Query

variable {p q : Query}

/-- Queries that differ only in places have one text. -/
theorem print_eq_of_sameAll (h : Call.sameAll p q = true) : print p = print q := by
  have hlines : Call.linesOf 0 p = Call.linesOf 0 q := by
    rw [← Call.linesOf_unplacedAll p, ← Call.linesOf_unplacedAll q, (Call.sameAll_iff p q).mp h]
  simp only [print, hlines]

theorem print_rereadAll (q : Query) : print (Call.rereadAll q) = print q := by
  simp only [print, Call.linesOf_rereadAll]

/-- The text of a query that can have been read is read as a query with that text. -/
theorem print_reads_back (hne : q ≠ []) (hq : Call.FormedAll q) :
    ∃ q', parse (print q) = .ok q' ∧ print q' = print q := by
  obtain ⟨q', hparse, hsame⟩ := parse_of_reads (Call.rereadAll_ne_nil hne)
    (Call.formedAll_rereadAll q hq) (reads_print hq)
  exact ⟨q', hparse, (print_eq_of_sameAll hsame).trans (print_rereadAll q)⟩

theorem pretty_eq_ok {text : String} (h : parse text = .ok q) : pretty text = .ok (print q) := by
  rw [pretty, h]
  rfl

/-- A text that reads has a canonical text, which reads and is its own canonical text. -/
theorem pretty_idempotent {text : String} (h : parse text = .ok q) :
    ∃ canonical q', pretty text = .ok canonical ∧ parse canonical = .ok q' ∧
      pretty canonical = .ok canonical := by
  obtain ⟨hne, hq⟩ := formed_of_parse h
  obtain ⟨q', hparse, hprint⟩ := print_reads_back hne hq
  refine ⟨print q, q', pretty_eq_ok h, hparse, ?_⟩
  rw [pretty_eq_ok hparse, hprint]

/-- A text far from canonical: a comment, separators and empty parentheses that are not needed, an
escaped string, a number too small and one too large for their kind. -/
def unkempt : List Char :=
  "nodes(Book,, 7-up, \"a\\n\\u00e9\" x: -0.".toList ++ List.replicate 330 '0' ++
    "1 # and\n y: 1".toList ++ List.replicate 309 '0' ++ ".50)\x7bid() title\x7d".toList

theorem unkempt_pretty : ∃ q canonical q', parse (String.ofList unkempt) = .ok q ∧
    pretty (String.ofList unkempt) = .ok canonical ∧ parse canonical = .ok q' ∧
    pretty canonical = .ok canonical ∧ canonical ≠ String.ofList unkempt := by
  have h : (parse (String.ofList unkempt)).toOption.any
      (fun q => print q != String.ofList unkempt) = true := by
    refine (congrArg (fun x => Option.any _ (Except.toOption x)) (parse_ofList _)).trans ?_
    decide +kernel
  obtain ⟨q, hq, hne⟩ := Outcome.exists_of_any h
  obtain ⟨canonical, q', hpretty, hparse, hagain⟩ := pretty_idempotent hq
  obtain rfl : print q = canonical := Except.ok.inj ((pretty_eq_ok hq).symm.trans hpretty)
  exact ⟨q, print q, q', hq, hpretty, hparse, hagain, bne_iff_ne.mp hne⟩

end Query

end ObjectQuery

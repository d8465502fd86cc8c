import ObjectQuery.Proofs.Query.Grammar

/-!
# Printing and reading again

What was read from a text and printed reads again, and up to places as the same query: names,
nesting, and the names, kinds and values of arguments. Only a number too large to have digits comes
back as something else, a literal.
-/

set_option autoImplicit false

namespace ObjectQuery

open Scan

section
variable {rest : List Char} {ls : List Lexeme}

theorem Argument.reads {a : Argument} (ha : a.Formed)
    (hend : ∀ c ∈ rest.head?, Word.isPart c = false) (h : Reads rest ls) :
    Reads (a.text.toList ++ rest) (a.reread.lexemes ++ ls) := by
  obtain ⟨value, name, location⟩ := a
  have hvalue := h.atom ha.1 hend
  cases name with
  | none => exact hvalue
  | some n =>
    have htext : (Argument.text ⟨value, some n, location⟩).toList ++ rest
        = (Atom.text (.name n)).toList ++ ':' :: ' ' :: (value.text.toList ++ rest) := by
      have hparts : Argument.text ⟨value, some n, location⟩ = n ++ ": " ++ value.text := rfl
      rw [hparts, String.toList_append, String.toList_append, List.append_assoc, List.append_assoc]
      rfl
    have hname : Atom.Formed (.name n) := ha.2 n rfl
    rw [htext]
    refine Reads.atom hname ?_ ((hvalue.blank (by decide)).mark rfl)
    rintro c ⟨⟩
    decide

theorem Argument.reads_all {a : Argument} {as : List Argument} (has : ∀ b ∈ a :: as, b.Formed)
    (h : Reads rest ls) :
    Reads ((Value.joined ((a :: as).map Argument.text)).toList ++ ')' :: rest)
      (((a :: as).map Argument.reread).flatMap Argument.lexemes ++ .closeParen :: ls) := by
  induction as generalizing a with
  | nil =>
    have hlast : Reads (a.text.toList ++ ')' :: rest) (a.reread.lexemes ++ .closeParen :: ls) := by
      refine Argument.reads (has a List.mem_cons_self) ?_ (h.mark rfl)
      rintro c ⟨⟩
      decide
    have hlexemes : ([a].map Argument.reread).flatMap Argument.lexemes = a.reread.lexemes := by
      rw [List.map_singleton, List.flatMap_singleton]
    rw [hlexemes]
    exact hlast
  | cons b bs ih =>
    have htail := ih (a := b) fun c hc => has c (List.mem_cons_of_mem a hc)
    have hcomma := (htail.blank (c := ' ') (by decide)).blank (c := ',') (by decide)
    have htext : (Value.joined ((a :: b :: bs).map Argument.text)).toList ++ ')' :: rest
        = a.text.toList ++
          ',' :: ' ' :: ((Value.joined ((b :: bs).map Argument.text)).toList ++ ')' :: rest) := by
      simp only [Value.joined, List.map_cons, String.intercalate_cons_cons, String.toList_append,
        List.append_assoc]
      rfl
    have hlexemes : ((a :: b :: bs).map Argument.reread).flatMap Argument.lexemes
        = a.reread.lexemes ++ ((b :: bs).map Argument.reread).flatMap Argument.lexemes := by
      rw [List.map_cons, List.flatMap_cons]
    rw [htext, hlexemes, List.append_assoc]
    refine Argument.reads (has a List.mem_cons_self) ?_ hcomma
    rintro c ⟨⟩
    decide

namespace Call

theorem reads_head {n : String} {as : List Argument} (hn : Word.isName n.toList = true)
    (has : ∀ a ∈ as, a.Formed) (hend : ∀ c ∈ rest.head?, Word.isPart c = false)
    (h : Reads rest ls) :
    Reads ((headText n as).toList ++ rest)
      (headLexemes n (as.map Argument.reread) ++ ls) := by
  have hname : Atom.Formed (.name n) := hn
  cases as with
  | nil => exact h.atom hname hend
  | cons a as =>
    have htext : (headText n (a :: as)).toList ++ rest = (Atom.text (.name n)).toList ++
        '(' :: ((Value.joined ((a :: as).map Argument.text)).toList ++ ')' :: rest) := by
      have hparts : headText n (a :: as)
          = n ++ "(" ++ Value.joined ((a :: as).map Argument.text) ++ ")" := rfl
      rw [hparts, String.toList_append, String.toList_append, String.toList_append,
        List.append_assoc, List.append_assoc, List.append_assoc]
      rfl
    have hlexemes : headLexemes n ((a :: as).map Argument.reread) ++ ls
        = .atom (.name n) :: .openParen ::
          (((a :: as).map Argument.reread).flatMap Argument.lexemes ++ .closeParen :: ls) := by
      simp only [headLexemes, List.map_cons, List.isEmpty_cons, Bool.false_eq_true, if_false,
        List.cons_append, List.append_assoc, List.nil_append]
    rw [htext, hlexemes]
    refine Reads.atom hname ?_ ((Argument.reads_all has h).mark rfl)
    rintro c ⟨⟩
    decide

/-- The characters of lines that each end with a newline. -/
def layOut (lines : List String) : List Char := lines.flatMap fun line => line.toList ++ ['\n']

theorem layOut_append (ls ms : List String) : layOut (ls ++ ms) = layOut ls ++ layOut ms :=
  List.flatMap_append

theorem layOut_indent (depth : Nat) (line : String) (ls : List String) :
    layOut (indent depth line :: ls)
      = List.replicate (4 * depth) ' ' ++ (line.toList ++ '\n' :: layOut ls) := by
  simp only [layOut, List.flatMap_cons, indent, String.toList_append, String.toList_ofList,
    List.append_assoc, List.cons_append, List.nil_append]

mutual

/-- The lines of a call scan as the tokens of what it is read as. -/
theorem reads_lines : ∀ (c : Call), c.Formed → ∀ (depth : Nat) {rest : List Char}
    {ls : List Lexeme},
    Reads rest ls → Reads (layOut (lines depth c) ++ rest) (c.reread.lexemes ++ ls)
  | mk n as [] _, ⟨hn, has, _, _⟩, depth, rest, ls, h => by
    rw [lines, layOut_indent, List.append_assoc, List.append_assoc]
    refine Reads.spaces (4 * depth) (reads_head hn has ?_ h.newline)
    rintro c ⟨⟩
    decide
  | mk n as (c :: cs) _, ⟨hn, has, _, hcs⟩, depth, rest, ls, h => by
    have hclose : Reads (layOut [indent depth "\x7d"] ++ rest) (.closeBrace :: ls) := by
      rw [layOut_indent, List.append_assoc]
      exact Reads.spaces (4 * depth) (h.newline.mark rfl)
    have hblock := reads_linesOf (c :: cs) hcs (depth + 1) hclose
    have hopen := hblock.newline.mark (c := '\x7b') (m := .openBrace) rfl
    have hspace := hopen.blank (c := ' ') (by decide)
    rw [lines, layOut_indent, layOut_append]
    have htext : List.replicate (4 * depth) ' ' ++ ((headText n as ++ " \x7b").toList ++
          '\n' :: (layOut (linesOf (depth + 1) (c :: cs)) ++ layOut [indent depth "\x7d"])) ++ rest
        = List.replicate (4 * depth) ' ' ++ ((headText n as).toList ++ ' ' :: '\x7b' :: '\n' ::
          (layOut (linesOf (depth + 1) (c :: cs)) ++ (layOut [indent depth "\x7d"] ++ rest))) := by
      simp only [String.toList_append, List.append_assoc, List.cons_append]
      rfl
    have hlexemes : (mk n as (c :: cs) ‹_›).reread.lexemes ++ ls
        = headLexemes n (as.map Argument.reread) ++
          .openBrace :: (lexemesOf (rereadAll (c :: cs)) ++ .closeBrace :: ls) := by
      simp only [reread, rereadAll, lexemes, List.append_assoc, List.cons_append, List.nil_append]
    rw [htext, hlexemes]
    refine Reads.spaces (4 * depth) (reads_head hn has ?_ hspace)
    rintro d ⟨⟩
    decide

theorem reads_linesOf : ∀ (cs : List Call), FormedAll cs →
    ∀ (depth : Nat) {rest : List Char} {ls : List Lexeme}, Reads rest ls →
      Reads (layOut (linesOf depth cs) ++ rest) (lexemesOf (rereadAll cs) ++ ls)
  | [], _, _, _, _, h => h
  | c :: cs, ⟨hc, hcs⟩, depth, rest, ls, h => by
    rw [linesOf, layOut_append, List.append_assoc, rereadAll, lexemesOf, List.append_assoc]
    exact reads_lines c hc depth (reads_linesOf cs hcs depth h)

end

end Call

end

namespace Query

theorem toList_print (q : Query) : (print q).toList = Call.layOut (Call.linesOf 0 q) := by
  simp only [print, String.toList_join, Call.layOut, List.flatMap_map, String.toList_append]
  rfl

theorem reads_print {q : Query} (hq : Call.FormedAll q) :
    Reads (print q).toList (Call.lexemesOf (Call.rereadAll q)) := by
  have h := Call.reads_linesOf q hq 0 reads_nil
  rw [List.append_nil, List.append_nil, ← toList_print] at h
  exact h

/-- A text that scans as the tokens of formed calls is read as these calls. -/
theorem parse_of_reads {text : String} {q : Query} (hne : q ≠ []) (hq : Call.FormedAll q)
    (h : Reads text.toList (Call.lexemesOf q)) :
    ∃ q', parse text = .ok q' ∧ Call.sameAll q' q = true := by
  obtain ⟨hfailure, htokens⟩ := h 0 1
  obtain ⟨s, q', hrun, hfinish, hq'⟩ := Parsing.finish_calls hne hq htokens
    (Location.ofOffset text.toList) (Location.ofOffset text.toList text.toList.length)
  refine ⟨q', ?_, ?_⟩
  · simp only [parse, scan, hrun, hfailure, Outcome.ok_bind]
    exact hfinish
  · rw [Call.sameAll_iff, Call.unplacedAll_eq, Call.unplacedAll_eq]
    exact hq'

/-- The text of a query that was read reads as that query, but for numbers without digits: these
come back as literals. -/
theorem parse_print {text : String} {q : Query} (h : parse text = .ok q) :
    ∃ q', parse (print q) = .ok q' ∧ Call.sameAll q' (Call.rereadAll q) = true ∧
      (Call.sameAll q' q = true ↔ Call.finiteAll q = true) := by
  obtain ⟨hne, hq⟩ := formed_of_parse h
  have hne' : Call.rereadAll q ≠ [] := by
    cases q with
    | nil => exact absurd rfl hne
    | cons c cs => exact List.cons_ne_nil _ _
  obtain ⟨q', hparse, hsame⟩ :=
    parse_of_reads hne' (Call.formedAll_rereadAll q hq) (reads_print hq)
  refine ⟨q', hparse, hsame, ?_⟩
  rw [Call.sameAll_iff, (Call.sameAll_iff q' _).mp hsame]
  exact Call.unplaced_rereadAll_iff q

/-- A text that is not in canonical form. -/
def sample : String := "nodes(Book, 7-up, price: -0.5, title: \"a\\n\\u00e9\")\x7bid() title\x7d"

theorem sample_reads_back : ∃ q q', parse sample = .ok q ∧ parse (print q) = .ok q' ∧
    Call.sameAll q' q = true := by
  have h : (parse sample).toOption.any Call.finiteAll = true := by decide +kernel
  obtain ⟨q, hq, hfinite⟩ := Outcome.exists_of_any h
  obtain ⟨q', hparse, _, hiff⟩ := parse_print hq
  exact ⟨q, q', hq, hparse, hiff.mpr hfinite⟩

/-- A text that is given by its characters is not taken apart again. -/
theorem parse_ofList (cs : List Char) : parse (String.ofList cs) =
    (Parsing.run (Location.ofOffset cs) Parsing.initial (scan cs).tokens).bind fun s =>
      match (scan cs).failure with
      | some (offset, d) => .error ⟨.lexical d, some (Location.ofOffset cs offset), []⟩
      | none => s.finish (Location.ofOffset cs cs.length) := by
  simp only [parse, String.toList_ofList]
  rfl

/-- A number with a fraction that is larger than all numbers with digits. -/
def overflowing : List Char :=
  "node(User, 1".toList ++ List.replicate 309 '0' ++ ".0)".toList

theorem overflowing_not_read_back : ∃ q q', parse (String.ofList overflowing) = .ok q ∧
    parse (print q) = .ok q' ∧ Call.sameAll q' q = false := by
  have h : (parse (String.ofList overflowing)).toOption.any (fun q =>
      (parse (print q)).toOption.any fun q' => !Call.sameAll q' q) = true := by
    refine (congrArg (fun x => Option.any _ (Except.toOption x)) (parse_ofList _)).trans ?_
    decide +kernel
  obtain ⟨q, hq, hback⟩ := Outcome.exists_of_any h
  obtain ⟨q', hq', hsame⟩ := Outcome.exists_of_any hback
  rw [Bool.not_eq_true'] at hsame
  exact ⟨q, q', hq, hq', hsame⟩

end Query

end ObjectQuery

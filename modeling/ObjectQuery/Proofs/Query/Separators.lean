import ObjectQuery.Proofs.Query.Lexemes
import ObjectQuery.Proofs.Query.Spelling
import ObjectQuery.Proofs.Query.Tracing

/-!
# Separators

Between the tokens of a query there are gaps: separators, and comments that end with their line. A
gap means nothing beyond keeping two words apart. So the tokens of a text, written again with any
other gaps, are the same tokens, and what they are read as differs in the places only.
-/

set_option autoImplicit false

namespace ObjectQuery

namespace Scan

/-- What can be written between tokens. -/
inductive Gap : List Char → Prop
  | nil : Gap []
  | newline {gap : List Char} (h : Gap gap) : Gap ('\n' :: gap)
  | blank {c : Char} {gap : List Char} (hc : isBlank c = true) (h : Gap gap) : Gap (c :: gap)
  | comment {content gap : List Char} (hline : '\n' ∉ content) (h : Gap gap) :
      Gap ('#' :: (content ++ '\n' :: gap))

/-- The tokens of a text as they are written in it. -/
def spelled (text : List Char) (ts : List Token) : List (List Char × Lexeme) :=
  ts.map fun t => (t.spelling text, t.lexeme)

/-- Whether characters are these written tokens with a gap behind each. Between two words there is
something. -/
inductive Laid : List (List Char × Lexeme) → List Char → Prop
  | nil : Laid [] []
  | cons {piece gap body : List Char} {l : Lexeme} {pieces : List (List Char × Lexeme)}
      (hgap : Gap gap)
      (hword : l.isWord = true → ∀ p ∈ pieces.head?, p.2.isWord = true → gap ≠ [])
      (h : Laid pieces body) : Laid ((piece, l) :: pieces) (piece ++ (gap ++ body))

/-- Whether characters are these written tokens with gaps before, between and behind them. -/
def Respaced (pieces : List (List Char × Lexeme)) (cs : List Char) : Prop :=
  ∃ gap body, Gap gap ∧ Laid pieces body ∧ cs = gap ++ body

section
variable {text cs gap body : List Char} {ls : List Lexeme} {pieces : List (List Char × Lexeme)}

theorem takeWhile_inComment {content : List Char} (hline : '\n' ∉ content) (cs : List Char) :
    (content ++ '\n' :: cs).takeWhile inComment = content := by
  have hall : ∀ c ∈ content, inComment c = true := by
    intro c hc
    rw [inComment, bne_iff_ne]
    rintro rfl
    exact hline hc
  rw [List.takeWhile_append_of_pos hall, List.takeWhile_cons_of_neg (by decide), List.append_nil]

theorem Reads.comment {content : List Char} (hline : '\n' ∉ content) (h : Reads cs ls) :
    Reads ('#' :: (content ++ '\n' :: cs)) ls := by
  intro offset line
  rw [scanFrom, if_neg (by decide), if_neg (by decide), if_pos rfl, takeWhile_inComment hline]
  simp only [List.drop_left]
  exact h.newline _ _

theorem Gap.reads (hgap : Gap gap) (h : Reads cs ls) : Reads (gap ++ cs) ls := by
  induction hgap with
  | nil => exact h
  | newline _ ih => exact ih.newline
  | blank hc _ ih => exact ih.blank hc
  | comment hline _ ih =>
    rw [List.cons_append, List.append_assoc, List.cons_append]
    exact ih.comment hline

/-- A gap ends a word. -/
theorem Gap.ends (hgap : Gap gap) : ∀ d ∈ gap.head?, Word.isPart d = false := by
  cases hgap with
  | nil => nofun
  | newline => rintro _ ⟨⟩; rfl
  | @blank c _ hc =>
    rintro _ ⟨⟩
    simp only [isBlank, Bool.or_eq_true, beq_iff_eq] at hc
    obtain ((rfl | rfl) | rfl) | rfl := hc <;> rfl
  | comment => rintro _ ⟨⟩; rfl

/-- Written tokens begin with the first one. -/
theorem Laid.exists_cons (h : Laid pieces body) (hpieces : ∀ p ∈ pieces, Spells p.1 p.2) :
    pieces = [] ∧ body = [] ∨ ∃ c tail, body = c :: tail ∧ c ≠ '\n' ∧
      ∃ p ∈ pieces.head?, Word.isPart c = p.2.isWord := by
  cases h with
  | nil => exact .inl ⟨rfl, rfl⟩
  | cons =>
    obtain ⟨c, tail, hpiece, hline, hpart⟩ := (hpieces _ List.mem_cons_self).exists_cons
    dsimp only at hpiece
    subst hpiece
    exact .inr ⟨c, _, rfl, hline, _, rfl, hpart⟩

/-- Written tokens are read as these tokens, whatever the gaps between them are. -/
theorem Laid.reads (h : Laid pieces body) (hpieces : ∀ p ∈ pieces, Spells p.1 p.2) :
    Reads body (pieces.map Prod.snd) := by
  induction h with
  | nil => exact reads_nil
  | @cons piece gap body l pieces hgap hword h ih =>
    obtain ⟨hpiece, hpieces⟩ := List.forall_mem_cons.mp hpieces
    refine hpiece.reads (fun hl d hd => ?_) (hgap.reads (ih hpieces))
    cases hgap with
    | nil =>
      obtain ⟨rfl, rfl⟩ | ⟨c, tail, rfl, _, p, hp, hpart⟩ := h.exists_cons hpieces
      · cases hd
      · cases hd
        rw [hpart, Bool.eq_false_iff]
        exact fun hp' => hword hl p hp hp' rfl
    | newline hgap => exact hgap.newline.ends d hd
    | blank hc hgap => exact (hgap.blank hc).ends d hd
    | comment hline hgap => exact (hgap.comment hline).ends d hd

theorem Respaced.reads (h : Respaced pieces cs) (hpieces : ∀ p ∈ pieces, Spells p.1 p.2) :
    Reads cs (pieces.map Prod.snd) := by
  obtain ⟨gap, body, hgap, hbody, rfl⟩ := h
  exact hgap.reads (hbody.reads hpieces)

theorem Respaced.newline (h : Respaced pieces cs) : Respaced pieces ('\n' :: cs) := by
  obtain ⟨gap, body, hgap, hbody, rfl⟩ := h
  exact ⟨'\n' :: gap, body, .newline hgap, hbody, rfl⟩

theorem Respaced.blank {c : Char} (hc : isBlank c = true) (h : Respaced pieces cs) :
    Respaced pieces (c :: cs) := by
  obtain ⟨gap, body, hgap, hbody, rfl⟩ := h
  exact ⟨c :: gap, body, .blank hc hgap, hbody, rfl⟩

/-- A comment joins the gap behind it, which begins with the newline that ends the comment. -/
theorem Respaced.comment {content : List Char} (hline : '\n' ∉ content)
    (hpieces : ∀ p ∈ pieces, Spells p.1 p.2) (h : Respaced pieces ('\n' :: cs)) :
    Respaced pieces ('#' :: (content ++ '\n' :: cs)) := by
  obtain ⟨gap, body, hgap, hbody, heq⟩ := h
  cases hgap with
  | nil =>
    obtain ⟨_, rfl⟩ | ⟨c, tail, rfl, hc, _⟩ := hbody.exists_cons hpieces
    · cases heq
    · exact absurd (List.cons.inj heq).1.symm hc
  | @newline gap hgap =>
    obtain rfl : cs = gap ++ body := (List.cons.inj heq).2
    refine ⟨_, body, .comment hline hgap, hbody, ?_⟩
    rw [List.cons_append, List.append_assoc, List.cons_append]
  | blank hc =>
    obtain rfl := (List.cons.inj heq).1
    exact absurd hc (by decide)
  | comment => exact absurd (List.cons.inj heq).1 (by decide)

theorem Respaced.lexeme {c : Char} {l : Lexeme} {more : Nat} (hl : Scan.lexeme c cs = .ok (l, more))
    (hpieces : ∀ p ∈ pieces, Spells p.1 p.2) (h : Respaced pieces (cs.drop more ++ ['\n'])) :
    Respaced ((c :: cs.take more, l) :: pieces) (c :: cs ++ ['\n']) := by
  obtain ⟨gap, body, hgap, hbody, heq⟩ := h
  refine ⟨[], _, .nil, .cons hgap (fun hword p hp hp' => ?_) hbody, ?_⟩
  · rintro rfl
    -- Without a gap the next word would begin where the scan has found that this one ends.
    obtain ⟨rfl, _⟩ | ⟨d, tail, rfl, _, p', hp'', hpart⟩ := hbody.exists_cons hpieces
    · cases hp
    · obtain rfl : p' = p := Option.some.inj (hp''.symm.trans hp)
      have hend := (spells_of_lexeme hl).2 hword
      rw [hp'] at hpart
      cases hdrop : cs.drop more with
      | nil =>
        rw [hdrop] at heq
        obtain rfl := (List.cons.inj heq).1
        exact absurd hpart (by decide)
      | cons e rest =>
        rw [hdrop] at heq hend
        obtain rfl := (List.cons.inj heq).1
        exact Bool.false_ne_true ((hend _ rfl).symm.trans hpart)
  · rw [← heq, List.cons_append, List.cons_append, ← List.append_assoc, List.take_append_drop,
      List.nil_append]

/-- In a text whose last line ends as well, a newline is behind every comment. -/
theorem comment_ends (cs : List Char) : '\n' ∉ cs.takeWhile inComment ∧
    ∃ rest, cs.drop (cs.takeWhile inComment).length ++ ['\n'] = '\n' :: rest ∧
      cs ++ ['\n'] = cs.takeWhile inComment ++ '\n' :: rest := by
  refine ⟨fun hmem => absurd (List.all_eq_true.mp List.all_takeWhile _ hmem) (by decide), ?_⟩
  have happend := List.takeWhile_append_dropWhile (p := inComment) (l := cs)
  have hend := List.head?_dropWhile_not inComment cs
  rw [drop_length_takeWhile]
  cases hdrop : cs.dropWhile inComment with
  | nil =>
    rw [hdrop, List.append_nil] at happend
    exact ⟨[], rfl, by rw [happend]⟩
  | cons d rest =>
    rw [hdrop] at happend hend
    obtain rfl : d = '\n' := by
      simpa [inComment] using hend
    refine ⟨rest ++ ['\n'], rfl, ?_⟩
    rw [← List.cons_append, ← List.append_assoc, happend]

theorem spells_spelled {start : Nat} {r : Scan} (h : Placed text start r) :
    ∀ p ∈ spelled text r.tokens, Spells p.1 p.2 := by
  intro p hp
  obtain ⟨t, ht, rfl⟩ := List.mem_map.mp hp
  exact (h.tokens t ht).2.spells.1

theorem respaced_scanFrom (offset line : Nat) (cs : List Char) (h : text.drop offset = cs)
    (hread : (scanFrom offset line cs).failure = none) :
    Respaced (spelled text (scanFrom offset line cs).tokens) (cs ++ ['\n']) := by
  induction offset, line, cs using scanFrom.induct with
  | case1 =>
    rw [scanFrom]
    exact ⟨['\n'], [], .newline .nil, .nil, rfl⟩
  | case2 offset line cs ih =>
    rw [scanFrom, if_pos rfl] at hread ⊢
    exact (ih (drop_add h 0) hread).newline
  | case3 offset line c cs hn hb ih =>
    rw [scanFrom, if_neg hn, if_pos hb] at hread ⊢
    exact (ih (drop_add h 0) hread).blank hb
  | case4 offset line cs comment hn hb ih =>
    rw [scanFrom, if_neg hn, if_neg hb, if_pos rfl] at hread ⊢
    have hrest := ih (drop_add h _) hread
    have hpieces := spells_spelled (placed_scanFrom _ line _ (drop_add h comment.length))
    obtain ⟨hline, rest, hbehind, hcs⟩ := comment_ends cs
    rw [hbehind] at hrest
    rw [List.cons_append, hcs]
    exact hrest.comment hline hpieces
  | case5 offset line c cs hn hb hc d hl =>
    rw [scanFrom, if_neg hn, if_neg hb, if_neg hc, hl] at hread
    cases hread
  | case6 offset line c cs hn hb hc l more hl ih =>
    rw [scanFrom, if_neg hn, if_neg hb, if_neg hc, hl] at hread ⊢
    have hrest := ih (drop_add h more) hread
    have hpieces := spells_spelled (placed_scanFrom _ line _ (drop_add h more))
    have hspelling : Token.spelling text ⟨l, offset, line⟩ = c :: cs.take more :=
      spelling_eq ⟨l, offset, line⟩ h hl
    rw [spelled, List.map_cons, hspelling]
    exact hrest.lexeme hl hpieces

end

end Scan

namespace Query

/-- A text is a way of writing its tokens with gaps, once its last line ends. Any other way to write
them has the same tokens, and is read as the text is. -/
theorem separators_insignificant {text : String} {ts : List Token} (h : tokenize text = .ok ts) :
    Scan.Respaced (Scan.spelled text.toList ts) (text.toList ++ ['\n']) ∧
      ∀ other : String, Scan.Respaced (Scan.spelled text.toList ts) other.toList →
        (∃ us, tokenize other = .ok us ∧ us.map Token.lexeme = ts.map Token.lexeme) ∧
          SameUpToPlaces (parse text) (parse other) := by
  obtain ⟨hread, rfl⟩ := tokenize_eq_ok.mp h
  refine ⟨Scan.respaced_scanFrom 0 1 text.toList rfl hread, fun other hother => ?_⟩
  obtain ⟨hread', hlexemes⟩ := hother.reads (Scan.spells_spelled (placed_scan text.toList)) 0 1
  have hsame : (scan other.toList).tokens.map Token.lexeme =
      (scan text.toList).tokens.map Token.lexeme := by
    rw [scan, hlexemes, Scan.spelled, List.map_map]
    rfl
  exact ⟨⟨_, tokenize_eq_ok.mpr ⟨hread', rfl⟩, hsame⟩,
    sameUpToPlaces_of_lexemes hread hread' hsame.symm⟩

/-- A call with separators within a string. -/
def compact : String := "find(\"a, b\" c)"

def compactTokens : List Token :=
  [⟨.atom (.name "find"), 0, 1⟩, ⟨.openParen, 4, 1⟩, ⟨.atom (.string "a, b"), 5, 1⟩,
    ⟨.atom (.name "c"), 12, 1⟩, ⟨.closeParen, 13, 1⟩]

/-- The same call with a quote in a comment, and a word right behind the string. -/
def spread : String := "find#\"\n(\"a, b\"c,)"

theorem compact_spread : tokenize compact = .ok compactTokens ∧
    Scan.Respaced (Scan.spelled compact.toList compactTokens) spread.toList ∧
      SameUpToPlaces (parse compact) (parse spread) := by
  have htokens : tokenize compact = .ok compactTokens := by decide +kernel
  have hspread : Scan.Respaced (Scan.spelled compact.toList compactTokens) spread.toList := by
    have hpieces : Scan.spelled compact.toList compactTokens =
        [("find".toList, .atom (.name "find")), (['('], .openParen),
          ("\"a, b\"".toList, .atom (.string "a, b")), (['c'], .atom (.name "c")),
          ([')'], .closeParen)] := by
      decide +kernel
    have hcomment : Scan.Gap ('#' :: (['"'] ++ '\n' :: [])) := .comment (by decide) .nil
    have hcomma : Scan.Gap [','] := .blank rfl .nil
    rw [hpieces]
    exact ⟨[], _, .nil, .cons hcomment (by decide) (.cons .nil (by decide) (.cons .nil (by decide)
      (.cons hcomma (by decide) (.cons .nil (by decide) .nil)))), by decide +kernel⟩
  exact ⟨htokens, hspread, ((separators_insignificant htokens).2 spread hspread).2⟩

end Query

end ObjectQuery

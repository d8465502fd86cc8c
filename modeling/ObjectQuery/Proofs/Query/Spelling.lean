import ObjectQuery.Proofs.Query.Errors

/-!
# How tokens are written

A lexeme is written as a string literal, as a bare word or as a mark. What a scan takes for a token
is written in one of these ways, and of a bare word nothing is left behind. In the other direction
the written characters are read as this lexeme wherever they stand, if what follows does not make a
word longer.
-/

set_option autoImplicit false

namespace ObjectQuery

/-- Whether a lexeme is a bare word: a name, a number or a literal. -/
def Lexeme.isWord : Lexeme → Bool
  | .atom (.string _) => false
  | .atom _ => true
  | _ => false

/-- The characters of a token in the text that it was read from. -/
def Token.spelling (text : List Char) (t : Token) : List Char :=
  match text.drop t.offset with
  | [] => []
  | c :: cs =>
    match Scan.lexeme c cs with
    | .ok (_, more) => c :: cs.take more
    | .error _ => [c]

namespace Scan

/-- Whether characters are one way to write a lexeme. -/
inductive Spells : List Char → Lexeme → Prop
  | string {body s : List Char} (hbody : ∀ rest, body? (body ++ '"' :: rest) = some body)
      (hline : '\n' ∉ body) (hs : Quoted.decode body = .ok s) :
      Spells ('"' :: (body ++ ['"'])) (.atom (.string (String.ofList s)))
  | word {w : List Char} (hw : Word.Bare w) : Spells w (.atom (Word.atom w))
  | mark {c : Char} {m : Lexeme} (hm : mark? c = some m) : Spells [c] m

section
variable {text cs piece rest : List Char} {c : Char} {l : Lexeme} {ls : List Lexeme} {more : Nat}

theorem take_length_takeWhile (p : Char → Bool) (cs : List Char) :
    cs.take (cs.takeWhile p).length = cs.takeWhile p :=
  (List.prefix_iff_eq_take.mp (List.takeWhile_prefix p)).symm

theorem drop_length_takeWhile (p : Char → Bool) (cs : List Char) :
    cs.drop (cs.takeWhile p).length = cs.dropWhile p := by
  have hdrop : (cs.takeWhile p ++ cs.dropWhile p).drop (cs.takeWhile p).length =
      cs.dropWhile p := List.drop_left
  rwa [List.takeWhile_append_dropWhile] at hdrop

/-- A string ends at the same quote whatever follows it, and on the line that it began on. -/
theorem body?_eq_some {body : List Char} (h : body? cs = some body) :
    '\n' ∉ body ∧ (∃ rest, cs = body ++ '"' :: rest) ∧
      ∀ rest, body? (body ++ '"' :: rest) = some body := by
  induction cs using body?.induct generalizing body with
  | case1 => cases h
  | case2 cs =>
    cases h
    exact ⟨List.not_mem_nil, ⟨cs, rfl⟩, fun _ => rfl⟩
  | case3 => cases h
  | case4 cs => simp [body?] at h
  | case5 c cs hc ih =>
    rw [body?_escape hc] at h
    obtain ⟨body, hbody, rfl⟩ := Option.map_eq_some_iff.mp h
    obtain ⟨hline, ⟨rest, rfl⟩, hread⟩ := ih hbody
    refine ⟨?_, ⟨rest, rfl⟩, fun rest => ?_⟩
    · simp [hline, Ne.symm hc]
    · rw [List.cons_append, List.cons_append, body?_escape hc, hread]
      rfl
  | case6 cs hq hb hn => simp [body?] at h
  | case7 c cs hq hb he hn ih =>
    have hescape : c ≠ '\\' := by
      rintro rfl
      cases cs with
      | nil => exact hb rfl rfl
      | cons d ds => exact he d ds rfl rfl
    rw [body?_plain hq hescape hn] at h
    obtain ⟨body, hbody, rfl⟩ := Option.map_eq_some_iff.mp h
    obtain ⟨hline, ⟨rest, rfl⟩, hread⟩ := ih hbody
    refine ⟨?_, ⟨rest, rfl⟩, fun rest => ?_⟩
    · simp [hline, Ne.symm hn]
    · rw [List.cons_append, body?_plain hq hescape hn, hread]
      rfl

theorem isWord_atom (w : List Char) : (Lexeme.atom (Word.atom w)).isWord = true := by
  rw [Word.atom]
  split
  · rfl
  · split <;> rfl

theorem mark?_eq_some {m : Lexeme} (h : mark? c = some m) :
    Word.isPart c = false ∧ c ≠ '\n' ∧ m.isWord = false := by
  simp only [mark?] at h
  repeat'
    split at h
    · cases h
      subst c
      exact ⟨rfl, by decide, rfl⟩
  cases h

/-- What is taken for a lexeme is one way to write it, and a word is taken as a whole. -/
theorem spells_of_lexeme (h : lexeme c cs = .ok (l, more)) : Spells (c :: cs.take more) l ∧
    (l.isWord = true → ∀ d ∈ (cs.drop more).head?, Word.isPart d = false) := by
  simp only [lexeme] at h
  split at h
  · rename_i hc
    subst hc
    split at h
    · cases h
    · rename_i body hbody
      obtain ⟨hline, ⟨rest, rfl⟩, hread⟩ := body?_eq_some hbody
      split at h
      · rename_i s hs
        cases h
        refine ⟨?_, fun hword => absurd hword Bool.false_ne_true⟩
        rw [List.take_length_add_append, List.take_one, List.head?_cons]
        exact .string hread hline hs
      · cases h
  · split at h
    · rename_i hw
      split at h
      · cases h
      · rename_i hconverted
        cases h
        rw [take_length_takeWhile, drop_length_takeWhile]
        refine ⟨.word ⟨joined_lexeme hw, Bool.eq_false_iff.mpr hconverted⟩, fun _ d hd => ?_⟩
        have hend := List.head?_dropWhile_not Word.isPart cs
        rwa [Option.mem_def.mp hd] at hend
    · split at h
      · rename_i m hm
        cases h
        refine ⟨.mark hm, fun hword => ?_⟩
        rw [(mark?_eq_some hm).2.2] at hword
        cases hword
      · cases h

/-- Written lexemes begin with a character of their kind, which is no newline. -/
theorem Spells.exists_cons (h : Spells piece l) :
    ∃ c tail, piece = c :: tail ∧ c ≠ '\n' ∧ Word.isPart c = l.isWord := by
  cases h with
  | string => exact ⟨'"', _, rfl, by decide, rfl⟩
  | word hw =>
    obtain ⟨c, tail, rfl⟩ := List.exists_cons_of_ne_nil hw.joined.ne_nil
    have hc := hw.joined.isPart c List.mem_cons_self
    refine ⟨c, tail, rfl, Word.ne_newline hc, ?_⟩
    rw [hc, isWord_atom]
  | @mark c m hm =>
    obtain ⟨hpart, hline, hword⟩ := mark?_eq_some hm
    exact ⟨c, [], rfl, hline, hpart.trans hword.symm⟩

theorem Spells.newline_not_mem (h : Spells piece l) : '\n' ∉ piece := by
  cases h with
  | string hbody hline hs => simp [hline]
  | word hw => exact fun hmem => Word.ne_newline (hw.joined.isPart _ hmem) rfl
  | mark hm =>
    obtain ⟨_, hline, _⟩ := mark?_eq_some hm
    simp [Ne.symm hline]

/-- A name is written as it is. -/
theorem Spells.name {n : String} (h : Spells piece (.atom (.name n))) : piece = n.toList := by
  generalize hl : Lexeme.atom (.name n) = l at h
  cases h with
  | string => cases hl
  | word hw =>
    have hatom : Word.atom piece = .name n := (Lexeme.atom.inj hl).symm
    rw [Word.atom] at hatom
    split at hatom
    · cases hatom
      exact String.toList_ofList.symm
    · split at hatom <;> cases hatom
  | mark hm =>
    subst hl
    cases (mark?_eq_some hm).2.2

/-- A written lexeme is read as it is, if what follows does not go on with the word. -/
theorem Spells.reads (h : Spells piece l)
    (hend : l.isWord = true → ∀ d ∈ rest.head?, Word.isPart d = false) (hrest : Reads rest ls) :
    Reads (piece ++ rest) (l :: ls) := by
  cases h with
  | @string body s hbody hline hs =>
    refine Reads.lexeme (by decide) (by decide) (by decide) ?_ hrest
    have htail : body ++ ['"'] ++ rest = body ++ '"' :: rest := by
      rw [List.append_assoc, List.singleton_append]
    simp only [Scan.lexeme, if_true, htail, hbody, hs, List.length_append, List.length_singleton]
  | word hw => exact hrest.word hw (hend (isWord_atom _))
  | mark hm => exact hrest.mark hm

theorem spelling_eq (t : Token) (hdrop : text.drop t.offset = c :: cs)
    (hl : lexeme c cs = .ok (t.lexeme, more)) : t.spelling text = c :: cs.take more := by
  simp only [Token.spelling, hdrop, hl]

/-- A token is written in a text from its offset on. -/
theorem ReadsAt.spells {t : Token} (h : ReadsAt text t.offset (.ok t.lexeme)) :
    Spells (t.spelling text) t.lexeme ∧ t.spelling text <+: text.drop t.offset := by
  obtain ⟨c, cs, hdrop, _, hread⟩ := h
  cases hl : lexeme c cs with
  | error d =>
    rw [hl] at hread
    cases hread
  | ok r =>
    obtain ⟨l, more⟩ := r
    rw [hl] at hread
    have hlexeme : l = t.lexeme := Except.ok.inj hread
    subst hlexeme
    rw [spelling_eq t hdrop hl, hdrop]
    refine ⟨(spells_of_lexeme hl).1, ?_⟩
    rw [List.cons_prefix_cons]
    exact ⟨rfl, List.take_prefix more cs⟩

theorem spells_of_mem {t : Token} (ht : t ∈ (scan text).tokens) :
    Spells (t.spelling text) t.lexeme ∧ t.spelling text <+: text.drop t.offset :=
  ((placed_scan text).tokens t ht).2.spells

end

end Scan

end ObjectQuery

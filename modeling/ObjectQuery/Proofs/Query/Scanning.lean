import ObjectQuery.Proofs.Query.Words
import ObjectQuery.Proofs.Text.Quoted
import ObjectQuery.Query.Scan

/-!
# Printed text scans

A text is scanned piece by piece: what follows a piece decides only where a word ends. Words and
strings that were printed scan as the atoms they are read as. In the other direction a scan gives
formed atoms only, whatever the text.
-/

set_option autoImplicit false

namespace ObjectQuery

/-- A mark, or an atom that can stand in a query. -/
def Lexeme.Formed : Lexeme → Prop
  | .atom a => a.Formed
  | _ => True

namespace Scan

/-- All of a text reads as tokens, and these are their lexemes. -/
def Reads (cs : List Char) (ls : List Lexeme) : Prop :=
  ∀ offset line, (scanFrom offset line cs).failure = none ∧
    (scanFrom offset line cs).tokens.map Token.lexeme = ls

theorem reads_nil : Reads [] [] := by
  intro offset line
  rw [scanFrom]
  exact ⟨rfl, rfl⟩

section
variable {cs : List Char} {ls : List Lexeme}

theorem Reads.newline (h : Reads cs ls) : Reads ('\n' :: cs) ls := by
  intro offset line
  rw [scanFrom, if_pos rfl]
  exact h _ _

theorem Reads.blank {c : Char} (hc : isBlank c = true) (h : Reads cs ls) : Reads (c :: cs) ls := by
  intro offset line
  have hn : c ≠ '\n' := by
    rintro rfl
    exact absurd hc (by decide)
  rw [scanFrom, if_neg hn, if_pos hc]
  exact h _ _

theorem Reads.spaces (n : Nat) (h : Reads cs ls) : Reads (List.replicate n ' ' ++ cs) ls := by
  induction n with
  | zero => exact h
  | succ n ih => exact ih.blank (by decide)

theorem Reads.lexeme {c : Char} {piece : List Char} {l : Lexeme} (hn : c ≠ '\n')
    (hb : isBlank c = false) (hc : c ≠ '#')
    (hl : Scan.lexeme c (piece ++ cs) = .ok (l, piece.length)) (h : Reads cs ls) :
    Reads (c :: piece ++ cs) (l :: ls) := by
  intro offset line
  obtain ⟨hf, ht⟩ := h (offset + 1 + piece.length) line
  rw [List.cons_append, scanFrom, if_neg hn, hb, if_neg (by decide), if_neg hc, hl]
  simp only [List.drop_left, List.map_cons]
  exact ⟨hf, congrArg (l :: ·) ht⟩

theorem Reads.mark {c : Char} {m : Lexeme} (hm : mark? c = some m) (h : Reads cs ls) :
    Reads (c :: cs) (m :: ls) := by
  have hc : c ∈ ['(', ')', '\x7b', '\x7d', ':'] := by
    simp only [mark?] at hm
    repeat'
      split at hm
      · rename_i hc
        rw [hc]
        decide
    cases hm
  have hall : ['(', ')', '\x7b', '\x7d', ':'].all (fun c => c != '\n' && !isBlank c && c != '#' &&
      c != '"' && !Word.isStart c && !(c == '-')) = true := by
    decide
  have hmark := List.all_eq_true.mp hall c hc
  simp only [Bool.and_eq_true, bne_iff_ne, Bool.not_eq_true'] at hmark
  obtain ⟨⟨⟨⟨⟨hn, hb⟩, hnumber⟩, hquote⟩, hs⟩, hd⟩ := hmark
  have hl : Scan.lexeme c ([] ++ cs) = .ok (m, ([] : List Char).length) := by
    simp only [Scan.lexeme, if_neg hquote, hs, hd, hm, Bool.false_and, Bool.or_self,
      Bool.false_eq_true, if_false, List.length_nil, List.nil_append]
  exact Reads.lexeme hn hb hnumber hl h

end

section
variable {rest : List Char} {ls : List Lexeme}

theorem Reads.word {w : List Char} (hw : Word.Bare w)
    (hend : ∀ c ∈ rest.head?, Word.isPart c = false) (h : Reads rest ls) :
    Reads (w ++ rest) (.atom (Word.atom w) :: ls) := by
  obtain ⟨hjoined, hconverted⟩ := hw
  cases w with
  | nil => exact hjoined.elim
  | cons c cs =>
    have hpart := hjoined.isPart c List.mem_cons_self
    obtain ⟨hc, hcs⟩ := hjoined
    have hplain : c ≠ '\n' ∧ isBlank c = false ∧ c ≠ '#' ∧ c ≠ '"' := by
      have hne {d : Char} (hd : Word.isPart d = false) : c ≠ d := by
        rintro rfl
        rw [hd] at hpart
        cases hpart
      refine ⟨hne rfl, ?_, hne rfl, hne rfl⟩
      simp only [isBlank, Bool.or_eq_false_iff, beq_eq_false_iff_ne]
      exact ⟨⟨⟨hne rfl, hne rfl⟩, hne rfl⟩, hne rfl⟩
    obtain ⟨hn, hb, hnumber, hquote⟩ := hplain
    have hstart : (Word.isStart c || (c == '-' && (cs ++ rest).head?.any Word.isStart)) = true := by
      cases cs with
      | nil =>
        simp only [List.head?_nil, Option.any_none, Bool.and_false, Bool.or_false] at hc
        rw [hc, Bool.true_or]
      | cons d ds => exact hc
    have htake : (cs ++ rest).takeWhile Word.isPart = cs := by
      rw [List.takeWhile_append_of_pos (List.all_eq_true.mp hcs)]
      cases rest with
      | nil => rw [List.takeWhile_nil, List.append_nil]
      | cons d ds =>
        rw [List.takeWhile_cons_of_neg (by rw [hend d rfl]; decide), List.append_nil]
    refine Reads.lexeme hn hb hnumber ?_ h
    simp only [Scan.lexeme, if_neg hquote, hstart, if_true, htake, hconverted, Bool.false_eq_true,
      if_false]

theorem body?_plain {c : Char} (hq : c ≠ '"') (hb : c ≠ '\\') (hn : c ≠ '\n') (cs : List Char) :
    body? (c :: cs) = (body? cs).map (c :: ·) := by
  rw [body?.eq_def]
  split
  · rename_i heq
    cases heq
  · rename_i heq
    exact absurd (List.cons.inj heq).1 hq
  · rename_i heq
    exact absurd (List.cons.inj heq).1 hb
  · rename_i heq
    exact absurd (List.cons.inj heq).1 hb
  · rename_i heq
    obtain ⟨rfl, rfl⟩ := List.cons.inj heq
    rw [if_neg hn]

theorem body?_escape {c : Char} (hn : c ≠ '\n') (cs : List Char) :
    body? ('\\' :: c :: cs) = (body? cs).map ('\\' :: c :: ·) := by
  rw [body?, if_neg hn]

theorem hexDigit_plain {n : Nat} (h : n < 16) :
    Quoted.hexDigit n ≠ '"' ∧ Quoted.hexDigit n ≠ '\\' ∧ Quoted.hexDigit n ≠ '\n' := by
  have hall : ∀ k : Fin 16, Quoted.hexDigit k ≠ '"' ∧ Quoted.hexDigit k ≠ '\\' ∧
      Quoted.hexDigit k ≠ '\n' := by
    decide
  exact hall ⟨n, h⟩

theorem body?_append_plain {piece : List Char}
    (h : ∀ c ∈ piece, c ≠ '"' ∧ c ≠ '\\' ∧ c ≠ '\n') (cs : List Char) :
    body? (piece ++ cs) = (body? cs).map (piece ++ ·) := by
  induction piece with
  | nil => exact Option.map_id.symm ▸ rfl
  | cons c piece ih =>
    obtain ⟨hq, hb, hn⟩ := h c List.mem_cons_self
    rw [List.cons_append, body?_plain hq hb hn, ih fun d hd => h d (List.mem_cons_of_mem c hd),
      Option.map_map]
    rfl

theorem body?_hexUnits (ns : List Nat) (cs : List Char) :
    body? ((ns.flatMap fun n => '\\' :: 'u' :: Quoted.hexUnit n) ++ cs)
      = (body? cs).map ((ns.flatMap fun n => '\\' :: 'u' :: Quoted.hexUnit n) ++ ·) := by
  induction ns with
  | nil => exact Option.map_id.symm ▸ rfl
  | cons n ns ih =>
    have hplain : ∀ c ∈ Quoted.hexUnit n, c ≠ '"' ∧ c ≠ '\\' ∧ c ≠ '\n' := by
      intro c hc
      simp only [Quoted.hexUnit, List.mem_cons, List.not_mem_nil, or_false] at hc
      rcases hc with rfl | rfl | rfl | rfl
      all_goals exact hexDigit_plain (Nat.mod_lt _ (by decide))
    rw [List.flatMap_cons, List.append_assoc, List.cons_append, List.cons_append,
      body?_escape (by decide), body?_append_plain hplain, ih, Option.map_map, Option.map_map]
    rfl

theorem body?_encodeChar (c : Char) (cs : List Char) :
    body? (Quoted.encodeChar c ++ cs) = (body? cs).map (Quoted.encodeChar c ++ ·) := by
  rcases Quoted.encodeChar_cases c with ⟨letter, he, _, hn, _⟩ | ⟨he, hq, hb, hc, _⟩ | he
  · rw [he]
    exact body?_escape hn cs
  · rw [he]
    refine body?_plain hq hb ?_ cs
    rintro rfl
    exact absurd hc (by decide)
  · rw [he]
    exact body?_hexUnits (Quoted.units c) cs

/-- A written string ends at the quote that was written for it. -/
theorem body?_encode (s rest : List Char) :
    body? (Quoted.encode s ++ '"' :: rest) = some (Quoted.encode s) := by
  induction s with
  | nil => rfl
  | cons c s ih =>
    simp only [Quoted.encode, List.flatMap_cons] at ih ⊢
    rw [List.append_assoc, body?_encodeChar, ih]
    rfl

theorem Reads.string (s : String) (h : Reads rest ls) :
    Reads ((Quoted.write s).toList ++ rest) (.atom (.string s) :: ls) := by
  have hwrite : (Quoted.write s).toList ++ rest
      = '"' :: (Quoted.encode s.toList ++ ['"']) ++ rest := by
    rw [Quoted.write, String.toList_ofList, List.cons_append]
  have hbody : body? (Quoted.encode s.toList ++ ['"'] ++ rest)
      = some (Quoted.encode s.toList) := by
    rw [List.append_assoc]
    exact body?_encode s.toList rest
  rw [hwrite]
  refine Reads.lexeme (by decide) (by decide) (by decide) ?_ h
  simp only [Scan.lexeme, if_true, hbody, Quoted.decode_encode, String.ofList_toList,
    List.length_append, List.length_singleton]

/-- The text of a formed atom scans as what it is read as. -/
theorem Reads.atom {a : Atom} (ha : a.Formed) (hend : ∀ c ∈ rest.head?, Word.isPart c = false)
    (h : Reads rest ls) : Reads (a.text.toList ++ rest) (.atom a.reread :: ls) := by
  by_cases hs : ∀ s, a ≠ .string s
  · obtain ⟨hbare, hatom⟩ := Atom.reads ha hs
    rw [← hatom]
    exact h.word hbare hend
  · obtain ⟨s, hs⟩ := not_forall.mp hs
    obtain rfl := not_not.mp hs
    exact h.string s

end

/-- The digits of an integer that was read can be converted back. -/
theorem converted_of_numeral? {w : List Char} {n : Int} (hw : Word.isOverlong w = false)
    (h : Word.numeral? w = some (.whole n)) : Word.isOverlong (toString n).toList = false := by
  obtain ⟨negative, hunsigned⟩ : ∃ negative,
      Word.unsigned? negative (Word.magnitude w) = some (.whole n) := by
    unfold Word.numeral? at h
    split at h
    · exact ⟨true, h⟩
    · rename_i hsign
      have hself : Word.magnitude w = w := by
        unfold Word.magnitude
        split
        · exact absurd rfl (hsign _)
        · rfl
      exact ⟨false, by rw [hself]; exact h⟩
  obtain ⟨hne, hdigits, rfl⟩ := Word.digits_of_unsigned? hunsigned
  have hvalue : (Binary64.withSign negative (digitsValue (Word.magnitude w))).natAbs
      = digitsValue (Word.magnitude w) := by
    cases negative <;> simp [Binary64.withSign]
  have hrepr := List.all_eq_true.mp (repr_digits (digitsValue (Word.magnitude w)))
  rw [Word.isOverlong, hdigits, Bool.true_and, decide_eq_false_iff_not] at hw
  rw [Word.isOverlong, toList_toString_int, hvalue, Word.magnitude_signed, Bool.and_eq_false_iff,
    decide_eq_false_iff_not]
  · have hlen := repr_length_le hne hdigits
    exact .inr (by omega)
  · exact Word.sign_not_head fun c hc => hrepr c (List.mem_of_mem_head? hc)

theorem formed_atom (w : List Char) (hw : Word.Bare w) : (Word.atom w).Formed := by
  simp only [Word.atom]
  split
  · rename_i hn
    simp only [Atom.Formed, String.toList_ofList]
    exact hn
  · rename_i hn
    split
    · rename_i n hnum
      cases n with
      | whole n => exact converted_of_numeral? hw.converted hnum
      | fraction x => trivial
    · rename_i hnum
      simp only [Atom.Formed, String.toList_ofList]
      exact ⟨hw, by simp only [Word.atom, hn, hnum, Bool.false_eq_true, if_false]⟩

theorem joined_lexeme {c : Char} {cs : List Char}
    (h : (Word.isStart c || (c == '-' && cs.head?.any Word.isStart)) = true) :
    Word.Joined (c :: cs.takeWhile Word.isPart) := by
  refine ⟨?_, List.all_takeWhile⟩
  cases cs with
  | nil => exact h
  | cons d ds =>
    rw [Bool.or_eq_true, Bool.and_eq_true] at h
    rcases h with h | ⟨h, hd⟩
    · rw [h, Bool.true_or]
    · have hd : Word.isStart d = true := hd
      rw [h, List.takeWhile_cons_of_pos (Word.isPart_of_isStart hd), List.head?_cons,
        Option.any_some, hd, Bool.and_self, Bool.or_true]

theorem formed_lexeme {c : Char} {cs : List Char} {l : Lexeme} {n : Nat}
    (h : lexeme c cs = .ok (l, n)) : l.Formed := by
  simp only [lexeme] at h
  split at h
  · split at h
    · cases h
    · split at h
      · cases h
        trivial
      · cases h
  · split at h
    · rename_i hw
      split at h
      · cases h
      · rename_i hconverted
        cases h
        exact formed_atom _ ⟨joined_lexeme hw, Bool.eq_false_iff.mpr hconverted⟩
    · split at h
      · rename_i m hm
        cases h
        cases l with
        | atom a =>
          simp only [mark?] at hm
          repeat'
            split at hm
            · cases hm
          cases hm
        | _ => trivial
      · cases h

/-- Only a word that is too long is refused for its length. -/
theorem overlong_lexeme {c : Char} {cs : List Char} {digits : Nat}
    (h : lexeme c cs = .error (.overlong digits)) :
    Word.isOverlong (c :: cs.takeWhile Word.isPart) = true := by
  simp only [lexeme] at h
  split at h
  · split at h
    · cases h
    · split at h <;> cases h
  · split at h
    · split at h
      · assumption
      · cases h
    · split at h <;> cases h

theorem formed_of_mem (offset line : Nat) (cs : List Char) :
    ∀ t ∈ (scanFrom offset line cs).tokens, t.lexeme.Formed := by
  induction offset, line, cs using scanFrom.induct with
  | case1 => simp [scanFrom]
  | case2 offset line cs ih =>
    rw [scanFrom, if_pos rfl]
    exact ih
  | case3 offset line c cs hn hb ih =>
    rw [scanFrom, if_neg hn, if_pos hb]
    exact ih
  | case4 offset line cs _ hn hb ih =>
    rw [scanFrom, if_neg hn, if_neg hb, if_pos rfl]
    exact ih
  | case5 offset line c cs hn hb hc d hl =>
    rw [scanFrom, if_neg hn, if_neg hb, if_neg hc, hl]
    simp
  | case6 offset line c cs hn hb hc l more hl ih =>
    rw [scanFrom, if_neg hn, if_neg hb, if_neg hc, hl]
    intro t ht
    rcases List.mem_cons.mp ht with rfl | ht
    · exact formed_lexeme hl
    · exact ih t ht

end Scan

end ObjectQuery

import Mathlib.Algebra.GroupWithZero.Nat
import Mathlib.Data.List.Induction
import ObjectQuery.Text.Location

/-!
# Lines of a text

The place of an offset, as it is found by walking over the characters before it, is what counting
says: so many lines end before it, and so many characters of its own line are before it. So the
place of a character is within the line that the character is in, and the place of the end is
directly behind the last line. The offset is found again from the place, by adding the column to the
lengths of the lines before it.
-/

set_option autoImplicit false

namespace ObjectQuery.Location

/-- The lines of a text, without the newlines between them. -/
def lines (text : List Char) : List (List Char) := text.splitOn '\n'

section
variable {text rest : List Char} {c : Char} {offset : Nat}

@[simp] theorem lines_nil : lines [] = [[]] := rfl

@[simp] theorem lines_newline (text : List Char) : lines ('\n' :: text) = [] :: lines text := by
  rw [lines, List.splitOn_cons_eq_if_modifyHead, if_pos (beq_self_eq_true _), lines]

theorem lines_cons (hc : c ≠ '\n') (text : List Char) :
    lines (c :: text) = (lines text).modifyHead (c :: ·) := by
  rw [lines, List.splitOn_cons_eq_if_modifyHead, if_neg (mt eq_of_beq hc), lines]

theorem exists_lines (text : List Char) : ∃ line more, lines text = line :: more :=
  List.exists_cons_of_ne_nil (List.splitOn_ne_nil _ text)

/-- What is written behind a text goes on with its last line, and that is where walking over the
text leads to. -/
theorem exists_lines_append (text : List Char) : ∃ (before : List (List Char)) (line : List Char),
    (∀ rest, lines (text ++ rest) = before ++ (lines rest).modifyHead (line ++ ·)) ∧
      text.foldl advance start = ⟨before.length + 1, line.length + 1⟩ := by
  induction text using List.reverseRecOn with
  | nil =>
    refine ⟨[], [], fun rest => ?_, rfl⟩
    obtain ⟨line, more, hlines⟩ := exists_lines rest
    simp [hlines]
  | append_singleton text c ih =>
    obtain ⟨before, line, hlines, hplace⟩ := ih
    by_cases hc : c = '\n'
    · subst hc
      refine ⟨before ++ [line], [], fun rest => ?_, ?_⟩
      · obtain ⟨next, more, hnext⟩ := exists_lines rest
        simp [hlines, hnext]
      · simp [hplace]
    · refine ⟨before, line ++ [c], fun rest => ?_, ?_⟩
      · obtain ⟨next, more, hnext⟩ := exists_lines rest
        simp [hlines, lines_cons hc, hnext]
      · simp [hplace, advance_of_ne _ hc]

/-- The place of an offset is in the line that the text before the offset ends with and the text
behind it goes on with. -/
theorem exists_lines_ofOffset (text : List Char) (offset : Nat) : ∃ before line next more,
    ofOffset text offset = ⟨before.length + 1, line.length + 1⟩ ∧
      lines (text.take offset) = before ++ [line] ∧ lines (text.drop offset) = next :: more ∧
      lines text = before ++ (line ++ next) :: more := by
  obtain ⟨before, line, hlines, hplace⟩ := exists_lines_append (text.take offset)
  obtain ⟨next, more, hnext⟩ := exists_lines (text.drop offset)
  have hbefore := hlines []
  have hall := hlines (text.drop offset)
  rw [List.append_nil, lines_nil, List.modifyHead_cons, List.append_nil] at hbefore
  rw [List.take_append_drop, hnext, List.modifyHead_cons] at hall
  exact ⟨before, line, next, more, hplace, hbefore, hnext, hall⟩

/-- Whether a character stands at a place of a text: in that line, at that column. -/
def IsAt (text : List Char) (c : Char) (here : Location) : Prop :=
  ∃ i j row, here = ⟨i + 1, j + 1⟩ ∧ (lines text)[i]? = some row ∧ row[j]? = some c

/-- Whether a place is directly behind the last line of a text. -/
def IsEnd (text : List Char) (here : Location) : Prop :=
  ∃ before line, lines text = before ++ [line] ∧ here = ⟨before.length + 1, line.length + 1⟩

/-- Whether characters are written from a place of a text on: in that line, from that column. -/
def Shows (text piece : List Char) (here : Location) : Prop :=
  ∃ i j row, here = ⟨i + 1, j + 1⟩ ∧ (lines text)[i]? = some row ∧ piece <+: row.drop j

section
variable {piece : List Char}

theorem lines_append (hpiece : '\n' ∉ piece) (rest : List Char) :
    lines (piece ++ rest) = (lines rest).modifyHead (piece ++ ·) := by
  obtain ⟨next, more, hnext⟩ := exists_lines rest
  induction piece with
  | nil => simp [hnext]
  | cons c piece ih =>
    obtain ⟨hc, hpiece⟩ := List.ne_and_not_mem_of_not_mem_cons hpiece
    rw [List.cons_append, lines_cons (Ne.symm hc), ih hpiece, hnext]
    rfl

theorem shows_ofOffset (h : piece <+: text.drop offset) (hpiece : '\n' ∉ piece) :
    Shows text piece (ofOffset text offset) := by
  obtain ⟨rest, hrest⟩ := h
  obtain ⟨before, line, next, more, hplace, _, hnext, htext⟩ := exists_lines_ofOffset text offset
  obtain ⟨next', more', hnext'⟩ := exists_lines rest
  rw [← hrest, lines_append hpiece, hnext', List.modifyHead_cons] at hnext
  obtain ⟨rfl, rfl⟩ := List.cons.inj hnext
  refine ⟨before.length, line.length, line ++ (piece ++ next'), hplace, ?_, ?_⟩
  · simp [htext]
  · rw [List.drop_left]
    exact List.prefix_append piece next'

theorem isAt_ofOffset (h : text.drop offset = c :: rest) (hc : c ≠ '\n') :
    IsAt text c (ofOffset text offset) := by
  have hprefix : [c] <+: text.drop offset := ⟨rest, h.symm⟩
  have hline : '\n' ∉ [c] := by simpa using Ne.symm hc
  obtain ⟨i, j, row, hplace, hrow, ⟨behind, hbehind⟩⟩ := shows_ofOffset hprefix hline
  refine ⟨i, j, row, hplace, hrow, ?_⟩
  rw [← List.head?_drop, ← hbehind]
  rfl

theorem isEnd_ofOffset (text : List Char) : IsEnd text (ofOffset text text.length) := by
  obtain ⟨before, line, _, _, hplace, hlines, _⟩ := exists_lines_ofOffset text text.length
  rw [List.take_length] at hlines
  exact ⟨before, line, hlines, hplace⟩

theorem foldl_advance (hpiece : '\n' ∉ piece) (here : Location) :
    piece.foldl advance here = ⟨here.line, here.column + piece.length⟩ := by
  induction piece generalizing here with
  | nil => rfl
  | cons c piece ih =>
    obtain ⟨hc, hpiece⟩ := List.ne_and_not_mem_of_not_mem_cons hpiece
    rw [List.foldl_cons, advance_of_ne here (Ne.symm hc), ih hpiece, List.length_cons]
    simp only [mk.injEq, true_and]
    omega

theorem ofOffset_add (text : List Char) (offset n : Nat) : ofOffset text (offset + n) =
    ((text.drop offset).take n).foldl advance (ofOffset text offset) := by
  rw [ofOffset, List.take_add, List.foldl_append, ofOffset]

theorem line_newline (h : text.drop offset = '\n' :: rest) :
    (ofOffset text (offset + 1)).line = (ofOffset text offset).line + 1 := by
  rw [ofOffset_add, h, List.take_succ_cons, List.take_zero, List.foldl_cons, List.foldl_nil,
    advance_newline]

/-- Without a newline, the line stays the same. -/
theorem line_add {n : Nat} (h : '\n' ∉ (text.drop offset).take n) :
    (ofOffset text (offset + n)).line = (ofOffset text offset).line := by
  rw [ofOffset_add, foldl_advance h]

end

/-- How many characters are before a line, counted from one: the lines before it, each with its
newline. -/
def lineStart (text : List Char) (line : Nat) : Nat :=
  (((lines text).take (line - 1)).map (·.length + 1)).sum

/-- The offset that a place stands for. -/
def toOffset (text : List Char) (here : Location) : Nat :=
  lineStart text here.line + here.column - 1

theorem sum_lines (text : List Char) : ((lines text).map (·.length + 1)).sum = text.length + 1 := by
  induction text with
  | nil => rfl
  | cons c text ih =>
    by_cases hc : c = '\n'
    · subst hc
      simp only [lines_newline, List.map_cons, List.length_nil, List.sum_cons, ih, List.length_cons]
      omega
    · obtain ⟨line, more, hlines⟩ := exists_lines text
      rw [hlines, List.map_cons, List.sum_cons] at ih
      rw [lines_cons hc, hlines, List.modifyHead_cons, List.map_cons, List.sum_cons]
      simp only [List.length_cons]
      omega

/-- A place stands for the offset that it is the place of. -/
theorem toOffset_ofOffset (h : offset ≤ text.length) :
    toOffset text (ofOffset text offset) = offset := by
  obtain ⟨before, line, next, more, hplace, hbefore, _, htext⟩ := exists_lines_ofOffset text offset
  have hsum : (before.map (·.length + 1)).sum + (line.length + 1) = offset + 1 := by
    have htake := sum_lines (text.take offset)
    rw [hbefore, List.length_take_of_le h, List.map_append, List.sum_append] at htake
    exact htake
  have hstart : lineStart text (before.length + 1) = (before.map (·.length + 1)).sum := by
    rw [lineStart, htext, Nat.add_sub_cancel, List.take_left]
  rw [hplace]
  show lineStart text (before.length + 1) + (line.length + 1) - 1 = offset
  rw [hstart]
  omega

end

end ObjectQuery.Location

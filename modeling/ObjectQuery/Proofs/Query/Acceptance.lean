import ObjectQuery.Proofs.Query.Errors

/-!
# What is accepted

A text is accepted if it has a derivation with arguments in order, and is then read as the one
derivation that it has. Every other text gives an error that callers are told of, but for one kind:
if the reader comes to an integer with more digits than can be converted, what is raised is the
error of the conversion. It comes that far if nothing is wrong before the integer. Arguments out of
order count only in calls that have ended there.
-/

set_option autoImplicit false

namespace ObjectQuery

open Outcome

theorem ParseError.isTold_of_ofOrder {e : ParseError} (h : e.cause.OfOrder) : e.isTold = true := by
  obtain ⟨cause, location, expected⟩ := e
  cases cause with
  | positionalAfterNamed | repeatedArgument => rfl
  | _ => exact h.elim

namespace Parsing

variable {place : Nat → Location}

theorem told_run (s : State) (ts : List Token) :
    FailsWith (fun e => e.isTold = true) (run place s ts) := by
  intro e he
  obtain ⟨_, t, _, u, _, _, hstep⟩ := run_eq_error he
  rcases failsWith_step u t.lexeme (place t.offset) e hstep with horder | ⟨expected, rfl⟩
  · exact e.isTold_of_ofOrder horder
  · rfl

theorem told_finish (s : State) (here : Location) :
    FailsWith (fun e => e.isTold = true) (s.finish here) := by
  intro e he
  rcases failsWith_finish s here e he with horder | ⟨expected, rfl⟩
  · exact e.isTold_of_ofOrder horder
  · rfl

end Parsing

namespace Query

/-- Whether the reader comes to an integer with too many digits: a derivation begins with the tokens
before it, and the calls that have ended in them have their arguments in order. -/
def Overlong (text : String) : Prop :=
  (∃ offset digits, (scan text.toList).failure = some (offset, .overlong digits)) ∧
    ∃ p : OpenTree, p.InOrder ∧ p.tokens = (scan text.toList).tokens

/-- The reader is stopped in this way only by a word that is such an integer. -/
theorem Overlong.exists_word {text : String} (h : Overlong text) :
    ∃ before w rest, text.toList = before ++ (w ++ rest) ∧ Word.isOverlong w = true := by
  obtain ⟨⟨offset, digits, hfailure⟩, _⟩ := h
  obtain ⟨_, ⟨c, rest, hdrop, _, hread⟩, _⟩ := (placed_scan text.toList).failure offset _ hfailure
  have hlexeme : Scan.lexeme c rest = .error (.overlong digits) := by
    cases hl : Scan.lexeme c rest with
    | ok read =>
      rw [hl] at hread
      cases hread
    | error d =>
      rw [hl] at hread
      cases hread
      rfl
  refine ⟨text.toList.take offset, c :: rest.takeWhile Word.isPart, rest.dropWhile Word.isPart, ?_,
    Scan.overlong_lexeme hlexeme⟩
  rw [List.cons_append, List.takeWhile_append_dropWhile, ← hdrop, List.take_append_drop]

theorem untold_iff_overlong (text : String) :
    (∃ e, parse text = .error e ∧ e.isTold = false) ↔ Overlong text := by
  have huntold {e : ParseError} : e.isTold = true → ¬e.isTold = false := by simp
  rw [Overlong, ← Parsing.exists_run_iff (Location.ofOffset text.toList)]
  simp only [parse]
  cases hrun : Parsing.run (.ofOffset text.toList) Parsing.initial (scan text.toList).tokens with
  | error e =>
    refine iff_of_false ?_ (by simp)
    rintro ⟨_, ⟨⟩, he⟩
    exact huntold (Parsing.told_run _ _ e hrun) he
  | ok s =>
    rw [ok_bind]
    split
    · rename_i offset d hfailure
      cases d with
      | overlong digits => exact iff_of_true ⟨_, rfl, rfl⟩ ⟨⟨offset, digits, hfailure⟩, s, rfl⟩
      | _ =>
        refine iff_of_false ?_ (by simp [hfailure])
        rintro ⟨_, ⟨⟩, ⟨⟩⟩
    · rename_i hreadable
      refine iff_of_false ?_ (by simp [hreadable])
      rintro ⟨e, hfinish, he⟩
      exact huntold (Parsing.told_finish _ _ e hfinish) he

/-- A text has at most one derivation. It is accepted if it has one with arguments in order, and is
then read as that derivation is; it is refused otherwise, and callers are told why unless an integer
with too many digits is in the way. -/
theorem parse_iff_derives (text : String) :
    (∀ ds es, Derives text ds → Derives text es → ds = es) ∧
      (∀ q, parse text = .ok q ↔
        ∃ ds, Derives text ds ∧ ds.InOrder ∧ ds.read (Location.ofOffset text.toList) = q) ∧
      ((∃ e, parse text = .error e) ↔ ¬∃ ds, Derives text ds ∧ ds.InOrder) ∧
      ((∃ e, parse text = .error e ∧ e.isTold = false) ↔ Overlong text) := by
  refine ⟨fun _ _ => Derives.unique, fun _ => parse_eq_ok_iff, ?_, untold_iff_overlong text⟩
  cases hparse : parse text with
  | ok q =>
    obtain ⟨ds, hds, horder, _⟩ := parse_eq_ok_iff.mp hparse
    exact ⟨nofun, fun h => absurd ⟨ds, hds, horder⟩ h⟩
  | error e =>
    refine ⟨fun _ => ?_, fun _ => ⟨e, rfl⟩⟩
    rintro ⟨ds, hds, horder⟩
    have hok := parse_eq_ok_iff.mpr ⟨ds, hds, horder, rfl⟩
    cases hparse.symm.trans hok

/-- A call with arguments of both kinds, and one with none. -/
def nested : String := "nodes(User, first: 2) \x7b friends() \x7d"

theorem nested_derives : ∃ ds, Derives nested ds ∧ ds.InOrder := by
  have haccepted : (parse nested).toOption.any (fun _ => true) = true := by decide +kernel
  obtain ⟨q, hq, _⟩ := exists_of_any haccepted
  obtain ⟨ds, hds, horder, _⟩ := ((parse_iff_derives nested).2.1 q).mp hq
  exact ⟨ds, hds, horder⟩

/-- A call with one argument, an integer of so many digits. -/
def counting (digits : Nat) : String :=
  String.ofList ('a' :: '(' :: (List.replicate digits '1' ++ [')']))

theorem scan_counting {digits : Nat} (h : Word.maxDigits < digits) :
    scan (counting digits).toList =
      ⟨[⟨.atom (.name "a"), 0, 1⟩, ⟨.openParen, 1, 1⟩], some (2, .overlong digits)⟩ := by
  obtain ⟨n, rfl⟩ : ∃ n, digits = n + 1 := ⟨digits - 1, by omega⟩
  have htail : (List.replicate n '1' ++ [')']).takeWhile Word.isPart = List.replicate n '1' := by
    rw [List.takeWhile_append_of_pos (fun c hc => by rw [List.eq_of_mem_replicate hc]; rfl)]
    exact List.append_nil _
  have hall : (List.replicate n '1').all Char.isDigit = true :=
    List.all_eq_true.mpr fun c hc => by rw [List.eq_of_mem_replicate hc]; rfl
  have hword : Word.isOverlong ('1' :: List.replicate n '1') = true := by
    simp [Word.isOverlong, Word.magnitude, hall, h]
  have hlexeme : Scan.lexeme '1' (List.replicate n '1' ++ [')']) = .error (.overlong (n + 1)) := by
    simp [Scan.lexeme, htail, hword, Word.magnitude, Word.isStart]
  have hname (cs : List Char) : Scan.lexeme 'a' ('(' :: cs) = .ok (.atom (.name "a"), 0) := rfl
  have hopen (cs : List Char) : Scan.lexeme '(' cs = .ok (.openParen, 0) := rfl
  rw [counting, String.toList_ofList, scan, List.replicate_succ, List.cons_append]
  rw [Scan.scanFrom, if_neg (by decide), if_neg (by decide), if_neg (by decide), hname]
  simp only [List.drop_zero]
  rw [Scan.scanFrom, if_neg (by decide), if_neg (by decide), if_neg (by decide), hopen]
  simp only [List.drop_zero]
  rw [Scan.scanFrom, if_neg (by decide), if_neg (by decide), if_neg (by decide), hlexeme]

theorem counting_not_told : ¬((∃ q, parse (counting 5000) = .ok q) ∨
    ∃ e, parse (counting 5000) = .error e ∧ e.isTold = true) := by
  have hoverlong : Overlong (counting 5000) := by
    rw [Overlong, scan_counting (by decide)]
    refine ⟨⟨2, 5000, rfl⟩, ⟨[], .within none (.inside ⟨⟨"a", 0, 1⟩, ⟨(), 1, 1⟩, []⟩)⟩, ?_, rfl⟩
    exact ⟨nofun, nofun, trivial⟩
  obtain ⟨e, he, huntold⟩ := (untold_iff_overlong _).mpr hoverlong
  rintro (⟨q, hq⟩ | ⟨e', he', htold⟩)
  · cases hq.symm.trans he
  · cases he'.symm.trans he
    rw [huntold] at htold
    cases htold

end Query

end ObjectQuery

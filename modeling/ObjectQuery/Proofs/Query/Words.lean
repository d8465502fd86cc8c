import ObjectQuery.Proofs.Number.Reading
import ObjectQuery.Query.Printing

/-!
# Words read back

The text of a name, a number or a literal is a word, and the word is that name, number or literal
again. The exceptions are a number without digits, whose text is a literal, and an integer with more
digits than can be converted.
-/

set_option autoImplicit false

namespace ObjectQuery

namespace Word

theorem isStart_of_isDigit {c : Char} (h : c.isDigit = true) : isStart c = true := by
  simp only [isStart, Char.isAlphanum, h, Bool.or_true, Bool.true_or]

theorem isPart_of_isStart {c : Char} (h : isStart c = true) : isPart c = true := by
  simp only [isPart, h, Bool.true_or]

/-- Characters that stand together as one word if no part of a word follows. -/
def Joined : List Char → Prop
  | [] => False
  | c :: cs =>
    (isStart c || (c == '-' && cs.head?.any isStart)) = true ∧ cs.all isPart = true

/-- Characters that are read as one word if no part of a word follows. -/
structure Bare (w : List Char) : Prop where
  joined : Joined w
  converted : isOverlong w = false

theorem Joined.ne_nil {w : List Char} (hw : Joined w) : w ≠ [] := by
  rintro rfl
  exact hw

theorem Joined.isPart {w : List Char} (hw : Joined w) : ∀ c ∈ w, isPart c = true := by
  cases w with
  | nil => exact hw.elim
  | cons c cs =>
    obtain ⟨hstart, hparts⟩ := hw
    refine List.forall_mem_cons.mpr ⟨?_, List.all_eq_true.mp hparts⟩
    rw [Bool.or_eq_true, Bool.and_eq_true] at hstart
    simp only [Word.isPart, Bool.or_eq_true]
    exact hstart.imp id And.left

theorem ne_newline {c : Char} (hc : isPart c = true) : c ≠ '\n' := by
  rintro rfl
  exact absurd hc (by decide)

theorem joined_of_starts {cs : List Char} (hne : cs ≠ []) (h : ∀ c ∈ cs, isStart c = true) :
    Joined cs := by
  obtain ⟨c, cs, rfl⟩ := List.exists_cons_of_ne_nil hne
  refine ⟨?_, List.all_eq_true.mpr fun d hd => isPart_of_isStart (h d (List.mem_cons_of_mem c hd))⟩
  rw [h c List.mem_cons_self, Bool.true_or]

theorem joined_signed (negative : Bool) {cs : List Char} (hne : cs ≠ [])
    (h : ∀ c ∈ cs, isStart c = true) : Joined ((if negative then ['-'] else []) ++ cs) := by
  cases negative with
  | false => exact joined_of_starts hne h
  | true =>
    obtain ⟨c, cs, rfl⟩ := List.exists_cons_of_ne_nil hne
    refine ⟨?_, List.all_eq_true.mpr fun d hd => isPart_of_isStart (h d hd)⟩
    have hc : isStart c = true := h c List.mem_cons_self
    show (isStart '-' || isStart c) = true
    rw [hc, Bool.or_true]

theorem isNameStart_of_isDigit {c : Char} (h : c.isDigit = true) : isNameStart c = false := by
  simp only [Char.isDigit, Bool.and_eq_true, decide_eq_true_eq] at h
  have hle := UInt32.le_iff_toNat_le.mp h.2
  cases hs : isNameStart c with
  | false => rfl
  | true =>
    rw [isNameStart, Bool.or_eq_true, beq_iff_eq] at hs
    rcases hs with halpha | rfl
    · have hge : 'A'.val ≤ c.val := by
        rcases Bool.or_eq_true_iff.mp halpha with hupper | hlower
        · exact (of_decide_eq_true hupper : 'A'.val ≤ c.val ∧ c.val ≤ 'Z'.val).1
        · have hge : 'a'.val ≤ c.val := of_decide_eq_true (Bool.and_eq_true_iff.mp hlower).1
          exact UInt32.le_trans (by decide) hge
      exact absurd (Nat.le_trans (UInt32.le_iff_toNat_le.mp hge) hle) (by decide)
    · exact absurd hle (by decide)

theorem magnitude_eq_self {cs : List Char} (h : '-' ∉ cs.head?) : magnitude cs = cs := by
  unfold magnitude
  split
  · exact absurd rfl h
  · rfl

theorem magnitude_signed (negative : Bool) {cs : List Char} (h : '-' ∉ cs.head?) :
    magnitude ((if negative then ['-'] else []) ++ cs) = cs := by
  cases negative with
  | true => rfl
  | false => exact magnitude_eq_self h

/-- A word is read, however long it is, if it is not all digits. -/
theorem isOverlong_of_mem {cs : List Char} {c : Char} (h : c ∈ magnitude cs)
    (hc : c.isDigit = false) : isOverlong cs = false := by
  have hall : (magnitude cs).all Char.isDigit = false := by
    rw [List.all_eq_false]
    exact ⟨c, h, by rw [hc]; exact Bool.false_ne_true⟩
  rw [isOverlong, hall, Bool.false_and]

theorem bare_of_isName {cs : List Char} (h : isName cs = true) : Bare cs := by
  cases cs with
  | nil => cases h
  | cons c cs =>
    simp only [isName, Bool.and_eq_true, List.all_eq_true] at h
    have hsign : '-' ∉ (c :: cs).head? := by
      rintro ⟨⟩
      exact absurd h.1 (by decide)
    have hmem : c ∈ magnitude (c :: cs) := by
      rw [magnitude_eq_self hsign]
      exact List.mem_cons_self
    have hdigit : c.isDigit = false := by
      cases hd : c.isDigit with
      | false => rfl
      | true => exact absurd h.1 (by rw [isNameStart_of_isDigit hd]; decide)
    refine ⟨joined_of_starts (List.cons_ne_nil c cs) ?_, isOverlong_of_mem hmem hdigit⟩
    intro d hd
    have hpart : isNamePart d = true := by
      rcases List.mem_cons.mp hd with rfl | hd
      · have hc := h.1
        simp only [isNameStart, isNamePart, Char.isAlphanum, Bool.or_eq_true] at hc ⊢
        rcases hc with hc | hc
        · exact .inl (.inl hc)
        · exact .inr hc
      · exact h.2 d hd
    simp only [isNamePart, isStart, Bool.or_eq_true] at hpart ⊢
    exact .inl hpart

theorem sign_not_head {cs : List Char} (h : ∀ c ∈ cs.head?, c.isDigit = true) :
    '-' ∉ cs.head? :=
  fun hmem => absurd (h '-' hmem) (by decide)

/-- A sign in front of a digit is read by itself. -/
theorem numeral?_signed (negative : Bool) {cs : List Char} (hne : cs ≠ [])
    (hd : ∀ c ∈ cs.head?, c.isDigit = true) :
    numeral? ((if negative then ['-'] else []) ++ cs) = unsigned? negative cs := by
  cases negative with
  | true => rfl
  | false =>
    obtain ⟨c, cs, rfl⟩ := List.exists_cons_of_ne_nil hne
    have hc : c.isDigit = true := hd c rfl
    simp only [Bool.false_eq_true, if_false, List.nil_append, numeral?]
    split
    · rename_i heq
      rw [(List.cons.inj heq).1] at hc
      exact absurd hc (by decide)
    · rfl

theorem isName_signed (negative : Bool) {cs : List Char} (hne : cs ≠ [])
    (hd : ∀ c ∈ cs.head?, c.isDigit = true) :
    isName ((if negative then ['-'] else []) ++ cs) = false := by
  obtain ⟨c, cs, rfl⟩ := List.exists_cons_of_ne_nil hne
  have hc : c.isDigit = true := hd c rfl
  cases negative with
  | true => rfl
  | false =>
    simp only [Bool.false_eq_true, if_false, List.nil_append, isName, isNameStart_of_isDigit hc,
      Bool.false_and]

/-- A word that begins with a digit, after a sign or not, and is a numeral. -/
theorem atom_signed (negative : Bool) {cs : List Char} {n : Numeral} (hne : cs ≠ [])
    (hd : ∀ c ∈ cs.head?, c.isDigit = true) (hn : unsigned? negative cs = some n) :
    atom ((if negative then ['-'] else []) ++ cs) = .number n := by
  simp only [atom, isName_signed negative hne hd, Bool.false_eq_true, if_false,
    numeral?_signed negative hne hd, hn]

end Word

theorem toList_toString_int (n : Int) :
    (toString n).toList = (if decide (n < 0) then ['-'] else []) ++ n.natAbs.repr.toList := by
  cases n with
  | ofNat m => rfl
  | negSucc m =>
    have hneg : decide (Int.negSucc m < 0) = true := decide_eq_true (Int.negSucc_lt_zero m)
    rw [hneg]
    exact String.toList_append

/-- What the text of an atom reads as. -/
def Atom.reread : Atom → Atom
  | .number (.fraction x) =>
    if x.isFinite then .number (.fraction x) else .literal (String.ofList (Layout.query.number x))
  | a => a

/-- Whether an atom other than a string can stand in a query: its text is a word, and means it. -/
def Atom.Formed : Atom → Prop
  | .name s => Word.isName s.toList = true
  | .literal s => Word.Bare s.toList ∧ Word.atom s.toList = .literal s
  | .number (.whole n) => Word.isOverlong (toString n).toList = false
  | .number (.fraction _) | .string _ => True

namespace Word

theorem whole_reads (n : Int) :
    Joined (toString n).toList ∧ atom (toString n).toList = .number (.whole n) := by
  rw [toList_toString_int]
  have hdigits := repr_digits n.natAbs
  have hne := List.length_pos_iff.mp (repr_length_pos n.natAbs)
  have hall := List.all_eq_true.mp hdigits
  have hread := unsigned?_digits (decide (n < 0)) hne hdigits
  rw [digitsValue_repr] at hread
  have hsign : Binary64.withSign (decide (n < 0)) n.natAbs = n := by
    by_cases h : n < 0
    · simp only [Binary64.withSign, h, decide_true, if_true]
      omega
    · simp only [Binary64.withSign, h, decide_false, Bool.false_eq_true, if_false]
      omega
  rw [hsign] at hread
  exact ⟨joined_signed _ hne fun c hc => isStart_of_isDigit (hall c hc),
    atom_signed _ hne (fun c hc => hall c (List.mem_of_mem_head? hc)) hread⟩

theorem finite_reads {x : Binary64} (hx : x.isFinite = true) :
    Bare (Layout.query.number x) ∧ atom (Layout.query.number x) = .number (.fraction x) := by
  cases x with
  | nan => cases hx
  | signed negative rank =>
    have hlt : rank.val < Binary64.infinite := of_decide_eq_true hx
    have hrank : Binary64.nearest (Binary64.shortest rank).numerator
        (Binary64.shortest rank).denominator = rank := by
      apply Fin.ext
      rw [← Decimal.rank_eq]
      exact Binary64.shortest_rank (Nat.le_of_lt hlt)
    obtain ⟨whole, fraction, hp, htext⟩ := Layout.exists_pointed (Binary64.shortest rank)
    have hnumber : Layout.query.number (.signed negative rank)
        = (if negative then ['-'] else []) ++ (whole ++ '.' :: fraction) := by
      rw [← htext]
      simp only [Layout.number, hlt, if_true]
      rfl
    have hread := unsigned?_pointed negative hp
    rw [hrank] at hread
    have hdigits := List.all_eq_true.mp hp.digits
    have hne : whole ++ '.' :: fraction ≠ [] :=
      List.append_ne_nil_of_right_ne_nil _ (List.cons_ne_nil _ _)
    have hhead : ∀ c ∈ (whole ++ '.' :: fraction).head?, c.isDigit = true := by
      intro c hc
      rw [List.head?_append, List.head?_eq_some_head hp.before, Option.some_or,
        ← List.head?_eq_some_head] at hc
      exact hdigits c (List.mem_append_left _ (List.mem_of_mem_head? hc))
    have hpoint :
        '.' ∈ magnitude ((if negative then ['-'] else []) ++ (whole ++ '.' :: fraction)) := by
      rw [magnitude_signed negative (sign_not_head hhead)]
      exact List.mem_append_right _ List.mem_cons_self
    rw [hnumber]
    refine ⟨⟨joined_signed negative hne ?_, isOverlong_of_mem hpoint rfl⟩,
      atom_signed negative hne hhead hread⟩
    intro c hc
    rcases List.mem_append.mp hc with hc | hc
    · exact isStart_of_isDigit (hdigits c (List.mem_append_left _ hc))
    · rcases List.mem_cons.mp hc with rfl | hc
      · decide
      · exact isStart_of_isDigit (hdigits c (List.mem_append_right _ hc))

theorem infinite_reads {x : Binary64} (hx : x.isFinite = false) :
    Bare (Layout.query.number x) ∧
      atom (Layout.query.number x) = .literal (String.ofList (Layout.query.number x)) := by
  have hcases : Layout.query.number x ∈
      ["NaN.0".toList, "Infinity.0".toList, "-Infinity.0".toList] := by
    cases x with
    | nan => exact List.mem_cons_self
    | signed negative rank =>
      have hle : ¬ rank.val < Binary64.infinite := of_decide_eq_false hx
      simp only [Layout.number, hle, if_false]
      cases negative with
      | false => exact .tail _ (.head _)
      | true => exact .tail _ (.tail _ (.head _))
  generalize Layout.query.number x = cs at hcases
  simp only [List.mem_cons, List.not_mem_nil, or_false] at hcases
  rcases hcases with rfl | rfl | rfl
  · exact ⟨⟨⟨rfl, rfl⟩, rfl⟩, rfl⟩
  · exact ⟨⟨⟨rfl, rfl⟩, rfl⟩, rfl⟩
  · exact ⟨⟨⟨rfl, rfl⟩, rfl⟩, rfl⟩

end Word

/-- The text of a formed atom is a word, unless it is a string. -/
theorem Atom.reads {a : Atom} (ha : a.Formed) (hs : ∀ s, a ≠ .string s) :
    Word.Bare a.text.toList ∧ Word.atom a.text.toList = a.reread := by
  cases a with
  | name s =>
    refine ⟨Word.bare_of_isName ha, ?_⟩
    simp only [text, Word.atom, show Word.isName s.toList = true from ha, if_true,
      String.ofList_toList, reread]
  | number n =>
    cases n with
    | whole n =>
      obtain ⟨hjoined, hatom⟩ := Word.whole_reads n
      exact ⟨⟨hjoined, ha⟩, hatom⟩
    | fraction x =>
      simp only [text, Numeral.text, String.toList_ofList, reread]
      cases hx : x.isFinite with
      | true => exact Word.finite_reads hx
      | false => exact Word.infinite_reads hx
  | string s => exact absurd rfl (hs s)
  | literal s => exact ha

theorem Atom.formed_reread {a : Atom} (ha : a.Formed) : a.reread.Formed := by
  cases a with
  | name s => exact ha
  | number n =>
    cases n with
    | whole n => exact ha
    | fraction x =>
      simp only [reread]
      cases hx : x.isFinite with
      | true => trivial
      | false =>
        obtain ⟨hb, hw⟩ := Word.infinite_reads hx
        simp only [Bool.false_eq_true, if_false, Formed, String.toList_ofList]
        exact ⟨hb, hw⟩
  | string s => trivial
  | literal s => exact ha

end ObjectQuery

import ObjectQuery.Text.Quoted

/-!
# Quoted strings read back

Every character is written as an escape of its own, as itself or as its units, and each of these
reads back; joining the units then gives the character. So `decode` undoes `encode`.
-/

set_option autoImplicit false

namespace ObjectQuery.Quoted

/-- A character that one unit writes is not half of a pair. -/
theorem not_half {c : Char} (h : c.toNat < 0x10000) :
    isHighUnit c.toNat = false ∧ isLowUnit c.toNat = false := by
  have hv : c.toNat < 0xd800 ∨ (0xdfff < c.toNat ∧ c.toNat < 0x110000) := c.valid
  constructor
  · simp only [isHighUnit, Bool.and_eq_false_iff, decide_eq_false_iff_not]
    omega
  · simp only [isLowUnit, Bool.and_eq_false_iff, decide_eq_false_iff_not]
    omega

theorem units_lt {c : Char} {n : Nat} (h : n ∈ units c) : n < 0x10000 := by
  have hv : c.toNat < 0xd800 ∨ (0xdfff < c.toNat ∧ c.toNat < 0x110000) := c.valid
  simp only [units] at h
  split at h
  · rw [List.mem_singleton.mp h]
    assumption
  · simp only [List.mem_cons, List.not_mem_nil, or_false] at h
    omega

theorem ofUnits_units_append (c : Char) (ns : List Nat) :
    ofUnits (units c ++ ns) = c :: ofUnits ns := by
  simp only [units]
  split
  · rename_i h
    obtain ⟨hhigh, hlow⟩ := not_half h
    have hone : ofUnit c.toNat = c := by
      simp only [ofUnit, hhigh, hlow, Bool.or_self, Bool.false_eq_true, if_false, Char.ofNat_toNat]
    cases ns with
    | nil => simp only [List.cons_append, List.nil_append, ofUnits, hone]
    | cons n ns =>
      simp only [List.cons_append, List.nil_append, ofUnits, hhigh, Bool.false_and,
        Bool.false_eq_true, if_false, hone]
  · rename_i h
    have hv : c.toNat < 0xd800 ∨ (0xdfff < c.toNat ∧ c.toNat < 0x110000) := c.valid
    have hhigh : isHighUnit (0xd800 + (c.toNat - 0x10000) / 0x400) = true := by
      simp only [isHighUnit, Bool.and_eq_true, decide_eq_true_eq]
      omega
    have hlow : isLowUnit (0xdc00 + (c.toNat - 0x10000) % 0x400) = true := by
      simp only [isLowUnit, Bool.and_eq_true, decide_eq_true_eq]
      omega
    have hsum : 0x10000 + (0xd800 + (c.toNat - 0x10000) / 0x400 - 0xd800) * 0x400
        + (0xdc00 + (c.toNat - 0x10000) % 0x400 - 0xdc00) = c.toNat := by
      omega
    simp only [List.cons_append, List.nil_append, ofUnits, hhigh, hlow, Bool.and_self, if_true,
      hsum, Char.ofNat_toNat]

theorem ofUnits_units (cs : List Char) : ofUnits (cs.flatMap units) = cs := by
  induction cs with
  | nil => rfl
  | cons c cs ih => rw [List.flatMap_cons, ofUnits_units_append, ih]

theorem hexValue?_hexDigit {n : Nat} (h : n < 16) : hexValue? (hexDigit n) = some n := by
  have hall : ∀ k : Fin 16, hexValue? (hexDigit k) = some k.val := by decide
  exact hall ⟨n, h⟩

theorem decodeUnits_hexUnit {n : Nat} (h : n < 0x10000) (rest : List Char) :
    decodeUnits ('\\' :: 'u' :: hexUnit n ++ rest) = (n :: ·) <$> decodeUnits rest := by
  have hunit : hexUnit? (hexDigit (n / 4096 % 16)) (hexDigit (n / 256 % 16))
      (hexDigit (n / 16 % 16)) (hexDigit (n % 16)) = some n := by
    simp only [hexUnit?, hexValue?_hexDigit (Nat.mod_lt _ (by decide : 0 < 16)),
      Option.bind_eq_bind, Option.bind_some, Option.pure_def, Option.some.injEq]
    omega
  simp only [hexUnit, List.cons_append, List.nil_append, decodeUnits, hunit]

theorem decodeUnits_hexUnits (ns : List Nat) (hns : ∀ n ∈ ns, n < 0x10000) (rest : List Char) :
    decodeUnits ((ns.flatMap fun n => '\\' :: 'u' :: hexUnit n) ++ rest)
      = (ns ++ ·) <$> decodeUnits rest := by
  induction ns with
  | nil => exact (id_map (decodeUnits rest)).symm
  | cons n ns ih =>
    rw [List.flatMap_cons, List.append_assoc, decodeUnits_hexUnit (hns n List.mem_cons_self),
      ih fun m hm => hns m (List.mem_cons_of_mem n hm), Functor.map_map]
    rfl

/-- How a character is written. -/
theorem encodeChar_cases (c : Char) :
    (∃ letter, encodeChar c = ['\\', letter] ∧ letter ≠ 'u' ∧ letter ≠ '\n' ∧
      unescape? letter = some c ∧ units c = [c.toNat]) ∨
    (encodeChar c = [c] ∧ c ≠ '"' ∧ c ≠ '\\' ∧ ' ' ≤ c ∧ units c = [c.toNat]) ∨
    encodeChar c = (units c).flatMap fun n => '\\' :: 'u' :: hexUnit n := by
  cases hs : shortEscape? c with
  | some letter =>
    refine .inl ⟨letter, by simp only [encodeChar, hs], ?_⟩
    simp only [shortEscape?] at hs
    repeat'
      split at hs
      · rename_i hc
        subst hc
        obtain rfl := Option.some.inj hs
        decide
    cases hs
  | none =>
    simp only [encodeChar, hs]
    split
    · rename_i h
      refine .inr (.inl ⟨rfl, ?_, ?_, h.1, ?_⟩)
      · rintro rfl
        exact absurd hs (by decide)
      · rintro rfl
        exact absurd hs (by decide)
      · have hle : c.toNat ≤ '~'.toNat := h.2
        have htilde : '~'.toNat = 126 := rfl
        simp only [units]
        rw [if_pos (by omega)]
    · exact .inr (.inr rfl)

theorem decodeUnits_escape {letter c : Char} (hu : letter ≠ 'u') (h : unescape? letter = some c)
    (rest : List Char) :
    decodeUnits ('\\' :: letter :: rest) = (c.toNat :: ·) <$> decodeUnits rest := by
  rw [decodeUnits.eq_def]
  split
  · rename_i heq
    cases heq
  · rename_i heq
    cases heq
  · rename_i heq
    exact absurd (List.cons.inj (List.cons.inj heq).2).1 hu
  · rename_i heq
    obtain ⟨rfl, rfl⟩ := List.cons.inj (List.cons.inj heq).2
    simp only [h]
  · rename_i hne heq
    obtain ⟨hc, hrest⟩ := List.cons.inj heq
    exact absurd hrest.symm (hne letter rest hc.symm)

theorem decodeUnits_plain {c : Char} (hb : c ≠ '\\') (hc : ' ' ≤ c) (rest : List Char) :
    decodeUnits (c :: rest) = (c.toNat :: ·) <$> decodeUnits rest := by
  have hlt : ¬ c < ' ' := Nat.not_lt_of_le hc
  rw [decodeUnits.eq_def]
  split
  · rename_i heq
    cases heq
  · rename_i heq
    exact absurd (List.cons.inj heq).1 hb
  · rename_i heq
    exact absurd (List.cons.inj heq).1 hb
  · rename_i heq
    exact absurd (List.cons.inj heq).1 hb
  · rename_i heq
    obtain ⟨rfl, rfl⟩ := List.cons.inj heq
    rw [if_neg hlt]

theorem decodeUnits_encodeChar (c : Char) (rest : List Char) :
    decodeUnits (encodeChar c ++ rest) = (units c ++ ·) <$> decodeUnits rest := by
  rcases encodeChar_cases c with ⟨letter, he, hu, _, hc, hunits⟩ | ⟨he, _, hb, hc, hunits⟩ | he
  · rw [he, hunits]
    exact decodeUnits_escape hu hc rest
  · rw [he, hunits]
    exact decodeUnits_plain hb hc rest
  · rw [he]
    exact decodeUnits_hexUnits (units c) (fun n hn => units_lt hn) rest

theorem decodeUnits_encode (cs : List Char) : decodeUnits (encode cs) = .ok (cs.flatMap units) := by
  induction cs with
  | nil => rfl
  | cons c cs ih =>
    simp only [encode, List.flatMap_cons] at ih ⊢
    rw [decodeUnits_encodeChar, ih]
    rfl

/-- What is written reads back. -/
theorem decode_encode (cs : List Char) : decode (encode cs) = .ok cs := by
  rw [decode, decodeUnits_encode]
  exact congrArg Except.ok (ofUnits_units cs)

end ObjectQuery.Quoted

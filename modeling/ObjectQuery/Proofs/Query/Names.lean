import ObjectQuery.Proofs.Query.Scanning
import ObjectQuery.Proofs.Store.Catalog

/-!
# Names in queries

The names of a schema are written in queries as they are. All that the rules for names let through
and a query does not is a newline: a name counts as ending in front of one, but a query goes on to
the next line there. So a name of a valid schema is read as itself just if it has no newline in it.
-/

set_option autoImplicit false

namespace ObjectQuery

open Validation

namespace Word

/-- A name with newlines in it, if any, after its first character. -/
def NameOverLines (cs : List Char) : Prop :=
  ∃ c rest, cs = c :: rest ∧ isNameStart c = true ∧ ∀ d ∈ rest, isNamePart d = true ∨ d = '\n'

variable {cs more : List Char}

theorem NameOverLines.append (h : NameOverLines cs)
    (hmore : ∀ d ∈ more, isNamePart d = true ∨ d = '\n') : NameOverLines (cs ++ more) := by
  obtain ⟨c, rest, rfl, hc, hrest⟩ := h
  exact ⟨c, rest ++ more, rfl, hc, List.forall_mem_append.mpr ⟨hrest, hmore⟩⟩

theorem NameOverLines.append_parts (h : NameOverLines cs) (hmore : more.all isNamePart = true) :
    NameOverLines (cs ++ more) :=
  h.append fun d hd => .inl (List.all_eq_true.mp hmore d hd)

theorem NameOverLines.dropLast (h : NameOverLines cs) (hlength : 2 ≤ cs.length) :
    NameOverLines cs.dropLast := by
  obtain ⟨c, rest, rfl, hc, hrest⟩ := h
  have hne : rest ≠ [] := by
    rintro rfl
    simp at hlength
  rw [List.dropLast_cons_of_ne_nil hne]
  exact ⟨c, rest.dropLast, rfl, hc, fun d hd => hrest d (List.dropLast_subset rest hd)⟩

theorem NameOverLines.isName_iff (h : NameOverLines cs) : isName cs = true ↔ '\n' ∉ cs := by
  obtain ⟨c, rest, rfl, hc, hrest⟩ := h
  have hstart : c ≠ '\n' := by
    rintro rfl
    exact absurd hc (by decide)
  rw [isName, hc, Bool.true_and, List.all_eq_true, List.mem_cons, not_or]
  constructor
  · intro hall
    exact ⟨hstart.symm, fun hmem => absurd (hall _ hmem) (by decide)⟩
  · rintro ⟨_, hnone⟩ d hd
    refine (hrest d hd).resolve_right ?_
    rintro rfl
    exact hnone hd

end Word

namespace Query

/-- Whether a text can be written in a query for the name that it is: it is read as one token, and
this is the name. -/
def Writable (n : String) : Prop :=
  (scan n.toList).failure = none ∧ (scan n.toList).tokens.map Token.lexeme = [.atom (.name n)]

theorem writable_iff_isName {n : String} : Writable n ↔ Word.isName n.toList = true := by
  constructor
  · rintro ⟨_, htokens⟩
    obtain ⟨token, hmem, hlexeme⟩ := List.mem_map.mp (htokens ▸ List.mem_singleton_self _)
    have hformed := Scan.formed_of_mem 0 1 n.toList token hmem
    rw [hlexeme] at hformed
    exact hformed
  · intro h
    have hend : ∀ c ∈ ([] : List Char).head?, Word.isPart c = false := nofun
    have hreads := Scan.Reads.word (Word.bare_of_isName h) hend Scan.reads_nil
    rw [List.append_nil, Word.atom, if_pos h, String.ofList_toList] at hreads
    exact hreads 0 1

end Query

namespace Validation

open Word

variable {n : String}

theorem eq_or_eq_append_newline (cs : List Char) :
    cs = withoutFinalNewline cs ∨ cs = withoutFinalNewline cs ++ ['\n'] := by
  unfold withoutFinalNewline
  split
  · rename_i rest hrest
    exact .inr (by rw [← List.reverse_cons, ← hrest, List.reverse_reverse])
  · exact .inl rfl

theorem nameOverLines_of_matchesName {isStart : Char → Bool} (h : matchesName isStart n = true)
    (hstart : ∀ c, isStart c = true → isNameStart c = true) : NameOverLines n.toList := by
  unfold matchesName at h
  split at h
  · cases h
  · rename_i c rest hname
    rw [Bool.and_eq_true, List.all_eq_true] at h
    have hplain : NameOverLines (withoutFinalNewline n.toList) :=
      ⟨c, rest, hname, hstart c h.1, fun d hd => .inl (h.2 d hd)⟩
    rcases eq_or_eq_append_newline n.toList with heq | heq
    · rw [heq]
      exact hplain
    · rw [heq]
      exact hplain.append (by simp)

theorem nameOverLines_of_isTypeName (h : isTypeName n = true) : NameOverLines n.toList :=
  nameOverLines_of_matchesName h fun c hc => by
    have halpha : c.isAlpha = true := Bool.or_eq_true_iff.mpr (.inl hc)
    rw [isNameStart, halpha, Bool.true_or]

theorem nameOverLines_of_isFieldName (h : isFieldName n = true) : NameOverLines n.toList :=
  nameOverLines_of_matchesName h fun _ hc => hc

/-- Only a word of two letters or more ends in a consonant and `y`. -/
theorem two_le_of_consonantY {cs : List Char}
    (h : Plural.atEnd Plural.consonantY cs.reverse = true) : 2 ≤ cs.length := by
  rw [← List.length_reverse]
  generalize cs.reverse = letters at h
  match letters, h with
  | _ :: _ :: _, _ => exact Nat.le_add_left 2 _
  | [c], h =>
    unfold Plural.atEnd at h
    split at h <;> simp_all [Plural.consonantY]

theorem nameOverLines_pluralize (h : NameOverLines n.toList) :
    NameOverLines (pluralize n).toList := by
  rw [pluralize, String.toList_ofList, Plural.ofChars]
  split
  · rename_i hy
    exact (h.dropLast (two_le_of_consonantY hy)).append_parts rfl
  · split
    · exact h.append_parts rfl
    · exact h.append_parts rfl

end Validation

namespace Schema

variable {rules : Rules} {s : Schema} {t : ObjectType} {f : Field}

/-- The names of the types, their plurals and the names of the fields. -/
def names (s : Schema) : List Value :=
  s.types.flatMap fun t => t.name :: t.plural :: t.declared.map (·.name)

theorem TypeFacts.nameOverLines (h : TypeFacts rules s t) :
    ∃ n, t.name = .text n ∧ Word.NameOverLines n.toList := by
  obtain ⟨n, hn⟩ := h.exists_name
  have hnames := h.names
  rw [hn] at hnames
  exact ⟨n, hn, nameOverLines_of_isTypeName (nameViolations_text.mp hnames).1⟩

theorem TypeFacts.pluralOverLines (h : TypeFacts rules s t) :
    ∃ p, t.plural = .text p ∧ Word.NameOverLines p.toList := by
  obtain ⟨n, hn, hname⟩ := h.nameOverLines
  obtain ⟨p, hp⟩ := h.exists_plural
  refine ⟨p, hp, ?_⟩
  rw [ObjectType.plural, hn] at hp
  split at hp
  · cases hp
    exact nameOverLines_pluralize hname
  · have hplurals := h.plurals
    rw [hp] at hplurals
    exact nameOverLines_of_isTypeName (nameViolations_text.mp hplurals).1

theorem FieldFacts.nameOverLines (h : FieldFacts rules s t f) :
    ∃ n, f.name = .text n ∧ Word.NameOverLines n.toList := by
  have hname := h.name
  unfold textSatisfies at hname
  split at hname
  · rename_i n hn
    exact ⟨n, hn, nameOverLines_of_isFieldName hname⟩
  · cases hname

/-- A name of a valid schema can be written in a query, unless it has a newline in it. -/
theorem Valid.writable_iff_no_newline (h : s.Valid rules) :
    ∀ v ∈ s.names, ∃ n, v = .text n ∧ (Query.Writable n ↔ '\n' ∉ n.toList) := by
  intro v hv
  obtain ⟨t, ht, hv⟩ := List.mem_flatMap.mp hv
  have htype := h.typeFacts ht
  have hname : ∃ n, v = .text n ∧ Word.NameOverLines n.toList := by
    rcases List.mem_cons.mp hv with rfl | hv
    · exact htype.nameOverLines
    rcases List.mem_cons.mp hv with rfl | hv
    · exact htype.pluralOverLines
    obtain ⟨f, hf, rfl⟩ := List.mem_map.mp hv
    exact (h.fieldFacts ht hf).nameOverLines
  obtain ⟨n, hn, hlines⟩ := hname
  exact ⟨n, hn, Query.writable_iff_isName.trans hlines.isName_iff⟩

end Schema

/-- All names but that of one field can be written. -/
theorem notes_names_writable : Notes.schema.Valid .standard ∧
    ∀ v ∈ Notes.schema.names, v ≠ .text "text\n" → ∃ n, v = .text n ∧ Query.Writable n := by
  have hvalid : Notes.schema.Valid .standard := by rfl
  refine ⟨hvalid, fun v hv hne => ?_⟩
  obtain ⟨n, rfl, hn⟩ := Schema.Valid.writable_iff_no_newline hvalid v hv
  have hplain : Notes.schema.names.all (fun v => v.text?.all fun n =>
      n == "text\n" || !n.toList.contains '\n') = true := by
    decide +kernel
  have hnone := List.all_eq_true.mp hplain _ hv
  simp only [Value.text?_text, Option.all_some, Bool.or_eq_true, beq_iff_eq, Bool.not_eq_true',
    List.contains_eq_mem, decide_eq_false_iff_not] at hnone
  refine ⟨n, rfl, hn.mpr (hnone.resolve_left ?_)⟩
  rintro rfl
  exact hne rfl

/-- A field whose name ends in a newline cannot be selected. -/
theorem notes_text_not_writable : Notes.schema.Valid .standard ∧
    .text "text\n" ∈ Notes.schema.names ∧ ¬Query.Writable "text\n" := by
  refine ⟨rfl, ?_, fun h => ?_⟩
  · simp [Schema.names, Notes.schema, Notes.noteType, ObjectType.declared]
  · exact absurd (Query.writable_iff_isName.mp h) (by decide)

end ObjectQuery

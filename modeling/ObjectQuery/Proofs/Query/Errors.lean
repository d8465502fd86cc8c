import ObjectQuery.Proofs.Query.Viability
import ObjectQuery.Proofs.Text.Lines

/-!
# Where errors are

Apart from arguments out of order, an error is at the leftmost place where a text stops being the
beginning of a query: at the first token with which the tokens before it are not viable any more, at
the end of a text whose tokens are viable and no query yet, or at the first place behind viable
tokens where no token can be read. The place of an error is the place of that token, end or
character, and it is within the text.
-/

set_option autoImplicit false

namespace ObjectQuery

open Outcome

namespace Scan

/-- What is read at an offset of a text: a token or a defect. -/
def ReadsAt (text : List Char) (offset : Nat) (read : Except LexicalDefect Lexeme) : Prop :=
  ∃ c rest, text.drop offset = c :: rest ∧ c ≠ '\n' ∧ (lexeme c rest).map Prod.fst = read

/-- Where the parts of a scan were read, one behind the other, from some offset on. -/
structure Placed (text : List Char) (start : Nat) (r : Scan) : Prop where
  tokens : ∀ t ∈ r.tokens, start ≤ t.offset ∧ ReadsAt text t.offset (.ok t.lexeme)
  ascending : r.tokens.Pairwise fun t u => t.offset < u.offset
  failure : ∀ offset d, r.failure = some (offset, d) →
    start ≤ offset ∧ ReadsAt text offset (.error d) ∧ ∀ t ∈ r.tokens, t.offset < offset

section
variable {text cs : List Char} {c : Char} {start offset : Nat} {r : Scan}

theorem drop_add (h : text.drop offset = c :: cs) (n : Nat) :
    text.drop (offset + 1 + n) = cs.drop n := by
  rw [← List.drop_drop, ← List.drop_drop, h, List.drop_one, List.tail_cons]

theorem Placed.mono (h : Placed text start r) (hle : offset ≤ start) : Placed text offset r where
  tokens t ht := ⟨hle.trans (h.tokens t ht).1, (h.tokens t ht).2⟩
  ascending := h.ascending
  failure o d hd := ⟨hle.trans (h.failure o d hd).1, (h.failure o d hd).2⟩

theorem placed_scanFrom (offset line : Nat) (cs : List Char) (h : text.drop offset = cs) :
    Placed text offset (scanFrom offset line cs) := by
  induction offset, line, cs using scanFrom.induct with
  | case1 offset line =>
    rw [scanFrom]
    exact ⟨fun _ ht => absurd ht List.not_mem_nil, .nil, fun _ _ hd => by cases hd⟩
  | case2 offset line cs ih =>
    rw [scanFrom, if_pos rfl]
    exact (ih (drop_add h 0)).mono (by omega)
  | case3 offset line c cs hn hb ih =>
    rw [scanFrom, if_neg hn, if_pos hb]
    exact (ih (drop_add h 0)).mono (by omega)
  | case4 offset line cs _ hn hb ih =>
    rw [scanFrom, if_neg hn, if_neg hb, if_pos rfl]
    exact (ih (drop_add h _)).mono (by omega)
  | case5 offset line c cs hn hb hc d hl =>
    rw [scanFrom, if_neg hn, if_neg hb, if_neg hc, hl]
    refine ⟨fun _ ht => absurd ht List.not_mem_nil, .nil, ?_⟩
    rintro _ _ ⟨⟩
    exact ⟨le_rfl, ⟨c, cs, h, hn, by rw [hl]; rfl⟩, fun _ ht => absurd ht List.not_mem_nil⟩
  | case6 offset line c cs hn hb hc l more hl ih =>
    have hrest := ih (drop_add h more)
    have hread : ReadsAt text offset (.ok l) := ⟨c, cs, h, hn, by rw [hl]; rfl⟩
    rw [scanFrom, if_neg hn, if_neg hb, if_neg hc, hl]
    refine ⟨?_, ?_, ?_⟩
    · refine List.forall_mem_cons.mpr ⟨⟨le_rfl, hread⟩, fun t ht => ?_⟩
      obtain ⟨hle, ht⟩ := hrest.tokens t ht
      exact ⟨by omega, ht⟩
    · refine List.pairwise_cons.mpr ⟨fun t ht => ?_, hrest.ascending⟩
      have hle := (hrest.tokens t ht).1
      show offset < t.offset
      omega
    · intro o d hd
      obtain ⟨hle, hdefect, hbefore⟩ := hrest.failure o d hd
      refine ⟨by omega, hdefect, List.forall_mem_cons.mpr ⟨?_, hbefore⟩⟩
      show offset < o
      omega

theorem ReadsAt.isAt {read : Except LexicalDefect Lexeme} (h : ReadsAt text offset read) :
    ∃ c, text[offset]? = some c ∧ (Location.ofOffset text offset).IsAt text c := by
  obtain ⟨c, rest, hdrop, hc, _⟩ := h
  refine ⟨c, ?_, Location.isAt_ofOffset hdrop hc⟩
  rw [← List.head?_drop, hdrop, List.head?_cons]

end

end Scan

theorem placed_scan (text : List Char) : Scan.Placed text 0 (scan text) :=
  Scan.placed_scanFrom 0 1 text rfl

namespace Parsing

section
variable {s : State} {l : Lexeme} {here : Location} {place : Nat → Location} {e : ParseError}

/-- An error at a token, or one about the order of arguments. -/
def Refuses (l : Lexeme) (here : Location) (e : ParseError) : Prop :=
  e.cause.OfOrder ∨ ∃ expected, e = ⟨.unexpected l, some here, expected⟩

theorem failsWith_refuse (s : State) (l : Lexeme) (here : Location) :
    FailsWith (Refuses l here) (s.refuse l here : Except ParseError State) :=
  failsWith_error (.inr ⟨_, rfl⟩)

theorem Allows.failsWith {P : State → Prop} {x : Except ParseError State} (h : Allows P x) :
    FailsWith (fun e => e.cause.OfOrder) x := by
  rintro e rfl
  exact h

theorem failsWith_settle (s : State) : FailsWith (fun e => e.cause.OfOrder) s.settle := by
  unfold State.settle
  split
  · exact (allows_complete ..).failsWith
  · exact (allows_complete ..).failsWith
  · exact (allows_complete ..).failsWith
  · exact failsWith_ok _

theorem failsWith_next (s : State) (l : Lexeme) (here : Location) :
    FailsWith (Refuses l here) (s.next l here) := by
  unfold State.next
  split
  · exact failsWith_ok _
  · split
    · exact failsWith_refuse _ _ _
    · exact failsWith_ok _
  · exact failsWith_refuse _ _ _

theorem failsWith_follow (s : State) (l : Lexeme) (here : Location) :
    FailsWith (Refuses l here) (s.follow l here) := by
  unfold State.follow
  split
  · exact ((failsWith_settle s).mono fun _ => .inl).bind fun _ _ => failsWith_next _ _ _
  · exact ((failsWith_settle s).mono fun _ => .inl).bind fun _ _ => failsWith_next _ _ _
  · exact failsWith_refuse _ _ _

theorem failsWith_argument (s : State) (head : Head) (l : Lexeme) (here : Location) :
    FailsWith (Refuses l here) (s.argument head l here) := by
  unfold State.argument
  split
  · exact failsWith_ok _
  · exact failsWith_ok _
  · exact failsWith_ok _
  · exact failsWith_refuse _ _ _

theorem failsWith_step (s : State) (l : Lexeme) (here : Location) :
    FailsWith (Refuses l here) (s.step l here) := by
  unfold State.step
  split
  · split
    · exact failsWith_ok _
    · exact failsWith_refuse _ _ _
  · split
    · exact failsWith_ok _
    · exact failsWith_ok _
    · exact failsWith_follow _ _ _
  · exact failsWith_argument _ _ _ _
  · split
    · exact failsWith_ok _
    · exact failsWith_refuse _ _ _
    · exact failsWith_refuse _ _ _
    · exact failsWith_refuse _ _ _
    · exact failsWith_argument _ _ _ _
  · split
    · exact failsWith_ok _
    · exact failsWith_refuse _ _ _
  · split
    · exact failsWith_ok _
    · exact failsWith_follow _ _ _
  · exact failsWith_follow _ _ _
  · exact failsWith_next _ _ _

theorem failsWith_finish (s : State) (here : Location) : FailsWith (fun e =>
    e.cause.OfOrder ∨ ∃ expected, e = ⟨.unexpectedEnd, some here, expected⟩) (s.finish here) := by
  refine ((failsWith_settle s).mono fun _ => .inl).bind fun t _ => ?_
  split
  · exact failsWith_ok _
  · exact failsWith_error (.inr ⟨_, rfl⟩)

/-- Reading tokens fails at the first one that is refused. -/
theorem run_eq_error {ts : List Token} (h : run place s ts = .error e) :
    ∃ before t after u, ts = before ++ t :: after ∧ run place s before = .ok u ∧
      u.step t.lexeme (place t.offset) = .error e := by
  induction ts generalizing s with
  | nil => cases h
  | cons t ts ih =>
    rw [run, List.foldlM_cons] at h
    cases hstep : s.step t.lexeme (place t.offset) with
    | error e' =>
      rw [hstep] at h
      cases h
      exact ⟨[], t, ts, s, rfl, rfl, hstep⟩
    | ok s' =>
      rw [hstep] at h
      obtain ⟨before, t', after, u, rfl, hrun, hlast⟩ := ih h
      exact ⟨t :: before, t', after, u, rfl, (run_cons hstep).trans hrun, hlast⟩

end

end Parsing

/-- An error at the leftmost place where a text stops being the beginning of a query. -/
inductive Leftmost (text : List Char) : ParseError → Prop
  | token {before after : List Token} {t : Token} {c : Char} {expected : List TokenKind}
      (tokens : (scan text).tokens = before ++ t :: after)
      (earlier : ∀ u ∈ before, u.offset < t.offset)
      (read : Scan.ReadsAt text t.offset (.ok t.lexeme))
      (viable : Viable before) (refused : ¬Viable (before ++ [t]))
      (char : text[t.offset]? = some c) (within : (Location.ofOffset text t.offset).IsAt text c) :
      Leftmost text ⟨.unexpected t.lexeme, some (.ofOffset text t.offset), expected⟩
  | ending {expected : List TokenKind} (readable : (scan text).failure = none)
      (viable : ∃ more, more ≠ [] ∧ IsSentence ((scan text).tokens ++ more))
      (unfinished : ¬IsSentence (scan text).tokens)
      (within : (Location.ofOffset text text.length).IsEnd text) :
      Leftmost text ⟨.unexpectedEnd, some (.ofOffset text text.length), expected⟩
  | lexical {offset : Nat} {d : LexicalDefect} {c : Char} {expected : List TokenKind}
      (failure : (scan text).failure = some (offset, d))
      (earlier : ∀ u ∈ (scan text).tokens, u.offset < offset)
      (read : Scan.ReadsAt text offset (.error d)) (viable : Viable (scan text).tokens)
      (char : text[offset]? = some c) (within : (Location.ofOffset text offset).IsAt text c) :
      Leftmost text ⟨.lexical d, some (.ofOffset text offset), expected⟩

namespace Query

section
variable {text : List Char} {e : ParseError}

theorem leftmost_of_run
    (h : Parsing.run (.ofOffset text) Parsing.initial (scan text).tokens = .error e)
    (he : ¬e.cause.OfOrder) : Leftmost text e := by
  obtain ⟨before, t, after, s, htokens, hrun, hstep⟩ := Parsing.run_eq_error h
  obtain ⟨expected, rfl⟩ := (Parsing.failsWith_step _ _ _ e hstep).resolve_left he
  have hplaced := placed_scan text
  have hread := (hplaced.tokens t (by rw [htokens]; simp)).2
  obtain ⟨c, hchar, hwithin⟩ := hread.isAt
  have hearlier : ∀ u ∈ before, u.offset < t.offset := by
    have hascending := hplaced.ascending
    rw [htokens, List.pairwise_append] at hascending
    exact fun u hu => hascending.2.2 u hu t List.mem_cons_self
  have hrefused : Parsing.run (.ofOffset text) Parsing.initial (before ++ [t]) =
      .error ⟨.unexpected t.lexeme, some (.ofOffset text t.offset), expected⟩ := by
    rw [Parsing.run_append hrun, Parsing.run, List.foldlM_cons, hstep, error_bind]
  exact .token htokens hearlier hread (Parsing.viable_of_run hrun)
    (Parsing.not_viable_of_run_error hrefused he) hchar hwithin

/-- Apart from arguments out of order, an error of the reader is leftmost. -/
theorem leftmost_of_parse (text : String) (h : parse text = .error e) (he : ¬e.cause.OfOrder) :
    Leftmost text.toList e := by
  rw [parse] at h
  cases hrun : Parsing.run (.ofOffset text.toList) Parsing.initial (scan text.toList).tokens with
  | error e' =>
    rw [hrun] at h
    cases h
    exact leftmost_of_run hrun he
  | ok s =>
    rw [hrun, ok_bind] at h
    have hviable := Parsing.viable_of_run hrun
    split at h
    · rename_i offset d hfailure
      cases h
      obtain ⟨_, hread, hearlier⟩ := (placed_scan text.toList).failure offset d hfailure
      obtain ⟨c, hchar, hwithin⟩ := hread.isAt
      exact .lexical hfailure hearlier hread hviable hchar hwithin
    · rename_i hreadable
      obtain ⟨expected, rfl⟩ := (Parsing.failsWith_finish _ _ e h).resolve_left he
      have hunfinished : ¬IsSentence (scan text.toList).tokens := by
        rintro ⟨ds, hds⟩
        refine he (Parsing.allows_finish (.ofOffset text.toList) ds
          (.ofOffset text.toList text.toList.length) ?_)
        rw [hds, hrun, ok_bind, h]
      refine .ending hreadable ?_ hunfinished (Location.isEnd_ofOffset _)
      obtain ⟨ds, more, hmore⟩ := hviable
      refine ⟨more, ?_, ds, hmore.symm⟩
      rintro rfl
      exact hunfinished ⟨ds, by rw [← hmore, List.append_nil]⟩

end

/-- A block with a brace too many behind it. -/
def overclosed : String := "node(User, id: 1) \x7b\n  name\n\x7d \x7d"

theorem overclosed_leftmost : ∃ e, parse overclosed = .error e ∧ ¬e.cause.OfOrder ∧
    e.cause = .unexpected .closeBrace ∧ e.location = some ⟨3, 3⟩ ∧
      Leftmost overclosed.toList e := by
  have hrefused : (match parse overclosed with
      | .error e => decide (e.cause = .unexpected .closeBrace ∧ e.location = some ⟨3, 3⟩)
      | .ok _ => false) = true := by
    decide +kernel
  cases h : parse overclosed with
  | ok q =>
    rw [h] at hrefused
    cases hrefused
  | error e =>
    rw [h] at hrefused
    obtain ⟨hcause, hlocation⟩ := of_decide_eq_true hrefused
    have horder : ¬e.cause.OfOrder := by
      rw [hcause]
      exact id
    exact ⟨e, rfl, horder, hcause, hlocation, leftmost_of_parse overclosed h horder⟩

end Query

end ObjectQuery

import ObjectQuery.Proofs.Query.Continuations
import ObjectQuery.Proofs.Query.Errors

/-!
# What could have been there instead

A syntax error lists tokens that would have been accepted in the place of the one it is about. Where
no call may end the list is right. Where a call may end, the reader has not looked yet at which
blocks are open, and lists both a closing brace and the end of the query; one of them never fits.
And if what is refused is itself a closing brace or the end, then the call has been ended first, and
the list leaves out that it could have gone on with parentheses or a block.
-/

set_option autoImplicit false

namespace ObjectQuery

open Outcome

namespace Parsing

section
variable {place : Nat → Location} {s t : State} {ts : List Token} {tok : Token} {l : Lexeme}
  {here : Location} {k : TokenKind} {e : ParseError}

theorem mem_expected (h : s.phase ≠ .afterCall) : k ∈ s.expected ↔
    k ∈ s.phase.continuations ∨ s.phase.MayEnd ∧ k ∈ TokenKind.enders := by
  obtain ⟨frames, calls, phase⟩ := s
  cases phase with
  | afterCall => exact absurd rfl h
  | _ => cases k <;> simp [State.expected, Phase.continuations, Phase.MayEnd, TokenKind.enders]

/-- Behind a complete call, what is listed depends on whether a block is open. -/
theorem mem_expected_afterCall (h : s.phase = .afterCall) :
    k ∈ s.expected ↔ k = .name ∨ k = s.ending := by
  rw [State.expected, h, State.ending]
  cases s.frames.isEmpty <;> simp [or_comm]

theorem next_ne_afterCall (h : s.next l here = .ok t) : t.phase ≠ .afterCall := by
  unfold State.next at h
  split at h
  · cases h
    nofun
  · split at h
    · cases h
    · cases h
      nofun
  · cases h

theorem follow_ne_afterCall (h : s.follow l here = .ok t) : t.phase ≠ .afterCall := by
  unfold State.follow at h
  split at h
  · obtain ⟨u, _, hnext⟩ := bind_eq_ok.mp h
    exact next_ne_afterCall hnext
  · obtain ⟨u, _, hnext⟩ := bind_eq_ok.mp h
    exact next_ne_afterCall hnext
  · cases h

theorem argument_ne_afterCall {head : Head} (h : s.argument head l here = .ok t) :
    t.phase ≠ .afterCall := by
  unfold State.argument at h
  split at h <;> cases h <;> nofun

/-- The reader ends a call only when it takes the token behind it. -/
theorem step_ne_afterCall (h : s.step l here = .ok t) : t.phase ≠ .afterCall := by
  unfold State.step at h
  split at h
  · split at h <;> cases h
    nofun
  · split at h
    · cases h
      nofun
    · cases h
      nofun
    · exact follow_ne_afterCall h
  · exact argument_ne_afterCall h
  · split at h
    · cases h
      nofun
    · cases h
    · cases h
    · cases h
    · exact argument_ne_afterCall h
  · split at h <;> cases h
    nofun
  · split at h
    · cases h
      nofun
    · exact follow_ne_afterCall h
  · exact follow_ne_afterCall h
  · exact next_ne_afterCall h

theorem run_ne_afterCall (h : run place initial ts = .ok s) : s.phase ≠ .afterCall := by
  rcases ts.eq_nil_or_concat' with rfl | ⟨us, tok, rfl⟩
  · cases h
    nofun
  · rw [run, List.foldlM_append] at h
    obtain ⟨u, _, hlast⟩ := bind_eq_ok.mp h
    rw [List.foldlM_cons] at hlast
    obtain ⟨v, hstep, hv⟩ := bind_eq_ok.mp hlast
    cases hv
    exact step_ne_afterCall hstep

/-- What is listed about something of some kind, be it that the call at hand was ended for it. -/
def Expects (s : State) (offender : TokenKind) (e : ParseError) : Prop :=
  (¬(s.phase.MayEnd ∧ offender ∈ TokenKind.enders) ∧ e.expected = s.expected) ∨
    (s.phase.MayEnd ∧ offender ∈ TokenKind.enders) ∧
      ∀ k, k ∈ e.expected ↔ k = .name ∨ k = s.ending

theorem settled_of_error {α : Type} {f : State → Except ParseError α} (hend : s.phase.MayEnd)
    (h : (s.settle >>= f) = .error e) (he : ¬e.cause.OfOrder) :
    ∃ t, t.ending = s.ending ∧ t.phase = .afterCall ∧ f t = .error e := by
  have hsettle := allows_settle hend
  cases hs : s.settle with
  | error e' =>
    rw [hs] at h hsettle
    cases h
    exact absurd hsettle he
  | ok t =>
    rw [hs] at h hsettle
    obtain ⟨hframes, hphase⟩ := hsettle
    exact ⟨t, by rw [State.ending, hframes, State.ending], hphase, h⟩

theorem expects_of_step (h : s.step l here = .error e) (he : ¬e.cause.OfOrder) :
    Expects s l.kind e := by
  by_cases hdirect : s.phase.MayEnd → l.kind ≠ .closeBrace ∧ l.kind ≠ .name
  · rcases takes_step s here hdirect with ⟨_, t, ht⟩ | ⟨_, hrefused⟩
    · cases h.symm.trans ht
    · cases h.symm.trans hrefused
      refine .inl ⟨?_, rfl⟩
      rintro ⟨hend, hmem⟩
      exact (hdirect hend).1 (Lexeme.kind_eq_closeBrace hmem)
  · obtain ⟨hend, hkind⟩ := Classical.not_imp.mp hdirect
    rw [not_and_or, not_not, not_not] at hkind
    rcases hkind with hkind | hkind
    · obtain rfl := Lexeme.eq_closeBrace hkind
      rw [step_mayEnd hend (.inl rfl)] at h
      obtain ⟨t, hending, hphase, hnext⟩ := settled_of_error hend h he
      have hexpected : e.expected = t.expected := by
        rw [State.next] at hnext
        split at hnext <;> cases hnext
        rfl
      refine .inr ⟨⟨hend, .head _⟩, fun k => ?_⟩
      rw [hexpected, mem_expected_afterCall hphase, hending]
    · -- A name is always taken behind a complete call.
      obtain ⟨n, rfl⟩ := Lexeme.exists_eq_name hkind
      rw [step_mayEnd hend (.inr ⟨n, rfl⟩)] at h
      obtain ⟨t, _, _, hnext⟩ := settled_of_error hend h he
      cases hnext

theorem expects_of_finish (h : s.finish here = .error e) (he : ¬e.cause.OfOrder) :
    Expects s .endOfQuery e := by
  by_cases hend : s.phase.MayEnd
  · obtain ⟨t, hending, hphase, hfinish⟩ := settled_of_error hend h he
    have hexpected : e.expected = t.expected := by
      split at hfinish <;> cases hfinish
      rfl
    refine .inr ⟨⟨hend, .tail _ (.head _)⟩, fun k => ?_⟩
    rw [hexpected, mem_expected_afterCall hphase, hending]
  · cases h.symm.trans (finish_eq_refuseEnd hend)
    exact .inl ⟨fun h => hend h.1, rfl⟩

end

end Parsing

/-- Whether a text has a token that cannot be there, or ends where it cannot. -/
def ParseCause.OfSyntax : ParseCause → Prop
  | .unexpected _ | .unexpectedEnd => True
  | _ => False

/-- Where reading stops: the tokens before an error, and the kind of what the error is about. -/
inductive StopsAt (text : List Char) : List Token → TokenKind → ParseError → Prop
  | token {before after : List Token} {t : Token} {expected : List TokenKind}
      (tokens : (scan text).tokens = before ++ t :: after) :
      StopsAt text before t.lexeme.kind
        ⟨.unexpected t.lexeme, some (.ofOffset text t.offset), expected⟩
  | ending {expected : List TokenKind} (readable : (scan text).failure = none) :
      StopsAt text (scan text).tokens .endOfQuery
        ⟨.unexpectedEnd, some (.ofOffset text text.length), expected⟩

/-- What an error lists, compared with what could have followed the tokens before it. -/
structure Lists (before : List Token) (offender : TokenKind) (e : ParseError) : Prop where
  within : ¬Ends before → ∀ k, k.description ∈ e.expectedNames ↔ Continues before k
  /-- Both ends are listed, though at most one of them could have followed. -/
  going : Ends before → offender ∉ TokenKind.enders → ∀ k,
    k.description ∈ e.expectedNames ↔ Continues before k ∨ k ∈ TokenKind.enders
  /-- What could have made the call longer is not listed. -/
  ended : Ends before → offender ∈ TokenKind.enders → ∀ k,
    k.description ∈ e.expectedNames ↔ Continues before k ∧ k ≠ .openParen ∧ k ≠ .openBrace

theorem TokenKind.description_injective : Function.Injective description := by
  intro a b h
  cases a <;> cases b <;> simp_all [description]

theorem ParseError.mem_expectedNames {e : ParseError} {k : TokenKind} :
    k.description ∈ e.expectedNames ↔ k ∈ e.expected :=
  List.mem_map_of_injective TokenKind.description_injective

section
variable {place : Nat → Location} {s : Parsing.State} {before : List Token} {offender : TokenKind}
  {e : ParseError}

open Parsing

theorem lists_of_run (h : run place initial before = .ok s) (he : Expects s offender e) :
    Lists before offender e := by
  have hexpected (k : TokenKind) := mem_expected (k := k) (run_ne_afterCall h)
  constructor
  · intro hend k
    rw [ends_iff h] at hend
    rcases he with ⟨_, hlist⟩ | ⟨hsettled, _⟩
    · rw [ParseError.mem_expectedNames, hlist, hexpected, continues_iff h]
      simp [hend]
    · exact absurd hsettled.1 hend
  · intro hend hoffender k
    rw [ends_iff h] at hend
    rcases he with ⟨_, hlist⟩ | ⟨hsettled, _⟩
    · have hmem : k = s.ending → k ∈ TokenKind.enders := fun hk => hk ▸ s.ending_mem
      rw [ParseError.mem_expectedNames, hlist, hexpected, continues_iff h]
      tauto
    · exact absurd hsettled.2 hoffender
  · intro hend hoffender k
    rw [ends_iff h] at hend
    rcases he with ⟨hsettled, _⟩ | ⟨_, hlist⟩
    · exact absurd ⟨hend, hoffender⟩ hsettled
    · have hne : k = s.ending → k ≠ .openParen ∧ k ≠ .openBrace := by
        rintro rfl
        rcases List.mem_pair.mp s.ending_mem with hending | hending <;> rw [hending] <;> decide
      rw [ParseError.mem_expectedNames, hlist, continues_iff h, or_and_right,
        hend.mem_continuations_iff]
      tauto

/-- The list is right where no call may end. Where one may, it is right only if what is refused
would have ended the call and no block could have followed. -/
theorem Lists.exact_iff (hl : Lists before offender e) (h : run place initial before = .ok s) :
    (∀ k, k.description ∈ e.expectedNames ↔ Continues before k) ↔
      (Ends before → offender ∈ TokenKind.enders ∧ ¬Continues before .openBrace) := by
  by_cases hend : Ends before
  · by_cases hoffender : offender ∈ TokenKind.enders
    · simp only [hl.ended hend hoffender, hend, hoffender, true_and, forall_const]
      constructor
      · intro hexact hopen
        exact ((hexact _).mpr hopen).2.2 rfl
      · intro hopen k
        refine and_iff_left_of_imp fun hk => ⟨?_, ?_⟩
        · rintro rfl
          exact hopen (continues_openBrace h hk)
        · rintro rfl
          exact hopen hk
    · refine iff_of_false (fun hexact => ?_) fun hboth => hoffender (hboth hend).1
      exact not_continues_enders h fun k hk =>
        (hexact k).mp ((hl.going hend hoffender k).mpr (.inr hk))
  · exact iff_of_true (hl.within hend) fun h => absurd h hend

end

namespace Query

/-- What a syntax error lists, and when that is what could have been there instead. -/
theorem lists_of_parse {text : String} {e : ParseError} (h : parse text = .error e)
    (he : e.cause.OfSyntax) : ∃ before offender, StopsAt text.toList before offender e ∧
      Lists before offender e ∧
      ((∀ k, k.description ∈ e.expectedNames ↔ Continues before k) ↔
        (Ends before → offender ∈ TokenKind.enders ∧ ¬Continues before .openBrace)) := by
  have horder : ¬e.cause.OfOrder := by
    intro horder
    cases hcause : e.cause <;> rw [hcause] at he horder <;> contradiction
  rw [parse] at h
  cases hrun : Parsing.run (.ofOffset text.toList) Parsing.initial (scan text.toList).tokens with
  | error e' =>
    rw [hrun] at h
    cases h
    obtain ⟨before, t, after, s, htokens, hbefore, hstep⟩ := Parsing.run_eq_error hrun
    have hexpects := Parsing.expects_of_step hstep horder
    have hlists := lists_of_run hbefore hexpects
    obtain ⟨expected, rfl⟩ := (Parsing.failsWith_step _ _ _ e hstep).resolve_left horder
    exact ⟨before, _, .token htokens, hlists, hlists.exact_iff hbefore⟩
  | ok s =>
    rw [hrun, ok_bind] at h
    split at h
    · cases h
      exact he.elim
    · rename_i hreadable
      have hlists := lists_of_run hrun (Parsing.expects_of_finish h horder)
      obtain ⟨expected, rfl⟩ := (Parsing.failsWith_finish _ _ e h).resolve_left horder
      exact ⟨_, _, .ending hreadable, hlists, hlists.exact_iff hrun⟩

theorem parse_eq_error {text : String} {e : ParseError} (h : (match parse text with
    | .error e' => decide (e' = e)
    | .ok _ => false) = true) : parse text = .error e := by
  cases hparse : parse text with
  | ok q =>
    rw [hparse] at h
    cases h
  | error e' =>
    rw [hparse] at h
    rw [of_decide_eq_true h]

/-- A block that is not closed. -/
def unclosed : String := "nodes(User, first: 2) \x7b friends"

def unclosedError : ParseError := ⟨.unexpectedEnd, some ⟨1, 32⟩, [.closeBrace, .name]⟩

/-- The call in the block could have gone on with parentheses or a block of its own. -/
theorem unclosed_lists : parse unclosed = .error unclosedError ∧ unclosedError.cause.OfSyntax ∧
    ∃ before offender, StopsAt unclosed.toList before offender unclosedError ∧
      Lists before offender unclosedError ∧
      ((∀ k, k.description ∈ unclosedError.expectedNames ↔ Continues before k) ↔
        (Ends before → offender ∈ TokenKind.enders ∧ ¬Continues before .openBrace)) := by
  have hparse : parse unclosed = .error unclosedError := parse_eq_error (by decide +kernel)
  exact ⟨hparse, trivial, lists_of_parse hparse trivial⟩

/-- A name at the beginning of a text. -/
def leading : Token := ⟨.atom (.name "node"), 0, 1⟩

/-- Behind a name, a closing brace is listed where none could have been, and a block that could have
been opened is not listed in the place of one. -/
theorem lists_not_exact :
    (∃ e, parse "node )" = .error e ∧ StopsAt "node )".toList [leading] .closeParen e ∧
      TokenKind.closeBrace.description ∈ e.expectedNames ∧ ¬Continues [leading] .closeBrace) ∧
    ∃ e, parse "node \x7d" = .error e ∧ StopsAt "node \x7d".toList [leading] .closeBrace e ∧
      TokenKind.openBrace.description ∉ e.expectedNames ∧ Continues [leading] .openBrace := by
  have hrun : Parsing.run (fun _ => .start) Parsing.initial [leading] =
      .ok ⟨[], [], .afterName ⟨"node", [], .start⟩⟩ := rfl
  have hbrace : ¬Continues [leading] .closeBrace := by
    rw [Parsing.continues_iff hrun]
    rintro (hmem | ⟨_, hending⟩)
    · exact Parsing.not_mem_continuations (.head _) _ hmem
    · cases hending
  have hopen : Continues [leading] .openBrace :=
    (Parsing.continues_iff hrun).mpr (.inl (.tail _ (.head _)))
  have hparen : (scan "node )".toList).tokens = [leading] ++ [⟨.closeParen, 5, 1⟩] := by
    decide +kernel
  have hclose : (scan "node \x7d".toList).tokens = [leading] ++ [⟨.closeBrace, 5, 1⟩] := by
    decide +kernel
  refine ⟨⟨⟨.unexpected .closeParen, some ⟨1, 6⟩,
    [.openParen, .openBrace, .closeBrace, .endOfQuery, .name]⟩,
    parse_eq_error (by decide +kernel), .token hparen, ?_, hbrace⟩,
    ⟨.unexpected .closeBrace, some ⟨1, 6⟩, [.endOfQuery, .name]⟩,
    parse_eq_error (by decide +kernel), .token hclose, ?_, hopen⟩
  · rw [ParseError.mem_expectedNames]
    decide
  · rw [ParseError.mem_expectedNames]
    decide

end Query

end ObjectQuery

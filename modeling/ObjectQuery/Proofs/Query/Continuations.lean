import ObjectQuery.Proofs.Query.Braces

/-!
# What can follow

The kinds of tokens that can follow the beginning of a query are those that the reader takes in the
state it is in. But for one thing: arguments out of order stop it where a call ends, and so it takes
nothing there that ends the call. What can follow there is told by the blocks that are open.
-/

set_option autoImplicit false

namespace ObjectQuery

open Outcome

/-- The kinds of tokens with which a derivation may go on, and the end if it may end. -/
inductive Continues (ts : List Token) : TokenKind → Prop
  | token {t : Token} (viable : Viable (ts ++ [t])) : Continues ts t.lexeme.kind
  | ending (sentence : IsSentence ts) : Continues ts .endOfQuery

/-- What ends a call together with the block it is in, or with the query. -/
def TokenKind.enders : List TokenKind := [.closeBrace, .endOfQuery]

/-- Whether a call may end behind these tokens. -/
def Ends (ts : List Token) : Prop := ∃ k ∈ TokenKind.enders, Continues ts k

section
variable {ts : List Token} {l : Lexeme} {k : TokenKind}

theorem Lexeme.kind_ne_endOfQuery (l : Lexeme) : l.kind ≠ .endOfQuery := by
  rcases l with (_ | _ | _ | _) | _ | _ | _ | _ | _ <;> nofun

theorem Lexeme.eq_closeBrace (h : l.kind = .closeBrace) : l = .closeBrace := by
  rcases l with (_ | _ | _ | _) | _ | _ | _ | _ | _
  case closeBrace => rfl
  all_goals cases h

theorem Lexeme.exists_eq_name (h : l.kind = .name) : ∃ n, l = .atom (.name n) := by
  rcases l with (n | _ | _ | _) | _ | _ | _ | _ | _
  case atom.name => exact ⟨n, rfl⟩
  all_goals cases h

theorem Lexeme.kind_eq_closeBrace (h : l.kind ∈ TokenKind.enders) : l.kind = .closeBrace :=
  (List.mem_pair.mp h).resolve_right l.kind_ne_endOfQuery

theorem TokenKind.exists_lexeme (h : k ≠ .endOfQuery) : ∃ l : Lexeme, l.kind = k := by
  cases k with
  | openParen => exact ⟨.openParen, rfl⟩
  | closeParen => exact ⟨.closeParen, rfl⟩
  | colon => exact ⟨.colon, rfl⟩
  | openBrace => exact ⟨.openBrace, rfl⟩
  | closeBrace => exact ⟨.closeBrace, rfl⟩
  | endOfQuery => exact absurd rfl h
  | literal => exact ⟨.atom (.literal ""), rfl⟩
  | name => exact ⟨.atom (.name ""), rfl⟩
  | number => exact ⟨.atom (.number (.whole 0)), rfl⟩
  | string => exact ⟨.atom (.string ""), rfl⟩

theorem continues_endOfQuery : Continues ts .endOfQuery ↔ IsSentence ts := by
  refine ⟨fun h => ?_, .ending⟩
  generalize hk : TokenKind.endOfQuery = k at h
  cases h with
  | token => exact absurd hk.symm (Lexeme.kind_ne_endOfQuery _)
  | ending sentence => exact sentence

theorem continues_token (h : k ≠ .endOfQuery) :
    Continues ts k ↔ ∃ t : Token, t.lexeme.kind = k ∧ Viable (ts ++ [t]) := by
  constructor
  · rintro (⟨hviable⟩ | hsentence)
    · exact ⟨_, rfl, hviable⟩
    · exact absurd rfl h
  · rintro ⟨t, rfl, hviable⟩
    exact .token hviable

end

section
variable {blocks : List OpenBlock} {ds : CallsTree} {t : Token}

theorem viable_name (h : t.lexeme.kind = .name) :
    Viable (OpenTree.tokens ⟨blocks, .after ds⟩ ++ [t]) := by
  obtain ⟨l, offset, line⟩ := t
  obtain ⟨n, rfl⟩ := Lexeme.exists_eq_name h
  have hviable := OpenTree.viable ⟨blocks, .within (some ds) (.name ⟨n, offset, line⟩)⟩
  have htokens : OpenTree.tokens ⟨blocks, .within (some ds) (.name ⟨n, offset, line⟩)⟩ =
      OpenTree.tokens ⟨blocks, .after ds⟩ ++ [⟨.atom (.name n), offset, line⟩] := by
    simp [OpenTree.tokens, OpenCalls.tokens, OpenCall.tokens, CallsTree.tokensIn, Terminal.named,
      Terminal.token]
  rwa [htokens] at hviable

/-- A closing brace can follow if there is a block for it to close. -/
theorem viable_closeBrace_iff (h : t.lexeme.kind = .closeBrace) :
    Viable (OpenTree.tokens ⟨blocks, .after ds⟩ ++ [t]) ↔ blocks ≠ [] := by
  obtain ⟨l, offset, line⟩ := t
  obtain rfl : l = .closeBrace := Lexeme.eq_closeBrace h
  constructor
  · rintro hviable rfl
    have hcount := OpenTree.count_braces [] ds
    have hle := hviable.count_braces_le
    have hbraces : braces [⟨.closeBrace, offset, line⟩] = [.D] := rfl
    rw [braces_append, hbraces, List.count_append, List.count_append, hcount] at hle
    simp at hle
  · intro hne
    obtain ⟨b, blocks, rfl⟩ := List.exists_cons_of_ne_nil hne
    have hviable := OpenTree.viable ⟨blocks, .within b.before
      (.block b.head b.opening ds ⟨(), offset, line⟩)⟩
    have htokens : OpenTree.tokens ⟨blocks, .within b.before
        (.block b.head b.opening ds ⟨(), offset, line⟩)⟩ =
        OpenTree.tokens ⟨b :: blocks, .after ds⟩ ++ [⟨.closeBrace, offset, line⟩] := by
      simp [OpenTree.tokens, OpenCalls.tokens, OpenCall.tokens, OpenBlock.tokens, CallTree.tokens,
        Terminal.marked, Terminal.token]
    rwa [htokens] at hviable

/-- The query can end if no block is open. -/
theorem isSentence_iff : IsSentence (OpenTree.tokens ⟨blocks, .after ds⟩) ↔ blocks = [] := by
  constructor
  · intro hsentence
    have hcount := OpenTree.count_braces blocks ds
    rw [hsentence.count_braces] at hcount
    exact List.eq_nil_of_length_eq_zero (by omega)
  · rintro rfl
    exact ⟨ds, rfl⟩

end

namespace Parsing

/-- The kinds of tokens that are taken, those apart that end the call at hand. -/
def Phase.continuations : Phase → List TokenKind
  | .opened => [.name]
  | .afterName _ => [.openParen, .openBrace, .name]
  | .inArguments _ => .closeParen :: atomKinds
  | .afterWord .. => .closeParen :: .colon :: atomKinds
  | .afterColon .. => atomKinds
  | .afterArguments _ => [.openBrace, .name]
  | .afterBlock .. => [.name]
  | .afterCall => [.name]

/-- What can end the call at hand: the block it is in has to end, or else the query. -/
def State.ending (s : State) : TokenKind := if s.frames.isEmpty then .endOfQuery else .closeBrace

section
variable {place : Nat → Location} {s t : State} {ts : List Token} {tok : Token} {l : Lexeme}
  {here : Location} {k : TokenKind} {e : ParseError}

/-- A token is taken if it is of one of some kinds, and is refused else. -/
def Takes (s : State) (here : Location) (kinds : List TokenKind) (l : Lexeme)
    (x : Except ParseError State) : Prop :=
  (l.kind ∈ kinds ∧ ∃ t, x = .ok t) ∨ l.kind ∉ kinds ∧ x = s.refuse l here

theorem takes_argument (s : State) (head : Head) (l : Lexeme) (here : Location) :
    Takes s here (.closeParen :: atomKinds) l (s.argument head l here) := by
  rcases l with (_ | _ | _ | _) | _ | _ | _ | _ | _
  case openParen | openBrace | closeBrace | colon => exact .inr ⟨by decide, rfl⟩
  all_goals exact .inl ⟨by simp [Lexeme.kind, Atom.kind, atomKinds], _, rfl⟩

/-- Behind a call, only what may end it or begin another one is not refused at once. -/
theorem refuses_behind (hbrace : l.kind ≠ .closeBrace) (hname : l.kind ≠ .name) :
    s.follow l here = s.refuse l here ∧ s.next l here = s.refuse l here := by
  rcases l with (_ | _ | _ | _) | _ | _ | _ | _ | _
  case atom.name => exact absurd rfl hname
  case closeBrace => exact absurd rfl hbrace
  all_goals exact ⟨rfl, rfl⟩

/-- A token is taken by its kind, unless the call at hand may end with it. -/
theorem takes_step (s : State) (here : Location)
    (h : s.phase.MayEnd → l.kind ≠ .closeBrace ∧ l.kind ≠ .name) :
    Takes s here s.phase.continuations l (s.step l here) := by
  obtain ⟨frames, calls, phase⟩ := s
  cases phase with
  | opened =>
    rcases l with (_ | _ | _ | _) | _ | _ | _ | _ | _
    case atom.name => exact .inl ⟨List.mem_cons_self, _, rfl⟩
    all_goals exact .inr ⟨by simp [Lexeme.kind, Atom.kind, Phase.continuations], rfl⟩
  | afterName head =>
    rcases l with (_ | _ | _ | _) | _ | _ | _ | _ | _
    case openParen | openBrace => exact .inl ⟨by simp [Lexeme.kind, Phase.continuations], _, rfl⟩
    case atom.name => exact absurd rfl (h trivial).2
    case closeBrace => exact absurd rfl (h trivial).1
    all_goals exact .inr ⟨by simp [Lexeme.kind, Atom.kind, Phase.continuations], rfl⟩
  | inArguments head => exact takes_argument _ head l here
  | afterWord head word there =>
    rcases l with (_ | _ | _ | _) | _ | _ | _ | _ | _
    case openParen | openBrace | closeBrace =>
      exact .inr ⟨by simp [Lexeme.kind, Phase.continuations, atomKinds], rfl⟩
    all_goals exact .inl ⟨by simp [Lexeme.kind, Atom.kind, Phase.continuations, atomKinds], _, rfl⟩
  | afterColon head name there =>
    rcases l with (_ | _ | _ | _) | _ | _ | _ | _ | _
    case openParen | closeParen | openBrace | closeBrace | colon =>
      exact .inr ⟨by simp [Lexeme.kind, Phase.continuations, atomKinds], rfl⟩
    all_goals exact .inl ⟨by simp [Lexeme.kind, Atom.kind, Phase.continuations, atomKinds], _, rfl⟩
  | afterArguments head =>
    rcases l with (_ | _ | _ | _) | _ | _ | _ | _ | _
    case openBrace => exact .inl ⟨by simp [Lexeme.kind, Phase.continuations], _, rfl⟩
    case atom.name => exact absurd rfl (h trivial).2
    case closeBrace => exact absurd rfl (h trivial).1
    all_goals exact .inr ⟨by simp [Lexeme.kind, Atom.kind, Phase.continuations], rfl⟩
  | afterBlock =>
    obtain ⟨hbrace, hname⟩ := h trivial
    exact .inr ⟨by simpa [Phase.continuations], (refuses_behind hbrace hname).1⟩
  | afterCall =>
    obtain ⟨hbrace, hname⟩ := h trivial
    exact .inr ⟨by simpa [Phase.continuations], (refuses_behind hbrace hname).2⟩

theorem ending_eq_closeBrace : s.ending = .closeBrace ↔ s.frames ≠ [] := by
  rw [State.ending]
  cases s.frames with
  | nil => exact iff_of_false nofun (fun h => h rfl)
  | cons => exact iff_of_true rfl nofun

theorem ending_eq_endOfQuery : s.ending = .endOfQuery ↔ s.frames = [] := by
  rw [State.ending]
  cases s.frames with
  | nil => exact iff_of_true rfl rfl
  | cons => exact iff_of_false nofun nofun

theorem State.ending_mem (s : State) : s.ending ∈ TokenKind.enders := by
  rw [State.ending]
  split
  · exact .tail _ (.head _)
  · exact .head _

theorem not_mem_continuations (h : k ∈ TokenKind.enders) (p : Phase) : k ∉ p.continuations := by
  rcases List.mem_pair.mp h with rfl | rfl <;>
    cases p <;> simp [Phase.continuations, atomKinds]

theorem Phase.MayEnd.name_mem {p : Phase} (h : p.MayEnd) : .name ∈ p.continuations := by
  cases p with
  | afterName | afterArguments | afterBlock | afterCall => simp [Phase.continuations]
  | _ => exact h.elim

/-- What else than a name can be taken there makes the call longer. -/
theorem Phase.MayEnd.mem_continuations_iff {p : Phase} (h : p.MayEnd) :
    k ∈ p.continuations ∧ k ≠ .openParen ∧ k ≠ .openBrace ↔ k = .name := by
  cases p with
  | afterName | afterArguments | afterBlock | afterCall =>
    cases k <;> simp [Phase.continuations]
  | _ => exact h.elim

/-- Where a call may end, there are complete calls in as many blocks as the reader has open. -/
theorem Traced.ended (h : Traced place ts s) (hend : s.phase.MayEnd) :
    ∃ blocks ds, OpenTree.tokens ⟨blocks, .after ds⟩ = ts ∧ (s.frames = [] ↔ blocks = []) := by
  obtain ⟨⟨blocks, calls⟩, _, rfl, rfl⟩ := h
  have hframes : (OpenTree.state place ⟨blocks, calls⟩).frames = [] ↔ blocks = [] :=
    List.map_eq_nil_iff
  cases calls with
  | opened => exact hend.elim
  | after ds => exact ⟨blocks, ds, rfl, hframes⟩
  | within before call =>
    cases hcall : call.ended? with
    | none =>
      cases call with
      | inside | word | colon => exact hend.elim
      | _ => cases hcall
    | some d =>
      refine ⟨blocks, .after before d, ?_, hframes⟩
      simp [OpenTree.tokens, OpenCalls.tokens, CallsTree.tokens_after, OpenCall.tokens_ended hcall]

theorem viable_of_takes (h : run place initial ts = .ok s)
    (ht : Takes s (place tok.offset) s.phase.continuations tok.lexeme
      (s.step tok.lexeme (place tok.offset))) :
    Viable (ts ++ [tok]) ↔ tok.lexeme.kind ∈ s.phase.continuations := by
  rcases ht with ⟨hmem, t, hstep⟩ | ⟨hmem, hstep⟩
  · have hrun : run place initial (ts ++ [tok]) = .ok t := by
      rw [run_append h, run_cons hstep]
      rfl
    exact iff_of_true (viable_of_run hrun) hmem
  · have hrun : run place initial (ts ++ [tok]) =
        .error ⟨.unexpected tok.lexeme, some (place tok.offset), s.expected⟩ := by
      rw [run_append h, run, List.foldlM_cons, hstep]
      rfl
    exact iff_of_false (not_viable_of_run_error hrun id) hmem

theorem viable_append_iff (h : run place initial ts = .ok s) : Viable (ts ++ [tok]) ↔
    tok.lexeme.kind ∈ s.phase.continuations ∨ s.phase.MayEnd ∧ tok.lexeme.kind = s.ending := by
  by_cases hdirect : s.phase.MayEnd → tok.lexeme.kind ≠ .closeBrace ∧ tok.lexeme.kind ≠ .name
  · rw [viable_of_takes h (takes_step s _ hdirect), or_iff_left]
    rintro ⟨hend, hkind⟩
    have hmem := s.ending_mem
    rw [← hkind] at hmem
    exact (hdirect hend).1 (Lexeme.kind_eq_closeBrace hmem)
  · -- Arguments out of order may stop the reader here, so the derivations themselves have to tell.
    obtain ⟨hend, hkind⟩ := Classical.not_imp.mp hdirect
    obtain ⟨blocks, ds, rfl, hblocks⟩ := (traced_initial.run h).ended hend
    rw [not_and_or, not_not, not_not] at hkind
    rcases hkind with hkind | hkind
    · rw [viable_closeBrace_iff hkind, hkind, or_iff_right (not_mem_continuations (.head _) _),
        and_iff_right hend, eq_comm, ending_eq_closeBrace, Ne, Ne, hblocks]
    · rw [hkind]
      exact iff_of_true (viable_name hkind) (.inl hend.name_mem)

theorem finish_eq_refuseEnd (h : ¬s.phase.MayEnd) : s.finish here = s.refuseEnd here := by
  obtain ⟨frames, calls, phase⟩ := s
  cases phase with
  | afterName | afterArguments | afterBlock | afterCall => exact absurd trivial h
  | _ => rfl

theorem isSentence_iff_ending (h : run place initial ts = .ok s) :
    IsSentence ts ↔ s.phase.MayEnd ∧ .endOfQuery = s.ending := by
  by_cases hend : s.phase.MayEnd
  · obtain ⟨blocks, ds, rfl, hblocks⟩ := (traced_initial.run h).ended hend
    rw [isSentence_iff, and_iff_right hend, eq_comm (a := TokenKind.endOfQuery),
      ending_eq_endOfQuery, hblocks]
  · refine iff_of_false ?_ fun hs => hend hs.1
    rintro ⟨ds, rfl⟩
    have hrefused : (run place initial ds.tokens >>= (·.finish Location.start)) =
        .error ⟨.unexpectedEnd, some .start, s.expected⟩ := by
      rw [h, ok_bind, finish_eq_refuseEnd hend]
      rfl
    exact allows_finish place ds _ hrefused

/-- What can follow the tokens that a reader took, whatever it makes of their arguments. -/
theorem continues_iff (h : run place initial ts = .ok s) : Continues ts k ↔
    k ∈ s.phase.continuations ∨ s.phase.MayEnd ∧ k = s.ending := by
  by_cases hk : k = .endOfQuery
  · subst hk
    rw [continues_endOfQuery, isSentence_iff_ending h,
      or_iff_right (not_mem_continuations (.tail _ (.head _)) _)]
  · rw [continues_token hk]
    constructor
    · rintro ⟨tok, rfl, hviable⟩
      exact (viable_append_iff h).mp hviable
    · intro hcontinues
      obtain ⟨l, rfl⟩ := TokenKind.exists_lexeme hk
      exact ⟨⟨l, 0, 0⟩, rfl, (viable_append_iff h).mpr hcontinues⟩

theorem ends_iff (h : run place initial ts = .ok s) : Ends ts ↔ s.phase.MayEnd := by
  constructor
  · rintro ⟨k, hk, hcontinues⟩
    exact (((continues_iff h).mp hcontinues).resolve_left (not_mem_continuations hk _)).1
  · intro hend
    exact ⟨s.ending, s.ending_mem, (continues_iff h).mpr (.inr ⟨hend, rfl⟩)⟩

/-- Not both a closing brace and the end can follow. -/
theorem not_continues_enders (h : run place initial ts = .ok s) :
    ¬∀ k ∈ TokenKind.enders, Continues ts k := by
  intro hall
  have hending : ∀ k ∈ TokenKind.enders, k = s.ending := fun k hk =>
    (((continues_iff h).mp (hall k hk)).resolve_left (not_mem_continuations hk _)).2
  cases (hending _ (.head _)).trans (hending _ (.tail _ (.head _))).symm

/-- A block can follow wherever parentheses can. -/
theorem continues_openBrace (h : run place initial ts = .ok s) (hp : Continues ts .openParen) :
    Continues ts .openBrace := by
  rw [continues_iff h] at hp ⊢
  have hne : .openParen ≠ s.ending := by
    rcases List.mem_pair.mp s.ending_mem with hending | hending <;> rw [hending] <;> nofun
  have hopen := hp.resolve_right fun he => hne he.2
  refine .inl ?_
  obtain ⟨frames, calls, phase⟩ := s
  cases phase <;> simp [Phase.continuations, atomKinds] at hopen ⊢

end

end Parsing

end ObjectQuery

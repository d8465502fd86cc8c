import ObjectQuery.Proofs.Query.Tracing

/-!
# Beginnings of queries

Tokens are viable if a derivation begins with them, whatever the order of its arguments is. What the
reader has taken is viable, since all that is open of a derivation can be closed. And the reader
refuses no token of a derivation: there only arguments out of order can stop it. So the first token
that is refused is the first one with which the tokens before it are not viable any more.
-/

set_option autoImplicit false

namespace ObjectQuery

open Outcome

/-- Whether these are the tokens of a derivation. -/
def IsSentence (ts : List Token) : Prop := ∃ ds : CallsTree, ds.tokens = ts

/-- Whether a derivation begins with these tokens. -/
def Viable (ts : List Token) : Prop := ∃ ds : CallsTree, ts <+: ds.tokens

section Closing

/-- A mark that is put behind what is open. -/
def Mark.added : Mark := ⟨(), 0, 0⟩

/-- The call of an argument list that is closed where it stands. -/
def OpenArguments.closed (o : OpenArguments) : CallTree :=
  .plain ⟨o.name, some ⟨o.opening, o.arguments, .added⟩⟩

theorem OpenArguments.tokens_closed (o : OpenArguments) :
    o.closed.tokens = o.tokens ++ [Mark.added.marked .closeParen] := by
  rw [closed, CallTree.tokens]
  rfl

theorem OpenCall.exists_closed (c : OpenCall) :
    ∃ (d : CallTree) (r : List Token), d.tokens = c.tokens ++ r := by
  have hended {d : CallTree} (h : c.ended? = some d) :
      ∃ (d : CallTree) (r : List Token), d.tokens = c.tokens ++ r :=
    ⟨d, [], by rw [tokens_ended h, List.append_nil]⟩
  cases c with
  | name | parentheses | block => exact hended rfl
  | inside o => exact ⟨o.closed, _, o.tokens_closed⟩
  | word o w =>
    refine ⟨(o.add (.positional ⟨.name w.content, w.offset, w.line⟩)).closed,
      [Mark.added.marked .closeParen], ?_⟩
    rw [OpenArguments.tokens_closed, OpenArguments.tokens_add]
    rfl
  | colon o w c =>
    -- Any value will do behind the colon.
    refine ⟨(o.add (.named w c ⟨.name w.content, 0, 0⟩)).closed,
      [⟨.atom (.name w.content), 0, 0⟩, Mark.added.marked .closeParen], ?_⟩
    rw [OpenArguments.tokens_closed, OpenArguments.tokens_add]
    simp [tokens, ArgumentTree.tokens, Terminal.token]

theorem OpenCalls.exists_closed (cs : OpenCalls) :
    ∃ (ds : CallsTree) (r : List Token), ds.tokens = cs.tokens ++ r := by
  cases cs with
  | opened => exact ⟨.one (.plain ⟨⟨"a", 0, 0⟩, none⟩), _, rfl⟩
  | within before call =>
    obtain ⟨d, r, hd⟩ := call.exists_closed
    refine ⟨.after before d, r, ?_⟩
    rw [CallsTree.tokens_after, hd, tokens, List.append_assoc]
  | after ds => exact ⟨ds, [], (List.append_nil _).symm⟩

/-- Calls that fill the innermost of some open blocks fill the outermost one. -/
theorem OpenBlock.exists_closed (blocks : List OpenBlock) {ts : List Token}
    (h : ∃ (ds : CallsTree) (r : List Token), ds.tokens = ts ++ r) :
    ∃ (ds : CallsTree) (r : List Token),
      ds.tokens = blocks.reverse.flatMap OpenBlock.tokens ++ ts ++ r := by
  induction blocks generalizing ts with
  | nil => exact h
  | cons b blocks ih =>
    obtain ⟨ds, r, hds⟩ := h
    rw [List.reverse_cons, List.flatMap_append, List.flatMap_singleton,
      List.append_assoc _ b.tokens]
    refine ih ⟨.after b.before (.block b.head b.opening ds .added),
      r ++ [Mark.added.marked .closeBrace], ?_⟩
    rw [CallsTree.tokens_after, CallTree.tokens, hds, tokens]
    simp

theorem OpenTree.viable (p : OpenTree) : Viable p.tokens := by
  obtain ⟨ds, r, hds⟩ := OpenBlock.exists_closed p.blocks p.calls.exists_closed
  exact ⟨ds, r, hds.symm⟩

end Closing

namespace Parsing

section
variable {place : Nat → Location} {s : State} {ts : List Token}

theorem Traced.viable (h : Traced place ts s) : Viable ts := by
  obtain ⟨p, _, rfl, _⟩ := h
  exact p.viable

theorem viable_of_run (h : run place initial ts = .ok s) : Viable ts :=
  (traced_initial.run h).viable

end

end Parsing

/-- Whether it is the order of arguments that is wrong. -/
def ParseCause.OfOrder : ParseCause → Prop
  | .positionalAfterNamed .. | .repeatedArgument .. => True
  | _ => False

namespace Parsing

theorem ofOrder_of_misplaced {call : String} {names : List String} {as : List Argument}
    {cause : ParseCause} (h : misplaced call names as = some cause) : cause.OfOrder := by
  induction as generalizing names with
  | nil => cases h
  | cons a as ih =>
    rw [misplaced] at h
    split at h
    · cases h
      trivial
    · split at h
      · cases h
        trivial
      · exact ih h

/-- An outcome that is as described, unless arguments out of order stopped the reader. -/
def Allows (P : State → Prop) : Except ParseError State → Prop
  | .ok t => P t
  | .error e => e.cause.OfOrder

section
variable {P Q : State → Prop} {x : Except ParseError State} {s t : State} {l : Lexeme}
  {here : Location}

theorem Allows.mono (h : Allows P x) (hpq : ∀ t, P t → Q t) : Allows Q x := by
  cases x with
  | ok t => exact hpq t h
  | error e => exact h

theorem Allows.bind {f : State → Except ParseError State} (h : Allows P x)
    (hf : ∀ t, P t → Allows Q (f t)) : Allows Q (x >>= f) := by
  cases x with
  | ok t => exact hf t h
  | error e => exact h

theorem allows_complete (s : State) (head : Head) (selections : List Call) :
    Allows (fun t => t.frames = s.frames ∧ t.phase = .afterCall) (s.complete head selections) := by
  rw [State.complete]
  split
  · rename_i cause hcause
    exact ofOrder_of_misplaced hcause
  · exact ⟨rfl, rfl⟩

/-- Whether the call at hand may end here, or has ended. -/
def Phase.MayEnd : Phase → Prop
  | .afterName _ | .afterArguments _ | .afterBlock .. | .afterCall => True
  | _ => False

theorem allows_settle (h : s.phase.MayEnd) :
    Allows (fun t => t.frames = s.frames ∧ t.phase = .afterCall) s.settle := by
  rw [State.settle]
  split
  · exact allows_complete ..
  · exact allows_complete ..
  · exact allows_complete ..
  · rename_i hname harguments hblock
    refine ⟨rfl, ?_⟩
    cases hphase : s.phase with
    | afterCall => rfl
    | afterName head => exact (hname head hphase).elim
    | afterArguments head => exact (harguments head hphase).elim
    | afterBlock head selections => exact (hblock head selections hphase).elim
    | _ =>
      rw [hphase] at h
      exact h.elim

/-- A token that ends the call at hand or begins another one comes behind the call. -/
theorem step_mayEnd (h : s.phase.MayEnd) (hl : l = .closeBrace ∨ ∃ n, l = .atom (.name n))
    (here : Location) : s.step l here = s.settle >>= (·.next l here) := by
  have hfollow : s.follow l here = s.settle >>= (·.next l here) := by
    rcases hl with rfl | ⟨n, rfl⟩ <;> rfl
  obtain ⟨frames, calls, phase⟩ := s
  rw [← hfollow]
  cases phase with
  | afterName | afterArguments => rcases hl with rfl | ⟨n, rfl⟩ <;> rfl
  | afterBlock => rfl
  | afterCall => rcases hl with rfl | ⟨n, rfl⟩ <;> rfl
  | _ => exact h.elim

variable {place : Nat → Location} {ts us : List Token}

theorem Allows.run_append (h : Allows P (run place s ts))
    (hnext : ∀ t, P t → Allows Q (run place t us)) : Allows Q (run place s (ts ++ us)) := by
  rw [run, List.foldlM_append]
  exact h.bind hnext

theorem allows_run_cons {tok : Token} (h : Allows P (s.step tok.lexeme (place tok.offset)))
    (hnext : ∀ t, P t → Allows Q (run place t us)) : Allows Q (run place s (tok :: us)) := by
  rw [run, List.foldlM_cons]
  exact h.bind hnext

/-- Where a call may begin. -/
def Begins (s : State) : Prop := (s.phase = .opened ∧ s.calls = []) ∨ s.phase.MayEnd

theorem allows_head (h : Begins s) (d : HeadTree) : Allows (fun t => t.frames = s.frames ∧
    ∃ head, t.phase = .afterName head ∨ t.phase = .afterArguments head)
      (run place s d.tokens) := by
  have hready (calls : List Call) (h : Ready s.frames calls s) : Allows (fun t =>
      t.frames = s.frames ∧ ∃ head, t.phase = .afterName head ∨ t.phase = .afterArguments head)
        (run place s d.tokens) := by
    obtain ⟨t, hrun, ht⟩ := h.run_head place d
    rw [hrun]
    rcases ht with rfl | rfl
    · exact ⟨rfl, _, .inl rfl⟩
    · exact ⟨rfl, _, .inr rfl⟩
  rcases h with ⟨hphase, hcalls⟩ | hend
  · refine hready [] (.inl ⟨?_, rfl⟩)
    rw [← hphase, ← hcalls]
  · have hsettle := allows_settle hend
    cases hs : s.settle with
    | ok t =>
      rw [hs] at hsettle
      obtain ⟨hframes, hphase⟩ := hsettle
      refine hready t.calls (.inr ?_)
      rw [hs, ← hframes, ← hphase]
    | error e =>
      -- The name that comes next ends the call before it, so the reader stops there.
      rw [hs] at hsettle
      have hstep : s.step d.name.named.lexeme (place d.name.named.offset) = .error e :=
        (step_mayEnd hend (.inr ⟨_, rfl⟩) _).trans (by rw [hs, error_bind])
      have hrun : run place s d.tokens = .error e := by
        rw [HeadTree.tokens, run, List.foldlM_cons, hstep, error_bind]
      rw [hrun]
      exact hsettle

mutual

theorem allows_call : ∀ (d : CallTree) {s : State}, Begins s →
    Allows (fun t => t.frames = s.frames ∧ t.phase.MayEnd) (run place s d.tokens)
  | .plain head, s, h => by
    rw [CallTree.tokens]
    refine (allows_head h head).mono ?_
    rintro t ⟨hframes, _, hphase | hphase⟩
    · exact ⟨hframes, by rw [hphase]; trivial⟩
    · exact ⟨hframes, by rw [hphase]; trivial⟩
  | .block head opening calls closing, s, h => by
    rw [CallTree.tokens]
    refine (allows_head h head).run_append ?_
    rintro ⟨frames, before, phase⟩ ⟨rfl, last, hphase⟩
    have hopen : Allows (fun t => (∃ frame, t.frames = frame :: s.frames) ∧ Begins t)
        (State.step ⟨s.frames, before, phase⟩ .openBrace (place opening.offset)) := by
      rcases hphase with rfl | rfl
      · exact ⟨⟨_, rfl⟩, .inl ⟨rfl, rfl⟩⟩
      · exact ⟨⟨_, rfl⟩, .inl ⟨rfl, rfl⟩⟩
    refine allows_run_cons hopen ?_
    rintro t ⟨⟨frame, hframe⟩, ht⟩
    refine (allows_calls calls ht).run_append ?_
    rintro u ⟨hframes, hend⟩
    refine allows_run_cons (P := fun v => v.frames = s.frames ∧ v.phase.MayEnd) ?_ fun v hv => hv
    rw [show (closing.marked .closeBrace).lexeme = .closeBrace from rfl,
      step_mayEnd hend (.inl rfl)]
    refine (allows_settle hend).bind ?_
    rintro ⟨_, after, _⟩ ⟨rfl, rfl⟩
    rw [hframes, hframe]
    exact ⟨rfl, trivial⟩

theorem allows_calls : ∀ (ds : CallsTree) {s : State}, Begins s →
    Allows (fun t => t.frames = s.frames ∧ t.phase.MayEnd) (run place s ds.tokens)
  | .one d, s, h => by
    rw [CallsTree.tokens]
    exact allows_call d h
  | .more d ds, s, h => by
    rw [CallsTree.tokens]
    refine (allows_call d h).run_append ?_
    rintro t ⟨hframes, hend⟩
    rw [← hframes]
    exact allows_calls ds (.inr hend)

end

/-- At the end of a derivation the query may end, unless arguments are out of order. -/
theorem allows_finish (place : Nat → Location) (ds : CallsTree) (here : Location) {e : ParseError}
    (h : (run place initial ds.tokens >>= (·.finish here)) = .error e) : e.cause.OfOrder := by
  have hrun : Allows _ (run place initial ds.tokens) := allows_calls ds (.inl ⟨rfl, rfl⟩)
  cases hs : run place initial ds.tokens with
  | error e' =>
    rw [hs] at h hrun
    cases h
    exact hrun
  | ok s =>
    rw [hs] at h hrun
    obtain ⟨hframes, hend⟩ := hrun
    have hsettle := allows_settle hend
    rw [ok_bind, State.finish] at h
    cases ht : s.settle with
    | error e' =>
      rw [ht] at h hsettle
      cases h
      exact hsettle
    | ok t =>
      rw [ht] at h hsettle
      obtain ⟨hsame, hphase⟩ := hsettle
      rw [ok_bind, hphase, hsame, hframes] at h
      cases h

/-- What no derivation begins with is refused, if not for the order of arguments. -/
theorem not_viable_of_run_error {e : ParseError} (h : run place initial ts = .error e)
    (he : ¬e.cause.OfOrder) : ¬Viable ts := by
  rintro ⟨ds, us, hds⟩
  have hall : run place initial ds.tokens = .error e := by
    rw [← hds, run, List.foldlM_append]
    exact congrArg (· >>= _) h
  have hallowed : Allows _ (run place initial ds.tokens) := allows_calls ds (.inl ⟨rfl, rfl⟩)
  rw [hall] at hallowed
  exact he hallowed

end

end Parsing

end ObjectQuery

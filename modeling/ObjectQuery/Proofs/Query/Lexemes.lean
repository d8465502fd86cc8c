import ObjectQuery.Proofs.Outcome
import ObjectQuery.Proofs.Query.Shape

/-!
# Reading by lexemes

The reader copies places and never looks at them. So each step that it takes is taken in the same
way when all places are put to the start of the text, and up to places what is read depends on the
lexemes of the tokens alone. That goes for what is refused as well: only the place of an error
differs.
-/

set_option autoImplicit false

namespace ObjectQuery

open Outcome

def ParseError.unplaced (e : ParseError) : ParseError :=
  { e with location := e.location.map fun _ => .start }

namespace Parsing

def Head.unplaced (h : Head) : Head := ⟨h.name, h.arguments.map Argument.unplaced, .start⟩

def Frame.unplaced (f : Frame) : Frame := ⟨f.head.unplaced, f.before.map Call.unplaced⟩

def Phase.unplaced : Phase → Phase
  | opened => opened
  | afterName head => afterName head.unplaced
  | inArguments head => inArguments head.unplaced
  | afterWord head word _ => afterWord head.unplaced word .start
  | afterColon head name _ => afterColon head.unplaced name .start
  | afterArguments head => afterArguments head.unplaced
  | afterBlock head selections => afterBlock head.unplaced (selections.map Call.unplaced)
  | afterCall => afterCall

def State.unplaced (s : State) : State :=
  ⟨s.frames.map Frame.unplaced, s.calls.map Call.unplaced, s.phase.unplaced⟩

/-- An outcome without the places in it. -/
def forget {α : Type} (f : α → α) : Except ParseError α → Except ParseError α
  | .ok a => .ok (f a)
  | .error e => .error e.unplaced

theorem forget_bind {α β : Type} {f : α → α} {g : β → β} {x y : Except ParseError α}
    {k m : α → Except ParseError β} (hx : forget f x = y) (hk : ∀ a, forget g (k a) = m (f a)) :
    forget g (x >>= k) = y >>= m := by
  subst hx
  cases x with
  | ok a => exact hk a
  | error e => rfl

theorem misplaced_unplaced (call : String) (names : List String) (as : List Argument) :
    misplaced call names (as.map Argument.unplaced) = misplaced call names as := by
  induction as generalizing names with
  | nil => rfl
  | cons a as ih =>
    obtain ⟨value, name, location⟩ := a
    cases name with
    | none => rfl
    | some n =>
      have hmore := ih (n :: names)
      simp only [List.map_cons, misplaced, Argument.unplaced, hmore]

theorem disorder_unplaced (call : String) (as : List Argument) :
    disorder call (as.map Argument.unplaced) = disorder call as := by
  rw [disorder, disorder, List.dropWhile_map, misplaced_unplaced]
  rfl

section
variable (s : State) (l : Lexeme) (here : Location)

theorem expected_unplaced : s.unplaced.expected = s.expected := by
  obtain ⟨frames, calls, phase⟩ := s
  cases phase with
  | afterCall => cases frames <;> rfl
  | _ => rfl

theorem refuse_unplaced {α : Type} (f : α → α) :
    forget f (s.refuse l here) = s.unplaced.refuse l .start := by
  rw [State.refuse, State.refuse, expected_unplaced]
  rfl

theorem complete_unplaced (head : Head) (selections : List Call) :
    forget State.unplaced (s.complete head selections) =
      s.unplaced.complete head.unplaced (selections.map Call.unplaced) := by
  have horder : disorder head.unplaced.name head.unplaced.arguments =
      disorder head.name head.arguments := disorder_unplaced _ _
  rw [State.complete, State.complete, horder]
  split
  · rfl
  · simp only [forget, State.unplaced, List.map_cons, Call.unplaced, Call.unplacedAll_eq]
    rfl

theorem settle_unplaced : forget State.unplaced s.settle = s.unplaced.settle := by
  obtain ⟨frames, calls, phase⟩ := s
  cases phase with
  | afterName head => exact complete_unplaced _ head []
  | afterArguments head => exact complete_unplaced _ head []
  | afterBlock head selections => exact complete_unplaced _ head selections
  | _ => rfl

theorem next_unplaced : forget State.unplaced (s.next l here) = s.unplaced.next l .start := by
  have hrefuse := refuse_unplaced s l here State.unplaced
  obtain ⟨frames, calls, phase⟩ := s
  cases l with
  | atom a =>
    cases a with
    | name n => rfl
    | _ => exact hrefuse
  | closeBrace =>
    cases frames with
    | nil => exact hrefuse
    | cons frame frames =>
      simp only [State.next, forget, State.unplaced, List.map_cons, Phase.unplaced,
        List.map_reverse]
      rfl
  | _ => exact hrefuse

theorem follow_unplaced :
    forget State.unplaced (s.follow l here) = s.unplaced.follow l .start := by
  have hrefuse := refuse_unplaced s l here State.unplaced
  have hnext : forget State.unplaced (s.settle >>= fun t => t.next l here) =
      s.unplaced.settle >>= fun t => t.next l .start :=
    forget_bind (settle_unplaced s) fun t => next_unplaced t l here
  cases l with
  | atom a =>
    cases a with
    | name n => exact hnext
    | _ => exact hrefuse
  | closeBrace => exact hnext
  | _ => exact hrefuse

theorem argument_unplaced (head : Head) : forget State.unplaced (s.argument head l here) =
    s.unplaced.argument head.unplaced l .start := by
  have hrefuse := refuse_unplaced s l here State.unplaced
  cases l with
  | atom a => cases a <;> rfl
  | closeParen =>
    simp only [State.argument, forget, State.unplaced, Phase.unplaced, Head.unplaced, Head.close,
      List.map_reverse]
  | _ => exact hrefuse

/-- A step is taken in the same way wherever the token stands, and whatever places are known. -/
theorem step_unplaced : forget State.unplaced (s.step l here) = s.unplaced.step l .start := by
  have hrefuse := refuse_unplaced s l here State.unplaced
  have hfollow := follow_unplaced s l here
  obtain ⟨frames, calls, phase⟩ := s
  cases phase with
  | opened =>
    cases l with
    | atom a =>
      cases a with
      | name n => rfl
      | _ => exact hrefuse
    | _ => exact hrefuse
  | afterName head =>
    cases l with
    | openParen => rfl
    | openBrace => rfl
    | _ => exact hfollow
  | inArguments head => exact argument_unplaced _ l here head
  | afterWord head word there =>
    have hargument := argument_unplaced ⟨frames, calls, .afterWord head word there⟩ l here
      (head.add (.name word) none there)
    cases l with
    | atom a => exact hargument
    | closeParen => exact hargument
    | colon => rfl
    | _ => exact hrefuse
  | afterColon head name there =>
    cases l with
    | atom a => rfl
    | _ => exact hrefuse
  | afterArguments head =>
    cases l with
    | openBrace => rfl
    | _ => exact hfollow
  | afterBlock head selections => exact hfollow
  | afterCall => exact next_unplaced _ l here

theorem finish_unplaced : forget (List.map Call.unplaced) (s.finish here) =
    s.unplaced.finish .start := by
  refine forget_bind (settle_unplaced s) fun t => ?_
  have hexpected := expected_unplaced t
  obtain ⟨frames, calls, phase⟩ := t
  cases phase with
  | afterCall =>
    cases frames with
    | nil => exact congrArg Except.ok List.map_reverse
    | cons frame frames => rfl
  | _ => rfl

end

/-- A run over tokens is one over their lexemes, but for the places. -/
theorem run_unplaced (place : Nat → Location) (s : State) (ts : List Token) :
    forget State.unplaced (run place s ts) =
      (ts.map Token.lexeme).foldlM (fun t l => t.step l .start) s.unplaced := by
  induction ts generalizing s with
  | nil => rfl
  | cons t ts ih =>
    rw [run, List.foldlM_cons, List.map_cons, List.foldlM_cons]
    exact forget_bind (step_unplaced s t.lexeme (place t.offset)) ih

end Parsing

namespace Query

/-- What lexemes are read as, up to places. -/
def ofLexemes (ls : List Lexeme) : Except ParseError Query := do
  (← ls.foldlM (fun s l => s.step l .start) Parsing.initial).finish .start

/-- A text is read by its lexemes, but for the places. -/
theorem forget_parse {text : String} (h : (scan text.toList).failure = none) :
    Parsing.forget (List.map Call.unplaced) (parse text) =
      ofLexemes ((scan text.toList).tokens.map Token.lexeme) := by
  rw [parse, h]
  exact Parsing.forget_bind (Parsing.run_unplaced _ Parsing.initial _) fun s =>
    Parsing.finish_unplaced s _

/-- Whether two outcomes of reading are the same but for the places in them. -/
def SameUpToPlaces (x y : Except ParseError Query) : Prop :=
  (∀ q, x = .ok q → ∃ q', y = .ok q' ∧ Call.sameAll q q' = true) ∧
    ∀ e, x = .error e → ∃ e', y = .error e' ∧ e'.cause = e.cause ∧ e'.expected = e.expected

theorem sameUpToPlaces_of_forget {x y : Except ParseError Query}
    (h : Parsing.forget (List.map Call.unplaced) x = Parsing.forget (List.map Call.unplaced) y) :
    SameUpToPlaces x y := by
  cases x with
  | ok q =>
    cases y with
    | ok q' =>
      refine ⟨?_, nofun⟩
      rintro _ ⟨⟩
      refine ⟨q', rfl, ?_⟩
      rw [Call.sameAll_iff, Call.unplacedAll_eq, Call.unplacedAll_eq]
      exact Except.ok.inj h
    | error e => cases h
  | error e =>
    cases y with
    | ok q => cases h
    | error e' =>
      refine ⟨nofun, ?_⟩
      rintro _ ⟨⟩
      obtain ⟨hcause, _, hexpected⟩ := ParseError.mk.inj (Except.error.inj h)
      exact ⟨e', rfl, hcause.symm, hexpected.symm⟩

/-- Texts with the same lexemes are read in the same way. -/
theorem sameUpToPlaces_of_lexemes {text other : String} (h : (scan text.toList).failure = none)
    (h' : (scan other.toList).failure = none)
    (hlexemes : (scan text.toList).tokens.map Token.lexeme =
      (scan other.toList).tokens.map Token.lexeme) : SameUpToPlaces (parse text) (parse other) := by
  refine sameUpToPlaces_of_forget ?_
  rw [forget_parse h, forget_parse h', hlexemes]

end Query

end ObjectQuery

import ObjectQuery.Proofs.Query.Derivation
import ObjectQuery.Proofs.Query.Grammar

/-!
# What is derived is read

The tokens of a derivation with arguments in order take the reader from a place where a call may
begin to one where the call is complete, and it is then what the derivation is read as.
-/

set_option autoImplicit false

namespace ObjectQuery

open Outcome

section
variable {n : String} {names : List (Option String)}

theorem namesInOrder_none : NamesInOrder (none :: names) ↔ NamesInOrder names := by
  simp [NamesInOrder, List.reduceOption_cons_of_none]

theorem namesInOrder_some : NamesInOrder (some n :: names) ↔
    none ∉ names ∧ n ∉ names.reduceOption ∧ names.reduceOption.Nodup := by
  simp only [NamesInOrder, List.pairwise_cons, List.reduceOption_cons_of_some, List.nodup_cons,
    reduceCtorEq, imp_false]
  constructor
  · rintro ⟨⟨hnone, _⟩, hn, hnodup⟩
    exact ⟨fun hmem => hnone none hmem rfl, hn, hnodup⟩
  · rintro ⟨hnone, hn, hnodup⟩
    have hnamed : ∀ a ∈ names, a ≠ none := by
      rintro a ha rfl
      exact hnone ha
    refine ⟨⟨hnamed, ?_⟩, hn, hnodup⟩
    exact List.pairwise_of_forall_mem_list fun a _ b hb hbn => absurd hbn (hnamed b hb)

end

namespace Parsing

/-- Behind a named argument there are named ones with other names only. -/
theorem misplaced_eq_none_iff {call : String} {seen : List String} {as : List Argument} :
    misplaced call seen as = none ↔ none ∉ as.map Argument.name ∧
      (as.map Argument.name).reduceOption.Nodup ∧
      ∀ n ∈ (as.map Argument.name).reduceOption, n ∉ seen := by
  induction as generalizing seen with
  | nil => simp [misplaced]
  | cons a as ih =>
    rw [misplaced]
    split
    · rename_i hn
      simp [hn]
    · rename_i n hn
      rw [List.map_cons, hn, List.reduceOption_cons_of_some, List.nodup_cons]
      split
      · rename_i hseen
        have hmem : n ∈ seen := List.contains_iff_mem.mp hseen
        simp [hmem]
      · rename_i hseen
        have hmem : n ∉ seen := fun h => hseen (List.contains_iff_mem.mpr h)
        rw [ih]
        simp only [List.mem_cons, not_or, reduceCtorEq, false_or]
        constructor
        · rintro ⟨hnone, hnodup, hfresh⟩
          refine ⟨hnone, ⟨fun h => (hfresh n h).1 rfl, hnodup⟩, ?_⟩
          rintro m (rfl | hm)
          · exact hmem
          · exact (hfresh m hm).2
        · rintro ⟨hnone, ⟨hn, hnodup⟩, hfresh⟩
          refine ⟨hnone, hnodup, fun m hm => ⟨?_, hfresh m (.inr hm)⟩⟩
          rintro rfl
          exact hn hm

theorem disorder_eq_none_iff {call : String} {as : List Argument} :
    disorder call as = none ↔ NamesInOrder (as.map Argument.name) := by
  rw [disorder]
  induction as with
  | nil => simp [misplaced, NamesInOrder]
  | cons a as ih =>
    cases hn : a.name with
    | none =>
      rw [List.dropWhile_cons_of_pos (by simp [Argument.isPositional, hn]), ih, List.map_cons, hn,
        namesInOrder_none]
    | some n =>
      rw [List.dropWhile_cons_of_neg (by simp [Argument.isPositional, hn]), List.map_cons, hn,
        namesInOrder_some, misplaced, hn]
      simp only [List.contains_nil, Bool.false_eq_true, if_false, misplaced_eq_none_iff,
        List.mem_singleton]
      constructor
      · rintro ⟨hnone, hnodup, hfresh⟩
        exact ⟨hnone, fun h => hfresh n h rfl, hnodup⟩
      · rintro ⟨hnone, hfresh, hnodup⟩
        exact ⟨hnone, hnodup, fun m hm h => hfresh (h ▸ hm)⟩

section
variable {place : Nat → Location} {s s' : State} {ts us : List Token}

theorem run_cons {t : Token} (h : s.step t.lexeme (place t.offset) = .ok s') :
    run place s (t :: ts) = run place s' ts := by
  rw [run, List.foldlM_cons, h]
  rfl

theorem run_append (h : run place s ts = .ok s') : run place s (ts ++ us) = run place s' us := by
  rw [run, List.foldlM_append]
  exact congrArg (· >>= _) h

end

/-- Between the parentheses of a call, or behind a word that is still open. -/
structure Inside (frames : List Frame) (calls : List Call) (head : Head) (s : State) : Prop where
  frames : s.frames = frames
  calls : s.calls = calls
  opened : s.phase.openHead? = some head

section
variable (place : Nat → Location) {frames : List Frame} {calls : List Call} {s : State}

theorem Inside.argument {head : Head} (h : Inside frames calls head s) (a : ArgumentTree) :
    ∃ s', run place s a.tokens = .ok s' ∧
      Inside frames calls { head with arguments := a.read place :: head.arguments } s' := by
  have hfirst (b : Atom) (here : Location) :=
    step_argument h.opened (l := .atom b) (.inr ⟨b, rfl⟩) here
  cases a with
  | positional value =>
    obtain ⟨s', hs', hframes, hcalls, hopened⟩ :=
      argument_atom s head value.content (place value.offset)
    refine ⟨s', run_cons ((hfirst _ _).trans hs'), ?_⟩
    exact ⟨hframes.trans h.frames, hcalls.trans h.calls, hopened⟩
  | named name colon value =>
    refine ⟨⟨s.frames, s.calls, .inArguments
      (head.add value.content (some name.content) (place name.offset))⟩, ?_, ?_⟩
    · refine (run_cons (hfirst (.name name.content) _)).trans ?_
      exact (run_cons rfl).trans ((run_cons rfl).trans rfl)
    · exact ⟨h.frames, h.calls, rfl⟩

theorem Inside.arguments {head : Head} (h : Inside frames calls head s) (as : List ArgumentTree) :
    ∃ s', run place s (as.flatMap ArgumentTree.tokens) = .ok s' ∧
      Inside frames calls
        { head with arguments := (as.map (·.read place)).reverse ++ head.arguments } s' := by
  induction as generalizing head s with
  | nil => exact ⟨s, rfl, h⟩
  | cons a as ih =>
    obtain ⟨s', hrun, hs'⟩ := h.argument place a
    obtain ⟨s'', hrun', hs''⟩ := ih hs'
    refine ⟨s'', ?_, ?_⟩
    · rw [List.flatMap_cons, run_append hrun, hrun']
    · simpa using hs''

end

/-- What a reader knows of a call behind its head. -/
def headOf (place : Nat → Location) (d : HeadTree) : Head :=
  ⟨d.name.content, d.arguments.map (·.read place), place d.name.offset⟩

section
variable (place : Nat → Location) {frames : List Frame} {calls : List Call} {s t : State}

/-- The arguments of a call are read up to where its parentheses close. -/
theorem Ready.run_inside (h : Ready frames calls s) (name : Terminal String) (opening : Mark)
    (as : List ArgumentTree) :
    ∃ s', run place s (name.named :: opening.marked .openParen ::
        as.flatMap ArgumentTree.tokens) = .ok s' ∧
      Inside frames calls ⟨name.content, (as.map (·.read place)).reverse, place name.offset⟩
        s' := by
  have hinside : Inside frames calls ⟨name.content, [], place name.offset⟩
      ⟨frames, calls, .inArguments ⟨name.content, [], place name.offset⟩⟩ := ⟨rfl, rfl, rfl⟩
  obtain ⟨s', hrun, hs'⟩ := hinside.arguments place as
  rw [List.append_nil] at hs'
  exact ⟨s', (run_cons (h.name name.content _)).trans ((run_cons rfl).trans hrun), hs'⟩

theorem Ready.run_head (h : Ready frames calls s) (d : HeadTree) :
    ∃ s', run place s d.tokens = .ok s' ∧ (s' = ⟨frames, calls, .afterName (headOf place d)⟩ ∨
      s' = ⟨frames, calls, .afterArguments (headOf place d)⟩) := by
  obtain ⟨name, parentheses⟩ := d
  cases parentheses with
  | none => exact ⟨_, run_cons (h.name name.content (place name.offset)), .inl rfl⟩
  | some p =>
    obtain ⟨opening, arguments, closing⟩ := p
    obtain ⟨s', hrun, hs'⟩ := h.run_inside place name opening arguments
    have hclose : run place s' [closing.marked .closeParen] = _ :=
      run_cons (step_argument hs'.opened (.inl rfl) (place closing.offset))
    refine ⟨_, ?_, .inr rfl⟩
    refine (run_append hrun).trans (hclose.trans ?_)
    simp only [headOf, HeadTree.arguments, Option.elim_some, Head.close, List.reverse_reverse, run,
      List.foldlM_nil, pure_eq_ok, ← hs'.frames, ← hs'.calls]

/-- A call can be ended if its arguments are in order. -/
theorem complete_eq_ok {place : Nat → Location} {d : HeadTree} {ss : List Call} :
    s.complete (headOf place d) ss = .ok t ↔
      d.InOrder ∧ t = ⟨s.frames, d.read place ss :: s.calls, .afterCall⟩ := by
  have horder : disorder (headOf place d).name (headOf place d).arguments = none ↔ d.InOrder := by
    rw [disorder_eq_none_iff, headOf, List.map_map, HeadTree.InOrder]
    simp only [Function.comp_def, ArgumentTree.name_read]
  rw [← horder, State.complete]
  split
  · rename_i cause hcause
    simp [hcause]
  · rename_i hnone
    simp only [hnone, true_and, Except.ok.injEq]
    exact eq_comm

/-- The block of a call is read up to where it closes, if the calls in it are. -/
theorem Ready.run_block (h : Ready frames calls s) (head : HeadTree) (opening closing : Mark)
    {ds : CallsTree} (hds : ∀ {frames : List Frame} {s : State}, Ready frames [] s →
      ∃ s', run place s ds.tokens = .ok s' ∧
        s'.settle = .ok ⟨frames, (ds.read place).reverse ++ [], .afterCall⟩) :
    run place s (CallTree.block head opening ds closing).tokens
      = .ok ⟨frames, calls, .afterBlock (headOf place head) (ds.read place)⟩ := by
  obtain ⟨s', hrun, hs'⟩ := h.run_head place head
  have hopen : s'.step .openBrace (place opening.offset)
      = .ok ⟨⟨headOf place head, calls⟩ :: frames, [], .opened⟩ := by
    rcases hs' with rfl | rfl <;> rfl
  have hready : Ready (⟨headOf place head, calls⟩ :: frames) []
      ⟨⟨headOf place head, calls⟩ :: frames, [], .opened⟩ := .inl ⟨rfl, rfl⟩
  obtain ⟨s'', hrun', hsettle⟩ := hds hready
  have hclose := step_settled hsettle rfl (.inl rfl) (place closing.offset)
  rw [CallTree.tokens, run_append hrun]
  refine (run_cons hopen).trans ((run_append hrun').trans ?_)
  refine (run_cons hclose).trans ?_
  simp [run]

mutual

theorem Ready.run_call : ∀ (d : CallTree), d.InOrder → ∀ {frames : List Frame}
    {calls : List Call} {s : State}, Ready frames calls s → ∃ s', run place s d.tokens = .ok s' ∧
      s'.settle = .ok ⟨frames, d.read place :: calls, .afterCall⟩
  | .plain head, hd, frames, calls, s, h => by
    rw [CallTree.InOrder] at hd
    obtain ⟨s', hrun, hs'⟩ := h.run_head place head
    refine ⟨s', by rw [CallTree.tokens, hrun], ?_⟩
    rw [CallTree.read]
    rcases hs' with rfl | rfl
    · exact complete_eq_ok.mpr ⟨hd, rfl⟩
    · exact complete_eq_ok.mpr ⟨hd, rfl⟩
  | .block head opening ds closing, hd, frames, calls, s, h => by
    rw [CallTree.InOrder] at hd
    refine ⟨_, h.run_block place head opening closing fun hs => hs.run_calls ds hd.2, ?_⟩
    rw [CallTree.read]
    exact complete_eq_ok.mpr ⟨hd.1, rfl⟩

theorem Ready.run_calls : ∀ (ds : CallsTree), ds.InOrder → ∀ {frames : List Frame}
    {calls : List Call} {s : State}, Ready frames calls s → ∃ s', run place s ds.tokens = .ok s' ∧
      s'.settle = .ok ⟨frames, (ds.read place).reverse ++ calls, .afterCall⟩
  | .one d, hd, frames, calls, s, h => by
    rw [CallsTree.InOrder] at hd
    rw [CallsTree.tokens, CallsTree.read]
    exact h.run_call d hd
  | .more d ds, hds, frames, calls, s, h => by
    rw [CallsTree.InOrder] at hds
    obtain ⟨s', hrun, hsettle⟩ := h.run_call d hds.1
    obtain ⟨s'', hrun', hsettle'⟩ := Ready.run_calls ds hds.2 (.inr hsettle)
    refine ⟨s'', ?_, ?_⟩
    · rw [CallsTree.tokens, run_append hrun, hrun']
    · rw [CallsTree.read, List.reverse_cons, List.append_assoc]
      exact hsettle'

end

theorem finish_derived {ds : CallsTree} (h : ds.InOrder) (here : Location) :
    ∃ s, run place initial ds.tokens = .ok s ∧ s.finish here = .ok (ds.read place) := by
  have hready : Ready [] [] initial := .inl ⟨rfl, rfl⟩
  obtain ⟨s, hrun, hsettle⟩ := hready.run_calls place ds h
  refine ⟨s, hrun, ?_⟩
  rw [State.finish, hsettle, ok_bind]
  simp

end

end Parsing

end ObjectQuery

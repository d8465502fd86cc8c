import ObjectQuery.Proofs.Query.Recognition

/-!
# What is read is derived

At any time the state of the reader is that of a derivation which is not complete yet, and whose
leaves are the tokens taken so far; and the reader takes the tokens of every such derivation. So a
text is accepted if it has a derivation with arguments in order, and only then.
-/

set_option autoImplicit false

namespace ObjectQuery

open Outcome

/-- Calls with one more behind them. -/
def CallsTree.snoc : CallsTree → CallTree → CallsTree
  | .one d, c => .more d (.one c)
  | .more d ds, c => .more d (ds.snoc c)

/-- Calls behind none or some. -/
def CallsTree.after : Option CallsTree → CallTree → CallsTree
  | none, c => .one c
  | some ds, c => ds.snoc c

theorem CallsTree.tokens_snoc : ∀ (ds : CallsTree) (c : CallTree),
    (ds.snoc c).tokens = ds.tokens ++ c.tokens
  | .one d, c => by rw [snoc, tokens, tokens, tokens]
  | .more d ds, c => by rw [snoc, tokens, tokens, tokens_snoc ds c, List.append_assoc]

theorem CallsTree.read_snoc (place : Nat → Location) : ∀ (ds : CallsTree) (c : CallTree),
    (ds.snoc c).read place = ds.read place ++ [c.read place]
  | .one d, c => by rw [snoc, read, read, read]; rfl
  | .more d ds, c => by rw [snoc, read, read, read_snoc place ds c]; rfl

theorem CallsTree.InOrder.snoc : ∀ {ds : CallsTree} {c : CallTree}, ds.InOrder → c.InOrder →
    (ds.snoc c).InOrder
  | .one d, c, hd, hc => by
    rw [CallsTree.InOrder] at hd
    rw [CallsTree.snoc, CallsTree.InOrder, CallsTree.InOrder]
    exact ⟨hd, hc⟩
  | .more d ds, c, hds, hc => by
    rw [CallsTree.InOrder] at hds
    rw [CallsTree.snoc, CallsTree.InOrder]
    exact ⟨hds.1, hds.2.snoc hc⟩

/-- An argument list that is still open. -/
structure OpenArguments where
  name : Terminal String
  opening : Mark
  arguments : List ArgumentTree

/-- A call that may become longer. -/
inductive OpenCall
  | name (name : Terminal String)
  | inside (o : OpenArguments)
  | word (o : OpenArguments) (word : Terminal String)
  | colon (o : OpenArguments) (word : Terminal String) (colon : Mark)
  | parentheses (name : Terminal String) (p : ArgumentsTree)
  | block (head : HeadTree) (opening : Mark) (calls : CallsTree) (closing : Mark)

/-- A block that is still open, and the calls before the one it belongs to. -/
structure OpenBlock where
  before : Option CallsTree
  head : HeadTree
  opening : Mark

/-- What there is of the innermost list of calls. -/
inductive OpenCalls
  | opened
  | within (before : Option CallsTree) (call : OpenCall)
  | after (calls : CallsTree)

/-- A derivation up to some token, the innermost block first. -/
structure OpenTree where
  blocks : List OpenBlock
  calls : OpenCalls

namespace OpenArguments

def tokens (o : OpenArguments) : List Token :=
  o.name.named :: o.opening.marked .openParen :: o.arguments.flatMap ArgumentTree.tokens

def head (place : Nat → Location) (o : OpenArguments) : Parsing.Head :=
  ⟨o.name.content, (o.arguments.map (·.read place)).reverse, place o.name.offset⟩

def add (o : OpenArguments) (a : ArgumentTree) : OpenArguments :=
  { o with arguments := o.arguments ++ [a] }

theorem tokens_add (o : OpenArguments) (a : ArgumentTree) :
    (o.add a).tokens = o.tokens ++ a.tokens := by
  simp [tokens, add]

theorem head_add (place : Nat → Location) (o : OpenArguments) (a : ArgumentTree) :
    (o.add a).head place =
      { o.head place with arguments := a.read place :: (o.head place).arguments } := by
  simp [head, add]

end OpenArguments

namespace OpenCall

def tokens : OpenCall → List Token
  | name n => [n.named]
  | inside o => o.tokens
  | word o w => o.tokens ++ [w.named]
  | colon o w c => o.tokens ++ [w.named, c.marked .colon]
  | parentheses n p => HeadTree.tokens ⟨n, some p⟩
  | block head opening calls closing => (CallTree.block head opening calls closing).tokens

def phase (place : Nat → Location) : OpenCall → Parsing.Phase
  | name n => .afterName ⟨n.content, [], place n.offset⟩
  | inside o => .inArguments (o.head place)
  | word o w => .afterWord (o.head place) w.content (place w.offset)
  | colon o w _ => .afterColon (o.head place) w.content (place w.offset)
  | parentheses n p => .afterArguments (Parsing.headOf place ⟨n, some p⟩)
  | block head _ calls _ => .afterBlock (Parsing.headOf place head) (calls.read place)

/-- What is known of the order of arguments. That of the call itself is not checked before its
end. -/
def InOrder : OpenCall → Prop
  | block _ _ calls _ => calls.InOrder
  | _ => True

/-- The call, if it can end here. -/
def ended? : OpenCall → Option CallTree
  | name n => some (.plain ⟨n, none⟩)
  | parentheses n p => some (.plain ⟨n, some p⟩)
  | block head opening calls closing => some (.block head opening calls closing)
  | _ => none

theorem tokens_ended {c : OpenCall} {d : CallTree} (h : c.ended? = some d) :
    d.tokens = c.tokens := by
  cases c with
  | name | parentheses =>
    cases h
    rw [CallTree.tokens]
    rfl
  | block =>
    cases h
    rfl
  | _ => cases h

end OpenCall

/-- The tokens of calls, if there are any. -/
def CallsTree.tokensIn (before : Option CallsTree) : List Token := before.elim [] CallsTree.tokens

/-- What calls are read as, if there are any. -/
def CallsTree.readIn (place : Nat → Location) (before : Option CallsTree) : List Call :=
  before.elim [] (·.read place)

theorem CallsTree.tokens_after (before : Option CallsTree) (c : CallTree) :
    (after before c).tokens = tokensIn before ++ c.tokens := by
  cases before with
  | none => rw [after, tokens]; rfl
  | some ds => exact tokens_snoc ds c

theorem CallsTree.read_after (place : Nat → Location) (before : Option CallsTree) (c : CallTree) :
    (after before c).read place = readIn place before ++ [c.read place] := by
  cases before with
  | none => rw [after, read]; rfl
  | some ds => exact read_snoc place ds c

namespace OpenBlock

def tokens (b : OpenBlock) : List Token :=
  CallsTree.tokensIn b.before ++ b.head.tokens ++ [b.opening.marked .openBrace]

def frame (place : Nat → Location) (b : OpenBlock) : Parsing.Frame :=
  ⟨Parsing.headOf place b.head, (CallsTree.readIn place b.before).reverse⟩

end OpenBlock

namespace OpenCalls

def tokens : OpenCalls → List Token
  | opened => []
  | within before call => CallsTree.tokensIn before ++ call.tokens
  | after calls => calls.tokens

def read (place : Nat → Location) : OpenCalls → List Call
  | opened => []
  | within before _ => CallsTree.readIn place before
  | after calls => calls.read place

def phase (place : Nat → Location) : OpenCalls → Parsing.Phase
  | opened => .opened
  | within _ call => call.phase place
  | after _ => .afterCall

def InOrder : OpenCalls → Prop
  | opened => True
  | within before call => (∀ ds ∈ before, ds.InOrder) ∧ call.InOrder
  | after calls => calls.InOrder

end OpenCalls

namespace OpenTree

def tokens (p : OpenTree) : List Token :=
  p.blocks.reverse.flatMap OpenBlock.tokens ++ p.calls.tokens

/-- The state of a reader that has read so far. -/
def state (place : Nat → Location) (p : OpenTree) : Parsing.State :=
  ⟨p.blocks.map (·.frame place), (p.calls.read place).reverse, p.calls.phase place⟩

structure InOrder (p : OpenTree) : Prop where
  blocks : ∀ b ∈ p.blocks, ∀ ds ∈ b.before, ds.InOrder
  calls : p.calls.InOrder

end OpenTree

namespace Parsing

/-- The tokens so far are those of a derivation that has the state of the reader. -/
def Traced (place : Nat → Location) (ts : List Token) (s : State) : Prop :=
  ∃ p : OpenTree, p.InOrder ∧ p.tokens = ts ∧ p.state place = s

section
variable {place : Nat → Location} {blocks : List OpenBlock} {before : Option CallsTree}
  {call : OpenCall} {d : CallTree} {ds : CallsTree} {s t : State} {tok : Token}

theorem traced_initial : Traced place [] initial :=
  ⟨⟨[], .opened⟩, ⟨nofun, trivial⟩, rfl, rfl⟩

/-- The call at hand moves on. -/
theorem traced_within (place : Nat → Location) (tok : Token)
    (hp : OpenTree.InOrder ⟨blocks, .within before call⟩) (call' : OpenCall)
    (hcall : call'.InOrder) (htokens : call'.tokens = call.tokens ++ [tok]) :
    Traced place (OpenTree.tokens ⟨blocks, .within before call⟩ ++ [tok])
      (OpenTree.state place ⟨blocks, .within before call'⟩) := by
  refine ⟨⟨blocks, .within before call'⟩, ⟨hp.blocks, hp.calls.1, hcall⟩, ?_, rfl⟩
  simp [OpenTree.tokens, OpenCalls.tokens, htokens]

/-- A block of the call at hand is opened. -/
theorem traced_enter (hp : OpenTree.InOrder ⟨blocks, .within before call⟩) (head : HeadTree)
    (htokens : head.tokens = call.tokens) (opening : Mark)
    (htok : tok = opening.marked .openBrace) :
    Traced place (OpenTree.tokens ⟨blocks, .within before call⟩ ++ [tok])
      (OpenTree.state place ⟨⟨before, head, opening⟩ :: blocks, .opened⟩) := by
  refine ⟨⟨⟨before, head, opening⟩ :: blocks, .opened⟩, ⟨?_, trivial⟩, ?_, rfl⟩
  · exact List.forall_mem_cons.mpr ⟨hp.calls.1, hp.blocks⟩
  · simp [OpenTree.tokens, OpenCalls.tokens, OpenBlock.tokens, htokens, htok]

/-- Ending the call at hand puts it behind the calls before it. -/
theorem traced_settle (hp : OpenTree.InOrder ⟨blocks, .within before call⟩)
    (hcall : call.ended? = some d)
    (h : (OpenTree.state place ⟨blocks, .within before call⟩).settle = .ok t) :
    OpenTree.InOrder ⟨blocks, .after (.after before d)⟩ ∧
      t = OpenTree.state place ⟨blocks, .after (.after before d)⟩ := by
  have hstate (c : Call) (hc : c = d.read place) :
      State.mk (blocks.map (·.frame place)) (c :: (CallsTree.readIn place before).reverse)
        .afterCall = OpenTree.state place ⟨blocks, .after (.after before d)⟩ := by
    simp [OpenTree.state, OpenCalls.read, OpenCalls.phase, CallsTree.read_after, hc]
  have hafter (hd : d.InOrder) : OpenTree.InOrder ⟨blocks, .after (.after before d)⟩ := by
    refine ⟨hp.blocks, ?_⟩
    cases before with
    | none =>
      show CallsTree.InOrder (.one d)
      rwa [CallsTree.InOrder]
    | some ds => exact (hp.calls.1 ds rfl).snoc hd
  cases call with
  | name n =>
    cases hcall
    obtain ⟨hd, rfl⟩ := complete_eq_ok (d := ⟨n, none⟩).mp h
    exact ⟨hafter (by rwa [CallTree.InOrder]), hstate _ (by rw [CallTree.read])⟩
  | parentheses n p =>
    cases hcall
    obtain ⟨hd, rfl⟩ := complete_eq_ok (d := ⟨n, some p⟩).mp h
    exact ⟨hafter (by rwa [CallTree.InOrder]), hstate _ (by rw [CallTree.read])⟩
  | block head opening calls closing =>
    cases hcall
    obtain ⟨hd, rfl⟩ := complete_eq_ok (d := head).mp h
    refine ⟨hafter ?_, hstate _ (by rw [CallTree.read])⟩
    rw [CallTree.InOrder]
    exact ⟨hd, hp.calls.2⟩
  | _ => cases hcall

/-- A token behind complete calls. -/
theorem traced_next (hp : OpenTree.InOrder ⟨blocks, .after ds⟩)
    (h : (OpenTree.state place ⟨blocks, .after ds⟩).next tok.lexeme (place tok.offset) = .ok t) :
    Traced place (OpenTree.tokens ⟨blocks, .after ds⟩ ++ [tok]) t := by
  obtain ⟨l, offset, line⟩ := tok
  simp only [State.next] at h
  split at h
  · rename_i n
    cases h
    refine ⟨⟨blocks, .within (some ds) (.name ⟨n, offset, line⟩)⟩, ?_, ?_, rfl⟩
    · refine ⟨hp.blocks, ?_, trivial⟩
      rintro _ ⟨⟩
      exact hp.calls
    · simp [OpenTree.tokens, OpenCalls.tokens, OpenCall.tokens, CallsTree.tokensIn,
        Terminal.named, Terminal.token]
  · cases blocks with
    | nil => cases h
    | cons b blocks =>
      obtain ⟨before, head, opening⟩ := b
      cases h
      obtain ⟨hb, hblocks⟩ := List.forall_mem_cons.mp hp.blocks
      refine ⟨⟨blocks, .within before (.block head opening ds ⟨(), offset, line⟩)⟩,
        ⟨hblocks, hb, hp.calls⟩, ?_, ?_⟩
      · simp [OpenTree.tokens, OpenCalls.tokens, OpenCall.tokens, OpenBlock.tokens,
          CallTree.tokens, Terminal.marked, Terminal.token]
      · simp [OpenTree.state, OpenCalls.read, OpenCalls.phase, OpenCall.phase, OpenBlock.frame]
  · cases h

/-- A token behind a call that can end. -/
theorem traced_follow (tok : Token) (hp : OpenTree.InOrder ⟨blocks, .within before call⟩)
    (hcall : call.ended? = some d)
    (h : (OpenTree.state place ⟨blocks, .within before call⟩).follow tok.lexeme (place tok.offset)
      = .ok t) :
    Traced place (OpenTree.tokens ⟨blocks, .within before call⟩ ++ [tok]) t := by
  have hnext : ∀ u, (OpenTree.state place ⟨blocks, .within before call⟩).settle = .ok u →
      u.next tok.lexeme (place tok.offset) = .ok t →
      Traced place (OpenTree.tokens ⟨blocks, .within before call⟩ ++ [tok]) t := by
    intro u hu ht
    obtain ⟨hafter, rfl⟩ := traced_settle hp hcall hu
    have htokens : OpenTree.tokens ⟨blocks, .within before call⟩
        = OpenTree.tokens ⟨blocks, .after (.after before d)⟩ := by
      simp [OpenTree.tokens, OpenCalls.tokens, CallsTree.tokens_after, OpenCall.tokens_ended hcall]
    rw [htokens]
    exact traced_next hafter ht
  unfold State.follow at h
  split at h
  · obtain ⟨u, hu, ht⟩ := bind_eq_ok.mp h
    exact hnext u hu ht
  · obtain ⟨u, hu, ht⟩ := bind_eq_ok.mp h
    exact hnext u hu ht
  · cases h

/-- A token between the parentheses of a call, in front of an argument. -/
theorem traced_argument (hp : OpenTree.InOrder ⟨blocks, .within before call⟩) {o : OpenArguments}
    (htokens : o.tokens = call.tokens) {phase : Phase}
    (h : State.argument ⟨blocks.map (·.frame place), (CallsTree.readIn place before).reverse, phase⟩
      (o.head place) tok.lexeme (place tok.offset) = .ok t) :
    Traced place (OpenTree.tokens ⟨blocks, .within before call⟩ ++ [tok]) t := by
  obtain ⟨l, offset, line⟩ := tok
  unfold State.argument at h
  split at h
  · rename_i heq
    cases heq
    cases h
    have hclosed := traced_within place ⟨.closeParen, offset, line⟩ hp
      (.parentheses o.name ⟨o.opening, o.arguments, ⟨(), offset, line⟩⟩) trivial (by
        rw [← htokens]
        simp [OpenCall.tokens, HeadTree.tokens, ArgumentsTree.tokens, OpenArguments.tokens,
          Terminal.marked, Terminal.token])
    simpa [OpenTree.state, OpenCalls.read, OpenCalls.phase, OpenCall.phase, headOf,
      HeadTree.arguments, OpenArguments.head, Head.close] using hclosed
  · rename_i n heq
    cases heq
    cases h
    refine traced_within place _ hp (.word o ⟨n, offset, line⟩) trivial ?_
    rw [← htokens]
    rfl
  · rename_i a hname heq
    cases heq
    cases h
    have hadded := traced_within place ⟨.atom a, offset, line⟩ hp
      (.inside (o.add (.positional ⟨a, offset, line⟩))) trivial (by
        rw [← htokens, OpenCall.tokens, OpenArguments.tokens_add]
        rfl)
    simpa [OpenTree.state, OpenCalls.read, OpenCalls.phase, OpenCall.phase,
      OpenArguments.head_add, Head.add, ArgumentTree.read] using hadded
  · cases h

/-- A token behind a word, which is the name of an argument if a colon follows and else a value. -/
theorem traced_word {o : OpenArguments} {w : Terminal String}
    (hp : OpenTree.InOrder ⟨blocks, .within before (.word o w)⟩)
    (h : (OpenTree.state place ⟨blocks, .within before (.word o w)⟩).step tok.lexeme
      (place tok.offset) = .ok t) :
    Traced place (OpenTree.tokens ⟨blocks, .within before (.word o w)⟩ ++ [tok]) t := by
  unfold State.step at h
  simp only [OpenTree.state, OpenCalls.phase, OpenCall.phase] at h
  split at h
  · rename_i heq
    obtain ⟨l, offset, line⟩ := tok
    cases heq
    cases h
    refine traced_within place _ hp (.colon o w ⟨(), offset, line⟩) trivial ?_
    simp [OpenCall.tokens, Terminal.marked, Terminal.token]
  · cases h
  · cases h
  · cases h
  · have hword : (o.add (.positional ⟨.name w.content, w.offset, w.line⟩)).head place
        = (o.head place).add (.name w.content) none (place w.offset) := o.head_add place _
    rw [← hword] at h
    refine traced_argument hp ?_ h
    rw [OpenArguments.tokens_add]
    rfl

/-- A token behind the colon of an argument. -/
theorem traced_value {o : OpenArguments} {w : Terminal String} {c : Mark}
    (hp : OpenTree.InOrder ⟨blocks, .within before (.colon o w c)⟩)
    (h : (OpenTree.state place ⟨blocks, .within before (.colon o w c)⟩).step tok.lexeme
      (place tok.offset) = .ok t) :
    Traced place (OpenTree.tokens ⟨blocks, .within before (.colon o w c)⟩ ++ [tok]) t := by
  obtain ⟨l, offset, line⟩ := tok
  unfold State.step at h
  simp only [OpenTree.state, OpenCalls.phase, OpenCall.phase] at h
  split at h
  · rename_i a
    cases h
    have hadded := traced_within place ⟨.atom a, offset, line⟩ hp
      (.inside (o.add (.named w c ⟨a, offset, line⟩))) trivial (by
        rw [OpenCall.tokens, OpenCall.tokens, OpenArguments.tokens_add]
        simp [ArgumentTree.tokens, Terminal.token])
    simpa [OpenTree.state, OpenCalls.read, OpenCalls.phase, OpenCall.phase,
      OpenArguments.head_add, Head.add, ArgumentTree.read] using hadded
  · cases h

/-- One token. -/
theorem Traced.step {ts : List Token} (hs : Traced place ts s)
    (h : s.step tok.lexeme (place tok.offset) = .ok t) : Traced place (ts ++ [tok]) t := by
  obtain ⟨⟨blocks, calls⟩, hp, rfl, rfl⟩ := hs
  -- What is open of the derivation tells the phase of the reader: one case for each phase.
  cases calls with
  | opened =>
    obtain ⟨l, offset, line⟩ := tok
    unfold State.step at h
    simp only [OpenTree.state, OpenCalls.phase] at h
    split at h
    · rename_i n
      cases h
      refine ⟨⟨blocks, .within none (.name ⟨n, offset, line⟩)⟩,
        ⟨hp.blocks, nofun, trivial⟩, ?_, rfl⟩
      simp [OpenTree.tokens, OpenCalls.tokens, OpenCall.tokens, CallsTree.tokensIn,
        Terminal.named, Terminal.token]
    · cases h
  | after ds => exact traced_next hp h
  | within before call =>
    cases call with
    | name n =>
      obtain ⟨l, offset, line⟩ := tok
      unfold State.step at h
      simp only [OpenTree.state, OpenCalls.phase, OpenCall.phase] at h
      split at h
      · cases h
        exact traced_within place _ hp (.inside ⟨n, ⟨(), offset, line⟩, []⟩) trivial rfl
      · cases h
        exact traced_enter hp ⟨n, none⟩ rfl ⟨(), offset, line⟩ rfl
      · exact traced_follow ⟨l, offset, line⟩ hp rfl h
    | inside o =>
      unfold State.step at h
      simp only [OpenTree.state, OpenCalls.phase, OpenCall.phase] at h
      exact traced_argument hp rfl h
    | word o w => exact traced_word hp h
    | colon o w c => exact traced_value hp h
    | parentheses n p =>
      obtain ⟨l, offset, line⟩ := tok
      unfold State.step at h
      simp only [OpenTree.state, OpenCalls.phase, OpenCall.phase] at h
      split at h
      · cases h
        exact traced_enter hp ⟨n, some p⟩ rfl ⟨(), offset, line⟩ rfl
      · exact traced_follow ⟨l, offset, line⟩ hp rfl h
    | block head opening calls closing =>
      exact traced_follow tok hp rfl h

theorem Traced.run {ts us : List Token} (hs : Traced place ts s) (h : run place s us = .ok t) :
    Traced place (ts ++ us) t := by
  induction us generalizing ts s with
  | nil =>
    cases h
    rwa [List.append_nil]
  | cons u us ih =>
    rw [Parsing.run, List.foldlM_cons] at h
    obtain ⟨s', hstep, hrest⟩ := bind_eq_ok.mp h
    have hrun := ih (hs.step hstep) hrest
    rwa [List.append_assoc] at hrun

/-- If the query may end, the tokens have a derivation. -/
theorem Traced.finish {ts : List Token} {here : Location} {q : Query} (hs : Traced place ts s)
    (h : s.finish here = .ok q) :
    ∃ ds : CallsTree, ds.InOrder ∧ ds.tokens = ts ∧ ds.read place = q := by
  obtain ⟨⟨blocks, calls⟩, hp, rfl, rfl⟩ := hs
  obtain ⟨u, hu, hq⟩ := bind_eq_ok.mp h
  have hafter {ds : CallsTree} (hstate : u = OpenTree.state place ⟨blocks, .after ds⟩) :
      blocks = [] ∧ ds.read place = q := by
    rw [hstate] at hq
    cases blocks with
    | nil =>
      cases hq
      exact ⟨rfl, (List.reverse_reverse _).symm⟩
    | cons b blocks => cases hq
  cases calls with
  | opened =>
    cases hu
    cases hq
  | after ds =>
    obtain ⟨rfl, hread⟩ := hafter (Except.ok.inj hu).symm
    exact ⟨ds, hp.calls, rfl, hread⟩
  | within before call =>
    cases hcall : call.ended? with
    | none =>
      cases call with
      | inside | word | colon =>
        cases hu
        cases hq
      | _ => cases hcall
    | some d =>
      obtain ⟨hds, hstate⟩ := traced_settle hp hcall hu
      obtain ⟨rfl, hread⟩ := hafter hstate
      refine ⟨.after before d, hds.calls, ?_, hread⟩
      rw [CallsTree.tokens_after, OpenCall.tokens_ended hcall]
      rfl

end

section
variable (place : Nat → Location) {frames : List Frame} {calls : List Call} {s : State}

/-- The calls in front of the one at hand are read. -/
theorem Ready.run_before (h : Ready frames [] s) {before : Option CallsTree}
    (hbefore : ∀ ds ∈ before, ds.InOrder) :
    ∃ s', run place s (CallsTree.tokensIn before) = .ok s' ∧
      Ready frames (CallsTree.readIn place before).reverse s' := by
  cases before with
  | none => exact ⟨s, rfl, h⟩
  | some ds =>
    obtain ⟨s', hrun, hsettle⟩ := h.run_calls place ds (hbefore ds rfl)
    rw [List.append_nil] at hsettle
    exact ⟨s', hrun, .inr hsettle⟩

/-- The call at hand is read as far as it goes. -/
theorem Ready.run_open (h : Ready frames calls s) {call : OpenCall} (hcall : call.InOrder) :
    ∃ s', run place s call.tokens = .ok s' := by
  have hinside (o : OpenArguments) := h.run_inside place o.name o.opening o.arguments
  have hword (o : OpenArguments) (w : Terminal String) : ∃ frames calls head,
      run place s (o.tokens ++ [w.named])
        = .ok ⟨frames, calls, .afterWord head w.content (place w.offset)⟩ := by
    obtain ⟨s', hrun, hs'⟩ := hinside o
    have hstep : s'.step w.named.lexeme (place w.named.offset)
        = .ok ⟨s'.frames, s'.calls, .afterWord _ w.content (place w.offset)⟩ :=
      step_argument hs'.opened (.inr ⟨.name w.content, rfl⟩) (place w.offset)
    exact ⟨_, _, _, (run_append hrun).trans (run_cons hstep)⟩
  cases call with
  | name n =>
    obtain ⟨s', hrun, _⟩ := h.run_head place ⟨n, none⟩
    exact ⟨s', hrun⟩
  | inside o =>
    obtain ⟨s', hrun, _⟩ := hinside o
    exact ⟨s', hrun⟩
  | word o w =>
    obtain ⟨_, _, _, hrun⟩ := hword o w
    exact ⟨_, hrun⟩
  | colon o w c =>
    obtain ⟨frames, calls, head, hrun⟩ := hword o w
    refine ⟨⟨frames, calls, .afterColon head w.content (place w.offset)⟩, ?_⟩
    rw [OpenCall.tokens, List.append_cons, run_append hrun]
    exact run_cons rfl
  | parentheses n p =>
    obtain ⟨s', hrun, _⟩ := h.run_head place ⟨n, some p⟩
    exact ⟨s', hrun⟩
  | block head opening ds closing =>
    exact ⟨_, h.run_block place head opening closing fun hs => hs.run_calls place ds hcall⟩

/-- Blocks are read up to where the innermost one begins. -/
theorem run_blocks {blocks : List OpenBlock}
    (h : ∀ b ∈ blocks, ∀ ds ∈ b.before, ds.InOrder) :
    run place initial (blocks.reverse.flatMap OpenBlock.tokens)
      = .ok ⟨blocks.map (·.frame place), [], .opened⟩ := by
  induction blocks with
  | nil => rfl
  | cons b blocks ih =>
    obtain ⟨hb, hblocks⟩ := List.forall_mem_cons.mp h
    have hready : Ready (blocks.map (·.frame place)) []
        ⟨blocks.map (·.frame place), [], .opened⟩ := .inl ⟨rfl, rfl⟩
    obtain ⟨s, hrun, hs⟩ := hready.run_before place hb
    obtain ⟨s', hrun', hs'⟩ := hs.run_head place b.head
    rw [List.reverse_cons, List.flatMap_append, List.flatMap_singleton, run_append (ih hblocks),
      OpenBlock.tokens, List.append_assoc, run_append hrun, run_append hrun']
    rcases hs' with rfl | rfl
    · exact run_cons rfl
    · exact run_cons rfl

/-- Tokens are read without an error if a derivation begins with them in which all calls that have
ended have their arguments in order, and only then. -/
theorem exists_run_iff {ts : List Token} :
    (∃ s, run place initial ts = .ok s) ↔ ∃ p : OpenTree, p.InOrder ∧ p.tokens = ts := by
  constructor
  · rintro ⟨s, hrun⟩
    obtain ⟨p, hp, htokens, _⟩ := traced_initial.run hrun
    exact ⟨p, hp, htokens⟩
  · rintro ⟨⟨blocks, calls⟩, hp, rfl⟩
    have hready : Ready (blocks.map (·.frame place)) []
        ⟨blocks.map (·.frame place), [], .opened⟩ := .inl ⟨rfl, rfl⟩
    rw [OpenTree.tokens, run_append (run_blocks place hp.blocks)]
    cases calls with
    | opened => exact ⟨_, rfl⟩
    | within before call =>
      obtain ⟨s, hrun, hs⟩ := hready.run_before place hp.calls.1
      rw [OpenCalls.tokens, run_append hrun]
      exact hs.run_open place hp.calls.2
    | after ds =>
      obtain ⟨s, hrun, _⟩ := hready.run_calls place ds hp.calls
      exact ⟨s, hrun⟩

end

end Parsing

namespace Query

/-- Whether a text is a sequence of tokens, and these have a derivation. -/
def Derives (text : String) (ds : CallsTree) : Prop := tokenize text = .ok ds.tokens

theorem Derives.unique {text : String} {ds es : CallsTree} (hds : Derives text ds)
    (hes : Derives text es) : ds = es :=
  CallsTree.tokens_injective (Except.ok.inj (hds.symm.trans hes))

theorem tokenize_eq_ok {text : String} {ts : List Token} : tokenize text = .ok ts ↔
    (scan text.toList).failure = none ∧ (scan text.toList).tokens = ts := by
  simp only [tokenize]
  split
  · rename_i offset d heq
    simp [heq]
  · rename_i heq
    simp [heq]

theorem parse_eq_ok_iff {text : String} {q : Query} : parse text = .ok q ↔
    ∃ ds, Derives text ds ∧ ds.InOrder ∧ ds.read (Location.ofOffset text.toList) = q := by
  simp only [parse]
  constructor
  · intro h
    obtain ⟨s, hrun, hrest⟩ := bind_eq_ok.mp h
    split at hrest
    · cases hrest
    · rename_i hnone
      have htraced := Parsing.traced_initial.run hrun
      obtain ⟨ds, horder, htokens, hread⟩ := htraced.finish hrest
      exact ⟨ds, tokenize_eq_ok.mpr ⟨hnone, htokens.symm⟩, horder, hread⟩
  · rintro ⟨ds, hds, horder, rfl⟩
    obtain ⟨hnone, htokens⟩ := tokenize_eq_ok.mp hds
    obtain ⟨s, hrun, hfinish⟩ := Parsing.finish_derived (Location.ofOffset text.toList) horder
      (Location.ofOffset text.toList text.toList.length)
    rw [htokens, hrun, ok_bind, hnone]
    exact hfinish

end Query

end ObjectQuery

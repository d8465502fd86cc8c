import ObjectQuery.Proofs.Outcome
import ObjectQuery.Proofs.Query.Shape

/-!
# Reading by tokens

The tokens that write a call take the reader from a place where a call may begin to one where the
call is complete, wherever the tokens stand and whatever blocks are open. In the other direction the
reader keeps to formed calls on formed tokens, so all it gives is formed.
-/

set_option autoImplicit false

namespace ObjectQuery

def Argument.lexemes (a : Argument) : List Lexeme :=
  match a.name with
  | none => [.atom a.value]
  | some n => [.atom (.name n), .colon, .atom a.value]

namespace Call

def headLexemes (name : String) (arguments : List Argument) : List Lexeme :=
  .atom (.name name) ::
    if arguments.isEmpty then []
    else .openParen :: (arguments.flatMap Argument.lexemes ++ [.closeParen])

mutual

def lexemes : Call → List Lexeme
  | mk name arguments [] _ => headLexemes name arguments
  | mk name arguments (c :: cs) _ =>
    headLexemes name arguments ++ .openBrace :: (lexemesOf (c :: cs) ++ [.closeBrace])

def lexemesOf : List Call → List Lexeme
  | [] => []
  | c :: cs => lexemes c ++ lexemesOf cs

end

end Call

namespace Parsing

/-- From a state, any tokens with these lexemes lead to a state as described. -/
def Goes (s : State) (ls : List Lexeme) (P : State → Prop) : Prop :=
  ∀ (place : Nat → Location) (tokens : List Token), tokens.map Token.lexeme = ls →
    ∃ s', run place s tokens = .ok s' ∧ P s'

section
variable {s : State} {P Q : State → Prop} {ls ms : List Lexeme}

theorem goes_nil (h : P s) : Goes s [] P := by
  intro place tokens ht
  obtain rfl := List.map_eq_nil_iff.mp ht
  exact ⟨s, rfl, h⟩

theorem Goes.cons {l : Lexeme}
    (h : ∀ here, ∃ s', s.step l here = .ok s' ∧ Goes s' ls P) : Goes s (l :: ls) P := by
  intro place tokens ht
  obtain ⟨t, ts, rfl, hl, hts⟩ := List.map_eq_cons_iff.mp ht
  obtain ⟨s', hs, hgo⟩ := h (place t.offset)
  obtain ⟨s'', hrun, hp⟩ := hgo place ts hts
  refine ⟨s'', ?_, hp⟩
  rw [run, List.foldlM_cons, hl, hs]
  exact hrun

theorem Goes.append (h : Goes s ls P) (hnext : ∀ s', P s' → Goes s' ms Q) :
    Goes s (ls ++ ms) Q := by
  intro place tokens ht
  obtain ⟨ts, us, rfl, hts, hus⟩ := List.map_eq_append_iff.mp ht
  obtain ⟨s', hrun, hp⟩ := h place ts hts
  obtain ⟨s'', hrun', hq⟩ := hnext s' hp place us hus
  refine ⟨s'', ?_, hq⟩
  rw [run, List.foldlM_append]
  exact Outcome.bind_eq_ok.mpr ⟨s', hrun, hrun'⟩

theorem Goes.mono (h : Goes s ls P) (hpq : ∀ s', P s' → Q s') : Goes s ls Q := by
  intro place tokens ht
  obtain ⟨s', hrun, hp⟩ := h place tokens ht
  exact ⟨s', hrun, hpq s' hp⟩

end

/-- The call whose parentheses are open, a bare word counted as an argument. -/
def Phase.openHead? : Phase → Option Head
  | .inArguments head => some head
  | .afterWord head word there => some (head.add (.name word) none there)
  | _ => none

/-- Between the parentheses of a call, behind so many arguments. -/
structure Between (frames : List Frame) (calls : List Call) (name : String)
    (arguments : List Argument) (head : Head) (s : State) : Prop where
  frames : s.frames = frames
  calls : s.calls = calls
  opened : s.phase.openHead? = some head
  name : head.name = name
  arguments : head.arguments.reverse.map Argument.unplaced = arguments.map Argument.unplaced

theorem step_argument {s : State} {head : Head} (h : s.phase.openHead? = some head) {l : Lexeme}
    (hl : l = .closeParen ∨ ∃ a, l = .atom a) (here : Location) :
    s.step l here = s.argument head l here := by
  obtain ⟨frames, calls, phase⟩ := s
  cases phase with
  | inArguments => cases h; rfl
  | afterWord =>
    cases h
    rcases hl with rfl | ⟨a, rfl⟩
    · rfl
    · rfl
  | _ => cases h

theorem argument_atom (s : State) (head : Head) (a : Atom) (here : Location) :
    ∃ s', s.argument head (.atom a) here = .ok s' ∧ s'.frames = s.frames ∧ s'.calls = s.calls ∧
      s'.phase.openHead? = some (head.add a none here) := by
  cases a with
  | name w => exact ⟨_, rfl, rfl, rfl, rfl⟩
  | number n => exact ⟨_, rfl, rfl, rfl, rfl⟩
  | string w => exact ⟨_, rfl, rfl, rfl, rfl⟩
  | literal w => exact ⟨_, rfl, rfl, rfl, rfl⟩

theorem Between.argument {frames : List Frame} {calls : List Call} {name : String}
    {arguments : List Argument} {head : Head} {s : State}
    (h : Between frames calls name arguments head s) (a : Argument) :
    Goes s a.lexemes fun s' => ∃ head', Between frames calls name (arguments ++ [a]) head' s' := by
  have hadd (here : Location) :
      (head.add a.value a.name here).arguments.reverse.map Argument.unplaced
        = (arguments ++ [a]).map Argument.unplaced := by
    simp only [Head.add, List.reverse_cons, List.map_append, h.arguments, List.map_cons,
      List.map_nil]
    rfl
  have hfirst (here : Location) (b : Atom) :=
    step_argument h.opened (l := .atom b) (.inr ⟨b, rfl⟩) here
  simp only [Argument.lexemes]
  cases hn : a.name with
  | none =>
    rw [hn] at hadd
    refine Goes.cons fun here => ?_
    obtain ⟨s', hs', hframes, hcalls, hopened⟩ := argument_atom s head a.value here
    refine ⟨s', (hfirst here a.value).trans hs', goes_nil ⟨head.add a.value none here, ?_⟩⟩
    exact ⟨hframes.trans h.frames, hcalls.trans h.calls, hopened, h.name, hadd here⟩
  | some n =>
    rw [hn] at hadd
    refine Goes.cons fun there => ⟨_, hfirst there (.name n), ?_⟩
    refine Goes.cons fun _ => ⟨_, rfl, ?_⟩
    refine Goes.cons fun _ => ⟨_, rfl, ?_⟩
    exact goes_nil ⟨head.add a.value (some n) there, h.frames, h.calls, rfl, h.name, hadd there⟩

theorem Between.all {frames : List Frame} {calls : List Call} {name : String}
    (bs : List Argument) {as : List Argument} {head : Head} {s : State}
    (h : Between frames calls name as head s) :
    Goes s (bs.flatMap Argument.lexemes) fun s' =>
      ∃ head', Between frames calls name (as ++ bs) head' s' := by
  induction bs generalizing as head s with
  | nil => exact goes_nil ⟨head, by rwa [List.append_nil]⟩
  | cons b bs ih =>
    rw [List.flatMap_cons]
    refine (h.argument b).append ?_
    rintro s' ⟨head', hs'⟩
    refine (ih hs').mono ?_
    rintro s'' ⟨head'', hs''⟩
    rw [List.append_assoc] at hs''
    exact ⟨head'', hs''⟩

/-- Where a call may begin, or the block or query end, behind so many calls of a block. -/
def Ready (frames : List Frame) (calls : List Call) (s : State) : Prop :=
  (s = ⟨frames, [], .opened⟩ ∧ calls = []) ∨ s.settle = .ok ⟨frames, calls, .afterCall⟩

/-- A name or a closing brace behind a complete call is taken after that call. -/
theorem step_settled {s t : State} (h : s.settle = .ok t) (ht : t.phase = .afterCall) {l : Lexeme}
    (hl : l = .closeBrace ∨ ∃ n, l = .atom (.name n)) (here : Location) :
    s.step l here = t.next l here := by
  have hfollow : s.follow l here = t.next l here := by
    rcases hl with rfl | ⟨n, rfl⟩
    · simp only [State.follow, h]
      rfl
    · simp only [State.follow, h]
      rfl
  obtain ⟨frames, calls, phase⟩ := s
  cases phase with
  | afterName head =>
    rw [← hfollow]
    rcases hl with rfl | ⟨n, rfl⟩
    · rfl
    · rfl
  | afterArguments head =>
    rw [← hfollow]
    rcases hl with rfl | ⟨n, rfl⟩
    · rfl
    · rfl
  | afterBlock head selections => exact hfollow
  | afterCall =>
    cases h
    rfl
  | _ =>
    cases h
    cases ht

theorem Ready.name {frames : List Frame} {calls : List Call} {s : State}
    (h : Ready frames calls s) (n : String) (here : Location) :
    s.step (.atom (.name n)) here = .ok ⟨frames, calls, .afterName ⟨n, [], here⟩⟩ := by
  rcases h with ⟨rfl, rfl⟩ | h
  · rfl
  · exact step_settled h rfl (.inr ⟨n, rfl⟩) here

/-- Behind everything of a call but its block. -/
structure AtHead (frames : List Frame) (calls : List Call) (name : String)
    (arguments : List Argument) (head : Head) (s : State) : Prop where
  state : s = ⟨frames, calls, .afterName head⟩ ∨ s = ⟨frames, calls, .afterArguments head⟩
  name : head.name = name
  arguments : head.arguments.map Argument.unplaced = arguments.map Argument.unplaced

theorem Ready.head {frames : List Frame} {calls : List Call} {s : State}
    (h : Ready frames calls s) (name : String) (arguments : List Argument) :
    Goes s (Call.headLexemes name arguments) fun s' =>
      ∃ head, AtHead frames calls name arguments head s' := by
  refine Goes.cons fun here => ⟨_, h.name name here, ?_⟩
  cases arguments with
  | nil => exact goes_nil ⟨⟨name, [], here⟩, .inl rfl, rfl, rfl⟩
  | cons a as =>
    refine Goes.cons fun _ => ⟨_, rfl, ?_⟩
    have hstart : Between frames calls name [] ⟨name, [], here⟩
        ⟨frames, calls, .inArguments ⟨name, [], here⟩⟩ := ⟨rfl, rfl, rfl, rfl, rfl⟩
    refine (hstart.all (a :: as)).append ?_
    rintro s' ⟨head, hs'⟩
    refine Goes.cons fun there => ⟨_, step_argument hs'.opened (.inl rfl) there, ?_⟩
    refine goes_nil ⟨head.close, .inr ?_, hs'.name, hs'.arguments⟩
    rw [← hs'.frames, ← hs'.calls]

theorem complete_eq {frames : List Frame} {calls : List Call} {phase : Phase} {head : Head}
    {name : String} {arguments : List Argument} (hn : head.name = name)
    (has : head.arguments.map Argument.unplaced = arguments.map Argument.unplaced)
    (hd : disorder name arguments = none) (ss : List Call) :
    State.complete ⟨frames, calls, phase⟩ head ss
      = .ok ⟨frames, .mk head.name head.arguments ss head.location :: calls, .afterCall⟩ := by
  have hnames (as : List Argument) : as.map Argument.name
      = (as.map Argument.unplaced).map Argument.name := by
    rw [List.map_map]
    rfl
  have hd' : disorder head.name head.arguments = none := by
    rw [hn]
    refine disorder_none_congr ?_ hd
    rw [hnames arguments, hnames head.arguments, has]
  simp only [State.complete, hd']

mutual

/-- The tokens of a call are read as that call. -/
theorem goes_call : ∀ (c : Call), c.Formed → ∀ {frames : List Frame} {calls : List Call}
    {s : State},
    Ready frames calls s → Goes s c.lexemes fun s' =>
      ∃ c', s'.settle = .ok ⟨frames, c' :: calls, .afterCall⟩ ∧ c'.unplaced = c.unplaced
  | .mk name arguments [] _, ⟨_, _, hd, _⟩, frames, calls, s, h => by
    refine (h.head name arguments).mono ?_
    rintro s' ⟨head, hstate, hname, harguments⟩
    refine ⟨.mk head.name head.arguments [] head.location, ?_, ?_⟩
    · rcases hstate with rfl | rfl
      · exact complete_eq hname harguments hd []
      · exact complete_eq hname harguments hd []
    · simp only [Call.unplaced, hname, harguments]
  | .mk name arguments (c :: cs) _, ⟨_, _, hd, hcs⟩, frames, calls, s, h => by
    refine (h.head name arguments).append ?_
    rintro s' ⟨head, hstate, hname, harguments⟩
    refine Goes.cons fun _ => ⟨⟨⟨head, calls⟩ :: frames, [], .opened⟩, ?_, ?_⟩
    · rcases hstate with rfl | rfl
      · rfl
      · rfl
    refine (goes_calls (c :: cs) hcs (.inl ⟨rfl, rfl⟩)).append ?_
    rintro s'' ⟨ds, hready, hds⟩
    have hne : ds ≠ [] := by
      rintro rfl
      cases hds
    have hsettle : s''.settle = .ok ⟨⟨head, calls⟩ :: frames, ds.reverse, .afterCall⟩ := by
      rcases hready with ⟨_, hnil⟩ | hready
      · exact absurd (List.reverse_eq_nil_iff.mp (List.append_eq_nil_iff.mp hnil).1) hne
      · rwa [List.append_nil] at hready
    refine Goes.cons fun here => ⟨_, step_settled hsettle rfl (.inl rfl) here, goes_nil ?_⟩
    refine ⟨.mk head.name head.arguments ds.reverse.reverse head.location,
      complete_eq hname harguments hd _, ?_⟩
    rw [List.reverse_reverse]
    simp only [Call.unplaced, hname, harguments, Call.unplacedAll_eq, hds]

theorem goes_calls : ∀ (cs : List Call), Call.FormedAll cs →
    ∀ {frames : List Frame} {calls : List Call} {s : State}, Ready frames calls s →
      Goes s (Call.lexemesOf cs) fun s' => ∃ ds : List Call, Ready frames (ds.reverse ++ calls) s' ∧
        ds.map Call.unplaced = cs.map Call.unplaced
  | [], _, _, _, _, h => goes_nil ⟨[], h, rfl⟩
  | c :: cs, ⟨hc, hcs⟩, _, _, _, h => by
    refine (goes_call c hc h).append ?_
    rintro s' ⟨d, hsettle, hd⟩
    refine (goes_calls cs hcs (.inr hsettle)).mono ?_
    rintro s'' ⟨ds, hready, hds⟩
    refine ⟨d :: ds, ?_, by rw [List.map_cons, List.map_cons, hd, hds]⟩
    rwa [List.reverse_cons, List.append_assoc]

end

/-- The tokens of calls, at least one, are a query. -/
theorem finish_calls {cs : List Call} (hne : cs ≠ []) (hcs : Call.FormedAll cs)
    {tokens : List Token} (ht : tokens.map Token.lexeme = Call.lexemesOf cs)
    (place : Nat → Location) (here : Location) :
    ∃ s ds, run place initial tokens = .ok s ∧ s.finish here = .ok ds ∧
      ds.map Call.unplaced = cs.map Call.unplaced := by
  obtain ⟨s, hrun, ds, hready, hds⟩ := goes_calls cs hcs (.inl ⟨rfl, rfl⟩) place tokens ht
  refine ⟨s, ds, hrun, ?_, hds⟩
  rcases hready with ⟨_, hnil⟩ | hready
  · have hds' : ds = [] := List.reverse_eq_nil_iff.mp (List.append_eq_nil_iff.mp hnil).1
    rw [hds'] at hds
    exact absurd (List.map_eq_nil_iff.mp hds.symm) hne
  · rw [List.append_nil] at hready
    simp only [State.finish, hready, Outcome.ok_bind, List.reverse_reverse]

def Head.Formed (h : Head) : Prop :=
  Word.isName h.name.toList = true ∧ ∀ a ∈ h.arguments, a.Formed

def Phase.Formed : Phase → Prop
  | .opened | .afterCall => True
  | .afterName h | .inArguments h | .afterArguments h => h.Formed
  | .afterWord h w _ | .afterColon h w _ => h.Formed ∧ Word.isName w.toList = true
  | .afterBlock h ss => h.Formed ∧ ∀ c ∈ ss, c.Formed

/-- What the reader keeps to. -/
structure State.Formed (s : State) : Prop where
  frames : ∀ f ∈ s.frames, f.head.Formed ∧ ∀ c ∈ f.before, c.Formed
  calls : ∀ c ∈ s.calls, c.Formed
  phase : s.phase.Formed
  afterCall : s.phase = .afterCall → s.calls ≠ []

theorem initial_formed : initial.Formed where
  frames := nofun
  calls := nofun
  phase := trivial
  afterCall := nofun

theorem Head.Formed.add {h : Head} (hh : h.Formed) {a : Atom} (ha : a.Formed) {n : Option String}
    (hn : ∀ m ∈ n, Word.isName m.toList = true) (here : Location) : (h.add a n here).Formed := by
  refine ⟨hh.1, ?_⟩
  intro b hb
  rcases List.mem_cons.mp hb with rfl | hb
  · exact ⟨ha, hn⟩
  · exact hh.2 b hb

theorem Head.Formed.close {h : Head} (hh : h.Formed) : h.close.Formed :=
  ⟨hh.1, fun a ha => hh.2 a (List.mem_reverse.mp ha)⟩

section
variable {s t : State} {l : Lexeme} {here : Location}

/-- A state that differs in its position within a call only. -/
theorem State.Formed.within (hs : s.Formed) (phase : Phase) (hp : phase.Formed)
    (hc : phase ≠ .afterCall) : State.Formed { s with phase := phase } :=
  ⟨hs.frames, hs.calls, hp, fun h => absurd h hc⟩

theorem State.Formed.enter (hs : s.Formed) {head : Head} (hh : head.Formed) :
    (s.enter head).Formed := by
  refine ⟨?_, nofun, trivial, nofun⟩
  intro f hf
  rcases List.mem_cons.mp hf with rfl | hf
  · exact ⟨hh, hs.calls⟩
  · exact hs.frames f hf

theorem State.Formed.complete (hs : s.Formed) {head : Head} (hh : head.Formed) {ss : List Call}
    (hss : ∀ c ∈ ss, c.Formed) (h : s.complete head ss = .ok t) : t.Formed := by
  simp only [State.complete] at h
  split at h
  · cases h
  · rename_i hd
    cases h
    refine ⟨hs.frames, ?_, trivial, fun _ => List.cons_ne_nil _ _⟩
    intro c hc
    rcases List.mem_cons.mp hc with rfl | hc
    · exact ⟨hh.1, hh.2, hd, (Call.formedAll_iff ss).mpr hss⟩
    · exact hs.calls c hc

theorem State.Formed.settle (hs : s.Formed) (h : s.settle = .ok t) : t.Formed := by
  have hp := hs.phase
  simp only [State.settle] at h
  split at h
  · rename_i head heq
    rw [heq] at hp
    refine hs.complete hp ?_ h
    exact nofun
  · rename_i head heq
    rw [heq] at hp
    refine hs.complete hp ?_ h
    exact nofun
  · rename_i head ss heq
    rw [heq] at hp
    exact hs.complete hp.1 hp.2 h
  · cases h
    exact hs

theorem State.Formed.next (hs : s.Formed) (hl : l.Formed) (h : s.next l here = .ok t) :
    t.Formed := by
  simp only [State.next] at h
  split at h
  · cases h
    exact hs.within (.afterName _) ⟨hl, nofun⟩ nofun
  · split at h
    · cases h
    · rename_i frame frames heq
      cases h
      obtain ⟨hhead, hbefore⟩ := hs.frames frame (by rw [heq]; exact List.mem_cons_self)
      refine ⟨?_, hbefore, ⟨hhead, fun c hc => hs.calls c (List.mem_reverse.mp hc)⟩, nofun⟩
      intro f hf
      exact hs.frames f (by rw [heq]; exact List.mem_cons_of_mem _ hf)
  · cases h

theorem State.Formed.follow (hs : s.Formed) (hl : l.Formed) (h : s.follow l here = .ok t) :
    t.Formed := by
  simp only [State.follow] at h
  split at h
  · obtain ⟨u, hu, hnext⟩ := Outcome.bind_eq_ok.mp h
    exact (hs.settle hu).next hl hnext
  · obtain ⟨u, hu, hnext⟩ := Outcome.bind_eq_ok.mp h
    exact (hs.settle hu).next hl hnext
  · cases h

theorem State.Formed.argument (hs : s.Formed) {head : Head} (hh : head.Formed) (hl : l.Formed)
    (h : s.argument head l here = .ok t) : t.Formed := by
  simp only [State.argument] at h
  split at h
  · cases h
    exact hs.within _ hh.close nofun
  · cases h
    exact hs.within (.afterWord head _ here) ⟨hh, hl⟩ nofun
  · cases h
    have hadd := hh.add hl (n := none) nofun here
    exact hs.within (.inArguments _) hadd nofun
  · cases h

/-- One token. -/
theorem State.Formed.step (hs : s.Formed) (hl : l.Formed) (h : s.step l here = .ok t) :
    t.Formed := by
  have hp := hs.phase
  simp only [State.step] at h
  split at h
  · split at h
    · cases h
      exact hs.within (.afterName _) ⟨hl, nofun⟩ nofun
    · cases h
  · rename_i head heq
    rw [heq] at hp
    split at h
    · cases h
      exact hs.within (.inArguments head) hp nofun
    · cases h
      exact hs.enter hp
    · exact hs.follow hl h
  · rename_i head heq
    rw [heq] at hp
    exact hs.argument hp hl h
  · rename_i head word there heq
    rw [heq] at hp
    split at h
    · cases h
      exact hs.within (.afterColon head word there) hp nofun
    · cases h
    · cases h
    · cases h
    · have hadd := hp.1.add (a := .name word) hp.2 (n := none) nofun there
      exact hs.argument hadd hl h
  · rename_i head name there heq
    rw [heq] at hp
    split at h
    · cases h
      refine hs.within (.inArguments _) (hp.1.add hl ?_ there) nofun
      rintro m ⟨⟩
      exact hp.2
    · cases h
  · rename_i head heq
    rw [heq] at hp
    split at h
    · cases h
      exact hs.enter hp
    · exact hs.follow hl h
  · exact hs.follow hl h
  · exact hs.next hl h

theorem State.Formed.run {place : Nat → Location} {tokens : List Token} (hs : s.Formed)
    (ht : ∀ t ∈ tokens, t.lexeme.Formed) (h : Parsing.run place s tokens = .ok t) : t.Formed := by
  induction tokens generalizing s with
  | nil =>
    cases h
    exact hs
  | cons token tokens ih =>
    rw [Parsing.run, List.foldlM_cons] at h
    obtain ⟨u, hu, hrest⟩ := Outcome.bind_eq_ok.mp h
    exact ih (hs.step (ht token List.mem_cons_self) hu)
      (fun t htoken => ht t (List.mem_cons_of_mem token htoken)) hrest

theorem State.Formed.finish (hs : s.Formed) {q : Query} (h : s.finish here = .ok q) :
    q ≠ [] ∧ Call.FormedAll q := by
  simp only [State.finish] at h
  obtain ⟨u, hu, hrest⟩ := Outcome.bind_eq_ok.mp h
  have hformed := hs.settle hu
  split at hrest
  · rename_i heq _
    cases hrest
    refine ⟨?_, (Call.formedAll_iff _).mpr fun c hc => hformed.calls c (List.mem_reverse.mp hc)⟩
    intro hnil
    exact hformed.afterCall heq (List.reverse_eq_nil_iff.mp hnil)
  · cases hrest

end

end Parsing

/-- What a text is read as has calls, and they are formed. -/
theorem Query.formed_of_parse {text : String} {q : Query} (h : Query.parse text = .ok q) :
    q ≠ [] ∧ Call.FormedAll q := by
  simp only [Query.parse] at h
  obtain ⟨s, hrun, hrest⟩ := Outcome.bind_eq_ok.mp h
  have hs := Parsing.initial_formed.run (Scan.formed_of_mem 0 1 text.toList) hrun
  split at hrest
  · cases hrest
  · exact hs.finish hrest

end ObjectQuery

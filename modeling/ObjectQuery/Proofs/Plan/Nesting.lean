import ObjectQuery.Proofs.Plan.Typing

/-!
# The limit on nesting

The limit that a query is compiled with decides one thing: whether the blocks of the query may be
nested as deeply as they are. A query that compiles with some limit compiles to the same plan with
every limit that is not below the nesting of its blocks. With a lower one it is refused, and the
refusal is that of a block one level too deep.
-/

set_option autoImplicit false

namespace ObjectQuery

open Outcome

/-- How many blocks there are within each other in the calls of a query. -/
def Query.nesting (q : Query) : Nat := q.foldr (fun c deepest => max c.nesting deepest) 0

@[simp] theorem Query.nesting_nil : Query.nesting [] = 0 := rfl

@[simp] theorem Query.nesting_cons (c : Call) (q : Query) :
    Query.nesting (c :: q) = max c.nesting (Query.nesting q) := rfl

/-- What compiling blocks down to a level comes to under a limit: what it comes to under any limit
that admits the level, or the refusal of a block that is one level below the limit. -/
inductive Within {α : Type} (limit : Int) (level : Nat) (a : α) : Except CompileError α → Prop
  | fits (h : level ≤ limit) : Within limit level a (.ok a)
  | exceeds (h : limit < level) (name : String) (location : Location) (path : Path) :
      Within limit level a
        (.error (.refused ⟨name, location, .tooDeep path (limit.toNat + 1) limit⟩))

namespace Within

variable {α β γ : Type} {d : Int} {m n : Nat} {a : α} {b : β} {x : Except CompileError α}

theorem eq_ok (hx : Within d n a x) (h : n ≤ d) : x = .ok a := by
  cases hx with
  | fits => rfl
  | exceeds hlow => omega

theorem eq_error (hx : Within d n a x) (h : d < n) : ∃ name location path,
    x = .error (.refused ⟨name, location, .tooDeep path (d.toNat + 1) d⟩) := by
  cases hx with
  | fits hfits => omega
  | exceeds _ name location path => exact ⟨name, location, path, rfl⟩

/-- The second of two steps is taken only where the limit admits the first. -/
theorem bind {f : α → Except CompileError β} (hx : Within d m a x)
    (hf : m ≤ d → Within d n b (f a)) : Within d (max m n) b (x >>= f) := by
  cases hx with
  | fits hfits =>
    have hy := hf hfits
    rw [ok_bind]
    generalize f a = y at hy
    cases hy with
    | fits h => exact .fits (by omega)
    | exceeds h => exact .exceeds (by omega) _ _ _
  | exceeds hlow => exact .exceeds (by omega) _ _ _

theorem map (hx : Within d n a x) (f : α → β) : Within d n (f a) (x >>= fun y => .ok (f y)) := by
  cases hx with
  | fits h => exact .fits h
  | exceeds h => exact .exceeds h _ _ _

/-- A step that no limit has a part in. -/
theorem after {y : Except CompileError γ} {f g : γ → Except CompileError α}
    (h : (y >>= f) = .ok a) (hg : ∀ c, f c = .ok a → Within d n a (g c)) :
    Within d n a (y >>= g) := by
  obtain ⟨c, rfl, hf⟩ := bind_eq_ok.mp h
  exact hg c hf

end Within

variable {limit d : Int}

theorem Call.checkBlock_within {c : Call} {path : Path} {level : Nat}
    (h : c.checkBlock limit path (level + 1) = .ok ()) (hd : level ≤ d.toNat) :
    Within d (level + 1) () (c.checkBlock d path (level + 1)) := by
  obtain ⟨_, hne, hnodup⟩ := checkBlock_eq_ok_iff.mp h
  by_cases hfits : ((level + 1 : Nat) : Int) ≤ d
  · rw [checkBlock_eq_ok_iff.mpr ⟨hfits, hne, hnodup⟩]
    exact .fits hfits
  · have hlow : d < ((level + 1 : Nat) : Int) := Int.not_le.mp hfits
    have hlevel : d.toNat + 1 = level + 1 := by omega
    rw [checkBlock, if_pos hlow, ← hlevel]
    exact .exceeds (by omega) _ _ _

namespace Context

mutual

/-- A selection at a level where blocks are admitted. -/
theorem output_within {context : Context} {path : Path} {level : Nat} {o : Output} :
    ∀ c : Call, context.output limit path level c = .ok o → level ≤ d →
      Within d (level + c.nesting) o (context.output d path level c)
  | .mk name arguments selections location, h, hd => by
    have hleaf : ∀ l, context.select (.mk name arguments selections location) = .ok (.leaf l) →
        Call.nestingAll selections = 0 := by
      intro l hl
      obtain rfl : selections = [] := Context.selections_of_select hl
      rfl
    rw [output] at h ⊢
    obtain ⟨selected, hselected, h⟩ := bind_eq_ok.mp h
    rw [hselected, ok_bind, Call.nesting]
    cases selected with
    | leaf l =>
      cases h
      rw [hleaf l hselected]
      exact .fits hd
    | nested inner source =>
      obtain ⟨_, hblock, h⟩ := bind_eq_ok.mp h
      obtain ⟨os, hos, h⟩ := bind_eq_ok.mp h
      cases h
      have hne : selections ≠ [] := (Call.checkBlock_eq_ok_iff.mp hblock).2.1
      have hpos := Call.nestingAll_pos hne
      have hdeepest : max (level + 1) (level + Call.nestingAll selections) =
          level + Call.nestingAll selections := by omega
      rw [← hdeepest]
      refine (Call.checkBlock_within hblock (by omega)).bind fun hfits => ?_
      exact (inner.outputs_within selections hos (by omega)).map _

theorem outputs_within {context : Context} {path : Path} {level : Nat} {os : List Output} :
    ∀ cs : List Call, context.outputs limit path (level + 1) cs = .ok os → level + 1 ≤ d →
      Within d (level + Call.nestingAll cs) os (context.outputs d path (level + 1) cs)
  | [], h, hd => by
    cases h
    exact .fits (by simp only [Call.nestingAll]; omega)
  | c :: cs, h, hd => by
    obtain ⟨o, rest, ho, hrest, rfl⟩ := outputs_cons_eq_ok h
    have hdeepest : level + Call.nestingAll (c :: cs) =
        max (level + 1 + c.nesting) (level + Call.nestingAll cs) := by
      rw [Call.nestingAll]
      omega
    rw [outputs, hdeepest]
    refine (output_within c ho (by omega)).bind fun _ => ?_
    exact (outputs_within cs hrest hd).map _

end

theorem project_within {context : Context} {c : Call} {p : Projection}
    (h : context.project limit c = .ok p) :
    Within d c.nesting p (context.project d c) := by
  obtain ⟨_, hblock, h⟩ := bind_eq_ok.mp h
  obtain ⟨os, hos, h⟩ := bind_eq_ok.mp h
  cases h
  have hne : c.selections ≠ [] := (Call.checkBlock_eq_ok_iff.mp hblock).2.1
  have hpos := Call.nestingAll_pos hne
  have hdeepest : c.nesting = max 1 (0 + Call.nestingAll c.selections) := by
    rw [Call.nesting_eq]
    omega
  rw [hdeepest]
  refine (Call.checkBlock_within hblock (Nat.zero_le _)).bind fun hfits => ?_
  exact (outputs_within c.selections hos hfits).map _

end Context

namespace Compile

variable {i : Snapshot} {c : Call} {p : CallPlan}

/-- All plans are made of a projection, which is the last step of making one. -/
theorem planned_within {context : Context} {plan : Projection → CallPlan}
    (h : (do return plan (← context.project limit c)) = .ok p) :
    Within d c.nesting p (do return plan (← context.project d c)) := by
  obtain ⟨projection, hp, h⟩ := bind_eq_ok.mp h
  cases h
  exact (Context.project_within hp).map plan

theorem operation_within {o : Operation} (h : operation i limit c o = .ok p) :
    Within d c.nesting p (operation i d c o) := by
  cases o with
  | schema =>
    refine .after h fun _ h => .after h fun _ h => ?_
    exact planned_within h
  | type =>
    refine .after h fun _ h => .after h fun _ h => .after h fun n h => ?_
    cases ht : describedType? i n with
    | none =>
      rw [ht] at h
      cases h
    | some t =>
      rw [ht] at h
      exact planned_within h
  | nodes =>
    refine .after h fun _ h => .after h fun _ h => .after h fun t h => ?_
    refine .after h fun named h => .after h fun page h => .after h fun fs h => ?_
    exact planned_within h
  | node =>
    refine .after h fun (_, _) h => .after h fun _ h => .after h fun _ h => ?_
    refine .after h fun t h => .after h fun id h => ?_
    exact planned_within h
  | createType => exact .after h fun _ h => planned_within h
  | deleteType => exact .after h fun _ h => planned_within h
  | addField => exact .after h fun _ h => planned_within h
  | removeField => exact .after h fun _ h => planned_within h

theorem call_within {credentials : Credentials} (h : call credentials i limit c = .ok p) :
    Within d c.nesting p (call credentials i d c) := by
  unfold call at h ⊢
  cases ho : Operation.ofName? c.name with
  | none =>
    rw [ho] at h
    cases h
  | some o =>
    rw [ho] at h
    exact .after h fun _ h => operation_within h

end Compile

namespace Query

variable {credentials : Credentials} {i : Snapshot} {q : Query} {p : Plan}

/-- No call has a nesting below zero, so only a query without calls compiles with a limit below. -/
theorem compile_within (h : q.compile credentials i limit = .ok p) (hd : q ≠ [] ∨ 0 ≤ d) :
    Within d q.nesting p (q.compile credentials i d) := by
  unfold compile at h ⊢
  induction q generalizing p with
  | nil =>
    cases h
    exact .fits (hd.resolve_left fun h => h rfl)
  | cons c q ih =>
    rw [List.mapM_cons] at h ⊢
    obtain ⟨plan, hplan, h⟩ := bind_eq_ok.mp h
    obtain ⟨rest, hrest, h⟩ := bind_eq_ok.mp h
    cases h
    refine (Compile.call_within hplan).bind fun hfits => ?_
    exact (ih hrest (.inr (by omega))).map _

/-- A query has one plan with all limits that its blocks are nested within, and with a lower one it
is refused for that. -/
theorem compile_of_nesting {text : String} (hq : parse text = .ok q)
    (h : q.compile credentials i limit = .ok p) :
    q.nesting ≤ limit ∧
      (∀ d : Int, q.nesting ≤ d → q.compile credentials i d = .ok p) ∧
      ∀ d : Int, d < q.nesting → ∃ name location path, q.compile credentials i d =
        .error (.refused ⟨name, location, .tooDeep path (d.toNat + 1) d⟩) := by
  have hne : q ≠ [] := (formed_of_parse hq).1
  have hwithin (d : Int) : Within d q.nesting p (q.compile credentials i d) :=
    compile_within h (.inl hne)
  refine ⟨?_, fun d hd => (hwithin d).eq_ok hd, fun d hd => (hwithin d).eq_error hd⟩
  by_contra hlow
  obtain ⟨name, location, path, herror⟩ := (hwithin limit).eq_error (by omega)
  rw [h] at herror
  cases herror

end Query

/-- What is selected of an author is nested four blocks deep, and refused if only three are
admitted. -/
theorem library_selections_limited : ∃ q p,
    Query.parse (String.ofList Library.selecting) = .ok q ∧
      q.compile {} Library.snapshot defaultLimit = .ok p ∧ q.nesting = 4 ∧
      q.compile {} Library.snapshot 4 = .ok p ∧
      ∃ name location path, q.compile {} Library.snapshot 3 =
        .error (.refused ⟨name, location, .tooDeep path 4 3⟩) := by
  have hread : (Query.parse (String.ofList Library.selecting)).toOption.any (fun q =>
      q.nesting == 4 && (q.compile {} Library.snapshot defaultLimit).isOk) = true := by
    refine (congrArg (fun x => Option.any _ (Except.toOption x)) (Query.parse_ofList _)).trans ?_
    decide +kernel
  obtain ⟨q, hq, hplanned⟩ := exists_of_any hread
  rw [Bool.and_eq_true, beq_iff_eq] at hplanned
  obtain ⟨hnesting, hplanned⟩ := hplanned
  cases hp : q.compile {} Library.snapshot defaultLimit with
  | error e =>
    rw [hp] at hplanned
    cases hplanned
  | ok p =>
    obtain ⟨_, hfits, hexceeds⟩ := Query.compile_of_nesting hq hp
    refine ⟨q, p, hq, hp, hnesting, hfits 4 ?_, hexceeds 3 ?_⟩
    · rw [hnesting]
      rfl
    · rw [hnesting]
      decide

end ObjectQuery

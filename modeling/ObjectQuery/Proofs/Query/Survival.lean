import ObjectQuery.Proofs.Query.Blame
import ObjectQuery.Proofs.Query.Effects
import ObjectQuery.Proofs.Store.Catalog

/-!
# Types that stay

A query is compiled only if its changes leave the types that are required. A store does not ask for
these when it comes to make the changes, and its schema may have changed since the query was
compiled; the types are still left, since a change that deletes none of them where it was compiled
deletes none of them anywhere, and no other change takes the name of a type away.
-/

set_option autoImplicit false

namespace ObjectQuery

open Outcome

/-- What is compiled to a change does not delete a type that is required. -/
theorem Mutation.Keeps.spares {i : Snapshot} {m : Mutation} (h : Keeps i m) :
    ∀ v ∈ i.rules.required, m.change ≠ .deleteType v := by
  obtain ⟨s', hs', hvalid⟩ := h
  intro v hv hchange
  rw [hchange] at hs'
  exact i.valid.not_mem_typeNames_deleteType hs' (hvalid.facts.required v hv)

theorem Query.spares_of_mem {credentials : Credentials} {i : Snapshot} {limit : Int} {q : Query}
    {p : Plan} (hp : q.compile credentials i limit = .ok p) {change : SchemaChange}
    {success failure : Value} {projection : Projection}
    (hmem : .mutation change success failure projection ∈ p) :
    ∀ v ∈ i.rules.required, change ≠ .deleteType v := by
  obtain ⟨_, _, hplanned⟩ := exists_of_mem_mapM hp hmem
  cases Compile.planned_of_call hplanned with
  | mutation hk _ _ _ => exact hk.spares

namespace Store

variable {σ : Type} [Store σ] {required : List Value} {s₀ s : σ}

/-- Stores that a store becomes by parts of plans being run on it, each plan for a query that was
compiled against some schema that has to have certain types at least, whoever made it. The schema
may be another one than that of the store. -/
inductive Served (required : List Value) (s₀ : σ) : σ → Prop
  | start : Served required s₀ s₀
  | run {s : σ} {credentials : Credentials} {i : Snapshot} {limit : Int} {q : Query}
      {p part : Plan} (h : Served required s₀ s) (hi : required ⊆ i.rules.required)
      (hp : q.compile credentials i limit = .ok p) (hpart : part <:+: p) :
      Served required s₀ ((part.run : Access σ (List Result)).result s).2

/-- What changes preserve that delete no required type holds of a store whatever is run. -/
theorem Served.preserved {P : σ → Prop} (hs : Store.Steady σ)
    (hchange : ∀ c, (∀ v ∈ required, c ≠ .deleteType v) →
      (Store.change c : Access σ Bool).Preserves P)
    (h : Served required s₀ s) (h₀ : P s₀) : P s := by
  induction h with
  | start => exact h₀
  | @run s _ i _ _ p part _ hi hp hpart ih =>
    have hcall : ∀ c ∈ part, (c.run : Access σ Result).Preserves P := by
      intro c hc t ht
      rw [CallPlan.result_run_snd hs]
      cases c with
      | mutation change success failure projection =>
        exact hchange change (fun v hv => Query.spares_of_mem hp (hpart.subset hc) v (hi hv)) t ht
      | _ => exact ht
    exact Access.preserves_mapM hcall s ih

end Store

variable {required : List Value} {c : SchemaChange}

namespace Memory

/-- A store with a valid schema that has certain types. -/
def Holds (required : List Value) (m : Memory) : Prop :=
  m.schema.Valid rules ∧ ∀ v ∈ required, v ∈ m.schema.typeNames

theorem preserves_holds (hc : ∀ v ∈ required, c ≠ .deleteType v) :
    (Store.change c : Access Memory Bool).Preserves (Holds required) := by
  rintro m ⟨hvalid, hr⟩
  refine ⟨valid_change hvalid c, ?_⟩
  rw [result_change]
  split
  · rename_i hafter
    exact hvalid.typeNames_apply (after_eq_ok hafter).1 hr hc
  · exact hr
  · exact hr

end Memory

namespace Relational

/-- A store in a database with a valid schema that has certain types. -/
def Holds (required : List Value) (r : Relational) : Prop :=
  r.schema.Valid ⟨r.registry, []⟩ ∧ ∀ v ∈ required, v ∈ r.schema.typeNames

theorem keeps_ask {α : Type} (f : Relational → Except Failure α) : (ask f).Keeps := by
  rintro _ r rfl
  rw [result_ask]
  cases f r <;> rfl

theorem steady : Store.Steady Relational :=
  ⟨fun _ _ => keeps_ask _, fun _ _ _ => keeps_ask _, fun _ _ _ _ => keeps_ask _,
    fun _ _ => keeps_ask _, fun _ _ _ => keeps_ask _⟩

/-- The schema is changed only if all statements for the change are carried out. -/
theorem preserves_holds (hc : ∀ v ∈ required, c ≠ .deleteType v) :
    (Store.change c : Access Relational Bool).Preserves (Holds required) := by
  rintro r ⟨hvalid, hr⟩
  rw [result_change]
  split
  · exact ⟨hvalid, hr⟩
  · exact ⟨hvalid, hr⟩
  · rename_i changed statements hprepare
    have hprepared := prepare_eq_ok hprepare
    split
    · refine ⟨?_, hvalid.typeNames_apply hprepared.schema hr hc⟩
      have hchanged := hprepared.valid
      rw [← hprepared.registry] at hchanged
      exact hchanged
    · exact ⟨hvalid, hr⟩

end Relational

/-- Types that are required of every query stay in a store, in memory or in a database, with all of
its schema valid, whatever queries are run in whatever order, in parts or as a whole, and whichever
schema each of them was compiled against. -/
theorem Store.required_types_stay (required : List Value) :
    (∀ m₀ m : Memory, m₀.schema.Valid Memory.rules → (∀ v ∈ required, v ∈ m₀.schema.typeNames) →
      Served required m₀ m →
      m.schema.Valid Memory.rules ∧ ∀ v ∈ required, v ∈ m.schema.typeNames) ∧
    ∀ r₀ r : Relational, r₀.schema.Valid ⟨r₀.registry, []⟩ →
      (∀ v ∈ required, v ∈ r₀.schema.typeNames) → Served required r₀ r →
      r.schema.Valid ⟨r.registry, []⟩ ∧ ∀ v ∈ required, v ∈ r.schema.typeNames := by
  constructor
  · intro m₀ m hvalid hr h
    have hholds : m.Holds required :=
      h.preserved Memory.steady (fun _ => Memory.preserves_holds) ⟨hvalid, hr⟩
    exact hholds
  · intro r₀ r hvalid hr h
    have hholds : r.Holds required :=
      h.preserved Relational.steady (fun _ => Relational.preserves_holds) ⟨hvalid, hr⟩
    exact hholds

set_option maxRecDepth 8000 in
/-- Users stay in a library where the same changes are made twice, the second time with a plan for a
schema that is no more, and in a database of users from which their names are taken. -/
theorem users_stay : ∃ p part r m,
    Library.changes.compile Library.admin Library.snapshot defaultLimit = .ok p ∧
    ((Plan.run p : Access Memory _).result
      ((Plan.run p : Access Memory _).result Library.memory).2).2 = m ∧
    Query.compile Library.admin Users.snapshot defaultLimit [Users.removing] = .ok part ∧
    Relational.create .standard Users.schema = .ok r ∧
    (m.schema.Valid Memory.rules ∧ ∀ v ∈ [Value.text userTypeName], v ∈ m.schema.typeNames) ∧
    ((Plan.run part).result r).2.schema.Valid ⟨((Plan.run part).result r).2.registry, []⟩ ∧
    ∀ v ∈ [Value.text userTypeName], v ∈ ((Plan.run part).result r).2.schema.typeNames := by
  obtain ⟨p, hp⟩ : ∃ p, Library.changes.compile Library.admin Library.snapshot defaultLimit =
    .ok p := ⟨_, rfl⟩
  obtain ⟨part, hpart⟩ : ∃ part,
    Query.compile Library.admin Users.snapshot defaultLimit [Users.removing] = .ok part := ⟨_, rfl⟩
  obtain ⟨r, hr⟩ : ∃ r, Relational.create .standard Users.schema = .ok r := ⟨_, rfl⟩
  obtain ⟨hmemory, hrelational⟩ := Store.required_types_stay [.text userTypeName]
  have hserved : Store.Served [.text userTypeName] Library.memory _ :=
    (Store.Served.start.run (List.Subset.refl _) hp List.infix_rfl).run (List.Subset.refl _) hp
      List.infix_rfl
  have hchanged : Store.Served [.text userTypeName] r _ :=
    Store.Served.start.run (List.Subset.refl _) hpart List.infix_rfl
  refine ⟨p, part, r, _, hp, rfl, hpart, hr, ?_, ?_⟩
  · exact hmemory _ _ (Library.snapshot.valid.of_registry rfl)
      (List.forall_mem_singleton.mpr List.mem_cons_self) hserved
  · refine hrelational r _ ?_ ?_ hchanged
    · cases hr
      exact Users.snapshot.valid.unrequired
    · cases hr
      exact List.forall_mem_singleton.mpr List.mem_cons_self

end ObjectQuery

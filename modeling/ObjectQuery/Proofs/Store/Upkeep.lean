import ObjectQuery.Proofs.Outcome
import ObjectQuery.Proofs.Plan.Reports
import ObjectQuery.Store.Execution
import ObjectQuery.Store.Memory

/-!
# What runs do to a store

Presenting records leaves a store as it is, so a store changes by the changes that are made and by
nothing else. A store in memory with a valid schema keeps one, whatever is run.
-/

set_option autoImplicit false

namespace ObjectQuery

namespace Access

variable {σ α β : Type}

/-- A question after which something still holds of the store. -/
def Preserves (P : σ → Prop) (x : Access σ α) : Prop := ∀ s, P s → P (x.result s).2

theorem preserves_pure (P : σ → Prop) (a : α) : (pure a : Access σ α).Preserves P :=
  fun _ hs => hs

theorem Preserves.bind {P : σ → Prop} {x : Access σ α} {f : α → Access σ β}
    (hx : x.Preserves P) (hf : ∀ a, (f a).Preserves P) : (x >>= f).Preserves P := by
  intro s hs
  have ht := hx s hs
  rw [result_bind]
  rcases h : x.result s with ⟨r, t⟩
  rw [h] at ht
  cases r with
  | ok a => exact hf a t ht
  | error e => exact ht

theorem preserves_mapM {P : σ → Prop} {f : α → Access σ β} {xs : List α}
    (h : ∀ x ∈ xs, (f x).Preserves P) : (xs.mapM f).Preserves P := by
  induction xs with
  | nil => exact preserves_pure P []
  | cons x xs ih =>
    obtain ⟨hx, hxs⟩ := List.forall_mem_cons.mp h
    rw [List.mapM_cons]
    exact hx.bind fun _ => (ih hxs).bind fun _ => preserves_pure P _

/-- A question that leaves every store as it was, whether it has an answer or not. -/
def Keeps (x : Access σ α) : Prop := ∀ s, x.Preserves (· = s)

theorem Keeps.result_snd {x : Access σ α} (h : x.Keeps) (s : σ) : (x.result s).2 = s := h s s rfl

theorem keeps_pure (a : α) : (pure a : Access σ α).Keeps := fun _ => preserves_pure _ a

theorem keeps_ofExcept (x : Except Misuse α) : (ofExcept x : Access σ α).Keeps := by
  cases x with
  | ok a => exact keeps_pure a
  | error m => exact fun _ _ hs => hs

theorem Keeps.bind {x : Access σ α} {f : α → Access σ β} (hx : x.Keeps)
    (hf : ∀ a, (f a).Keeps) : (x >>= f).Keeps :=
  fun s => (hx s).bind fun a => hf a s

theorem keeps_mapM {f : α → Access σ β} (h : ∀ x, (f x).Keeps) (xs : List α) :
    (xs.mapM f).Keeps :=
  fun s => preserves_mapM fun x _ => h x s

/-- What comes after a question and leaves the store leaves it as the question did. -/
theorem result_bind_snd {x : Access σ α} {f : α → Access σ β} (hf : ∀ a, (f a).Keeps) (s : σ) :
    ((x >>= f).result s).2 = (x.result s).2 := by
  rw [result_bind]
  rcases x.result s with ⟨r, t⟩
  cases r with
  | ok a => exact (hf a).result_snd t
  | error e => rfl

end Access

/-- A store that questions leave as it is. -/
structure Store.Steady (σ : Type) [Store σ] : Prop where
  fetchById : ∀ n v, (Store.fetchById n v : Access σ _).Keeps
  fetchMany : ∀ n fs page, (Store.fetchMany n fs page : Access σ _).Keeps
  fetchRelated : ∀ n f v page, (Store.fetchRelated n f v page : Access σ _).Keeps
  countMany : ∀ n fs, (Store.countMany n fs : Access σ _).Keeps
  countRelated : ∀ n f v, (Store.countRelated n f v : Access σ _).Keeps

theorem Output.keeps_unlessNull {σ : Type} {v : Value} {present : Value → Access σ Result}
    (h : ∀ v, (present v).Keeps) : (unlessNull v present).Keeps := by
  unfold unlessNull
  split
  · exact Access.keeps_pure _
  · exact h v

section Presenting

variable {σ : Type} [Store σ]

namespace Output

theorem keeps_fetchRelated (hs : Store.Steady σ) (outputs : List Output) (target reverse : String)
    (page : Page) (owner : Value) :
    (fetchRelated outputs target reverse page owner : Access σ _).Keeps := by
  unfold fetchRelated
  split
  · exact hs.fetchRelated target reverse owner page
  · exact (hs.countRelated target reverse owner).bind fun _ => Access.keeps_pure _

mutual

theorem keeps_evaluate (hs : Store.Steady σ) :
    (o : Output) → ∀ record : Value, (evaluate record o : Access σ Result).Keeps
  | .leaf n (.field f), record =>
    (Access.keeps_ofExcept _).bind fun _ => Access.keeps_pure _
  | .leaf n (.typeName t), record => Access.keeps_pure _
  | .nested n source typeName outputs, record => by
    have hall := keeps_evaluateAll hs outputs
    have hobject (v : Value) : (do return .object (← evaluateAll v outputs) :
        Access σ Result).Keeps := (hall v).bind fun _ => Access.keeps_pure _
    cases source with
    | embedded field isList =>
      rw [evaluate]
      refine (Access.keeps_ofExcept _).bind fun v => keeps_unlessNull fun v => ?_
      split
      · refine (Access.keeps_ofExcept _).bind fun items => ?_
        exact (Access.keeps_mapM (fun item => keeps_unlessNull hobject) items).bind fun _ =>
          Access.keeps_pure _
      · exact hobject v
    | listed field =>
      exact (Access.keeps_ofExcept _).bind fun v => (Access.keeps_ofExcept _).bind hobject
    | related field target =>
      refine (Access.keeps_ofExcept _).bind fun v => keeps_unlessNull fun id => ?_
      refine (hs.fetchById target id).bind fun found => ?_
      cases found with
      | none => exact Access.keeps_pure _
      | some found => exact hobject found
    | connection target reverse page =>
      refine (Access.keeps_ofExcept _).bind fun owner => ?_
      refine (keeps_fetchRelated hs outputs target reverse page owner).bind fun fetched => ?_
      exact (Access.keeps_ofExcept _).bind hobject

theorem keeps_evaluateAll (hs : Store.Steady σ) :
    (os : List Output) → ∀ record : Value, (evaluateAll record os : Access σ _).Keeps
  | [], record => Access.keeps_pure _
  | o :: os, record => by
    rw [evaluateAll]
    exact (keeps_evaluate hs o record).bind fun _ =>
      (keeps_evaluateAll hs os record).bind fun _ => Access.keeps_pure _

end

end Output

theorem Projection.keeps_present (hs : Store.Steady σ) (p : Projection) (record : Value) :
    (p.present record : Access σ Result).Keeps :=
  (Output.keeps_evaluateAll hs p.outputs record).bind fun _ => Access.keeps_pure _

/-- All that a call does to a store is the change that it makes. -/
theorem CallPlan.result_run_snd (hs : Store.Steady σ) (p : CallPlan) (s : σ) :
    (p.run.result s).2 = match p with
      | .mutation change _ _ _ => ((Store.change change : Access σ Bool).result s).2
      | _ => s := by
  cases p with
  | fetchNode n id projection =>
    refine Access.Keeps.result_snd ((hs.fetchById n _).bind fun found => ?_) s
    cases found with
    | none => exact Access.keeps_pure _
    | some found => exact projection.keeps_present hs found
  | fetchNodes n filters page projection =>
    have hfetch : (projection.fetch n filters page : Access σ _).Keeps := by
      unfold Projection.fetch
      split
      · exact hs.fetchMany n filters page
      · exact (hs.countMany n filters).bind fun _ => Access.keeps_pure _
    exact (hfetch.bind fun _ => (Access.keeps_ofExcept _).bind fun _ =>
      projection.keeps_present hs _).result_snd s
  | introspection record projection => exact (projection.keeps_present hs record).result_snd s
  | mutation change success failure projection =>
    exact Access.result_bind_snd (fun _ => projection.keeps_present hs _) s

end Presenting

namespace Memory

variable {m m' : Memory} {c : SchemaChange}

theorem keeps_ask {α : Type} (f : Memory → Except Misuse α) : (ask f).Keeps := by
  rintro _ m rfl
  rw [ask, Access.result_bind]
  exact (Access.keeps_ofExcept (f m)).result_snd m

theorem steady : Store.Steady Memory :=
  ⟨fun _ _ => keeps_ask _, fun _ _ _ => keeps_ask _, fun _ _ _ _ => keeps_ask _,
    fun _ _ => keeps_ask _, fun _ _ _ => keeps_ask _⟩

theorem result_change (c : SchemaChange) (m : Memory) :
    (Store.change c : Access Memory Bool).result m = match m.after c with
      | .ok (some m') => (.ok true, m')
      | .ok none => (.ok false, m)
      | .error e => (.error (.misuse e), m) := by
  have hask : (ask (·.after c)).result m = match m.after c with
      | .ok o => (.ok o, m)
      | .error e => (.error (.misuse e), m) := by
    rw [ask, Access.result_bind]
    show (Access.ofExcept (m.after c)).result m = _
    cases m.after c <;> rfl
  show ((ask (·.after c) >>= _) : Access Memory Bool).result m = _
  rw [Access.result_bind, hask]
  cases m.after c with
  | error e => rfl
  | ok o => cases o <;> rfl

theorem after_eq_ok (h : m.after c = .ok (some m')) :
    m.schema.apply c = .ok m'.schema ∧ m'.schema.Valid rules := by
  unfold after at h
  split at h
  · cases h
  · obtain ⟨outcome, ho, h⟩ := Outcome.bind_eq_ok.mp h
    cases outcome with
    | error refusal => cases h
    | ok s =>
      cases h
      exact Schema.applyValidated_eq_ok ho

theorem change_eq_true (h : (Store.change c : Access Memory Bool).result m = (.ok true, m')) :
    m.schema.apply c = .ok m'.schema ∧ m'.schema.Valid rules := by
  rw [result_change] at h
  split at h
  · rename_i hafter
    cases h
    exact after_eq_ok hafter
  · cases h
  · cases h

/-- A change leaves a valid schema, whether it is made or not. -/
theorem valid_change (hm : m.schema.Valid rules) (c : SchemaChange) :
    ((Store.change c : Access Memory Bool).result m).2.schema.Valid rules := by
  rw [result_change]
  split
  · rename_i hafter
    exact (after_eq_ok hafter).2
  · exact hm
  · exact hm

theorem valid_run_call (hm : m.schema.Valid rules) (p : CallPlan) :
    (p.run.result m).2.schema.Valid rules := by
  rw [CallPlan.result_run_snd steady]
  cases p with
  | mutation change success failure projection => exact valid_change hm change
  | _ => exact hm

/-- A valid schema is one after any run. -/
theorem valid_run (p : Plan) (hm : m.schema.Valid rules) :
    (p.run.result m).2.schema.Valid rules := by
  have hcall (c : CallPlan) : (c.run : Access Memory Result).Preserves (·.schema.Valid rules) :=
    fun _ hm => valid_run_call hm c
  exact Access.preserves_mapM (fun c (_ : c ∈ p) => hcall c) m hm

end Memory

end ObjectQuery

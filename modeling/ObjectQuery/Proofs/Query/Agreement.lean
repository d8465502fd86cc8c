import ObjectQuery.Proofs.Query.Execution
import ObjectQuery.Proofs.Store.Cells

/-!
# Results that agree

The same outputs are presented from two stores, of two records. Where neither store fails, the
results are alike if everything they are made of is: what the records hold, and what the stores say.
-/

set_option autoImplicit false

namespace ObjectQuery

namespace Access

variable {σ τ α β γ δ : Type} {s : σ} {t : τ} {R : α → β → Prop} {S : γ → δ → Prop}

/-- If both questions have answers, the stores are left as they were and the answers are related. -/
def Agree (R : α → β → Prop) (x : Access σ α) (s : σ) (y : Access τ β) (t : τ) : Prop :=
  ∀ a b s' t', x.result s = (.ok a, s') → y.result t = (.ok b, t') → s' = s ∧ t' = t ∧ R a b

theorem agree_pure {a : α} {b : β} (h : R a b) :
    Agree R (pure a : Access σ α) s (pure b : Access τ β) t := by
  intro a' b' s' t' hx hy
  cases hx
  cases hy
  exact ⟨rfl, rfl, h⟩

theorem Agree.bind {x : Access σ α} {y : Access τ β} {f : α → Access σ γ} {g : β → Access τ δ}
    (h : Agree R x s y t) (hf : ∀ a b, R a b → Agree S (f a) s (g b) t) :
    Agree S (x >>= f) s (y >>= g) t := by
  intro c d s' t' hc hd
  rw [result_bind] at hc hd
  split at hc
  · rename_i a s₁ hx
    split at hd
    · rename_i b t₁ hy
      obtain ⟨rfl, rfl, hab⟩ := h a b s₁ t₁ hx hy
      exact hf a b hab c d s' t' hc hd
    · cases hd
  · cases hc

theorem Agree.imp {x : Access σ α} {y : Access τ β} {R' : α → β → Prop} (h : Agree R x s y t)
    (hr : ∀ a b, R a b → R' a b) : Agree R' x s y t := by
  intro a b s' t' hx hy
  obtain ⟨hs, ht, hab⟩ := h a b s' t' hx hy
  exact ⟨hs, ht, hr a b hab⟩

theorem agree_ofExcept {x : Except Misuse α} {y : Except Misuse β}
    (h : ∀ a b, x = .ok a → y = .ok b → R a b) :
    Agree R (ofExcept x : Access σ α) s (ofExcept y : Access τ β) t := by
  cases x with
  | error e => nofun
  | ok a =>
    cases y with
    | error e => exact fun _ _ _ _ _ hy => nomatch hy
    | ok b => exact agree_pure (h a b rfl rfl)

theorem agree_mapM {f : α → Access σ γ} {g : β → Access τ δ} {xs : List α} {ys : List β}
    (h : List.Forall₂ (fun x y => Agree S (f x) s (g y) t) xs ys) :
    Agree (List.Forall₂ S) (xs.mapM f) s (ys.mapM g) t := by
  induction h with
  | nil => exact agree_pure .nil
  | cons hxy _ ih =>
    rw [List.mapM_cons, List.mapM_cons]
    refine hxy.bind fun a b hab => ih.bind fun as bs habs => ?_
    exact agree_pure (.cons hab habs)

end Access

mutual

/-- Results of the same shape with the same values, but for numbers, which have the same value. -/
inductive Result.Alike : Result → Result → Prop where
  | value {v w : Value} (h : v.Alike w) : Alike (.value v) (.value w)
  | object {xs ys : List (String × Result)} (h : EntriesAlike xs ys) : Alike (.object xs) (.object ys)
  | list {xs ys : List Result} (h : ItemsAlike xs ys) : Alike (.list xs) (.list ys)

inductive Result.EntriesAlike : List (String × Result) → List (String × Result) → Prop where
  | nil : EntriesAlike [] []
  | cons {name : String} {x y : Result} {xs ys : List (String × Result)} (h : Alike x y)
      (hs : EntriesAlike xs ys) : EntriesAlike ((name, x) :: xs) ((name, y) :: ys)

inductive Result.ItemsAlike : List Result → List Result → Prop where
  | nil : ItemsAlike [] []
  | cons {x y : Result} {xs ys : List Result} (h : Alike x y) (hs : ItemsAlike xs ys) :
      ItemsAlike (x :: xs) (y :: ys)

end

theorem Result.Alike.entriesAlike {xs ys : List (String × Result)}
    (h : (Result.object xs).Alike (.object ys)) : EntriesAlike xs ys := by
  cases h with
  | object h => exact h

theorem Result.EntriesAlike.head {name : String} {x y : Result} {xs ys : List (String × Result)}
    (h : EntriesAlike ((name, x) :: xs) ((name, y) :: ys)) : x.Alike y := by
  cases h with
  | cons h _ => exact h

theorem Result.itemsAlike_of_forall₂ {xs ys : List Result} (h : List.Forall₂ Result.Alike xs ys) :
    ItemsAlike xs ys := by
  induction h with
  | nil => exact .nil
  | cons h _ ih => exact .cons h ih

/-- Alike records that have an entry have the same one. -/
theorem Value.Alike.entry_eq {v w a b : Value} {name : String} (h : v.Alike w)
    (ha : v.entry name = .ok a) (hb : w.entry name = .ok b) : a = b := by
  cases h with
  | same => exact Except.ok.inj (ha.symm.trans hb)
  | @numbers x y _ => cases x <;> cases ha

/-- A source within the record. -/
inductive Source.Inner : Source → Prop where
  | embedded {field : String} {isList : Bool} : Inner (.embedded field isList)
  | listed {field : String} : Inner (.listed field)

namespace Output

open Access Result

theorem agree_unlessNull {σ τ : Type} {s : σ} {t : τ} {v w : Value}
    {f : Value → Access σ Result} {g : Value → Access τ Result} (hnull : v = .null ↔ w = .null)
    (h : v ≠ .null → w ≠ .null → Agree Result.Alike (f v) s (g w) t) :
    Agree Result.Alike (unlessNull v f) s (unlessNull w g) t := by
  by_cases hv : v = .null
  · rw [hnull.mp hv, hv]
    exact agree_pure (.value .same)
  · have hw : w ≠ .null := fun hw => hv (hnull.mpr hw)
    rw [unlessNull_of_ne hv, unlessNull_of_ne hw]
    exact h hv hw

variable {σ τ : Type} [Store σ] [Store τ] {s : σ} {t : τ} {x y v w : Value}
  {name field typeName : String} {outputs : List Output}

/-- Outputs present two records alike. -/
def Alike (outputs : List Output) (s : σ) (t : τ) (x y : Value) : Prop :=
  Agree EntriesAlike (evaluateAll x outputs : Access σ _) s (evaluateAll y outputs : Access τ _) t

/-- Outputs present two values alike, if they are not null. -/
inductive Presented (outputs : List Output) (s : σ) (t : τ) : Value → Value → Prop where
  | null : Presented outputs s t .null .null
  | object {v w : Value} (hv : v ≠ .null) (hw : w ≠ .null) (h : Alike outputs s t v w) :
      Presented outputs s t v w

theorem agree_leaf (h : ∀ v w, x.entry field = .ok v → y.entry field = .ok w → v.Alike w) :
    Agree Result.Alike (evaluate x (.leaf name (.field field)) : Access σ _) s
      (evaluate y (.leaf name (.field field)) : Access τ _) t := by
  rw [evaluate, evaluate]
  exact (agree_ofExcept h).bind fun v w hvw => agree_pure (.value hvw)

theorem agree_object (h : Alike outputs s t v w) :
    Agree Result.Alike (do return .object (← evaluateAll v outputs) : Access σ _) s
      (do return .object (← evaluateAll w outputs) : Access τ _) t :=
  Agree.bind h fun _ _ hab => agree_pure (.object hab)

theorem Presented.agree (h : Presented outputs s t v w) :
    Agree Result.Alike (unlessNull v fun v => do return .object (← evaluateAll v outputs)) s
      (unlessNull w fun w => do return .object (← evaluateAll w outputs)) t := by
  cases h with
  | null => exact agree_pure (.value .same)
  | object hv hw h =>
    rw [unlessNull_of_ne hv, unlessNull_of_ne hw]
    exact agree_object h

theorem agree_embedded
    (h : ∀ v w, x.entry field = .ok v → y.entry field = .ok w → Presented outputs s t v w) :
    Agree Result.Alike
      (evaluate x (.nested name (.embedded field false) typeName outputs) : Access σ _) s
      (evaluate y (.nested name (.embedded field false) typeName outputs) : Access τ _) t := by
  rw [evaluate, evaluate]
  exact (agree_ofExcept h).bind fun v w hvw => hvw.agree

/-- Both of two values are null, or lists of elements that outputs present alike. -/
structure ListsPresented (outputs : List Output) (s : σ) (t : τ) (v w : Value) : Prop where
  null_iff : v = .null ↔ w = .null
  parts : ∀ vs ws, v.parts = .ok vs → w.parts = .ok ws →
    List.Forall₂ (Presented outputs s t) vs ws

theorem listsPresented_map {α : Type} {qs : List α} {f g : α → Value}
    (h : ∀ q ∈ qs, Presented outputs s t (f q) (g q)) :
    ListsPresented outputs s t (.list (qs.map f)) (.list (qs.map g)) := by
  refine ⟨iff_of_false nofun nofun, fun vs ws hvs hws => ?_⟩
  cases hvs
  cases hws
  rw [List.forall₂_map_left_iff, List.forall₂_map_right_iff, List.forall₂_same]
  exact h

theorem agree_items
    (h : ∀ v w, x.entry field = .ok v → y.entry field = .ok w → ListsPresented outputs s t v w) :
    Agree Result.Alike
      (evaluate x (.nested name (.embedded field true) typeName outputs) : Access σ _) s
      (evaluate y (.nested name (.embedded field true) typeName outputs) : Access τ _) t := by
  rw [evaluate, evaluate]
  refine (agree_ofExcept h).bind fun v w hvw => agree_unlessNull hvw.null_iff fun _ _ => ?_
  refine (agree_ofExcept hvw.parts).bind fun vs ws hparts => ?_
  refine (agree_mapM (hparts.imp fun _ _ hitem => hitem.agree)).bind fun as bs hab => ?_
  exact agree_pure (.list (itemsAlike_of_forall₂ hab))

theorem agree_listed
    (h : ∀ v w a b, x.entry field = .ok v → y.entry field = .ok w → listRecord v = .ok a →
      listRecord w = .ok b → Alike outputs s t a b) :
    Agree Result.Alike (evaluate x (.nested name (.listed field) typeName outputs) : Access σ _) s
      (evaluate y (.nested name (.listed field) typeName outputs) : Access τ _) t := by
  rw [evaluate, evaluate]
  refine (agree_ofExcept fun v w hv hw => And.intro hv hw).bind fun v w hvw => ?_
  refine (agree_ofExcept fun a b ha hb => h v w a b hvw.1 hvw.2 ha hb).bind fun a b hab => ?_
  exact agree_object hab

/-- Both stores find nothing, or records that outputs present alike. -/
def FoundAlike (outputs : List Output) (s : σ) (t : τ) : Option Value → Option Value → Prop :=
  Option.Rel (Alike outputs s t)

theorem agree_related {target : String}
    (h : ∀ v w, x.entry field = .ok v → y.entry field = .ok w → (v = .null ↔ w = .null) ∧
      (v ≠ .null → Agree (FoundAlike outputs s t) (Store.fetchById target v : Access σ _) s
        (Store.fetchById target w : Access τ _) t)) :
    Agree Result.Alike
      (evaluate x (.nested name (.related field target) typeName outputs) : Access σ _) s
      (evaluate y (.nested name (.related field target) typeName outputs) : Access τ _) t := by
  rw [evaluate, evaluate]
  refine (agree_ofExcept h).bind fun v w hvw => agree_unlessNull hvw.1 fun hv _ => ?_
  refine (hvw.2 hv).bind fun a b hab => ?_
  cases hab with
  | none => exact agree_pure (.value .same)
  | some hab => exact agree_object hab

/-- Two pages are made into records that outputs present alike. -/
def PagesAlike (outputs : List Output) (s : σ) (t : τ) (f g : Fetched) : Prop :=
  ∀ a b, fetchedRecord f = .ok a → fetchedRecord g = .ok b → Alike outputs s t a b

theorem agree_connection {target reverse : String} {page : Page}
    (h : ∀ v w, x.required idName = .ok v → y.required idName = .ok w →
      Agree (PagesAlike outputs s t) (fetchRelated outputs target reverse page v : Access σ _) s
        (fetchRelated outputs target reverse page w : Access τ _) t) :
    Agree Result.Alike
      (evaluate x (.nested name (.connection target reverse page) typeName outputs) :
        Access σ _) s
      (evaluate y (.nested name (.connection target reverse page) typeName outputs) :
        Access τ _) t := by
  rw [evaluate, evaluate]
  refine (agree_ofExcept fun v w hv hw => And.intro hv hw).bind fun v w hvw => ?_
  refine (h v w hvw.1 hvw.2).bind fun f g hfg => ?_
  exact (agree_ofExcept hfg).bind fun a b hab => agree_object hab

theorem presented_of_alike (hvw : v.Alike w)
    (h : ∀ v w, v.Alike w → Alike outputs s t v w) : Presented outputs s t v w := by
  by_cases hv : v = .null
  · rw [hvw.null_iff.mp hv, hv]
    exact .null
  · exact .object hv (fun hw => hv (hvw.null_iff.mpr hw)) (h v w hvw)

theorem listsPresented_of_alike (hvw : v.Alike w)
    (h : ∀ v w, v.Alike w → Alike outputs s t v w) : ListsPresented outputs s t v w := by
  refine ⟨hvw.null_iff, fun vs ws hv hw => ?_⟩
  cases hvw with
  | same =>
    cases hv.symm.trans hw
    exact List.forall₂_same.mpr fun item _ => presented_of_alike .same h
  | @numbers a b _ => cases a <;> cases hv

/-- No store is asked for what is within the record. -/
theorem agree_inner {source : Source} (hsource : source.Inner) (hxy : x.Alike y)
    (h : ∀ v w, v.Alike w → Alike outputs s t v w) :
    Agree Result.Alike (evaluate x (.nested name source typeName outputs) : Access σ _) s
      (evaluate y (.nested name source typeName outputs) : Access τ _) t := by
  cases hsource with
  | @embedded field isList =>
    cases isList with
    | false =>
      refine agree_embedded fun v w hv hw => ?_
      rw [hxy.entry_eq hv hw]
      exact presented_of_alike .same h
    | true =>
      refine agree_items fun v w hv hw => ?_
      rw [hxy.entry_eq hv hw]
      exact listsPresented_of_alike .same h
  | listed =>
    refine agree_listed fun v w a b hv hw ha hb => ?_
    rw [hxy.entry_eq hv hw, hb] at ha
    rw [Except.ok.inj ha]
    exact h a a .same

end Output

end ObjectQuery

import Mathlib.Data.List.Forall2
import ObjectQuery.Store.Basic

/-!
# Outcomes

How an outcome of several steps is put together from the outcomes of the steps, for computations
that may fail and for questions to a store. `Yields` is the case that matters for reading: a
question that has an answer and leaves the store as it was.
-/

set_option autoImplicit false

namespace ObjectQuery.Outcome

variable {ε α β γ : Type}

theorem bind_eq_ok {x : Except ε α} {f : α → Except ε β} {b : β} :
    (x >>= f) = .ok b ↔ ∃ a, x = .ok a ∧ f a = .ok b := by
  cases x <;> simp [bind, Except.bind]

@[simp] theorem ok_bind (a : α) (f : α → Except ε β) : (Except.ok a >>= f) = f a := rfl

@[simp] theorem error_bind (e : ε) (f : α → Except ε β) : (Except.error e >>= f) = .error e := rfl

@[simp] theorem pure_eq_ok (a : α) : (pure a : Except ε α) = .ok a := rfl

theorem mapError_eq_ok {δ : Type} {x : Except ε α} {f : ε → δ} {a : α} :
    x.mapError f = .ok a ↔ x = .ok a := by
  cases x <;> simp [Except.mapError]

theorem mapError_eq_error {δ : Type} {x : Except ε α} {f : ε → δ} {d : δ} :
    x.mapError f = .error d ↔ ∃ e, x = .error e ∧ f e = d := by
  cases x <;> simp [Except.mapError]

theorem map_eq_ok {x : Except ε α} {f : α → β} {b : β} :
    x.map f = .ok b ↔ ∃ a, x = .ok a ∧ f a = b := by
  cases x <;> simp [Except.map]

theorem exists_of_any {x : Except ε α} {p : α → Bool} (h : x.toOption.any p = true) :
    ∃ a, x = .ok a ∧ p a = true := by
  cases x with
  | ok a => exact ⟨a, rfl, h⟩
  | error e => cases h

theorem mapM_eq_ok {f : α → Except ε β} {xs : List α} {ys : List β} :
    xs.mapM f = .ok ys ↔ List.Forall₂ (fun x y => f x = .ok y) xs ys := by
  induction xs generalizing ys with
  | nil =>
    simp only [List.mapM_nil, pure_eq_ok, Except.ok.injEq, List.forall₂_nil_left_iff]
    exact eq_comm
  | cons x xs ih =>
    simp only [List.mapM_cons, bind_eq_ok, ih, pure_eq_ok, Except.ok.injEq,
      List.forall₂_cons_left_iff]
    constructor
    · rintro ⟨y, hy, ys, hys, rfl⟩
      exact ⟨y, ys, hy, hys, rfl⟩
    · rintro ⟨y, ys, hy, hys, rfl⟩
      exact ⟨y, hy, ys, hys, rfl⟩

theorem mapM_eq_some {f : α → Option β} {xs : List α} {ys : List β} :
    xs.mapM f = some ys ↔ List.Forall₂ (fun x y => f x = some y) xs ys := by
  induction xs generalizing ys with
  | nil =>
    simp only [List.mapM_nil, Option.pure_def, Option.some.injEq, List.forall₂_nil_left_iff]
    exact eq_comm
  | cons x xs ih =>
    simp only [List.mapM_cons, Option.bind_eq_bind, Option.bind_eq_some_iff, ih, Option.pure_def,
      Option.some.injEq, List.forall₂_cons_left_iff]
    constructor
    · rintro ⟨y, hy, ys, hys, rfl⟩
      exact ⟨y, ys, hy, hys, rfl⟩
    · rintro ⟨y, ys, hy, hys, rfl⟩
      exact ⟨y, hy, ys, hys, rfl⟩

theorem mapM_ok {f : α → Except ε β} {g : α → β} {xs : List α}
    (h : ∀ x ∈ xs, f x = .ok (g x)) : xs.mapM f = .ok (xs.map g) := by
  apply mapM_eq_ok.mpr
  rw [List.forall₂_map_right_iff, List.forall₂_same]
  exact h

theorem exists_mapM_ok {f : α → Except ε β} {xs : List α} (h : ∀ x ∈ xs, ∃ y, f x = .ok y) :
    ∃ ys, xs.mapM f = .ok ys := by
  induction xs with
  | nil => exact ⟨[], rfl⟩
  | cons x xs ih =>
    obtain ⟨y, hy⟩ := h x List.mem_cons_self
    obtain ⟨ys, hys⟩ := ih fun z hz => h z (List.mem_cons_of_mem x hz)
    exact ⟨y :: ys, by rw [List.mapM_cons, hy, ok_bind, hys]; rfl⟩

theorem mapM_congr {f g : α → Except ε β} {xs : List α} (h : ∀ x ∈ xs, f x = g x) :
    xs.mapM f = xs.mapM g := by
  induction xs with
  | nil => rfl
  | cons x xs ih =>
    rw [List.mapM_cons, List.mapM_cons, h x List.mem_cons_self,
      ih fun y hy => h y (List.mem_cons_of_mem x hy)]

theorem exists_left_of_mem {R : α → β → Prop} {xs : List α} {ys : List β} {y : β}
    (h : List.Forall₂ R xs ys) (hy : y ∈ ys) : ∃ x ∈ xs, R x y := by
  induction h with
  | nil => simp at hy
  | @cons a b as bs hab _ ih =>
    rcases List.mem_cons.mp hy with rfl | hy
    · exact ⟨a, List.mem_cons_self, hab⟩
    · obtain ⟨x, hx, hxy⟩ := ih hy
      exact ⟨x, List.mem_cons_of_mem a hx, hxy⟩

/-- A step that succeeds on a list succeeds on every element of it. -/
theorem ok_of_mem_mapM {f : α → Except ε β} {xs : List α} {ys : List β} {x : α}
    (h : xs.mapM f = .ok ys) (hx : x ∈ xs) : ∃ y ∈ ys, f x = .ok y :=
  exists_left_of_mem (mapM_eq_ok.mp h).flip hx

theorem exists_of_mem_mapM {f : α → Except ε β} {xs : List α} {ys : List β} {y : β}
    (h : xs.mapM f = .ok ys) (hy : y ∈ ys) : ∃ x ∈ xs, f x = .ok y :=
  exists_left_of_mem (R := fun x y => f x = .ok y) (mapM_eq_ok.mp h) hy

theorem filterAuxM_ok {p : α → Except ε Bool} {q : α → Bool} {xs : List α}
    (h : ∀ x ∈ xs, p x = .ok (q x)) (acc : List α) :
    xs.filterAuxM p acc = .ok ((xs.filter q).reverse ++ acc) := by
  induction xs generalizing acc with
  | nil => rfl
  | cons x xs ih =>
    have hx := h x List.mem_cons_self
    have hxs := ih fun y hy => h y (List.mem_cons_of_mem x hy)
    rw [List.filterAuxM, hx, ok_bind, hxs, List.filter_cons]
    cases q x <;> simp

theorem filterM_ok {p : α → Except ε Bool} {q : α → Bool} {xs : List α}
    (h : ∀ x ∈ xs, p x = .ok (q x)) : xs.filterM p = .ok (xs.filter q) := by
  rw [List.filterM, filterAuxM_ok h, ok_bind, pure_eq_ok]
  simp

theorem allM_ok {p : α → Except ε Bool} {q : α → Bool} {xs : List α}
    (h : ∀ x ∈ xs, p x = .ok (q x)) : xs.allM p = .ok (xs.all q) := by
  induction xs with
  | nil => rfl
  | cons x xs ih =>
    have hx := h x List.mem_cons_self
    have hxs := ih fun y hy => h y (List.mem_cons_of_mem x hy)
    simp only [List.allM, hx, ok_bind, List.all_cons]
    cases q x
    · rfl
    · simpa using hxs

/-- A computation that fails in no other way than these. -/
def FailsWith (p : ε → Prop) (x : Except ε α) : Prop := ∀ e, x = .error e → p e

variable {p : ε → Prop}

theorem failsWith_ok (a : α) : FailsWith p (.ok a) := nofun

theorem failsWith_error {e : ε} (h : p e) : FailsWith p (.error e : Except ε α) := by
  intro e' he
  cases he
  exact h

theorem FailsWith.bind {x : Except ε α} {f : α → Except ε β} (hx : FailsWith p x)
    (hf : ∀ a, x = .ok a → FailsWith p (f a)) : FailsWith p (x >>= f) := by
  cases x with
  | ok a => exact hf a rfl
  | error e => exact failsWith_error (hx e rfl)

theorem FailsWith.mono {q : ε → Prop} {x : Except ε α} (hx : FailsWith p x) (h : ∀ e, p e → q e) :
    FailsWith q x :=
  fun e he => h e (hx e he)

theorem failsWith_mapError {δ : Type} {x : Except δ α} {f : δ → ε} (h : ∀ e, p (f e)) :
    FailsWith p (x.mapError f) := by
  cases x with
  | ok a => exact failsWith_ok a
  | error e => exact failsWith_error (h e)

theorem failsWith_mapM {f : α → Except ε β} {xs : List α} (h : ∀ x ∈ xs, FailsWith p (f x)) :
    FailsWith p (xs.mapM f) := by
  induction xs with
  | nil => exact failsWith_ok []
  | cons x xs ih =>
    rw [List.mapM_cons]
    refine (h x List.mem_cons_self).bind fun _ _ => ?_
    exact (ih fun y hy => h y (List.mem_cons_of_mem x hy)).bind fun _ _ => failsWith_ok _

/-- What a computation fails with that its first step does not fail with is from a later step. -/
theorem FailsWith.bind_eq_error {x : Except ε α} {f : α → Except ε β} {e : ε} (hx : FailsWith p x)
    (he : ¬p e) : (x >>= f) = .error e ↔ ∃ a, x = .ok a ∧ f a = .error e := by
  cases x with
  | ok a => simp
  | error e' =>
    simp only [error_bind, Except.error.injEq, reduceCtorEq, false_and, exists_false, iff_false]
    rintro rfl
    exact he (hx e' rfl)

theorem FailsWith.bind_eq_error_left {x : Except ε α} {f : α → Except ε β} {e : ε}
    (hf : ∀ a, FailsWith p (f a)) (he : ¬p e) : (x >>= f) = .error e ↔ x = .error e := by
  cases x with
  | ok a =>
    refine iff_of_false ?_ nofun
    exact fun h => he (hf a e h)
  | error e' => simp

theorem mapM_cons_eq_error {f : α → Except ε β} {x : α} {xs : List α} {e : ε} :
    (x :: xs).mapM f = .error e ↔ f x = .error e ∨ (∃ b, f x = .ok b) ∧ xs.mapM f = .error e := by
  rw [List.mapM_cons]
  cases f x with
  | error e' => simp
  | ok b => cases xs.mapM f <;> simp

/-- A list of steps fails at the first one that does. -/
theorem mapM_eq_error {f : α → Except ε β} {xs : List α} {e : ε} :
    xs.mapM f = .error e ↔ ∃ before x after, xs = before ++ x :: after ∧
      (∀ y ∈ before, ∃ b, f y = .ok b) ∧ f x = .error e := by
  induction xs with
  | nil => simp
  | cons x xs ih =>
    rw [mapM_cons_eq_error]
    constructor
    · rintro (hx | ⟨hx, hrest⟩)
      · exact ⟨[], x, xs, rfl, nofun, hx⟩
      · obtain ⟨before, y, after, rfl, hbefore, hy⟩ := ih.mp hrest
        exact ⟨x :: before, y, after, rfl, List.forall_mem_cons.mpr ⟨hx, hbefore⟩, hy⟩
    · rintro ⟨before, y, after, hsplit, hbefore, hy⟩
      cases before with
      | nil =>
        cases hsplit
        exact .inl hy
      | cons z before =>
        cases hsplit
        obtain ⟨hx, hbefore⟩ := List.forall_mem_cons.mp hbefore
        exact .inr ⟨hx, ih.mpr ⟨before, y, after, rfl, hbefore, hy⟩⟩

/-- Steps that fail in one way only fail together if one of them does. -/
theorem mapM_eq_error_iff_exists {f : α → Except ε β} {xs : List α} {e e' : ε}
    (h : ∀ x ∈ xs, FailsWith (· = e) (f x)) :
    xs.mapM f = .error e' ↔ e' = e ∧ ∃ x ∈ xs, f x = .error e := by
  constructor
  · intro hf
    obtain rfl := failsWith_mapM h e' hf
    obtain ⟨before, x, after, rfl, _, hx⟩ := mapM_eq_error.mp hf
    exact ⟨rfl, x, by simp, hx⟩
  · rintro ⟨rfl, x, hx, hfx⟩
    cases hf : xs.mapM f with
    | error e => rw [failsWith_mapM h e hf]
    | ok ys =>
      obtain ⟨y, _, hy⟩ := ok_of_mem_mapM hf hx
      rw [hfx] at hy
      cases hy

end ObjectQuery.Outcome

namespace ObjectQuery.Access

variable {σ α β : Type}

theorem result_bind_eq_ok {x : Access σ α} {f : α → Access σ β} {s t : σ} {b : β} :
    (x >>= f).result s = (.ok b, t) ↔
      ∃ a u, x.result s = (.ok a, u) ∧ (f a).result u = (.ok b, t) := by
  rw [result_bind]
  rcases x.result s with ⟨r, u⟩
  cases r <;> simp

theorem result_ofExcept_eq_ok {x : Except Misuse α} {a : α} {s t : σ} :
    (ofExcept x).result s = (.ok a, t) ↔ x = .ok a ∧ s = t := by
  cases x <;> simp

/-- What needs no store leaves it as it is. -/
theorem result_ofExcept_bind_eq_ok {x : Except Misuse α} {f : α → Access σ β} {s t : σ} {b : β} :
    (ofExcept x >>= f).result s = (.ok b, t) ↔
      ∃ a, x = .ok a ∧ (f a).result s = (.ok b, t) := by
  cases x <;> simp

/-- A question to a store has an answer and changes nothing. -/
def Yields (x : Access σ α) (s : σ) (a : α) : Prop := x.result s = (.ok a, s)

theorem yields_pure (a : α) (s : σ) : (pure a : Access σ α).Yields s a := rfl

theorem Yields.bind {x : Access σ α} {f : α → Access σ β} {s : σ} {a : α} {b : β}
    (hx : x.Yields s a) (hf : (f a).Yields s b) : (x >>= f).Yields s b := by
  unfold Yields at *
  rw [result_bind, hx]
  exact hf

theorem yields_ofExcept {x : Except Misuse α} {a : α} (h : x = .ok a) (s : σ) :
    (ofExcept x : Access σ α).Yields s a := by
  subst h
  exact yields_pure a s

theorem yields_mapM {f : α → Access σ β} {g : α → β} {xs : List α} {s : σ}
    (h : ∀ x ∈ xs, (f x).Yields s (g x)) : (xs.mapM f).Yields s (xs.map g) := by
  induction xs with
  | nil => exact yields_pure [] s
  | cons x xs ih =>
    rw [List.mapM_cons]
    refine (h x List.mem_cons_self).bind (Yields.bind ?_ (yields_pure _ s))
    exact ih fun y hy => h y (List.mem_cons_of_mem x hy)

end ObjectQuery.Access

import ObjectQuery.Proofs.Calendar.Stamps
import ObjectQuery.Proofs.Number.Comparison
import ObjectQuery.Proofs.Outcome
import ObjectQuery.Scalar.Coercion

/-!
# What is read back from a column

A value of a scalar is read back from the column for the scalar as the value that was stored, but
for numbers, of which only the value is kept. Looking for a value of the scalar in the column is
comparing it with what was stored.

Of a structured value nothing changes, unless it is a number by itself; an integer of more than 64
bits may be read back as another number.
-/

set_option autoImplicit false

namespace ObjectQuery

open Binary64 Outcome

/-- The same value, or two numbers of the same value. -/
inductive Value.Alike : Value → Value → Prop where
  | same {v : Value} : Alike v v
  | numbers {a b : Value.Number} (h : a.compare? b = some .eq) :
      Alike (Datum.number a).toValue (Datum.number b).toValue

namespace Value

variable {v w : Value}

theorem alike_of_scaled {a b : Number} {x : Int} (ha : a.scaled? = some x)
    (hb : b.scaled? = some x) : Alike (Datum.number a).toValue (Datum.number b).toValue :=
  .numbers ((Number.compare?_eq_iff ha hb).mpr rfl)

theorem Alike.null_iff (h : v.Alike w) : v = .null ↔ w = .null := by
  cases h with
  | same => rfl
  | @numbers a b _ => cases a <;> cases b <;> simp [Datum.toValue]

theorem Alike.eq_of_text {s : String} (h : v.Alike w) (hv : v = .text s) : w = .text s := by
  cases h with
  | same => exact hv
  | @numbers a b _ => cases a <;> cases hv

theorem Alike.eq_of_int {m n : Int} (h : (Value.int m).Alike (.int n)) : m = n := by
  generalize hv : Value.int m = v at h
  generalize hw : Value.int n = w at h
  cases h with
  | same => exact Value.int.inj (hv.trans hw.symm)
  | @numbers a b hab =>
    cases a <;> cases hv
    cases b <;> cases hw
    exact compare_eq_iff_eq.mp (Option.some.inj hab)

end Value

/-- The values of a scalar. -/
inductive Scalar.Holds : Scalar → Value → Prop where
  | id (s : String) : Holds .id (.text s)
  | string (s : String) : Holds .string (.text s)
  | int (n : Int) : Holds .int (.int n)
  | float {x : Binary64} (hx : x.isFinite = true) : Holds .float (.float x)
  | boolean (b : Bool) : Holds .boolean (.bool b)
  | datetime {m : Moment} (hm : m.isLocal = true) : Holds .datetime (.moment m)

theorem Moment.ofValue_isLocal {v : Value} {m : Moment} (h : ofValue v = .ok m) :
    m.isLocal = true := by
  unfold ofValue at h
  split at h
  · split at h
    · rename_i hm
      cases h
      exact hm
    · cases h
  · cases h
    rfl
  · split at h
    · split at h
      · rename_i hm
        cases h
        exact hm
      · cases h
    · cases h
    · cases h
  · cases h

namespace Scalar

variable {s : Scalar} {v w : Value} {held : Option Value} {t : Wanted}

theorem floatOf_isFinite {x : Binary64} (h : floatOf v = .ok (some x)) : x.isFinite = true := by
  unfold floatOf at h
  split at h
  · simp only [Except.ok.injEq] at h
    split at h
    · rename_i hx
      cases h
      exact hx
    · cases h
  · split at h
    · rename_i hx
      cases h
      exact hx
    · cases h
  · cases h

theorem holds_of_coerce (h : s.coerce v = .ok w) : s.Holds w := by
  cases s with
  | id =>
    obtain ⟨x, _, rfl⟩ := map_eq_ok.mp (mapError_eq_ok.mp h)
    exact .id x
  | string =>
    obtain ⟨x, _, rfl⟩ := map_eq_ok.mp (mapError_eq_ok.mp h)
    exact .string x
  | int =>
    obtain ⟨x, _, rfl⟩ := map_eq_ok.mp (mapError_eq_ok.mp h)
    exact .int x
  | boolean =>
    obtain ⟨x, _, rfl⟩ := map_eq_ok.mp (mapError_eq_ok.mp h)
    exact .boolean x
  | float =>
    simp only [coerce] at h
    split at h
    · rename_i x hx
      cases h
      exact .float (floatOf_isFinite hx)
    · cases h
    · cases h
  | datetime =>
    simp only [coerce] at h
    split at h
    · rename_i m hm
      cases h
      exact .datetime (Moment.ofValue_isLocal hm)
    · cases h
    · cases h

end Scalar

namespace Datum

theorem ofInt_eq_ok {n : Int} {d : Datum} (h : ofInt n = .ok d) : d = number (.whole n) := by
  unfold ofInt at h
  split at h
  · cases h
    rfl
  · cases h

/-- A finite number is stored without the sign of a zero. -/
theorem ofFloat_eq {x : Binary64} (h : x.isFinite = true) :
    ofFloat x = some (number (.float (if x.isZero then .zero else x))) := by
  unfold ofFloat
  rw [if_neg]
  rintro rfl
  cases h

theorem equal_number_iff {a b : Value.Number} {x y : Int} (ha : a.scaled? = some x)
    (hb : b.scaled? = some y) : (number a).equal (.number b) = true ↔ y = x := by
  rw [equal, decide_eq_true_eq, Value.Number.compare?_eq_iff ha hb, eq_comm]

theorem equal_text_eq (x y : String) :
    (text y).equal (.text x) = (Value.text x).equal (.text y) := by
  rw [Bool.eq_iff_iff, equal_text, Value.equal_text, beq_iff_eq, beq_iff_eq, eq_comm]

theorem equal_whole_eq (m n : Int) :
    (number (.whole n)).equal (.number (.whole m)) = (Value.int m).equal (.int n) := by
  rw [Bool.eq_iff_iff, equal_number_iff rfl rfl]
  simp only [Value.equal, Value.number?, decide_eq_true_eq]
  exact (Value.Number.compare?_eq_iff rfl rfl).symm

theorem equal_float_eq {x y : Binary64} (hx : x.isFinite = true) (hy : y.isFinite = true) :
    (number (settle (.float (if y.isZero then .zero else y)))).equal (.number (.float x)) =
      (Value.float x).equal (.float y) := by
  obtain ⟨_, _, _, hxs⟩ := Value.Number.scaled?_float hx
  obtain ⟨_, _, _, hys⟩ := Value.Number.scaled?_float hy
  have hwanted := ((scaled?_settle _).trans (scaled?_unsigned y)).trans hys
  rw [Bool.eq_iff_iff, equal_number_iff hwanted hxs]
  simp only [Value.equal, Value.number?, decide_eq_true_eq]
  exact (Value.Number.compare?_eq_iff hxs hys).symm

theorem equal_stamp_eq {m n : Moment} (hm : m.isLocal = true) (hn : n.isLocal = true) :
    (text n.stamp).equal (.text m.stamp) = (Value.moment m).equal (.moment n) := by
  rw [Bool.eq_iff_iff, equal_text, beq_iff_eq, Moment.stamp_inj hn hm, Value.equal,
    Moment.equal_iff hm hn]
  exact eq_comm

end Datum

namespace Scalar

open ColumnType

variable {s : Scalar} {v w : Value} {held : Option Value} {t : Wanted}

theorem Holds.exists_text (h : Scalar.id.Holds v) : ∃ id, v = .text id := by
  cases h with
  | id id => exact ⟨id, rfl⟩

/-- What is stored of a value of a scalar. -/
inductive Kept : Scalar → Value → Value → Prop where
  | id (s : String) : Kept .id (.text s) (.text s)
  | string (s : String) : Kept .string (.text s) (.text s)
  | int (n : Int) : Kept .int (.int n) (.int n)
  | float {x : Binary64} (hx : x.isFinite = true) :
      Kept .float (.float x) (.float (if x.isZero then .zero else x))
  | boolean (b : Bool) : Kept .boolean (.bool b) (.bool b)
  | datetime {m : Moment} (hm : m.isLocal = true) : Kept .datetime (.moment m) (.moment m)

theorem Holds.exists_kept (h : s.Holds v) (hc : (ofScalar s).cell v = .ok held) :
    ∃ w, held = some w ∧ s.Kept v w := by
  cases h with
  | id x =>
    cases hc
    exact ⟨_, rfl, .id x⟩
  | string x =>
    cases hc
    exact ⟨_, rfl, .string x⟩
  | int n =>
    obtain ⟨d, hd, hc⟩ := bind_eq_ok.mp hc
    obtain ⟨e, he, hd⟩ := bind_eq_ok.mp hd
    cases Datum.ofInt_eq_ok he
    cases hd
    cases hc
    exact ⟨_, rfl, .int n⟩
  | @float x hx =>
    simp only [cell, ofScalar, Cell.asFloat, Cell.ofFloat, Datum.ofFloat_eq hx] at hc
    cases hc
    exact ⟨_, rfl, .float hx⟩
  | boolean b =>
    cases b <;> cases hc
    · exact ⟨_, rfl, .boolean false⟩
    · exact ⟨_, rfl, .boolean true⟩
  | @datetime m hm =>
    obtain ⟨d, u, _ | o⟩ := m
    · cases hc
      exact ⟨_, rfl, .datetime rfl⟩
    · cases hm

theorem Kept.alike (h : s.Kept v w) : v.Alike w := by
  cases h with
  | @float x hx =>
    obtain ⟨_, _, _, hscaled⟩ := Value.Number.scaled?_float hx
    exact Value.alike_of_scaled hscaled ((Datum.scaled?_unsigned x).trans hscaled)
  | _ => exact .same

theorem Holds.wanted_eq_ok (h : s.Holds w) (ht : (ofScalar s).wanted w = .ok t) :
    ∃ d, Datum.ofValue Moment.stamp w = .ok (some d) ∧ t = .datum ((ofScalar s).adapt d) := by
  have hw : (ofScalar s).wanted w = do
      return (← Datum.ofValue Moment.stamp w).elim .nothing
        fun d => .datum ((ofScalar s).adapt d) := by
    cases h <;> rfl
  obtain ⟨d?, hd, ht⟩ := bind_eq_ok.mp (hw.symm.trans ht)
  cases d? with
  | some d =>
    cases ht
    exact ⟨d, hd, rfl⟩
  | none =>
    cases h with
    | int n =>
      obtain ⟨d, _, hsome⟩ := bind_eq_ok.mp hd
      cases hsome
    | float hx =>
      rw [Datum.ofValue, Datum.ofFloat_eq hx] at hd
      cases hd
    | _ => cases hd

/-- Looking for a value of a scalar where another one is held is comparing the two. -/
theorem Holds.isHeld_eq {u : Value} (hu : s.Holds u) (hw : s.Holds w)
    (ht : (ofScalar s).wanted w = .ok t) : t.isHeld (ofScalar s) (some u) = u.equal w := by
  obtain ⟨d, hd, rfl⟩ := hw.wanted_eq_ok ht
  cases hw with
  | id y =>
    cases hd
    cases hu with
    | id x => exact Datum.equal_text_eq x y
  | string y =>
    cases hd
    cases hu with
    | string x => exact Datum.equal_text_eq x y
  | int n =>
    obtain ⟨e, he, hd⟩ := bind_eq_ok.mp hd
    cases Datum.ofInt_eq_ok he
    cases hd
    cases hu with
    | int m => exact Datum.equal_whole_eq m n
  | @float y hy =>
    rw [Datum.ofValue, Datum.ofFloat_eq hy] at hd
    cases hd
    cases hu with
    | @float x hx => exact Datum.equal_float_eq hx hy
  | boolean c =>
    cases hd
    cases hu with
    | boolean b => cases b <;> cases c <;> decide
  | @datetime n hn =>
    cases hd
    cases hu with
    | @datetime m hm =>
      have hadapt : (ofScalar .datetime).adapt (.text n.stamp) = .text n.stamp := by
        rw [adapt, if_neg (by decide), Datum.asNumber, Moment.read?_stamp]
      rw [hadapt]
      exact Datum.equal_stamp_eq hm hn

theorem Kept.holds {u : Value} (h : s.Kept v u) : s.Holds u := by
  cases h with
  | id x => exact .id x
  | string x => exact .string x
  | int n => exact .int n
  | @float x hx =>
    refine .float ?_
    split
    · rfl
    · exact hx
  | boolean b => exact .boolean b
  | datetime hm => exact .datetime hm

/-- What is stored of a value is equal to what the value is equal to. -/
theorem Kept.equal_eq {u : Value} (h : s.Kept v u) (hw : s.Holds w) : u.equal w = v.equal w := by
  cases h with
  | @float x hx =>
    cases hw with
    | @float y hy =>
      obtain ⟨_, _, _, hxs⟩ := Value.Number.scaled?_float hx
      obtain ⟨_, _, _, hys⟩ := Value.Number.scaled?_float hy
      have hus := (Datum.scaled?_unsigned x).trans hxs
      rw [Bool.eq_iff_iff]
      simp only [Value.equal, Value.number?, decide_eq_true_eq]
      rw [Value.Number.compare?_eq_iff hus hys, Value.Number.compare?_eq_iff hxs hys]
  | _ => rfl

/-- A value of a scalar, or none. -/
def Allows (s : Scalar) (v : Value) : Prop := v = .null ∨ s.Holds v

theorem cell_null (s : Scalar) : (ofScalar s).cell .null = .ok none := by
  cases s <;> rfl

/-- Nothing is found where nothing is stored. -/
theorem Holds.isHeld_none (hw : s.Holds w) (ht : (ofScalar s).wanted w = .ok t) :
    t.isHeld (ofScalar s) none = false ∧ Value.null.equal w = false := by
  obtain ⟨d, _, rfl⟩ := hw.wanted_eq_ok ht
  refine ⟨rfl, ?_⟩
  cases hw <;> rfl

theorem Allows.alike (hv : s.Allows v) (hc : (ofScalar s).cell v = .ok held) :
    v.Alike (held.getD .null) := by
  rcases hv with rfl | hv
  · rw [cell_null] at hc
    cases hc
    exact .same
  · obtain ⟨u, rfl, hu⟩ := hv.exists_kept hc
    exact hu.alike

theorem Allows.isHeld_eq (hv : s.Allows v) (hc : (ofScalar s).cell v = .ok held)
    (hw : s.Holds w) (ht : (ofScalar s).wanted w = .ok t) :
    t.isHeld (ofScalar s) held = v.equal w := by
  rcases hv with rfl | hv
  · rw [cell_null] at hc
    cases hc
    obtain ⟨hheld, hequal⟩ := hw.isHeld_none ht
    rw [hheld, hequal]
  · obtain ⟨u, rfl, hu⟩ := hv.exists_kept hc
    exact (hu.holds.isHeld_eq hw ht).trans (hu.equal_eq hw)

end Scalar

namespace Value

variable {v : Value} {held : Option Value}

/-- Whether a column for structured values gives a value back once it is stored there. -/
def ReadsBack (v : Value) : Prop := ∀ w, Cell.asStructured v = .ok (some w) → v.Alike w

theorem ReadsBack.alike (h : v.ReadsBack) (hc : Cell.asStructured v = .ok held) :
    v.Alike (held.getD .null) := by
  cases held with
  | some w => exact h w hc
  | none =>
    unfold Cell.asStructured at hc
    split at hc <;> cases hc

/-- Only an integer by itself can be too wide. -/
theorem readsBack_of_fits (h : ∀ n, v = .int n → Datum.fits n = true) : v.ReadsBack := by
  intro w hw
  unfold Cell.asStructured at hw
  split at hw
  · cases hw
  · rename_i n _ hn
    cases hw
    unfold Cell.numberIn at hn
    split at hn
    · rw [if_pos (h _ rfl)] at hn
      cases hn
      exact .same
    · split at hn
      · rename_i hx
        cases hn
        obtain ⟨_, _, _, hscaled⟩ := Number.scaled?_float hx
        exact alike_of_scaled hscaled ((Datum.scaled?_settle _).trans hscaled)
      · cases hn
    · cases hn
  · cases hw
    exact .same

end Value

end ObjectQuery

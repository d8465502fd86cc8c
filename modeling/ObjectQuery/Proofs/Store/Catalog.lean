import ObjectQuery.Proofs.Store.Migration
import ObjectQuery.Proofs.Store.Rows

/-!
# The catalog of a database

A store that is set up for a valid schema has a valid one at all times, and its tables are at all
times those for its schema, with the columns in whatever order they came. The database calls each
table by the name of its type, and a column by the name of its field unless that is bare and ends in
a newline. A change that is made is made to the schema and keeps what is stored in whatever stays;
one that is not leaves the store as it was.
-/

set_option autoImplicit false

namespace ObjectQuery

open Outcome Validation

theorem withoutFinalNewline_eq_self {cs : List Char} (h : '\n' ∉ cs) :
    withoutFinalNewline cs = cs := by
  unfold withoutFinalNewline
  split
  · rename_i rest hrest
    exact absurd (List.mem_reverse.mp (hrest ▸ List.mem_cons_self)) h
  · rfl

theorem identifier_identifier (n : String) : identifier (identifier n) = identifier n := by
  by_cases hbare : Identifier.isBare n = true
  · have hplain : '\n' ∉ withoutFinalNewline n.toList := by
      unfold Identifier.isBare at hbare
      split at hbare
      · cases hbare
      · rename_i c cs hcs
        rw [Bool.and_eq_true, List.all_eq_true] at hbare
        rw [hcs, List.mem_cons, not_or]
        refine ⟨?_, fun hmem => ?_⟩
        · rintro rfl
          exact absurd hbare.1 (by decide)
        · exact absurd (hbare.2 _ hmem) (by decide)
    have hidentifier : identifier n = String.ofList (withoutFinalNewline n.toList) := if_pos hbare
    rw [hidentifier, identifier, String.toList_ofList, withoutFinalNewline_eq_self hplain, ite_self]
  · have hidentifier : identifier n = n := if_neg hbare
    rw [hidentifier, hidentifier]

/-- Names of types begin with a capital letter, which is never bare. -/
theorem identifier_of_isTypeName {n : String} (h : isTypeName n = true) : identifier n = n := by
  refine if_neg ?_
  unfold isTypeName matchesName at h
  unfold Identifier.isBare
  cases hcs : withoutFinalNewline n.toList with
  | nil => simp
  | cons c cs =>
    rw [hcs] at h
    have hupper := (Bool.and_eq_true_iff.mp h).1
    have hlower : c.isLower = false := by
      have hle : 'A'.val ≤ c.val ∧ c.val ≤ 'Z'.val := of_decide_eq_true hupper
      cases hl : c.isLower with
      | false => rfl
      | true =>
        have hge : 'a'.val ≤ c.val := of_decide_eq_true (Bool.and_eq_true_iff.mp hl).1
        exact absurd (UInt32.le_trans hge hle.2) (by decide)
    have hother : (c == '_') = false := by
      rw [beq_eq_false_iff_ne]
      rintro rfl
      exact absurd hupper (by decide)
    simp [Identifier.isStart, hlower, hother]

theorem Schema.Valid.identifier_name {rules : Rules} {s : Schema} (h : s.Valid rules)
    {t : ObjectType} (ht : t ∈ s.types) : identifier t.name.inline = t.name.inline := by
  obtain ⟨n, hn⟩ := h.exists_name ht
  have hnames := (h.typeFacts ht).names
  rw [hn, nameViolations, List.append_eq_nil_iff, check_eq_nil_iff] at hnames
  rw [hn]
  exact identifier_of_isTypeName hnames.1

namespace Relational

variable {r r' r₀ : Relational} {c : SchemaChange} {n : String} {v : Value}

theorem result_change (c : SchemaChange) (r : Relational) :
    (Store.change c : Access Relational Bool).result r = match r.prepare c with
      | .error e => (.error e, r)
      | .ok none => (.ok false, r)
      | .ok (some (changed, statements)) =>
        match changed.database.run statements with
        | (database, true) => (.ok true, { changed with database })
        | (database, false) => (.error (.fault .notChanged), { r with database }) := by
  show ((ask (·.prepare c) >>= _) : Access Relational Bool).result r = _
  rw [Access.result_bind, result_ask]
  cases r.prepare c with
  | error e => rfl
  | ok o =>
    cases o with
    | none => rfl
    | some p =>
      obtain ⟨changed, statements⟩ := p
      dsimp only
      rcases changed.database.run statements with ⟨database, done⟩
      cases done <;> rfl

/-- A change that is not refused, with the statements that it takes. -/
structure Prepared (r : Relational) (c : SchemaChange) (changed : Relational)
    (statements : List Statement) : Prop where
  schema : r.schema.apply c = .ok changed.schema
  valid : changed.schema.Valid ⟨r.registry, []⟩
  registry : changed.registry = r.registry
  database : changed.database = r.database
  statements : ∃ spots, referring r.schema c = .ok spots ∧
    statements = migration r.layouts changed.layouts spots c

theorem prepare_eq_ok {changed : Relational} {statements : List Statement}
    (h : r.prepare c = .ok (some (changed, statements))) : r.Prepared c changed statements := by
  obtain ⟨outcome, houtcome, h⟩ := bind_eq_ok.mp h
  cases outcome with
  | error refusal => cases h
  | ok s =>
    obtain ⟨hschema, hvalid⟩ := Schema.applyValidated_eq_ok (mapError_eq_ok.mp houtcome)
    dsimp only at h
    split at h
    · cases h
    · obtain ⟨spots, hspots, h⟩ := bind_eq_ok.mp h
      cases h
      exact ⟨hschema, hvalid, rfl, rfl, spots, mapError_eq_ok.mp hspots, rfl⟩

/-- A store with a valid schema and the tables for it. -/
structure Consistent (r : Relational) : Prop where
  registry : r.registry = .standard
  valid : r.schema.Valid ⟨.standard, []⟩
  fits : r.database.Fits r.layouts
  storable : Storable r.layouts

theorem Consistent.of_create {rules : Rules} {s : Schema} (hs : s.Valid rules)
    (hr : rules.registry = .standard) (h : create .standard s = .ok r) : r.Consistent := by
  obtain ⟨hregistry, rfl, hstorable, hdatabase⟩ := create_eq_ok h
  refine ⟨hregistry, hr ▸ hs.unrequired, ?_, hstorable⟩
  rw [hdatabase, Database.Fits, Database.ofRows, List.forall₂_map_left_iff, List.forall₂_same]
  exact fun _ _ => ⟨rfl, .refl _⟩

/-- A change that is made is made to the schema and keeps what is stored in whatever stays. -/
structure Made (r : Relational) (c : SchemaChange) (r' : Relational) : Prop where
  schema : r.schema.apply c = .ok r'.schema
  keeps : r.database.Keeps r'.database

/-- The statements for a change that is not refused follow the changed schema. -/
theorem Consistent.follows (h : r.Consistent) {changed : Relational} {statements : List Statement}
    (hp : r.Prepared c changed statements) :
    r.database.Follows changed.layouts (changed.database.run statements) := by
  obtain ⟨hschema, hvalid, hregistry, hdatabase, spots, hspots, rfl⟩ := hp
  have hls := r.layouts_eq
  have hls' := changed.layouts_eq
  rw [h.registry] at hvalid hls
  rw [hregistry, h.registry] at hls'
  rw [hdatabase]
  exact follows_migration h.valid rfl hvalid hls hls' h.storable h.fits hschema hspots

theorem Consistent.change (h : r.Consistent) (c : SchemaChange) :
    (∃ r', (Store.change c : Access Relational Bool).result r = (.ok true, r') ∧ r'.Consistent ∧
      r.Made c r') ∨
    ∃ outcome, (Store.change c : Access Relational Bool).result r = (outcome, r) ∧
      outcome ≠ .ok true := by
  rw [result_change]
  cases hp : r.prepare c with
  | error e => exact .inr ⟨.error e, rfl, nofun⟩
  | ok o =>
    cases o with
    | none => exact .inr ⟨.ok false, rfl, nofun⟩
    | some p =>
      obtain ⟨changed, statements⟩ := p
      have hprepared := prepare_eq_ok hp
      have hfollows := h.follows hprepared
      have hregistry := hprepared.registry.trans h.registry
      have hvalid := hprepared.valid
      rw [h.registry] at hvalid
      dsimp only
      generalize changed.database.run statements = ran at hfollows ⊢
      cases hfollows with
      | done hfits hstorable hkeeps =>
        exact .inl ⟨_, rfl, ⟨hregistry, hvalid, hfits, hstorable⟩, hprepared.schema, hkeeps⟩
      | refused => exact .inr ⟨_, rfl, nofun⟩

theorem foldlM_insertRow_eq_ok {otherwise : Fault} {rows : List (Except Unstorable Row)}
    {t new : Table} (h : rows.foldlM (insertRow otherwise) t = .ok new) :
    ∃ added, new = { t with rows := t.rows ++ added } := by
  induction rows generalizing t with
  | nil =>
    cases h
    exact ⟨[], by rw [List.append_nil]⟩
  | cons row rows ih =>
    rw [List.foldlM_cons] at h
    obtain ⟨t₁, h₁, h⟩ := bind_eq_ok.mp h
    obtain ⟨cells, _, rfl⟩ := insertRow_eq_ok h₁
    obtain ⟨added, rfl⟩ := ih h
    exact ⟨cells :: added, by rw [List.append_assoc, List.singleton_append]⟩

theorem insertInto_rows {t new : Table} {l : TableLayout} {records : List Value}
    {otherwise : Fault} (h : insertInto t l records otherwise = .ok new) :
    ∃ added, new = { t with rows := t.rows ++ added } := by
  unfold insertInto at h
  dsimp only at h
  split at h
  · split at h
    · cases h
    · exact foldlM_insertRow_eq_ok h
  · cases h

/-- Inserting records adds rows to one table. -/
theorem Consistent.insert (h : r.Consistent) (hr : r.insert n v = .ok r') : r'.Consistent := by
  obtain ⟨l, _, hr⟩ := bind_eq_ok.mp hr
  obtain ⟨records, _, hr⟩ := bind_eq_ok.mp hr
  split at hr
  · rename_i t ht
    obtain ⟨new, hnew, hr⟩ := bind_eq_ok.mp hr
    obtain ⟨added, rfl⟩ := insertInto_rows hnew
    split at hr
    · rename_i d hd
      cases hr
      exact ⟨h.registry, h.valid, h.fits.replace h.storable.toSeparate ht hd, h.storable⟩
    · cases hr
  · cases hr

theorem result_insertRecords (n : String) (records : Value) (r : Relational) :
    (insertRecords n records).result r = match r.insert n records with
      | .ok r' => (.ok (), r')
      | .error e => (.error e, r) := by
  rw [insertRecords, Access.result_bind, result_ask]
  cases r.insert n records <;> rfl

/-- Stores that changes and insertions make of a store, those that fail included. -/
inductive Reached (r₀ : Relational) : Relational → Prop
  | start : Reached r₀ r₀
  | change {r : Relational} (h : Reached r₀ r) (c : SchemaChange) :
    Reached r₀ ((Store.change c : Access Relational Bool).result r).2
  | insert {r : Relational} (h : Reached r₀ r) (n : String) (records : Value) :
    Reached r₀ ((insertRecords n records).result r).2

theorem Reached.consistent (h : r₀.Reached r) (h₀ : r₀.Consistent) : r.Consistent := by
  induction h with
  | start => exact h₀
  | change _ c ih =>
    rcases ih.change c with ⟨r', hresult, hr', _⟩ | ⟨outcome, hresult, _⟩
    · rw [hresult]
      exact hr'
    · rw [hresult]
      exact ih
  | @insert r _ n records ih =>
    rw [result_insertRecords]
    cases hinsert : r.insert n records with
    | ok r' => exact ih.insert hinsert
    | error e => exact ih

/-- Whether a table is listed with the columns of a layout. -/
structure Listed (t : String × List (String × ColumnType)) (l : TableLayout) : Prop where
  name : t.1 = l.name
  columns : t.2.Perm (l.columns.map fun c => (c.name, c.type))

/-- A layout with everything by the names that the database uses. -/
def identified (l : TableLayout) : TableLayout where
  name := identifier l.name
  columns := l.columns.map fun c => { c with name := identifier c.name }

theorem identified_eq_self {l : TableLayout} (hn : identifier l.name = l.name)
    (hc : ∀ c ∈ l.columns, identifier c.name = c.name) : identified l = l := by
  have hcolumns : (l.columns.map fun c => { c with name := identifier c.name }) =
      l.columns.map id := List.map_congr_left fun c hmem => by rw [hc c hmem]; rfl
  rw [identified, hn, hcolumns, List.map_id]

theorem Consistent.catalog_identified (h : r.Consistent) :
    List.Forall₂ Listed r.database.catalog (r.layouts.map identified) := by
  rw [Database.catalog, List.forall₂_map_left_iff, List.forall₂_map_right_iff]
  refine h.fits.imp fun t l hfits => ⟨congrArg identifier hfits.name, ?_⟩
  rw [identified, List.map_map]
  exact hfits.columns.map _

theorem Consistent.identifier_name (h : r.Consistent) {l : TableLayout} (hl : l ∈ r.layouts) :
    identifier l.name = l.name := by
  rw [h.valid.layouts_eq r.layouts_eq] at hl
  obtain ⟨t, ht, rfl⟩ := List.mem_map.mp hl
  exact h.valid.identifier_name (List.mem_of_mem_filter ht)

theorem Consistent.catalog_names (h : r.Consistent) : r.database.catalog.map (·.1) =
    (r.schema.types.filter ObjectType.isNode).map (·.name.inline) := by
  have hnames : r.database.catalog.map (·.1) = r.layouts.map (·.name) := by
    rw [Database.catalog, List.map_map]
    have hall := congrArg (List.map identifier) h.fits.names
    rw [List.map_map, List.map_map] at hall
    refine hall.trans (List.map_congr_left fun l hl => h.identifier_name hl)
  rw [hnames, h.valid.layouts_eq r.layouts_eq, List.map_map]
  rfl

theorem Consistent.catalog_listed_iff (h : r.Consistent) :
    List.Forall₂ Listed r.database.catalog r.layouts ↔
      ∀ l ∈ r.layouts, ∀ c ∈ l.columns, identifier c.name = c.name := by
  constructor
  · intro hlisted l hl c hc
    rw [Database.catalog, List.forall₂_map_left_iff] at hlisted
    have hboth := h.fits.mp (fun _ _ hfits hlisted => And.intro hfits hlisted) hlisted
    obtain ⟨t, _, hfits, hcolumns⟩ := exists_left_of_mem hboth hl
    -- The names that are listed are what the database calls some columns.
    have hmem : (c.name, c.type) ∈ t.columns.map fun c => (identifier c.name, c.type) :=
      hcolumns.columns.mem_iff.mpr (List.mem_map_of_mem hc)
    obtain ⟨d, _, hd⟩ := List.mem_map.mp hmem
    rw [← (Prod.mk.inj hd).1, identifier_identifier]
  · intro hnames
    have hself : r.layouts.map identified = r.layouts.map id := List.map_congr_left fun l hl =>
      identified_eq_self (h.identifier_name hl) (hnames l hl)
    rw [List.map_id] at hself
    exact hself ▸ h.catalog_identified

/-- A store whose database follows its schema, now and at the next change. -/
structure Following (r : Relational) : Prop where
  valid : r.schema.Valid ⟨.standard, []⟩
  layouts : r.schema.layouts .standard = .ok r.layouts
  names : r.database.catalog.map (·.1) =
    (r.schema.types.filter ObjectType.isNode).map (·.name.inline)
  columns : List.Forall₂ Listed r.database.catalog (r.layouts.map identified)
  /-- The columns are listed as they are laid out only if the database calls each by its name. -/
  listed_iff : List.Forall₂ Listed r.database.catalog r.layouts ↔
    ∀ l ∈ r.layouts, ∀ c ∈ l.columns, identifier c.name = c.name
  change : ∀ c, (∃ r', (Store.change c : Access Relational Bool).result r = (.ok true, r') ∧
      r.schema.apply c = .ok r'.schema ∧ r.database.Keeps r'.database) ∨
    ∃ outcome, (Store.change c : Access Relational Bool).result r = (outcome, r) ∧
      outcome ≠ .ok true

end Relational

namespace Notes

def userType : ObjectType where
  name := .text userTypeName
  members := .ofFields [idField]
  interfaces := .list [.text nodeInterface]

def noteType : ObjectType where
  name := .text "Note"
  members := .ofFields [idField, { name := .text "text\n", type := .text "string" }]
  interfaces := .list [.text nodeInterface]

def schema : Schema := ⟨[userType, noteType]⟩

def addition : SchemaChange :=
  .addField (.text "Note") (.field { name := .text "mark", type := .text "int" })

def records : Value := .list [.object [("id", .text "n"), ("text\n", .text "hello")]]

end Notes

end ObjectQuery

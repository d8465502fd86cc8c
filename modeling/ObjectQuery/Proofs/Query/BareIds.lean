import ObjectQuery.Proofs.Query.Filtering
import ObjectQuery.Proofs.Query.Names

/-!
# Ids without quotes

An id can be written in a query as a bare word. Which id the word stands for depends on the word
alone: a number stands for its digits if it is whole and for no id otherwise, and every other word
stands for itself. So an id can be pasted as it is, unless it is a number that is written in another
way than by its digits.
-/

set_option autoImplicit false

namespace ObjectQuery

open Outcome Compile

namespace Word

/-- The id that a word stands for. -/
def id? (w : List Char) : Option String :=
  match atom w with
  | .number (.whole k) => some (toString k)
  | .number (.fraction x) => x.toInt?.map toString
  | _ => some (String.ofList w)

/-- What a word comes to where an id is wanted. -/
def asId (w : List Char) : Except CompileError String :=
  match id? w with
  | some id => .ok id
  | none => .error (.coercion (.unfit .id (atom w).value (.id (atom w).value)))

variable {w : List Char}

theorem asId_eq_ok {id : String} : asId w = .ok id ↔ id? w = some id := by
  unfold asId
  cases id? w <;> simp

theorem value_of_not_number (h : ∀ k, atom w ≠ .number k) :
    (atom w).value = .text (String.ofList w) := by
  unfold atom at h ⊢
  split
  · rfl
  · rename_i hname
    cases hn : numeral? w with
    | none => rfl
    | some k =>
      rw [if_neg hname, hn] at h
      exact absurd rfl (h k)

theorem id?_of_not_number (h : ∀ k, atom w ≠ .number k) : id? w = some (String.ofList w) := by
  unfold id?
  split
  · rename_i k hk
    exact absurd hk (h _)
  · rename_i x hx
    exact absurd hx (h _)
  · rfl

theorem id_of_value_eq {a : Argument} (ha : a.value = atom w) : a.id = asId w := by
  unfold Argument.id asId
  rw [ha]
  by_cases hnumber : ∃ k, atom w = .number k
  · obtain ⟨k, hk⟩ := hnumber
    unfold id?
    rw [hk]
    cases k with
    | whole k => rfl
    | fraction x =>
      show (Scalar.idOf (.float x)).mapError _ = _
      simp only [Scalar.idOf, Scalar.whole?]
      cases x.toInt? <;> rfl
  · have hnone := not_exists.mp hnumber
    rw [value_of_not_number hnone, id?_of_not_number hnone]
    rfl

theorem coerce_value : (Scalar.id.coerce (atom w).value).mapError CompileError.coercion =
    (asId w).map .text := by
  have hid : Argument.id ⟨atom w, none, .start⟩ = asId w := id_of_value_eq rfl
  rw [← hid, Argument.id, Scalar.coerce]
  cases Scalar.idOf (atom w).value <;> rfl

/-- The words that stand for themselves. -/
theorem id?_eq_self_iff : id? w = some (String.ofList w) ↔
    (∀ k, atom w ≠ .number k) ∨ ∃ k : Int, w = (toString k).toList := by
  constructor
  · intro h
    by_cases hnumber : ∃ k, atom w = .number k
    · obtain ⟨k, hk⟩ := hnumber
      have hdigits {m : Int} (hm : toString m = String.ofList w) : w = (toString m).toList := by
        rw [hm, String.toList_ofList]
      unfold id? at h
      rw [hk] at h
      cases k with
      | whole k => exact .inr ⟨k, hdigits (Option.some.inj h)⟩
      | fraction x =>
        obtain ⟨m, _, hm⟩ := Option.map_eq_some_iff.mp h
        exact .inr ⟨m, hdigits hm⟩
    · exact .inl (not_exists.mp hnumber)
  · rintro (hnone | ⟨k, rfl⟩)
    · exact id?_of_not_number hnone
    · unfold id?
      rw [(whole_reads k).2, String.ofList_toList]

end Word

namespace Call

/-- A call with the name of a type, a word that is given by name or not, and one selection. -/
def worded (head n : String) (name : Option String) (w : List Char) (selected : String) : Call :=
  .mk head [⟨.name n, none, .start⟩, ⟨Word.atom w, name, .start⟩] [.plain selected []] .start

/-- The text of such a call. -/
def wording (head n : String) (name : Option String) (w : List Char) (selected : String) : String :=
  let given := name.elim [] fun name => name.toList ++ [':', ' ']
  String.ofList (head.toList ++ '(' :: (n.toList ++ ',' :: ' ' :: (given ++ (w ++
    ')' :: ' ' :: '\x7b' :: ' ' :: (selected.toList ++ [' ', '\x7d'])))))

end Call

example : Call.wording "nodes" "User" (some "after") ['0', '7'] "count" =
    "nodes(User, after: 07) \x7b count \x7d" := rfl

namespace Scan

variable {rest w : List Char} {ls : List Lexeme}

theorem reads_word (hw : Word.Bare w) : Reads w [.atom (Word.atom w)] := by
  have h : Reads (w ++ []) [.atom (Word.atom w)] := reads_nil.word hw nofun
  rwa [List.append_nil] at h

theorem Reads.name {n : String} (hn : Word.isName n.toList = true)
    (hend : ∀ c ∈ rest.head?, Word.isPart c = false) (h : Reads rest ls) :
    Reads (n.toList ++ rest) (.atom (.name n) :: ls) :=
  Reads.atom (a := .name n) hn hend h

end Scan

namespace Query

open Scan

variable {head n selected : String} {name : Option String} {w : List Char}

/-- A selection in a block, from the end of the arguments on. -/
theorem reads_selected (h : Word.isName selected.toList = true) :
    Reads (')' :: ' ' :: '\x7b' :: ' ' :: (selected.toList ++ [' ', '\x7d']))
      [.closeParen, .openBrace, .atom (.name selected), .closeBrace] := by
  have hclose : Reads [' ', '\x7d'] [.closeBrace] := (reads_nil.mark rfl).blank rfl
  have hname := hclose.name h (by rintro c ⟨⟩; rfl)
  exact (((hname.blank rfl).mark rfl).blank rfl).mark rfl

theorem reads_wording (hhead : Word.isName head.toList = true)
    (hn : Word.isName n.toList = true) (hname : ∀ m ∈ name, Word.isName m.toList = true)
    (hw : Word.Bare w) (hselected : Word.isName selected.toList = true) :
    Reads (Call.wording head n name w selected).toList
      (Call.lexemesOf [.worded head n name w selected]) := by
  have hword := (reads_selected hselected).word hw (by rintro c ⟨⟩; rfl)
  rw [Call.wording, String.toList_ofList]
  cases name with
  | none =>
    refine Reads.name hhead (by rintro c ⟨⟩; rfl) (.mark rfl ?_)
    refine Reads.name hn (by rintro c ⟨⟩; rfl) (.blank rfl (.blank rfl ?_))
    exact hword
  | some m =>
    refine Reads.name hhead (by rintro c ⟨⟩; rfl) (.mark rfl ?_)
    refine Reads.name hn (by rintro c ⟨⟩; rfl) (.blank rfl (.blank rfl ?_))
    rw [Option.elim_some, List.append_assoc]
    refine Reads.name (hname m rfl) (by rintro c ⟨⟩; rfl) (.mark rfl (.blank rfl ?_))
    exact hword

theorem formed_worded (hhead : Word.isName head.toList = true)
    (hn : Word.isName n.toList = true) (hname : ∀ m ∈ name, Word.isName m.toList = true)
    (hw : Word.Bare w) (hselected : Word.isName selected.toList = true) :
    Call.FormedAll [.worded head n name w selected] := by
  have harguments : ∀ a ∈ [Argument.mk (.name n) none .start, ⟨Word.atom w, name, .start⟩],
      a.Formed := by
    refine List.forall_mem_cons.mpr ⟨⟨hn, nofun⟩, List.forall_mem_singleton.mpr ⟨?_, hname⟩⟩
    exact formed_atom w hw
  have horder : Parsing.disorder head
      [⟨.name n, none, .start⟩, ⟨Word.atom w, name, .start⟩] = none := by
    cases name <;> rfl
  exact ⟨⟨hhead, harguments, horder, ⟨hselected, nofun, rfl, trivial⟩, trivial⟩, trivial⟩

/-- The text is read as the call, wherever it says it to be. -/
theorem parse_wording (name : Option String) (hhead : Word.isName head.toList = true)
    (hn : Word.isName n.toList = true) (hname : ∀ m ∈ name, Word.isName m.toList = true)
    (hw : Word.Bare w) (hselected : Word.isName selected.toList = true) :
    ∃ c, parse (Call.wording head n name w selected) = .ok [c] ∧ c.name = head ∧
      (c.arguments.map fun b => (b.name, b.value)) = [(none, .name n), (name, Word.atom w)] ∧
      Call.sameAll c.selections [.plain selected []] = true := by
  obtain ⟨q, hq, hsame⟩ := parse_of_reads (List.cons_ne_nil _ _)
    (formed_worded hhead hn hname hw hselected) (reads_wording hhead hn hname hw hselected)
  obtain ⟨c, rest, rfl, hc, hrest⟩ := Call.sameAll_cons hsame
  obtain rfl := Call.eq_nil_of_sameAll hrest
  exact ⟨c, hq, Call.of_same hc⟩

end Query

section Plans

variable {credentials : Credentials} {i : Snapshot} {limit : Int} {t : ObjectType} {c : Call}
  {n name text : String} {w : List Char} {plan : String → CallPlan}

theorem Context.project_eq {context : Context} {ss : List Call} {os : List Output}
    (h : Call.sameAll c.selections ss = true) (hs : Call.Block ss) (hlimit : 1 ≤ limit)
    (hos : context.outputs limit [] 1 c.selections = .ok os) :
    context.project limit c = .ok ⟨context.typeName, os⟩ := by
  refine bind_eq_ok.mpr ⟨(), Call.checkBlock_of_sameAll h hs hlimit, ?_⟩
  rw [hos]
  rfl

theorem Compile.project_count (ht : i.schema.type? n = some t) (hlimit : 1 ≤ limit)
    (h : Call.sameAll c.selections [.ofCount] = true) :
    (Context.connection c.name (.data i) t).project limit c =
      .ok ⟨n ++ connectionMarker, [countOutput]⟩ := by
  have hos : (Context.connection c.name (.data i) t).outputs limit [] 1 c.selections =
      .ok [countOutput] :=
    Context.outputs_of_cons (fun _ => output_count) (fun _ => Context.outputs_of_nil) h
  rw [Context.project_eq h (Call.block_singleton _) hlimit hos, Context.typeName,
    Schema.label_eq ht]

theorem Compile.node_of_word (hi : i.rules.registry = .standard)
    (ht : i.schema.type? n = some t) (hnode : t.isNode = true) (hlimit : 1 ≤ limit)
    (harguments : (c.arguments.map fun b => (b.name, b.value)) =
      [(none, .name n), (none, Word.atom w)])
    (h : Call.sameAll c.selections [.ofId] = true) :
    node i limit c = (Word.asId w).map fun id => .fetchNode n id ⟨n, [idOutput]⟩ := by
  have hos : (Context.object (.data i) t).outputs limit [] 1 c.selections = .ok [idOutput] :=
    outputs_id hi (Schema.mem_of_type? ht) hnode h
  rw [node_of_positional harguments ht hnode, Word.id_of_value_eq (w := w) rfl,
    Context.project_eq h (Call.block_singleton _) hlimit hos, Context.typeName, Schema.label_eq ht]
  cases Word.asId w <;> rfl

theorem Compile.nodes_after_word (ht : i.schema.type? n = some t) (hnode : t.isNode = true)
    (hlimit : 1 ≤ limit)
    (harguments : (c.arguments.map fun b => (b.name, b.value)) =
      [(none, .name n), (some afterName, Word.atom w)])
    (h : Call.sameAll c.selections [.ofCount] = true) :
    nodes i limit c = (Word.asId w).map fun id =>
      .fetchNodes n [] ⟨none, some (.text id)⟩ ⟨n ++ connectionMarker, [countOutput]⟩ := by
  have hpage : afterName ∈ Page.argumentNames := List.mem_cons_of_mem _ List.mem_cons_self
  obtain ⟨y, hy, hnodes⟩ := nodes_of_named limit harguments ht hnode
    (List.mem_append_left _ hpage)
  have hfilters : filters (filterable i t) [(afterName, y)] = .ok [] := by
    rw [filters, List.mapM_cons, filter?_of_page hpage]
    rfl
  have hafter : Page.ofArguments c [(afterName, y)] =
      (Word.asId w).map fun id => ⟨none, some (.text id)⟩ := by
    have hfirst : [(afterName, y)].lookup firstName = none := rfl
    have hself : [(afterName, y)].lookup afterName = some y := rfl
    rw [Page.ofArguments, hfirst, hself, Option.mapM_some, Word.id_of_value_eq hy]
    cases Word.asId w <;> rfl
  rw [hnodes, hafter, hfilters, project_count ht hlimit h, Schema.label_eq ht]
  cases Word.asId w <;> rfl

theorem Compile.nodes_with_word (hi : i.rules.registry = .standard)
    (ht : i.schema.type? n = some t) (hnode : t.isNode = true) (hlimit : 1 ≤ limit)
    (harguments : (c.arguments.map fun b => (b.name, b.value)) =
      [(none, .name n), (some idName, Word.atom w)])
    (h : Call.sameAll c.selections [.ofCount] = true) :
    nodes i limit c = (Word.asId w).map fun id =>
      .fetchNodes n [(idName, .text id)] ⟨none, none⟩ ⟨n ++ connectionMarker, [countOutput]⟩ := by
  have hmem := Schema.mem_of_type? ht
  have hpage : idName ∉ Page.argumentNames := by decide
  obtain ⟨f, hf, hk⟩ := i.valid.exists_idField hi hmem hnode
  have hasks (y : Argument) : Asks i t (idName, y) .id := ⟨hpage, f, hf, hk⟩
  obtain ⟨y, hy, hnodes⟩ := nodes_of_named limit harguments ht hnode
    ((mem_allowed (a := (idName, ⟨Word.atom w, none, .start⟩)) hmem).mpr (.inr ⟨_, hasks _⟩))
  rw [hnodes, Page.ofArguments_other hpage, filters_of_asks hmem (hasks y), hy, Word.coerce_value,
    project_count ht hlimit h, Schema.label_eq ht]
  cases Word.asId w <;> rfl

theorem Plan.ofText_of_call (hparse : Query.parse text = .ok [c])
    (hcall : Compile.call credentials i limit c = (Word.asId w).map plan) :
    Plan.ofText credentials i limit text =
      ((Word.asId w).map fun id => [plan id]).mapError .compile := by
  rw [Plan.ofText, hparse]
  show (Query.compile credentials i limit [c]).mapError QueryError.compile = _
  rw [Query.compile, List.mapM_cons, hcall]
  cases Word.asId w <;> rfl

theorem Compile.call_node (h : c.name = "node") : call credentials i limit c = node i limit c := by
  rw [call, h]
  rfl

theorem Compile.call_nodes (h : c.name = "nodes") :
    call credentials i limit c = nodes i limit c := by
  rw [call, h]
  rfl

theorem Plan.ofText_node (hi : i.rules.registry = .standard) (ht : i.schema.type? n = some t)
    (hnode : t.isNode = true) (hlimit : 1 ≤ limit) (hn : Word.isName n.toList = true)
    (hw : Word.Bare w) :
    Plan.ofText credentials i limit (Call.wording "node" n none w idName) =
      ((Word.asId w).map fun id => [.fetchNode n id ⟨n, [idOutput]⟩]).mapError .compile := by
  obtain ⟨c, hparse, hc, harguments, hselections⟩ :=
    Query.parse_wording none (rfl : Word.isName "node".toList = true) hn nofun hw
      (rfl : Word.isName idName.toList = true)
  refine ofText_of_call hparse ?_
  rw [call_node hc, node_of_word hi ht hnode hlimit harguments hselections]

theorem Plan.ofText_nodes {name : String} (hname : Word.isName name.toList = true)
    (hn : Word.isName n.toList = true) (hw : Word.Bare w)
    (h : ∀ c : Call, (c.arguments.map fun b => (b.name, b.value)) =
        [(none, .name n), (some name, Word.atom w)] →
      Call.sameAll c.selections [.ofCount] = true →
      nodes i limit c = (Word.asId w).map plan) :
    Plan.ofText credentials i limit (Call.wording "nodes" n (some name) w countName) =
      ((Word.asId w).map fun id => [plan id]).mapError .compile := by
  have hgiven : ∀ m ∈ some name, Word.isName m.toList = true := by
    intro m hm
    rwa [← Option.some.inj hm]
  obtain ⟨c, hparse, hc, harguments, hselections⟩ :=
    Query.parse_wording (some name) (rfl : Word.isName "nodes".toList = true) hn hgiven hw
      (rfl : Word.isName countName.toList = true)
  refine ofText_of_call hparse ?_
  rw [call_nodes hc, h c harguments hselections]

namespace Compile

theorem name_of_filter? {scalars : List (String × Scalar)} {a : String × Argument}
    {e : String × Value} (h : filter? scalars a = .ok (some e)) : e.1 = a.1 := by
  unfold filter? at h
  split at h
  · cases h
  · split at h
    · obtain ⟨v, _, h⟩ := bind_eq_ok.mp h
      cases h
      rfl
    · cases h

/-- The filter on a field is that of the first argument of its name. -/
theorem filters_lookup {scalars : List (String × Scalar)} {named : List (String × Argument)}
    {fs : Filters} {y : Argument} {s : Scalar} (h : filters scalars named = .ok fs)
    (hy : named.lookup name = some y) (hpage : name ∉ Page.argumentNames)
    (hs : scalars.lookup name = some s) :
    ∃ v, s.coerce y.value.value = .ok v ∧ fs.lookup name = some v := by
  obtain ⟨os, hos, hfs⟩ := bind_eq_ok.mp h
  cases hfs
  have hall := mapM_eq_ok.mp hos
  clear hos h
  induction hall with
  | nil => cases hy
  | @cons a o named os ha _ ih =>
    rw [List.lookup_cons] at hy
    cases hname : name == a.1 with
    | true =>
      rw [hname] at hy
      obtain rfl : a.2 = y := Option.some.inj hy
      have hcontained : Page.argumentNames.contains a.1 = false := by
        simpa [← eq_of_beq hname] using hpage
      rw [filter?, hcontained, ← eq_of_beq hname, hs] at ha
      obtain ⟨v, hv, ha⟩ := bind_eq_ok.mp ha
      cases ha
      exact ⟨v, mapError_eq_ok.mp hv, by simp⟩
    | false =>
      rw [hname] at hy
      obtain ⟨v, hv, hfound⟩ := ih hy
      refine ⟨v, hv, ?_⟩
      cases o with
      | none => exact hfound
      | some e =>
        have hcons : (some e :: os).filterMap id = e :: os.filterMap id :=
          List.filterMap_cons_some rfl
        rw [hcons, List.lookup_cons, name_of_filter? ha, hname]
        exact hfound

/-- Whatever else a call for records has, the ids in it are those that its arguments stand for. -/
theorem nodes_ids {p : CallPlan} (hi : i.rules.registry = .standard) (h : nodes i limit c = .ok p) :
    ∃ m fs page projection, p = .fetchNodes m fs page projection ∧
      (∀ a, c.given? afterName = some a →
        ∃ id, Scalar.idOf a.value = .ok id ∧ page.after = some (.text id)) ∧
      ∀ a, c.given? idName = some a →
        ∃ id, Scalar.idOf a.value = .ok id ∧ fs.lookup idName = some (.text id) := by
  obtain ⟨a, ha, h⟩ := bind_eq_ok.mp h
  obtain ⟨n, hn, h⟩ := bind_eq_ok.mp h
  obtain ⟨t, ht, h⟩ := bind_eq_ok.mp h
  obtain ⟨named, hnamed, h⟩ := bind_eq_ok.mp h
  obtain ⟨page, hpage, h⟩ := bind_eq_ok.mp h
  obtain ⟨fs, hfs, h⟩ := bind_eq_ok.mp h
  obtain ⟨projection, hp, h⟩ := bind_eq_ok.mp h
  cases h
  obtain rfl := (Call.allowing_eq_ok.mp hnamed).1
  refine ⟨_, _, _, _, rfl, fun b hb => ?_, fun b hb => ?_⟩
  · obtain ⟨y, hy, rfl⟩ := Option.map_eq_some_iff.mp hb
    obtain ⟨first, _, hpage⟩ := bind_eq_ok.mp hpage
    obtain ⟨after, hafter, hpage⟩ := bind_eq_ok.mp hpage
    cases hpage
    rw [hy] at hafter
    obtain ⟨id, hid, hafter⟩ := bind_eq_ok.mp hafter
    cases hafter
    exact ⟨id, Argument.id_eq_ok hid, rfl⟩
  · obtain ⟨y, hy, rfl⟩ := Option.map_eq_some_iff.mp hb
    obtain ⟨ht, hnode⟩ := nodeType_eq_ok.mp ht
    have hmem := Schema.mem_of_type? ht
    obtain ⟨f, hf, hk⟩ := i.valid.exists_idField hi hmem hnode
    obtain ⟨v, hv, hlookup⟩ := filters_lookup hfs hy (by decide)
      ((lookup_filterable_eq_some hmem).mpr ⟨f, hf, hk⟩)
    obtain ⟨id, hid, rfl⟩ := map_eq_ok.mp (mapError_eq_ok.mp hv)
    exact ⟨id, hid, hlookup⟩

end Compile

theorem Word.id?_of_idOf {id : String} (h : Scalar.idOf (atom w).value = .ok id) :
    id? w = some id := by
  have hid : Argument.id ⟨atom w, none, .start⟩ = .ok id := mapError_eq_ok.mpr h
  rwa [id_of_value_eq (w := w) rfl, asId_eq_ok] at hid

/-- A bare word is one token, and stands for one id wherever an id is wanted: in a call for a record
and in one for records, after the id or with it, whatever else there is in the call. The id is the
word itself if the word is no number or is an integer by its digits. -/
theorem Snapshot.ids_of_words (credentials : Credentials) (hi : i.rules.registry = .standard)
    (ht : i.schema.type? n = some t) (hnode : t.isNode = true) (hline : '\n' ∉ n.toList)
    (hw : Word.Bare w) (hlimit : 1 ≤ limit) :
    ((scan w).failure = none ∧ (scan w).tokens.map Token.lexeme = [.atom (Word.atom w)]) ∧
      (Word.id? w = some (String.ofList w) ↔
        (∀ k, Word.atom w ≠ .number k) ∨ ∃ k : Int, w = (toString k).toList) ∧
      Plan.ofText credentials i limit (Call.wording "node" n none w idName) =
        ((Word.asId w).map fun id => [.fetchNode n id ⟨n, [idOutput]⟩]).mapError .compile ∧
      Plan.ofText credentials i limit (Call.wording "nodes" n (some afterName) w countName) =
        ((Word.asId w).map fun id => [.fetchNodes n [] ⟨none, some (.text id)⟩
          ⟨n ++ connectionMarker, [countOutput]⟩]).mapError .compile ∧
      Plan.ofText credentials i limit (Call.wording "nodes" n (some idName) w countName) =
        ((Word.asId w).map fun id => [.fetchNodes n [(idName, .text id)] ⟨none, none⟩
          ⟨n ++ connectionMarker, [countOutput]⟩]).mapError .compile ∧
      ∀ c p, c.name = "nodes" → Compile.call credentials i limit c = .ok p →
        ∃ m fs page projection, p = .fetchNodes m fs page projection ∧
          (c.given? afterName = some (Word.atom w) →
            ∃ id, Word.id? w = some id ∧ page.after = some (.text id)) ∧
          (c.given? idName = some (Word.atom w) →
            ∃ id, Word.id? w = some id ∧ fs.lookup idName = some (.text id)) := by
  have hname : Word.isName n.toList = true := by
    obtain ⟨m, hm, hlines⟩ := (i.valid.typeFacts (Schema.mem_of_type? ht)).nameOverLines
    rw [Schema.type?_name ht] at hm
    cases hm
    exact hlines.isName_iff.mpr hline
  refine ⟨Scan.reads_word hw 0 1, Word.id?_eq_self_iff, ?_, ?_, ?_, ?_⟩
  · exact Plan.ofText_node hi ht hnode hlimit hname hw
  · refine Plan.ofText_nodes rfl hname hw fun c harguments hselections => ?_
    exact nodes_after_word ht hnode hlimit harguments hselections
  · refine Plan.ofText_nodes rfl hname hw fun c harguments hselections => ?_
    exact nodes_with_word hi ht hnode hlimit harguments hselections
  · intro c p hc h
    rw [call_nodes hc] at h
    obtain ⟨m, fs, page, projection, hp, hafter, hwith⟩ := nodes_ids hi h
    refine ⟨m, fs, page, projection, hp, fun hgiven => ?_, fun hgiven => ?_⟩
    · obtain ⟨id, hid, hpage⟩ := hafter _ hgiven
      exact ⟨id, Word.id?_of_idOf hid, hpage⟩
    · obtain ⟨id, hid, hfilter⟩ := hwith _ hgiven
      exact ⟨id, Word.id?_of_idOf hid, hfilter⟩

end Plans

/-- A literal that begins with a digit is the id that it says, in all three places. -/
theorem library_ids_of_words :
    ('\n' ∉ "Book".toList ∧ Word.Bare "7-up".toList ∧ Word.id? "7-up".toList = some "7-up") ∧
      Plan.ofText {} Library.snapshot defaultLimit
          (Call.wording "node" "Book" none "7-up".toList idName) =
        .ok [.fetchNode "Book" "7-up" ⟨"Book", [idOutput]⟩] ∧
      Plan.ofText {} Library.snapshot defaultLimit
          (Call.wording "nodes" "Book" (some afterName) "7-up".toList countName) =
        .ok [.fetchNodes "Book" [] ⟨none, some (.text "7-up")⟩
          ⟨"Book" ++ connectionMarker, [countOutput]⟩] ∧
      Plan.ofText {} Library.snapshot defaultLimit
          (Call.wording "nodes" "Book" (some idName) "7-up".toList countName) =
        .ok [.fetchNodes "Book" [(idName, .text "7-up")] ⟨none, none⟩
          ⟨"Book" ++ connectionMarker, [countOutput]⟩] := by
  have hline : '\n' ∉ "Book".toList := by decide
  have hw : Word.Bare "7-up".toList := ⟨⟨rfl, rfl⟩, rfl⟩
  have hid : Word.id? "7-up".toList = some "7-up" := rfl
  have hasId : Word.asId "7-up".toList = .ok "7-up" := Word.asId_eq_ok.mpr hid
  obtain ⟨_, _, hnode, hafter, hwith, _⟩ :=
    Library.snapshot.ids_of_words (t := Library.bookType) (n := "Book") {} rfl rfl rfl hline hw
      (by decide : 1 ≤ defaultLimit)
  rw [hasId] at hnode hafter hwith
  exact ⟨⟨hline, hw, hid⟩, hnode, hafter, hwith⟩

/-- Two numbers that do not stand for themselves: one is written with zeros before it, and one is
not whole. -/
theorem library_numbers_not_as_written :
    (Word.Bare "007".toList ∧ Plan.ofText {} Library.snapshot defaultLimit
        (Call.wording "node" "User" none "007".toList idName) =
      .ok [.fetchNode "User" "7" ⟨"User", [idOutput]⟩]) ∧
    (Word.Bare "1.5".toList ∧ ∃ v, Plan.ofText {} Library.snapshot defaultLimit
        (Call.wording "node" "User" none "1.5".toList idName) =
      .error (.compile (.coercion (.unfit .id v (.id v))))) ∧
    ¬∀ w, Word.Bare w → ∃ projection, Plan.ofText {} Library.snapshot defaultLimit
        (Call.wording "node" "User" none w idName) =
      .ok [.fetchNode "User" (String.ofList w) projection] := by
  have htext {w : List Char} (hw : Word.Bare w) :
      Plan.ofText {} Library.snapshot defaultLimit (Call.wording "node" "User" none w idName) =
        ((Word.asId w).map fun id => [.fetchNode "User" id ⟨"User", [idOutput]⟩]).mapError
          .compile :=
    Plan.ofText_node (t := Library.userType) rfl rfl rfl (by decide) rfl hw
  have hzeros : Word.Bare "007".toList := ⟨⟨rfl, rfl⟩, rfl⟩
  have hfraction : Word.Bare "1.5".toList := ⟨⟨rfl, rfl⟩, rfl⟩
  have hseven : Word.id? "007".toList = some "7" := by decide +kernel
  have hnone : Word.id? "1.5".toList = none := by decide +kernel
  have hread := htext hzeros
  rw [Word.asId_eq_ok.mpr hseven] at hread
  refine ⟨⟨hzeros, hread⟩, ⟨hfraction, (Word.atom "1.5".toList).value, ?_⟩, fun h => ?_⟩
  · rw [htext hfraction, Word.asId, hnone]
    rfl
  · obtain ⟨projection, hwritten⟩ := h _ hzeros
    rw [hread] at hwritten
    have hid := CallPlan.fetchNode.inj (List.cons.inj (Except.ok.inj hwritten)).1
    exact absurd hid.2.1 (by decide)

end ObjectQuery

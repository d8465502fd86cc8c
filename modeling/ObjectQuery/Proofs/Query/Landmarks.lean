import ObjectQuery.Proofs.Query.Spelling
import ObjectQuery.Proofs.Query.Tracing

/-!
# Places in a query

The places in what is read are those of the tokens that calls and arguments begin with: the name of
a call, the name of an argument that has one, or else its value. They come in the order of the text,
and each shows what it is the place of. The line that a scan counts for a token is the line of that
place.
-/

set_option autoImplicit false

namespace ObjectQuery

open Outcome

/-- The place of an argument, with what is written there. -/
def Argument.landmark (a : Argument) : Location × Lexeme :=
  (a.location, .atom (a.name.elim a.value .name))

mutual

/-- The places in a call, each with what is written there: the call, its arguments, then its
selections. -/
def Call.landmarks : Call → List (Location × Lexeme)
  | .mk name arguments selections location =>
    (location, .atom (.name name)) ::
      (arguments.map Argument.landmark ++ landmarksOf selections)

def Call.landmarksOf : List Call → List (Location × Lexeme)
  | [] => []
  | c :: cs => c.landmarks ++ landmarksOf cs

end

/-- The tokens that calls and arguments begin with: all but the marks and the values behind
colons. -/
def anchors (behindColon : Bool) : List Token → List Token
  | [] => []
  | t :: ts =>
    match t.lexeme with
    | .atom _ => if behindColon then anchors false ts else t :: anchors false ts
    | .colon => anchors true ts
    | _ => anchors false ts

theorem anchors_sublist (behindColon : Bool) (ts : List Token) :
    (anchors behindColon ts).Sublist ts := by
  induction ts generalizing behindColon with
  | nil => exact .slnil
  | cons t ts ih =>
    rw [anchors]
    split
    · cases behindColon with
      | true => exact (ih false).cons t
      | false => exact (ih false).cons_cons t
    · exact (ih true).cons t
    · exact (ih false).cons t

section
variable (place : Nat → Location) (r : List Token)

def Token.landmark (t : Token) : Location × Lexeme := (place t.offset, t.lexeme)

/-- The places of some tokens that calls and arguments begin with. -/
def landmarksIn (ts : List Token) : List (Location × Lexeme) :=
  (anchors false ts).map (Token.landmark place)

theorem landmarksIn_argument (a : ArgumentTree) :
    landmarksIn place (a.tokens ++ r) = (a.read place).landmark :: landmarksIn place r := by
  cases a <;> rfl

theorem landmarksIn_arguments (as : List ArgumentTree) :
    landmarksIn place (as.flatMap ArgumentTree.tokens ++ r) =
      (as.map (·.read place)).map Argument.landmark ++ landmarksIn place r := by
  induction as with
  | nil => rfl
  | cons a as ih =>
    rw [List.flatMap_cons, List.append_assoc, landmarksIn_argument, ih]
    rfl

theorem landmarksIn_head (h : HeadTree) : landmarksIn place (h.tokens ++ r) =
    h.name.named.landmark place ::
      ((h.arguments.map (·.read place)).map Argument.landmark ++ landmarksIn place r) := by
  obtain ⟨name, parentheses⟩ := h
  cases parentheses with
  | none => rfl
  | some p =>
    refine congrArg (List.cons _) ?_
    show landmarksIn place (p.tokens.tail ++ r) = _
    rw [ArgumentsTree.tokens, List.tail_cons, List.append_assoc, landmarksIn_arguments]
    rfl

mutual

theorem landmarksIn_call (d : CallTree) (r : List Token) :
    landmarksIn place (d.tokens ++ r) = (d.read place).landmarks ++ landmarksIn place r := by
  cases d with
  | plain head =>
    rw [CallTree.tokens, CallTree.read, landmarksIn_head, HeadTree.read, Call.landmarks,
      Call.landmarksOf, List.append_nil]
    rfl
  | block head opening calls closing =>
    have hcalls := landmarksIn_calls calls (closing.marked .closeBrace :: r)
    rw [CallTree.tokens, CallTree.read, List.append_assoc, landmarksIn_head, HeadTree.read,
      Call.landmarks, List.cons_append, List.cons_append, List.append_assoc, List.append_assoc]
    exact congrArg (List.cons _) (congrArg _ hcalls)

theorem landmarksIn_calls (ds : CallsTree) (r : List Token) :
    landmarksIn place (ds.tokens ++ r) =
      Call.landmarksOf (ds.read place) ++ landmarksIn place r := by
  cases ds with
  | one d =>
    rw [CallsTree.tokens, CallsTree.read, landmarksIn_call, Call.landmarksOf, Call.landmarksOf,
      List.append_nil]
  | more d ds =>
    rw [CallsTree.tokens, CallsTree.read, List.append_assoc, landmarksIn_call, landmarksIn_calls,
      Call.landmarksOf, List.append_assoc]

end

end

namespace Scan

section
variable {text : List Char} {t : Token}

theorem line_within {cs : List Char} {c : Char} {offset : Nat} (h : text.drop offset = c :: cs)
    (n : Nat) (hc : c ≠ '\n') (hn : '\n' ∉ cs.take n) :
    (Location.ofOffset text (offset + 1 + n)).line = (Location.ofOffset text offset).line := by
  rw [Nat.add_assoc, Nat.add_comm 1 n]
  refine Location.line_add ?_
  rw [h, List.take_succ_cons]
  exact List.not_mem_cons_of_ne_of_not_mem (Ne.symm hc) hn

/-- The line that is counted for a token is that of its place. -/
theorem line_scanFrom (offset line : Nat) (cs : List Char) (h : text.drop offset = cs)
    (hline : line = (Location.ofOffset text offset).line) :
    ∀ t ∈ (scanFrom offset line cs).tokens,
      t.line = (Location.ofOffset text t.offset).line := by
  induction offset, line, cs using scanFrom.induct with
  | case1 =>
    rw [scanFrom]
    exact fun _ ht => absurd ht List.not_mem_nil
  | case2 offset line cs ih =>
    rw [scanFrom, if_pos rfl]
    refine ih (drop_add h 0) ?_
    rw [Location.line_newline h, hline]
  | case3 offset line c cs hn hb ih =>
    rw [scanFrom, if_neg hn, if_pos hb]
    exact ih (drop_add h 0) (hline.trans (line_within h 0 hn List.not_mem_nil).symm)
  | case4 offset line cs comment hn hb ih =>
    rw [scanFrom, if_neg hn, if_neg hb, if_pos rfl]
    have hcomment : '\n' ∉ cs.take comment.length := by
      rw [take_length_takeWhile]
      exact fun hmem => absurd (List.all_eq_true.mp List.all_takeWhile _ hmem) (by decide)
    exact ih (drop_add h _) (hline.trans (line_within h _ (by decide) hcomment).symm)
  | case5 offset line c cs hn hb hc d hl =>
    rw [scanFrom, if_neg hn, if_neg hb, if_neg hc, hl]
    exact fun _ ht => absurd ht List.not_mem_nil
  | case6 offset line c cs hn hb hc l more hl ih =>
    rw [scanFrom, if_neg hn, if_neg hb, if_neg hc, hl]
    have hpiece := (spells_of_lexeme hl).1.newline_not_mem
    have hmore := line_within h more hn (List.not_mem_of_not_mem_cons hpiece)
    exact List.forall_mem_cons.mpr ⟨hline, ih (drop_add h _) (hline.trans hmore.symm)⟩

end

end Scan

theorem line_of_mem {text : List Char} {t : Token} (ht : t ∈ (scan text).tokens) :
    t.line = (Location.ofOffset text t.offset).line :=
  Scan.line_scanFrom 0 1 text rfl rfl t ht

/-- Whether a token is a lexeme that stands at a place of a text. -/
structure Stands (text : List Char) (x : Location × Lexeme) (t : Token) : Prop where
  lexeme : t.lexeme = x.2
  place : Location.ofOffset text t.offset = x.1
  /-- The place stands for the offset of the token. -/
  offset : Location.toOffset text x.1 = t.offset
  /-- The lexeme is written at the place. -/
  written : Scan.Spells (t.spelling text) x.2 ∧ Location.Shows text (t.spelling text) x.1
  /-- A name is there as it is. -/
  named : ∀ n, x.2 = .atom (.name n) → Location.Shows text n.toList x.1

section
variable {text : List Char} {t : Token}

theorem toOffset_of_mem (ht : t ∈ (scan text).tokens) :
    Location.toOffset text (.ofOffset text t.offset) = t.offset := by
  obtain ⟨c, rest, hdrop, _⟩ := ((placed_scan text).tokens t ht).2
  refine Location.toOffset_ofOffset (Nat.le_of_not_lt fun hlt => ?_)
  rw [List.drop_eq_nil_of_le hlt.le] at hdrop
  cases hdrop

theorem stands_landmark (ht : t ∈ (scan text).tokens) :
    Stands text (t.landmark (.ofOffset text)) t := by
  obtain ⟨hspells, hprefix⟩ := Scan.spells_of_mem ht
  have hshows := Location.shows_ofOffset hprefix hspells.newline_not_mem
  refine ⟨rfl, rfl, toOffset_of_mem ht, ⟨hspells, hshows⟩, fun n hn => ?_⟩
  have hname : t.lexeme = .atom (.name n) := hn
  rw [hname] at hspells
  rw [← hspells.name]
  exact hshows

end

namespace Query

/-- The places in what is read are those of the tokens that calls and arguments begin with, one
after the other. Every place stands for an offset, and the line of a token is that of its place. -/
theorem places_point (text : String) :
    (∀ q, parse text = .ok q → ∃ ts, tokenize text = .ok ts ∧
      List.Forall₂ (Stands text.toList) (Call.landmarksOf q) (anchors false ts) ∧
      (Call.landmarksOf q).Pairwise fun x y =>
        Location.toOffset text.toList x.1 < Location.toOffset text.toList y.1) ∧
    (∀ offset ≤ text.toList.length,
      Location.toOffset text.toList (.ofOffset text.toList offset) = offset) ∧
    ∀ ts, tokenize text = .ok ts → ∀ t ∈ ts,
      t.line = (Location.ofOffset text.toList t.offset).line := by
  refine ⟨fun q hq => ?_, fun offset => Location.toOffset_ofOffset, fun ts hts t ht => ?_⟩
  · obtain ⟨ds, hds, _, rfl⟩ := parse_eq_ok_iff.mp hq
    obtain ⟨_, htokens⟩ := tokenize_eq_ok.mp hds
    have hsublist := anchors_sublist false ds.tokens
    have hmem : ∀ t ∈ anchors false ds.tokens, t ∈ (scan text.toList).tokens := by
      rw [htokens]
      exact hsublist.subset
    have hlandmarks := landmarksIn_calls (.ofOffset text.toList) ds []
    rw [List.append_nil, landmarksIn, landmarksIn, anchors, List.map_nil, List.append_nil]
      at hlandmarks
    refine ⟨ds.tokens, hds, ?_, ?_⟩
    · rw [← hlandmarks, List.forall₂_map_left_iff]
      exact List.forall₂_same.mpr fun t ht => stands_landmark (hmem t ht)
    · have hascending := (placed_scan text.toList).ascending
      rw [htokens] at hascending
      rw [← hlandmarks, List.pairwise_map]
      refine (hascending.sublist hsublist).imp_of_mem fun ht hu hlt => ?_
      simp only [Token.landmark, toOffset_of_mem (hmem _ ht), toOffset_of_mem (hmem _ hu)]
      exact hlt
  · obtain ⟨_, rfl⟩ := tokenize_eq_ok.mp hts
    exact line_of_mem ht

/-- A call with an argument behind a comment. -/
def scattered : String := "find(c # a\n  a: b) \x7b d \x7d"

theorem scattered_points : ∃ q ts, parse scattered = .ok q ∧ tokenize scattered = .ok ts ∧
    Call.landmarksOf q = [(⟨1, 1⟩, .atom (.name "find")), (⟨1, 6⟩, .atom (.name "c")),
      (⟨2, 3⟩, .atom (.name "a")), (⟨2, 11⟩, .atom (.name "d"))] ∧
    List.Forall₂ (Stands scattered.toList) (Call.landmarksOf q) (anchors false ts) := by
  have hread : (parse scattered).toOption.any (fun q => decide (Call.landmarksOf q =
      [(⟨1, 1⟩, .atom (.name "find")), (⟨1, 6⟩, .atom (.name "c")),
        (⟨2, 3⟩, .atom (.name "a")), (⟨2, 11⟩, .atom (.name "d"))])) = true := by
    decide +kernel
  obtain ⟨q, hq, hlandmarks⟩ := exists_of_any hread
  obtain ⟨ts, hts, hstands, _⟩ := (places_point scattered).1 q hq
  exact ⟨q, ts, hq, hts, of_decide_eq_true hlandmarks, hstands⟩

end Query

end ObjectQuery

import Mathlib.Combinatorics.Enumerative.DyckWord
import ObjectQuery.Proofs.Query.Viability

/-!
# Braces of derivations

The braces of a derivation are a Dyck word. So no beginning of a derivation closes more blocks than
it opens, and none that leaves a block open is a derivation itself. Unlike what the reader does with
a brace, this does not depend on the order of arguments.
-/

set_option autoImplicit false

namespace ObjectQuery

open DyckStep

def Token.brace? (t : Token) : Option DyckStep :=
  match t.lexeme with
  | .openBrace => some U
  | .closeBrace => some D
  | _ => none

def braces (ts : List Token) : List DyckStep := ts.filterMap Token.brace?

section
variable {ts us : List Token} {t : Token}

theorem braces_append : braces (ts ++ us) = braces ts ++ braces us := List.filterMap_append

theorem braces_cons_open (m : Mark) : braces (m.marked .openBrace :: ts) = U :: braces ts := rfl

theorem braces_cons_none (h : t.brace? = none) : braces (t :: ts) = braces ts :=
  List.filterMap_cons_none h

theorem ArgumentTree.braces_tokens (a : ArgumentTree) : braces a.tokens = [] := by
  cases a <;> rfl

theorem braces_arguments (as : List ArgumentTree) :
    braces (as.flatMap ArgumentTree.tokens) = [] := by
  induction as with
  | nil => rfl
  | cons a as ih => rw [List.flatMap_cons, braces_append, a.braces_tokens, ih, List.append_nil]

theorem HeadTree.braces_tokens (d : HeadTree) : braces d.tokens = [] := by
  obtain ⟨name, parentheses⟩ := d
  cases parentheses with
  | none => rfl
  | some p =>
    have hopening : braces p.tokens =
        braces (p.arguments.flatMap ArgumentTree.tokens ++ [p.closing.marked .closeParen]) :=
      braces_cons_none rfl
    have hclosing : braces [p.closing.marked .closeParen] = [] := rfl
    have hhead : braces (HeadTree.tokens ⟨name, some p⟩) = braces p.tokens := braces_cons_none rfl
    rw [hhead, hopening, braces_append, braces_arguments, hclosing, List.append_nil]

end

mutual

def CallTree.braceWord : CallTree → DyckWord
  | .plain _ => 0
  | .block _ _ calls _ => calls.braceWord.nest

def CallsTree.braceWord : CallsTree → DyckWord
  | .one call => call.braceWord
  | .more first rest => first.braceWord + rest.braceWord

end

mutual

theorem CallTree.braces_tokens : ∀ d : CallTree, braces d.tokens = d.braceWord.toList
  | .plain head => by
    rw [CallTree.tokens, head.braces_tokens, CallTree.braceWord]
    rfl
  | .block head opening calls closing => by
    rw [CallTree.tokens, braces_append, head.braces_tokens, braces_cons_open, braces_append,
      CallsTree.braces_tokens calls, CallTree.braceWord]
    rfl

theorem CallsTree.braces_tokens : ∀ ds : CallsTree, braces ds.tokens = ds.braceWord.toList
  | .one d => by rw [CallsTree.tokens, CallTree.braces_tokens d, CallsTree.braceWord]
  | .more d ds => by
    rw [CallsTree.tokens, braces_append, CallTree.braces_tokens d, CallsTree.braces_tokens ds,
      CallsTree.braceWord]
    rfl

end

section
variable {ts : List Token}

theorem IsSentence.count_braces (h : IsSentence ts) :
    (braces ts).count U = (braces ts).count D := by
  obtain ⟨ds, rfl⟩ := h
  rw [ds.braces_tokens]
  exact ds.braceWord.count_U_eq_count_D

theorem Viable.count_braces_le (h : Viable ts) : (braces ts).count D ≤ (braces ts).count U := by
  obtain ⟨ds, hprefix⟩ := h
  have hbraces : braces ts <+: ds.braceWord.toList := by
    rw [← ds.braces_tokens]
    exact hprefix.filterMap _
  rw [List.prefix_iff_eq_take.mp hbraces]
  exact ds.braceWord.count_D_le_count_U _

end

theorem CallsTree.count_braces_tokensIn (before : Option CallsTree) :
    (braces (tokensIn before)).count U = (braces (tokensIn before)).count D := by
  cases before with
  | none => rfl
  | some ds => exact IsSentence.count_braces ⟨ds, rfl⟩

theorem OpenBlock.count_braces (b : OpenBlock) :
    (braces b.tokens).count U = (braces b.tokens).count D + 1 := by
  have hopening : braces [b.opening.marked .openBrace] = [U] := rfl
  rw [OpenBlock.tokens, braces_append, braces_append, b.head.braces_tokens, hopening,
    List.append_nil, List.count_append, List.count_append, CallsTree.count_braces_tokensIn]
  rfl

theorem count_braces_blocks (blocks : List OpenBlock) :
    (braces (blocks.flatMap OpenBlock.tokens)).count U =
      (braces (blocks.flatMap OpenBlock.tokens)).count D + blocks.length := by
  induction blocks with
  | nil => rfl
  | cons b blocks ih =>
    rw [List.flatMap_cons, braces_append, List.count_append, List.count_append, b.count_braces, ih,
      List.length_cons]
    omega

/-- Behind complete calls, as many braces are open as there are open blocks. -/
theorem OpenTree.count_braces (blocks : List OpenBlock) (ds : CallsTree) :
    (braces (OpenTree.tokens ⟨blocks, .after ds⟩)).count U =
      (braces (OpenTree.tokens ⟨blocks, .after ds⟩)).count D + blocks.length := by
  have htokens : OpenTree.tokens ⟨blocks, .after ds⟩ =
      blocks.reverse.flatMap OpenBlock.tokens ++ ds.tokens := rfl
  have hblocks := count_braces_blocks blocks.reverse
  have hcalls : (braces ds.tokens).count U = (braces ds.tokens).count D :=
    IsSentence.count_braces ⟨ds, rfl⟩
  rw [List.length_reverse] at hblocks
  rw [htokens, braces_append, List.count_append, List.count_append]
  omega

end ObjectQuery

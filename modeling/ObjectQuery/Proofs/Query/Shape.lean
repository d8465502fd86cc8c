import ObjectQuery.Proofs.Query.Scanning
import ObjectQuery.Query.Parsing

/-!
# Queries without places

Equality up to places is equality of what is left without them. A formed query is one that a text
can have been read as: its words mean what they say and its arguments are in order. What the text of
a query reads as differs from it only in the numbers without digits.
-/

set_option autoImplicit false

namespace ObjectQuery

/-- An argument put at the start of the text. -/
def Argument.unplaced (a : Argument) : Argument := { a with location := .start }

theorem Argument.unplaced_eq_iff (a b : Argument) :
    a.unplaced = b.unplaced ↔ a.value = b.value ∧ a.name = b.name := by
  simp only [unplaced, Argument.mk.injEq, and_true]

namespace Call

theorem sameArguments_iff (as bs : List Argument) :
    same.sameArguments as bs = true ↔ as.map Argument.unplaced = bs.map Argument.unplaced := by
  induction as generalizing bs with
  | nil =>
    cases bs with
    | nil => simp [same.sameArguments]
    | cons b bs => simp [same.sameArguments]
  | cons a as ih =>
    cases bs with
    | nil => simp [same.sameArguments]
    | cons b bs =>
      simp only [same.sameArguments, Argument.same, Bool.and_eq_true, decide_eq_true_eq, ih,
        List.map_cons, List.cons.injEq, Argument.unplaced_eq_iff]

mutual

/-- A call put at the start of the text with all that belongs to it. -/
def unplaced : Call → Call
  | mk n as ss _ => mk n (as.map Argument.unplaced) (unplacedAll ss) .start

def unplacedAll : List Call → List Call
  | [] => []
  | c :: cs => unplaced c :: unplacedAll cs

end

theorem unplacedAll_eq (cs : List Call) : unplacedAll cs = cs.map unplaced := by
  induction cs with
  | nil => rfl
  | cons c cs ih => rw [unplacedAll, ih, List.map_cons]

mutual

theorem same_iff : ∀ c d : Call, same c d = true ↔ c.unplaced = d.unplaced
  | mk n as ss l, mk m bs ts k => by
    simp only [same, unplaced, Bool.and_eq_true, beq_iff_eq, sameArguments_iff, sameAll_iff ss ts,
      Call.mk.injEq, and_true, and_assoc]

theorem sameAll_iff : ∀ cs ds : List Call, sameAll cs ds = true ↔ unplacedAll cs = unplacedAll ds
  | [], [] => by simp [sameAll, unplacedAll]
  | [], d :: ds => by simp [sameAll, unplacedAll]
  | c :: cs, [] => by simp [sameAll, unplacedAll]
  | c :: cs, d :: ds => by
    simp only [sameAll, unplacedAll, Bool.and_eq_true, List.cons.injEq, same_iff c d,
      sameAll_iff cs ds]

end

end Call

def Argument.Formed (a : Argument) : Prop :=
  a.value.Formed ∧ ∀ n ∈ a.name, Word.isName n.toList = true

namespace Call

mutual

/-- Whether a text can have been read as the call. -/
def Formed : Call → Prop
  | mk n as ss _ =>
    Word.isName n.toList = true ∧ (∀ a ∈ as, a.Formed) ∧ Parsing.disorder n as = none ∧ FormedAll ss

def FormedAll : List Call → Prop
  | [] => True
  | c :: cs => Formed c ∧ FormedAll cs

end

theorem formedAll_iff (cs : List Call) : FormedAll cs ↔ ∀ c ∈ cs, Formed c := by
  induction cs with
  | nil => simp [FormedAll]
  | cons c cs ih => simp only [FormedAll, ih, List.forall_mem_cons]

end Call

def Argument.reread (a : Argument) : Argument := { a with value := a.value.reread }

namespace Call

mutual

/-- What the text of a call reads as, up to places. -/
def reread : Call → Call
  | mk n as ss l => mk n (as.map Argument.reread) (rereadAll ss) l

def rereadAll : List Call → List Call
  | [] => []
  | c :: cs => reread c :: rereadAll cs

end

end Call

theorem Argument.formed_reread {a : Argument} (h : a.Formed) : a.reread.Formed :=
  ⟨Atom.formed_reread h.1, h.2⟩

namespace Parsing

theorem misplaced_none_congr {call : String} {names : List String} {as bs : List Argument}
    (h : as.map Argument.name = bs.map Argument.name) (ha : misplaced call names as = none) :
    misplaced call names bs = none := by
  induction as generalizing bs names with
  | nil =>
    obtain rfl := List.map_eq_nil_iff.mp h.symm
    rfl
  | cons a as ih =>
    cases bs with
    | nil => cases h
    | cons b bs =>
      obtain ⟨hab, htail⟩ := List.cons.inj h
      simp only [misplaced] at ha ⊢
      rw [← hab]
      cases hn : a.name with
      | none =>
        rw [hn] at ha
        cases ha
      | some n =>
        simp only [hn] at ha ⊢
        split at ha
        · cases ha
        · rename_i hc
          rw [if_neg hc]
          exact ih htail ha

/-- Whether arguments are in order depends on their names only. -/
theorem disorder_none_congr {call : String} {as bs : List Argument}
    (h : as.map Argument.name = bs.map Argument.name) (ha : disorder call as = none) :
    disorder call bs = none := by
  have hdrop (cs : List Argument) : (cs.dropWhile Argument.isPositional).map Argument.name
      = (cs.map Argument.name).dropWhile Option.isNone :=
    (List.dropWhile_map ..).symm
  exact misplaced_none_congr (by rw [hdrop, hdrop, h]) ha

end Parsing

namespace Call

mutual

theorem formed_reread : ∀ c : Call, c.Formed → c.reread.Formed
  | mk n as ss l, ⟨hn, has, hd, hss⟩ => by
    refine ⟨hn, ?_, ?_, formedAll_rereadAll ss hss⟩
    · intro a ha
      obtain ⟨b, hb, rfl⟩ := List.mem_map.mp ha
      exact Argument.formed_reread (has b hb)
    · refine Parsing.disorder_none_congr ?_ hd
      rw [List.map_map]
      rfl

theorem formedAll_rereadAll : ∀ cs : List Call, FormedAll cs → FormedAll (rereadAll cs)
  | [], _ => trivial
  | c :: cs, ⟨h, hs⟩ => ⟨formed_reread c h, formedAll_rereadAll cs hs⟩

end

end Call

/-- Whether an atom is not a number without digits. -/
def Atom.isFinite : Atom → Bool
  | .number (.fraction x) => x.isFinite
  | _ => true

theorem Atom.reread_eq_iff (a : Atom) : a.reread = a ↔ a.isFinite = true := by
  cases a with
  | number n =>
    cases n with
    | whole n => simp [reread, isFinite]
    | fraction x =>
      simp only [reread, isFinite]
      cases x.isFinite with
      | true => simp
      | false => simp
  | _ => simp [reread, isFinite]

namespace Call

mutual

/-- Whether all numbers in a call have digits. -/
def finite : Call → Bool
  | mk _ as ss _ => as.all (·.value.isFinite) && finiteAll ss

def finiteAll : List Call → Bool
  | [] => true
  | c :: cs => finite c && finiteAll cs

end

theorem unplaced_reread_arguments_iff (as : List Argument) :
    (as.map Argument.reread).map Argument.unplaced = as.map Argument.unplaced
      ↔ as.all (·.value.isFinite) = true := by
  induction as with
  | nil => simp
  | cons a as ih =>
    simp only [List.map_cons, List.cons.injEq, ih, List.all_cons, Bool.and_eq_true,
      Argument.unplaced_eq_iff, Argument.reread, and_true, Atom.reread_eq_iff]

mutual

theorem unplaced_reread_iff : ∀ c : Call, c.reread.unplaced = c.unplaced ↔ c.finite = true
  | mk n as ss l => by
    simp only [reread, unplaced, finite, Bool.and_eq_true, Call.mk.injEq, true_and, and_true,
      unplaced_reread_arguments_iff, unplaced_rereadAll_iff ss]

theorem unplaced_rereadAll_iff : ∀ cs : List Call,
    unplacedAll (rereadAll cs) = unplacedAll cs ↔ finiteAll cs = true
  | [] => by simp [rereadAll, unplacedAll, finiteAll]
  | c :: cs => by
    simp only [rereadAll, unplacedAll, finiteAll, Bool.and_eq_true, List.cons.injEq,
      unplaced_reread_iff c, unplaced_rereadAll_iff cs]

end

end Call

end ObjectQuery

/-!
# Plurals

The English plural of a capitalised name: `y` behind a consonant becomes `ies`, a sibilant ending
takes `es`, everything else `s`. An ending counts as well in front of one newline that ends the
name; only for `ies` is the last character, whichever it is, dropped.
-/

set_option autoImplicit false

namespace ObjectQuery

namespace Plural

def isVowel (c : Char) : Bool := "aeiouAEIOU".toList.contains c

/-- Whether reversed letters end in `y` behind a character that is no vowel. -/
def consonantY : List Char → Bool
  | 'y' :: c :: _ => !isVowel c
  | _ => false

/-- Whether reversed letters end in a sibilant. -/
def sibilant : List Char → Bool
  | 's' :: _ => true
  | 'x' :: _ => true
  | 'z' :: _ => true
  | 'h' :: 'c' :: _ => true
  | 'h' :: 's' :: _ => true
  | _ => false

/-- Whether reversed letters have an ending, at the end or in front of a newline there. -/
def atEnd (ending : List Char → Bool) (letters : List Char) : Bool :=
  ending letters ||
    match letters with
    | '\n' :: rest => ending rest
    | _ => false

def ofChars (cs : List Char) : List Char :=
  if atEnd consonantY cs.reverse then cs.dropLast ++ ['i', 'e', 's']
  else if atEnd sibilant cs.reverse then cs ++ ['e', 's']
  else cs ++ ['s']

end Plural

def pluralize (name : String) : String := String.ofList (Plural.ofChars name.toList)

end ObjectQuery

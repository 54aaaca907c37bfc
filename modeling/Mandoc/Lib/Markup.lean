import Mathlib.Data.List.Basic

/-!
# Reading Markup

A fragment of a markup language consists of characters, of entities like `&amp;`, and of tags
that open and close elements.

- `scan` divides the text of a fragment into tokens.
- `read` yields the characters that the fragment shows, each with the elements around it, if the
  elements are properly nested, and if all of them are closed at the end.

The rules say what the pieces contribute that a program prints one after the other.
-/

namespace Markup

/-! ## §1 Tokens -/

/-- A token of a fragment. -/
inductive Token where
  | char (c : Char)
  | start (name : List Char)
  | stop (name : List Char)
  /-- An unknown entity, or a tag or an entity that does not end. -/
  | broken
deriving DecidableEq, Repr

/-- What a scanner is reading. -/
inductive Within where
  | text
  | tag (name : List Char)
  | entity (name : List Char)

/-- The token for what is between the angle brackets. -/
def tagToken : List Char → Token
  | '/' :: name => .stop name
  | name => .start name

/-- The token for what is between the ampersand and the semicolon. -/
def entityToken (name : List Char) : Token :=
  if name = "quot".toList then .char '"'
  else if name = "amp".toList then .char '&'
  else if name = "gt".toList then .char '>'
  else if name = "lt".toList then .char '<'
  else .broken

/-- The tokens of a text. -/
def scan : Within → List Char → List Token
  | .text, [] => []
  | _, [] => [.broken]
  | .text, c :: s =>
    if c = '<' then scan (.tag []) s
    else if c = '&' then scan (.entity []) s
    else .char c :: scan .text s
  | .tag name, c :: s =>
    if c = '>' then tagToken name :: scan .text s else scan (.tag (name ++ [c])) s
  | .entity name, c :: s =>
    if c = ';' then entityToken name :: scan .text s else scan (.entity (name ++ [c])) s

/-! ## §2 What a fragment shows -/

/-- A character together with the names of the elements around it, the innermost one first. -/
abbrev Shown := Char × List (List Char)

/-- What the tokens show inside of some elements. -/
def read : List (List Char) → List Token → Option (List Shown)
  | [], [] => some []
  | _ :: _, [] => none
  | stack, .char c :: ts => (read stack ts).map ((c, stack) :: ·)
  | stack, .start name :: ts => read (name :: stack) ts
  | name :: stack, .stop name' :: ts => if name = name' then read stack ts else none
  | [], .stop _ :: _ => none
  | _, .broken :: _ => none

/-- What a text shows inside of some elements. -/
def shows (stack : List (List Char)) (s : List Char) : Option (List Shown) :=
  read stack (scan .text s)

/-! ## §3 Rules -/

section

variable (stack : List (List Char)) (s : List Char)

@[simp] theorem shows_nil : shows [] [] = some [] := rfl

/-- An ordinary character. -/
theorem shows_char {c : Char} (hlt : c ≠ '<') (hamp : c ≠ '&') :
    shows stack (c :: s) = (shows stack s).map ((c, stack) :: ·) := by
  rw [shows, scan, if_neg hlt, if_neg hamp, read]
  rfl

/-- A character written as an entity. -/
theorem shows_entity {e : List Char} {c : Char}
    (h : scan .text (e ++ s) = .char c :: scan .text s) :
    shows stack (e ++ s) = (shows stack s).map ((c, stack) :: ·) := by
  rw [shows, h, read]
  rfl

/-- The beginning of an element. -/
theorem shows_open {e name : List Char} (h : scan .text (e ++ s) = .start name :: scan .text s) :
    shows stack (e ++ s) = shows (name :: stack) s := by
  rw [shows, h, read, shows]

/-- The end of the innermost element. -/
theorem shows_close {e name : List Char} (h : scan .text (e ++ s) = .stop name :: scan .text s) :
    shows (name :: stack) (e ++ s) = shows stack s := by
  rw [shows, h, read, if_pos rfl, shows]

end

end Markup

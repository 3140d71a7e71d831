/-
**Quoted strings of TOML.**

The four kinds of strings: between double quotes with escapes, between single quotes without, and
either kind over several lines between triple quotes.

Main definitions:

* `Reckoner.Toml.basic?`, `Reckoner.Toml.literal?` — strings on one line;
* `Reckoner.Toml.basicLines?`, `Reckoner.Toml.literalLines?` — strings over several lines.

Each takes the text after the opening quotes and gives the string and the text after the closing
ones.
-/

import Reckoner.Toml.Scalar

set_option autoImplicit false

namespace Reckoner.Toml

/-- The characters that may stand in strings and comments: no controls but the tab. -/
def isTextChar (c : Char) : Bool := c == '\t' || (0x20 ≤ c.toNat && c.toNat != 0x7f)

/-- A blank on a line. -/
def isBlank (c : Char) : Bool := c == ' ' || c == '\t'

/-- Whether a text begins with a line break. -/
def startsWithBreak : List Char → Bool
  | '\n' :: _ | '\r' :: '\n' :: _ => true
  | _ => false

/-- A text without a line break in front. -/
def dropBreak : List Char → List Char
  | '\n' :: cs | '\r' :: '\n' :: cs => cs
  | cs => cs

/-- A character in front of a string. -/
def prepend (c : Char) (p : Option (List Char × List Char)) : Option (List Char × List Char) :=
  p.map fun q => (c :: q.1, q.2)

/-! ### Escapes -/

/-- The character of an escape of one letter. -/
def escape? : Char → Option Char
  | 'b' => some '\x08'
  | 't' => some '\t'
  | 'n' => some '\n'
  | 'f' => some '\x0c'
  | 'r' => some '\r'
  | '"' => some '"'
  | '\\' => some '\\'
  | _ => none

/-- The character with a code point in hexadecimal digits. -/
def codePoint? (cs : List Char) : Option Char :=
  let n := natural 16 cs
  if cs.all isHexDigit && n.isValidChar then some (Char.ofNat n) else none

/-! ### Strings -/

/-- A string after a double quote. -/
def basic? : List Char → Option (List Char × List Char)
  | [] => none
  | '"' :: cs => some ([], cs)
  | '\\' :: 'u' :: a :: b :: c :: d :: cs =>
      match codePoint? [a, b, c, d] with
      | some e => prepend e (basic? cs)
      | none => none
  | '\\' :: 'U' :: a :: b :: c :: d :: e :: f :: g :: h :: cs =>
      match codePoint? [a, b, c, d, e, f, g, h] with
      | some e => prepend e (basic? cs)
      | none => none
  | '\\' :: c :: cs =>
      match escape? c with
      | some e => prepend e (basic? cs)
      | none => none
  | c :: cs => if isTextChar c && c != '\\' then prepend c (basic? cs) else none

/-- A string after a single quote. -/
def literal? : List Char → Option (List Char × List Char)
  | [] => none
  | c :: cs =>
      if c = '\'' then some ([], cs)
      else if isTextChar c then prepend c (literal? cs)
      else none

/-- A string after three double quotes, once a line break after them is dropped.  After a
backslash at the end of a line, blanks and line breaks are dropped as long as `trimming` lasts. -/
def basicLines? (trimming : Bool) : List Char → Option (List Char × List Char)
  | [] => none
  | '"' :: '"' :: '"' :: '"' :: '"' :: cs => some (['"', '"'], cs)
  | '"' :: '"' :: '"' :: '"' :: cs => some (['"'], cs)
  | '"' :: '"' :: '"' :: cs => some ([], cs)
  | '\r' :: '\n' :: cs =>
      if trimming then basicLines? true cs else prepend '\n' (basicLines? false cs)
  | '\\' :: 'u' :: a :: b :: c :: d :: cs =>
      match codePoint? [a, b, c, d] with
      | some e => prepend e (basicLines? false cs)
      | none => none
  | '\\' :: 'U' :: a :: b :: c :: d :: e :: f :: g :: h :: cs =>
      match codePoint? [a, b, c, d, e, f, g, h] with
      | some e => prepend e (basicLines? false cs)
      | none => none
  | '\\' :: c :: cs =>
      if startsWithBreak ((c :: cs).dropWhile isBlank) then basicLines? true (c :: cs)
      else match escape? c with
        | some e => prepend e (basicLines? false cs)
        | none => none
  | c :: cs =>
      if trimming && (isBlank c || c == '\n') then basicLines? true cs
      else if (isTextChar c && c != '\\') || c == '\n' then prepend c (basicLines? false cs)
      else none

/-- A string after three single quotes, once a line break after them is dropped. -/
def literalLines? : List Char → Option (List Char × List Char)
  | [] => none
  | '\'' :: '\'' :: '\'' :: '\'' :: '\'' :: cs => some (['\'', '\''], cs)
  | '\'' :: '\'' :: '\'' :: '\'' :: cs => some (['\''], cs)
  | '\'' :: '\'' :: '\'' :: cs => some ([], cs)
  | '\r' :: '\n' :: cs => prepend '\n' (literalLines? cs)
  | c :: cs => if isTextChar c || c == '\n' then prepend c (literalLines? cs) else none

/-- A string after a double quote that opens it, on one line or over several. -/
def doubleQuoted? : List Char → Option (List Char × List Char)
  | '"' :: '"' :: cs => basicLines? false (dropBreak cs)
  | cs => basic? cs

/-- A string after a single quote that opens it, on one line or over several. -/
def singleQuoted? : List Char → Option (List Char × List Char)
  | '\'' :: '\'' :: cs => literalLines? (dropBreak cs)
  | cs => literal? cs

end Reckoner.Toml

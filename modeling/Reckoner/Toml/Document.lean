/-
**Documents in TOML.**

A document is a sequence of lines: headers, and keys with their values.  Comments and line breaks
may stand between them, and inside the brackets of arrays.  Brackets and braces stand in each
other only up to a depth, and dotted keys have no more parts than that.

The functions on values are bounded by a number of steps, for which the length of the text is
enough, since every step takes a character.

Main definitions:

* `Reckoner.Toml.skipTrivia` — blanks, line breaks and comments;
* `Reckoner.Toml.keys?` — dotted keys;
* `Reckoner.Toml.value?` — values;
* `Reckoner.Toml.parse?` — the table of a document.
-/

import Reckoner.Toml.Quoted
import Reckoner.Toml.Table

set_option autoImplicit false

namespace Reckoner.Toml

/-! ### Between the lines -/

/-- What follows blanks, line breaks and comments, when the text begins in a comment or not.  A
comment has no control characters. -/
def skipTrivia : Bool → List Char → Option (List Char)
  | _, [] => some []
  | true, '\n' :: cs => skipTrivia false cs
  | true, '\r' :: '\n' :: cs => skipTrivia false cs
  | true, c :: cs => if isTextChar c then skipTrivia true cs else none
  | false, '\r' :: '\n' :: cs => skipTrivia false cs
  | false, c :: cs =>
      if isBlank c || c == '\n' then skipTrivia false cs
      else if c == '#' then skipTrivia true cs
      else some (c :: cs)

/-- What follows the blanks at the front of a line. -/
def skipBlanks (cs : List Char) : List Char := cs.dropWhile isBlank

/-- What follows a line, if nothing but blanks and a comment is left on it. -/
def lineEnd? (cs : List Char) : Option (List Char) :=
  let rest := skipBlanks cs
  if rest.isEmpty || startsWithBreak rest || rest.head? == some '#' then some rest else none

/-! ### Keys -/

/-- A character of a key without quotes. -/
def isKeyChar (c : Char) : Bool := c.isAlphanum || c == '_' || c == '-'

/-- A key. -/
def key? (cs : List Char) : Option (String × List Char) :=
  match cs with
  | '"' :: rest => (basic? rest).map fun p => (String.ofList p.1, p.2)
  | '\'' :: rest => (literal? rest).map fun p => (String.ofList p.1, p.2)
  | cs =>
      let name := cs.takeWhile isKeyChar
      if name.isEmpty then none else some (String.ofList name, cs.dropWhile isKeyChar)

/-- How deep values stand in each other at most. -/
def maxDepth : Nat := 80

/-- Keys with points between them, no more than a number of them. -/
def keysWithin? : Nat → List Char → Option (List String × List Char)
  | 0, _ => none
  | most + 1, cs => do
      let (key, rest) ← key? cs
      match skipBlanks rest with
      | '.' :: rest =>
          let (keys, rest) ← keysWithin? most (skipBlanks rest)
          return (key :: keys, rest)
      | rest => return ([key], rest)

/-- Keys with points between them. -/
def keys? (cs : List Char) : Option (List String × List Char) := keysWithin? maxDepth cs

/-! ### Values -/

/-- A character of a value that is one word. -/
def isWordChar (c : Char) : Bool := c.isAlphanum || ['_', '+', '-', '.', ':'].contains c

/-- A value that is one word, or a date and a time with a blank between them. -/
def word? (cs : List Char) : Option (Item × List Char) :=
  let word := cs.takeWhile isWordChar
  let rest := cs.dropWhile isWordChar
  match isDate word, rest with
  | true, ' ' :: c :: more =>
      if c.isDigit then
        let time := (c :: more).takeWhile isWordChar
        if isScalar (word ++ ' ' :: time) then some (.value, (c :: more).dropWhile isWordChar)
        else none
      else some (.value, rest)
  | _, rest => if isScalar word then some (.value, rest) else none

mutual

/-- A value that holds others up to a depth. -/
def valueWithin? : Nat → Nat → List Char → Option (Item × List Char)
  | 0, _, _ => none
  | steps + 1, depth, cs =>
      match cs, depth with
      | '"' :: rest, _ => (doubleQuoted? rest).map fun p => (.text (String.ofList p.1), p.2)
      | '\'' :: rest, _ => (singleQuoted? rest).map fun p => (.text (String.ofList p.1), p.2)
      | '[' :: _, 0 | '\x7b' :: _, 0 => none
      | '[' :: rest, depth + 1 => (array? steps depth rest).map (.value, ·)
      | '\x7b' :: rest, depth + 1 =>
          match skipBlanks rest with
          | '\x7d' :: rest => some (.value, rest)
          | rest => (inline? steps depth [] rest).map (.value, ·)
      | cs, _ => word? cs

/-- The elements of an array up to its closing bracket. -/
def array? : Nat → Nat → List Char → Option (List Char)
  | 0, _, _ => none
  | steps + 1, depth, cs => do
      match ← skipTrivia false cs with
      | ']' :: rest => return rest
      | cs =>
          let (_, rest) ← valueWithin? steps depth cs
          match ← skipTrivia false rest with
          | ',' :: rest => array? steps depth rest
          | ']' :: rest => return rest
          | _ => none

/-- The keys and values of an inline table up to its closing brace. -/
def inline? : Nat → Nat → Table → List Char → Option (List Char)
  | 0, _, _, _ => none
  | steps + 1, depth, t, cs => do
      let (keys, rest) ← keys? cs
      let rest ← match rest with
        | '=' :: rest => some (skipBlanks rest)
        | _ => none
      let (item, rest) ← valueWithin? steps depth rest
      let t ← t.assign keys item
      match skipBlanks rest with
      | ',' :: rest => inline? steps depth t (skipBlanks rest)
      | '\x7d' :: rest => return rest
      | _ => none

end

/-- A value. -/
def value? (steps : Nat) (cs : List Char) : Option (Item × List Char) :=
  valueWithin? steps maxDepth cs

/-! ### Lines -/

/-- A document that has been read in part: its table, and the keys of the last header. -/
structure Progress where
  /-- The table of the document. -/
  table : Table
  /-- The keys of the last header. -/
  path : List String

/-- The keys of a header up to its closing bracket. -/
def header? (cs : List Char) : Option (List String × List Char) := do
  match ← keys? (skipBlanks cs) with
  | (keys, ']' :: rest) => return (keys, rest)
  | _ => none

/-- One line at the front of a text. -/
def line? (steps : Nat) (r : Progress) (cs : List Char) : Option (Progress × List Char) := do
  match cs with
  | '[' :: '[' :: rest =>
      match ← header? rest with
      | (keys, ']' :: rest) => return (⟨← r.table.defineElement keys, keys⟩, ← lineEnd? rest)
      | _ => none
  | '[' :: rest =>
      let (keys, rest) ← header? rest
      return (⟨← r.table.define keys, keys⟩, ← lineEnd? rest)
  | cs =>
      match ← keys? cs with
      | (keys, '=' :: rest) =>
          let (item, rest) ← value? steps (skipBlanks rest)
          return (⟨← r.table.assignIn r.path keys item, r.path⟩, ← lineEnd? rest)
      | _ => none

/-- The lines of a document. -/
def lines? : Nat → Progress → List Char → Option Table
  | 0, _, _ => none
  | steps + 1, r, cs => do
      match ← skipTrivia false cs with
      | [] => return r.table
      | cs =>
          let (r, rest) ← line? (steps + 1) r cs
          lines? steps r rest

/-- The table of a document, if it is one.  A byte order mark in front does not count. -/
def parse? (text : String) : Option Table :=
  let cs := match text.toList with
    | '\ufeff' :: cs => cs
    | cs => cs
  lines? (cs.length + 2) ⟨[], []⟩ cs

end Reckoner.Toml

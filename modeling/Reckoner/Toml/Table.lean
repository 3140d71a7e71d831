/-
**Tables of TOML.**

A document is a tree of tables.  A table is defined by one header, or by the dotted keys of the
lines below another one, and no key is given twice.  A table that has only arisen on the way to
another one may still get its header.

Main definitions:

* `Reckoner.Toml.Item` — the values of keys;
* `Reckoner.Toml.Table` — keys and values;
* `Reckoner.Toml.Table.define`, `Reckoner.Toml.Table.defineElement` — the headers of a table and
  of an element of an array of tables;
* `Reckoner.Toml.Table.assign`, `Reckoner.Toml.Table.assignIn` — a key and its value.
-/

set_option autoImplicit false

namespace Reckoner.Toml

/-- How a table has come about. -/
inductive Origin
  /-- By its header. -/
  | header
  /-- On the way to a table below it. -/
  | above
  /-- By a dotted key. -/
  | dotted
deriving DecidableEq, Repr

/-- The value of a key. -/
inductive Item
  /-- A string. -/
  | text (s : String)
  /-- Any other value that is complete in itself. -/
  | value
  /-- A table. -/
  | table (origin : Origin) (entries : List (String × Item))
  /-- An array of tables, given by its last element. -/
  | elements (last : List (String × Item))

/-- Keys and their values. -/
abbrev Table := List (String × Item)

namespace Table

/-- Changes the value of a key, if the change is allowed. -/
def update (key : String) (change : Option Item → Option Item) : Table → Option Table
  | [] => (change none).map fun item => [(key, item)]
  | (k, item) :: rest =>
      if k = key then (change (some item)).map fun item => (k, item) :: rest
      else (update key change rest).map ((k, item) :: ·)

/-- Goes through an item to the table below it, which `change` changes. -/
def within (change : Table → Option Table) : Option Item → Option Item
  | none => (change []).map (.table .above)
  | some (.table origin entries) => (change entries).map (.table origin)
  | some (.elements last) => (change last).map .elements
  | some _ => none

/-- The header of a table. -/
def define : List String → Table → Option Table
  | [], _ => none
  | [key], t => t.update key fun
      | none => some (.table .header [])
      | some (.table .above entries) => some (.table .header entries)
      | some _ => none
  | key :: keys, t => t.update key (within (define keys))

/-- The header of a new element of an array of tables. -/
def defineElement : List String → Table → Option Table
  | [], _ => none
  | [key], t => t.update key fun
      | none | some (.elements _) => some (.elements [])
      | some _ => none
  | key :: keys, t => t.update key (within (defineElement keys))

/-- A dotted key and its value. -/
def assign : List String → Item → Table → Option Table
  | [], _, _ => none
  | [key], item, t => t.update key fun
      | none => some item
      | some _ => none
  | key :: keys, item, t => t.update key fun
      | none => (assign keys item []).map (.table .dotted)
      | some (.table .header _) => none
      | some (.table origin entries) => (assign keys item entries).map (.table origin)
      | some (.elements last) => (assign keys item last).map .elements
      | some _ => none

/-- A dotted key and its value in the table of a header. -/
def assignIn : List String → List String → Item → Table → Option Table
  | [], keys, item, t => t.assign keys item
  | key :: path, keys, item, t => t.update key (within (assignIn path keys item))

end Table

end Reckoner.Toml

import Std.Data.TreeMap.Raw

/-!
Values and tables of a TOML document, and how a table grows. A table remembers how
it came about, because that decides what may still be added to it: a table is
written in one place, and only the tables that were made on the way to another one
may get a header of their own later.
-/

namespace LabelGraph

namespace Toml

/-- How a table came about. -/
inductive Form where
  /-- By its own header. -/
  | header
  /-- On the way to the table of another header. -/
  | implied
  /-- By a dotted key. -/
  | dotted
  /-- Between braces. -/
  | inline
deriving DecidableEq, Repr

end Toml

/-- A value. Numbers with a fraction or an exponent, dates and times are only known to
be well formed, because no setting holds one. -/
inductive Toml where
  | string (s : String)
  | integer (n : Int)
  | boolean (b : Bool)
  | float
  | dateTime
  | array (items : List Toml)
  | table (form : Toml.Form) (members : Std.TreeMap.Raw String Toml compare)
  /-- The tables of one repeated header: the last one, and those before it. -/
  | tables (last : Std.TreeMap.Raw String Toml compare)
      (earlier : List (Std.TreeMap.Raw String Toml compare))
deriving Inhabited

namespace Toml

/-- The members of a table by their names. -/
abbrev Table := Std.TreeMap.Raw String Toml compare

def isEmptyCollection : Toml → Bool
  | array items => items.isEmpty
  | table _ members => members.isEmpty
  | _ => false

namespace Table

/-- Adds a value under a dotted key. Tables on the way are made if they are missing.
The table that gets the value must have been made by dotted keys too. -/
def assign (value : Toml) : (key : List String) → Table → Option Table
  | [], _ => none
  | [name], t =>
    match t[name]? with
    | none => some (t.insert name value)
    | some _ => none
  | name :: next :: key, t =>
    match t[name]? with
    | none =>
      (assign value (next :: key) ∅).map fun inner => t.insert name (.table .dotted inner)
    | some (.table .dotted inner) =>
      (assign value (next :: key) inner).map fun inner => t.insert name (.table .dotted inner)
    | some (.table .implied inner) =>
      if key.isEmpty then none
      else
        (assign value (next :: key) inner).map fun inner => t.insert name (.table .implied inner)
    | some (.tables last earlier) =>
      if key.isEmpty then none
      else (assign value (next :: key) last).map fun last => t.insert name (.tables last earlier)
    | some _ => none

/-- Changes the table at the end of a path. Tables on the way are made if they are
missing. The path goes on in the last table of a repeated header. -/
def within (change : Table → Option Table) : (path : List String) → Table → Option Table
  | [], t => change t
  | name :: path, t =>
    match t[name]? with
    | none => (within change path ∅).map fun inner => t.insert name (.table .implied inner)
    | some (.table .inline _) => none
    | some (.table form inner) =>
      (within change path inner).map fun inner => t.insert name (.table form inner)
    | some (.tables last earlier) =>
      (within change path last).map fun last => t.insert name (.tables last earlier)
    | some _ => none

/-- Makes the table of a header. A table that was only implied so far is that table. -/
def openTable (name : String) (t : Table) : Option Table :=
  match t[name]? with
  | none => some (t.insert name (.table .header ∅))
  | some (.table .implied inner) => some (t.insert name (.table .header inner))
  | some _ => none

/-- Makes another table of a repeated header. -/
def openNext (name : String) (t : Table) : Option Table :=
  match t[name]? with
  | none => some (t.insert name (.tables ∅ []))
  | some (.tables last earlier) => some (t.insert name (.tables ∅ (last :: earlier)))
  | some _ => none

end Table

/-- A line of a document, apart from blank lines and comments. -/
inductive Statement where
  | assign (key : List String) (value : Toml)
  | header (path : List String)
  | repeated (path : List String)

/-- Applies `open` to the table in front of the last name of a path. -/
def openAt (make : String → Table → Option Table) (path : List String) (t : Table) :
    Option Table :=
  match path.getLast? with
  | some name => t.within (make name) path.dropLast
  | none => none

/-- The table of a document, after the statements so far made `t` and opened the
table at `path`. -/
def tableAfter (t : Table) (path : List String) : List Statement → Option Table
  | [] => some t
  | .assign key value :: rest =>
    match t.within (Table.assign value key) path with
    | some t => tableAfter t path rest
    | none => none
  | .header path :: rest =>
    match openAt Table.openTable path t with
    | some t => tableAfter t path rest
    | none => none
  | .repeated path :: rest =>
    match openAt Table.openNext path t with
    | some t => tableAfter t path rest
    | none => none

def tableOf (statements : List Statement) : Option Table := tableAfter ∅ [] statements

end Toml

end LabelGraph

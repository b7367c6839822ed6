namespace ScopeAtlas

inductive TableOrigin
  | closed
  | header
  -- On the way to a table that has a header.
  | implied
  -- On the way to a value with a dotted key.
  | dotted
deriving DecidableEq, Repr, Inhabited

inductive Datum
  | null
  | boolean (value : Bool)
  | integer (value : Int)
  | fraction
  | moment
  | text (value : String)
  -- A list, or a series of tables that a repeated header adds to.
  | list (items : List Datum) (isSeries : Bool)
  | table (origin : TableOrigin) (entries : List (String × Datum))
deriving Repr, Inhabited

namespace Datum

abbrev Entries := List (String × Datum)

def alter (name : String) (change : Option Datum → Option Datum) : Entries → Option Entries
  | [] => (change none).map fun d => [(name, d)]
  | (key, d) :: rest =>
    if key = name then (change (some d)).map fun d => (key, d) :: rest
    else (alter name change rest).map ((key, d) :: ·)

def alterLast (change : Entries → Option Entries) : List Datum → Option (List Datum)
  | [] => none
  | [.table origin entries] => (change entries).map fun entries => [.table origin entries]
  | [_] => none
  | d :: rest => (alterLast change rest).map (d :: ·)

def openTable (isSeries : Bool) : (path : List String) → Entries → Option Entries
  | [] => fun _ => none
  | [name] => alter name fun
    | none => some (if isSeries then .list [.table .header []] true else .table .header [])
    | some (.table .implied entries) => if isSeries then none else some (.table .header entries)
    | some (.list tables true) => if isSeries then some (.list (tables ++ [.table .header []]) true) else none
    | some _ => none
  | name :: path => alter name fun
    | none => (openTable isSeries path []).map (.table .implied)
    | some (.table .closed _) => none
    | some (.table origin entries) => (openTable isSeries path entries).map (.table origin)
    | some (.list tables true) => (alterLast (openTable isSeries path) tables).map (.list · true)
    | some _ => none

def alterAt (change : Entries → Option Entries) : (path : List String) → Entries → Option Entries
  | [] => change
  | name :: path => alter name fun
    | some (.table origin entries) => (alterAt change path entries).map (.table origin)
    | some (.list tables true) => (alterLast (alterAt change path) tables).map (.list · true)
    | _ => none

-- Gives a name, which may be dotted, its value. A name is given once, and a dotted name adds only to tables that
-- dotted names made.
def assign (value : Datum) : (path : List String) → Entries → Option Entries
  | [] => fun _ => none
  | [name] => alter name fun
    | none => some value
    | some _ => none
  | name :: path => alter name fun
    | none => (assign value path []).map (.table .dotted)
    | some (.table .dotted entries) => (assign value path entries).map (.table .dotted)
    | some (.table .implied entries) =>
      if path.length ≤ 1 then none else (assign value path entries).map (.table .implied)
    | some (.list tables true) =>
      if path.length ≤ 1 then none else (alterLast (assign value path) tables).map (.list · true)
    | some _ => none

end Datum

end ScopeAtlas

import TableParsing.Toml.Value

/-!
# Building TOML tables

Tables as they grow while a document is read. No key is defined twice, a table is opened by one
header only, and dotted keys extend only tables that dotted keys have made.
-/
namespace TableParsing.Toml

/-- How a table came to be. -/
inductive Origin where
  /-- By a header or braces of its own. -/
  | explicit
  /-- By the header of a table inside it. -/
  | implied
  | dotted
deriving DecidableEq

inductive Item where
  | value (v : Value)
  | table (origin : Origin) (members : List (String × Item))
  /-- Tables of one array, newest first. -/
  | tables (elements : List (List (String × Item)))

abbrev Members := List (String × Item)

namespace Members

def item? (ms : Members) (key : String) : Option Item := (ms.find? (·.1 == key)).map (·.2)

def put (key : String) (item : Item) : Members → Members
  | [] => [(key, item)]
  | (k, old) :: rest => if k == key then (k, item) :: rest else (k, old) :: put key item rest

/-- Changes the table at a path, making the missing tables on the way; `change` also sees how the
table came to be. -/
def edit (origin : Origin) (change : Origin → Members → Option Members) :
    (here : Origin) → (path : List String) → Members → Option Members
  | here, [], ms => change here ms
  | _, key :: path, ms =>
    match ms.item? key with
    | none => (edit origin change origin path []).map fun inner => ms.put key (.table origin inner)
    | some (.value _) => none
    | some (.table o inner) =>
      if origin == .dotted && o == .explicit then none
      else (edit origin change o path inner).map fun inner => ms.put key (.table o inner)
    | some (.tables (newest :: older)) =>
      (edit origin change .explicit path newest).map fun newest =>
        ms.put key (.tables (newest :: older))
    | some (.tables []) => none

def define (path : List String) (key : String) (v : Value) (ms : Members) : Option Members :=
  edit .dotted
    (fun here ms =>
      if !path.isEmpty && here != .dotted then none
      else if (ms.item? key).isSome then none
      else some (ms.put key (.value v)))
    .explicit path ms

def openTable (path : List String) (key : String) (ms : Members) : Option Members :=
  edit .implied
    (fun _ ms =>
      match ms.item? key with
      | none => some (ms.put key (.table .explicit []))
      | some (.table .implied inner) => some (ms.put key (.table .explicit inner))
      | some _ => none)
    .explicit path ms

/-- Opens a new table at the end of an array of tables. -/
def openElement (path : List String) (key : String) (ms : Members) : Option Members :=
  edit .implied
    (fun _ ms =>
      match ms.item? key with
      | none => some (ms.put key (.tables [[]]))
      | some (.tables elements) => some (ms.put key (.tables ([] :: elements)))
      | some _ => none)
    .explicit path ms

def defineIn (header path : List String) (key : String) (v : Value) (ms : Members) :
    Option Members :=
  edit .implied (fun _ ms => ms.define path key v) .explicit header ms

end Members

mutual

def Item.toValue : Item → Value
  | .value v => v
  | .table _ members => .table (toValues members)
  | .tables elements => .array (toTables elements).reverse

def toValues : List (String × Item) → List (String × Value)
  | [] => []
  | (key, item) :: rest => (key, item.toValue) :: toValues rest

def toTables : List (List (String × Item)) → List Value
  | [] => []
  | members :: rest => .table (toValues members) :: toTables rest

end

end TableParsing.Toml

/-!
# Tables of a TOML document

A document is a table of tables and values. How a table came to be decides who may still add to it:
a table written out as a value is closed, one under a header of its own is defined once, one that
was only passed on the way to another may get its header later, and dotted keys add only to tables
that dotted keys made.
-/

namespace Rollcall.Toml

/-- How a table came to be. -/
inductive Origin
  /-- Written out as a value. -/
  | inline
  /-- Under a header of its own. -/
  | header
  /-- On the way to a table under a header. -/
  | implied
  /-- On the way of a dotted key. -/
  | dotted
  deriving DecidableEq, Repr

/-- A value of a TOML document. Of a floating point number only its presence is kept. -/
inductive Value
  | string (s : String)
  | int (n : Int)
  | float
  | bool (b : Bool)
  /-- A date, a time or both, in normal form. -/
  | moment (text : String)
  | array (items : List Value)
  | table (origin : Origin) (entries : List (String × Value))
  /-- Tables under headers of one name: the last one and those before it. -/
  | tables (last : List (String × Value)) (earlier : List (List (String × Value)))
  deriving Inhabited, Repr

/-- The entries of a table, in the order written. -/
abbrev Entries := List (String × Value)

namespace Entries

/-- The value under a key. -/
def get? (es : Entries) (key : String) : Option Value := es.lookup key

/-- Change what is under a key, if it may be changed so. -/
def alter (key : String) (change : Option Value → Option Value) : Entries → Option Entries
  | [] => (change none).map fun v => [(key, v)]
  | (k, v) :: rest =>
    if k = key then (change (some v)).map fun v => (k, v) :: rest
    else (alter key change rest).map ((k, v) :: ·)

/-- Change the entries of the table at the end of a path, making the tables that are not there. -/
def changeAt (dotted : Bool) (change : Origin → Entries → Option Entries) :
    (path : List String) → Origin → Entries → Option Entries
  | [], o, es => change o es
  | key :: path, _, es =>
    alter key (fun
      | none =>
        let o := if dotted then Origin.dotted else .implied
        (changeAt dotted change path o []).map (.table o)
      | some (.table o es) =>
        if o = .inline ∨ dotted ∧ o = .header then none
        else (changeAt dotted change path o es).map (.table o)
      | some (.tables last earlier) =>
        (changeAt dotted change path .header last).map (.tables · earlier)
      | some _ => none) es

/-- Put a value under a dotted key of a table, given by its leading parts and its last one. -/
def assign (dots : List String) (key : String) (v : Value) (o : Origin) (es : Entries) :
    Option Entries :=
  changeAt true (fun o es =>
    if decide (o = .dotted) = dots.isEmpty then none
    else alter key (fun
      | none => some v
      | some _ => none) es) dots o es

/-- Define the table of a header. -/
def openTable (path : List String) (key : String) (es : Entries) : Option Entries :=
  changeAt false (fun _ es => alter key (fun
    | none => some (.table .header [])
    | some (.table .implied es) => some (.table .header es)
    | some _ => none) es) path .header es

/-- Define one more of the tables of a header. -/
def openElement (path : List String) (key : String) (es : Entries) : Option Entries :=
  changeAt false (fun _ es => alter key (fun
    | none => some (.tables [] [])
    | some (.tables last earlier) => some (.tables [] (last :: earlier))
    | some _ => none) es) path .header es

end Entries

end Rollcall.Toml

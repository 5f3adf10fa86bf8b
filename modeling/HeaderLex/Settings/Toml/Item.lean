import HeaderLex.Number.Binary
import HeaderLex.Settings.Toml.Basic
import HeaderLex.Settings.Toml.Moment

/-!
# Values and tables

* `Item`      a value of a document; a table remembers how it came to be, for that decides what may
              still be added to it;
* `Entries.set`          what a key line does: no key is given twice;
* `Entries.openTable`, `Entries.openMember`   what the header of a table and of a table in a series do:
              no table is defined twice;
* `Entries.within`       the table that a path of headers leads to.
-/

namespace HeaderLex.Toml

/-- How a table came to be. -/
inductive TableForm where
  /-- By its header. -/
  | header
  /-- By the header of a table inside it. -/
  | implied
  /-- By a dotted key. -/
  | dotted
  /-- Between braces; nothing can be added to it. -/
  | inlined
deriving DecidableEq, Repr

inductive Item where
  | bool (b : Bool)
  | integer (n : Int64)
  | float (x : Number.Binary)
  | text (s : String)
  | moment (m : Moment)
  | array (items : List Item)
  | table (form : TableForm) (entries : List (String × Item))
  /-- A series of tables, each with a header of its own.  Headers and keys that name the series mean
  its newest table. -/
  | tables (newest : List (String × Item)) (older : List (List (String × Item)))

/-- The entries of a table, in the order of their definition. -/
abbrev Entries := List (String × Item)

namespace Entries

/-- Gives a key its value; a new key comes last. -/
def put (key : String) (item : Item) : Entries → Entries
  | [] => [(key, item)]
  | (k, v) :: rest => if k = key then (k, item) :: rest else (k, v) :: put key item rest

theorem lookup_put_self (key : String) (item : Item) (entries : Entries) :
    (put key item entries).lookup key = some item := by
  induction entries with
  | nil => simp [put]
  | cons e rest ih =>
    obtain ⟨k, v⟩ := e
    by_cases h : k = key
    · simp [put, h]
    · have hk : (key == k) = false := beq_false_of_ne (fun e => h e.symm)
      simp [put, h, List.lookup_cons, hk, ih]

theorem lookup_put_of_ne {key other : String} (h : other ≠ key) (item : Item) (entries : Entries) :
    (put key item entries).lookup other = entries.lookup other := by
  have ho : (other == key) = false := beq_false_of_ne h
  induction entries with
  | nil => simp [put, List.lookup_cons, ho]
  | cons e rest ih =>
    obtain ⟨k, v⟩ := e
    by_cases hk : k = key
    · subst hk
      simp [put, List.lookup_cons, ho]
    · simp only [put, hk, if_false, List.lookup_cons, ih]

/-- Defines the key with a dotted path.  The path goes through tables that dotted keys made, or
that headers opened only on the way to others, and ends in one that dotted keys made. -/
def set (item : Item) : List String → Entries → Except Problem Entries
  | [], _ => .error .malformed
  | [key], entries =>
    match entries.lookup key with
    | none => .ok (put key item entries)
    | some _ => .error .redefined
  | key :: path, entries =>
    match entries.lookup key with
    | none => do return put key (.table .dotted (← set item path [])) entries
    | some (.table .dotted inner) => do
      return put key (.table .dotted (← set item path inner)) entries
    | some (.table .implied inner) =>
      if path.length ≤ 1 then .error .redefined
      else do return put key (.table .implied (← set item path inner)) entries
    | some (.tables newest older) =>
      if path.length ≤ 1 then .error .redefined
      else do return put key (.tables (← set item path newest) older) entries
    | some _ => .error .redefined

/-- Changes the table that a path of headers leads to; tables that are missing on the way are
implied. -/
def within (f : Entries → Except Problem Entries) : List String → Entries → Except Problem Entries
  | [], entries => f entries
  | key :: path, entries =>
    match entries.lookup key with
    | none => do return put key (.table .implied (← within f path [])) entries
    | some (.table form inner) =>
      if form = .inlined then .error .redefined
      else do return put key (.table form (← within f path inner)) entries
    | some (.tables newest older) => do
      return put key (.tables (← within f path newest) older) entries
    | some _ => .error .redefined

/-- Begins a table of its own; one that was only implied keeps what is in it. -/
def beginTable (key : String) (entries : Entries) : Except Problem Entries :=
  match entries.lookup key with
  | none => .ok (put key (.table .header []) entries)
  | some (.table .implied inner) => .ok (put key (.table .header inner) entries)
  | some _ => .error .redefined

/-- Begins the next table of a series. -/
def beginMember (key : String) (entries : Entries) : Except Problem Entries :=
  match entries.lookup key with
  | none => .ok (put key (.tables [] []) entries)
  | some (.tables newest older) => .ok (put key (.tables [] (newest :: older)) entries)
  | some _ => .error .redefined

/-- Begins something at the end of a path of headers. -/
def beginAt (start : String → Entries → Except Problem Entries) (path : List String)
    (entries : Entries) : Except Problem Entries :=
  match path.getLast? with
  | some key => within (start key) path.dropLast entries
  | none => .error .malformed

def openTable : List String → Entries → Except Problem Entries := beginAt beginTable

def openMember : List String → Entries → Except Problem Entries := beginAt beginMember

end Entries

end HeaderLex.Toml

import Hornbase.Answer
import Hornbase.Config

/-!
# Serialized forms

Settings, term handles and answers are stored and sent as documents: trees of numbers, texts, lists
and records. Reading accepts more than writing produces. Unknown fields are passed over, a record
may come as a list of its fields in order, and settings that are not given have their defaults.
Anything else is not of the form, and reading it gives `none`.
-/

namespace Hornbase

universe v

/-- A tree of plain data. -/
inductive Document where
  | null
  | bool (b : Bool)
  | int (n : Int)
  /-- A number that is not written as an integer, such as `1.5` or `1e3`. -/
  | real
  | text (s : String)
  | list (items : List Document)
  | record (fields : List (String × Document))
deriving Inhabited

namespace Document

/-- The field of a record; of several with one name the last one counts. -/
def field? (name : String) (fields : List (String × Document)) : Option Document :=
  fields.reverse.lookup name

/-- Reads an integer of 64 bits without a sign. -/
def readUnsigned : Document → Option Nat
  | int n => if 0 ≤ n ∧ n < 0x10000000000000000 then some n.toNat else none
  | _ => none

/-- Reads an integer of 64 bits with a sign. -/
def readSigned : Document → Option Int
  | int n => if -0x8000000000000000 ≤ n ∧ n < 0x8000000000000000 then some n else none
  | _ => none

/-- Reads a text. -/
def readText : Document → Option String
  | text s => some s
  | _ => none

/-- Reads a truth value. -/
def readBool : Document → Option Bool
  | bool b => some b
  | _ => none

/-- Reads something that may be absent, which `null` stands for. -/
def readNullable {α : Type v} (read : Document → Option α) : Document → Option (Option α)
  | null => some none
  | d => (read d).map some

/-- Writes something that may be absent. -/
def ofOption {α : Type v} (write : α → Document) : Option α → Document
  | none => null
  | some a => write a

end Document

open Document

/-! ## Settings -/

/-- Reads the settings of which some fields are given; the others keep their defaults. -/
def Config.readFields (maxDepth dedupFacts : Option Document) : Option Config :=
  let unset : Config := {}
  match maxDepth.elim (some unset.maxDepth) (readNullable readUnsigned),
    dedupFacts.elim (some unset.dedupFacts) readBool with
  | some maxDepth, some dedupFacts => some { maxDepth, dedupFacts }
  | _, _ => none

/-- Reads settings from a record, or from a list of at most two items. -/
def Config.read : Document → Option Config
  | .record fields => readFields (field? "max_depth" fields) (field? "dedup_facts" fields)
  | .list [] => readFields none none
  | .list [maxDepth] => readFields (some maxDepth) none
  | .list [maxDepth, dedupFacts] => readFields (some maxDepth) (some dedupFacts)
  | _ => none

/-- Writes settings with all their fields. -/
def Config.write (c : Config) : Document :=
  .record [("max_depth", ofOption (fun n : Nat => .int n) c.maxDepth),
    ("dedup_facts", .bool c.dedupFacts)]

/-- A field that is not given keeps its default, and one of the wrong kind spoils the whole. -/
example : Config.read (.list [.int 8]) = some { maxDepth := some 8 }
    ∧ Config.read (.record [("max_depth", .real)]) = none := by decide

/-! ## Terms -/

/-- Reads the handle of a term from its position. -/
def TermId.read (d : Document) : Option TermId := (readUnsigned d).map TermId.mk

/-- Writes the handle of a term as its position. -/
def TermId.write (t : TermId) : Document := .int t.index

/-! ## Answers -/

/-- Reads an answer's values from a list. -/
def Answer.readValues {V : Type v} (read : Document → Option V) : Document → Option (Answer V)
  | .list items => (items.mapM (readNullable read)).map Answer.mk
  | _ => none

/-- Reads an answer from a record with its values, or from a list of exactly that field. -/
def Answer.read {V : Type v} (read : Document → Option V) : Document → Option (Answer V)
  | .record fields => (field? "values" fields).bind (readValues read)
  | .list [values] => readValues read values
  | _ => none

/-- Writes an answer as a record. -/
def Answer.write {V : Type v} (write : V → Document) (a : Answer V) : Document :=
  .record [("values", .list (a.values.map (ofOption write)))]

end Hornbase

import Mathlib.Data.Int.Notation
import Mathlib.Tactic.Common

/-!
# Reading JSON values by key

A value is what a text parses to. Members are looked up by key with a default,
and a member of the wrong type is an error. Lists of records are read element
by element; what writes a record has to be undone by what reads it.
-/

set_option autoImplicit false

namespace PqFl.JsonValues

inductive Json where
  | null
  | boolean (b : Bool)
  | integer (n : ℤ)
  | string (s : String)
  | array (elements : List Json)
  | object (members : List (String × Json))

def Json.member (key : String) : Json → Option Json
  | .object members => (members.find? (fun m => m.1 == key)).map (·.2)
  | _ => none

def Json.elements : Json → List Json
  | .null => []
  | .array elements => elements
  | .object members => members.map (·.2)
  | j => [j]

def readBoolean : Json → Option Bool
  | .boolean b => some b
  | _ => none

/-- A boolean converts to an integer too. -/
def readInteger : Json → Option ℤ
  | .integer n => some n
  | .boolean b => some (if b then 1 else 0)
  | _ => none

def readString : Json → Option String
  | .string s => some s
  | _ => none

def readStrings : Json → Option (List String)
  | .array elements => elements.mapM readString
  | _ => none

/-- A member or its default; only objects have members. -/
def Json.value {α : Type} (read : Json → Option α) (key : String) (default : α) (j : Json) :
    Option α :=
  match j with
  | .object _ =>
    match j.member key with
    | some v => read v
    | none => some default
  | _ => none

def Json.records {α : Type} (read : Json → Option α) (key : String) (j : Json) :
    Option (List α) :=
  match j.member key with
  | some v => v.elements.mapM read
  | none => some []

@[simp] theorem value_member {α : Type} {read : Json → Option α} {key : String} {default : α}
    {members : List (String × Json)} {v : Json} (h : (Json.object members).member key = some v) :
    (Json.object members).value read key default = read v := by
  simp only [Json.value, h]

@[simp] theorem readBoolean_boolean (b : Bool) : readBoolean (.boolean b) = some b := rfl

@[simp] theorem readInteger_integer (n : ℤ) : readInteger (.integer n) = some n := rfl

@[simp] theorem readString_string (s : String) : readString (.string s) = some s := rfl

theorem mapM_read {α β γ : Type} {read : β → Option γ} {write : α → β} {f : α → γ}
    (h : ∀ x, read (write x) = some (f x)) (l : List α) :
    (l.map write).mapM read = some (l.map f) := by
  induction l with
  | nil => rfl
  | cons x l ih => simp [h, ih]

theorem records_write {α β : Type} (key : String) {read : Json → Option β} {write : α → Json}
    {f : α → β} (h : ∀ x, read (write x) = some (f x)) {j : Json} {l : List α}
    (hj : j.member key = some (.array (l.map write))) :
    j.records read key = some (l.map f) := by
  simp only [Json.records, hj, Json.elements]
  exact mapM_read h l

@[simp] theorem readStrings_write (l : List String) :
    readStrings (.array (l.map .string)) = some l := by
  have h : (l.map Json.string).mapM readString = some (l.map id) := mapM_read readString_string l
  rw [List.map_id] at h
  exact h

/-- The member of a finite list whose text this is. -/
def ofText {α : Type} (all : List α) (text : α → String) (s : String) : Option α :=
  all.find? (fun x => text x == s)

end PqFl.JsonValues

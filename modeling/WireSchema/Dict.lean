import WireSchema.Text.Basic

/-!
# Dictionaries

Values by name, in the order in which the names first came. Setting a name again replaces its
value and keeps its place.
-/

namespace WireSchema

/-- Values by name, in order. No name occurs twice. -/
structure Dict (α : Type) where
  entries : List (Text × α) := []
  deriving DecidableEq, Repr

namespace Dict

def get? (d : Dict α) (name : Text) : Option α := (d.entries.find? (·.1 == name)).map (·.2)

/-- Replaces the value of a name, or appends the name. -/
def setEntry (name : Text) (value : α) : List (Text × α) → List (Text × α)
  | [] => [(name, value)]
  | e :: rest => if e.1 == name then (name, value) :: rest else e :: setEntry name value rest

theorem setEntry_of_not_mem {name : Text} {entries : List (Text × α)} (value : α)
    (h : name ∉ entries.map (·.1)) : setEntry name value entries = entries ++ [(name, value)] := by
  induction entries with
  | nil => rfl
  | cons e rest ih =>
    simp only [List.map_cons, List.mem_cons, not_or] at h
    rw [setEntry, if_neg (by simpa using Ne.symm h.1), ih h.2, List.cons_append]

def set (d : Dict α) (name : Text) (value : α) : Dict α := ⟨setEntry name value d.entries⟩

/-- How many names there are. -/
def size (d : Dict α) : Nat := d.entries.length

/-- The names, in order. -/
def keys (d : Dict α) : List Text := d.entries.map (·.1)

/-- Shows entries to a consumer one after the other, as long as it asks for more. -/
def visitEntries [Monad μ] (yield : Text → α → μ Bool) : List (Text × α) → μ Unit
  | [] => pure ()
  | e :: rest => do
    if ← yield e.1 e.2 then visitEntries yield rest

/-- Shows the entries in order to a consumer, as long as it asks for more. -/
def visit [Monad μ] (d : Dict α) (yield : Text → α → μ Bool) : μ Unit :=
  visitEntries yield d.entries

end Dict

end WireSchema

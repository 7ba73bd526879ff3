/-!
Values by name, in the order in which the names were first entered. Entering a name
again replaces its value and keeps its place.
-/

namespace OnePass

structure Directory (α : Type) where
  entries : List (String × α) := []
deriving DecidableEq, Repr

namespace Directory

variable {α : Type}

def findIn (name : String) : List (String × α) → Option α
  | [] => none
  | (key, value) :: rest => if key = name then some value else findIn name rest

/-- Replaces the value at `name`, or adds it behind all others. -/
def putIn (name : String) (value : α) : List (String × α) → List (String × α)
  | [] => [(name, value)]
  | (key, old) :: rest =>
    if key = name then (key, value) :: rest else (key, old) :: putIn name value rest

def find? (d : Directory α) (name : String) : Option α :=
  findIn name d.entries

def put (d : Directory α) (name : String) (value : α) : Directory α :=
  ⟨putIn name value d.entries⟩

def names (d : Directory α) : List String :=
  d.entries.map Prod.fst

def values (d : Directory α) : List α :=
  d.entries.map Prod.snd

theorem findIn_putIn (entries : List (String × α)) (name other : String) (value : α) :
    findIn other (putIn name value entries) =
      if name = other then some value else findIn other entries := by
  induction entries with
  | nil => rfl
  | cons entry rest ih =>
      obtain ⟨key, old⟩ := entry
      by_cases h : key = name
      · subst h
        by_cases ho : key = other <;> simp [putIn, findIn, ho]
      · by_cases hk : key = other
        · subst hk
          have hn : name ≠ key := fun e => h e.symm
          simp [putIn, findIn, h, hn]
        · simp [putIn, findIn, h, hk, ih]

/-- A directory reads back what was entered last under a name. -/
theorem find?_put (d : Directory α) (name other : String) (value : α) :
    (d.put name value).find? other = if name = other then some value else d.find? other :=
  findIn_putIn d.entries name other value

end Directory
end OnePass

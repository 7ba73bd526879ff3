import OnePass.Directory

/-!
Values at numbered places, and an index that leads from a name to the place of its value. A
name that is entered again keeps its place.
-/

namespace OnePass

/-- The numbers are below a count, and each belongs to one name. -/
structure Directory.Numbers (d : Directory Nat) (count : Nat) : Prop where
  bounded : ∀ name i, d.find? name = some i → i < count
  distinct : ∀ name other i, d.find? name = some i → d.find? other = some i → name = other

namespace Directory

theorem numbers_empty : Numbers {} 0 :=
  ⟨by simp [find?, findIn], by simp [find?, findIn]⟩

theorem Numbers.put {d : Directory Nat} {count : Nat} (h : d.Numbers count) (name : String) :
    (d.put name count).Numbers (count + 1) := by
  constructor
  · intro other i hi
    rw [find?_put] at hi
    split at hi
    · cases hi
      exact Nat.lt_succ_self count
    · exact Nat.lt_succ_of_lt (h.bounded other i hi)
  · intro first second i hfirst hsecond
    rw [find?_put] at hfirst hsecond
    by_cases h₁ : name = first <;> by_cases h₂ : name = second
    · exact h₁.symm.trans h₂
    · rw [if_pos h₁] at hfirst
      rw [if_neg h₂] at hsecond
      cases hfirst
      exact absurd (h.bounded second _ hsecond) (Nat.lt_irrefl _)
    · rw [if_neg h₁] at hfirst
      rw [if_pos h₂] at hsecond
      cases hsecond
      exact absurd (h.bounded first _ hfirst) (Nat.lt_irrefl _)
    · rw [if_neg h₁] at hfirst
      rw [if_neg h₂] at hsecond
      exact h.distinct first second i hfirst hsecond

end Directory

structure Catalog (α : Type) where
  entries : Array α
  index : Directory Nat
  numbered : index.Numbers entries.size
deriving DecidableEq, Repr

namespace Catalog

variable {α : Type}

instance : EmptyCollection (Catalog α) where
  emptyCollection := ⟨#[], {}, Directory.numbers_empty⟩

def find? (c : Catalog α) (name : String) : Option α :=
  (c.index.find? name).bind (c.entries[·]?)

/-- Puts a value behind all others, whether or not its name has a place already. -/
def add (c : Catalog α) (name : String) (value : α) : Catalog α where
  entries := c.entries.push value
  index := c.index.put name c.entries.size
  numbered := by simpa using c.numbered.put name

def put (c : Catalog α) (name : String) (value : α) : Catalog α :=
  match c.index.find? name with
  | some i =>
    { c with
      entries := c.entries.setIfInBounds i value
      numbered := by simpa using c.numbered }
  | none => c.add name value

def values (c : Catalog α) : List α :=
  c.entries.toList

variable {c : Catalog α} {name : String}

theorem values_empty : ({} : Catalog α).values = [] := rfl

theorem entries_put_of_some {i : Nat} (h : c.index.find? name = some i) (value : α) :
    (c.put name value).entries = c.entries.setIfInBounds i value := by
  rw [put]
  simp [h]

theorem index_put_of_some {i : Nat} (h : c.index.find? name = some i) (value : α) :
    (c.put name value).index = c.index := by
  rw [put]
  simp [h]

theorem put_of_none (h : c.index.find? name = none) (value : α) :
    c.put name value = c.add name value := by
  rw [put]
  simp [h]

theorem index_of_find? (h : c.find? name = none) : c.index.find? name = none := by
  cases hname : c.index.find? name with
  | none => rfl
  | some i =>
      have hi : i < c.entries.size := c.numbered.bounded name i hname
      simp [find?, hname, Nat.not_le.mpr hi] at h

theorem find?_add (c : Catalog α) (name other : String) (value : α) :
    (c.add name value).find? other = if name = other then some value else c.find? other := by
  simp only [find?, add, Directory.find?_put]
  split
  · simp
  · cases hother : c.index.find? other with
    | none => rfl
    | some i =>
        have hi : i ≠ c.entries.size := Nat.ne_of_lt (c.numbered.bounded other i hother)
        simp [Array.getElem?_push, hi]

/-- A catalog reads back what was entered last under a name: no two names share a place. -/
theorem find?_put (c : Catalog α) (name other : String) (value : α) :
    (c.put name value).find? other = if name = other then some value else c.find? other := by
  cases hname : c.index.find? name with
  | none => rw [put_of_none hname, find?_add]
  | some i =>
      have hi : i < c.entries.size := c.numbered.bounded name i hname
      rw [find?, entries_put_of_some hname, index_put_of_some hname]
      split
      · rename_i h
        rw [← h, hname]
        simp [hi]
      · rename_i h
        rw [find?]
        cases hother : c.index.find? other with
        | none => rfl
        | some j =>
            have hij : i ≠ j := by
              rintro rfl
              exact h (c.numbered.distinct name other i hname hother)
            simp [Array.getElem?_setIfInBounds, hij]

end Catalog
end OnePass

import Mathlib.Data.List.Forall2
import OnePass.Proofs.Repetition
import OnePass.Scope.Table

/-!
A table of symbols is a stack of scopes. Each scope is told by the declarations that were made in
it, one after another; the last one under a name is what the name means there. The table keeps only
that one, at the place where the name was declared first.
-/

namespace OnePass

/-! Scopes told by their declarations -/

namespace Scopes

/-- The last declaration of a name. -/
def latest? (log : List Binding) (name : String) : Option Binding :=
  log.reverse.find? (·.symbol.name == name)

/-- One further declaration in the scope at a depth. -/
def insertAt (scopes : List (List Binding)) (depth : Nat) (b : Binding) : List (List Binding) :=
  scopes.modify depth (· ++ [b])

/-- An edit of a stack of scopes, of which the outermost one stands first. The two outermost scopes
are never closed. -/
def edit (scopes : List (List Binding)) : Table.Edit → List (List Binding)
  | .openScope => scopes ++ [[]]
  | .closeScope => if 2 < scopes.length then scopes.dropLast else scopes
  | .declare symbol location => insertAt scopes (scopes.length - 1) ⟨symbol, location⟩
  | .declareField symbol location => insertAt scopes 1 ⟨symbol, location⟩
  | .predeclare symbol => insertAt scopes 0 ⟨symbol, .builtin⟩

/-- The scopes that edits leave open, from nothing declared. -/
def after (edits : List Table.Edit) : List (List Binding) :=
  edits.foldl edit [[], []]

/-- The last declaration of a name in the innermost scope that declares it. -/
def innermost? (scopes : List (List Binding)) (name : String) : Option Binding :=
  scopes.reverse.findSome? (latest? · name)

theorem latest?_append (log : List Binding) (b : Binding) (name : String) :
    latest? (log ++ [b]) name = if b.symbol.name = name then some b else latest? log name := by
  rw [latest?, List.reverse_append, List.reverse_singleton, List.singleton_append, List.find?_cons]
  by_cases h : b.symbol.name = name
  · simp [h]
  · rw [if_neg h, beq_false_of_ne h, latest?]

end Scopes

namespace Frame

open Scopes (latest?)

/-- The index leads from the names that were declared to the places of the entries, one to one:
at the place of a name stands the entry with that name, and at no other place. -/
structure Indexed (f : Frame) (log : List Binding) : Prop where
  declared : ∀ name, (∃ i, f.index.find? name = some i) ↔ name ∈ log.map (·.symbol.name)
  place : ∀ name i, f.index.find? name = some i ↔
    ∃ b, f.entries[i]? = some b ∧ b.symbol.name = name

/-- A frame keeps the last declaration of each name, and the names in the order of their first
declarations. -/
structure Keeps (f : Frame) (log : List Binding) : Prop where
  latest : ∀ name, f.find? name = latest? log name
  indexed : f.Indexed log
  order : f.values.map (·.symbol.name) = (log.map (·.symbol.name)).eraseDups

theorem indexed_empty : Indexed {} [] where
  declared _ := by
    constructor
    · rintro ⟨_, hi⟩
      cases hi
    · intro h
      cases h
  place _ _ := by
    constructor
    · intro hi
      cases hi
    · rintro ⟨_, hb, -⟩
      cases hb

theorem keeps_empty : Keeps {} [] :=
  ⟨fun _ => rfl, indexed_empty, rfl⟩

variable {f : Frame} {log : List Binding} {symbol : Symbol}

/-- A name that is declared again keeps its place. -/
theorem Indexed.redeclare (h : f.Indexed log) {i : Nat}
    (hi : f.index.find? symbol.name = some i) (location : Location) :
    (f.declare symbol location).Indexed (log ++ [⟨symbol, location⟩]) where
  declared name := by
    rw [declare, Catalog.index_put_of_some hi, h.declared, List.map_append, List.mem_append]
    have hold : symbol.name ∈ log.map (·.symbol.name) := (h.declared symbol.name).mp ⟨i, hi⟩
    constructor
    · exact .inl
    · rintro (hname | hname)
      · exact hname
      · rwa [List.mem_singleton.mp hname]
  place name j := by
    rw [declare, Catalog.index_put_of_some hi, Catalog.entries_put_of_some hi]
    by_cases hij : i = j
    · subst hij
      have hbound := f.numbered.bounded symbol.name i hi
      rw [Array.getElem?_setIfInBounds_self_of_lt hbound]
      constructor
      · intro hname
        exact ⟨_, rfl, f.numbered.distinct symbol.name name i hi hname⟩
      · rintro ⟨b, hb, rfl⟩
        cases hb
        exact hi
    · rw [Array.getElem?_setIfInBounds_ne hij, h.place]

/-- A new name gets the place behind all others. -/
theorem Indexed.declareNew (h : f.Indexed log) (hnew : f.index.find? symbol.name = none)
    (location : Location) :
    (f.declare symbol location).Indexed (log ++ [⟨symbol, location⟩]) where
  declared name := by
    rw [declare, Catalog.put_of_none hnew, Catalog.add, List.map_append, List.mem_append,
      ← h.declared]
    simp only [Directory.find?_put, List.map_singleton, List.mem_singleton]
    by_cases hname : symbol.name = name
    · simp [hname]
    · simp [hname, Ne.symm hname]
  place name j := by
    rw [declare, Catalog.put_of_none hnew, Catalog.add]
    simp only [Directory.find?_put, Array.getElem?_push]
    by_cases hj : j = f.entries.size
    · subst hj
      by_cases hname : symbol.name = name
      · simp [hname]
      · have hno : f.index.find? name ≠ some f.entries.size := fun hi =>
          Nat.lt_irrefl _ (f.numbered.bounded name _ hi)
        simp [hname, hno]
    · rw [if_neg hj, ← h.place]
      by_cases hname : symbol.name = name
      · simp [← hname, hnew, Ne.symm hj]
      · rw [if_neg hname]

theorem Indexed.declare (h : f.Indexed log) (symbol : Symbol) (location : Location) :
    (f.declare symbol location).Indexed (log ++ [⟨symbol, location⟩]) := by
  cases hfind : f.index.find? symbol.name with
  | none => exact h.declareNew hfind location
  | some i => exact h.redeclare hfind location

theorem Indexed.names_declare (h : f.Indexed log) (symbol : Symbol) (location : Location) :
    (f.declare symbol location).values.map (·.symbol.name) =
      if symbol.name ∈ log.map (·.symbol.name) then f.values.map (·.symbol.name)
      else f.values.map (·.symbol.name) ++ [symbol.name] := by
  rw [Frame.declare, Catalog.values, Catalog.values]
  cases hfind : f.index.find? symbol.name with
  | none =>
      rw [if_neg (fun hold => by simpa [hfind] using (h.declared _).mpr hold),
        Catalog.put_of_none hfind, Catalog.add]
      simp
  | some i =>
      obtain ⟨b, hb, hname⟩ := (h.place symbol.name i).mp hfind
      rw [if_pos ((h.declared _).mp ⟨i, hfind⟩), Catalog.entries_put_of_some hfind,
        Array.toList_setIfInBounds, List.map_set]
      have hi : (f.entries.toList.map (·.symbol.name))[i]? = some symbol.name := by
        simp [hb, hname]
      obtain ⟨hbound, hi⟩ := List.getElem?_eq_some_iff.mp hi
      exact hi ▸ List.set_getElem_self hbound

theorem Keeps.declare (h : f.Keeps log) (symbol : Symbol) (location : Location) :
    (f.declare symbol location).Keeps (log ++ [⟨symbol, location⟩]) where
  latest name := by
    rw [Frame.declare, Catalog.find?_put, Scopes.latest?_append, h.latest]
  indexed := h.indexed.declare symbol location
  order := by
    rw [h.indexed.names_declare, List.map_append, List.map_singleton, eraseDups_concat, h.order]
    simp only [List.mem_eraseDups]

end Frame

namespace Table

variable {t : Table} {scopes : List (List Binding)}

/-! The frames of an edited table, the outermost one first -/

theorem frames_reverse (t : Table) :
    t.frames.reverse = t.predeclared :: t.fields :: t.blocks.reverse := by
  simp [frames]

theorem frames_openScope (t : Table) : t.openScope.frames.reverse = t.frames.reverse ++ [{}] := by
  simp [frames_reverse, openScope]

theorem frames_closeScope (t : Table) :
    t.closeScope.frames.reverse =
      if 2 < t.frames.reverse.length then t.frames.reverse.dropLast else t.frames.reverse := by
  rw [frames_reverse, frames_reverse, closeScope]
  cases t.blocks with
  | nil => simp
  | cons b rest => simp [List.dropLast_cons_of_ne_nil]

theorem frames_declare (t : Table) (symbol : Symbol) (location : Location) :
    (t.declare symbol location).frames.reverse =
      t.frames.reverse.modify (t.frames.reverse.length - 1) (·.declare symbol location) := by
  rw [frames_reverse, frames_reverse, declare, updateInnermost]
  cases t.blocks with
  | nil => simp
  | cons b rest =>
      have hlast := List.modifyTailIdx_add (List.modifyHead (·.declare symbol location)) 0
        (t.predeclared :: t.fields :: rest.reverse) [b]
      simpa [List.modify] using hlast.symm

theorem frames_declareField (t : Table) (symbol : Symbol) (location : Location) :
    (t.declareField symbol location).frames.reverse =
      t.frames.reverse.modify 1 (·.declare symbol location) := by
  rw [frames_reverse, frames_reverse]
  rfl

theorem frames_predeclare (t : Table) (symbol : Symbol) :
    (t.predeclare symbol).frames.reverse =
      t.frames.reverse.modify 0 (·.declare symbol .builtin) := by
  rw [frames_reverse, frames_reverse]
  rfl

/-- Each frame of the table keeps a scope of the stack. -/
def Refines (t : Table) (scopes : List (List Binding)) : Prop :=
  List.Forall₂ Frame.Keeps t.frames.reverse scopes

theorem Refines.insertAt {frames : List Frame} (h : List.Forall₂ Frame.Keeps frames scopes)
    (depth : Nat) (symbol : Symbol) (location : Location) :
    List.Forall₂ Frame.Keeps (frames.modify depth (·.declare symbol location))
      (Scopes.insertAt scopes depth ⟨symbol, location⟩) := by
  rw [Scopes.insertAt]
  induction h generalizing depth with
  | nil => cases depth <;> exact .nil
  | cons hkeeps hrest ih =>
      cases depth with
      | zero => exact .cons (hkeeps.declare symbol location) hrest
      | succ depth => exact .cons hkeeps (ih depth)

/-- An edit of the table is the edit of the stack. -/
theorem Refines.edit (h : t.Refines scopes) (e : Edit) :
    (t.edit e).Refines (Scopes.edit scopes e) := by
  have hlength := List.Forall₂.length_eq h
  rw [Refines] at h ⊢
  cases e with
  | openScope =>
      rw [Table.edit, frames_openScope]
      exact List.rel_append h (.cons Frame.keeps_empty .nil)
  | closeScope =>
      rw [Table.edit, frames_closeScope, Scopes.edit, hlength]
      split
      · rw [List.dropLast_eq_take, List.dropLast_eq_take, hlength]
        exact List.forall₂_take _ h
      · exact h
  | declare symbol location =>
      rw [Table.edit, frames_declare, Scopes.edit, hlength]
      exact insertAt h _ symbol location
  | declareField symbol location =>
      rw [Table.edit, frames_declareField]
      exact insertAt h 1 symbol location
  | predeclare symbol =>
      rw [Table.edit, frames_predeclare]
      exact insertAt h 0 symbol .builtin

def editAll (t : Table) (edits : List Edit) : Table :=
  edits.foldl Table.edit t

theorem Refines.editAll (h : t.Refines scopes) (edits : List Edit) :
    (t.editAll edits).Refines (edits.foldl Scopes.edit scopes) := by
  induction edits generalizing t scopes with
  | nil => exact h
  | cons e edits ih => exact ih (h.edit e)

/-! What a table tells of its scopes -/

theorem Refines.lookup (h : t.Refines scopes) (name : String) :
    t.lookup name = (Scopes.innermost? scopes name).map Binding.symbol := by
  have hframes : List.Forall₂ Frame.Keeps t.frames scopes.reverse := by
    rw [← List.forall₂_reverse_iff, List.reverse_reverse]
    exact h
  rw [Table.lookup, Scopes.innermost?]
  generalize t.frames = frames at hframes
  generalize scopes.reverse = inward at hframes
  congr 1
  induction hframes with
  | nil => rfl
  | cons hkeeps _ ih => rw [List.findSome?_cons, List.findSome?_cons, hkeeps.latest, ih]

theorem Refines.declaredAt? (h : t.Refines scopes) (name : String) :
    t.declaredAt? name =
      (scopes.getLast?.bind (Scopes.latest? · name)).map Binding.location := by
  have hframes := List.forall₂_reverse_iff.mpr h
  have hinner : t.frames.head? = some t.innermost := by
    rw [frames, innermost]
    cases t.blocks <;> rfl
  rw [List.reverse_reverse] at hframes
  rw [Table.declaredAt?, List.getLast?_eq_head?_reverse]
  generalize t.frames = frames at hframes hinner
  generalize scopes.reverse = inward at hframes
  cases hframes with
  | nil => cases hinner
  | cons hkeeps _ =>
      cases hinner
      rw [hkeeps.latest]
      rfl

/-- Edits change neither the host nor the namespaces in use. -/
theorem external?_editAll (t : Table) (edits : List Edit) (name : String) :
    (t.editAll edits).external? name = t.external? name := by
  induction edits generalizing t with
  | nil => rfl
  | cons e edits ih =>
      have hedit : (t.edit e).external? name = t.external? name := by
        cases e with
        | openScope | closeScope | declareField _ _ | predeclare _ => rfl
        | declare symbol location =>
            rw [Table.edit, declare, updateInnermost]
            cases t.blocks <;> rfl
      exact (ih (t.edit e)).trans hedit

/-- After any edits of a new table a name means what was declared last under it in the innermost
open scope that declares it, and a member of the host only if none does. Its location in the
innermost scope is that of its last declaration there. Every frame keeps the entries in the order of
the first declarations of their names, and its index leads from each name that was declared to the
entry with that name, one to one. -/
theorem resolve_editAll (host : Host.Registry) (namespaces : List String) (edits : List Edit) :
    let new : Table := { host, namespaces }
    let t := new.editAll edits
    let scopes := Scopes.after edits
    (∀ name, t.resolve name =
      ((Scopes.innermost? scopes name).map Binding.symbol).or
        ((new.external? name).map Prod.snd)) ∧
    (∀ name, t.declaredAt? name =
      (scopes.getLast?.bind (Scopes.latest? · name)).map Binding.location) ∧
    List.Forall₂ Frame.Keeps t.frames.reverse scopes := by
  intro new t scopes
  have hnew : new.Refines [[], []] := .cons Frame.keeps_empty (.cons Frame.keeps_empty .nil)
  have ht : t.Refines scopes := hnew.editAll edits
  refine ⟨fun name => ?_, ht.declaredAt?, ht⟩
  rw [resolve, ht.lookup name, external?_editAll]

end Table
end OnePass

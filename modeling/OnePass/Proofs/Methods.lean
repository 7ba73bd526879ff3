import OnePass.Proofs.Derivation

/-!
The methods of code that is being written, by index. A request changes the open method or
adds one behind all others.
-/

namespace OnePass
namespace Code

variable (c : Code)

theorem getElem_zero : c.methods[0]? = some c.entry := by
  rw [methods, Array.append_assoc, Array.getElem?_append_left Nat.one_pos]
  rfl

theorem getElem_currentIndex : c.methods[c.currentIndex]? = some c.current := by
  cases hb : c.body with
  | none =>
      rw [currentIndex, current, hb]
      exact c.getElem_zero
  | some m => simp [methods, currentIndex, current, hb]

theorem size_methods_pos : 0 < c.methods.size :=
  Nat.zero_lt_of_lt (Array.getElem?_eq_some_iff.mp c.getElem_currentIndex).1

/-- A declared method that is open is the last one. -/
theorem size_methods_of_pos (h : 0 < c.currentIndex) : c.methods.size = c.currentIndex + 1 := by
  cases hb : c.body with
  | none => simp [currentIndex, hb] at h
  | some m =>
      simp [methods, currentIndex, hb]
      omega

theorem methods_updateCurrent (f : Method → Method) :
    (c.updateCurrent f).methods = c.methods.modify c.currentIndex f := by
  apply Array.ext_getElem?
  intro i
  rw [Array.getElem?_modify]
  cases i with
  | zero =>
      rw [getElem_zero, getElem_zero, updateCurrent, currentIndex]
      cases hb : c.body <;> simp
  | succ i =>
      cases hb : c.body with
      | none => simp [updateCurrent, hb, methods, currentIndex, Array.getElem?_append]
      | some m =>
          simp only [updateCurrent, hb, methods, currentIndex]
          by_cases hi : i = c.closed.size
          · simp [hi]
          · simp [Array.getElem?_append, Array.getElem?_push, hi, Ne.symm hi]

theorem getElem_updateCurrent {f : Method → Method} {index : Nat} {m : Method}
    (h : (c.updateCurrent f).methods[index]? = some m) :
    (index = c.currentIndex ∧ m = f c.current) ∨
      (index ≠ c.currentIndex ∧ c.methods[index]? = some m) := by
  rw [methods_updateCurrent, Array.getElem?_modify] at h
  by_cases hi : c.currentIndex = index
  · subst hi
    simp only [if_true, c.getElem_currentIndex, Option.map_some, Option.some.injEq] at h
    exact .inl ⟨rfl, h.symm⟩
  · exact .inr ⟨Ne.symm hi, by simpa [hi] using h⟩

theorem updateCurrent_getElem {f : Method → Method} {index : Nat} {m : Method}
    (h : c.methods[index]? = some m) :
    (index = c.currentIndex ∧ m = c.current ∧
        (c.updateCurrent f).methods[index]? = some (f c.current)) ∨
      (index ≠ c.currentIndex ∧ (c.updateCurrent f).methods[index]? = some m) := by
  rw [methods_updateCurrent, Array.getElem?_modify, h]
  by_cases hi : c.currentIndex = index
  · subst hi
    rw [c.getElem_currentIndex] at h
    cases h
    exact .inl ⟨rfl, rfl, by simp⟩
  · exact .inr ⟨Ne.symm hi, by simp [hi]⟩

@[simp] theorem currentIndex_updateCurrent (f : Method → Method) :
    (c.updateCurrent f).currentIndex = c.currentIndex := by
  unfold updateCurrent currentIndex
  cases c.body <;> simp

@[simp] theorem current_updateCurrent (f : Method → Method) :
    (c.updateCurrent f).current = f c.current := by
  unfold updateCurrent current
  cases c.body <;> simp

@[simp] theorem labels_updateCurrent (f : Method → Method) :
    (c.updateCurrent f).labels = c.labels := by
  unfold updateCurrent
  split <;> rfl

@[simp] theorem fields_updateCurrent (f : Method → Method) :
    (c.updateCurrent f).fields = c.fields := by
  unfold updateCurrent
  split <;> rfl

@[simp] theorem body_updateCurrent (f : Method → Method) :
    (c.updateCurrent f).body = c.body.map f := by
  unfold updateCurrent
  cases c.body <;> simp

theorem updateCurrent_updateCurrent (f g : Method → Method) :
    (c.updateCurrent f).updateCurrent g = c.updateCurrent fun m => g (f m) := by
  unfold updateCurrent
  cases c.body <;> simp

theorem updateCurrent_id : c.updateCurrent (fun m => m) = c := by
  unfold updateCurrent
  obtain ⟨fields, entry, closed, body, labels⟩ := c
  cases body <;> rfl

/-- Instructions go behind those of the open method. -/
theorem emitAll_eq (is : List Instr) :
    c.emitAll is = c.updateCurrent fun m => { m with code := m.code ++ is.toArray } := by
  induction is generalizing c with
  | nil => simpa [emitAll] using c.updateCurrent_id.symm
  | cons i is ih =>
      have := ih (c.emit i)
      rw [emitAll, List.foldl_cons]
      rw [emitAll] at this
      rw [this, emit, updateCurrent_updateCurrent]
      simp [Method.emit]

@[simp] theorem returnType_emitAll (is : List Instr) :
    (c.emitAll is).current.returnType = c.current.returnType := by
  simp [emitAll_eq]

@[simp] theorem isSome_body_emitAll (is : List Instr) :
    (c.emitAll is).body.isSome = c.body.isSome := by
  simp [emitAll_eq]

attribute [simp] perform

@[simp] theorem isSome_body_emit (i : Instr) : (c.emit i).body.isSome = c.body.isSome := by
  simp [emit]

@[simp] theorem isSome_body_openScope : c.openScope.body.isSome = c.body.isSome := by
  simp [openScope]

@[simp] theorem isSome_body_closeScope : c.closeScope.body.isSome = c.body.isSome := by
  simp [closeScope]

@[simp] theorem isSome_body_addLocal (name : String) (ty : Ty) :
    (c.addLocal name ty).body.isSome = c.body.isSome := by
  simp [addLocal]

@[simp] theorem body_newLabel : c.newLabel.body = c.body := rfl

@[simp] theorem body_markLabel (l : Label) : (c.markLabel l).body = c.body := rfl

theorem methods_closeMethod : c.closeMethod.methods = c.methods := by
  simp [closeMethod, methods]

/-- A new method is added behind all others. -/
theorem methods_addMethod (name : String) (returnType : Ty) :
    (c.addMethod name returnType).methods = c.methods.push { name, returnType } := by
  simp [addMethod, closeMethod, methods]

/-- The state of a new method is that of the last one. -/
theorem methods_addMethod_updateCurrent (name : String) (returnType : Ty) (f : Method → Method) :
    ((c.addMethod name returnType).updateCurrent f).methods =
      c.methods.push (f { name, returnType }) := by
  simp [addMethod, closeMethod, updateCurrent, methods]

theorem currentIndex_addMethod (name : String) (returnType : Ty) :
    (c.addMethod name returnType).currentIndex = c.methods.size := by
  simp [addMethod, closeMethod, methods, currentIndex]
  omega

section

variable {c} {d : Code} {index : Nat} {m m' : Method}

theorem eq_of_getElem_empty {entryName : String}
    (h : (empty entryName).methods[index]? = some m) :
    m = { name := entryName, returnType := .void } := by
  simpa [empty, methods] using Array.mem_of_getElem? h

theorem getElem_of_push (h : d.methods = c.methods.push m) (hm' : d.methods[index]? = some m') :
    c.methods[index]? = some m' ∨ m' = m := by
  rw [h, Array.getElem?_push] at hm'
  split at hm'
  · exact .inr (Option.some.inj hm').symm
  · exact .inl hm'

theorem getElem_push (h : d.methods = c.methods.push m) (hm' : c.methods[index]? = some m') :
    d.methods[index]? = some m' := by
  obtain ⟨hlt, hget⟩ := Array.getElem?_eq_some_iff.mp hm'
  rw [h, Array.getElem?_push_lt hlt, hget]

/-! Labels belong to the method in which they were made. -/

theorem belongsTo_newLabel {l : Label} {index : Nat} (h : c.belongsTo l index) :
    c.newLabel.belongsTo l index := by
  unfold belongsTo at h ⊢
  simp only [Code.newLabel, Array.getElem?_push]
  split
  · rename_i hi
    simp [hi] at h
  · exact h

theorem belongsTo_markLabel (l l' : Label) (index : Nat) :
    (c.markLabel l').belongsTo l index = c.belongsTo l index := by
  unfold belongsTo
  simp only [Code.markLabel, Array.getElem?_modify]
  split <;> cases c.labels[l.index]? <;> simp

end

theorem belongsTo_nextLabel : c.newLabel.belongsTo c.nextLabel c.newLabel.currentIndex := by
  simp only [belongsTo, newLabel, nextLabel, Array.getElem?_push_size, Option.any_some,
    beq_iff_eq]
  rfl

end Code

namespace Pass

variable {p q : Pass} {part : Part} {loop : Option LoopLabels}

theorem Writes.isSome_body {is : List Instr} (h : p.Writes is q) :
    q.code.body.isSome = p.code.body.isSome := by
  simp [h.code]

theorem stepwise_isSome_body : Stepwise fun p q => q.code.body.isSome = p.code.body.isSome where
  trans h h' := h'.trans h
  writes h _ := h.isSome_body
  perform p r hr := by
    cases r with
    | emit _ => simp
    | newLabel | markLabel _ => rfl
    | _ => exact hr.elim
  declared l _ _ _ := by simp [declareLocal]
  block h := by simpa [openBlock, closeBlock] using h

/-- Statements run inside of one method. -/
theorem Ran.isSome_body (h : Ran part loop p q) : q.code.body.isSome = p.code.body.isSome :=
  stepwise_isSome_body.ran h

end Pass
end OnePass

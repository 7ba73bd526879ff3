import Mathlib.Data.List.Induction
import OnePass.Proofs.Finishing

/-!
Code as requests leave it, in whatever order they are made. A label stays one of the method in
which it was made. Its marks are counted, and the first of them gives its target: the end of the
code of the method that is open then, which may be another one. Finishing does not see where a
label was marked.
-/

namespace OnePass
namespace Code

/-- The code after requests, one after another. -/
def performAll (c : Code) (rs : List Request) : Code :=
  rs.foldl perform c

variable {c : Code} {entryName : String} {rs before after : List Request} {r : Request}
  {l : Label} {s : LabelState} {index : Nat} {m : Method}

theorem performAll_append (c : Code) (rs rs' : List Request) :
    c.performAll (rs ++ rs') = (c.performAll rs).performAll rs' :=
  List.foldl_append

/-! One request -/

/-- No request takes a method away or shortens its code. -/
theorem perform_method (h : c.methods[index]? = some m) (r : Request) :
    ∃ m', (c.perform r).methods[index]? = some m' ∧ m.code.size ≤ m'.code.size := by
  have hupdate (f : Method → Method) (hf : ∀ m, m.code.size ≤ (f m).code.size) :
      ∃ m', (c.updateCurrent f).methods[index]? = some m' ∧ m.code.size ≤ m'.code.size := by
    obtain ⟨-, rfl, hm⟩ | ⟨-, hm⟩ := c.updateCurrent_getElem (f := f) h
    · exact ⟨_, hm, hf _⟩
    · exact ⟨m, hm, Nat.le_refl _⟩
  cases r with
  | emit i => exact hupdate _ fun m => by simp [Method.emit]
  | openScope | addParam _ _ _ | addLocal _ _ => exact hupdate _ fun m => Nat.le_refl _
  | closeScope =>
      refine hupdate _ fun m => ?_
      unfold Method.closeScope
      split <;> exact Nat.le_refl _
  | addField _ _ _ | newLabel | markLabel _ => exact ⟨m, h, Nat.le_refl _⟩
  | addMethod name returnType _ =>
      exact ⟨m, getElem_push (c.methods_addMethod name returnType) h, Nat.le_refl _⟩
  | closeMethod => exact ⟨m, by rwa [perform, methods_closeMethod], Nat.le_refl _⟩

/-- A mark changes its own label and no other; every other request leaves the labels as they
are. -/
theorem perform_label (h : c.labels[l.index]? = some s) (r : Request) :
    (c.perform r).labels[l.index]? = some (if r = .markLabel l then
      { s with marks := s.marks + 1, target := s.target.or (some c.current.code.size) }
      else s) := by
  have hlt := (Array.getElem?_eq_some_iff.mp h).1
  cases r with
  | newLabel => simpa [Code.newLabel, Array.getElem?_push, Nat.ne_of_lt hlt] using h
  | markLabel l' =>
      have heq : l' = l ↔ l'.index = l.index := ⟨congrArg Label.index, congrArg Label.mk⟩
      simp only [perform, Code.markLabel, Array.getElem?_modify, h, Option.map_some,
        Request.markLabel.injEq, heq]
      split <;> rfl
  | emit _ | openScope | closeScope | addParam _ _ _ | addLocal _ _ | addField _ _ _
  | addMethod _ _ _ | closeMethod =>
      simpa [Code.emit, Code.openScope, Code.closeScope, Code.addParam, Code.addLocal,
        Code.addField, Code.addMethod, Code.closeMethod] using h

/-- A label is there before a request, or the request makes it. -/
theorem label_of_perform (h : (c.perform r).labels[l.index]? = some s) :
    (∃ s', c.labels[l.index]? = some s') ∨ s = { method := c.currentIndex } := by
  by_cases hlt : l.index < c.labels.size
  · exact .inl ⟨_, Array.getElem?_eq_getElem hlt⟩
  · refine .inr ?_
    obtain ⟨hnew, h⟩ := Array.getElem?_eq_some_iff.mp h
    cases r with
    | newLabel =>
        have hlast : l.index = c.labels.size := by
          simp only [perform, Code.newLabel, Array.size_push] at hnew
          omega
        simpa [Code.newLabel, hlast] using h.symm
    | emit _ | openScope | closeScope | addParam _ _ _ | addLocal _ _ | addField _ _ _
    | addMethod _ _ _ | closeMethod | markLabel _ =>
        refine absurd ?_ hlt
        simpa [Code.emit, Code.openScope, Code.closeScope, Code.addParam, Code.addLocal,
          Code.addField, Code.addMethod, Code.closeMethod, Code.markLabel] using hnew

/-! A run of requests -/

theorem performAll_method (h : c.methods[index]? = some m) (rs : List Request) :
    ∃ m', (c.performAll rs).methods[index]? = some m' ∧ m.code.size ≤ m'.code.size := by
  induction rs generalizing c m with
  | nil => exact ⟨m, h, Nat.le_refl _⟩
  | cons r rs ih =>
      obtain ⟨m₁, h₁, hle₁⟩ := perform_method h r
      obtain ⟨m₂, h₂, hle₂⟩ := ih h₁
      exact ⟨m₂, h₂, Nat.le_trans hle₁ hle₂⟩

/-- A label keeps its method, and every mark since it was made is counted. -/
theorem performAll_label (h : c.labels[l.index]? = some s) (rs : List Request) :
    ∃ s', (c.performAll rs).labels[l.index]? = some s' ∧ s'.method = s.method ∧
      s'.marks = s.marks + rs.count (.markLabel l) := by
  induction rs generalizing c s with
  | nil => exact ⟨s, h, rfl, rfl⟩
  | cons r rs ih =>
      obtain ⟨s', h', hmethod, hmarks⟩ := ih (perform_label h r)
      refine ⟨s', h', ?_, ?_⟩
      · rw [hmethod]
        split <;> rfl
      · simp only [hmarks, List.count_cons, beq_iff_eq]
        split
        · exact Nat.add_right_comm _ _ _
        · rfl

/-- A label has a target as soon as it was marked: the end of the open method, where that
happened first. -/
theorem target_of_performAll (h : ((empty entryName).performAll rs).labels[l.index]? = some s) :
    s.marks = 0 ∧ s.target = none ∨
      ∃ before after, rs = before ++ .markLabel l :: after ∧
        l.index < ((empty entryName).performAll before).labels.size ∧
        s.target = some ((empty entryName).performAll before).current.code.size := by
  induction rs using List.reverseRecOn generalizing s with
  | nil => simp [performAll, empty] at h
  | append_singleton rs r ih =>
      rw [performAll_append] at h
      obtain ⟨s', hs'⟩ | rfl := label_of_perform h
      · have hstep := perform_label hs' r
        cases h.symm.trans hstep
        by_cases hr : r = .markLabel l
        · subst hr
          obtain ⟨-, htarget⟩ | ⟨before, after, rfl, hmade, htarget⟩ := ih hs'
          · refine .inr ⟨rs, [], rfl, (Array.getElem?_eq_some_iff.mp hs').1, ?_⟩
            simp [htarget]
          · exact .inr ⟨before, after ++ [.markLabel l], by simp, hmade, by simp [htarget]⟩
        · rw [if_neg hr]
          refine (ih hs').imp_right ?_
          rintro ⟨before, after, rfl, hmade, htarget⟩
          exact ⟨before, after ++ [r], by simp, hmade, htarget⟩
      · exact .inl ⟨rfl, rfl⟩

/-- A label that is marked once has no other mark since it was made. -/
theorem mark_unique {before' after' : List Request}
    (hs : (c.performAll rs).labels[l.index]? = some s) (hmarks : s.marks = 1)
    (h : rs = before ++ .markLabel l :: after)
    (hmade : l.index < (c.performAll before).labels.size)
    (h' : rs = before' ++ .markLabel l :: after')
    (hmade' : l.index < (c.performAll before').labels.size) : before' = before := by
  have hlast {before after : List Request} (h : rs = before ++ .markLabel l :: after)
      (hmade : l.index < (c.performAll before).labels.size) : .markLabel l ∉ after := by
    obtain ⟨s', hs', -, hcount⟩ := performAll_label (Array.getElem?_eq_getElem hmade)
      (.markLabel l :: after)
    rw [← performAll_append, ← h] at hs'
    cases hs.symm.trans hs'
    rw [List.count_cons_self] at hcount
    exact List.count_eq_zero.mp (by omega)
  have heq := h.symm.trans h'
  rcases List.append_eq_append_iff.mp heq with ⟨as, rfl, htail⟩ | ⟨as, rfl, htail⟩
  · cases as with
    | nil => simp
    | cons a as =>
        simp only [List.cons_append, List.cons.injEq] at htail
        exact absurd (by simp [htail.2]) (hlast h hmade)
  · cases as with
    | nil => simp
    | cons a as =>
        simp only [List.cons_append, List.cons.injEq] at htail
        exact absurd (by simp [htail.2]) (hlast h' hmade')

/-- Every branch of a finished module has a target, whatever was requested. It is where its
label was marked, which happened only once since it was made. The target lies in the code of the
method of the branch if that method was open then. -/
theorem branch_target_of_finish {out : Module}
    (h : ((empty entryName).performAll rs).finish = .ok out)
    (hm : out.methods[index]? = some m) (hl : l ∈ m.branchTargets) :
    ∃ before after, rs = before ++ .markLabel l :: after ∧
      let c := (empty entryName).performAll before
      c.belongsTo l index ∧ out.labelTarget? l = some c.current.code.size ∧
        (c.currentIndex = index → c.current.code.size ≤ m.code.size) ∧
        ∀ before' after', rs = before' ++ .markLabel l :: after' →
          l.index < ((empty entryName).performAll before').labels.size → before' = before := by
  obtain ⟨⟨hbody, -, hmarks, hbranches⟩, rfl⟩ := finish_eq_ok_iff.mp h
  rw [methods_module hbody] at hm
  have hbelongs := hbranches index m hm l hl
  obtain ⟨s, hs, hmethod⟩ : ∃ s, ((empty entryName).performAll rs).labels[l.index]? = some s ∧
      s.method = index := by
    simpa [belongsTo, Option.any_eq_true] using hbelongs
  have hmarked := hmarks s (Array.mem_of_getElem? hs)
  obtain ⟨hnone, -⟩ | ⟨before, after, hsplit, hmade, htarget⟩ := target_of_performAll hs
  · rw [hnone] at hmarked
    cases hmarked
  refine ⟨before, after, hsplit, ?_, ?_, ?_, ?_⟩
  · obtain ⟨s', hs', hmethod', -⟩ := performAll_label (Array.getElem?_eq_getElem hmade)
      (.markLabel l :: after)
    rw [← performAll_append, ← hsplit] at hs'
    cases hs.symm.trans hs'
    simp [belongsTo, Array.getElem?_eq_getElem hmade, ← hmethod', hmethod]
  · simp [Module.labelTarget?, hs, htarget]
  · -- the method is still there at the end, and no shorter
    rintro rfl
    obtain ⟨m', hm', hle⟩ := performAll_method (getElem_currentIndex _) (.markLabel l :: after)
    rw [← performAll_append, ← hsplit] at hm'
    cases hm.symm.trans hm'
    exact hle
  · exact fun before' after' => mark_unique hs hmarked hsplit hmade

/-- The requests of a loop in a method. -/
def loopRequests : List Request :=
  [.addMethod "f" .void [], .newLabel, .newLabel, .markLabel ⟨0⟩, .emit (.const (.bool true)),
    .emit (.branchFalse ⟨1⟩), .emit (.branch ⟨0⟩), .markLabel ⟨1⟩, .emit .ret, .closeMethod]

theorem branch_target_of_loop :
    ∃ out m, ((empty "main").performAll loopRequests).finish = .ok out ∧
      out.methods[1]? = some m ∧ m.branchTargets = [⟨1⟩, ⟨0⟩] ∧
      ∃ before after, loopRequests = before ++ .markLabel ⟨1⟩ :: after ∧
        let c := (empty "main").performAll before
        c.belongsTo ⟨1⟩ 1 ∧ out.labelTarget? ⟨1⟩ = some c.current.code.size ∧
          (c.currentIndex = 1 → c.current.code.size ≤ m.code.size) ∧
          ∀ before' after', loopRequests = before' ++ .markLabel ⟨1⟩ :: after' →
            1 < ((empty "main").performAll before').labels.size → before' = before :=
  ⟨_, _, rfl, rfl, rfl, branch_target_of_finish rfl rfl (by decide)⟩

/-- The requests of a branch in the entry method whose label is marked in another one. -/
def strayRequests : List Request :=
  [.newLabel, .emit (.branch ⟨0⟩), .addMethod "f" .void [], .emit .pop, .emit .pop,
    .markLabel ⟨0⟩, .closeMethod]

/-- A module with a branch behind the end of its method: the label was marked elsewhere. -/
theorem branch_target_of_stray :
    ∃ out, ((empty "main").performAll strayRequests).finish = .ok out ∧
      ⟨0⟩ ∈ out.entry.branchTargets ∧ out.labelTarget? ⟨0⟩ = some 2 ∧
      ¬ 2 ≤ out.entry.code.size :=
  ⟨_, rfl, by decide, rfl, by decide⟩

end Code
end OnePass

import OnePass.Proofs.Requests

/-!
Which requests make up a module. A method is what the requests make of it that come while it is
open, so whether the code can be finished is seen from the requests alone: from the methods that
are opened and closed, the scopes within each of them, the marks behind the making of a label, and
the labels that are made while the method of a branch is open.
-/

namespace OnePass

/-! What requests say by themselves -/

namespace Code

def Request.opensMethod : Request → Bool
  | .addMethod _ _ _ => true
  | _ => false

/-- The method that is open after requests, by its number among those that were opened. It is
the entry method, with the number zero, if the last one was closed or none was opened. -/
def openAfter (rs : List Request) : Nat :=
  match rs.reverse.find? fun r => r.opensMethod || r == .closeMethod with
  | some (.addMethod _ _ _) => rs.countP Request.opensMethod
  | _ => 0

/-- The requests that are made while a method is open. -/
def during (index : Nat) (rs : List Request) : List Request :=
  (rs.zipIdx.filter fun x => openAfter (rs.take x.2) = index).map Prod.fst

/-- The label that is made by the request behind these. -/
def labelAfter (rs : List Request) : Label :=
  ⟨rs.count .newLabel⟩

/-- Requests that make up a module. -/
structure Complete (rs : List Request) : Prop where
  /-- No method is opened behind the last request that closes one. -/
  closed : ∀ part, part <:+ rs → .closeMethod ∉ part → ∀ r ∈ part, r.opensMethod = false
  /-- At no time were more scopes of a method closed than opened. -/
  nested : ∀ index part, part <+: during index rs →
    part.count .closeScope ≤ part.count .openScope
  balanced : ∀ index,
    (during index rs).count .closeScope = (during index rs).count .openScope
  /-- A label is marked once after it was made; earlier marks do not count. -/
  marked : ∀ before after, rs = before ++ .newLabel :: after →
    after.count (.markLabel (labelAfter before)) = 1
  /-- The label of a branch is made while the method of the branch is open, before or after. -/
  branches : ∀ index l, .emit (.branch l) ∈ during index rs ∨
      .emit (.branchFalse l) ∈ during index rs →
    ∃ before after, rs = before ++ .newLabel :: after ∧ labelAfter before = l ∧
      openAfter before = index

variable {entryName : String} {rs before after : List Request} {r : Request} {index : Nat}
  {l : Label}

theorem openAfter_concat (rs : List Request) (r : Request) :
    openAfter (rs ++ [r]) =
      match r with
      | .addMethod _ _ _ => rs.countP Request.opensMethod + 1
      | .closeMethod => 0
      | _ => openAfter rs := by
  cases r <;> simp [openAfter, Request.opensMethod, List.countP_append]

theorem openAfter_le (rs : List Request) : openAfter rs ≤ rs.countP Request.opensMethod := by
  unfold openAfter
  split
  · exact Nat.le_refl _
  · exact Nat.zero_le _

theorem openAfter_eq_zero_iff :
    openAfter rs = 0 ↔
      ∀ part, part <:+ rs → .closeMethod ∉ part → ∀ r ∈ part, r.opensMethod = false := by
  induction rs using List.reverseRecOn with
  | nil => simp [openAfter]
  | append_singleton rs r ih =>
      rw [openAfter_concat]
      simp only [List.suffix_concat_iff]
      cases r with
      | addMethod name ty params =>
          refine iff_of_false (Nat.succ_ne_zero _) fun h => ?_
          have hopens := h [.addMethod name ty params] (.inr ⟨[], rfl, List.nil_suffix⟩)
          simp [Request.opensMethod] at hopens
      | closeMethod =>
          refine iff_of_true rfl ?_
          rintro part (rfl | ⟨part, rfl, -⟩) hclose
          · simp
          · simp at hclose
      | _ =>
          refine ih.trans ⟨?_, fun h part hpart hclose r hr => ?_⟩
          · rintro h part (rfl | ⟨part, rfl, hpart⟩) hclose
            · simp
            · have hpart := h part hpart (by simpa using hclose)
              simpa [Request.opensMethod, or_imp, forall_and] using hpart
          · exact h (part ++ [_]) (.inr ⟨part, rfl, hpart⟩) (by simpa using hclose) r (by simp [hr])

theorem during_concat (index : Nat) (rs : List Request) (r : Request) :
    during index (rs ++ [r]) =
      during index rs ++ if openAfter rs = index then [r] else [] := by
  have hkeep : rs.zipIdx.filter (fun x => openAfter ((rs ++ [r]).take x.2) = index) =
      rs.zipIdx.filter fun x => openAfter (rs.take x.2) = index := by
    refine List.filter_congr fun x hx => ?_
    rw [List.take_append_of_le_length (Nat.le_of_lt (List.snd_lt_of_mem_zipIdx hx))]
  unfold during
  rw [List.zipIdx_append, List.filter_append, hkeep, List.map_append]
  congr 1
  split <;> simp [*]

/-- While a method has not been opened no request is made to it. -/
theorem during_eq_nil (h : rs.countP Request.opensMethod < index) : during index rs = [] := by
  induction rs using List.reverseRecOn with
  | nil => rfl
  | append_singleton rs r ih =>
      rw [List.countP_append] at h
      have hopen := openAfter_le rs
      rw [during_concat, ih (by omega), if_neg (by omega)]
      rfl

end Code

/-! One method -/

namespace Method

open Code (Request)

/-- What a request does to the method that is open. -/
def perform (m : Method) : Request → Method
  | .emit i => m.emit i
  | .openScope => m.openScope
  | .closeScope => m.closeScope
  | .addParam name ordinal ty => m.addParam name ordinal ty
  | .addLocal name ty => m.addLocal name ty
  | _ => m

variable {m : Method} {name : String} {returnType : Ty} {rs : List Request}

theorem scopes_perform {opened closed : Nat}
    (h : m.underflow = false → m.depth + closed = opened) (r : Request) :
    ((m.perform r).underflow = false ↔
      closed + [r].count .closeScope ≤ opened + [r].count .openScope ∧ m.underflow = false) ∧
    ((m.perform r).underflow = false →
      (m.perform r).depth + (closed + [r].count .closeScope) =
        opened + [r].count .openScope) := by
  cases r with
  | closeScope =>
      have hcount : [Request.closeScope].count .openScope = 0 := rfl
      rw [List.count_singleton_self, hcount, perform, closeScope]
      split
      · exact ⟨by grind, by simp⟩
      · grind
  | openScope =>
      have hcount : [Request.openScope].count .closeScope = 0 := rfl
      rw [List.count_singleton_self, hcount]
      grind [perform, openScope]
  | _ => grind [perform, emit, addParam, addLocal]

/-- As long as no scope was closed that was not open, the number of open ones is the difference of
the requests. -/
theorem scopes_foldl_perform (name : String) (returnType : Ty) (rs : List Request) :
    let m := rs.foldl perform { name, returnType }
    (m.underflow = false ↔
      ∀ part, part <+: rs → part.count .closeScope ≤ part.count .openScope) ∧
    (m.underflow = false → m.depth + rs.count .closeScope = rs.count .openScope) := by
  induction rs using List.reverseRecOn with
  | nil => simp
  | append_singleton rs r ih =>
      obtain ⟨hunderflow, hdepth⟩ := ih
      have hstep := scopes_perform hdepth r
      simp only [List.foldl_append, List.foldl_cons, List.foldl_nil, List.prefix_concat_iff,
        forall_eq_or_imp, ← hunderflow, List.count_append]
      exact hstep

theorem isBalanced_foldl_perform :
    (rs.foldl perform { name, returnType }).isBalanced ↔
      (∀ part, part <+: rs → part.count .closeScope ≤ part.count .openScope) ∧
        rs.count .closeScope = rs.count .openScope := by
  obtain ⟨hunderflow, hdepth⟩ := scopes_foldl_perform name returnType rs
  rw [← hunderflow, isBalanced, Bool.and_eq_true, beq_iff_eq, Bool.not_eq_true', and_comm]
  refine and_congr_right fun h => ?_
  have hcount := hdepth h
  omega

theorem mem_code_foldl_perform {i : Instr} :
    i ∈ (rs.foldl perform { name, returnType }).code ↔ .emit i ∈ rs := by
  induction rs using List.reverseRecOn with
  | nil => simp
  | append_singleton rs r ih =>
      rw [List.foldl_append, List.foldl_cons, List.foldl_nil, List.mem_append, ← ih]
      cases r with
      | closeScope =>
          simp only [perform, closeScope]
          split <;> simp
      | _ => simp [perform, emit, addParam, addLocal, openScope]

theorem mem_branchTargets_foldl_perform {l : Label} :
    l ∈ (rs.foldl perform { name, returnType }).branchTargets ↔
      .emit (.branch l) ∈ rs ∨ .emit (.branchFalse l) ∈ rs := by
  rw [branchTargets, List.mem_filterMap]
  constructor
  · rintro ⟨i, hi, hl⟩
    have hemit := mem_code_foldl_perform.mp (Array.mem_toList_iff.mp hi)
    cases i with
    | branch label =>
        cases hl
        exact .inl hemit
    | branchFalse label =>
        cases hl
        exact .inr hemit
    | _ => cases hl
  · rintro (h | h)
    · exact ⟨.branch l, (mem_code_foldl_perform.mpr h).val, rfl⟩
    · exact ⟨.branchFalse l, (mem_code_foldl_perform.mpr h).val, rfl⟩

end Method

/-! All methods -/

namespace Code

variable {c : Code} {entryName : String} {rs before after : List Request} {r : Request}
  {index : Nat} {l : Label} {m : Method}

theorem methods_perform (h : r.opensMethod = false) :
    (c.perform r).methods = c.methods.modify c.currentIndex (·.perform r) := by
  have hkeep : c.methods = c.methods.modify c.currentIndex fun m => m := by
    rw [← methods_updateCurrent, updateCurrent_id]
  cases r with
  | addMethod _ _ _ => cases h
  | closeMethod => exact c.methods_closeMethod.trans hkeep
  | addField _ _ _ | newLabel | markLabel _ => exact hkeep
  | _ => exact c.methods_updateCurrent _

theorem performAll_concat (c : Code) (rs : List Request) (r : Request) :
    c.performAll (rs ++ [r]) = (c.performAll rs).perform r :=
  c.performAll_append rs [r]

theorem size_methods_performAll (entryName : String) (rs : List Request) :
    ((empty entryName).performAll rs).methods.size = rs.countP Request.opensMethod + 1 := by
  induction rs using List.reverseRecOn with
  | nil => rfl
  | append_singleton rs r ih =>
      rw [performAll_concat, List.countP_append, List.countP_singleton]
      cases r with
      | addMethod name returnType params =>
          rw [perform, methods_addMethod, Array.size_push, ih]
          rfl
      | _ =>
          rw [methods_perform rfl, Array.size_modify, ih]
          rfl

theorem currentIndex_performAll (entryName : String) (rs : List Request) :
    ((empty entryName).performAll rs).currentIndex = openAfter rs := by
  induction rs using List.reverseRecOn with
  | nil => rfl
  | append_singleton rs r ih =>
      rw [performAll_concat, openAfter_concat]
      cases r with
      | addMethod name returnType params =>
          exact (currentIndex_addMethod _ name returnType).trans
            (size_methods_performAll entryName rs)
      | closeMethod => rfl
      | addField _ _ _ | newLabel | markLabel _ => exact ih
      | _ => exact (currentIndex_updateCurrent _ _).trans ih

/-- A method is what the requests make of it that come while it is open. -/
theorem getElem_performAll (h : ((empty entryName).performAll rs).methods[index]? = some m) :
    ∃ name returnType, m = (during index rs).foldl Method.perform { name, returnType } := by
  induction rs using List.reverseRecOn generalizing m with
  | nil => exact ⟨entryName, .void, eq_of_getElem_empty h⟩
  | append_singleton rs r ih =>
      have hindex := currentIndex_performAll entryName rs
      have hsize := size_methods_performAll entryName rs
      rw [performAll_concat] at h
      simp only [during_concat, List.foldl_append]
      cases r with
      | addMethod name returnType params =>
          rw [perform, methods_addMethod, Array.getElem?_push] at h
          split at h
          -- no request was made to the new method yet
          · rename_i hnew
            cases h
            have hopen := openAfter_le rs
            rw [during_eq_nil (by omega), if_neg (by omega)]
            exact ⟨name, returnType, rfl⟩
          · obtain ⟨name', returnType', rfl⟩ := ih h
            refine ⟨name', returnType', ?_⟩
            split <;> rfl
      | _ =>
          rw [methods_perform rfl, Array.getElem?_modify, hindex] at h
          split at h
          · rename_i hopen
            obtain ⟨m', hm', rfl⟩ := Option.map_eq_some_iff.mp h
            obtain ⟨name, returnType, rfl⟩ := ih hm'
            exact ⟨name, returnType, by rw [if_pos hopen]; rfl⟩
          · rename_i hopen
            obtain ⟨name, returnType, rfl⟩ := ih h
            exact ⟨name, returnType, by rw [if_neg hopen]; rfl⟩

theorem getElem_of_during (h : r ∈ during index rs) :
    ∃ m, ((empty entryName).performAll rs).methods[index]? = some m := by
  refine ⟨_, Array.getElem?_eq_getElem ?_⟩
  rw [size_methods_performAll]
  by_contra hlt
  rw [during_eq_nil (by omega)] at h
  cases h

theorem body_performAll_eq_none_iff :
    ((empty entryName).performAll rs).body = none ↔
      ∀ part, part <:+ rs → .closeMethod ∉ part → ∀ r ∈ part, r.opensMethod = false := by
  rw [← openAfter_eq_zero_iff, ← currentIndex_performAll entryName, currentIndex]
  cases ((empty entryName).performAll rs).body <;> simp

/-! Labels -/

theorem exists_split_of_lt_count {n : Nat} (h : n < rs.count r) :
    ∃ before after, rs = before ++ r :: after ∧ before.count r = n := by
  induction rs generalizing n with
  | nil => simp at h
  | cons r' rs ih =>
      by_cases hr : r' = r
      · subst hr
        cases n with
        | zero => exact ⟨[], rs, rfl, rfl⟩
        | succ n =>
            obtain ⟨before, after, rfl, hn⟩ := ih (n := n) (by simpa using h)
            exact ⟨r' :: before, after, rfl, by simp [hn]⟩
      · obtain ⟨before, after, rfl, hn⟩ := ih (n := n) (by simpa [hr] using h)
        exact ⟨r' :: before, after, rfl, by simp [hr, hn]⟩

theorem nextLabel_performAll (entryName : String) (rs : List Request) :
    ((empty entryName).performAll rs).nextLabel = labelAfter rs := by
  induction rs using List.reverseRecOn with
  | nil => rfl
  | append_singleton rs r ih =>
      have hcount : ((empty entryName).performAll rs).labels.size = rs.count .newLabel :=
        congrArg Label.index ih
      rw [performAll_concat, labelAfter, List.count_append]
      cases r with
      | newLabel => simpa [nextLabel, newLabel] using hcount
      | _ =>
          simpa [nextLabel, emit, openScope, closeScope, addParam, addLocal, addField, addMethod,
            closeMethod, markLabel] using hcount

/-- A label that was made belongs to the method that was open, and has the marks since then. -/
theorem label_of_made (entryName : String) (h : rs = before ++ .newLabel :: after) :
    ∃ s, ((empty entryName).performAll rs).labels[(labelAfter before).index]? = some s ∧
      s.method = openAfter before ∧ s.marks = after.count (.markLabel (labelAfter before)) := by
  have hsplit : rs = (before ++ [.newLabel]) ++ after := by rw [h, List.append_assoc]; rfl
  rw [hsplit, performAll_append, performAll_concat]
  have hlabel := nextLabel_performAll entryName before
  have hindex := currentIndex_performAll entryName before
  have hmade : (((empty entryName).performAll before).perform .newLabel).labels[
      (labelAfter before).index]? = some { method := openAfter before } := by
    rw [← hlabel, ← hindex, perform, newLabel, nextLabel, Array.getElem?_push_size]
  obtain ⟨s, hs, hmethod, hmarks⟩ := performAll_label hmade after
  exact ⟨s, hs, hmethod, hmarks.trans (Nat.zero_add _)⟩

theorem made_of_label {s : LabelState}
    (h : ((empty entryName).performAll rs).labels[l.index]? = some s) :
    ∃ before after, rs = before ++ .newLabel :: after ∧ labelAfter before = l := by
  have hsize : ((empty entryName).performAll rs).labels.size = rs.count .newLabel :=
    congrArg Label.index (nextLabel_performAll entryName rs)
  have hlt : l.index < rs.count .newLabel := hsize ▸ (Array.getElem?_eq_some_iff.mp h).1
  obtain ⟨before, after, rfl, hcount⟩ := exists_split_of_lt_count hlt
  exact ⟨before, after, rfl, congrArg Label.mk hcount⟩

theorem belongsTo_performAll_iff :
    ((empty entryName).performAll rs).belongsTo l index ↔
      ∃ before after, rs = before ++ .newLabel :: after ∧ labelAfter before = l ∧
        openAfter before = index := by
  unfold belongsTo
  rw [Option.any_eq_true]
  constructor
  · rintro ⟨s, hs, hmethod⟩
    obtain ⟨before, after, hrs, rfl⟩ := made_of_label hs
    obtain ⟨s', hs', hmethod', -⟩ := label_of_made entryName hrs
    cases hs.symm.trans hs'
    exact ⟨before, after, hrs, rfl, hmethod'.symm.trans (beq_iff_eq.mp hmethod)⟩
  · rintro ⟨before, after, hrs, rfl, rfl⟩
    obtain ⟨s, hs, hmethod, -⟩ := label_of_made entryName hrs
    exact ⟨s, hs, beq_iff_eq.mpr hmethod⟩

theorem forall_marks_performAll_iff :
    (∀ s ∈ ((empty entryName).performAll rs).labels, s.marks = 1) ↔
      ∀ before after, rs = before ++ .newLabel :: after →
        after.count (.markLabel (labelAfter before)) = 1 := by
  constructor
  · intro h before after hrs
    obtain ⟨s, hs, -, hmarks⟩ := label_of_made entryName hrs
    rw [← hmarks]
    exact h s (Array.mem_of_getElem? hs)
  · intro h s hs
    obtain ⟨n, hn⟩ := Array.mem_iff_getElem?.mp hs
    obtain ⟨before, after, hrs, hl⟩ := made_of_label (l := ⟨n⟩) hn
    obtain ⟨s', hs', -, hmarks⟩ := label_of_made entryName hrs
    rw [hl] at hs'
    cases hn.symm.trans hs'
    exact hmarks.trans (h before after hrs)

/-! Finishing -/

theorem forall_isBalanced_performAll_iff :
    (∀ m ∈ ((empty entryName).performAll rs).methods, m.isBalanced) ↔
      ∀ index, (∀ part, part <+: during index rs →
          part.count .closeScope ≤ part.count .openScope) ∧
        (during index rs).count .closeScope = (during index rs).count .openScope := by
  constructor
  · intro h index
    cases hm : ((empty entryName).performAll rs).methods[index]? with
    | some m =>
        have hbalanced := h m (Array.mem_of_getElem? hm)
        obtain ⟨name, returnType, rfl⟩ := getElem_performAll hm
        exact Method.isBalanced_foldl_perform.mp hbalanced
    | none =>
        have hsize := Array.getElem?_eq_none_iff.mp hm
        rw [size_methods_performAll] at hsize
        simp [during_eq_nil hsize]
  · intro h m hm
    obtain ⟨index, hm⟩ := Array.mem_iff_getElem?.mp hm
    obtain ⟨name, returnType, rfl⟩ := getElem_performAll hm
    exact Method.isBalanced_foldl_perform.mpr (h index)

theorem forall_branches_performAll_iff :
    (∀ index m, ((empty entryName).performAll rs).methods[index]? = some m →
        ∀ l ∈ m.branchTargets, ((empty entryName).performAll rs).belongsTo l index) ↔
      ∀ index l, .emit (.branch l) ∈ during index rs ∨ .emit (.branchFalse l) ∈ during index rs →
        ∃ before after, rs = before ++ .newLabel :: after ∧ labelAfter before = l ∧
          openAfter before = index := by
  constructor
  · intro h index l hl
    obtain ⟨m, hm⟩ : ∃ m, ((empty entryName).performAll rs).methods[index]? = some m :=
      hl.elim getElem_of_during getElem_of_during
    obtain ⟨name, returnType, rfl⟩ := getElem_performAll hm
    exact belongsTo_performAll_iff.mp
      (h index _ hm l (Method.mem_branchTargets_foldl_perform.mpr hl))
  · intro h index m hm l hl
    obtain ⟨name, returnType, rfl⟩ := getElem_performAll hm
    exact belongsTo_performAll_iff.mpr
      (h index l (Method.mem_branchTargets_foldl_perform.mp hl))

/-- Code can be finished if and only if its requests make up a module. The methods and labels that
requests name are those of the code after them. -/
theorem finish_ok_iff_complete (entryName : String) (rs : List Request) :
    (∀ before, ((empty entryName).performAll before).currentIndex = openAfter before ∧
      ((empty entryName).performAll before).nextLabel = labelAfter before) ∧
    ((∃ m, ((empty entryName).performAll rs).finish = .ok m) ↔ Complete rs) := by
  refine ⟨fun before => ⟨currentIndex_performAll _ _, nextLabel_performAll _ _⟩, ?_⟩
  simp only [finish_eq_ok_iff, exists_and_left, exists_eq, and_true, body_performAll_eq_none_iff,
    forall_isBalanced_performAll_iff, forall_marks_performAll_iff, forall_branches_performAll_iff]
  constructor
  · rintro ⟨hclosed, hscopes, hmarked, hbranches⟩
    exact ⟨hclosed, fun index => (hscopes index).1, fun index => (hscopes index).2, hmarked,
      hbranches⟩
  · intro h
    exact ⟨h.closed, fun index => ⟨h.nested index, h.balanced index⟩, h.marked, h.branches⟩

end Code
end OnePass

import OnePass.Proofs.Finishing
import OnePass.Proofs.Invariants

/-!
Modules are safe for a stack machine. Along the code of a compilation without errors, types can
be given to the stack in front of every instruction such that each instruction finds its
operands, and such that the stack is empty at the beginning and at the end of every method and
wherever a branch can lead.
-/

namespace OnePass
namespace Code

open Instr (Effect Effects)

/-! Types for the stack -/

/-- Types for the stack in front of every instruction of every method. The labels that are
`owned` are of the open method, and `s` is the stack behind its code. -/
structure Fits (host : Host.Registry) (stack : Nat → Nat → List Ty) (owned : Label → Prop)
    (s : List Ty) (c : Code) : Prop where
  proper : c.Proper
  owned : ∀ l, owned l → c.belongsTo l c.currentIndex
  start : ∀ index, stack index 0 = []
  step : ∀ (index : Nat) (m : Method), c.methods[index]? = some m →
    ∀ (pc : Nat) (i : Instr), m.code[pc]? = some i →
      i.Effect c host m (stack index pc) (stack index (pc + 1))
  finish : ∀ (index : Nat) (m : Method), c.methods[index]? = some m →
    stack index m.code.size = if index = c.currentIndex then s else []
  targets : ∀ l ∈ c.labels, ∀ pc, l.target = some pc → stack l.method pc = [] ∧
    ∃ m, c.methods[l.method]? = some m ∧ pc ≤ m.code.size

/-- The stack behind the code of the open method. -/
def Stacked (host : Host.Registry) (owned : Label → Prop) (s : List Ty) (c : Code) : Prop :=
  ∃ stack, c.Fits host stack owned s

namespace Stacked

variable {c d : Code} {host : Host.Registry} {owned owned' : Label → Prop} {s s' : List Ty}

theorem proper (h : c.Stacked host owned s) : c.Proper := by
  obtain ⟨_, h⟩ := h
  exact h.proper

theorem mono (h : c.Stacked host owned s) (howned : ∀ l, owned' l → owned l) :
    c.Stacked host owned' s := by
  obtain ⟨stack, h⟩ := h
  exact ⟨stack, h.proper, fun l hl => h.owned l (howned l hl), h.start, h.step, h.finish,
    h.targets⟩

theorem emit {i : Instr} (h : c.Stacked host owned s) (hi : i.Effect c host c.current s s') :
    (c.emit i).Stacked host owned s' := by
  obtain ⟨stack, h⟩ := h
  have hext := Method.Extends.emit c.current i
  have hgrows := Extends.emit c i
  have hfinish : stack c.currentIndex c.current.code.size = s := by
    simpa using h.finish _ _ c.getElem_currentIndex
  -- only the stack behind the new instruction is new
  let stack' (index pc : Nat) : List Ty :=
    if index = c.currentIndex ∧ pc = c.current.code.size + 1 then s' else stack index pc
  have hold {index pc : Nat} (hpc : index = c.currentIndex → pc ≤ c.current.code.size) :
      stack' index pc = stack index pc := by
    refine if_neg fun hnew => ?_
    have := hpc hnew.1
    omega
  refine ⟨stack', h.proper.emit i, ?_, ?_, ?_, ?_, ?_⟩
  · intro l hl
    simpa [Code.emit, belongsTo] using h.owned l hl
  · exact fun index => (hold fun _ => Nat.zero_le _).trans (h.start index)
  · intro index m hm pc i' hi'
    obtain ⟨rfl, rfl⟩ | ⟨hne, hm⟩ := c.getElem_updateCurrent hm
    · simp only [Method.emit, Array.getElem?_push] at hi'
      split at hi'
      · rename_i hpc
        cases hi'
        subst hpc
        rw [hold fun _ => Nat.le_refl _, hfinish]
        simpa [stack'] using hi.mono hgrows hext
      · obtain ⟨hlt, -⟩ := Array.getElem?_eq_some_iff.mp hi'
        rw [hold fun _ => Nat.le_of_lt hlt, hold fun _ => hlt]
        exact (h.step _ _ c.getElem_currentIndex pc i' hi').mono hgrows hext
    · rw [hold fun heq => absurd heq hne, hold fun heq => absurd heq hne]
      exact (h.step index m hm pc i' hi').mono hgrows (.refl m)
  · intro index m hm
    rw [Code.emit, currentIndex_updateCurrent]
    obtain ⟨rfl, rfl⟩ | ⟨hne, hm⟩ := c.getElem_updateCurrent hm
    · simp [stack', Method.emit]
    · rw [hold fun heq => absurd heq hne, h.finish index m hm, if_neg hne, if_neg hne]
  · intro l hl pc hpc
    obtain ⟨hempty, m, hm, hle⟩ := h.targets l (by simpa [Code.emit] using hl) pc hpc
    obtain ⟨hcurrent, rfl, hm'⟩ | ⟨hne, hm'⟩ := c.updateCurrent_getElem (f := (·.emit i)) hm
    · refine ⟨by rw [hold fun _ => hle, hempty], _, hm', ?_⟩
      simp only [Method.emit, Array.size_push]
      omega
    · exact ⟨by rw [hold fun heq => absurd heq hne, hempty], m, hm', hle⟩

theorem emitAll {is : List Instr} (h : c.Stacked host owned s)
    (his : Effects c host c.current is s s') : (c.emitAll is).Stacked host owned s' := by
  induction is generalizing c s with
  | nil =>
      cases his
      exact h
  | cons i is ih =>
      obtain ⟨u, hi, his⟩ := his
      refine ih (h.emit hi) (his.mono (.emit c i) ?_)
      rw [Code.emit, current_updateCurrent]
      exact .emit c.current i

/-- The open method changes, but not in its code. -/
theorem update {f : Method → Method} (h : c.Stacked host owned s)
    (hext : c.current.Extends (f c.current)) (hcode : (f c.current).code = c.current.code)
    (hproper : (c.updateCurrent f).Proper) : (c.updateCurrent f).Stacked host owned s := by
  obtain ⟨stack, h⟩ := h
  have hgrows := Extends.update hext
  refine ⟨stack, hproper, by simpa [belongsTo] using h.owned, h.start, ?_, ?_, ?_⟩
  · intro index m hm pc i hi
    obtain ⟨rfl, rfl⟩ | ⟨-, hm⟩ := c.getElem_updateCurrent hm
    · rw [hcode] at hi
      exact (h.step _ _ c.getElem_currentIndex pc i hi).mono hgrows hext
    · exact (h.step index m hm pc i hi).mono hgrows (.refl m)
  · intro index m hm
    rw [currentIndex_updateCurrent]
    obtain ⟨rfl, rfl⟩ | ⟨-, hm⟩ := c.getElem_updateCurrent hm
    · rw [hcode]
      exact h.finish _ _ c.getElem_currentIndex
    · exact h.finish index m hm
  · intro l hl pc hpc
    obtain ⟨hempty, m, hm, hle⟩ := h.targets l (by simpa using hl) pc hpc
    obtain ⟨-, rfl, hm'⟩ | ⟨-, hm'⟩ := c.updateCurrent_getElem (f := f) hm
    · exact ⟨hempty, _, hm', hcode ▸ hle⟩
    · exact ⟨hempty, m, hm', hle⟩

theorem newLabel (h : c.Stacked host owned s) :
    c.newLabel.Stacked host (fun l => owned l ∨ l = c.nextLabel) s := by
  obtain ⟨stack, h⟩ := h
  have hext : c.Extends c.newLabel := .of_methods rfl rfl
  refine ⟨stack, h.proper.of_methods rfl rfl, ?_, h.start, ?_, h.finish, ?_⟩
  · rintro l (hl | rfl)
    · exact belongsTo_newLabel (h.owned l hl)
    · exact c.belongsTo_nextLabel
  · exact fun index m hm pc i hi => (h.step index m hm pc i hi).mono hext (.refl m)
  · simp only [Code.newLabel, Array.mem_push]
    rintro l (hl | rfl) pc hpc
    · exact h.targets l hl pc hpc
    · cases hpc

/-- A label of the open method is marked where the stack is empty. -/
theorem markLabel {l : Label} (h : c.Stacked host owned []) (hl : owned l) :
    (c.markLabel l).Stacked host owned [] := by
  obtain ⟨stack, h⟩ := h
  have hext : c.Extends (c.markLabel l) := .of_methods rfl rfl
  have hbelongs := h.owned l hl
  refine ⟨stack, h.proper.of_methods rfl rfl, ?_, h.start, ?_, h.finish, ?_⟩
  · intro l' hl'
    rw [belongsTo_markLabel]
    exact h.owned l' hl'
  · exact fun index m hm pc i hi => (h.step index m hm pc i hi).mono hext (.refl m)
  · intro state hstate pc hpc
    obtain ⟨index, hindex⟩ := Array.mem_iff_getElem?.mp hstate
    simp only [Code.markLabel, Array.getElem?_modify] at hindex
    split at hindex
    · rename_i heq
      obtain ⟨old, hold, rfl⟩ := Option.map_eq_some_iff.mp hindex
      rcases Option.or_eq_some_iff.mp hpc with hpc | ⟨-, hpc⟩
      · exact h.targets old (Array.mem_of_getElem? hold) pc hpc
      · cases hpc
        simp only [belongsTo, heq, hold, Option.any_some, beq_iff_eq] at hbelongs
        have hfinish := h.finish _ _ c.getElem_currentIndex
        rw [if_pos rfl] at hfinish
        simp only [hbelongs]
        exact ⟨hfinish, c.current, c.getElem_currentIndex, Nat.le_refl _⟩
    · exact h.targets state (Array.mem_of_getElem? hindex) pc hpc

/-- Another method may be opened where the stack is empty. -/
theorem turn (h : c.Stacked host owned []) (hext : c.Extends d) (hproper : d.Proper)
    (hmethods : ∀ (index : Nat) (m : Method), d.methods[index]? = some m →
      c.methods[index]? = some m ∨ m.code = #[]) (hlabels : d.labels = c.labels) :
    d.Stacked host (fun _ => False) [] := by
  obtain ⟨stack, h⟩ := h
  refine ⟨stack, hproper, fun _ => False.elim, h.start, ?_, ?_, ?_⟩
  · intro index m hm pc i hi
    rcases hmethods index m hm with hm | hcode
    · exact (h.step index m hm pc i hi).mono hext (.refl m)
    · simp [hcode] at hi
  · intro index m hm
    rw [ite_self]
    rcases hmethods index m hm with hm | hcode
    · simpa using h.finish index m hm
    · simpa [hcode] using h.start index
  · rw [hlabels]
    intro l hl pc hpc
    obtain ⟨hempty, m, hm, hle⟩ := h.targets l hl pc hpc
    obtain ⟨m', hm', hgrown⟩ := hext.methods _ m hm
    obtain ⟨is, his⟩ := hgrown.code
    refine ⟨hempty, m', hm', ?_⟩
    rw [his, Array.size_append]
    omega

/-- All that is written finds its operands. -/
theorem invariant (host : Host.Registry) : Invariant host (Stacked host) where
  proper := proper
  mono := mono
  value h ht hhost hr := h.emitAll (hhost ▸ Tree.Expr.leaves ht _ hr _)
  emit h hi _ := h.emit hi
  update := update
  newLabel := newLabel
  markLabel := markLabel
  turn := turn

end Stacked
end Code

theorem Code.stacked_empty (host : Host.Registry) (entryName : String) :
    (empty entryName).Stacked host (fun _ => False) [] := by
  refine ⟨fun _ _ => [], ⟨by simp [empty], ?_⟩, fun _ => False.elim, fun _ => rfl, ?_,
    fun _ _ _ => by rw [ite_self], by simp [empty]⟩
  · intro m hm
    obtain ⟨index, hm⟩ := Array.mem_iff_getElem?.mp hm
    rw [eq_of_getElem_empty hm]
    exact ⟨by simp, by simp⟩
  · intro index m hm pc i hi
    simp [eq_of_getElem_empty hm] at hi

/-- The code of a compilation without errors, against a host without void fields and
parameters. -/
theorem stacked_run {source : String} {config : Config} {host : Host.Registry}
    (hh : host.Proper) (hzero : (run source config host).2.diagnostics.errorCount = 0) :
    (run source config host).2.code.Stacked host (fun _ => False) [] :=
  (Code.Stacked.invariant host).run hh (Code.stacked_empty host config.entryMethod) hzero

theorem Host.proper_standard : Host.standard.Proper := by
  have hfields : ∀ e ∈ standard.types.values, ∀ f ∈ e.fields.values, f.ty.Proper := by
    decide +kernel
  have hparams : ∀ e ∈ standard.types.values, ∀ overloads ∈ e.methods.values,
      ∀ m ∈ overloads, ∀ ty ∈ m.params, ty ≠ .void := by
    decide +kernel
  constructor
  · intro owner name f h
    obtain ⟨e, he, ⟨_, hf, ⟨⟩⟩ | ⟨_, -, ⟨⟩⟩⟩ := Registry.resolveMember_cases h
    exact hfields e (Directory.mem_values_of_find? he) f (Directory.mem_values_of_find? hf)
  · intro owner name overloads h
    obtain ⟨e, he, ⟨_, -, ⟨⟩⟩ | ⟨_, hmethods, ⟨⟩⟩⟩ := Registry.resolveMember_cases h
    exact hparams e (Directory.mem_values_of_find? he) overloads
      (Directory.mem_values_of_find? hmethods)

namespace Module

/-- The code that a module is made of. -/
def code (m : Module) : Code where
  fields := m.fields
  entry := m.entry
  closed := m.declared
  labels := m.labels

/-- Types for the stack in front of every instruction of every method. Each instruction finds
its operands there and leaves its result; the stack is empty at the beginning and at the end of
a method, and where its labels are. -/
structure StackTyping (m : Module) (host : Host.Registry) (stack : Nat → Nat → List Ty) :
    Prop where
  start : ∀ index, stack index 0 = []
  step : ∀ (index : Nat) (method : Method), m.methods[index]? = some method →
    ∀ (pc : Nat) (i : Instr), method.code[pc]? = some i →
      i.Effect m.code host method (stack index pc) (stack index (pc + 1))
  finish : ∀ (index : Nat) (method : Method), m.methods[index]? = some method →
    stack index method.code.size = []
  targets : ∀ l ∈ m.labels, ∃ pc, l.target = some pc ∧ stack l.method pc = []

end Module

theorem Code.code_module {c : Code} (h : c.body = none) :
    (⟨c.fields, c.entry, c.closed, c.labels⟩ : Module).code = c := by
  obtain ⟨fields, entry, closed, body, labels⟩ := c
  obtain rfl : body = none := h
  rfl

/-- Finished code keeps its types. -/
theorem Code.Stacked.stackTyping {c : Code} {host : Host.Registry} {owned : Label → Prop}
    (h : c.Stacked host owned []) (hc : c.Finishable) :
    ∃ stack, (⟨c.fields, c.entry, c.closed, c.labels⟩ : Module).StackTyping host stack := by
  obtain ⟨stack, h⟩ := h
  have hcode := code_module hc.body
  have hmethods := methods_module hc.body
  refine ⟨stack, h.start, ?_, ?_, ?_⟩
  · rw [hcode, hmethods]
    exact h.step
  · rw [hmethods]
    intro index m hm
    simpa using h.finish index m hm
  · intro l hl
    obtain ⟨-, m, pc, -, htarget, -⟩ := hc.labels l hl
    exact ⟨pc, htarget, (h.targets l hl pc htarget).1⟩

/-- The modules that are compiled against the standard host are safe for a stack machine. -/
theorem compile_stackTyping {source : String} {config : Config} {m : Module}
    (h : (compile source config).result = .ok m) :
    ∃ stack, m.StackTyping Host.standard stack := by
  have hresult := h.symm.trans (result_compileWith Host.standard source config)
  by_cases hzero : (run source config Host.standard).2.diagnostics.errorCount = 0
  · rw [if_pos hzero] at hresult
    cases hresult
    exact (stacked_run Host.proper_standard hzero).stackTyping (finishable_run _ _ _)
  · rw [if_neg hzero] at hresult
    cases hresult

/-- A program with a method, an array, a loop and calls of all kinds. -/
def doubling : String :=
  "int a[4]; int twice(int n) \x7b return n * 2; \x7d " ++
  "\x7b int i; while (i < 4) \x7b a[i] = twice(i++); printf(\"%d\", i); \x7d \x7d " ++
  "System.Console.WriteLine(a[0]);"

theorem compile_stackTyping_doubling :
    ∃ m, (compile doubling {}).result = .ok m ∧ ∃ stack, m.StackTyping Host.standard stack := by
  have hok : (compile doubling {}).result.isOk = true := by decide +kernel
  cases h : (compile doubling {}).result with
  | error e =>
      rw [h] at hok
      cases hok
  | ok m => exact ⟨m, rfl, compile_stackTyping h⟩

end OnePass

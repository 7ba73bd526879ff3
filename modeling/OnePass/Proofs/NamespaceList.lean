import Mathlib.Data.List.Forall2
import Mathlib.Data.List.Induction
import Mathlib.Data.List.TakeWhile
import OnePass.Proofs.Environment
import OnePass.Proofs.Repetition
import OnePass.Proofs.Validity

/-!
The namespaces in use, from the text that lists them to the table of a compilation. A list of
namespaces without commas, and without blanks around them, is written and read back unchanged.
-/

namespace OnePass

/-! Blanks around a text -/

namespace Text

/-- No blank stands at an end of the text. -/
def IsTrimmed (cs : List Char) : Prop :=
  (∀ c ∈ cs.head?, isBlank c = false) ∧ ∀ c ∈ cs.getLast?, isBlank c = false

/-- The core is the text without the blanks around it. -/
structure Trims (cs core : List Char) : Prop where
  around : ∃ front back, cs = front ++ core ++ back ∧ ∀ c ∈ front ++ back, isBlank c
  trimmed : IsTrimmed core

variable {cs core : List Char}

theorem isTrimmed_iff :
    IsTrimmed cs ↔ cs.head?.all (!isBlank ·) ∧ cs.getLast?.all (!isBlank ·) := by
  simp [IsTrimmed, Option.all_eq_true]

instance : Decidable (IsTrimmed cs) :=
  decidable_of_iff _ isTrimmed_iff.symm

theorem IsTrimmed.trims (h : IsTrimmed cs) : Trims cs cs :=
  ⟨⟨[], [], by simp, by simp⟩, h⟩

theorem IsTrimmed.dropWhile_append (h : IsTrimmed core) (hne : core ≠ []) (back : List Char) :
    (core ++ back).dropWhile isBlank = core ++ back := by
  cases core with
  | nil => exact absurd rfl hne
  | cons c rest =>
      have hc : isBlank c = false := h.1 c rfl
      rw [List.cons_append, List.dropWhile_cons_of_neg (by simp [hc])]

theorem isTrimmed_reverse : IsTrimmed cs.reverse ↔ IsTrimmed cs := by
  rw [IsTrimmed, IsTrimmed, List.head?_reverse, List.getLast?_reverse, and_comm]

/-- There is only one core. -/
theorem Trims.eq_trim (h : Trims cs core) : core = trim cs := by
  obtain ⟨front, back, rfl, hblank⟩ := h.around
  have hfront : ∀ c ∈ front, isBlank c := fun c hc => hblank c (List.mem_append_left _ hc)
  have hback : ∀ c ∈ back, isBlank c := fun c hc => hblank c (List.mem_append_right _ hc)
  rw [trim, List.append_assoc, List.dropWhile_append_of_pos hfront]
  -- The blanks behind the core are dropped from the front as well if it is empty.
  by_cases hne : core = []
  · simp [hne, List.dropWhile_eq_nil_iff.mpr hback]
  · have hrest := (isTrimmed_reverse.mpr h.trimmed).dropWhile_append (by simpa using hne) []
    rw [h.trimmed.dropWhile_append hne, List.reverse_append,
      List.dropWhile_append_of_pos fun c hc => hback c (List.mem_reverse.mp hc)]
    rw [List.append_nil] at hrest
    rw [hrest, List.reverse_reverse]

theorem not_blank_of_mem_head? (cs : List Char) {c : Char}
    (h : c ∈ (cs.dropWhile isBlank).head?) : isBlank c = false := by
  have hhead := List.head?_dropWhile_not isBlank cs
  rwa [Option.mem_def.mp h] at hhead

theorem trims_trim (cs : List Char) : Trims cs (trim cs) := by
  have hfront : cs.takeWhile isBlank ++ cs.dropWhile isBlank = cs := List.takeWhile_append_dropWhile
  have hback : trim cs ++ ((cs.dropWhile isBlank).reverse.takeWhile isBlank).reverse =
      cs.dropWhile isBlank := by
    rw [trim, ← List.reverse_append, List.takeWhile_append_dropWhile, List.reverse_reverse]
  refine ⟨⟨_, _, by rw [List.append_assoc, hback, hfront], fun c hc => ?_⟩, fun c hc => ?_,
    fun c hc => ?_⟩
  · rcases List.mem_append.mp hc with hc | hc
    · exact List.all_eq_true.mp List.all_takeWhile c hc
    · exact List.all_eq_true.mp List.all_takeWhile c (List.mem_reverse.mp hc)
  · apply not_blank_of_mem_head? cs
    rw [← hback, List.head?_append, Option.mem_def.mp hc]
    rfl
  · rw [trim, List.getLast?_reverse] at hc
    exact not_blank_of_mem_head? _ hc

theorem forall₂_trims {parts cores : List (List Char)} :
    List.Forall₂ Trims parts cores ↔ cores = parts.map trim := by
  constructor
  · intro h
    induction h with
    | nil => rfl
    | cons hcore _ ih => rw [List.map_cons, ← hcore.eq_trim, ← ih]
  · rintro rfl
    rw [List.forall₂_map_right_iff, List.forall₂_same]
    exact fun part _ => trims_trim part

end Text

/-! Lists of namespaces -/

namespace Config

/-- A namespace that can stand in a list. -/
structure IsListable (ns : String) : Prop where
  ne_nil : ns.toList ≠ []
  no_comma : ',' ∉ ns.toList
  trimmed : Text.IsTrimmed ns.toList

instance (ns : String) : Decidable (IsListable ns) :=
  decidable_of_iff (ns.toList ≠ [] ∧ ',' ∉ ns.toList ∧ Text.IsTrimmed ns.toList)
    ⟨fun h => ⟨h.1, h.2.1, h.2.2⟩, fun h => ⟨h.ne_nil, h.no_comma, h.trimmed⟩⟩

/-- The namespaces are the parts of the text between its commas, without the blanks around them:
those that are not empty, each one where it stands first. -/
def Lists (text : String) (names : List String) : Prop :=
  ∃ cores, List.Forall₂ Text.Trims (text.toList.splitOn ',') cores ∧
    names = ((cores.filter (· ≠ [])).map String.ofList).eraseDups

variable {text : String} {names : List String}

theorem splitAtCommas_eq_splitOn (cs : List Char) : splitAtCommas cs = cs.splitOn ',' := by
  induction cs with
  | nil => rfl
  | cons c rest ih =>
      rw [splitAtCommas, List.splitOn_cons_eq_if_modifyHead, ih]
      by_cases hc : c = ','
      · simp [hc]
      · obtain ⟨part, parts, hparts⟩ := List.exists_cons_of_ne_nil (List.splitOn_ne_nil ',' rest)
        simp [hc, hparts]

theorem comma_not_mem_of_mem_splitOn {cs part : List Char} (h : part ∈ cs.splitOn ',') :
    ',' ∉ part := by
  induction cs generalizing part with
  | nil => simp_all
  | cons c rest ih =>
      rw [List.splitOn_cons_eq_if_modifyHead] at h
      by_cases hc : c = ','
      · rcases List.mem_cons.mp (by simpa [hc] using h) with rfl | h
        · exact List.not_mem_nil
        · exact ih h
      · obtain ⟨first, parts, hparts⟩ := List.exists_cons_of_ne_nil (List.splitOn_ne_nil ',' rest)
        rw [hparts] at h ih
        rcases List.mem_cons.mp (by simpa [hc] using h) with rfl | h
        · have hfirst := ih List.mem_cons_self
          simpa [Ne.symm hc] using hfirst
        · exact ih (List.mem_cons_of_mem _ h)

theorem lists_iff : Lists text names ↔ names = (listedNamespaces text).eraseDups := by
  simp only [Lists, listedNamespaces, Text.forall₂_trims, splitAtCommas_eq_splitOn,
    exists_eq_left]

theorem foldl_addUsing (names : List String) :
    names.foldl addUsing {} = { namespaces := names.eraseDups } := by
  induction names using List.reverseRecOn with
  | nil => rfl
  | append_singleton names ns ih =>
      rw [List.foldl_concat, ih, eraseDups_concat, addUsing]
      by_cases h : ns ∈ names.eraseDups
      · simp [h]
      · simp [h]

theorem Lists.ofEnvironment (h : Lists text names) :
    ofEnvironment { namespaces := some text } = .ok { namespaces := names } := by
  rw [lists_iff.mp h, ← foldl_addUsing]
  rfl

theorem Lists.nodup (h : Lists text names) : names.Nodup := by
  rw [lists_iff.mp h]
  exact nodup_eraseDups _

theorem Lists.isListable (h : Lists text names) : ∀ ns ∈ names, IsListable ns := by
  obtain ⟨cores, hcores, rfl⟩ := h
  intro ns hns
  obtain ⟨core, hcore, rfl⟩ := List.mem_map.mp (List.mem_eraseDups.mp hns)
  obtain ⟨hcore, hne⟩ := List.mem_filter.mp hcore
  rw [Text.forall₂_trims.mp hcores] at hcore
  obtain ⟨part, hpart, rfl⟩ := List.mem_map.mp hcore
  have htrims := Text.trims_trim part
  obtain ⟨front, back, hpart', -⟩ := htrims.around
  refine ⟨by simpa using hne, fun hcomma => ?_, by simpa using htrims.trimmed⟩
  rw [String.toList_ofList] at hcomma
  apply comma_not_mem_of_mem_splitOn hpart
  rw [hpart']
  exact List.mem_append_left _ (List.mem_append_right _ hcomma)

/-- Namespaces that can stand in a list are listed by the text that joins them. -/
theorem lists_intercalate (hnodup : names.Nodup) (h : ∀ ns ∈ names, IsListable ns) :
    Lists (",".intercalate names) names := by
  by_cases hne : names = []
  · -- The text is empty. It has one part, which is empty too.
    subst hne
    exact lists_iff.mpr rfl
  · have hparts : (",".intercalate names).toList.splitOn ',' = names.map String.toList := by
      rw [String.toList_intercalate]
      apply List.splitOn_intercalate
      · exact List.forall_mem_map.mpr fun ns hns => (h ns hns).no_comma
      · simpa using hne
    have htrims : ∀ part ∈ names.map String.toList, Text.Trims part part :=
      List.forall_mem_map.mpr fun ns hns => (h ns hns).trimmed.trims
    have hkept : (names.map String.toList).filter (· ≠ []) = names.map String.toList := by
      apply List.filter_eq_self.mpr
      exact List.forall_mem_map.mpr fun ns hns => decide_eq_true (h ns hns).ne_nil
    refine ⟨names.map String.toList, ?_, ?_⟩
    · rw [hparts]
      exact List.forall₂_same.mpr htrims
    · rw [hkept, List.map_map]
      simp [Function.comp_def, eraseDups_of_nodup hnodup]

end Config

/-! Namespaces of a compilation -/

namespace Table

theorem namespaces_foldl_addUsing (host : Host.Registry) (names : List String) :
    (names.foldl addUsing { host }).namespaces = names.eraseDups := by
  induction names using List.reverseRecOn with
  | nil => rfl
  | append_singleton names ns ih =>
      rw [List.foldl_concat, eraseDups_concat, addUsing, ih]
      by_cases h : ns ∈ names.eraseDups
      · simp [h, ih]
      · simp [h]

theorem namespaces_predeclareAll (t : Table) : t.predeclareAll.namespaces = t.namespaces := by
  obtain ⟨f, hf, -⟩ := predeclare_foldl t
    ((Ty.primitives.filter (·.1 != "*") |>.map fun x => ⟨x.1, .type x.2⟩) ++
      Builtin.all.map Symbol.ofBuiltin)
  rw [predeclareAll, hf]

@[simp] theorem namespaces_edit (t : Table) (e : Edit) : (t.edit e).namespaces = t.namespaces := by
  cases e with
  | declare s l =>
      simp only [edit, declare, updateInnermost]
      cases t.blocks <;> rfl
  | openScope | closeScope | declareField s l | predeclare s => rfl

theorem namespaces_overwriteAt (t : Table) (depth : Nat) (name : String) (s : Symbol) :
    (t.overwriteAt depth name s).namespaces = t.namespaces := by
  fun_cases overwriteAt <;> rfl

end Table

namespace Pass

/-- No item of a program changes the namespaces in use. -/
theorem Built.namespaces {p q : Pass} (h : Built p q) :
    q.table.namespaces = p.table.namespaces := by
  refine h.observe (f := Table.namespaces) ?_ ?_ ?_ ?_
  · exact fun t depth name s _ => t.namespaces_overwriteAt depth name s
  · exact fun t s l => t.namespaces_edit (.declare s l)
  · exact fun _ _ _ => rfl
  · exact fun _ _ h => h

theorem namespaces_run (source : String) (config : Config) (host : Host.Registry) :
    (run source config host).2.table.namespaces = config.namespaces.eraseDups := by
  rw [table_run, (built_run source config host).1.namespaces]
  simp only [initial, start, table_meet, Session.start]
  rw [Table.namespaces_predeclareAll, Table.namespaces_foldl_addUsing]

end Pass

/-- An environment that lists namespaces gives the listed ones, in the order of the text. They are
read back from the text that joins them, and so is every list of different namespaces that can be
listed. A compilation has them in use in this order from its start to its end. -/
theorem ofEnvironment_lists_namespaces :
    (∀ text : String, ∃ names, Config.Lists text names ∧
      Config.ofEnvironment { namespaces := some text } = .ok { namespaces := names } ∧
      Config.ofEnvironment { namespaces := some (",".intercalate names) } =
        .ok { namespaces := names }) ∧
    ∀ names : List String, names.Nodup → (∀ ns ∈ names, Config.IsListable ns) →
      Config.ofEnvironment { namespaces := some (",".intercalate names) } =
        .ok { namespaces := names } ∧
      ∀ (source : String) (host : Host.Registry),
        (Session.start { namespaces := names } host).table.namespaces = names ∧
        (run source { namespaces := names } host).2.table.namespaces = names := by
  refine ⟨fun text => ?_, fun names hnodup hlistable => ⟨?_, fun source host => ⟨?_, ?_⟩⟩⟩
  · have h := (@Config.lists_iff text _).mpr rfl
    exact ⟨_, h, h.ofEnvironment, (Config.lists_intercalate h.nodup h.isListable).ofEnvironment⟩
  · exact (Config.lists_intercalate hnodup hlistable).ofEnvironment
  · exact (Table.namespaces_foldl_addUsing host names).trans (eraseDups_of_nodup hnodup)
  · exact (Pass.namespaces_run source _ host).trans (eraseDups_of_nodup hnodup)

theorem ofEnvironment_lists_namespaces_inner_blank :
    ["Geo Plane", "Geo", "Base.Text"].Nodup ∧
    (∀ ns ∈ ["Geo Plane", "Geo", "Base.Text"], Config.IsListable ns) ∧
    Config.ofEnvironment { namespaces := some "Geo Plane,Geo,Base.Text" } =
      .ok { namespaces := ["Geo Plane", "Geo", "Base.Text"] } ∧
    ∀ host, ((run "int x;" { namespaces := ["Geo Plane", "Geo", "Base.Text"] } host).2.table
      ).namespaces = ["Geo Plane", "Geo", "Base.Text"] := by
  have hnodup : ["Geo Plane", "Geo", "Base.Text"].Nodup := by decide
  have hlistable : ∀ ns ∈ ["Geo Plane", "Geo", "Base.Text"], Config.IsListable ns := by decide
  have h := ofEnvironment_lists_namespaces.2 _ hnodup hlistable
  exact ⟨hnodup, hlistable, h.1, fun host => (h.2 "int x;" host).2⟩

end OnePass

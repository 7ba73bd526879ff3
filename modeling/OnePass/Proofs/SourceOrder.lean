import OnePass.Proofs.Partition
import OnePass.Proofs.Reporting

/-!
The order of errors. The tokens of a text stand one behind the other, and so do the places where
errors are reported. A limit of errors leaves some of them out and changes no order.
-/

namespace OnePass

/-! Places in order -/

theorem Lexer.Scans.offset_le_finish {done text : List Char} {tokens : Tokens}
    (h : Scans done text tokens) :
    ∀ x ∈ tokens.lexemes, x.location.offset ≤ tokens.finish.offset := by
  induction h with
  | finish _ => simp
  | @token done gap cs rest c t tokens _ _ _ hscans ih =>
      refine List.forall_mem_cons.mpr ⟨?_, ih⟩
      rw [hscans.finish_eq, List.append_assoc, Location.offset_behind_append (done ++ gap)]
      exact Nat.le_add_right _ _

namespace Tokens

variable {s u : Tokens} {ls : List Location}

/-- The tokens stand one behind the other, and the end of the text behind all of them. -/
def InOrder (s : Tokens) : Prop :=
  s.places.Pairwise (·.offset ≤ ·.offset)

theorem inOrder_tokenize (source : String) : (tokenize source).InOrder := by
  have hscans : Lexer.Scans [] source.toList (tokenize source) :=
    Lexer.scans_pieces [] source.toList
  refine List.pairwise_append.mpr ⟨?_, List.pairwise_singleton _ _, ?_⟩
  · exact List.pairwise_map.mpr (hscans.offsets.2.imp Nat.le_of_lt)
  · simpa using hscans.offset_le_finish

theorem InOrder.reaches (hs : s.InOrder) (h : s.Reaches u) : u.InOrder :=
  hs.sublist h.places.sublist

theorem InOrder.here_le (hs : s.InOrder) : ∀ l ∈ s.places, s.here.offset ≤ l.offset := by
  obtain ⟨lexemes, finish⟩ := s
  cases lexemes with
  | nil => simp [places, here]
  | cons x lexemes =>
      exact List.forall_mem_cons.mpr ⟨Nat.le_refl _, (List.pairwise_cons.mp hs).1⟩

theorem Passes.mem_places (h : s.Passes ls u) : ls ⊆ s.places := by
  induction h with
  | straight _ => simp
  | via h _ ih =>
      have hplaces := h.places.subset
      exact List.cons_subset.mpr ⟨hplaces (here_mem_places _), List.Subset.trans ih hplaces⟩

/-- Each place stands in front of those that follow it, since they are reached from it. -/
theorem Passes.inOrder (h : s.Passes ls u) (hs : s.InOrder) :
    ls.Pairwise (·.offset ≤ ·.offset) := by
  induction h with
  | straight _ => exact .nil
  | via h hrest ih =>
      have hr := hs.reaches h
      exact .cons (fun l hl => hr.here_le l (hrest.mem_places hl)) (ih hr)

end Tokens

/-! The diagnostics of a run -/

theorem Diagnostics.kept_sublist (limit : Nat) (ds : List Diagnostic) :
    (kept limit ds).Sublist ds := by
  induction ds generalizing limit with
  | nil => exact .slnil
  | cons d ds ih =>
      unfold kept
      split
      · split
        · exact (ih 0).cons d
        · exact (ih _).cons_cons d
      · exact (ih limit).cons_cons d

namespace Pass

variable (source : String) (config : Config) (host : Host.Registry)

theorem input_initial : (initial source config host).input = tokenize source := by
  simp [initial, start, input_meet]

theorem reports_final : Reports (tokenize source) (initial source config host)
    (final source config host).reported (final source config host) := by
  obtain ⟨ds, hreports, -⟩ := Action.orderly_programItems (initial source config host)
  have hds := hreports.reported
  rw [reported_initial, List.nil_append] at hds
  rw [input_initial, ← hds] at hreports
  exact hreports

end Pass

/-- Errors come in the order of the text, and errors and warnings stand at its tokens or its end.
The kept diagnostics are some of those that were reported, so the same holds of them. -/
theorem errors_in_source_order (source : String) (config : Config) (host : Host.Registry) :
    let s := (run source config host).2
    let atToken (d : Diagnostic) : Prop :=
      d.severity = .error ∨ d.severity = .warning → d.location ∈ (tokenize source).places
    s.errors.Pairwise (·.location.offset ≤ ·.location.offset) ∧ (∀ d ∈ s.reported, atToken d) ∧
    s.diagnostics.errorCount = s.errors.length ∧ s.diagnostics.items.toList.Sublist s.reported ∧
    (s.diagnostics.ofSeverity .error).Pairwise (·.location.offset ≤ ·.location.offset) ∧
    ∀ d ∈ s.diagnostics.items, atToken d := by
  intro s atToken
  have hreports := Pass.reports_final source config host
  have hcollects := Pass.collects_final source config host
  rw [← Pass.reported_run] at hreports
  have hplaces : ∀ d ∈ s.reported, atToken d := by
    rintro d hd (herror | hwarning)
    · refine hreports.passes.mem_places (List.mem_map_of_mem (List.mem_filter.mpr ⟨hd, ?_⟩))
      exact decide_eq_true herror
    · exact hreports.warned d hd hwarning
  have horder : s.errors.Pairwise (·.location.offset ≤ ·.location.offset) :=
    (List.pairwise_map (f := Diagnostic.location)).mp
      (hreports.passes.inOrder (Tokens.inOrder_tokenize source))
  have hkept : s.diagnostics.items.toList.Sublist s.reported := by
    rw [Pass.diagnostics_run, Pass.reported_run, hcollects.items]
    exact Diagnostics.kept_sublist _ _
  refine ⟨horder, hplaces, ?_, hkept, ?_, fun d hd => hplaces d (hkept.subset (by simpa using hd))⟩
  · rw [Pass.diagnostics_run, hcollects.errorCount, ← Pass.reported_run]
    exact (Diagnostics.length_errorsOf _).symm
  · refine horder.sublist ?_
    exact List.Sublist.filter _ hkept

/-- A note points back to the first declaration. The return is refused at its first word, after its
value was read. -/
theorem errors_in_source_order_redeclared :
    let source := "double d; d = d + 1; int d; return d; e"
    let s := (run source {} Host.standard).2
    s.reported.map (fun d => (d.severity, d.location.offset)) =
      [(.warning, 16), (.error, 25), (.note, 7), (.error, 28), (.error, 38)] ∧
    ∃ d ∈ s.reported, d.severity = .warning ∧ d.location ∈ (tokenize source).places := by
  intro source s
  have hwarning : ∃ d ∈ s.reported, d.severity = .warning := by decide +kernel
  obtain ⟨d, hd, hseverity⟩ := hwarning
  refine ⟨by decide +kernel, d, hd, hseverity, ?_⟩
  exact (errors_in_source_order source {} Host.standard).2.1 d hd (.inr hseverity)

end OnePass

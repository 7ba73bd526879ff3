import OnePass.Proofs.Partition

/-!
Two texts with a line end between them have the tokens of the first and those of the second, which
are moved: down by the lines and on by the bytes in front of them. They keep their columns, since
columns are counted from the line end in front.
-/

namespace OnePass

/-! Moving a text -/

/-- The location in a text that stands below `lines` more lines with `bytes` more bytes. -/
def Location.moved (l : Location) (lines bytes : Nat) : Location :=
  { l with line := l.line + lines, offset := l.offset + bytes }

namespace Tokens

/-- The tokens of a text that stands below `lines` more lines with `bytes` more bytes. -/
def moved (s : Tokens) (lines bytes : Nat) : Tokens where
  lexemes := s.lexemes.map fun x => { x with location := x.location.moved lines bytes }
  finish := s.finish.moved lines bytes

/-- The tokens of both streams; the end of the first is no longer one. -/
def followedBy (s later : Tokens) : Tokens :=
  { later with lexemes := s.lexemes ++ later.lexemes }

end Tokens

namespace Location

variable (l : Location) (lines bytes : Nat)

theorem advance_moved (c : Char) :
    (l.moved lines bytes).advance c = (l.advance c).moved lines bytes := by
  unfold advance
  split
  · simp only [moved, Nat.add_right_comm]
  · split
    · simp only [moved, Nat.add_right_comm]
    · simp only [moved, Nat.add_right_comm]

theorem advanceOver_moved (text : List Char) :
    (l.moved lines bytes).advanceOver text = (l.advanceOver text).moved lines bytes := by
  induction text generalizing l with
  | nil => rfl
  | cons c text ih =>
      rw [advanceOver, List.foldl_cons, advance_moved]
      exact ih (l.advance c)

/-- A line end leads back to the first column, whatever stands in front of it. -/
theorem advanceOver_line (text : List Char) :
    start.advanceOver (text ++ ['\n']) =
      start.moved (1 + text.count '\n') ((String.ofList text).utf8ByteSize + 1) := by
  have hbehind : start.advanceOver text = behind text := advanceOver_behind [] text
  rw [advanceOver_append, hbehind]
  simp only [advanceOver, List.foldl_cons, List.foldl_nil, advance, moved, start, behind, if_true]
  congr 1
  · omega
  · exact (Nat.zero_add _).symm

end Location

/-- Where the first piece stands moves all tokens. -/
theorem Lexer.locate_moved (l : Location) (lines bytes : Nat) (ps : List (Piece × List Char)) :
    locate (l.moved lines bytes) ps = (locate l ps).moved lines bytes := by
  induction ps generalizing l with
  | nil => rfl
  | cons first ps ih =>
      obtain ⟨piece, text⟩ := first
      have hlater := ih (l.advanceOver text)
      rw [← Location.advanceOver_moved] at hlater
      cases piece with
      | layout => exact hlater
      | token t => simp only [locate, hlater, Tokens.moved, List.map_cons]

theorem tokensBehind_eq_moved (source later : String) :
    tokensBehind source later =
      (tokenize later).moved (1 + source.toList.count '\n') (source.utf8ByteSize + 1) := by
  rw [tokensBehind, Location.advanceOver_line, String.ofList_toList, Lexer.locate_moved, tokenize]

/-- A line end separates the tokens of two texts. -/
theorem tokenize_append_line (source later : String)
    (hknown : ∀ x ∈ (tokenize source).lexemes, ∀ t, x.token ≠ .unknown t) :
    tokenize (source ++ "\n" ++ later) =
      (tokenize source).followedBy
        ((tokenize later).moved (1 + source.toList.count '\n') (source.utf8ByteSize + 1)) := by
  rw [tokenize_lineEnd source later hknown, tokensBehind_eq_moved, Tokens.followedBy]

/-- A number ends this text. -/
def oneAtLineEnd : String := "// é\nx = 1"

/-- The number does not go on behind the line end. -/
theorem tokenize_append_line_one :
    (∀ x ∈ (tokenize oneAtLineEnd).lexemes, ∀ t, x.token ≠ .unknown t) ∧
    ⟨.literal (.int 1), ⟨2, 5, 10⟩⟩ ∈ (tokenize oneAtLineEnd).lexemes ∧
    tokenize (oneAtLineEnd ++ "\n" ++ ".5") =
      (tokenize oneAtLineEnd).followedBy ((tokenize ".5").moved 2 12) := by
  have hlexemes : (tokenize oneAtLineEnd).lexemes =
      [⟨.ident "x", ⟨2, 1, 6⟩⟩, ⟨.punct .assign, ⟨2, 3, 8⟩⟩, ⟨.literal (.int 1), ⟨2, 5, 10⟩⟩] := by
    decide +kernel
  have hknown : ∀ x ∈ (tokenize oneAtLineEnd).lexemes, ∀ t, x.token ≠ .unknown t := by
    simp [hlexemes]
  exact ⟨hknown, by simp [hlexemes], tokenize_append_line oneAtLineEnd ".5" hknown⟩

end OnePass

import OnePass.Proofs.Partition

/-!
The spelling of constants. A character between quotes is written by itself, or as a letter behind a
backslash that stands for it; of the two quotes, only the one that encloses it needs the backslash.
Scanning undoes this character by character. So the text of a constant is a single token, and the
token is the constant.
-/

namespace OnePass
namespace Text

/-- A printable ASCII character, or one of the controls that a letter stands for. -/
def IsPlain (c : Char) : Prop :=
  (0x20 ≤ c.toNat ∧ c.toNat ≤ 0x7e) ∨ c ∈ ['\x00', '\t', '\n', '\r']

instance (c : Char) : Decidable (IsPlain c) :=
  inferInstanceAs (Decidable (_ ∨ _))

/-- The texts that mean a character between two `quote` characters. -/
inductive Means (quote c : Char) : List Char → Prop
  | itself : c ≠ quote → c ≠ '\\' → c ≠ '\n' → Means quote c [c]
  | letter {l : Char} : l ≠ '\n' → Lexer.escapeValue l = some c → Means quote c ['\\', l]

theorem means_escape {quote c : Char} (hquote : Lexer.escapeValue quote = some quote)
    (hc : IsPlain c) : Means quote c (escape quote c) := by
  fun_cases escape quote c with
  | case1 h => exact h ▸ .letter (by decide) rfl
  | case2 _ h => exact h ▸ .letter (by decide) rfl
  | case3 _ _ h => exact h ▸ .letter (by decide) rfl
  | case4 _ _ _ h => exact h ▸ .letter (by decide) rfl
  | case5 _ _ _ hline h =>
      obtain rfl | rfl : c = '\\' ∨ c = quote := by simpa using h
      · exact .letter hline rfl
      · exact .letter hline hquote
  | case6 _ _ _ hline h _ =>
      obtain ⟨hbackslash, hown⟩ : c ≠ '\\' ∧ c ≠ quote := by simpa using h
      exact .itself hown hbackslash hline
  | case7 hnul htab hreturn hline _ hglyph =>
      -- All that is plain has a glyph, the four controls apart.
      simp only [IsPlain, List.mem_cons, List.not_mem_nil, hnul, htab, hreturn, hline,
        or_false] at hc
      simp only [hasGlyph, Bool.or_eq_true, Bool.and_eq_true, decide_eq_true_eq] at hglyph
      omega

end Text

/-- The constants that a program can spell with plain characters. -/
def Literal.IsPlain : Literal → Prop
  | int v => 0 ≤ v
  | double _ => False
  | bool _ => True
  | char c => Text.IsPlain c
  | str s => ∀ c ∈ s.toList, Text.IsPlain c

namespace Lexer

open Text (IsPlain Means escape means_escape)

variable {quote c : Char} {text cs : List Char}

/-! Quoted texts -/

theorem stringLength_append (h : Means '"' c text) (rest : List Char) :
    stringLength (text ++ rest) = stringLength rest + text.length := by
  cases h with
  | itself hquote hbackslash hline =>
      rw [List.singleton_append, stringLength.eq_2 _ _ fun _ _ hc => absurd hc hbackslash]
      simp [hquote, hbackslash, hline]
  | letter hline _ => simp [stringLength, hline]

theorem unescape_append (h : Means quote c text) (rest : List Char) :
    unescape (text ++ rest) = (unescape rest).map (c :: ·) := by
  cases h with
  | itself _ hbackslash _ =>
      rw [List.singleton_append, unescape.eq_2 _ _ fun _ _ hc => absurd hc hbackslash]
  | letter _ hvalue =>
      rw [List.cons_append, List.singleton_append, unescape, hvalue]
      cases unescape rest <;> rfl

/-- No escape ends a string, so it reaches up to its closing quote. -/
theorem stringLength_escape (h : ∀ c ∈ cs, IsPlain c) (rest : List Char) :
    stringLength (cs.flatMap (escape '"') ++ '"' :: rest) = (cs.flatMap (escape '"')).length := by
  induction cs with
  | nil =>
      rw [List.flatMap_nil, List.nil_append, stringLength.eq_2 _ _ (by simp)]
      rfl
  | cons c cs ih =>
      have hc : Means '"' c (escape '"' c) := means_escape rfl (h c List.mem_cons_self)
      have hcs := ih fun d hd => h d (List.mem_cons_of_mem c hd)
      rw [List.flatMap_cons, List.append_assoc, stringLength_append hc, hcs, List.length_append,
        Nat.add_comm]

theorem unescape_escape (hquote : escapeValue quote = some quote) (h : ∀ c ∈ cs, IsPlain c) :
    unescape (cs.flatMap (escape quote)) = some cs := by
  induction cs with
  | nil => rfl
  | cons c cs ih =>
      have hc : Means quote c (escape quote c) := means_escape hquote (h c List.mem_cons_self)
      have hcs := ih fun d hd => h d (List.mem_cons_of_mem c hd)
      rw [List.flatMap_cons, unescape_append hc, hcs]
      rfl

theorem cut_string (h : ∀ c ∈ cs, IsPlain c) :
    let rest := cs.flatMap (escape '"') ++ ['"']
    cut '"' rest = ⟨.token (.literal (.str (String.ofList cs))), rest.length⟩ := by
  have hvalue : unescape (cs.flatMap (escape '"')) = some cs := unescape_escape rfl h
  show cutString _ = _
  rw [cutString, stringLength_escape h [], List.drop_left, List.take_left, hvalue,
    List.length_append]
  rfl

theorem cut_char (h : Means '\'' c text) :
    cut '\'' (text ++ ['\'']) = ⟨.token (.literal (.char c)), (text ++ ['\'']).length⟩ := by
  show cutChar _ = _
  cases h with
  | itself hquote hbackslash hline => simp [cutChar, hquote, hbackslash, hline]
  | letter hline hvalue => simp [cutChar, hline, hvalue]

/-! Numbers -/

/-- All letters, and the underscore, come behind the digits. -/
theorem not_isNameStart_of_isDigit (hc : c.isDigit = true) : ¬ isNameStart c = true := by
  obtain ⟨-, hnine⟩ := Char.isDigit_iff_toNat.mp hc
  intro h
  rcases Bool.or_eq_true_iff.mp h with hletter | hunderscore
  · rcases Bool.or_eq_true_iff.mp hletter with hupper | hlower
    · have hfirst : 'A'.val ≤ c.val := (of_decide_eq_true hupper).1
      exact absurd (Nat.le_trans hfirst hnine) (by decide)
    · have hfirst : 'a'.val ≤ c.val := of_decide_eq_true (Bool.and_eq_true_iff.mp hlower).1
      exact absurd (Nat.le_trans hfirst hnine) (by decide)
  · obtain rfl : c = '_' := eq_of_beq hunderscore
    exact absurd hnine (by decide)

theorem cut_digit (hc : c.isDigit = true) (rest : List Char) : cut c rest = cutNumber c rest := by
  have hlayout : ¬ isLayout c = true := by
    intro h
    simp only [isLayout, Bool.or_eq_true, beq_iff_eq] at h
    rcases h with (((rfl | rfl) | rfl) | rfl) | rfl <;> cases hc
  have hslash : c ≠ '/' := by
    rintro rfl
    cases hc
  rw [cut, if_neg hlayout, if_neg hslash, if_neg (not_isNameStart_of_isDigit hc), if_pos hc]

theorem cut_digits {ds : List Char} (h : IsDigits (c :: ds))
    (hmax : digitsValue (c :: ds) ≤ maxInt) :
    cut c ds = ⟨.token (.literal (.int (Int32.ofNat (digitsValue (c :: ds))))), ds.length⟩ := by
  obtain ⟨hc, hds⟩ := List.forall_mem_cons.mp h.2
  have hall : digitsLength ds = ds.length := by
    have htake : (ds ++ []).takeWhile Char.isDigit = ds ++ [] := List.takeWhile_append_of_pos hds
    rw [List.append_nil] at htake
    exact congrArg List.length htake
  rw [cut_digit hc, cutNumber, hall]
  simp [hmax]

theorem digitsValue_toDigits (n : Nat) : digitsValue (Nat.toDigits 10 n) = n :=
  Nat.ofDigitChars_ten_toDigits

theorem isDigits_toDigits (n : Nat) : IsDigits (Nat.toDigits 10 n) := by
  refine ⟨Nat.toDigits_ne_nil, fun d hd => ?_⟩
  exact Nat.isDigit_of_mem_toDigits (by decide) (Nat.le_refl 10) hd

end Lexer

namespace Literal

open Lexer

theorem toList_text_int {v : Int32} (h : 0 ≤ v) :
    (int v).text.toList = Nat.toDigits 10 v.toInt.toNat := by
  have hnonneg : 0 ≤ v.toInt := Int32.le_iff_toInt_le.mp h
  rw [text, Int.toString_eq_repr, Int.repr_eq_if, if_pos hnonneg, Nat.repr_eq_ofList_toDigits,
    String.toList_ofList]

/-- The whole text of a plain constant is cut off at once. -/
theorem cut_text {value : Literal} (h : value.IsPlain) :
    ∃ c rest, value.text.toList = c :: rest ∧
      cut c rest = ⟨.token (.literal value), rest.length⟩ := by
  cases value with
  | int v =>
      have hdigits := isDigits_toDigits v.toInt.toNat
      have hvalue := digitsValue_toDigits v.toInt.toNat
      rw [toList_text_int h]
      cases hds : Nat.toDigits 10 v.toInt.toNat with
      | nil => exact absurd hds hdigits.1
      | cons c ds =>
          rw [hds] at hdigits hvalue
          have hmax : digitsValue (c :: ds) ≤ maxInt := by
            have hlt := v.toInt_lt
            rw [hvalue, maxInt]
            omega
          refine ⟨c, ds, rfl, (cut_digits hdigits hmax).trans ?_⟩
          rw [hvalue]
          exact congrArg (fun w => Cut.mk (.token (.literal (.int w))) _)
            (Int32.ofNat_toNatClampNeg v h)
  | double v => exact h.elim
  | bool b => cases b <;> exact ⟨_, _, rfl, by decide⟩
  | char c =>
      have hmeans : Text.Means '\'' c (Text.escape '\'' c) := Text.means_escape rfl h
      refine ⟨_, _, ?_, cut_char hmeans⟩
      rw [text, Text.quotedChar, String.toList_ofList, Text.quoted, List.flatMap_singleton]
      rfl
  | str s =>
      refine ⟨_, _, ?_, (cut_string h).trans ?_⟩
      · rw [text, Text.quotedString, String.toList_ofList]
        rfl
      · rw [String.ofList_toList]

end Literal

/-- The text of a constant of plain characters, or of a number that is not negative, is scanned as
the constant and nothing else. -/
theorem tokenize_literal (value : Literal) (h : value.IsPlain) :
    tokenize value.text = ⟨[⟨.literal value, .start⟩], .behind value.text.toList⟩ := by
  obtain ⟨c, rest, htext, hcut⟩ := Literal.cut_text h
  have hend : Location.start.advanceOver (c :: rest) = .behind (c :: rest) :=
    Location.advanceOver_behind [] (c :: rest)
  rw [tokenize, htext, Lexer.pieces_cons, hcut, ← hend]
  simp [Lexer.locate, Lexer.pieces]

/-- A backslash, both quotes, a line end, and a digit behind the character that is written as a
digit. -/
theorem tokenize_literal_escapes :
    let value := Literal.str "\\\"'\n\x001"
    value.IsPlain ∧ tokenize value.text = ⟨[⟨.literal value, .start⟩], ⟨1, 13, 12⟩⟩ := by
  intro value
  have hall : ("\\\"'\n\x001".toList.all fun c => Text.IsPlain c) = true := by decide +kernel
  have hplain : value.IsPlain := fun c hc => of_decide_eq_true (List.all_eq_true.mp hall c hc)
  refine ⟨hplain, (tokenize_literal value hplain).trans ?_⟩
  decide +kernel

end OnePass

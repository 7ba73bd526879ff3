import OnePass.Token.Lexer

/-!
The end of a line ends every token. A rule that accepts the front of a text takes the same
characters if a line end and more text follow, and layout in front of a token may be cut
anywhere. So the tokens of two texts with a line end between them are the tokens of the first and
those of the second, as long as the first has no text that is refused.
-/

namespace OnePass
namespace Lexer

variable {rest later : List Char}

/-! The lengths that the rules measure -/

theorem takeWhile_lineEnd {p : Char → Bool} (h : p '\n' = false) (rest later : List Char) :
    (rest ++ '\n' :: later).takeWhile p = rest.takeWhile p := by
  induction rest with
  | nil => simp [h]
  | cons c rest ih => simp [List.takeWhile_cons, ih]

theorem digitsLength_lineEnd (rest later : List Char) :
    digitsLength (rest ++ '\n' :: later) = digitsLength rest :=
  congrArg List.length (takeWhile_lineEnd rfl rest later)

theorem digitsLength_le (rest : List Char) : digitsLength rest ≤ rest.length :=
  (List.takeWhile_sublist _).length_le

theorem commentLength_append {n : Nat} (h : commentLength rest = some n) (later : List Char) :
    commentLength (rest ++ later) = some n := by
  fun_induction commentLength rest generalizing n with
  | case1 rest => exact h
  | case2 c rest hopen ih =>
      obtain ⟨k, hk, rfl⟩ := Option.map_eq_some_iff.mp h
      -- The end of the comment lies behind `c`, so there is a character behind `c`.
      cases rest with
      | nil => cases hk
      | cons d rest =>
          have hopen' (tail : List Char) (hc : c = '*') (hd : d :: (rest ++ later) = '/' :: tail) :
              False :=
            hopen rest hc (by rw [(List.cons.inj hd).1])
          rw [List.cons_append, List.cons_append, commentLength.eq_2 _ _ hopen']
          exact congrArg (Option.map (· + 1)) (ih hk)
  | case3 => cases h

theorem commentLength_le {n : Nat} (h : commentLength rest = some n) : n ≤ rest.length := by
  fun_induction commentLength rest generalizing n with
  | case1 rest =>
      cases h
      simp
  | case2 c rest hopen ih =>
      obtain ⟨k, hk, rfl⟩ := Option.map_eq_some_iff.mp h
      simpa using ih hk
  | case3 => cases h

theorem nameLength_lineEnd (rest later : List Char) :
    nameLength (rest ++ '\n' :: later) = nameLength rest := by
  fun_induction nameLength rest with
  | case1 c rest h ih => simp [nameLength, h, ih]
  | case2 c rest h => simp [nameLength, h]
  | case3 c rest hdot h ih =>
      have hc : c ≠ '.' := by
        rintro rfl
        exact absurd h (by decide)
      rw [List.cons_append, nameLength.eq_2 _ _ fun _ _ hc' => absurd hc' hc, if_pos h, ih]
  | case4 c rest hdot h =>
      by_cases hc : c = '.'
      · subst hc
        cases rest with
        | nil => rfl
        | cons d rest => exact (hdot d rest rfl rfl).elim
      · rw [List.cons_append, nameLength.eq_2 _ _ fun _ _ hc' => absurd hc' hc, if_neg h]
  | case5 => rfl

theorem nameLength_le (rest : List Char) : nameLength rest ≤ rest.length := by
  fun_induction nameLength rest <;> simp <;> omega

theorem stringLength_lineEnd (rest later : List Char) :
    stringLength (rest ++ '\n' :: later) = stringLength rest := by
  fun_induction stringLength rest with
  | case1 rest => rfl
  | case2 c rest h ih => simp [stringLength, h, ih]
  | case3 c rest hescape h =>
      by_cases hc : c = '\\'
      · subst hc
        cases rest with
        | nil => rfl
        | cons d rest => exact (hescape d rest rfl rfl).elim
      · rw [List.cons_append, stringLength.eq_2 _ _ fun _ _ hc' => absurd hc' hc, if_pos h]
  | case4 c rest hescape h ih =>
      have hc : c ≠ '\\' := by
        rintro rfl
        exact h rfl
      rw [List.cons_append, stringLength.eq_2 _ _ fun _ _ hc' => absurd hc' hc, if_neg h, ih]
  | case5 => rfl

theorem stringLength_le (rest : List Char) : stringLength rest ≤ rest.length := by
  fun_induction stringLength rest <;> simp <;> omega

/-! The rules -/

/-- The character behind the first `n` ones is another one than the line end, or is it not. -/
theorem head?_drop_lineEnd {n : Nat} (hn : n ≤ rest.length) (later : List Char) {c : Char}
    (hc : c ≠ '\n') :
    ((rest ++ '\n' :: later).drop n).head? = some c ↔ (rest.drop n).head? = some c := by
  rw [List.drop_append_of_le_length hn]
  cases rest.drop n with
  | nil => simp [Ne.symm hc]
  | cons d tail => rfl

theorem lt_length_of_head?_drop {n : Nat} {c : Char} (h : (rest.drop n).head? = some c) :
    n < rest.length := by
  refine Nat.lt_of_not_le fun hle => ?_
  rw [List.drop_eq_nil_of_le hle] at h
  cases h

theorem cutSlash_lineEnd (hknown : ∀ text, (cutSlash rest).piece ≠ .token (.unknown text))
    (later : List Char) : cutSlash (rest ++ '\n' :: later) = cutSlash rest := by
  revert hknown
  fun_cases cutSlash rest with
  | case1 line =>
      intro _
      rw [List.cons_append, cutSlash.eq_1, takeWhile_lineEnd rfl]
  | case2 body n hn =>
      intro _
      simp only [List.cons_append, cutSlash, commentLength_append hn]
  | case3 body hn =>
      intro hknown
      exact (hknown _ rfl).elim
  | case4 _ hline hbody =>
      intro _
      cases rest with
      | nil => rfl
      | cons c rest =>
          refine cutSlash.eq_3 _ (fun line hc => hline rest ?_) fun body hc => hbody rest ?_
          · rw [(List.cons.inj hc).1]
          · rw [(List.cons.inj hc).1]

theorem cutName_lineEnd (c : Char) (rest later : List Char) :
    cutName c (rest ++ '\n' :: later) = cutName c rest := by
  have hle := nameLength_le rest
  have hdot : '.' ≠ '\n' := by decide
  unfold cutName
  simp only [nameLength_lineEnd, head?_drop_lineEnd hle later hdot,
    List.take_append_of_le_length hle]

theorem exponentSign_lineEnd (rest later : List Char) :
    exponentSign (rest ++ '\n' :: later) = exponentSign rest := by
  cases rest with
  | nil => rfl
  | cons c rest =>
      unfold exponentSign
      split <;> simp_all

theorem exponentSign_le (rest : List Char) : (exponentSign rest).2 ≤ rest.length := by
  unfold exponentSign
  split <;> simp

theorem exponentPart_lineEnd (rest later : List Char) :
    exponentPart (rest ++ '\n' :: later) = exponentPart rest := by
  cases rest with
  | nil => rfl
  | cons c rest =>
      have hdigits := digitsLength_le (rest.drop (exponentSign rest).2)
      simp only [List.cons_append, exponentPart, exponentSign_lineEnd,
        List.drop_append_of_le_length (exponentSign_le rest), digitsLength_lineEnd,
        List.take_append_of_le_length hdigits]

theorem exponentPart_le (rest : List Char) : (exponentPart rest).2 ≤ rest.length := by
  cases rest with
  | nil => exact Nat.le_refl 0
  | cons c rest =>
      have hsign := exponentSign_le rest
      have hdigits := digitsLength_le (rest.drop (exponentSign rest).2)
      rw [List.length_drop] at hdigits
      simp only [exponentPart]
      split
      · simp only [List.length_cons]
        omega
      · exact Nat.zero_le _

theorem cutNumber_lineEnd (c : Char) (rest later : List Char) :
    cutNumber c (rest ++ '\n' :: later) = cutNumber c rest := by
  have hle := digitsLength_le rest
  have hpoint : '.' ≠ '\n' := by decide
  unfold cutNumber
  simp only [digitsLength_lineEnd, head?_drop_lineEnd hle later hpoint,
    List.take_append_of_le_length hle, refuse]
  by_cases h : (rest.drop (digitsLength rest)).head? = some '.'
  · have hfraction := digitsLength_le (rest.drop (digitsLength rest + 1))
    simp only [List.drop_append_of_le_length (lt_length_of_head?_drop h), digitsLength_lineEnd,
      List.take_append_of_le_length hfraction, List.drop_append_of_le_length hfraction,
      exponentPart_lineEnd]
  · simp only [h, false_and, if_false]

theorem cutChar_lineEnd (hknown : ∀ text, (cutChar rest).piece ≠ .token (.unknown text))
    (later : List Char) : cutChar (rest ++ '\n' :: later) = cutChar rest := by
  revert hknown
  fun_cases cutChar rest with
  | case1 | case3 | case4 | case6 =>
      intro hknown
      exact (hknown _ rfl).elim
  | case2 c tail hc v hv =>
      intro _
      simp only [List.cons_append, cutChar, hc, hv, if_false]
  | case5 c tail hescape hc =>
      intro _
      have hplain : c ≠ '\\' := by
        rintro rfl
        exact hc rfl
      rw [List.cons_append, List.cons_append, cutChar.eq_2 _ _ fun _ hc' => absurd hc' hplain,
        if_neg hc]

theorem cutString_lineEnd (rest later : List Char) :
    cutString (rest ++ '\n' :: later) = cutString rest := by
  have hle := stringLength_le rest
  have hquote : '"' ≠ '\n' := by decide
  unfold cutString
  simp only [stringLength_lineEnd, head?_drop_lineEnd hle later hquote,
    List.take_append_of_le_length hle, refuse]
  split
  · rename_i hclosed
    rw [List.take_append_of_le_length (lt_length_of_head?_drop hclosed)]
  · rfl

theorem cutPunct_lineEnd (c : Char) (rest later : List Char) :
    cutPunct c (rest ++ '\n' :: later) = cutPunct c rest := by
  cases rest with
  | nil =>
      have hdouble : doublePunct c '\n' = none := by
        unfold doublePunct
        split <;> simp_all
      simp [cutPunct, hdouble, refuse]
  | cons d rest => rfl

/-- A rule that accepts the front of a text, and does not only skip it, accepts the same in front
of a line end. -/
theorem cut_lineEnd {c : Char} (hc : isLayout c = false)
    (hknown : ∀ text, (cut c rest).piece ≠ .token (.unknown text)) (later : List Char) :
    cut c (rest ++ '\n' :: later) = cut c rest := by
  revert hknown
  unfold cut
  simp only [hc, Bool.false_eq_true, if_false]
  split
  · exact fun hknown => cutSlash_lineEnd hknown later
  · split
    · exact fun _ => cutName_lineEnd c rest later
    · split
      · exact fun _ => cutNumber_lineEnd c rest later
      · split
        · exact fun hknown => cutChar_lineEnd hknown later
        · split
          · exact fun _ => cutString_lineEnd rest later
          · exact fun _ => cutPunct_lineEnd c rest later

/-! The characters that the rules take -/

theorem cutSlash_le (rest : List Char) : (cutSlash rest).extra ≤ rest.length := by
  fun_cases cutSlash rest with
  | case1 line =>
      have := (List.takeWhile_sublist (l := line) (· != '\n')).length_le
      simp only [List.length_cons]
      omega
  | case2 body n hn =>
      have := commentLength_le hn
      simp only [List.length_cons]
      omega
  | case3 body hn => exact Nat.le_refl _
  | case4 => exact Nat.zero_le _

theorem cutNumber_le (c : Char) (rest : List Char) : (cutNumber c rest).extra ≤ rest.length := by
  have hle := digitsLength_le rest
  unfold cutNumber
  dsimp only
  split
  · rename_i h
    have hlt := lt_length_of_head?_drop h.1
    have hfraction := digitsLength_le (rest.drop (digitsLength rest + 1))
    have hexponent := exponentPart_le
      ((rest.drop (digitsLength rest + 1)).drop (digitsLength (rest.drop (digitsLength rest + 1))))
    simp only [List.length_drop] at hfraction hexponent
    simp only
    omega
  · split
    · exact hle
    · exact hle

theorem cutChar_le (rest : List Char) : (cutChar rest).extra ≤ rest.length := by
  fun_cases cutChar rest <;> simp [refuse]

theorem cutString_le (rest : List Char) : (cutString rest).extra ≤ rest.length := by
  unfold cutString
  dsimp only
  split
  · rename_i h
    have hlt := lt_length_of_head?_drop h
    split <;> exact hlt
  · exact stringLength_le rest

theorem cutPunct_le (c : Char) (rest : List Char) : (cutPunct c rest).extra ≤ rest.length := by
  unfold cutPunct
  split
  · rename_i h
    cases rest with
    | nil => cases h
    | cons d rest => exact Nat.succ_le_succ (Nat.zero_le _)
  · split <;> exact Nat.zero_le _

theorem cut_le (c : Char) (rest : List Char) : (cut c rest).extra ≤ rest.length := by
  unfold cut
  split
  · exact (List.takeWhile_sublist _).length_le
  · split
    · exact cutSlash_le rest
    · split
      · exact nameLength_le rest
      · split
        · exact cutNumber_le c rest
        · split
          · exact cutChar_le rest
          · split
            · exact cutString_le rest
            · exact cutPunct_le c rest

/-! Located tokens -/

theorem pieces_cons (c : Char) (rest : List Char) :
    pieces (c :: rest) = ((cut c rest).piece, c :: rest.take (cut c rest).extra) ::
      pieces (rest.drop (cut c rest).extra) := by
  rw [pieces]

theorem cut_layout {c : Char} (hc : isLayout c = true) (rest : List Char) :
    cut c rest = ⟨.layout, (rest.takeWhile isLayout).length⟩ := by
  simp [cut, hc]

/-- A character of layout in front of a text only moves the text. -/
theorem locate_layout {c : Char} (hc : isLayout c = true) (l : Location) (rest : List Char) :
    locate l (pieces (c :: rest)) = locate (l.advance c) (pieces rest) := by
  rw [pieces_cons, cut_layout hc]
  cases rest with
  | nil => rfl
  | cons d rest =>
      by_cases hd : isLayout d = true
      · rw [pieces_cons d rest, cut_layout hd]
        simp only [List.takeWhile_cons, hd, if_true, List.length_cons, List.take_succ_cons,
          List.drop_succ_cons]
        rfl
      · simp only [List.takeWhile_cons, hd, if_false, Bool.false_eq_true]
        rfl

/-- The tokens of two texts with a line end between them. -/
theorem locate_lineEnd (text later : List Char) (l : Location)
    (hknown : ∀ x ∈ (locate l (pieces text)).lexemes, ∀ t, x.token ≠ .unknown t) :
    locate l (pieces (text ++ '\n' :: later)) =
      let behind := locate (l.advanceOver (text ++ ['\n'])) (pieces later)
      { behind with lexemes := (locate l (pieces text)).lexemes ++ behind.lexemes } := by
  induction hn : text.length using Nat.strongRecOn generalizing text l with
  | _ n ih =>
      cases text with
      | nil =>
          rw [List.nil_append, locate_layout (c := '\n') rfl, pieces]
          rfl
      | cons c rest =>
          by_cases hc : isLayout c = true
          -- A run of layout may go on behind the line end, so it is left one character at a time.
          · rw [locate_layout hc] at hknown
            rw [List.cons_append, locate_layout hc, locate_layout hc]
            exact ih rest.length (by simp [← hn]) rest _ hknown rfl
          · have hle := cut_le c rest
            have hfirst : ∀ t, (cut c rest).piece ≠ .token (.unknown t) := by
              intro t ht
              rw [pieces_cons, ht] at hknown
              exact hknown _ List.mem_cons_self t rfl
            have hcut := cut_lineEnd (by simpa using hc) hfirst later
            have hlocation : l.advanceOver (c :: rest ++ ['\n']) =
                (l.advanceOver (c :: rest.take (cut c rest).extra)).advanceOver
                  (rest.drop (cut c rest).extra ++ ['\n']) := by
              rw [← Location.advanceOver_append, List.cons_append, List.cons_append,
                ← List.append_assoc, List.take_append_drop]
            rw [pieces_cons] at hknown
            rw [List.cons_append, pieces_cons, pieces_cons c rest, hcut,
              List.take_append_of_le_length hle, List.drop_append_of_le_length hle, hlocation]
            have hrest := ih (rest.drop (cut c rest).extra).length
              (by simp only [List.length_drop, ← hn, List.length_cons]; omega)
              (rest.drop (cut c rest).extra) (l.advanceOver (c :: rest.take (cut c rest).extra))
            cases hpiece : (cut c rest).piece with
            | layout =>
                rw [hpiece] at hknown
                exact hrest hknown rfl
            | token t =>
                rw [hpiece] at hknown
                simp only [locate, hrest (fun x hx => hknown x (List.mem_cons_of_mem _ hx)) rfl,
                  List.cons_append]

end Lexer

/-- The tokens of a text that stands behind another one and a line end. -/
def tokensBehind (source later : String) : Tokens :=
  Lexer.locate (Location.start.advanceOver (source.toList ++ ['\n'])) (Lexer.pieces later.toList)

/-- A line end between two texts separates their tokens. -/
theorem tokenize_lineEnd (source later : String)
    (hknown : ∀ x ∈ (tokenize source).lexemes, ∀ t, x.token ≠ .unknown t) :
    tokenize (source ++ "\n" ++ later) =
      { tokensBehind source later with
        lexemes := (tokenize source).lexemes ++ (tokensBehind source later).lexemes } := by
  have htext : (source ++ "\n" ++ later).toList = source.toList ++ '\n' :: later.toList := by
    simp [String.toList_append]
  unfold tokenize
  rw [htext]
  exact Lexer.locate_lineEnd _ _ _ hknown

end OnePass

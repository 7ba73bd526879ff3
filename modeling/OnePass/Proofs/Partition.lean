import OnePass.Proofs.LineEnds

/-!
A source text is the sequence of its tokens, with layout around them. The text of a token is what a
rule cuts off where the token stands, and it spells the token; the location of the token counts the
lines, characters and bytes in front of it.
-/

namespace OnePass
namespace Location

/-- Where a text that begins at the start ends. -/
def behind (text : List Char) : Location where
  line := 1 + text.count '\n'
  column := 1 + (text.reverse.takeWhile (· != '\n')).countP (· != '\r')
  offset := (String.ofList text).utf8ByteSize

theorem behind_concat (text : List Char) (c : Char) :
    behind (text ++ [c]) = (behind text).advance c := by
  have hoffset : (String.ofList (text ++ [c])).utf8ByteSize =
      (String.ofList text).utf8ByteSize + c.utf8Size := by simp
  unfold advance behind
  rw [hoffset]
  by_cases hline : c = '\n'
  · simp [hline, Nat.add_assoc]
  · by_cases hreturn : c = '\r'
    · simp [hreturn]
    · simp [hline, hreturn, Nat.add_assoc]

theorem advanceOver_behind (done text : List Char) :
    (behind done).advanceOver text = behind (done ++ text) := by
  induction text generalizing done with
  | nil => simp [advanceOver]
  | cons c text ih =>
      have hrest := ih (done ++ [c])
      rwa [behind_concat, List.append_assoc] at hrest

theorem offset_behind_append (done text : List Char) :
    (behind (done ++ text)).offset = (behind done).offset + (behind text).offset := by
  simp [behind]

theorem offset_behind_pos (c : Char) (text : List Char) : 0 < (behind (c :: text)).offset := by
  rw [behind, String.ofList_cons, String.utf8ByteSize_append, String.utf8ByteSize_singleton]
  exact Nat.add_pos_left c.utf8Size_pos _

end Location

namespace Lexer

/-! Layout -/

/-- Layout in front of the text `later`: blanks and complete comments. A comment that ends with its
line reaches up to the line end or to the end of the text. -/
inductive Skipped (later : List Char) : List Char → Prop
  | nil : Skipped later []
  | blank {c : Char} {rest : List Char} :
      isLayout c = true → Skipped later rest → Skipped later (c :: rest)
  | line {body rest : List Char} :
      '\n' ∉ body → (∀ c ∈ (rest ++ later).head?, c = '\n') → Skipped later rest →
      Skipped later ('/' :: '/' :: (body ++ rest))
  | block {body rest : List Char} :
      ¬ ['*', '/'] <:+: body → Skipped later rest →
      Skipped later ('/' :: '*' :: (body ++ '*' :: '/' :: rest))

variable {gap gap' later text rest done : List Char}

theorem Skipped.append (h : Skipped (gap' ++ later) gap) (h' : Skipped later gap') :
    Skipped later (gap ++ gap') := by
  induction h with
  | nil => exact h'
  | blank hc _ ih => exact .blank hc ih
  | line hbody hend _ ih =>
      rw [List.cons_append, List.cons_append, List.append_assoc]
      exact .line hbody (by rwa [List.append_assoc]) ih
  | block hbody _ ih =>
      rw [List.cons_append, List.cons_append, List.append_assoc]
      exact .block hbody ih

theorem skipped_blanks (h : ∀ c ∈ gap, isLayout c = true) : Skipped later gap := by
  induction gap with
  | nil => exact .nil
  | cons c gap ih =>
      exact .blank (h c List.mem_cons_self) (ih fun d hd => h d (List.mem_cons_of_mem c hd))

/-! The text of a token -/

def IsDigits (ds : List Char) : Prop :=
  ds ≠ [] ∧ ∀ d ∈ ds, d.isDigit = true

/-- The exponent of a number; it may be missing. -/
inductive SpellsExponent : Int → List Char → Prop
  | none : SpellsExponent 0 []
  | some {mark : Char} {sign : Int} {signText ds : List Char} :
      mark = 'e' ∨ mark = 'E' → (sign, signText) ∈ [(1, []), (1, ['+']), (-1, ['-'])] →
      IsDigits ds → SpellsExponent (sign * digitsValue ds) (mark :: (signText ++ ds))

/-- The texts that a token may have. -/
inductive Spells : Token → List Char → Prop
  | ident (name : String) : Spells (.ident name) name.toList
  | keyword (word : Keyword) : Spells (.keyword word) word.text.toList
  | punct (mark : Punct) : Spells (.punct mark) mark.text.toList
  | bool (b : Bool) : Spells (.literal (.bool b)) (Literal.boolText b).toList
  | int {ds : List Char} : IsDigits ds → digitsValue ds ≤ maxInt →
      Spells (.literal (.int (Int32.ofNat (digitsValue ds)))) ds
  | double {whole fraction exponentText : List Char} {exponent : Int} :
      IsDigits whole → IsDigits fraction → SpellsExponent exponent exponentText →
      Spells (.literal (.double
          (Binary64.ofDecimal (digitsValue (whole ++ fraction)) (exponent - fraction.length))))
        (whole ++ '.' :: (fraction ++ exponentText))
  | char {c : Char} : c ≠ '\'' → c ≠ '\\' → c ≠ '\n' →
      Spells (.literal (.char c)) ['\'', c, '\'']
  | escape {letter c : Char} : escapeValue letter = some c →
      Spells (.literal (.char c)) ['\'', '\\', letter, '\'']
  | str {body value : List Char} :
      stringLength body = body.length → unescape body = some value →
      Spells (.literal (.str (String.ofList value))) ('"' :: (body ++ ['"']))
  | unknown (text : String) : Spells (.unknown text) text.toList

/-! The rules -/

/-- A rule's verdict on the text `c :: rest` is right: layout may be skipped, and a token is
spelled. -/
def Cut.Fits (k : Cut) (c : Char) (rest : List Char) : Prop :=
  match k.piece with
  | .layout => Skipped (rest.drop k.extra) (c :: rest.take k.extra)
  | .token t => Spells t (c :: rest.take k.extra)

theorem take_length_takeWhile (p : Char → Bool) (cs : List Char) :
    cs.take (cs.takeWhile p).length = cs.takeWhile p :=
  (List.prefix_iff_eq_take.mp (List.takeWhile_prefix p)).symm

theorem drop_length_takeWhile (p : Char → Bool) (cs : List Char) :
    cs.drop (cs.takeWhile p).length = cs.dropWhile p := by
  have hdrop : (cs.takeWhile p ++ cs.dropWhile p).drop (cs.takeWhile p).length = cs.dropWhile p :=
    List.drop_left
  rwa [List.takeWhile_append_dropWhile] at hdrop

theorem take_succ_of_head? {n : Nat} {c : Char} (h : (rest.drop n).head? = some c) :
    rest.take (n + 1) = rest.take n ++ [c] := by
  rw [List.take_add]
  cases hrest : rest.drop n with
  | nil => simp [hrest] at h
  | cons d tail =>
      rw [hrest] at h
      cases h
      rfl

theorem fits_refuse (c : Char) (rest : List Char) (n : Nat) : (refuse c rest n).Fits c rest := by
  have hspells := Spells.unknown (String.ofList (c :: rest.take n))
  rwa [String.toList_ofList] at hspells

theorem fits_blanks {c : Char} (hc : isLayout c = true) (rest : List Char) :
    Cut.Fits ⟨.layout, (rest.takeWhile isLayout).length⟩ c rest := by
  show Skipped _ (c :: rest.take _)
  rw [take_length_takeWhile]
  exact .blank hc (skipped_blanks (List.all_eq_true.mp List.all_takeWhile))

/-- A comment ends at its first closing mark. -/
theorem take_commentLength {n : Nat} (h : commentLength rest = some n) :
    ∃ body, rest.take n = body ++ ['*', '/'] ∧ ¬ ['*', '/'] <:+: body := by
  fun_induction commentLength rest generalizing n with
  | case1 rest =>
      cases h
      exact ⟨[], rfl, by simp⟩
  | case2 c rest hopen ih =>
      obtain ⟨k, hk, rfl⟩ := Option.map_eq_some_iff.mp h
      obtain ⟨body, htake, hbody⟩ := ih hk
      refine ⟨c :: body, by rw [List.take_succ_cons, htake, List.cons_append], ?_⟩
      rw [List.infix_cons_iff, not_or]
      refine ⟨?_, hbody⟩
      rintro ⟨tail, htail⟩
      obtain ⟨rfl, rfl⟩ := List.cons.inj htail
      -- The comment would be closed by `c` and the character behind it.
      cases rest with
      | nil => simp at htake
      | cons d rest =>
          cases k with
          | zero => simp at htake
          | succ k => exact hopen rest rfl (by rw [(List.cons.inj htake).1])
  | case3 => cases h

theorem fits_slash (rest : List Char) : (cutSlash rest).Fits '/' rest := by
  fun_cases cutSlash rest with
  | case1 line =>
      show Skipped (('/' :: line).drop _) ('/' :: ('/' :: line).take _)
      rw [Nat.add_comm, List.drop_succ_cons, List.take_succ_cons, take_length_takeWhile,
        drop_length_takeWhile, ← List.append_nil (line.takeWhile _)]
      refine .line ?_ ?_ .nil
      · intro hline
        simpa using List.all_eq_true.mp List.all_takeWhile '\n' hline
      · intro c hc
        have hend := List.head?_dropWhile_not (· != '\n') line
        rw [← List.nil_append (line.dropWhile _), Option.mem_def.mp hc] at hend
        simpa using hend
  | case2 body n hn =>
      obtain ⟨inner, htake, hinner⟩ := take_commentLength hn
      show Skipped _ ('/' :: ('*' :: body).take _)
      rw [Nat.add_comm, List.take_succ_cons, htake]
      exact .block hinner .nil
  | case3 body hn => exact fits_refuse _ _ _
  | case4 => exact .punct .slash

theorem spells_wordToken (text : String) : Spells (wordToken text) text.toList := by
  unfold wordToken
  split
  · rename_i htrue
    rw [eq_of_beq htrue]
    exact .bool true
  · split
    · rename_i hfalse
      rw [eq_of_beq hfalse]
      exact .bool false
    · split
      · rename_i word hword
        unfold Keyword.ofText? at hword
        have htext := List.find?_some hword
        rw [← eq_of_beq htext]
        exact .keyword word
      · exact .ident text

theorem fits_cutName (c : Char) (rest : List Char) : (cutName c rest).Fits c rest := by
  have hident := Spells.ident (String.ofList (c :: rest.take (nameLength rest)))
  have hword := spells_wordToken (String.ofList (c :: rest.take (nameLength rest)))
  rw [String.toList_ofList] at hident hword
  unfold cutName Cut.Fits
  dsimp only
  split
  · exact hident
  · exact hword

theorem isDigits_take (h : digitsLength rest ≠ 0) : IsDigits (rest.take (digitsLength rest)) := by
  unfold digitsLength at h ⊢
  rw [take_length_takeWhile]
  exact ⟨fun hnil => h (by rw [hnil]; rfl), List.all_eq_true.mp List.all_takeWhile⟩

theorem isDigits_cons {c : Char} (hc : c.isDigit = true) (rest : List Char) :
    IsDigits (c :: rest.take (digitsLength rest)) := by
  refine ⟨List.cons_ne_nil _ _, List.forall_mem_cons.mpr ⟨hc, ?_⟩⟩
  rw [digitsLength, take_length_takeWhile]
  exact List.all_eq_true.mp List.all_takeWhile

theorem spellsExponent_take (cs : List Char) :
    SpellsExponent (exponentPart cs).1 (cs.take (exponentPart cs).2) := by
  cases cs with
  | nil => exact .none
  | cons mark rest =>
      have hsign : ((exponentSign rest).1, rest.take (exponentSign rest).2) ∈
          [((1 : Int), []), (1, ['+']), (-1, ['-'])] := by
        unfold exponentSign
        split <;> simp
      simp only [exponentPart]
      split
      · rename_i h
        simp only [Bool.and_eq_true, Bool.or_eq_true, beq_iff_eq, bne_iff_ne] at h
        rw [Nat.add_assoc, Nat.add_comm 1, List.take_succ_cons, List.take_add]
        exact .some h.1 hsign (isDigits_take h.2)
      · exact .none

theorem fits_cutNumber {c : Char} (hc : c.isDigit = true) (rest : List Char) :
    (cutNumber c rest).Fits c rest := by
  have hwhole := isDigits_cons hc rest
  unfold cutNumber
  dsimp only
  split
  · rename_i h
    generalize hfraction : rest.drop (digitsLength rest + 1) = fractionAt at h ⊢
    have htake (k : Nat) : rest.take (digitsLength rest + 1 + k) =
        rest.take (digitsLength rest) ++ '.' :: fractionAt.take k := by
      rw [List.take_add, hfraction, take_succ_of_head? h.1, List.append_assoc]
      rfl
    have hdouble := Spells.double hwhole (isDigits_take h.2)
      (spellsExponent_take (fractionAt.drop (digitsLength fractionAt)))
    rw [List.length_take_of_le (digitsLength_le fractionAt)] at hdouble
    rw [Cut.Fits, Nat.add_assoc (digitsLength rest + 1), htake, List.take_add]
    exact hdouble
  · split
    · rename_i hmax
      exact .int hwhole hmax
    · exact fits_refuse _ _ _

theorem fits_cutChar (rest : List Char) : (cutChar rest).Fits '\'' rest := by
  fun_cases cutChar rest with
  | case1 | case3 | case4 | case6 => exact fits_refuse _ _ _
  | case2 c tail hc v hv => exact .escape hv
  | case5 c tail hescape hc =>
      simp only [Bool.or_eq_true, decide_eq_true_eq, not_or] at hc
      exact .char hc.1.1 hc.1.2 hc.2

theorem stringLength_take (rest : List Char) :
    stringLength (rest.take (stringLength rest)) = stringLength rest := by
  fun_induction stringLength rest with
  | case1 rest => rfl
  | case2 c rest h ih => simp [stringLength, h, ih]
  | case3 c rest hescape h => rfl
  | case4 c rest hescape h ih =>
      have hc : c ≠ '\\' := by
        rintro rfl
        exact h rfl
      rw [List.take_succ_cons, stringLength.eq_2 _ _ fun _ _ hc' => absurd hc' hc, if_neg h, ih]
  | case5 => rfl

theorem fits_cutString (rest : List Char) : (cutString rest).Fits '"' rest := by
  unfold cutString
  dsimp only
  split
  · rename_i hclosed
    split
    · rename_i value hvalue
      rw [Cut.Fits, take_succ_of_head? hclosed]
      refine .str ?_ hvalue
      rw [stringLength_take, List.length_take_of_le (stringLength_le rest)]
    · exact fits_refuse _ _ _
  · exact fits_refuse _ _ _

theorem text_doublePunct {c d : Char} {mark : Punct} (h : doublePunct c d = some mark) :
    mark.text.toList = [c, d] := by
  unfold doublePunct at h
  split at h <;> cases h <;> rfl

theorem text_singlePunct {c : Char} {mark : Punct} (h : singlePunct c = some mark) :
    mark.text.toList = [c] := by
  unfold singlePunct at h
  split at h <;> cases h <;> rfl

theorem fits_cutPunct (c : Char) (rest : List Char) : (cutPunct c rest).Fits c rest := by
  unfold cutPunct
  split
  · rename_i mark hmark
    obtain ⟨d, hd, hmark⟩ := Option.bind_eq_some_iff.mp hmark
    obtain ⟨tail, rfl⟩ := List.head?_eq_some_iff.mp hd
    have hspells := Spells.punct mark
    rwa [text_doublePunct hmark] at hspells
  · split
    · rename_i mark hmark
      have hspells := Spells.punct mark
      rwa [text_singlePunct hmark] at hspells
    · exact fits_refuse _ _ _

theorem fits_cut (c : Char) (rest : List Char) : (cut c rest).Fits c rest := by
  unfold cut
  split
  · rename_i hc
    exact fits_blanks hc rest
  · split
    · rename_i hc
      exact hc ▸ fits_slash rest
    · split
      · exact fits_cutName c rest
      · split
        · rename_i hc
          exact fits_cutNumber hc rest
        · split
          · rename_i hc
            exact hc ▸ fits_cutChar rest
          · split
            · rename_i hc
              exact hc ▸ fits_cutString rest
            · exact fits_cutPunct c rest

/-! Located tokens -/

/-- Behind the text `done` stand layout, a token and so on up to the end of the text. Each token is
cut off by the rules where it stands. -/
inductive Scans : List Char → List Char → Tokens → Prop
  | finish {done gap : List Char} : Skipped [] gap → Scans done gap ⟨[], .behind (done ++ gap)⟩
  | token {done gap cs rest : List Char} {c : Char} {t : Token} {tokens : Tokens} :
      Skipped (c :: cs ++ rest) gap → cut c (cs ++ rest) = ⟨.token t, cs.length⟩ →
      Spells t (c :: cs) → Scans (done ++ gap ++ c :: cs) rest tokens →
      Scans done (gap ++ (c :: cs ++ rest))
        { tokens with lexemes := ⟨t, .behind (done ++ gap)⟩ :: tokens.lexemes }

variable {tokens : Tokens}

theorem Scans.skip (hgap : Skipped text gap) (h : Scans (done ++ gap) text tokens) :
    Scans done (gap ++ text) tokens := by
  generalize hbefore : done ++ gap = before at h
  cases h with
  | finish hrest =>
      rw [← hbefore, List.append_assoc]
      exact .finish (.append (by rwa [List.append_nil]) hrest)
  | @token _ gap' cs rest c t tokens hrest hcut hspells hscans =>
      rw [← hbefore, List.append_assoc done] at hscans ⊢
      rw [← List.append_assoc]
      exact .token (hgap.append hrest) hcut hspells hscans

theorem Scans.first {cs : List Char} {c : Char} {t : Token}
    (hcut : cut c (cs ++ rest) = ⟨.token t, cs.length⟩) (hspells : Spells t (c :: cs))
    (h : Scans (done ++ c :: cs) rest tokens) :
    Scans done (c :: cs ++ rest)
      { tokens with lexemes := ⟨t, .behind done⟩ :: tokens.lexemes } := by
  rw [← List.append_nil done] at h
  have htoken := Scans.token .nil hcut hspells h
  rwa [List.append_nil] at htoken

theorem scans_pieces (done text : List Char) :
    Scans done text (locate (.behind done) (pieces text)) := by
  fun_induction pieces text generalizing done with
  | case1 =>
      have hend : Scans done [] _ := .finish .nil
      rwa [List.append_nil] at hend
  | case2 c rest first ih =>
      have hfits : first.Fits c rest := fits_cut c rest
      have hle : first.extra ≤ rest.length := cut_le c rest
      have hbehind := ih (done ++ c :: rest.take first.extra)
      have htext : c :: rest.take first.extra ++ rest.drop first.extra = c :: rest := by
        rw [List.cons_append, List.take_append_drop]
      rw [← Location.advanceOver_behind] at hbehind
      cases hpiece : first.piece with
      | layout =>
          rw [Cut.Fits, hpiece] at hfits
          have hskip := hbehind.skip hfits
          rwa [htext] at hskip
      | token t =>
          rw [Cut.Fits, hpiece] at hfits
          have hcut : cut c (rest.take first.extra ++ rest.drop first.extra) =
              ⟨.token t, (rest.take first.extra).length⟩ := by
            rw [List.take_append_drop, List.length_take_of_le hle, ← hpiece]
          have htoken := hbehind.first hcut hfits
          rwa [htext] at htoken

theorem Scans.finish_eq (h : Scans done text tokens) : tokens.finish = .behind (done ++ text) := by
  induction h with
  | finish _ => rfl
  | token _ _ _ _ ih => simpa using ih

/-- Every token has a character at least, so the next one begins further behind. -/
theorem Scans.offsets (h : Scans done text tokens) :
    (∀ x ∈ tokens.lexemes, (Location.behind done).offset ≤ x.location.offset) ∧
      tokens.lexemes.Pairwise fun x y => x.location.offset < y.location.offset := by
  induction h with
  | finish _ => exact ⟨by simp, .nil⟩
  | @token done gap cs rest c t tokens _ _ _ _ ih =>
      obtain ⟨hlater, hpairwise⟩ := ih
      have hgap := Location.offset_behind_append done gap
      have htext := Location.offset_behind_append (done ++ gap) (c :: cs)
      have hpos := Location.offset_behind_pos c cs
      refine ⟨List.forall_mem_cons.mpr ⟨?_, fun x hx => ?_⟩, .cons (fun x hx => ?_) hpairwise⟩
      · exact hgap ▸ Nat.le_add_right _ _
      · have := hlater x hx
        omega
      · have := hlater x hx
        simp only
        omega

end Lexer

namespace Tokens

/-- What stands at the front of a stream that is moved on from token to token. -/
def fronts : Nat → Tokens → List (Option Token × Location)
  | 0, _ => []
  | n + 1, s => (s.current?, s.here) :: fronts n s.tail

theorem fronts_finished (n : Nat) (finish : Location) :
    fronts n ⟨[], finish⟩ = List.replicate n (none, finish) := by
  induction n with
  | zero => rfl
  | succ n ih => exact congrArg ((none, finish) :: ·) ih

/-- Behind the last token the end of the stream stays at its front. -/
theorem fronts_remaining (s : Tokens) (n : Nat) :
    s.fronts (s.remaining + n) =
      s.lexemes.map (fun x => (some x.token, x.location)) ++
        List.replicate n (none, s.finish) := by
  obtain ⟨lexemes, finish⟩ := s
  induction lexemes with
  | nil =>
      rw [remaining, List.length_nil, Nat.zero_add]
      exact fronts_finished n finish
  | cons x lexemes ih =>
      rw [remaining, List.length_cons, Nat.add_right_comm]
      exact congrArg ((some x.token, x.location) :: ·) ih

end Tokens

/-- The tokens of a source text, with layout between them, are the text. Their locations count what
stands in front of them, and behind the last one there is only the end of the text. -/
theorem tokenize_partitions (source : String) :
    Lexer.Scans [] source.toList (tokenize source) ∧
    (∀ text, Location.start.advanceOver text = .behind text) ∧
    let s := tokenize source
    s.finish = .behind source.toList ∧
    s.lexemes.Pairwise (fun x y => x.location.offset < y.location.offset) ∧
    ∀ n, s.fronts (s.remaining + n) =
      s.lexemes.map (fun x => (some x.token, x.location)) ++ List.replicate n (none, s.finish) := by
  have hscans : Lexer.Scans [] source.toList (tokenize source) :=
    Lexer.scans_pieces [] source.toList
  refine ⟨hscans, fun text => ?_, hscans.finish_eq, hscans.offsets.2, fun n => ?_⟩
  · exact Location.advanceOver_behind [] text
  · exact (tokenize source).fronts_remaining n

end OnePass

import Bello.Proofs.Decimal.Plain
import Bello.Proofs.Token.Extents

/- Where tokens end.

   How far a token goes is decided by the characters after it: a word goes on to the first
   character that no word has, a text to what closes it. So a token keeps its extent when
   other characters follow it, as long as they end it too. `Scans t rest` says that the
   lexeme of `t` is cut off as that token if the characters `rest` come after it. Words,
   numbers and delimiters are cut off by a space or a line feed, and by the end of the text;
   for texts it depends on how they are closed. -/
namespace Bello.Token

open Text

/-- The lexeme is cut off as that token when `rest` follows. -/
def Scans (t : Token) (rest : List Char) : Prop :=
  ∃ c w, t.lexeme.toList = c :: w ∧ scan c (w ++ rest) = (t.kind, w.length)

/-- Nothing follows, or a space or a line feed. -/
def Clear (rest : List Char) : Prop := ∀ c ∈ rest.head?, c = ' ' ∨ c = '\n'

/-- The token is cut off by whatever leaves it clear. -/
def Stands (t : Token) : Prop := ∀ rest, Clear rest → Scans t rest

theorem Clear.nil : Clear [] := by
  intro c hc
  cases hc

theorem Clear.space (rest : List Char) : Clear (' ' :: rest) := by
  intro c hc
  cases hc
  exact .inl rfl

theorem Clear.feed (rest : List Char) : Clear ('\n' :: rest) := by
  intro c hc
  cases hc
  exact .inr rfl

/-- Characters are never cut off as an end. -/
theorem Scans.isEnd {t : Token} {rest : List Char} (h : Scans t rest) : t.isEnd = false := by
  obtain ⟨c, w, -, hscan⟩ := h
  have hne := scan_ne_endOfInput c (w ++ rest)
  rw [hscan] at hne
  simpa [Token.isEnd] using hne

/-- A test that both characters fail fails on what is first there. -/
theorem Clear.head {rest : List Char} (h : Clear rest) {p : Char → Bool} (hspace : p ' ' = false)
    (hfeed : p '\n' = false) : ∀ c ∈ rest.head?, p c = false := by
  intro c hc
  rcases h c hc with rfl | rfl
  · exact hspace
  · exact hfeed

theorem runLength_append {p : Char → Bool} {w rest : List Char} (hw : ∀ c ∈ w, p c = true)
    (hr : ∀ c ∈ rest.head?, p c = false) : runLength p (w ++ rest) = w.length := by
  rw [runLength, List.takeWhile_append_of_pos hw]
  cases rest with
  | nil => simp
  | cons c rest =>
    rw [List.takeWhile_cons_of_neg (by simp [hr c rfl]), List.append_nil]

/-- A run that ends with `w` is made of it. -/
theorem all_of_runLength {p : Char → Bool} {w rest : List Char}
    (h : runLength p (w ++ rest) = w.length) : ∀ c ∈ w, p c = true := by
  have htaken : (w ++ rest).takeWhile p = w := by
    have hfront := List.prefix_iff_eq_take.1 (List.takeWhile_prefix p (l := w ++ rest))
    rw [hfront, show ((w ++ rest).takeWhile p).length = w.length from h, List.take_left]
  intro c hc
  rw [← htaken] at hc
  exact List.all_eq_true.1 List.all_takeWhile c hc

/-! ## Words -/

theorem scan_of_letter {c : Char} (cs : List Char) (hblank : isBlank c = false)
    (hletter : (isAlphabetic c || c == '_') = true) : scan c cs = scanWord c cs := by
  have hslash : c ≠ '/' := by
    rintro rfl
    revert hletter
    decide
  simp [scan, hblank, hslash, hletter]

/-- A word without a bang after it. -/
theorem scanWord_plain {c : Char} {w rest : List Char} (hw : ∀ d ∈ w, isWordChar d = true)
    (hr : ∀ d ∈ rest.head?, isWordChar d = false) (hbang : rest.head? ≠ some '!') :
    scanWord c (w ++ rest) = (wordKind (String.ofList (c :: w)), w.length) := by
  unfold scanWord
  simp only [runLength_append hw hr, List.take_left, List.drop_left]
  split
  · next hsome _ => exact absurd hsome hbang
  · rfl

/-- A word that is a keyword together with the bang after it. -/
theorem scanWord_bang {c : Char} {w : List Char} {k : Keyword} (rest : List Char)
    (hw : ∀ d ∈ w, isWordChar d = true)
    (hk : Keyword.ofWord? (String.ofList (c :: w) ++ "!") = some k) :
    scanWord c (w ++ '!' :: rest) = (.keyword k, w.length + 1) := by
  have hr : ∀ d ∈ ('!' :: rest).head?, isWordChar d = false := by
    intro d hd
    cases hd
    decide
  unfold scanWord
  simp only [runLength_append hw hr, List.take_left, List.drop_left, List.head?_cons, hk]

/-- The characters are a word of the given kind. -/
def isWord (kind : Kind) : List Char → Bool
  | [] => false
  | c :: w => !isBlank c && (isAlphabetic c || c == '_') && w.all isWordChar &&
      wordKind (String.ofList (c :: w)) == kind

theorem stands_word {kind : Kind} {lexeme : String} (h : isWord kind lexeme.toList = true)
    (span : Span) : Stands ⟨kind, lexeme, span⟩ := by
  intro rest hrest
  cases hlexeme : lexeme.toList with
  | nil => rw [hlexeme] at h; cases h
  | cons c w =>
    rw [hlexeme] at h
    simp only [isWord, Bool.and_eq_true, Bool.not_eq_true', beq_iff_eq, List.all_eq_true] at h
    obtain ⟨⟨⟨hblank, hletter⟩, hw⟩, hkind⟩ := h
    have hbang : rest.head? ≠ some '!' := by
      intro hhead
      rcases hrest '!' hhead with h | h <;> cases h
    refine ⟨c, w, hlexeme, ?_⟩
    rw [scan_of_letter _ hblank hletter,
      scanWord_plain hw (hrest.head (by decide) (by decide)) hbang, hkind]

/-- A keyword that ends in a bang needs nothing else to end it. -/
theorem stands_bang {k : Keyword} {lexeme : String} (c : Char) (w : List Char)
    (hlexeme : lexeme.toList = c :: (w ++ ['!'])) (hblank : isBlank c = false)
    (hletter : (isAlphabetic c || c == '_') = true) (hw : w.all isWordChar = true)
    (hk : Keyword.ofWord? (String.ofList (c :: w) ++ "!") = some k) (span : Span) :
    Stands ⟨.keyword k, lexeme, span⟩ := by
  intro rest _
  refine ⟨c, w ++ ['!'], hlexeme, ?_⟩
  rw [scan_of_letter _ hblank hletter, List.append_assoc, List.singleton_append,
    scanWord_bang rest (List.all_eq_true.1 hw) hk, List.length_append]
  rfl

theorem stands_keyword (k : Keyword) : ∀ span, Stands ⟨.keyword k, k.spelling, span⟩ := by
  cases k with
  | bello =>
    exact stands_bang 'b' "ello".toList (by decide) (by decide) (by decide) (by decide) (by decide)
  | oca =>
    exact stands_bang 'o' "ca".toList (by decide) (by decide) (by decide) (by decide) (by decide)
  | naidu =>
    exact stands_bang 'n' "aidu".toList (by decide) (by decide) (by decide) (by decide) (by decide)
  | _ => exact stands_word (by decide)

theorem stands_operator (o : Operator) : ∀ span, Stands ⟨.operator o, o.spelling, span⟩ := by
  cases o with
  | _ => exact stands_word (by decide)

theorem scan_identifier {c : Char} {cs : List Char} {n : Nat} (h : scan c cs = (.identifier, n)) :
    isBlank c = false ∧ (isAlphabetic c || c == '_') = true ∧ scanWord c cs = (.identifier, n) := by
  have hscanned := scan_scanned c cs
  rw [h] at hscanned
  cases hscanned with
  | word hblank hletter e => exact ⟨hblank, hletter, e.symm⟩
  | number _ e => rcases scanNumber_kind cs with h | h <;> rw [← e] at h <;> cases h
  | blank _ e | line _ _ e | block _ _ e | bang _ e | quote _ e | parenthesis _ e | symbols e =>
    cases e

theorem scanWord_identifier {c : Char} {cs : List Char} {n : Nat}
    (h : scanWord c cs = (.identifier, n)) :
    runLength isWordChar cs = n ∧ wordKind (String.ofList (c :: cs.take n)) = .identifier := by
  unfold scanWord at h
  simp only at h
  split at h
  · cases h
  · obtain ⟨hkind, rfl⟩ := Prod.mk.inj h
    exact ⟨rfl, hkind⟩

/-- A name is a word of its own, whatever followed it where it was read. -/
theorem isWord_of_identifier {c : Char} {w rest : List Char}
    (h : scan c (w ++ rest) = (.identifier, w.length)) : isWord .identifier (c :: w) = true := by
  obtain ⟨hblank, hletter, hscan⟩ := scan_identifier h
  obtain ⟨hlen, hkind⟩ := scanWord_identifier hscan
  rw [List.take_left] at hkind
  have hall : w.all isWordChar = true := List.all_eq_true.2 (all_of_runLength hlen)
  simp only [isWord, hblank, hletter, hall, hkind, Bool.not_false, Bool.and_true, beq_self_eq_true]

/-! ## Numbers -/

theorem digit_cases {c : Char} (h : c.isDigit = true) :
    c ∈ ['0', '1', '2', '3', '4', '5', '6', '7', '8', '9'] := by
  have hrange : 48 ≤ c.toNat ∧ c.toNat ≤ 57 := Char.isDigit_iff_toNat.1 h
  have hn : c.toNat = 48 ∨ c.toNat = 49 ∨ c.toNat = 50 ∨ c.toNat = 51 ∨ c.toNat = 52 ∨
      c.toNat = 53 ∨ c.toNat = 54 ∨ c.toNat = 55 ∨ c.toNat = 56 ∨ c.toNat = 57 := by omega
  rw [← Char.ofNat_toNat c]
  rcases hn with h | h | h | h | h | h | h | h | h | h <;> rw [h] <;> decide

theorem scan_of_digit {c : Char} (cs : List Char) (h : c.isDigit = true) :
    scan c cs = scanNumber cs := by
  have hclass : ['0', '1', '2', '3', '4', '5', '6', '7', '8', '9'].all (fun c =>
      !isBlank c && !(isAlphabetic c || c == '_') && c != '/') = true := by decide
  have hc := List.all_eq_true.1 hclass c (digit_cases h)
  simp only [Bool.and_eq_true, Bool.not_eq_true', bne_iff_ne] at hc
  obtain ⟨⟨hblank, hletter⟩, hslash⟩ := hc
  simp [scan, hblank, hletter, hslash, h]

theorem scan_of_minus {cs : List Char} (h : cs.head?.any Char.isDigit = true) :
    scan '-' cs = scanNumber cs := by
  have hblank : isBlank '-' = false := by decide
  have hletter : isAlphabetic '-' = false := by decide
  simp [scan, hblank, hletter, h]

/-- How far the digits of a number go, with a point and the digits after it. -/
def numeralLength (cs : List Char) : Nat :=
  runLength Char.isDigit cs + fractionLength (cs.drop (runLength Char.isDigit cs))

/-- Nothing, or a point with digits after it. -/
def IsFraction (fs : List Char) : Prop :=
  fs = [] ∨ ∃ f gs, fs = '.' :: f :: gs ∧ ∀ c ∈ f :: gs, c.isDigit = true

/-- A number ends with its digits, unless a letter follows and takes a word with it. -/
theorem scanNumber_cases (cs : List Char) :
    (scanNumber cs = (.number, numeralLength cs) ∧
      ∀ c ∈ (cs.drop (numeralLength cs)).head?, isAlphabetic c = false) ∨
    ∃ c rest, cs.drop (numeralLength cs) = c :: rest ∧ isAlphabetic c = true ∧
      scanNumber cs = (.malformed, numeralLength cs + runLength isWordChar (c :: rest)) := by
  unfold scanNumber
  simp only
  rw [← numeralLength]
  cases hrest : cs.drop (numeralLength cs) with
  | nil => exact .inl ⟨rfl, by simp⟩
  | cons c rest =>
    cases hc : isAlphabetic c with
    | true => exact .inr ⟨c, rest, rfl, hc, by simp [hc]⟩
    | false => exact .inl ⟨by simp [hc], by simpa using hc⟩

/-- Digits, and a fraction, up to something else. -/
theorem numeralLength_append {ds fs rest : List Char} (hds : ∀ c ∈ ds, c.isDigit = true)
    (hfs : IsFraction fs) (hr : ∀ c ∈ rest.head?, c.isDigit = false ∧ c ≠ '.') :
    numeralLength (ds ++ (fs ++ rest)) = (ds ++ fs).length := by
  have hdigit : ∀ c ∈ rest.head?, c.isDigit = false := fun c hc => (hr c hc).1
  have hwhole : runLength Char.isDigit (ds ++ (fs ++ rest)) = ds.length := by
    apply runLength_append hds
    rcases hfs with rfl | ⟨f, gs, rfl, -⟩
    · exact hdigit
    · intro c hc
      cases hc
      decide
  have hfraction : fractionLength (fs ++ rest) = fs.length := by
    rcases hfs with rfl | ⟨f, gs, rfl, hdigits⟩
    · cases rest with
      | nil => rfl
      | cons c rest =>
        have hpoint : c ≠ '.' := (hr c rfl).2
        simp [fractionLength, hpoint]
    · have hrun := runLength_append (fun c hc => hdigits c (List.mem_cons_of_mem f hc)) hdigit
      simp only [List.cons_append, fractionLength, hdigits f List.mem_cons_self, if_true, hrun,
        List.length_cons]
      omega
  rw [numeralLength, hwhole, List.drop_left, hfraction, List.length_append]

/-- Digits, and a point with more digits if there is one. -/
theorem scanNumber_digits {ds fs rest : List Char} (hds : ∀ c ∈ ds, c.isDigit = true)
    (hfs : fs = [] ∨ ∃ f gs, fs = '.' :: f :: gs ∧ ∀ c ∈ f :: gs, c.isDigit = true)
    (hr : Clear rest) : scanNumber (ds ++ (fs ++ rest)) = (.number, (ds ++ fs).length) := by
  have hother : ∀ c ∈ rest.head?, c.isDigit = false ∧ c ≠ '.' := by
    intro c hc
    rcases hr c hc with rfl | rfl
    · exact ⟨by decide, by decide⟩
    · exact ⟨by decide, by decide⟩
  have hlength := numeralLength_append hds hfs hother
  have hdrop : (ds ++ (fs ++ rest)).drop (ds ++ fs).length = rest := by
    rw [← List.append_assoc, List.drop_left]
  rcases scanNumber_cases (ds ++ (fs ++ rest)) with ⟨h, -⟩ | ⟨c, more, hmore, hletter, -⟩
  · rw [h, hlength]
  · rw [hlength, hdrop] at hmore
    have halpha := hr.head (p := isAlphabetic) (by decide) (by decide) c (by rw [hmore]; rfl)
    rw [hletter] at halpha
    cases halpha

/-- The plain digits of a decimal are one number. -/
theorem stands_number (d : Decimal) (span : Span) : Stands ⟨.number, d.plain, span⟩ := by
  intro rest hrest
  have hlexeme : d.plain.toList = Decimal.plainChars d.mantissa d.scale := String.toList_ofList
  have hfs := Decimal.fractionChars_cases d.mantissa.natAbs d.scale
  rw [Decimal.plainChars_eq] at hlexeme
  have hdigits : ∀ c ∈ Decimal.digits (d.mantissa.natAbs / tenPow d.scale), c.isDigit = true :=
    fun c hc => Decimal.isDigit_digits hc
  obtain ⟨c, cs, hcs⟩ := Decimal.digits_cons (d.mantissa.natAbs / tenPow d.scale)
  rw [hcs] at hlexeme hdigits
  have hc := hdigits c List.mem_cons_self
  by_cases hneg : d.mantissa < 0
  · rw [if_pos hneg, List.singleton_append] at hlexeme
    refine ⟨'-', _, hlexeme, ?_⟩
    rw [scan_of_minus (by simpa using hc), List.append_assoc]
    exact scanNumber_digits hdigits hfs hrest
  · rw [if_neg hneg, List.nil_append, List.cons_append] at hlexeme
    refine ⟨c, _, hlexeme, ?_⟩
    rw [scan_of_digit _ hc, List.append_assoc]
    exact scanNumber_digits (fun d hd => hdigits d (List.mem_cons_of_mem c hd)) hfs hrest

/-! ## Delimiters -/

/-- Parentheses stand alone. -/
theorem scans_parenthesis {t : Token} (rest : List Char) (hkind : t.kind = .delimiter)
    (hlexeme : t.lexeme = "(" ∨ t.lexeme = ")") : Scans t rest := by
  rcases hlexeme with h | h
  · exact ⟨'(', [], by rw [h]; rfl, by rw [hkind]; rfl⟩
  · exact ⟨')', [], by rw [h]; rfl, by rw [hkind]; rfl⟩

theorem stands_symbol {t : Token} (hkind : t.kind = .delimiter)
    (hlexeme : t.lexeme = "," ∨ t.lexeme = "=") : Stands t := by
  intro rest hrest
  have hlength : symbolsLength 0 rest = 0 := by
    cases rest with
    | nil => rfl
    | cons c rest =>
      have hends : endsSymbols c = true := by
        rcases hrest c rfl with rfl | rfl
        · decide
        · decide
      rw [symbolsLength, hends]
      rfl
  rcases hlexeme with h | h
  · refine ⟨',', [], by rw [h]; rfl, ?_⟩
    rw [hkind, List.nil_append]
    show (Kind.delimiter, symbolsLength 0 rest) = _
    rw [hlength]
    rfl
  · refine ⟨'=', [], by rw [h]; rfl, ?_⟩
    rw [hkind, List.nil_append]
    show (Kind.delimiter, symbolsLength 0 rest) = _
    rw [hlength]
    rfl

/-! ## Texts -/

theorem le_bangTextLength (n : Nat) (cs : List Char) : n ≤ bangTextLength n cs := by
  fun_induction bangTextLength n cs with
  | case1 n => exact Nat.le_refl n
  | case2 n cs ih => omega
  | case3 n cs _ => omega
  | case4 n c cs _ _ ih => omega

/-- A text between bangs that ends before the characters do is closed there, and nothing but
    another bang can go on with it. -/
theorem bangTextLength_closed {rest rest' : List Char} (hrest : rest ≠ [])
    (hbang : rest'.head? ≠ some '!') : ∀ (w : List Char) (n : Nat),
      bangTextLength n (w ++ rest) = n + w.length →
      bangTextLength n (w ++ rest') = n + w.length := by
  intro w n h
  generalize hcs : w ++ rest = cs at h
  fun_induction bangTextLength n cs generalizing w with
  | case1 n => exact absurd (List.append_eq_nil_iff.1 hcs).2 hrest
  | case2 n cs ih =>
    have hle := le_bangTextLength (n + 2) cs
    cases w with
    | nil => simp only [List.length_nil] at h; omega
    | cons a w =>
      cases w with
      | nil => simp only [List.length_singleton] at h; omega
      | cons b w =>
        cases hcs
        simp only [List.length_cons] at h
        rw [List.cons_append, List.cons_append, bangTextLength, ih w rfl (by omega),
          List.length_cons, List.length_cons]
        omega
  | case3 n cs hnext =>
    cases w with
    | nil => simp only [List.length_nil] at h; omega
    | cons a w =>
      cases w with
      | nil =>
        cases hcs
        rw [List.singleton_append, bangTextLength]
        · rfl
        · intro tail htail
          rw [htail] at hbang
          exact hbang rfl
      | cons b w => simp only [List.length_cons] at h; omega
  | case4 n c cs hpair hc ih =>
    have hle := le_bangTextLength (n + 1) cs
    cases w with
    | nil => simp only [List.length_nil] at h; omega
    | cons a w =>
      cases hcs
      simp only [List.length_cons] at h
      rw [List.cons_append, bangTextLength, ih w rfl (by omega), List.length_cons]
      · omega
      · intro tail ha
        exact absurd ha hc
      · exact hc

theorem le_quotedTextLength (n : Nat) (cs : List Char) : n ≤ quotedTextLength n cs := by
  fun_induction quotedTextLength n cs with
  | case1 n => exact Nat.le_refl n
  | case2 n cs => omega
  | case3 n c cs _ ih => omega

/-- A quoted text that ends before the characters do is closed there. -/
theorem quotedTextLength_closed {rest : List Char} (rest' : List Char) (hrest : rest ≠ []) :
    ∀ (w : List Char) (n : Nat), quotedTextLength n (w ++ rest) = n + w.length →
      quotedTextLength n (w ++ rest') = n + w.length := by
  intro w n h
  generalize hcs : w ++ rest = cs at h
  fun_induction quotedTextLength n cs generalizing w with
  | case1 n => exact absurd (List.append_eq_nil_iff.1 hcs).2 hrest
  | case2 n cs =>
    cases w with
    | nil => simp only [List.length_nil] at h; omega
    | cons a w =>
      cases w with
      | nil => cases hcs; rfl
      | cons b w => simp only [List.length_cons] at h; omega
  | case3 n c cs hc ih =>
    have hle := le_quotedTextLength (n + 1) cs
    cases w with
    | nil => simp only [List.length_nil] at h; omega
    | cons a w =>
      cases hcs
      rw [List.cons_append, quotedTextLength,
        ih w rfl (by simp only [List.length_cons] at h; omega), List.length_cons]
      · omega
      · exact hc

theorem scan_bang (cs : List Char) :
    scan '!' cs = (.text, if cs.head? = some ')' then 0 else bangTextLength 0 cs) := rfl

theorem scan_quote (cs : List Char) : scan '"' cs = (.text, quotedTextLength 0 cs) := rfl

/-- Texts open with a bang or a quote. -/
theorem scan_text {c : Char} {cs : List Char} {n : Nat} (h : scan c cs = (.text, n)) :
    c = '!' ∨ c = '"' := by
  have hscanned := scan_scanned c cs
  rw [h] at hscanned
  cases hscanned with
  | bang hc _ => exact .inl hc
  | quote hc _ => exact .inr hc
  | word _ _ e =>
    rcases scanWord_kind c cs with ⟨k, h⟩ | ⟨o, h⟩ | h <;> rw [← e] at h <;> cases h
  | number _ e => rcases scanNumber_kind cs with h | h <;> rw [← e] at h <;> cases h
  | blank _ e | line _ _ e | block _ _ e | parenthesis _ e | symbols e => cases e

/-- A text with something after its opening bang, if it does not reach the end of the
    characters, is closed. -/
theorem scan_bang_closed {a : Char} {w rest rest' : List Char} (hrest : rest ≠ [])
    (hbang : rest'.head? ≠ some '!')
    (h : scan '!' (a :: w ++ rest) = (.text, (a :: w).length)) :
    scan '!' (a :: w ++ rest') = (.text, (a :: w).length) := by
  rw [scan_bang] at h ⊢
  obtain ⟨-, h⟩ := Prod.mk.inj h
  have ha : a ≠ ')' := by
    rintro rfl
    rw [List.cons_append, List.head?_cons, if_pos rfl, List.length_cons] at h
    omega
  have hhead : ∀ rest, (a :: w ++ rest).head? ≠ some ')' := by
    intro rest hhead
    exact ha (Option.some.inj hhead)
  rw [if_neg (hhead rest)] at h
  rw [if_neg (hhead rest')]
  have hclosed : bangTextLength 0 (a :: w ++ rest') = 0 + (a :: w).length :=
    bangTextLength_closed hrest hbang (a :: w) 0 (by rw [h, Nat.zero_add])
  rw [hclosed, Nat.zero_add]

/-- So is a quoted text. -/
theorem scan_quote_closed {w rest : List Char} (rest' : List Char) (hrest : rest ≠ [])
    (h : scan '"' (w ++ rest) = (.text, w.length)) :
    scan '"' (w ++ rest') = (.text, w.length) := by
  rw [scan_quote] at h ⊢
  obtain ⟨-, h⟩ := Prod.mk.inj h
  rw [quotedTextLength_closed _ hrest w 0 (by rw [h, Nat.zero_add]), Nat.zero_add]

/-- A text that does not reach the end of the characters is cut off by a parenthesis too. -/
theorem scan_text_parenthesis {c : Char} {w rest : List Char}
    (h : scan c (w ++ rest) = (.text, w.length)) (hrest : rest ≠ []) (rest' : List Char) :
    scan c (w ++ ')' :: rest') = (.text, w.length) := by
  rcases scan_text h with rfl | rfl
  · cases w with
    | nil => rfl
    | cons a w => exact scan_bang_closed hrest (by simp) h
  · exact scan_quote_closed _ hrest h

/-! ## Tokens in a text -/

theorem runLength_le (p : Char → Bool) (cs : List Char) : runLength p cs ≤ cs.length :=
  (List.takeWhile_sublist p).length_le

theorem blockCommentLength_le (n : Nat) (cs : List Char) :
    blockCommentLength n cs ≤ n + cs.length := by
  fun_induction blockCommentLength n cs with
  | case1 n => exact Nat.le_refl n
  | case2 n cs => simp only [List.length_cons]; omega
  | case3 n c cs _ ih => simp only [List.length_cons]; omega

theorem bangTextLength_le (n : Nat) (cs : List Char) : bangTextLength n cs ≤ n + cs.length := by
  fun_induction bangTextLength n cs with
  | case1 n => exact Nat.le_refl n
  | case2 n cs ih => simp only [List.length_cons]; omega
  | case3 n cs _ => simp only [List.length_cons]; omega
  | case4 n c cs _ _ ih => simp only [List.length_cons]; omega

theorem quotedTextLength_le (n : Nat) (cs : List Char) :
    quotedTextLength n cs ≤ n + cs.length := by
  fun_induction quotedTextLength n cs with
  | case1 n => exact Nat.le_refl n
  | case2 n cs => simp only [List.length_cons]; omega
  | case3 n c cs _ ih => simp only [List.length_cons]; omega

theorem symbolsLength_le (n : Nat) (cs : List Char) : symbolsLength n cs ≤ n + cs.length := by
  fun_induction symbolsLength n cs with
  | case1 n => exact Nat.le_refl n
  | case2 n c cs _ => omega
  | case3 n c cs _ ih => simp only [List.length_cons]; omega

theorem fractionLength_le (cs : List Char) : fractionLength cs ≤ cs.length := by
  unfold fractionLength
  split
  · next c cs =>
    have hrun := runLength_le Char.isDigit cs
    split
    · simp only [List.length_cons]; omega
    · omega
  · omega

theorem numeralLength_le (cs : List Char) : numeralLength cs ≤ cs.length := by
  have hwhole := runLength_le Char.isDigit cs
  have hfraction := fractionLength_le (cs.drop (runLength Char.isDigit cs))
  rw [List.length_drop] at hfraction
  unfold numeralLength
  omega

theorem scanNumber_le (cs : List Char) : (scanNumber cs).2 ≤ cs.length := by
  have hdigits := numeralLength_le cs
  rcases scanNumber_cases cs with ⟨h, -⟩ | ⟨c, rest, hrest, -, h⟩
  · rw [h]
    exact hdigits
  · have hrun := runLength_le isWordChar (c :: rest)
    rw [← hrest, List.length_drop] at hrun
    rw [h, ← hrest]
    show numeralLength cs + runLength isWordChar (cs.drop (numeralLength cs)) ≤ cs.length
    omega

theorem scanWord_le (c : Char) (cs : List Char) : (scanWord c cs).2 ≤ cs.length := by
  have hrun := runLength_le isWordChar cs
  unfold scanWord
  simp only
  split
  · next hbang _ =>
    -- There is a bang behind the word, so the word is not all.
    obtain ⟨rest, hrest⟩ := List.head?_eq_some_iff.1 hbang
    have hlen := congrArg List.length hrest
    rw [List.length_drop, List.length_cons] at hlen
    show runLength isWordChar cs + 1 ≤ cs.length
    omega
  · exact hrun

/-- A token ends within the characters. -/
theorem scan_le (c : Char) (cs : List Char) : (scan c cs).2 ≤ cs.length := by
  cases scan_scanned c cs with
  | blank _ e | line _ _ e => rw [e]; exact runLength_le _ cs
  | block _ hhead e =>
    obtain ⟨rest, rfl⟩ := List.head?_eq_some_iff.1 hhead
    have hle := blockCommentLength_le 1 rest
    rw [e, List.length_cons]
    show blockCommentLength 1 rest ≤ rest.length + 1
    omega
  | word _ _ e => rw [e]; exact scanWord_le c cs
  | number _ e => rw [e]; exact scanNumber_le cs
  | bang _ e =>
    have hle := bangTextLength_le 0 cs
    rw [e]
    show (if cs.head? = some ')' then 0 else bangTextLength 0 cs) ≤ cs.length
    split <;> omega
  | quote _ e =>
    have hle := quotedTextLength_le 0 cs
    rw [e]
    show quotedTextLength 0 cs ≤ cs.length
    omega
  | parenthesis _ e => rw [e]; exact Nat.zero_le _
  | symbols e =>
    have hle := symbolsLength_le 0 cs
    rw [e]
    show symbolsLength 0 cs ≤ cs.length
    omega

/-- What is cut off is cut off by what follows. -/
theorem scans_of_scan {c : Char} {cs : List Char} {kind : Kind} {n : Nat}
    (h : scan c cs = (kind, n)) (span : Span) :
    Scans ⟨kind, String.ofList (c :: cs.take n), span⟩ (cs.drop n) := by
  have hn : n ≤ cs.length := by
    have hle := scan_le c cs
    rwa [h] at hle
  refine ⟨c, cs.take n, String.toList_ofList, ?_⟩
  rw [List.take_append_drop, h, List.length_take, Nat.min_eq_left hn]

/-- Each token of a text but the end is cut off by what follows it there; if that is nothing,
    the token is the last one. -/
theorem Cut.scans {offset : Nat} {cs : List Char} {ts : List Token} (h : Cut offset cs ts) :
    ∀ t ∈ ts, t.isEnd = false → ∃ rest, Scans t rest ∧
      (rest = [] → ∃ before stop, ts = before ++ [t, endOfInput stop]) := by
  induction h with
  | nil offset =>
    intro t ht hend
    rw [List.mem_singleton.1 ht] at hend
    cases hend
  | @cons offset c cs kind n ts hscan hrest ih =>
    intro t ht hend
    rcases List.mem_cons.1 ht with rfl | ht
    · refine ⟨cs.drop n, scans_of_scan hscan _, ?_⟩
      intro hnil
      rw [hnil] at hrest
      cases hrest with
      | nil _ => exact ⟨[], _, rfl⟩
    · obtain ⟨rest, hscans, hlast⟩ := ih t ht hend
      refine ⟨rest, hscans, fun hnil => ?_⟩
      obtain ⟨before, stop, rfl⟩ := hlast hnil
      exact ⟨_ :: before, stop, rfl⟩

end Bello.Token

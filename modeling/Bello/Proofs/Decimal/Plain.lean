import Bello.Decimal.Text

/- Plain digits and what they denote.

   The printer writes a mantissa over a power of ten as a whole part and, after a point, as
   many digits as the power says. The reader takes digits one by one and gives up when the
   mantissa no longer fits. The digits of a decimal never come to that, since digits read
   later only make the mantissa grow: so it is read back, with its scale (`ofPlain?_plain`). -/
namespace Bello.Decimal

/-! ## Digits -/

theorem isDigit_digits {n : Nat} {c : Char} (h : c ∈ digits n) : c.isDigit = true :=
  Nat.isDigit_of_mem_toDigits (by decide) (by decide) h

/-- There is a first digit. -/
theorem digits_cons (n : Nat) : ∃ c cs, digits n = c :: cs :=
  List.exists_cons_of_ne_nil Nat.toDigits_ne_nil

theorem isDigit_paddedDigits {width n : Nat} {c : Char} (h : c ∈ paddedDigits width n) :
    c.isDigit = true := by
  rcases List.mem_append.1 h with h | h
  · rw [List.eq_of_mem_replicate h]
    decide
  · exact isDigit_digits h

theorem length_paddedDigits {width n : Nat} (hw : 0 < width) (hn : n < tenPow width) :
    (paddedDigits width n).length = width := by
  have hlen : (digits n).length ≤ width := (Nat.length_toDigits_le_iff (by decide) hw).2 hn
  rw [paddedDigits, List.length_append, List.length_replicate]
  omega

theorem ofDigitChars_digits (n : Nat) : Nat.ofDigitChars 10 (digits n) 0 = n :=
  Nat.ofDigitChars_toDigits (by decide) (by decide)

theorem ofDigitChars_paddedDigits (width n : Nat) :
    Nat.ofDigitChars 10 (paddedDigits width n) 0 = n := by
  rw [paddedDigits, Nat.ofDigitChars_append, Nat.ofDigitChars_replicate_zero, Nat.mul_zero,
    ofDigitChars_digits]

/-- More digits make a number no smaller. -/
theorem le_ofDigitChars (cs : List Char) (m : Nat) : m ≤ Nat.ofDigitChars 10 cs m := by
  have hpos : 0 < 10 ^ cs.length := Nat.pow_pos (by decide)
  have hm : m ≤ 10 ^ cs.length * m := Nat.le_mul_of_pos_left m hpos
  rw [Nat.ofDigitChars_eq_ofDigitChars_zero]
  omega

/-! ## Reading digits -/

theorem ne_of_isDigit {c d : Char} (h : c.isDigit = true) (hd : d.isDigit = false) : c ≠ d := by
  rintro rfl
  rw [h] at hd
  cases hd

theorem readWhole_digits {cs : List Char} (rest : List Char) (hcs : ∀ c ∈ cs, c.isDigit = true) :
    ∀ m, Nat.ofDigitChars 10 cs m < capacity →
      readWhole m (cs ++ rest) = readWhole (Nat.ofDigitChars 10 cs m) rest := by
  induction cs with
  | nil => intro m _; rfl
  | cons c cs ih =>
    intro m hm
    have hc := hcs c List.mem_cons_self
    have hnext : m * 10 + digitValue c = 10 * m + (c.toNat - '0'.toNat) := by
      rw [Nat.mul_comm]; rfl
    rw [Nat.ofDigitChars_cons] at hm ⊢
    have hfits : m * 10 + digitValue c < capacity := by
      rw [hnext]
      exact Nat.lt_of_le_of_lt (le_ofDigitChars cs _) hm
    rw [List.cons_append, readWhole, if_neg (ne_of_isDigit hc (by decide)),
      if_neg (ne_of_isDigit hc (by decide)), if_pos hc]
    simp only [if_pos hfits]
    rw [hnext]
    exact ih (fun d hd => hcs d (List.mem_cons_of_mem c hd)) _ hm

theorem readFraction_digits {cs : List Char} (hcs : ∀ c ∈ cs, c.isDigit = true) :
    ∀ m places, Nat.ofDigitChars 10 cs m < capacity → places + cs.length ≤ maxScale →
      readFraction m places cs = some (Nat.ofDigitChars 10 cs m, places + cs.length) := by
  induction cs with
  | nil => intro m places _ _; rfl
  | cons c cs ih =>
    intro m places hm hplaces
    have hc := hcs c List.mem_cons_self
    have hnext : m * 10 + digitValue c = 10 * m + (c.toNat - '0'.toNat) := by
      rw [Nat.mul_comm]; rfl
    rw [Nat.ofDigitChars_cons] at hm ⊢
    rw [List.length_cons] at hplaces ⊢
    have hfits : ¬(places = maxScale ∨ capacity ≤ m * 10 + digitValue c) := by
      have hle := le_ofDigitChars cs (10 * m + (c.toNat - '0'.toNat))
      rw [hnext]
      omega
    rw [readFraction, if_neg (ne_of_isDigit hc (by decide)), if_pos hc]
    simp only [if_neg hfits]
    rw [hnext, ih (fun d hd => hcs d (List.mem_cons_of_mem c hd)) _ _ hm (by omega)]
    congr 2
    omega

/-! ## Reading what was written -/

/-- The part of the plain digits after the point, with the point. -/
def fractionChars (n scale : Nat) : List Char :=
  if scale = 0 then [] else '.' :: paddedDigits scale (n % tenPow scale)

theorem fractionChars_cases (n scale : Nat) : fractionChars n scale = [] ∨
    ∃ c cs, fractionChars n scale = '.' :: c :: cs ∧ ∀ d ∈ c :: cs, d.isDigit = true := by
  unfold fractionChars
  split
  · exact .inl rfl
  · next hscale =>
    have hmod : n % tenPow scale < tenPow scale := Nat.mod_lt n (tenPow_pos scale)
    have hlen := length_paddedDigits (Nat.pos_of_ne_zero hscale) hmod
    obtain ⟨c, cs, hcs⟩ := List.exists_cons_of_length_pos (hlen ▸ Nat.pos_of_ne_zero hscale)
    exact .inr ⟨c, cs, by rw [hcs], fun d hd => isDigit_paddedDigits (hcs ▸ hd)⟩

theorem plainChars_eq (mantissa : Int) (scale : Nat) :
    plainChars mantissa scale = (if mantissa < 0 then ['-'] else []) ++
      (digits (mantissa.natAbs / tenPow scale) ++ fractionChars mantissa.natAbs scale) :=
  List.append_assoc _ _ _

theorem readUnsigned_plain {n scale : Nat} (hn : n < capacity) (hs : scale ≤ maxScale) :
    readUnsigned (digits (n / tenPow scale) ++ fractionChars n scale) = some (n, scale) := by
  have hwhole : readUnsigned (digits (n / tenPow scale) ++ fractionChars n scale) =
      readWhole 0 (digits (n / tenPow scale) ++ fractionChars n scale) := by
    obtain ⟨c, cs, hcs⟩ := digits_cons (n / tenPow scale)
    have hc : c.isDigit = true := isDigit_digits (n := n / tenPow scale) (by simp [hcs])
    rw [hcs, List.cons_append, readUnsigned, if_pos hc]
    rintro rest d rfl
    cases hc
  have hdiv : n / tenPow scale < capacity := Nat.lt_of_le_of_lt (Nat.div_le_self _ _) hn
  rw [hwhole, readWhole_digits _ (fun c hc => isDigit_digits hc) 0 (by rwa [ofDigitChars_digits]),
    ofDigitChars_digits, fractionChars]
  by_cases h0 : scale = 0
  · subst h0
    rw [if_pos rfl, readWhole, show tenPow 0 = 1 from rfl, Nat.div_one]
  · have hmod : n % tenPow scale < tenPow scale := Nat.mod_lt n (tenPow_pos scale)
    have hvalue : Nat.ofDigitChars 10 (paddedDigits scale (n % tenPow scale)) (n / tenPow scale) =
        n := by
      rw [Nat.ofDigitChars_eq_ofDigitChars_zero, ofDigitChars_paddedDigits,
        length_paddedDigits (by omega) hmod]
      exact Nat.div_add_mod n (tenPow scale)
    have hread := readFraction_digits (fun c hc => isDigit_paddedDigits hc) (n / tenPow scale) 0
      (by rwa [hvalue]) (by rwa [length_paddedDigits (by omega) hmod, Nat.zero_add])
    rw [if_neg h0, readWhole, if_neg (by decide), if_pos rfl, hread, hvalue,
      length_paddedDigits (by omega) hmod, Nat.zero_add]

/-- Digits have no sign in front. -/
theorem splitSign_digits (n : Nat) (rest : List Char) :
    splitSign (digits n ++ rest) = (false, digits n ++ rest) := by
  obtain ⟨c, cs, hcs⟩ := digits_cons n
  have hc : c.isDigit = true := isDigit_digits (n := n) (by simp [hcs])
  rw [hcs, List.cons_append, splitSign]
  · intro _ h; cases h; cases hc
  · intro _ h; cases h; cases hc

theorem readPlain_plainChars (d : Decimal) :
    readPlain (plainChars d.mantissa d.scale) = some d := by
  have hread := readUnsigned_plain d.mantissa_lt d.scale_le
  have hparts : ofParts? d.mantissa d.scale = some d := dif_pos ⟨d.mantissa_lt, d.scale_le⟩
  rw [plainChars_eq, readPlain]
  by_cases hneg : d.mantissa < 0
  · have hsigned : signed true d.mantissa.natAbs = d.mantissa := by
      rw [signed, if_pos rfl]
      omega
    rw [if_pos hneg, List.singleton_append, splitSign]
    simp only [hread, Option.bind_some, hsigned, hparts]
  · have hsigned : signed false d.mantissa.natAbs = d.mantissa := by
      rw [signed, if_neg (by decide)]
      omega
    rw [if_neg hneg, List.nil_append, splitSign_digits]
    simp only [hread, Option.bind_some, hsigned, hparts]

/-- Plain digits denote the decimal that they were written for, at its scale. -/
theorem ofPlain?_plain (d : Decimal) : ofPlain? d.plain = some d := by
  rw [ofPlain?, plain, String.toList_ofList, readPlain_plainChars]

theorem ofString?_plain (d : Decimal) : ofString? d.plain = some d := by
  rw [ofString?, plain, String.toList_ofList, ofChars?, readPlain_plainChars, Option.some_or]

/-- Plain digits are digits, a sign and a point. -/
theorem mem_plain {d : Decimal} {c : Char} (h : c ∈ d.plain.toList) :
    c = '-' ∨ c = '.' ∨ c.isDigit = true := by
  rw [plain, String.toList_ofList, plainChars_eq, List.mem_append, List.mem_append] at h
  rcases h with h | h | h
  · split at h
    · exact .inl (List.mem_singleton.1 h)
    · cases h
  · exact .inr (.inr (isDigit_digits h))
  · rcases fractionChars_cases d.mantissa.natAbs d.scale with he | ⟨f, fs, he, hdigits⟩
    · rw [he] at h
      cases h
    · rw [he] at h
      rcases List.mem_cons.1 h with rfl | h
      · exact .inr (.inl rfl)
      · exact .inr (.inr (hdigits c h))

end Bello.Decimal

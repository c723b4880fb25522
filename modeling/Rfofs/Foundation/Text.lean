import Rfofs.Foundation.MachineInt

namespace Rfofs
namespace Foundation

/-!
# Text as a list of characters

A text is the list of its Unicode scalar values.  The operations of this module are
those of a standard library whose texts are stored in UTF-8: positions are counted in
bytes, and a position inside a character is no place to cut.  White space is the
Unicode property, while letter case and digits are those of ASCII.

Each operation has the lemma that a parser needs of it: a search names the two sides of
what it found, a cut at a found position gives these sides back, splitting into words
does not see the white space around a text, and a number is read exactly when it is a
run of digits, with or without a plus sign in front, whose value fits.
-/

/-! ## Positions in bytes -/

section Positions

/-- Length of a text in bytes. -/
def byteLen (s : List Char) : Nat := (s.map Char.utf8Size).sum

/-- Position of the first occurrence of a character, in bytes. -/
def find (wanted : Char) : List Char → Option Nat
  | [] => none
  | c :: rest => if c = wanted then some 0 else (find wanted rest).map (c.utf8Size + ·)

/-- Cut a text at a position; there is none inside a character or behind the end. -/
def splitAtByte : List Char → Nat → Option (List Char × List Char)
  | s, 0 => some ([], s)
  | [], _ + 1 => none
  | c :: rest, position + 1 =>
      if c.utf8Size ≤ position + 1 then
        (splitAtByte rest (position + 1 - c.utf8Size)).map fun parts => (c :: parts.1, parts.2)
      else
        none

/-- The text before a position. -/
def sliceTo (s : List Char) (position : Nat) : Option (List Char) :=
  (splitAtByte s position).map Prod.fst

/-- The text from a position on. -/
def sliceFrom (s : List Char) (position : Nat) : Option (List Char) :=
  (splitAtByte s position).map Prod.snd

theorem byteLen_cons (c : Char) (s : List Char) : byteLen (c :: s) = c.utf8Size + byteLen s := by
  rw [byteLen, List.map_cons, List.sum_cons, byteLen]

theorem byteLen_append (s t : List Char) : byteLen (s ++ t) = byteLen s + byteLen t := by
  rw [byteLen, List.map_append, List.sum_append, byteLen, byteLen]

/-- The end of a part is a place to cut. -/
theorem splitAtByte_append (before after : List Char) :
    splitAtByte (before ++ after) (byteLen before) = some (before, after) := by
  induction before with
  | nil => cases after <;> rfl
  | cons c before ih =>
      have positive := c.utf8Size_pos
      rcases Nat.exists_eq_add_of_lt positive with ⟨size, size_eq⟩
      have position : byteLen (c :: before) = size + byteLen before + 1 := by
        rw [byteLen_cons]
        omega
      have rest : size + byteLen before + 1 - c.utf8Size = byteLen before := by omega
      rw [position, List.cons_append, splitAtByte, if_pos (by omega), rest, ih]
      rfl

/-- A character that is not there is not found. -/
theorem find_eq_none {wanted : Char} {s : List Char} (absent : wanted ∉ s) :
    find wanted s = none := by
  induction s with
  | nil => rfl
  | cons c rest ih =>
      rw [List.mem_cons, not_or] at absent
      rw [find, if_neg (Ne.symm absent.1), ih absent.2]
      rfl

/-- A character is found where it stands first. -/
theorem find_append {wanted : Char} {before : List Char} (absent : wanted ∉ before)
    (after : List Char) : find wanted (before ++ wanted :: after) = some (byteLen before) := by
  induction before with
  | nil => exact if_pos rfl
  | cons c before ih =>
      rw [List.mem_cons, not_or] at absent
      rw [List.cons_append, find, if_neg (Ne.symm absent.1), ih absent.2, byteLen_cons]
      rfl

/-- The two sides of a character of one byte are places to cut. -/
theorem slice_around {wanted : Char} (oneByte : wanted.utf8Size = 1) (before after : List Char) :
    sliceTo (before ++ wanted :: after) (byteLen before) = some before ∧
      sliceFrom (before ++ wanted :: after) (byteLen before + 1) = some after := by
  constructor
  · rw [sliceTo, splitAtByte_append]
    rfl
  · have position : byteLen (before ++ [wanted]) = byteLen before + 1 := by
      rw [byteLen_append, byteLen_cons, oneByte]
      rfl
    rw [sliceFrom, ← position, List.append_cons, splitAtByte_append]
    rfl

/-- A text has one first occurrence of a character. -/
theorem eq_of_first {letter : Char} {before after before' after' : List Char}
    (first : letter ∉ before) (first' : letter ∉ before')
    (same : before ++ letter :: after = before' ++ letter :: after') :
    before = before' ∧ after = after' := by
  have found := find_append first after
  rw [same, find_append first' after', Option.some.injEq] at found
  have cut := splitAtByte_append before (letter :: after)
  rw [same, ← found, splitAtByte_append, Option.some.injEq, Prod.mk.injEq, List.cons.injEq] at cut
  exact ⟨cut.1.symm, cut.2.2.symm⟩

end Positions

/-! ## Letter case and white space -/

section Words

/-- Equality that does not see the case of ASCII letters. -/
def eqIgnoreAsciiCase (s t : List Char) : Bool := s.map Char.toLower = t.map Char.toLower

def toAsciiUppercase (s : List Char) : List Char := s.map Char.toUpper

/-- The characters of Unicode white space. -/
def isWhitespace (c : Char) : Bool :=
  (9 ≤ c.toNat && c.toNat ≤ 13) || (0x2000 ≤ c.toNat && c.toNat ≤ 0x200A) ||
    c.toNat ∈ [0x20, 0x85, 0xA0, 0x1680, 0x2028, 0x2029, 0x202F, 0x205F, 0x3000]

/-- A text without the white space around it. -/
def trim (s : List Char) : List Char := (s.dropWhile isWhitespace).rdropWhile isWhitespace

/-- The words of a text that continues a word already begun. -/
def wordsFrom (begun : List Char) : List Char → List (List Char)
  | [] => if begun = [] then [] else [begun]
  | c :: rest =>
      if isWhitespace c then
        (if begun = [] then [] else [begun]) ++ wordsFrom [] rest
      else
        wordsFrom (begun ++ [c]) rest

/-- The runs of a text that are not white space. -/
def splitWhitespace (s : List Char) : List (List Char) := wordsFrom [] s

theorem wordsFrom_blank {blank : List Char} (white : ∀ c ∈ blank, isWhitespace c = true)
    (begun : List Char) : wordsFrom begun blank = if begun = [] then [] else [begun] := by
  induction blank generalizing begun with
  | nil => rfl
  | cons c blank ih =>
      rw [List.forall_mem_cons] at white
      rw [wordsFrom, if_pos white.1, ih white.2, if_pos rfl, List.append_nil]

/-- White space behind a text adds no word. -/
theorem wordsFrom_append_blank {blank : List Char} (white : ∀ c ∈ blank, isWhitespace c = true)
    (begun s : List Char) : wordsFrom begun (s ++ blank) = wordsFrom begun s := by
  induction s generalizing begun with
  | nil => exact wordsFrom_blank white begun
  | cons c rest ih => rw [List.cons_append, wordsFrom, wordsFrom, ih, ih]

/-- White space in front of a text adds no word. -/
theorem splitWhitespace_dropWhile (s : List Char) :
    splitWhitespace (s.dropWhile isWhitespace) = splitWhitespace s := by
  induction s with
  | nil => rfl
  | cons c rest ih =>
      by_cases white : isWhitespace c = true
      · have skipped : splitWhitespace (c :: rest) = splitWhitespace rest := by
          rw [splitWhitespace, wordsFrom, if_pos white, if_pos rfl, List.nil_append,
            splitWhitespace]
        rw [List.dropWhile_cons_of_pos white, ih, skipped]
      · rw [List.dropWhile_cons_of_neg white]

/-- The words of a text are those of the trimmed text. -/
theorem splitWhitespace_trim (s : List Char) : splitWhitespace (trim s) = splitWhitespace s := by
  have parts : trim s ++ (s.dropWhile isWhitespace).rtakeWhile isWhitespace =
      s.dropWhile isWhitespace := List.rdropWhile_append_rtakeWhile
  have white : ∀ c ∈ (s.dropWhile isWhitespace).rtakeWhile isWhitespace, isWhitespace c = true :=
    fun c => List.mem_rtakeWhile_imp
  calc splitWhitespace (trim s)
      = splitWhitespace (trim s ++ (s.dropWhile isWhitespace).rtakeWhile isWhitespace) :=
        (wordsFrom_append_blank white [] _).symm
    _ = splitWhitespace (s.dropWhile isWhitespace) := by rw [parts]
    _ = splitWhitespace s := splitWhitespace_dropWhile s

/-- A list whose elements fall into three classes is the three classes, one after the
other, up to the order. -/
theorem perm_classes {α : Type} (p q r : α → Bool) {l : List α}
    (covered : ∀ x ∈ l, p x = true ∨ q x = true ∨ r x = true)
    (apart : ∀ x, p x = true → q x = false ∧ r x = false)
    (apartLater : ∀ x, q x = true → r x = false) :
    l.Perm (l.filter p ++ (l.filter q ++ l.filter r)) := by
  induction l with
  | nil => exact List.Perm.refl []
  | cons x l ih =>
      rw [List.forall_mem_cons] at covered
      have rest := ih covered.2
      rcases covered.1 with first | second | third
      · rcases apart x first with ⟨notSecond, notThird⟩
        rw [List.filter_cons_of_pos first, List.filter_cons_of_neg (by simp [notSecond]),
          List.filter_cons_of_neg (by simp [notThird])]
        exact rest.cons x
      · have notFirst : ¬p x = true := fun first => by simp [(apart x first).1] at second
        rw [List.filter_cons_of_neg notFirst, List.filter_cons_of_pos second,
          List.filter_cons_of_neg (by simp [apartLater x second])]
        exact (rest.cons x).trans List.perm_middle.symm
      · have notFirst : ¬p x = true := fun first => by simp [(apart x first).2] at third
        have notSecond : ¬q x = true := fun second => by simp [apartLater x second] at third
        rw [List.filter_cons_of_neg notFirst, List.filter_cons_of_neg notSecond,
          List.filter_cons_of_pos third, ← List.append_assoc]
        refine ((rest.cons x).trans ?_).trans List.perm_middle.symm
        rw [List.append_assoc]

end Words

/-! ## Numbers -/

section Numbers

def digitValue (c : Char) : Nat := c.toNat - '0'.toNat

/-- The value of digits that continue a number. -/
def decimalFrom (value : Nat) (digits : List Char) : Nat :=
  digits.foldl (fun value c => value * 10 + digitValue c) value

/-- The value of a run of digits. -/
def decimalValue (digits : List Char) : Nat := decimalFrom 0 digits

/-- Append a digit to a number that must keep to its width. -/
def pushDigit (width value : Nat) (c : Char) : Option Nat :=
  if c.isDigit then
    (checkedMul width value 10).bind fun scaled => checkedAdd width scaled (digitValue c)
  else
    none

/-- Read a run of digits. -/
def parseDigits (width : Nat) (digits : List Char) : Option Nat :=
  if digits = [] then none else digits.foldlM (pushDigit width) 0

/-- Read an unsigned number.  A plus sign in front is let through, and so are leading zeros. -/
def parseUnsigned (width : Nat) : List Char → Option Nat
  | '+' :: digits => parseDigits width digits
  | digits => parseDigits width digits

/-- A run of digits whose value fits. -/
structure IsDecimal (width : Nat) (s : List Char) : Prop where
  nonempty : s ≠ []
  digits : ∀ c ∈ s, c.isDigit = true
  fits : decimalValue s < 2 ^ width

theorem decimalFrom_cons (value : Nat) (c : Char) (digits : List Char) :
    decimalFrom value (c :: digits) = decimalFrom (value * 10 + digitValue c) digits := by
  rw [decimalFrom, List.foldl_cons, decimalFrom]

theorem le_decimalFrom (value : Nat) (digits : List Char) : value ≤ decimalFrom value digits := by
  induction digits generalizing value with
  | nil => exact le_refl value
  | cons c digits ih =>
      rw [decimalFrom_cons]
      have later := ih (value * 10 + digitValue c)
      omega

theorem pushDigit_eq_some {width value result : Nat} {c : Char} :
    pushDigit width value c = some result ↔
      c.isDigit = true ∧ value * 10 + digitValue c < 2 ^ width ∧
        value * 10 + digitValue c = result := by
  unfold pushDigit checkedMul checkedAdd
  by_cases digit : c.isDigit = true
  · by_cases scaled : value * 10 < 2 ^ width
    · simp only [digit, scaled, if_true, Option.bind_some, true_and, Option.ite_none_right_eq_some,
        Option.some.injEq]
    · have tooLarge : ¬value * 10 + digitValue c < 2 ^ width := by omega
      simp only [digit, scaled, tooLarge, if_true, if_false, Option.bind_none, reduceCtorEq,
        true_and, false_and]
  · simp only [digit, Bool.false_eq_true, if_false, reduceCtorEq, false_and]

/-- A fold over digits succeeds exactly when all of them are digits and the number
they continue fits; no number on the way is larger than the last one. -/
theorem foldlM_pushDigit {width value result : Nat} {digits : List Char}
    (fits : value < 2 ^ width) :
    digits.foldlM (pushDigit width) value = some result ↔
      (∀ c ∈ digits, c.isDigit = true) ∧ decimalFrom value digits < 2 ^ width ∧
        decimalFrom value digits = result := by
  induction digits generalizing value with
  | nil =>
      have blank : decimalFrom value [] = value := rfl
      rw [blank, List.foldlM_nil, Option.pure_def, Option.some.injEq]
      exact ⟨fun same => ⟨fun _ member => absurd member List.not_mem_nil, fits, same⟩,
        fun read => read.2.2⟩
  | cons c digits ih =>
      have grows := le_decimalFrom (value * 10 + digitValue c) digits
      rw [List.foldlM_cons, Option.bind_eq_bind, Option.bind_eq_some_iff, List.forall_mem_cons,
        decimalFrom_cons]
      constructor
      · rintro ⟨next, pushed, rest⟩
        rcases pushDigit_eq_some.mp pushed with ⟨digit, bounded, rfl⟩
        rcases (ih bounded).mp rest with ⟨digits, last⟩
        exact ⟨⟨digit, digits⟩, last⟩
      · rintro ⟨⟨digit, digits⟩, bounded, last⟩
        have step : value * 10 + digitValue c < 2 ^ width := by omega
        exact ⟨_, pushDigit_eq_some.mpr ⟨digit, step, rfl⟩, (ih step).mpr ⟨digits, bounded, last⟩⟩

theorem parseDigits_eq_some {width result : Nat} {digits : List Char} :
    parseDigits width digits = some result ↔
      IsDecimal width digits ∧ decimalValue digits = result := by
  unfold parseDigits
  by_cases empty : digits = []
  · rw [if_pos empty]
    exact ⟨(fun read => nomatch read), fun read => absurd empty read.1.nonempty⟩
  · rw [if_neg empty, foldlM_pushDigit (Nat.two_pow_pos width)]
    exact ⟨fun read => ⟨⟨empty, read.1, read.2.1⟩, read.2.2⟩,
      fun read => ⟨read.1.digits, read.1.fits, read.2⟩⟩

/-- What is read as a number: a run of digits that fits, or one behind a plus sign. -/
theorem parseUnsigned_eq_some {width result : Nat} {s : List Char} :
    parseUnsigned width s = some result ↔
      ∃ digits, (s = digits ∨ s = '+' :: digits) ∧ IsDecimal width digits ∧
        decimalValue digits = result := by
  have plus : ¬('+' : Char).isDigit = true := by decide
  unfold parseUnsigned
  split
  next rest =>
    rw [parseDigits_eq_some]
    constructor
    · intro read
      exact ⟨rest, Or.inr rfl, read⟩
    · rintro ⟨digits, rfl | same, decimal, value⟩
      · exact absurd (decimal.digits '+' List.mem_cons_self) plus
      · rw [List.cons.injEq] at same
        exact same.2 ▸ ⟨decimal, value⟩
  next unsigned =>
    rw [parseDigits_eq_some]
    constructor
    · intro read
      exact ⟨s, Or.inl rfl, read⟩
    · rintro ⟨digits, rfl | same, read⟩
      · exact read
      · exact absurd same (unsigned digits)

/-- A single character that is read as a number is the digit of that number. -/
theorem parseUnsigned_singleton {width result : Nat} {c : Char}
    (read : parseUnsigned width [c] = some result) :
    c.isDigit = true ∧ digitValue c = result := by
  rcases parseUnsigned_eq_some.mp read with ⟨digits, spelled, decimal, value⟩
  rcases spelled with rfl | spelled
  · refine ⟨decimal.digits c List.mem_cons_self, ?_⟩
    rw [← value, decimalValue, decimalFrom_cons, Nat.zero_mul, Nat.zero_add]
    rfl
  · rw [List.cons.injEq] at spelled
    exact absurd spelled.2.symm decimal.nonempty

/-- A digit is determined by its value. -/
theorem eq_of_digitValue {c d : Char} (digit : c.isDigit = true) (other : d.isDigit = true)
    (same : digitValue c = digitValue d) : c = d := by
  have low : ∀ e : Char, e.isDigit = true → '0'.toNat ≤ e.toNat := by
    intro e digit
    simp only [Char.isDigit, Bool.and_eq_true, decide_eq_true_eq] at digit
    exact UInt32.le_iff_toNat_le.mp digit.1
  have first := low c digit
  have second := low d other
  unfold digitValue at same
  have value : c.toNat = d.toNat := by omega
  exact Char.toNat_inj.mp value

end Numbers

end Foundation
end Rfofs

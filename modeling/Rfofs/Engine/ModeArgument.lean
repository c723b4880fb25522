import Rfofs.Engine.ModeNotation

namespace Rfofs
namespace Engine

open Foundation PanMode

/-!
# The panning mode on the command line

The command line has a stricter, unspaced notation.  Its parser searches for the
letters `D` and `R` and cuts the text at the positions it finds; a position is a number
of bytes, and a cut inside a character would stop the program.  The three pieces are
numbers of one byte, of which the last two have only two values each.

The parser of such numbers knows more spellings than digits, so a piece may carry a
plus sign or zeros in front that the grammar does not have.  The last theorem says that
this is all the parser forgives, and that no cut ever lies inside a character.
-/

/-! ## The parser -/

/-- The prefix of an ambisonic mode. -/
def ambiName : List Char := ['a', 'm', 'b', 'i']

/-- The text of the error.  It repeats the argument as it was given. -/
def invalidMode (s : List Char) : List Char :=
  ['i', 'n', 'v', 'a', 'l', 'i', 'd', ' ', 'm', 'o', 'd', 'e', ':', ' '] ++ s

/-- Separate the dimensions from the reverb order.  The cut is at the first `R`, which is left
out. -/
def splitReverb (afterD : List Char) : Option (List Char × Option (List Char)) :=
  match find 'R' afterD with
  | some rPos => do
      let dimsStr ← sliceTo afterD rPos
      let reverbStr ← sliceFrom afterD (rPos + 1)
      some (dimsStr, some reverbStr)
  | none => some (afterD, none)

/-- Read the dimensions and the reverb order of a mode whose order is known.  The checks come
in the order of the source. -/
def readDims (s : List Char) (order : Nat) (dimsStr : List Char) (reverbStr : Option (List Char)) :
    Except (List Char) PanMode :=
  match parseUnsigned 8 dimsStr with
  | none => .error (invalidMode s)
  | some dims =>
      if dims ≠ 2 ∧ dims ≠ 3 then
        .error (invalidMode s)
      else
        match reverbStr with
        | none => .ok (.ambisonic order dims none)
        | some r =>
            match parseUnsigned 8 r with
            | none => .error (invalidMode s)
            | some k =>
                if k ≠ 0 ∧ k ≠ 1 then
                  .error (invalidMode s)
                else
                  .ok (.ambisonic order dims (some k))

/-- Parse an argument.  There is no result when a cut lies inside a character. -/
def parsePanMode (s : List Char) : Option (Except (List Char) PanMode) :=
  if eqIgnoreAsciiCase s monoName then
    some (.ok .mono)
  else if eqIgnoreAsciiCase s stereoName then
    some (.ok .stereo)
  else
    match ambiName.isPrefixOf? s with
    | none => some (.error (invalidMode s))
    | some rest =>
        match ['O'].isPrefixOf? rest with
        | none => some (.error (invalidMode s))
        | some rest =>
            match find 'D' rest with
            | none => some (.error (invalidMode s))
            | some dPos => do
                let orderStr ← sliceTo rest dPos
                match parseUnsigned 8 orderStr with
                | none => some (.error (invalidMode s))
                | some order => do
                    let afterD ← sliceFrom rest (dPos + 1)
                    let (dimsStr, reverbStr) ← splitReverb afterD
                    some (readDims s order dimsStr reverbStr)

/-! ## The documented grammar -/

/-- The text of the reverb order, with its letter.  Without a reverb order there is no text. -/
def reverbText : Option (List Char) → List Char
  | none => []
  | some r => 'R' :: r

/-- The text of an ambisonic mode in three pieces.  Parsing undoes this where the pieces
contain no letter of a later piece. -/
def modeText (order dims : List Char) (reverb : Option (List Char)) : List Char :=
  ambiName ++ 'O' :: (order ++ 'D' :: (dims ++ reverbText reverb))

/-- The mode that an argument spells.  The grammar is the one in the comment of the parser. -/
inductive Spells : List Char → PanMode → Prop
  | mono {s : List Char} (named : eqIgnoreAsciiCase s monoName = true) : Spells s .mono
  | stereo {s : List Char} (named : eqIgnoreAsciiCase s stereoName = true) : Spells s .stereo
  | direct {digits : List Char} {dims : Char} (decimal : IsDecimal 8 digits)
      (allowed : dims = '2' ∨ dims = '3') :
      Spells (modeText digits [dims] none)
        (.ambisonic (decimalValue digits) (digitValue dims) none)
  | reverb {digits : List Char} {dims k : Char} (decimal : IsDecimal 8 digits)
      (allowed : dims = '2' ∨ dims = '3') (allowedReverb : k = '0' ∨ k = '1') :
      Spells (modeText digits [dims] (some [k]))
        (.ambisonic (decimalValue digits) (digitValue dims) (some (digitValue k)))

/-- The parser gives a result, and it accepts what the grammar has, for what it says.
Anything else is an error. -/
def FollowsGrammar (s : List Char) : Prop :=
  ∃ result, parsePanMode s = some result ∧ ∀ mode, result = .ok mode ↔ Spells s mode

/-! ## Pieces -/

/-- The pieces of an argument, cut at the first `D` and at the first `R` behind it. -/
structure Pieces (s order dims : List Char) (reverb : Option (List Char)) : Prop where
  text : s = modeText order dims reverb
  first : 'D' ∉ order
  second : 'R' ∉ dims

theorem splitReverb_eq {dims : List Char} (absent : 'R' ∉ dims) (reverb : Option (List Char)) :
    splitReverb (dims ++ reverbText reverb) = some (dims, reverb) := by
  cases reverb with
  | none =>
      rw [reverbText, List.append_nil, splitReverb, find_eq_none absent]
  | some r =>
      have cuts := slice_around (show 'R'.utf8Size = 1 from rfl) dims r
      rw [reverbText, splitReverb, find_append absent]
      simp only [cuts.1, cuts.2, Option.bind_eq_bind, Option.bind_some]

/-- The prefix of an ambisonic mode is none of the two names. -/
theorem not_named_of_ambi (rest : List Char) :
    ¬eqIgnoreAsciiCase (ambiName ++ rest) monoName = true ∧
      ¬eqIgnoreAsciiCase (ambiName ++ rest) stereoName = true := by
  have first : ((ambiName ++ rest).map Char.toLower).head? = some 'a' := rfl
  simp only [eqIgnoreAsciiCase, decide_eq_true_eq]
  exact ⟨fun named => absurd (first.symm.trans (congrArg List.head? named)) (by decide),
    fun named => absurd (first.symm.trans (congrArg List.head? named)) (by decide)⟩

/-- An argument in pieces is read piece by piece.  The cuts of the parser are the ones of
`Pieces`. -/
theorem parsePanMode_of_pieces {s order dims : List Char} {reverb : Option (List Char)}
    (pieces : Pieces s order dims reverb) :
    parsePanMode s = some
      ((parseUnsigned 8 order).elim (.error (invalidMode s)) fun n => readDims s n dims reverb) := by
  rcases pieces with ⟨text, first, second⟩
  have unnamed := not_named_of_ambi ('O' :: (order ++ 'D' :: (dims ++ reverbText reverb)))
  have cuts := slice_around (show 'D'.utf8Size = 1 from rfl) order (dims ++ reverbText reverb)
  have isPrefix : ambiName.isPrefixOf? s =
      some ('O' :: (order ++ 'D' :: (dims ++ reverbText reverb))) :=
    List.isPrefixOf?_eq_some_iff_append_eq.mpr text.symm
  have letter : ['O'].isPrefixOf? ('O' :: (order ++ 'D' :: (dims ++ reverbText reverb))) =
      some (order ++ 'D' :: (dims ++ reverbText reverb)) :=
    List.isPrefixOf?_eq_some_iff_append_eq.mpr rfl
  change s = ambiName ++ _ at text
  rw [← text] at unnamed
  simp only [parsePanMode, if_neg unnamed.1, if_neg unnamed.2, isPrefix, letter,
    find_append first, cuts.1, cuts.2, Option.bind_eq_bind, Option.bind_some,
    splitReverb_eq second]
  cases parseUnsigned 8 order <;> rfl

/-- An argument without pieces is a name or an error. -/
theorem parsePanMode_of_no_pieces {s : List Char}
    (mono : ¬eqIgnoreAsciiCase s monoName = true) (stereo : ¬eqIgnoreAsciiCase s stereoName = true)
    (absent : ∀ order dims reverb, ¬Pieces s order dims reverb) :
    parsePanMode s = some (.error (invalidMode s)) := by
  simp only [parsePanMode, if_neg mono, if_neg stereo]
  cases start : ambiName.isPrefixOf? s with
  | none => rfl
  | some rest =>
      cases letter : ['O'].isPrefixOf? rest with
      | none => simp only [letter]
      | some text =>
          have noDims : 'D' ∉ text := by
            intro present
            rcases List.eq_append_cons_of_mem present with ⟨order, afterD, cut, first⟩
            have joined : s = ambiName ++ 'O' :: (order ++ 'D' :: afterD) := by
              rw [← List.isPrefixOf?_eq_some_iff_append_eq.mp start,
                ← List.isPrefixOf?_eq_some_iff_append_eq.mp letter, cut]
              rfl
            by_cases reverbed : 'R' ∈ afterD
            · rcases List.eq_append_cons_of_mem reverbed with ⟨dims, r, cutR, second⟩
              exact absent order dims (some r) ⟨by rw [joined, cutR]; rfl, first, second⟩
            · refine absent order afterD none ⟨?_, first, reverbed⟩
              rw [joined, modeText, reverbText, List.append_nil]
          simp only [letter, find_eq_none noDims]

/-- There is one way to cut an argument.  The first letter of its kind is found by the text
alone. -/
theorem Pieces.unique {s order dims order' dims' : List Char} {reverb reverb' : Option (List Char)}
    (pieces : Pieces s order dims reverb) (others : Pieces s order' dims' reverb') :
    order = order' ∧ dims = dims' ∧ reverb = reverb' := by
  have same := pieces.text.symm.trans others.text
  rw [modeText, modeText, List.append_cancel_left_eq, List.cons.injEq] at same
  rcases eq_of_first pieces.first others.first same.2 with ⟨sameOrder, same⟩
  refine ⟨sameOrder, ?_⟩
  cases reverb with
  | none =>
      cases reverb' with
      | none =>
          rw [reverbText, List.append_nil, List.append_nil] at same
          exact ⟨same, rfl⟩
      | some r' =>
          rw [reverbText, List.append_nil] at same
          exact absurd (same ▸ List.mem_append_right _ List.mem_cons_self) pieces.second
  | some r =>
      cases reverb' with
      | none =>
          rw [reverbText, reverbText, List.append_nil] at same
          exact absurd (same ▸ List.mem_append_right _ List.mem_cons_self) others.second
      | some r' =>
          rcases eq_of_first pieces.second others.second same with ⟨sameDims, sameReverb⟩
          exact ⟨sameDims, congrArg some sameReverb⟩

/-- A run of digits and a digit after it leave the letters where they are. -/
theorem pieces_of_decimal {digits : List Char} {dims : Char} (decimal : IsDecimal 8 digits)
    (allowed : dims = '2' ∨ dims = '3') (reverb : Option (List Char)) :
    Pieces (modeText digits [dims] reverb) digits [dims] reverb := by
  refine ⟨rfl, fun member => ?_, fun member => ?_⟩
  · exact absurd (decimal.digits 'D' member) (by decide)
  · rw [List.mem_singleton] at member
    rcases allowed with rfl | rfl <;> exact absurd member (by decide)

/-- What the grammar says about an argument in pieces.  No name of a mode has pieces, so one
rule of the grammar is left. -/
theorem spells_iff_of_pieces {s order dims : List Char} {reverb : Option (List Char)}
    (pieces : Pieces s order dims reverb) {mode : PanMode} :
    Spells s mode ↔
      IsDecimal 8 order ∧ ∃ d, (d = '2' ∨ d = '3') ∧ dims = [d] ∧
        (reverb = none ∧ mode = .ambisonic (decimalValue order) (digitValue d) none ∨
          ∃ k, (k = '0' ∨ k = '1') ∧ reverb = some [k] ∧
            mode = .ambisonic (decimalValue order) (digitValue d) (some (digitValue k))) := by
  have unnamed := not_named_of_ambi ('O' :: (order ++ 'D' :: (dims ++ reverbText reverb)))
  have text := pieces.text
  change s = ambiName ++ _ at text
  rw [← text] at unnamed
  constructor
  · intro spells
    cases spells with
    | mono named => exact absurd named unnamed.1
    | stereo named => exact absurd named unnamed.2
    | direct decimal allowed =>
        rcases (pieces_of_decimal decimal allowed none).unique pieces with ⟨rfl, rfl, rfl⟩
        exact ⟨decimal, _, allowed, rfl, Or.inl ⟨rfl, rfl⟩⟩
    | @reverb digits d k decimal allowed allowedReverb =>
        rcases (pieces_of_decimal decimal allowed (some [k])).unique pieces with ⟨rfl, rfl, rfl⟩
        exact ⟨decimal, _, allowed, rfl, Or.inr ⟨k, allowedReverb, rfl, rfl⟩⟩
  · rintro ⟨decimal, d, allowed, rfl, ⟨rfl, rfl⟩ | ⟨k, allowedReverb, rfl, rfl⟩⟩
    · rw [pieces.text]
      exact Spells.direct decimal allowed
    · rw [pieces.text]
      exact Spells.reverb decimal allowed allowedReverb

/-! ## Where the parser and the grammar agree -/

/-- Some piece is no number, or none that is allowed in its place.  Such an argument is an
error, however it is spelled. -/
def Refused (order dims : List Char) (reverb : Option (List Char)) : Prop :=
  parseUnsigned 8 order = none ∨
    (parseUnsigned 8 dims ≠ some 2 ∧ parseUnsigned 8 dims ≠ some 3) ∨
    ∃ r, reverb = some r ∧ parseUnsigned 8 r ≠ some 0 ∧ parseUnsigned 8 r ≠ some 1

/-- No piece is spelled in a way that only the parser of numbers knows: the order has no plus
sign, and the other pieces are single characters. -/
def Plainly (order dims : List Char) (reverb : Option (List Char)) : Prop :=
  order.head? ≠ some '+' ∧ dims.length = 1 ∧ ∀ r, reverb = some r → r.length = 1

/-- What the reverb order is read as.  A missing piece is read as no bus. -/
inductive ReadsReverb : Option (List Char) → Option Nat → Prop
  | absent : ReadsReverb none none
  | order {r : List Char} {k : Nat} (read : parseUnsigned 8 r = some k) (allowed : k = 0 ∨ k = 1) :
      ReadsReverb (some r) (some k)

/-- The second and third piece are read as what they have to be. -/
theorem readDims_eq_ok {s : List Char} {order : Nat} {dims : List Char}
    {reverb : Option (List Char)} {mode : PanMode} :
    readDims s order dims reverb = .ok mode ↔
      ∃ m k, parseUnsigned 8 dims = some m ∧ (m = 2 ∨ m = 3) ∧ ReadsReverb reverb k ∧
        mode = .ambisonic order m k := by
  constructor
  · intro accepted
    unfold readDims at accepted
    split at accepted
    · cases accepted
    next m read =>
      split at accepted
      · cases accepted
      next allowed =>
        have allowed : m = 2 ∨ m = 3 := by omega
        split at accepted
        · cases accepted
          exact ⟨m, none, read, allowed, ReadsReverb.absent, rfl⟩
        next r =>
          split at accepted
          · cases accepted
          next k readReverb =>
            split at accepted
            · cases accepted
            next allowedReverb =>
              cases accepted
              exact ⟨m, some k, read, allowed, ReadsReverb.order readReverb (by omega), rfl⟩
  · rintro ⟨m, k, read, allowed, reverb, rfl⟩
    have dimsAllowed : ¬(m ≠ 2 ∧ m ≠ 3) := by omega
    cases reverb with
    | absent => simp only [readDims, read, if_neg dimsAllowed]
    | @order r k readReverb allowedReverb =>
        have reverbAllowed : ¬(k ≠ 0 ∧ k ≠ 1) := by omega
        simp only [readDims, read, if_neg dimsAllowed, readReverb, if_neg reverbAllowed]

/-- What an argument in pieces is accepted for. -/
theorem parsePanMode_eq_ok_of_pieces {s order dims : List Char} {reverb : Option (List Char)}
    (pieces : Pieces s order dims reverb) {mode : PanMode} :
    parsePanMode s = some (.ok mode) ↔
      ∃ n m k, parseUnsigned 8 order = some n ∧ parseUnsigned 8 dims = some m ∧
        (m = 2 ∨ m = 3) ∧ ReadsReverb reverb k ∧ mode = .ambisonic n m k := by
  rw [parsePanMode_of_pieces pieces, Option.some.injEq]
  cases parseUnsigned 8 order with
  | none => exact ⟨nofun, fun ⟨_, _, _, read, _⟩ => nomatch read⟩
  | some n =>
      rw [Option.elim_some, readDims_eq_ok]
      constructor
      · rintro ⟨m, k, accepted⟩
        exact ⟨n, m, k, rfl, accepted⟩
      · rintro ⟨n', m, k, same, accepted⟩
        cases same
        exact ⟨m, k, accepted⟩

theorem readDims_error {s : List Char} {order : Nat} {dims : List Char}
    {reverb : Option (List Char)} {text : List Char}
    (rejected : readDims s order dims reverb = .error text) : text = invalidMode s := by
  unfold readDims at rejected
  split at rejected
  · exact (Except.error.inj rejected).symm
  · split at rejected
    · exact (Except.error.inj rejected).symm
    · split at rejected
      · cases rejected
      · split at rejected
        · exact (Except.error.inj rejected).symm
        · split at rejected
          · exact (Except.error.inj rejected).symm
          · cases rejected

/-- Every error repeats the argument. -/
theorem parsePanMode_error {s text : List Char} (rejected : parsePanMode s = some (.error text)) :
    text = invalidMode s := by
  by_cases mono : eqIgnoreAsciiCase s monoName = true
  · rw [parsePanMode, if_pos mono] at rejected
    cases rejected
  · by_cases stereo : eqIgnoreAsciiCase s stereoName = true
    · rw [parsePanMode, if_neg mono, if_pos stereo] at rejected
      cases rejected
    · by_cases cut : ∃ order dims reverb, Pieces s order dims reverb
      · rcases cut with ⟨order, dims, reverb, pieces⟩
        rw [parsePanMode_of_pieces pieces, Option.some.injEq] at rejected
        cases number : parseUnsigned 8 order with
        | none =>
            rw [number] at rejected
            exact (Except.error.inj rejected).symm
        | some n =>
            rw [number] at rejected
            exact readDims_error rejected
      · rw [parsePanMode_of_no_pieces mono stereo
          fun order dims reverb pieces => cut ⟨order, dims, reverb, pieces⟩] at rejected
        exact (Except.error.inj (Option.some.inj rejected)).symm

/-- Every argument has a result: no cut lies inside a character.  Every cut is at a letter of
a single byte, or behind one. -/
theorem parsePanMode_total (s : List Char) : ∃ result, parsePanMode s = some result := by
  by_cases mono : eqIgnoreAsciiCase s monoName = true
  · exact ⟨.ok .mono, if_pos mono⟩
  · by_cases stereo : eqIgnoreAsciiCase s stereoName = true
    · exact ⟨.ok .stereo, (if_neg mono).trans (if_pos stereo)⟩
    · by_cases cut : ∃ order dims reverb, Pieces s order dims reverb
      · rcases cut with ⟨order, dims, reverb, pieces⟩
        exact ⟨_, parsePanMode_of_pieces pieces⟩
      · exact ⟨_, parsePanMode_of_no_pieces mono stereo
          fun order dims reverb pieces => cut ⟨order, dims, reverb, pieces⟩⟩

/-- The parser accepts whatever the grammar has.  Only the other direction can fail. -/
theorem Spells.parsed {s : List Char} {mode : PanMode} (spells : Spells s mode) :
    parsePanMode s = some (.ok mode) := by
  have number : ∀ {digits : List Char}, IsDecimal 8 digits →
      parseUnsigned 8 digits = some (decimalValue digits) := fun decimal =>
    parseUnsigned_eq_some.mpr ⟨_, Or.inl rfl, decimal, rfl⟩
  have dimsNumber : ∀ {d : Char}, d = '2' ∨ d = '3' →
      parseUnsigned 8 [d] = some (digitValue d) ∧ (digitValue d = 2 ∨ digitValue d = 3) := by
    rintro d (rfl | rfl)
    · exact ⟨by decide, Or.inl rfl⟩
    · exact ⟨by decide, Or.inr rfl⟩
  cases spells with
  | mono named => exact if_pos named
  | stereo named =>
      have notMono : ¬eqIgnoreAsciiCase s monoName = true := by
        intro mono
        simp only [eqIgnoreAsciiCase, decide_eq_true_eq] at mono named
        exact absurd (mono.symm.trans named) (by decide)
      exact (if_neg notMono).trans (if_pos named)
  | direct decimal allowed =>
      have dims := dimsNumber allowed
      exact (parsePanMode_eq_ok_of_pieces (pieces_of_decimal decimal allowed none)).mpr
        ⟨_, _, _, number decimal, dims.1, dims.2, ReadsReverb.absent, rfl⟩
  | @reverb digits d k decimal allowed allowedReverb =>
      have dims := dimsNumber allowed
      have reads : ReadsReverb (some [k]) (some (digitValue k)) := by
        rcases allowedReverb with rfl | rfl
        · exact ReadsReverb.order (by decide) (Or.inl rfl)
        · exact ReadsReverb.order (by decide) (Or.inr rfl)
      exact (parsePanMode_eq_ok_of_pieces (pieces_of_decimal decimal allowed (some [k]))).mpr
        ⟨_, _, _, number decimal, dims.1, dims.2, reads, rfl⟩

/-- To follow the grammar is to accept nothing beside it. -/
theorem followsGrammar_iff {s : List Char} :
    FollowsGrammar s ↔ ∀ mode, parsePanMode s = some (.ok mode) → Spells s mode := by
  rcases parsePanMode_total s with ⟨result, parsed⟩
  constructor
  · rintro ⟨other, parsedOther, follows⟩ mode accepted
    exact (follows mode).mp (Option.some.inj (parsedOther.symm.trans accepted))
  · intro sound
    refine ⟨result, parsed, fun mode => ⟨?_, ?_⟩⟩
    · rintro rfl
      exact sound mode parsed
    · intro spells
      exact Option.some.inj (parsed.symm.trans spells.parsed)

/-- A number that is read from one character is that digit. -/
theorem eq_singleton_of_read {width : Nat} {text : List Char} {d : Char}
    (digit : d.isDigit = true) (single : text.length = 1)
    (read : parseUnsigned width text = some (digitValue d)) : text = [d] := by
  rcases List.length_eq_one_iff.mp single with ⟨c, rfl⟩
  rcases parseUnsigned_singleton read with ⟨isDigit, value⟩
  rw [eq_of_digitValue isDigit digit value]

/-- Plainly spelled pieces that are accepted are in the grammar. -/
theorem Plainly.sound {s order dims : List Char} {reverb : Option (List Char)}
    (pieces : Pieces s order dims reverb) (plainly : Plainly order dims reverb) {mode : PanMode}
    (accepted : parsePanMode s = some (.ok mode)) : Spells s mode := by
  rcases plainly with ⟨unsigned, oneDims, oneReverb⟩
  rcases (parsePanMode_eq_ok_of_pieces pieces).mp accepted with
    ⟨n, m, k, readOrder, readDims, allowed, reads, rfl⟩
  rcases parseUnsigned_eq_some.mp readOrder with ⟨digits, rfl | signed, decimal, rfl⟩
  · have dimsText : ∃ d, (d = '2' ∨ d = '3') ∧ dims = [d] ∧ m = digitValue d := by
      rcases allowed with rfl | rfl
      · exact ⟨'2', Or.inl rfl, eq_singleton_of_read (by decide) oneDims readDims, rfl⟩
      · exact ⟨'3', Or.inr rfl, eq_singleton_of_read (by decide) oneDims readDims, rfl⟩
    rcases dimsText with ⟨d, spelled, dimsText, rfl⟩
    refine (spells_iff_of_pieces pieces).mpr ⟨decimal, d, spelled, dimsText, ?_⟩
    cases reads with
    | absent => exact Or.inl ⟨rfl, rfl⟩
    | @order r k readReverb allowedReverb =>
        have single := oneReverb r rfl
        rcases allowedReverb with rfl | rfl
        · rw [eq_singleton_of_read (show '0'.isDigit = true from rfl) single readReverb]
          exact Or.inr ⟨'0', Or.inl rfl, rfl, rfl⟩
        · rw [eq_singleton_of_read (show '1'.isDigit = true from rfl) single readReverb]
          exact Or.inr ⟨'1', Or.inr rfl, rfl, rfl⟩
  · rw [signed] at unsigned
    exact absurd rfl unsigned

/-- Pieces that are not refused are accepted for some mode.  With a plain spelling it is the
mode that they spell. -/
theorem accepted_of_not_refused {s order dims : List Char} {reverb : Option (List Char)}
    (pieces : Pieces s order dims reverb) (allowed : ¬Refused order dims reverb) :
    ∃ mode, parsePanMode s = some (.ok mode) := by
  unfold Refused at allowed
  push Not at allowed
  rcases allowed with ⟨readOrder, readDims, readReverb⟩
  rcases Option.ne_none_iff_exists'.mp readOrder with ⟨n, readOrder⟩
  have dims : ∃ m, parseUnsigned 8 dims = some m ∧ (m = 2 ∨ m = 3) := by
    by_cases two : parseUnsigned 8 dims = some 2
    · exact ⟨2, two, Or.inl rfl⟩
    · exact ⟨3, readDims two, Or.inr rfl⟩
  have reads : ∃ k, ReadsReverb reverb k := by
    cases reverb with
    | none => exact ⟨none, ReadsReverb.absent⟩
    | some r =>
        by_cases zero : parseUnsigned 8 r = some 0
        · exact ⟨some 0, ReadsReverb.order zero (Or.inl rfl)⟩
        · exact ⟨some 1, ReadsReverb.order (readReverb r rfl zero) (Or.inr rfl)⟩
  rcases dims with ⟨m, readDims, allowed⟩
  rcases reads with ⟨k, reads⟩
  exact ⟨.ambisonic n m k,
    (parsePanMode_eq_ok_of_pieces pieces).mpr ⟨n, m, k, readOrder, readDims, allowed, reads, rfl⟩⟩

/-- An argument that cannot be cut is a name or refused. -/
theorem sound_of_no_pieces {s : List Char}
    (absent : ∀ order dims reverb, ¬Pieces s order dims reverb) {mode : PanMode}
    (accepted : parsePanMode s = some (.ok mode)) : Spells s mode := by
  by_cases mono : eqIgnoreAsciiCase s monoName = true
  · rw [parsePanMode, if_pos mono] at accepted
    cases accepted
    exact Spells.mono mono
  · by_cases stereo : eqIgnoreAsciiCase s stereoName = true
    · rw [parsePanMode, if_neg mono, if_pos stereo] at accepted
      cases accepted
      exact Spells.stereo stereo
    · rw [parsePanMode_of_no_pieces mono stereo absent] at accepted
      cases accepted

/-- The parser follows its grammar on an argument that cannot be cut into pieces; on one
that can, exactly when a piece is refused or all of them are spelled plainly. -/
theorem parsePanMode_follows_grammar_iff (s : List Char) :
    FollowsGrammar s ↔
      ∀ order dims reverb, Pieces s order dims reverb →
        Refused order dims reverb ∨ Plainly order dims reverb := by
  rw [followsGrammar_iff]
  constructor
  · intro sound order dims reverb pieces
    by_cases refused : Refused order dims reverb
    · exact Or.inl refused
    · rcases accepted_of_not_refused pieces refused with ⟨mode, accepted⟩
      rcases (spells_iff_of_pieces pieces).mp (sound mode accepted) with
        ⟨decimal, d, -, rfl, reverbText⟩
      refine Or.inr ⟨fun signed => ?_, rfl, ?_⟩
      · have digit := decimal.digits '+' (List.mem_of_head? signed)
        exact absurd digit (by decide)
      · rintro r rfl
        rcases reverbText with ⟨absent, -⟩ | ⟨k, -, single, -⟩
        · cases absent
        · cases single
          rfl
  · intro condition mode accepted
    by_cases cut : ∃ order dims reverb, Pieces s order dims reverb
    · rcases cut with ⟨order, dims, reverb, pieces⟩
      rcases condition order dims reverb pieces with refused | plainly
      · rcases (parsePanMode_eq_ok_of_pieces pieces).mp accepted with
          ⟨n, m, k, readOrder, readDims, allowed, reads, -⟩
        exfalso
        rcases refused with unread | ⟨notTwo, notThree⟩ | ⟨r, rfl, notZero, notOne⟩
        · rw [unread] at readOrder
          cases readOrder
        · rcases allowed with rfl | rfl
          · exact notTwo readDims
          · exact notThree readDims
        · cases reads with
          | order readReverb allowedReverb =>
              rcases allowedReverb with rfl | rfl
              · exact notZero readReverb
              · exact notOne readReverb
      · exact plainly.sound pieces accepted
    · exact sound_of_no_pieces (fun order dims reverb pieces => cut ⟨order, dims, reverb, pieces⟩)
        accepted

/-- A plus sign is let through.  The argument is not in the grammar, and is accepted for a
mode all the same. -/
theorem parsePanMode_plus_sign : ¬∀ s : List Char, FollowsGrammar s := by
  intro follows
  have pieces : Pieces ['a', 'm', 'b', 'i', 'O', '+', '1', 'D', '3'] ['+', '1'] ['3'] none :=
    ⟨rfl, by decide, by decide⟩
  have parsed : parsePanMode ['a', 'm', 'b', 'i', 'O', '+', '1', 'D', '3'] =
      some (.ok (.ambisonic 1 3 none)) := by decide
  have spells := followsGrammar_iff.mp (follows _) _ parsed
  have digit := ((spells_iff_of_pieces pieces).mp spells).1.digits '+' List.mem_cons_self
  exact absurd digit (by decide)

end Engine
end Rfofs

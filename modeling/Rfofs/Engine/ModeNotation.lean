import Rfofs.Foundation.Text
import Rfofs.Engine.Pan

namespace Rfofs
namespace Engine

open Foundation

/-!
# The notation of a panning mode

A panning mode is written as `mono`, as `stereo`, or as a prefix `amb` followed by
tokens for the order, the dimensions and the reverb bus.  The parser folds over the
tokens and keeps what each of them sets: a later token of a letter replaces an earlier
one, a token of no letter is skipped, and a reverb order that is no number is zero.

The documented notation is stated beside it, on its own: one token of each letter, in
any order, of which only the reverb token may be missing.  What the parser accepts is
wider, and the last theorem says by which strings.
-/

namespace PanMode

/-! ## The parser -/

def monoName : List Char := ['m', 'o', 'n', 'o']
def stereoName : List Char := ['s', 't', 'e', 'r', 'e', 'o']

/-- The text behind the prefix of an ambisonic mode.  The three spellings of the prefix are
those of the source. -/
def ambRest (s : List Char) : Option (List Char) :=
  ((['a', 'm', 'b'].isPrefixOf? s).or (['A', 'm', 'b'].isPrefixOf? s)).or
    (['A', 'M', 'B'].isPrefixOf? s)

/-- What the tokens have set so far.  A later token of the same letter replaces what an
earlier one has set. -/
structure AmbFields where
  order : Option Nat
  dims : Option Nat
  reverb : Option Nat

/-- The text behind a letter, in upper case.  A token with another letter has none. -/
def payload (letter : Char) (token : List Char) : Option (List Char) :=
  [letter].isPrefixOf? (toAsciiUppercase token)

/-- One token.  A token with an unknown letter changes nothing.  A text that is no number
clears its field, except that a reverb order is then zero. -/
def readToken (fields : AmbFields) (token : List Char) : AmbFields :=
  match payload 'O' token with
  | some n => { fields with order := parseUnsigned 8 n }
  | none =>
      match payload 'D' token with
      | some m => { fields with dims := parseUnsigned 8 m }
      | none =>
          match payload 'R' token with
          | some k => { fields with reverb := some ((parseUnsigned 8 k).getD 0) }
          | none => fields

/-- The whole parser: names first, then the prefix and the tokens behind it. -/
def parse (s : List Char) : Option PanMode :=
  let s := trim s
  if eqIgnoreAsciiCase s monoName then
    some .mono
  else if eqIgnoreAsciiCase s stereoName then
    some .stereo
  else do
    let rest ← ambRest s
    let fields := (splitWhitespace (trim rest)).foldl readToken ⟨none, none, none⟩
    let order ← fields.order
    let dims ← fields.dims
    some (.ambisonic order dims fields.reverb)

/-! ## The documented notation -/

/-- A letter and a number of one byte.  The documentation sets no bound on the order beside
the type. -/
def OrderToken (token : List Char) : Prop :=
  ∃ digits, toAsciiUppercase token = 'O' :: digits ∧ IsDecimal 8 digits

def DimsToken (token : List Char) : Prop :=
  toAsciiUppercase token = ['D', '2'] ∨ toAsciiUppercase token = ['D', '3']

def ReverbToken (token : List Char) : Prop :=
  toAsciiUppercase token = ['R', '0'] ∨ toAsciiUppercase token = ['R', '1']

/-- One token for the order, one for the dimensions and at most one for the reverb bus.  They
may come in any order. -/
def AmbTokens (tokens : List (List Char)) : Prop :=
  ∃ o d, OrderToken o ∧ DimsToken d ∧
    (tokens.Perm [o, d] ∨ ∃ r, ReverbToken r ∧ tokens.Perm [o, d, r])

/-- The strings that the documentation describes.  The prefix has three spellings, and the
letters of the tokens may be of either case. -/
def Documented (s : List Char) : Prop :=
  eqIgnoreAsciiCase (trim s) monoName = true ∨ eqIgnoreAsciiCase (trim s) stereoName = true ∨
    ∃ name rest, (name = ['a', 'm', 'b'] ∨ name = ['A', 'm', 'b'] ∨ name = ['A', 'M', 'B']) ∧
      trim s = name ++ rest ∧ AmbTokens (splitWhitespace rest)

/-! ## Tokens and their letters -/

theorem payload_eq_some {letter : Char} {token text : List Char} :
    payload letter token = some text ↔ toAsciiUppercase token = letter :: text := by
  rw [payload, List.isPrefixOf?_eq_some_iff_append_eq, List.singleton_append]
  exact eq_comm

/-- A token has one letter. -/
theorem payload_eq_none {letter other : Char} (different : letter ≠ other)
    {token text : List Char} (found : payload letter token = some text) :
    payload other token = none := by
  rw [Option.eq_none_iff_forall_not_mem]
  intro otherText member
  have first := payload_eq_some.mp found
  have second := payload_eq_some.mp member
  rw [first, List.cons.injEq] at second
  exact different second.1

/-- The texts behind a letter, token after token. -/
def payloads (letter : Char) (tokens : List (List Char)) : List (List Char) :=
  tokens.filterMap (payload letter)

theorem payloads_append (letter : Char) (tokens others : List (List Char)) :
    payloads letter (tokens ++ others) = payloads letter tokens ++ payloads letter others :=
  List.filterMap_append

theorem readToken_order (fields : AmbFields) (token : List Char) :
    (readToken fields token).order = (payload 'O' token).elim fields.order (parseUnsigned 8) := by
  unfold readToken
  cases payload 'O' token with
  | some n => rfl
  | none =>
      cases payload 'D' token with
      | some m => rfl
      | none => cases payload 'R' token <;> rfl

theorem readToken_dims (fields : AmbFields) (token : List Char) :
    (readToken fields token).dims = (payload 'D' token).elim fields.dims (parseUnsigned 8) := by
  unfold readToken
  cases order : payload 'O' token with
  | some n =>
      have other : payload 'D' token = none := payload_eq_none (by decide) order
      rw [other]
      rfl
  | none =>
      cases payload 'D' token with
      | some m => rfl
      | none => cases payload 'R' token <;> rfl

theorem readToken_reverb (fields : AmbFields) (token : List Char) :
    (readToken fields token).reverb =
      (payload 'R' token).elim fields.reverb fun k => some ((parseUnsigned 8 k).getD 0) := by
  unfold readToken
  cases order : payload 'O' token with
  | some n =>
      have other : payload 'R' token = none := payload_eq_none (by decide) order
      rw [other]
      rfl
  | none =>
      cases dims : payload 'D' token with
      | some m =>
          have other : payload 'R' token = none := payload_eq_none (by decide) dims
          rw [other]
          rfl
      | none => cases payload 'R' token <;> rfl

/-- A field that every token of its letter replaces ends up as the last of them left it.  The
three fields are instances. -/
theorem foldl_readToken_field {α : Type} (field : AmbFields → Option α) (letter : Char)
    (read : List Char → Option α)
    (step : ∀ fields token,
      field (readToken fields token) = (payload letter token).elim (field fields) read)
    (fields : AmbFields) (tokens : List (List Char)) :
    field (tokens.foldl readToken fields) =
      (payloads letter tokens).getLast?.elim (field fields) read := by
  induction tokens using List.reverseRecOn with
  | nil => rfl
  | append_singleton tokens token ih =>
      rw [List.foldl_append, List.foldl_cons, List.foldl_nil, step, ih, payloads_append]
      unfold payloads
      cases found : payload letter token with
      | none => rw [List.filterMap_cons_none found, List.filterMap_nil, List.append_nil]; rfl
      | some text =>
          rw [List.filterMap_cons_some found, List.filterMap_nil, List.getLast?_concat]
          rfl

/-- The fields that a run of tokens leaves. -/
theorem foldl_readToken (tokens : List (List Char)) :
    tokens.foldl readToken ⟨none, none, none⟩ =
      ⟨(payloads 'O' tokens).getLast?.bind (parseUnsigned 8),
        (payloads 'D' tokens).getLast?.bind (parseUnsigned 8),
        (payloads 'R' tokens).getLast?.map fun k => (parseUnsigned 8 k).getD 0⟩ := by
  have order := foldl_readToken_field AmbFields.order 'O' (parseUnsigned 8) readToken_order
    ⟨none, none, none⟩ tokens
  have dims := foldl_readToken_field AmbFields.dims 'D' (parseUnsigned 8) readToken_dims
    ⟨none, none, none⟩ tokens
  have reverb := foldl_readToken_field AmbFields.reverb 'R' _ readToken_reverb
    ⟨none, none, none⟩ tokens
  cases fields : tokens.foldl readToken ⟨none, none, none⟩ with
  | mk o d r =>
      rw [fields] at order dims reverb
      dsimp only at order dims reverb
      rw [order, dims, reverb]
      cases (payloads 'O' tokens).getLast? <;> cases (payloads 'D' tokens).getLast? <;>
        cases (payloads 'R' tokens).getLast? <;> rfl

/-! ## Where the parser and the notation agree -/

/-- No token of the letter is there, or the last one is no number of one byte.  The earlier
ones have no influence. -/
def Unreadable (letter : Char) (tokens : List (List Char)) : Prop :=
  ∀ text ∈ (payloads letter tokens).getLast?, parseUnsigned 8 text = none

/-- Tokens without anything that the parser forgives: unknown letters, repeated letters, a
plus sign before the order, and other dimensions or reverb orders. -/
structure Plain (tokens : List (List Char)) : Prop where
  known : ∀ token ∈ tokens, ∃ letter ∈ ['O', 'D', 'R'], (payload letter token).isSome = true
  once : ∀ letter ∈ ['O', 'D', 'R'], (payloads letter tokens).length ≤ 1
  unsigned : ∀ n ∈ payloads 'O' tokens, n.head? ≠ some '+'
  dims : ∀ m ∈ payloads 'D' tokens, m = ['2'] ∨ m = ['3']
  reverb : ∀ k ∈ payloads 'R' tokens, k = ['0'] ∨ k = ['1']

/-- The strings on which the parser follows its notation: it accepts the string exactly when
it is documented, and an ambisonic mode has the documented dimensions and reverb order. -/
def FollowsNotation (s : List Char) : Prop :=
  ((parse s).isSome = true ↔ Documented s) ∧
    ∀ order dims reverb, parse s = some (.ambisonic order dims reverb) →
      (dims = 2 ∨ dims = 3) ∧ (reverb = none ∨ reverb = some 0 ∨ reverb = some 1)

theorem unreadable_iff {letter : Char} {tokens : List (List Char)} :
    Unreadable letter tokens ↔
      (payloads letter tokens).getLast?.bind (parseUnsigned 8) = none := by
  unfold Unreadable
  cases (payloads letter tokens).getLast? with
  | none => simp
  | some text => simp

/-- The tokens of a letter. -/
def tokensOf (letter : Char) (tokens : List (List Char)) : List (List Char) :=
  tokens.filter fun token => (payload letter token).isSome

theorem payloads_tokensOf (letter : Char) (tokens : List (List Char)) :
    payloads letter (tokensOf letter tokens) = payloads letter tokens := by
  induction tokens with
  | nil => rfl
  | cons token tokens ih =>
      unfold payloads tokensOf at *
      cases found : payload letter token with
      | none => rw [List.filter_cons_of_neg (by simp [found]), ih, List.filterMap_cons_none found]
      | some text =>
          rw [List.filter_cons_of_pos (by simp [found]), List.filterMap_cons_some found,
            List.filterMap_cons_some found, ih]

theorem length_payloads (letter : Char) (tokens : List (List Char)) :
    (payloads letter tokens).length = (tokensOf letter tokens).length := by
  rw [payloads, tokensOf, List.length_filterMap_eq_countP, List.countP_eq_length_filter]

/-- A text that stands alone behind its letter is that of a single token. -/
theorem tokensOf_of_payloads {letter : Char} {tokens : List (List Char)} {text : List Char}
    (alone : payloads letter tokens = [text]) :
    ∃ token, tokensOf letter tokens = [token] ∧ payload letter token = some text := by
  have length : (tokensOf letter tokens).length = 1 := by
    rw [← length_payloads, alone]
    rfl
  rcases List.length_eq_one_iff.mp length with ⟨token, single⟩
  have texts := payloads_tokensOf letter tokens
  rw [single, alone, payloads] at texts
  refine ⟨token, single, ?_⟩
  cases found : payload letter token with
  | none =>
      rw [List.filterMap_cons_none found] at texts
      cases texts
  | some other =>
      rw [List.filterMap_cons_some found, List.filterMap_nil, List.cons.injEq] at texts
      rw [texts.1]

theorem tokensOf_eq_nil {letter : Char} {tokens : List (List Char)}
    (absent : payloads letter tokens = []) : tokensOf letter tokens = [] := by
  have length : (tokensOf letter tokens).length = 0 := by
    rw [← length_payloads, absent]
    rfl
  exact List.length_eq_zero_iff.mp length

/-- Tokens that all have a letter are, up to their order, those of each letter. -/
theorem perm_tokensOf {tokens : List (List Char)}
    (known : ∀ token ∈ tokens, ∃ letter ∈ ['O', 'D', 'R'], (payload letter token).isSome = true) :
    tokens.Perm (tokensOf 'O' tokens ++ (tokensOf 'D' tokens ++ tokensOf 'R' tokens)) := by
  have apart : ∀ letter other : Char, letter ≠ other → ∀ token : List Char,
      (payload letter token).isSome = true → (payload other token).isSome = false := by
    intro letter other different token found
    rcases Option.isSome_iff_exists.mp found with ⟨text, found⟩
    rw [payload_eq_none different found]
    rfl
  apply perm_classes
  · intro token member
    rcases known token member with ⟨letter, among, found⟩
    simp only [List.mem_cons, List.not_mem_nil, or_false] at among
    rcases among with rfl | rfl | rfl
    · exact Or.inl found
    · exact Or.inr (Or.inl found)
    · exact Or.inr (Or.inr found)
  · intro token found
    exact ⟨apart 'O' 'D' (by decide) token found, apart 'O' 'R' (by decide) token found⟩
  · exact apart 'D' 'R' (by decide)

/-- The texts of tokens that are known to be of certain letters. -/
theorem payloads_of_perm {tokens others : List (List Char)} (perm : tokens.Perm others)
    {letter : Char} {texts : List (List Char)} (alone : texts.length ≤ 1)
    (found : payloads letter others = texts) : payloads letter tokens = texts := by
  have texts_perm : (payloads letter tokens).Perm texts := found ▸ perm.filterMap (payload letter)
  cases texts with
  | nil => exact texts_perm.eq_nil
  | cons text rest =>
      have single : rest = [] := by
        rw [List.length_cons] at alone
        exact List.length_eq_zero_iff.mp (by omega)
      subst single
      exact List.perm_singleton.mp texts_perm

theorem dimsToken_iff {token : List Char} :
    DimsToken token ↔ payload 'D' token = some ['2'] ∨ payload 'D' token = some ['3'] := by
  rw [DimsToken, payload_eq_some, payload_eq_some]

theorem reverbToken_iff {token : List Char} :
    ReverbToken token ↔ payload 'R' token = some ['0'] ∨ payload 'R' token = some ['1'] := by
  rw [ReverbToken, payload_eq_some, payload_eq_some]

theorem orderToken_iff {token : List Char} :
    OrderToken token ↔ ∃ digits, payload 'O' token = some digits ∧ IsDecimal 8 digits := by
  simp only [OrderToken, payload_eq_some]

/-- The texts behind a letter when it is that of the first token, or of none. -/
theorem payloads_cons_some {letter : Char} {token text : List Char} {rest : List (List Char)}
    (found : payload letter token = some text) :
    payloads letter (token :: rest) = text :: payloads letter rest :=
  List.filterMap_cons_some found

theorem payloads_cons_other {letter other : Char} (different : other ≠ letter)
    {token text : List Char} {rest : List (List Char)} (found : payload other token = some text) :
    payloads letter (token :: rest) = payloads letter rest :=
  List.filterMap_cons_none (payload_eq_none different found)

/-- An order token and a dims token beside others: the texts of the others are those of the
letters that are left. -/
theorem payloads_of_fields {tokens rest : List (List Char)} {o d digits m : List Char}
    (perm : tokens.Perm (o :: d :: rest)) (order : payload 'O' o = some digits)
    (dims : payload 'D' d = some m) (orderAlone : payloads 'O' rest = [])
    (dimsAlone : payloads 'D' rest = []) (short : (payloads 'R' rest).length ≤ 1) :
    payloads 'O' tokens = [digits] ∧ payloads 'D' tokens = [m] ∧
      payloads 'R' tokens = payloads 'R' rest := by
  refine ⟨payloads_of_perm perm (le_refl 1) ?_, payloads_of_perm perm (le_refl 1) ?_,
    payloads_of_perm perm short ?_⟩
  · rw [payloads_cons_some order, payloads_cons_other (by decide) dims, orderAlone]
  · rw [payloads_cons_other (by decide) order, payloads_cons_some dims, dimsAlone]
  · rw [payloads_cons_other (by decide) order, payloads_cons_other (by decide) dims]

/-- Every token is known when the others are. -/
theorem known_of_fields {tokens rest : List (List Char)} {o d digits m : List Char}
    (perm : tokens.Perm (o :: d :: rest)) (order : payload 'O' o = some digits)
    (dims : payload 'D' d = some m)
    (known : ∀ token ∈ rest, ∃ letter ∈ ['O', 'D', 'R'], (payload letter token).isSome = true) :
    ∀ token ∈ tokens, ∃ letter ∈ ['O', 'D', 'R'], (payload letter token).isSome = true := by
  intro token member
  have among := perm.mem_iff.mp member
  rw [List.mem_cons, List.mem_cons] at among
  rcases among with rfl | rfl | other
  · exact ⟨'O', by simp, by rw [order]; rfl⟩
  · exact ⟨'D', by simp, by rw [dims]; rfl⟩
  · exact known token other

/-- The documented tokens, told by the texts behind each letter.  In this form they are
compared with what the parser reads. -/
theorem ambTokens_iff {tokens : List (List Char)} :
    AmbTokens tokens ↔
      (∀ token ∈ tokens, ∃ letter ∈ ['O', 'D', 'R'], (payload letter token).isSome = true) ∧
        (∃ digits, payloads 'O' tokens = [digits] ∧ IsDecimal 8 digits) ∧
        (∃ m, payloads 'D' tokens = [m] ∧ (m = ['2'] ∨ m = ['3'])) ∧
        (payloads 'R' tokens = [] ∨
          ∃ k, payloads 'R' tokens = [k] ∧ (k = ['0'] ∨ k = ['1'])) := by
  constructor
  · rintro ⟨o, d, order, dims, perm⟩
    rcases orderToken_iff.mp order with ⟨digits, order, decimal⟩
    have dims : ∃ m, payload 'D' d = some m ∧ (m = ['2'] ∨ m = ['3']) := by
      rcases dimsToken_iff.mp dims with found | found
      · exact ⟨_, found, Or.inl rfl⟩
      · exact ⟨_, found, Or.inr rfl⟩
    rcases dims with ⟨m, dims, allowed⟩
    rcases perm with perm | ⟨r, reverb, perm⟩
    · rcases payloads_of_fields perm order dims rfl rfl (Nat.zero_le 1) with
        ⟨orders, dimses, absent⟩
      exact ⟨known_of_fields perm order dims nofun, ⟨digits, orders, decimal⟩,
        ⟨m, dimses, allowed⟩, Or.inl absent⟩
    · have reverb : ∃ k, payload 'R' r = some k ∧ (k = ['0'] ∨ k = ['1']) := by
        rcases reverbToken_iff.mp reverb with found | found
        · exact ⟨_, found, Or.inl rfl⟩
        · exact ⟨_, found, Or.inr rfl⟩
      rcases reverb with ⟨k, reverb, allowedReverb⟩
      have single : payloads 'R' [r] = [k] := payloads_cons_some reverb
      rcases payloads_of_fields perm order dims (payloads_cons_other (by decide) reverb)
        (payloads_cons_other (by decide) reverb) (by rw [single]; exact le_refl 1) with
          ⟨orders, dimses, reverbs⟩
      refine ⟨known_of_fields perm order dims ?_, ⟨digits, orders, decimal⟩,
        ⟨m, dimses, allowed⟩, Or.inr ⟨k, reverbs.trans single, allowedReverb⟩⟩
      intro token member
      rw [List.mem_singleton.mp member]
      exact ⟨'R', by simp, by rw [reverb]; rfl⟩
  · rintro ⟨known, ⟨digits, order, decimal⟩, ⟨m, dims, allowed⟩, reverb⟩
    have perm := perm_tokensOf known
    rcases tokensOf_of_payloads order with ⟨o, orders, order⟩
    rcases tokensOf_of_payloads dims with ⟨d, dimsTokens, dims⟩
    have dimsToken : DimsToken d := by
      rw [dimsToken_iff, dims, Option.some.injEq, Option.some.injEq]
      exact allowed
    refine ⟨o, d, orderToken_iff.mpr ⟨digits, order, decimal⟩, dimsToken, ?_⟩
    rw [orders, dimsTokens] at perm
    rcases reverb with absent | ⟨k, reverb, allowedReverb⟩
    · rw [tokensOf_eq_nil absent] at perm
      exact Or.inl perm
    · rcases tokensOf_of_payloads reverb with ⟨r, reverbs, reverb⟩
      rw [reverbs] at perm
      have reverbToken : ReverbToken r := by
        rw [reverbToken_iff, reverb, Option.some.injEq, Option.some.injEq]
        exact allowedReverb
      exact Or.inr ⟨r, reverbToken, perm⟩

/-- The documented tokens set both fields that a mode needs. -/
theorem AmbTokens.readable {tokens : List (List Char)} (documented : AmbTokens tokens) :
    ¬(Unreadable 'O' tokens ∨ Unreadable 'D' tokens) := by
  rcases ambTokens_iff.mp documented with ⟨-, ⟨digits, order, decimal⟩, ⟨m, dims, allowed⟩, -⟩
  rw [unreadable_iff, unreadable_iff, order, dims]
  have number : parseUnsigned 8 digits = some (decimalValue digits) :=
    parseUnsigned_eq_some.mpr ⟨digits, Or.inl rfl, decimal, rfl⟩
  rintro (unreadable | unreadable)
  · change parseUnsigned 8 digits = none at unreadable
    rw [number] at unreadable
    cases unreadable
  · rcases allowed with rfl | rfl <;> exact absurd unreadable (by decide)

/-- The documented tokens leave the parser nothing to forgive. -/
theorem AmbTokens.plain {tokens : List (List Char)} (documented : AmbTokens tokens) :
    Plain tokens := by
  rcases ambTokens_iff.mp documented with
    ⟨known, ⟨digits, order, decimal⟩, ⟨m, dims, allowed⟩, reverb⟩
  have reverbTexts : (payloads 'R' tokens).length ≤ 1 ∧
      ∀ k ∈ payloads 'R' tokens, k = ['0'] ∨ k = ['1'] := by
    rcases reverb with absent | ⟨k, single, allowedReverb⟩
    · rw [absent]
      exact ⟨Nat.zero_le 1, fun _ member => absurd member List.not_mem_nil⟩
    · rw [single]
      refine ⟨le_refl 1, fun text member => ?_⟩
      rw [List.mem_singleton] at member
      exact member ▸ allowedReverb
  refine ⟨known, ?_, ?_, ?_, reverbTexts.2⟩
  · intro letter among
    simp only [List.mem_cons, List.not_mem_nil, or_false] at among
    rcases among with rfl | rfl | rfl
    · rw [order]
      exact le_refl 1
    · rw [dims]
      exact le_refl 1
    · exact reverbTexts.1
  · intro n member signed
    rw [order, List.mem_singleton] at member
    subst member
    have digit := decimal.digits '+' (List.mem_of_head? signed)
    exact absurd digit (by decide)
  · intro text member
    rw [dims, List.mem_singleton] at member
    exact member ▸ allowed

/-- A letter that occurs at most once has no text behind it, or one. -/
theorem Plain.payloads_cases {tokens : List (List Char)} (plain : Plain tokens) {letter : Char}
    (among : letter ∈ ['O', 'D', 'R']) :
    payloads letter tokens = [] ∨ ∃ text, payloads letter tokens = [text] := by
  have once := plain.once letter among
  match texts : payloads letter tokens with
  | [] => exact Or.inl rfl
  | [text] => exact Or.inr ⟨text, rfl⟩
  | first :: second :: rest =>
      rw [texts, List.length_cons, List.length_cons] at once
      omega

/-- A field that is set is set by one token. -/
theorem Plain.payloads_single {tokens : List (List Char)} (plain : Plain tokens) {letter : Char}
    (among : letter ∈ ['O', 'D', 'R']) (readable : ¬Unreadable letter tokens) :
    ∃ text number, payloads letter tokens = [text] ∧ parseUnsigned 8 text = some number := by
  rw [unreadable_iff] at readable
  rcases plain.payloads_cases among with absent | ⟨text, single⟩
  · rw [absent] at readable
    exact absurd rfl readable
  · rw [single] at readable
    rcases Option.ne_none_iff_exists'.mp readable with ⟨number, parsed⟩
    exact ⟨text, number, single, parsed⟩

/-- Among tokens that set both fields, the documented ones are those without anything
that the parser forgives. -/
theorem ambTokens_iff_plain {tokens : List (List Char)}
    (readable : ¬(Unreadable 'O' tokens ∨ Unreadable 'D' tokens)) :
    AmbTokens tokens ↔ Plain tokens := by
  refine ⟨AmbTokens.plain, fun plain => ambTokens_iff.mpr ?_⟩
  rw [not_or] at readable
  rcases plain.payloads_single (by simp) readable.1 with ⟨n, value, order, number⟩
  rcases plain.payloads_single (by simp) readable.2 with ⟨m, -, dims, -⟩
  rcases parseUnsigned_eq_some.mp number with ⟨digits, rfl | signed, decimal, -⟩
  · refine ⟨plain.known, ⟨n, order, decimal⟩, ⟨m, dims, plain.dims m (by rw [dims]; simp)⟩, ?_⟩
    have among : 'R' ∈ ['O', 'D', 'R'] := by simp
    rcases plain.payloads_cases among with absent | ⟨k, single⟩
    · exact Or.inl absent
    · exact Or.inr ⟨k, single, plain.reverb k (by rw [single]; simp)⟩
  · have unsigned := plain.unsigned n (by rw [order]; simp)
    rw [signed] at unsigned
    exact absurd rfl unsigned

/-! ## Strings -/

theorem ambRest_eq_some {s rest : List Char} :
    ambRest s = some rest ↔
      ∃ name, (name = ['a', 'm', 'b'] ∨ name = ['A', 'm', 'b'] ∨ name = ['A', 'M', 'B']) ∧
        s = name ++ rest := by
  constructor
  · intro found
    rw [ambRest, Option.or_eq_some_iff, Option.or_eq_some_iff] at found
    rcases found with (found | ⟨-, found⟩) | ⟨-, found⟩
    · exact ⟨_, Or.inl rfl, (List.isPrefixOf?_eq_some_iff_append_eq.mp found).symm⟩
    · exact ⟨_, Or.inr (Or.inl rfl), (List.isPrefixOf?_eq_some_iff_append_eq.mp found).symm⟩
    · exact ⟨_, Or.inr (Or.inr rfl), (List.isPrefixOf?_eq_some_iff_append_eq.mp found).symm⟩
  · rintro ⟨name, rfl | rfl | rfl, rfl⟩ <;> rfl

/-- The name of a mode without tokens does not begin with the prefix. -/
theorem ambRest_of_name {s : List Char}
    (named : eqIgnoreAsciiCase s monoName = true ∨ eqIgnoreAsciiCase s stereoName = true) :
    ambRest s = none := by
  rw [Option.eq_none_iff_forall_not_mem]
  intro rest found
  rcases ambRest_eq_some.mp found with ⟨name, spelled, rfl⟩
  have first : ((name ++ rest).map Char.toLower).head? = some 'a' := by
    rcases spelled with rfl | rfl | rfl <;> rfl
  simp only [eqIgnoreAsciiCase, decide_eq_true_eq] at named
  rcases named with named | named
  · exact absurd (first.symm.trans (congrArg List.head? named)) (by decide)
  · exact absurd (first.symm.trans (congrArg List.head? named)) (by decide)

/-- What an ambisonic string is parsed to.  Only the last text behind each letter occurs. -/
theorem parse_of_ambRest {s rest : List Char} (found : ambRest (trim s) = some rest) :
    parse s =
      (((payloads 'O' (splitWhitespace rest)).getLast?.bind (parseUnsigned 8)).bind fun order =>
        ((payloads 'D' (splitWhitespace rest)).getLast?.bind (parseUnsigned 8)).map fun dims =>
          .ambisonic order dims
            ((payloads 'R' (splitWhitespace rest)).getLast?.map
              fun k => (parseUnsigned 8 k).getD 0)) := by
  have notMono : ¬eqIgnoreAsciiCase (trim s) monoName = true := fun named => by
    rw [ambRest_of_name (Or.inl named)] at found
    cases found
  have notStereo : ¬eqIgnoreAsciiCase (trim s) stereoName = true := fun named => by
    rw [ambRest_of_name (Or.inr named)] at found
    cases found
  simp only [parse, if_neg notMono, if_neg notStereo, found, Option.bind_eq_bind,
    Option.bind_some, splitWhitespace_trim, foldl_readToken]
  congr 1
  funext order
  exact Option.map_eq_bind.symm

/-- On a string without the prefix the parser follows its notation: it is one of the two
names, or neither of them has anything to say about it. -/
theorem follows_of_no_ambRest {s : List Char} (absent : ambRest (trim s) = none) :
    FollowsNotation s := by
  by_cases mono : eqIgnoreAsciiCase (trim s) monoName = true
  · have parsed : parse s = some .mono := by simp only [parse, if_pos mono]
    rw [FollowsNotation, parsed]
    exact ⟨⟨fun _ => Or.inl mono, fun _ => rfl⟩, nofun⟩
  · by_cases stereo : eqIgnoreAsciiCase (trim s) stereoName = true
    · have parsed : parse s = some .stereo := by simp only [parse, if_neg mono, if_pos stereo]
      rw [FollowsNotation, parsed]
      exact ⟨⟨fun _ => Or.inr (Or.inl stereo), fun _ => rfl⟩, nofun⟩
    · have parsed : parse s = none := by
        simp only [parse, if_neg mono, if_neg stereo, absent, Option.bind_eq_bind, Option.bind_none]
      have undocumented : ¬Documented s := by
        rintro (named | named | ⟨name, rest, spelled, split, -⟩)
        · exact mono named
        · exact stereo named
        · rw [ambRest_eq_some.mpr ⟨name, spelled, split⟩] at absent
          cases absent
      rw [FollowsNotation, parsed]
      exact ⟨⟨nofun, fun documented => absurd documented undocumented⟩, nofun⟩

/-- On a string with the prefix the notation is about the tokens.  The names of the other
modes do not have this prefix. -/
theorem documented_iff_of_ambRest {s rest : List Char} (found : ambRest (trim s) = some rest) :
    Documented s ↔ AmbTokens (splitWhitespace rest) := by
  constructor
  · rintro (named | named | ⟨name, other, spelled, split, tokens⟩)
    · rw [ambRest_of_name (Or.inl named)] at found
      cases found
    · rw [ambRest_of_name (Or.inr named)] at found
      cases found
    · rw [ambRest_eq_some.mpr ⟨name, spelled, split⟩, Option.some.injEq] at found
      exact found ▸ tokens
  · intro tokens
    rcases ambRest_eq_some.mp found with ⟨name, spelled, split⟩
    exact Or.inr (Or.inr ⟨name, rest, spelled, split, tokens⟩)

/-- On a string with the prefix something is parsed unless a field is missing. -/
theorem parse_isSome_iff_of_ambRest {s rest : List Char} (found : ambRest (trim s) = some rest) :
    (parse s).isSome = true ↔
      ¬(Unreadable 'O' (splitWhitespace rest) ∨ Unreadable 'D' (splitWhitespace rest)) := by
  rw [parse_of_ambRest found, unreadable_iff, unreadable_iff]
  cases (payloads 'O' (splitWhitespace rest)).getLast?.bind (parseUnsigned 8) <;>
    cases (payloads 'D' (splitWhitespace rest)).getLast?.bind (parseUnsigned 8) <;> simp

/-- Tokens without anything to forgive give a mode of the documented domain. -/
theorem Plain.domain {s rest : List Char} (found : ambRest (trim s) = some rest)
    (plain : Plain (splitWhitespace rest)) {order dims : Nat} {reverb : Option Nat}
    (parsed : parse s = some (.ambisonic order dims reverb)) :
    (dims = 2 ∨ dims = 3) ∧ (reverb = none ∨ reverb = some 0 ∨ reverb = some 1) := by
  rw [parse_of_ambRest found, Option.bind_eq_some_iff] at parsed
  rcases parsed with ⟨n, -, parsed⟩
  rw [Option.map_eq_some_iff] at parsed
  rcases parsed with ⟨m, read, parsed⟩
  rw [PanMode.ambisonic.injEq] at parsed
  rcases parsed with ⟨-, rfl, rfl⟩
  rcases Option.bind_eq_some_iff.mp read with ⟨text, last, number⟩
  constructor
  · rcases plain.dims text (List.mem_of_getLast? last) with rfl | rfl
    · exact Or.inl (Option.some.inj (number.symm.trans (by decide)))
    · exact Or.inr (Option.some.inj (number.symm.trans (by decide)))
  · cases lastReverb : (payloads 'R' (splitWhitespace rest)).getLast? with
    | none => exact Or.inl rfl
    | some k =>
        rcases plain.reverb k (List.mem_of_getLast? lastReverb) with rfl | rfl
        · exact Or.inr (Or.inl (by decide))
        · exact Or.inr (Or.inr (by decide))

/-- The parser follows its notation on a string without the prefix; on one with it,
exactly when it rejects the tokens or has nothing to forgive. -/
theorem parse_follows_notation_iff (s : List Char) :
    FollowsNotation s ↔
      ∀ rest, ambRest (trim s) = some rest →
        Unreadable 'O' (splitWhitespace rest) ∨ Unreadable 'D' (splitWhitespace rest) ∨
          Plain (splitWhitespace rest) := by
  cases found : ambRest (trim s) with
  | none => exact ⟨fun _ => nofun, fun _ => follows_of_no_ambRest found⟩
  | some rest =>
      have accepted := parse_isSome_iff_of_ambRest found
      have documented := documented_iff_of_ambRest found
      constructor
      · rintro ⟨follows, -⟩ other same
        cases same
        by_cases unreadable :
            Unreadable 'O' (splitWhitespace rest) ∨ Unreadable 'D' (splitWhitespace rest)
        · exact or_assoc.mp (Or.inl unreadable)
        · have tokens := documented.mp (follows.mp (accepted.mpr unreadable))
          exact Or.inr (Or.inr ((ambTokens_iff_plain unreadable).mp tokens))
      · intro condition
        by_cases unreadable :
            Unreadable 'O' (splitWhitespace rest) ∨ Unreadable 'D' (splitWhitespace rest)
        · have rejected : ¬(parse s).isSome = true := fun some => accepted.mp some unreadable
          refine ⟨⟨fun some => absurd some rejected,
            fun tokens => absurd unreadable (documented.mp tokens).readable⟩, ?_⟩
          intro order dims reverb parsed
          exact absurd (by rw [parsed]; rfl) rejected
        · have plain : Plain (splitWhitespace rest) :=
            (or_assoc.mpr (condition rest rfl)).resolve_left unreadable
          exact ⟨⟨fun _ => documented.mpr ((ambTokens_iff_plain unreadable).mpr plain),
            fun _ => accepted.mpr unreadable⟩, fun order dims reverb => plain.domain found⟩

/-- Five dimensions are let through.  The notation has two and three. -/
theorem parse_five_dims : ¬∀ s : List Char, FollowsNotation s := by
  intro follows
  have parsed : parse ['a', 'm', 'b', ' ', 'O', '1', ' ', 'D', '5'] =
      some (.ambisonic 1 5 none) := by decide
  have domain := ((follows _).2 1 5 none parsed).1
  exact absurd domain (by decide)

end PanMode

end Engine
end Rfofs

import TableParsing.Proofs.ByteLanguage
import TableParsing.Pyret.Symbol
import TableParsing.Table.Lexis

/-!
# The words of Pyret's tokens

The token grammar, as one language for each token, and which of its words begin with a byte.
-/
namespace TableParsing.Pyret

open scoped Computability

variable {b : UInt8} {word : Bytes} {s : PyretSymbol} {L : ByteLanguage} {quote : Char}

def between (lo hi : Char) (b : UInt8) : Bool := ByteRange.contains ⟨lo.toUInt8, hi.toUInt8⟩ b

def isDigit (b : UInt8) : Bool := between '0' '9' b

def isNameStart (b : UInt8) : Bool := between 'A' 'Z' b || between 'a' 'z' b || b == '_'.toUInt8

def isNamePart (b : UInt8) : Bool := isNameStart b || isDigit b || b == '-'.toUInt8

theorem not_isNameStart_of_isDigit (h : isDigit b = true) : isNameStart b = false := by
  have hrange := ByteRange.contains_eq_true_iff.mp h
  simp only [UInt8.le_iff_toNat_le] at hrange
  have h0 : '0'.toUInt8.toNat = 48 := rfl
  have h9 : '9'.toUInt8.toNat = 57 := rfl
  rw [Bool.eq_false_iff]
  simp only [isNameStart, between, ne_eq, Bool.or_eq_true, ByteRange.contains_eq_true_iff,
    UInt8.le_iff_toNat_le, beq_iff_eq, ← UInt8.toNat_inj]
  have hA : 'A'.toUInt8.toNat = 65 := rfl
  have ha : 'a'.toUInt8.toNat = 97 := rfl
  have hunderscore : '_'.toUInt8.toNat = 95 := rfl
  omega

def nameTail : ByteLanguage := (oneOf isNamePart)∗

/-- One digit or more. -/
def digitRun : ByteLanguage := oneOf isDigit * (oneOf isDigit)∗

def sign : ByteLanguage := byteOf '+' + byteOf '-'

/-- A fraction may be missing. -/
def fractionPart : ByteLanguage := 1 + byteOf '.' * digitRun

/-- An exponent may be missing. -/
def exponentPart : ByteLanguage := 1 + (byteOf 'e' + byteOf 'E') * ((1 + sign) * digitRun)

def unsigned : ByteLanguage := digitRun * (fractionPart * exponentPart)

/-- The bytes between two quotes; behind a backslash there may be any byte. -/
def stringBody (quote : Char) : ByteLanguage :=
  (noneOf ['\n', quote, '\\'] + byteOf '\\' * noneOf [])∗

def quoted (quote : Char) : ByteLanguage := byteOf quote * (stringBody quote * byteOf quote)

/-- The bytes that end a block comment. -/
def commentEnd : Bytes := ['|'.toUInt8, '#'.toUInt8]

/-- The words in which the first end of a comment is at their end. -/
def toCommentEnd : ByteLanguage :=
  {word | commentEnd <:+ word ∧ ∀ before rest, word = before ++ commentEnd ++ rest → rest = []}

def commentBlock : ByteLanguage := byteOf '#' * (byteOf '|' * toCommentEnd)

def restOfLine : ByteLanguage := (noneOf ['\n'])∗

/-- How a token may be spelt. -/
def wordsOf : PyretSymbol → ByteLanguage
  | .name => oneOf isNameStart * nameTail
  | .number => (1 + sign) * unsigned
  | .string => quoted '"' + quoted '\''
  | .blockComment => commentBlock
  | .lineComment => withoutStart commentBlock (byteOf '#' * restOfLine)
  | .plus => byteOf '+'
  | .minus => byteOf '-'
  | .star => byteOf '*'
  | .slash => byteOf '/'
  | .less => byteOf '<'
  | .greater => byteOf '>'
  | .equals => byteOf '='
  | .doubleEquals => byteOf '=' * byteOf '='
  | .colon => byteOf ':'
  | .comma => byteOf ','
  | .rightParen => byteOf ')'
  | _ => 0

/-! ## Ends of comments -/

theorem nil_notMem_toCommentEnd : [] ∉ toCommentEnd := by
  rintro ⟨h, _⟩
  cases List.suffix_nil.mp h

theorem commentEnd_append_mem_toCommentEnd : commentEnd ++ word ∈ toCommentEnd ↔ word = [] := by
  constructor
  · rintro ⟨_, h⟩
    exact h [] word rfl
  · rintro rfl
    refine ⟨List.suffix_rfl, fun before rest h => ?_⟩
    have hlen := congrArg List.length h
    simp only [List.length_append, List.length_nil] at hlen
    exact List.length_eq_zero_iff.mp (by omega)

/-- A byte in front changes nothing if no comment ends with it. -/
theorem cons_mem_toCommentEnd (hb : ¬ commentEnd <+: b :: word) :
    b :: word ∈ toCommentEnd ↔ word ∈ toCommentEnd := by
  constructor
  · rintro ⟨hend, hfirst⟩
    constructor
    · rcases List.suffix_cons_iff.mp hend with heq | hend
      · exact absurd (heq ▸ List.prefix_rfl) hb
      · exact hend
    · rintro before rest rfl
      exact hfirst (b :: before) rest rfl
  · rintro ⟨hend, hfirst⟩
    refine ⟨hend.trans (List.suffix_cons b word), fun before rest h => ?_⟩
    cases before with
    | nil => exact absurd ⟨rest, h.symm⟩ hb
    | cons b' before =>
      cases h
      exact hfirst before rest rfl

/-- The words that end a comment of which a bar is the last byte so far. -/
def toCommentEndBar : ByteLanguage := after '|'.toUInt8 toCommentEnd

theorem after_toCommentEnd (b : UInt8) : after b toCommentEnd =
    if b = '|'.toUInt8 then toCommentEndBar else toCommentEnd := by
  split_ifs with hb
  · rw [hb, toCommentEndBar]
  · ext word
    exact cons_mem_toCommentEnd fun h => hb (List.cons_prefix_cons.mp h).1.symm

theorem nil_notMem_toCommentEndBar : [] ∉ toCommentEndBar := by
  rintro ⟨h, _⟩
  exact absurd h.length_le (by decide)

theorem after_toCommentEndBar (b : UInt8) : after b toCommentEndBar =
    if b = '#'.toUInt8 then 1
    else if b = '|'.toUInt8 then toCommentEndBar else toCommentEnd := by
  split_ifs with hhash hbar
  · ext word
    rw [hhash]
    exact commentEnd_append_mem_toCommentEnd
  all_goals
    have hskip (word : Bytes) : word ∈ after b toCommentEndBar ↔ word ∈ after b toCommentEnd := by
      refine cons_mem_toCommentEnd fun h => hhash ?_
      exact (List.cons_prefix_cons.mp (List.cons_prefix_cons.mp h).2).1.symm
    rw [Language.ext hskip, after_toCommentEnd]
  · rw [if_pos hbar]
  · rw [if_neg hbar]

/-! ## The first byte of a word -/

theorem cons_mem_nameTail :
    b :: word ∈ nameTail ↔ isNamePart b = true ∧ word ∈ nameTail := cons_mem_oneOf_kstar

theorem cons_mem_digitRun_mul :
    b :: word ∈ digitRun * L ↔ isDigit b = true ∧ word ∈ (oneOf isDigit)∗ * L := by
  rw [digitRun, mul_assoc, cons_mem_oneOf_mul]

theorem cons_mem_digitRun :
    b :: word ∈ digitRun ↔ isDigit b = true ∧ word ∈ (oneOf isDigit)∗ := cons_mem_oneOf_mul

theorem cons_mem_sign_mul : b :: word ∈ (1 + sign) * L ↔
    b :: word ∈ L ∨ (b = '+'.toUInt8 ∨ b = '-'.toUInt8) ∧ word ∈ L := by
  simp only [sign, add_mul, one_mul, Language.mem_add, cons_mem_byteOf_mul, or_and_right]

theorem cons_mem_fractionPart_mul : b :: word ∈ fractionPart * L ↔
    b :: word ∈ L ∨ b = '.'.toUInt8 ∧ word ∈ digitRun * L := by
  simp only [fractionPart, add_mul, one_mul, mul_assoc, Language.mem_add, cons_mem_byteOf_mul]

theorem cons_mem_exponentPart : b :: word ∈ exponentPart ↔
    (b = 'e'.toUInt8 ∨ b = 'E'.toUInt8) ∧ word ∈ (1 + sign) * digitRun := by
  simp only [exponentPart, add_mul, Language.mem_add, Language.mem_one, reduceCtorEq, false_or,
    cons_mem_byteOf_mul, or_and_right]

theorem cons_mem_unsigned : b :: word ∈ unsigned ↔
    isDigit b = true ∧ word ∈ (oneOf isDigit)∗ * (fractionPart * exponentPart) :=
  cons_mem_digitRun_mul

theorem cons_mem_stringBody_mul : b :: word ∈ stringBody quote * L ↔
    b :: word ∈ L ∨ b ∉ ['\n', quote, '\\'].map Char.toUInt8 ∧ word ∈ stringBody quote * L ∨
      b = '\\'.toUInt8 ∧ word ∈ noneOf [] * (stringBody quote * L) := by
  conv_lhs => rw [stringBody, kstar_mul]
  simp only [Language.mem_add, add_mul, mul_assoc, cons_mem_noneOf_mul, cons_mem_byteOf_mul]
  rfl

theorem cons_mem_restOfLine :
    b :: word ∈ restOfLine ↔ b ∉ ['\n'].map Char.toUInt8 ∧ word ∈ restOfLine := by
  rw [restOfLine, noneOf, cons_mem_oneOf_kstar]
  simp

theorem after_restOfLine (b : UInt8) :
    after b restOfLine = if b = '\n'.toUInt8 then 0 else restOfLine := by
  ext word
  rw [mem_after, cons_mem_restOfLine]
  split_ifs with hb
  · exact iff_of_false (fun h => h.1 (by simp [hb])) (Language.notMem_zero word)
  · exact and_iff_right (by simpa using hb)

theorem hash_mem_lineComment : '#'.toUInt8 :: word ∈ wordsOf .lineComment ↔
    word ∈ withoutStart (byteOf '|' * toCommentEnd) restOfLine := by
  have hline := after_withoutStart (K := commentBlock) (by simp [commentBlock]) '#'.toUInt8
    (byteOf '#' * restOfLine)
  rw [commentBlock, after_byteOf_mul, after_byteOf_mul, if_pos rfl, if_pos rfl] at hline
  rw [← hline]
  rfl

/-! ## No token is empty -/

theorem nil_notMem_digitRun : [] ∉ digitRun := fun h => nil_notMem_oneOf (nil_mem_mul.mp h).1

theorem nil_notMem_unsigned : [] ∉ unsigned := fun h => nil_notMem_digitRun (nil_mem_mul.mp h).1

theorem nil_notMem_quoted : [] ∉ quoted quote :=
  fun h => nil_notMem_byteOf (nil_mem_mul.mp h).1

theorem nil_notMem_wordsOf : [] ∉ wordsOf s := by
  unfold wordsOf
  split
  · exact fun h => nil_notMem_oneOf (nil_mem_mul.mp h).1
  · exact fun h => nil_notMem_unsigned (nil_mem_mul.mp h).2
  · exact fun h => h.elim nil_notMem_quoted nil_notMem_quoted
  · exact fun h => nil_notMem_byteOf (nil_mem_mul.mp h).1
  · exact fun h => nil_notMem_byteOf (nil_mem_mul.mp h.1).1
  case h_13 => exact fun h => nil_notMem_byteOf (nil_mem_mul.mp h).1
  case h_17 => exact Language.notMem_zero []
  all_goals exact nil_notMem_byteOf

end TableParsing.Pyret

import TableParsing.Proofs.AcceptedWords
import TableParsing.Proofs.Pyret.TokenWords
import TableParsing.Pyret.Language

/-!
# The tokens of Pyret as languages

The automaton accepts exactly the words of the token grammar. Every one of its states stands for the
language of what may still follow there, and a byte leads from the words of one state that begin
with it to the words of the next.
-/
namespace TableParsing.Pyret

open PyretSymbol
open scoped Computability

variable {b : UInt8} {word : Bytes} {s : PyretSymbol}

/-! ## What follows in a state -/

/-- The words that complete this token and no other. -/
def only (s : PyretSymbol) (L : ByteLanguage) (s' : PyretSymbol) : ByteLanguage :=
  {word | s' = s ∧ word ∈ L}

theorem mem_only {s' : PyretSymbol} {L : ByteLanguage} :
    word ∈ only s L s' ↔ s' = s ∧ word ∈ L := Iff.rfl

/-- The words that complete a token. -/
def LexMode.rest : LexMode → PyretSymbol → ByteLanguage
  | start => wordsOf
  | name => only .name nameTail
  | integer => only .number ((oneOf isDigit)∗ * (fractionPart * exponentPart))
  | plus => only .plus 1 + only .number unsigned
  | minus => only .minus 1 + only .number unsigned
  | star => only .star 1
  | slash => only .slash 1
  | less => only .less 1
  | greater => only .greater 1
  | equals => only .equals 1 + only .doubleEquals (byteOf '=')
  | doubleEquals => only .doubleEquals 1
  | colon => only .colon 1
  | comma => only .comma 1
  | rightParen => only .rightParen 1
  | doubleQuoted => only .string (stringBody '"' * byteOf '"')
  | doubleQuotedEscape => only .string (noneOf [] * (stringBody '"' * byteOf '"'))
  | stringDone => only .string 1
  | singleQuoted => only .string (stringBody '\'' * byteOf '\'')
  | singleQuotedEscape => only .string (noneOf [] * (stringBody '\'' * byteOf '\''))
  | hash =>
    only .blockComment (byteOf '|' * toCommentEnd) +
      only .lineComment (withoutStart (byteOf '|' * toCommentEnd) restOfLine)
  | lineComment => only .lineComment restOfLine
  | blockFirstLine =>
    only .blockComment toCommentEnd + only .lineComment (withoutStart toCommentEnd restOfLine)
  | blockFirstLineBar =>
    only .blockComment toCommentEndBar + only .lineComment (withoutStart toCommentEndBar restOfLine)
  | block => only .blockComment toCommentEnd
  | blockBar => only .blockComment toCommentEndBar
  | blockDone => only .blockComment 1
  | point => only .number (digitRun * exponentPart)
  | fraction => only .number ((oneOf isDigit)∗ * exponentPart)
  | exponent => only .number ((1 + sign) * digitRun)
  | exponentSign => only .number digitRun
  | exponentDigits => only .number (oneOf isDigit)∗

/-! ## Where a byte leads -/

theorem id_injective {m m' : LexMode} (h : m.id = m'.id) : m = m' := by
  have hm := LexMode.all_id m
  rw [h, LexMode.all_id m'] at hm
  exact (Option.some.inj hm).symm

/-- On this byte the state leads to a mode with the property. -/
def Leads (st : LexState) (b : UInt8) (P : LexMode → Prop) : Prop :=
  ∃ m : LexMode, st.next? b = some m.id ∧ P m

section

variable {st st' : LexState} {P : LexMode → Prop} {next : LexMode} {c lo hi : Char}
  {excluded : List Char} {cond : Prop} [Decidable cond]

theorem leads_of_none (h : st.next? b = none) : ¬ Leads st b P := by
  rintro ⟨m, hm, _⟩
  rw [h] at hm
  cases hm

/-- A new transition leads on where no older one does. -/
theorem leads_or (h : st'.next? b = (st.next? b).or (if cond then some next.id else none)) :
    Leads st' b P ↔ Leads st b P ∨ st.next? b = none ∧ cond ∧ P next := by
  rw [Leads, Leads, h]
  cases st.next? b with
  | some id => simp
  | none =>
    by_cases hc : cond
    · simp only [hc, if_true, Option.none_or, Option.some.injEq, reduceCtorEq, false_and,
        exists_false, false_or, true_and]
      constructor
      · rintro ⟨m, hm, hP⟩
        exact id_injective hm ▸ hP
      · exact fun hP => ⟨next, rfl, hP⟩
    · simp [hc]

theorem or_eq_none (h : st'.next? b = (st.next? b).or (if cond then some next.id else none)) :
    st'.next? b = none ↔ st.next? b = none ∧ ¬ cond := by
  rw [h, Option.or_eq_none_iff]
  simp

theorem next?_range : (range st lo hi next).next? b =
    (st.next? b).or (if between lo hi b = true then some next.id else none) :=
  LexState.next?_on ..

theorem next?_onChar : (onChar st c next).next? b =
    (st.next? b).or (if b = c.toUInt8 then some next.id else none) := by
  have hc : ByteRange.contains ⟨c.toUInt8, c.toUInt8⟩ b = true ↔ b = c.toUInt8 := by
    rw [ByteRange.contains_eq_true_iff]
    constructor
    · exact fun h => UInt8.le_antisymm h.2 h.1
    · rintro rfl
      exact ⟨UInt8.le_refl _, UInt8.le_refl _⟩
  rw [onChar, LexState.onByte, LexState.next?_on]
  simp only [hc]

theorem next?_other (h : (excluded.map Char.toUInt8).Pairwise (· < ·)) :
    (other st excluded next).next? b =
      (st.next? b).or (if b ∉ excluded.map Char.toUInt8 then some next.id else none) :=
  LexState.next?_allExcept st next.id b (h.imp UInt8.le_of_lt)

@[simp] theorem next?_empty : LexState.empty.next? b = none := rfl

@[simp] theorem next?_accepting (s : PyretSymbol) : (accepting s).next? b = none := rfl

@[simp] theorem leads_empty : ¬ Leads LexState.empty b P := leads_of_none rfl

@[simp] theorem leads_accepting : ¬ Leads (accepting s) b P := leads_of_none rfl

@[simp] theorem leads_range : Leads (range st lo hi next) b P ↔
    Leads st b P ∨ st.next? b = none ∧ between lo hi b = true ∧ P next := leads_or next?_range

@[simp] theorem range_eq_none : (range st lo hi next).next? b = none ↔
    st.next? b = none ∧ ¬ between lo hi b = true := or_eq_none next?_range

@[simp] theorem leads_onChar : Leads (onChar st c next) b P ↔
    Leads st b P ∨ st.next? b = none ∧ b = c.toUInt8 ∧ P next := leads_or next?_onChar

@[simp] theorem onChar_eq_none : (onChar st c next).next? b = none ↔
    st.next? b = none ∧ ¬ b = c.toUInt8 := or_eq_none next?_onChar

theorem leads_other (h : (excluded.map Char.toUInt8).Pairwise (· < ·)) :
    Leads (other st excluded next) b P ↔
      Leads st b P ∨ st.next? b = none ∧ b ∉ excluded.map Char.toUInt8 ∧ P next :=
  leads_or (next?_other h)

@[simp] theorem leads_digits : Leads (Pyret.digits st next) b P ↔
    Leads st b P ∨ st.next? b = none ∧ isDigit b = true ∧ P next := leads_range

@[simp] theorem digits_eq_none : (Pyret.digits st next).next? b = none ↔
    st.next? b = none ∧ ¬ isDigit b = true := range_eq_none

end

/-! ## The equations of the states -/

/-- A state leads on with a byte exactly when it is the first of what may follow. -/
def LexMode.Solved (m : LexMode) : Prop :=
  ∀ b word s, Leads m.state b (fun m => word ∈ m.rest s) ↔ b :: word ∈ m.rest s

theorem solved_of_final {m : LexMode} {x : PyretSymbol} (hstate : m.state = accepting x)
    (hrest : m.rest = only x 1) : m.Solved := by
  intro b word s
  rw [hstate, hrest]
  exact iff_of_false leads_accepting fun h => List.cons_ne_nil b word h.2

theorem solved_name : LexMode.name.Solved := by
  intro b word s
  simp only [LexMode.state, nameCharacters, leads_range, leads_onChar, leads_digits,
    leads_accepting]
  simp only [LexMode.rest, mem_only, cons_mem_nameTail, isNamePart, isNameStart, next?_accepting,
    onChar_eq_none, digits_eq_none, range_eq_none, Bool.or_eq_true, beq_iff_eq]
  grind

/-! ### Numbers -/

/-- None of the bytes that go on with a number stands for two things. -/
theorem numberMarks_ne : isDigit '.'.toUInt8 = false ∧ isDigit 'e'.toUInt8 = false ∧
    isDigit 'E'.toUInt8 = false ∧ isDigit '+'.toUInt8 = false ∧ isDigit '-'.toUInt8 = false ∧
    'e'.toUInt8 ≠ '.'.toUInt8 ∧ 'E'.toUInt8 ≠ '.'.toUInt8 := by decide

theorem solved_integer : LexMode.integer.Solved := by
  intro b word s
  simp only [LexMode.state, exponentMark, leads_onChar, leads_digits, leads_accepting]
  simp only [LexMode.rest, mem_only, cons_mem_oneOf_kstar_mul, cons_mem_fractionPart_mul,
    cons_mem_exponentPart, next?_accepting, onChar_eq_none, digits_eq_none]
  grind [numberMarks_ne]

theorem solved_sign {m : LexMode} {x : PyretSymbol}
    (hstate : m.state = Pyret.digits (accepting x) .integer)
    (hrest : m.rest = only x 1 + only .number unsigned) : m.Solved := by
  intro b word s
  rw [hstate, hrest]
  simp only [leads_digits, leads_accepting, next?_accepting, Pi.add_apply, Language.mem_add,
    LexMode.rest, mem_only, cons_mem_unsigned, Language.mem_one]
  grind

theorem solved_digits {m next : LexMode} {st : LexState} {L : ByteLanguage}
    (hstate : m.state = Pyret.digits st next) (hst : ∀ b, st.next? b = none)
    (hrest : m.rest = only .number (digitRun * L))
    (hnext : next.rest = only .number ((oneOf isDigit)∗ * L)) : m.Solved := by
  intro b word s
  rw [hstate, hrest]
  simp only [leads_digits, leads_of_none (hst b), hst b, hnext, mem_only, cons_mem_digitRun_mul]
  grind

theorem solved_fraction : LexMode.fraction.Solved := by
  intro b word s
  simp only [LexMode.state, exponentMark, leads_onChar, leads_digits, leads_accepting]
  simp only [LexMode.rest, mem_only, cons_mem_oneOf_kstar_mul, cons_mem_exponentPart,
    next?_accepting, onChar_eq_none, digits_eq_none]
  grind [numberMarks_ne]

theorem solved_exponent : LexMode.exponent.Solved := by
  intro b word s
  simp only [LexMode.state, leads_onChar, leads_digits, leads_empty]
  simp only [LexMode.rest, mem_only, cons_mem_sign_mul, cons_mem_digitRun, next?_empty,
    onChar_eq_none, digits_eq_none]
  grind [numberMarks_ne]

theorem solved_exponentDigits : LexMode.exponentDigits.Solved := by
  intro b word s
  simp only [LexMode.state, leads_digits, leads_accepting, next?_accepting, LexMode.rest, mem_only,
    cons_mem_oneOf_kstar]
  grind

/-! ### Strings and operators -/

theorem solved_quoted {m escape : LexMode} {quote : Char}
    (hsorted : (['\n', quote, '\\'].map Char.toUInt8).Pairwise (· < ·))
    (hstate : m.state = other (onChar (onChar LexState.empty quote .stringDone) '\\' escape)
      ['\n', quote, '\\'] m)
    (hrest : m.rest = only .string (stringBody quote * byteOf quote))
    (hescape : escape.rest = only .string (noneOf [] * (stringBody quote * byteOf quote))) :
    m.Solved := by
  intro b word s
  have hquote : quote.toUInt8 ≠ '\\'.toUInt8 := by
    intro h
    simp [h] at hsorted
  rw [hstate]
  simp only [leads_onChar, leads_other hsorted, leads_empty, hrest, hescape]
  simp only [LexMode.rest, mem_only, cons_mem_stringBody_mul, cons_mem_byteOf, next?_empty,
    onChar_eq_none, Language.mem_one]
  grind

theorem solved_escape {m next : LexMode} {L : ByteLanguage}
    (hstate : m.state = LexState.empty.on 0 0xFF next.id)
    (hrest : m.rest = only .string (noneOf [] * L)) (hnext : next.rest = only .string L) :
    m.Solved := by
  intro b word s
  have hall : ByteRange.contains ⟨0, 0xFF⟩ b = true :=
    ByteRange.contains_eq_true_iff.mpr ⟨UInt8.zero_le, Nat.le_of_lt_succ b.toNat_lt⟩
  rw [hstate, hrest, leads_or (LexState.next?_on LexState.empty 0 0xFF next.id b), hnext]
  simp [mem_only, hall]

theorem solved_equals : LexMode.equals.Solved := by
  intro b word s
  simp only [LexMode.state, leads_onChar, leads_accepting, next?_accepting, LexMode.rest,
    Pi.add_apply, Language.mem_add, mem_only, cons_mem_byteOf, Language.mem_one]
  grind

/-! ### Comments -/

theorem solved_lineComment : LexMode.lineComment.Solved := by
  intro b word s
  simp (disch := decide) only [LexMode.state, leads_other, leads_accepting, next?_accepting,
    LexMode.rest, mem_only, cons_mem_restOfLine]
  grind

/-- No byte means two things in a comment. -/
theorem commentMarks_ne : '#'.toUInt8 ≠ '|'.toUInt8 ∧ '|'.toUInt8 ≠ '\n'.toUInt8 ∧
    '#'.toUInt8 ≠ '\n'.toUInt8 := by decide

theorem solved_block : LexMode.block.Solved := by
  intro b word s
  simp (disch := decide) only [LexMode.state, leads_other, leads_onChar, leads_empty, next?_empty,
    onChar_eq_none]
  simp only [LexMode.rest, mem_only]
  rw [← mem_after, after_toCommentEnd]
  grind

theorem solved_blockBar : LexMode.blockBar.Solved := by
  intro b word s
  simp (disch := decide) only [LexMode.state, leads_other, leads_onChar, leads_empty, next?_empty,
    onChar_eq_none]
  simp only [LexMode.rest, mem_only]
  rw [← mem_after, after_toCommentEndBar]
  grind [commentMarks_ne]

theorem solved_hash : LexMode.hash.Solved := by
  intro b word s
  have hline := after_withoutStart (K := byteOf '|' * toCommentEnd) (by simp) b restOfLine
  rw [after_byteOf_mul, after_restOfLine] at hline
  simp (disch := decide) only [LexMode.state, leads_other, leads_onChar, leads_accepting,
    next?_accepting, onChar_eq_none]
  simp only [LexMode.rest, Pi.add_apply, Language.mem_add, mem_only, cons_mem_byteOf_mul]
  rw [← mem_after (L := withoutStart _ _), hline]
  grind [commentMarks_ne, withoutStart_zero, withoutStart_of_zero, Language.notMem_zero]

theorem solved_blockFirstLine : LexMode.blockFirstLine.Solved := by
  intro b word s
  have hline := after_withoutStart nil_notMem_toCommentEnd b restOfLine
  rw [after_toCommentEnd, after_restOfLine] at hline
  simp (disch := decide) only [LexMode.state, leads_other, leads_onChar, leads_accepting,
    next?_accepting, onChar_eq_none]
  simp only [LexMode.rest, Pi.add_apply, Language.mem_add, mem_only]
  rw [← mem_after (L := toCommentEnd), ← mem_after (L := withoutStart _ _), hline,
    after_toCommentEnd]
  grind [commentMarks_ne, withoutStart_zero, withoutStart_of_zero, Language.notMem_zero]

theorem solved_blockFirstLineBar : LexMode.blockFirstLineBar.Solved := by
  intro b word s
  have hline := after_withoutStart nil_notMem_toCommentEndBar b restOfLine
  rw [after_toCommentEndBar, after_restOfLine] at hline
  simp (disch := decide) only [LexMode.state, leads_other, leads_onChar, leads_accepting,
    next?_accepting, onChar_eq_none]
  simp only [LexMode.rest, Pi.add_apply, Language.mem_add, mem_only]
  rw [← mem_after (L := toCommentEndBar), ← mem_after (L := withoutStart _ _), hline,
    after_toCommentEndBar]
  grind [commentMarks_ne, withoutStart_one, withoutStart_of_zero, Language.notMem_zero]

/-! ### The beginning of a token -/

theorem leads_openers {st : LexState} {P : LexMode → Prop} {b : UInt8} (l : List (Char × LexMode))
    (hnodup : (l.map (·.1.toUInt8)).Nodup) :
    Leads (l.foldl (fun st (c, next) => onChar st c next) st) b P ↔
      Leads st b P ∨ st.next? b = none ∧ ∃ o ∈ l, b = o.1.toUInt8 ∧ P o.2 := by
  induction l generalizing st with
  | nil => simp
  | cons o l ih =>
    obtain ⟨c, next⟩ := o
    rw [List.map_cons, List.nodup_cons] at hnodup
    rw [List.foldl_cons, ih hnodup.2]
    simp only [leads_onChar, onChar_eq_none, List.exists_mem_cons_iff]
    constructor
    · rintro ((h | ⟨hst, hb, hP⟩) | ⟨⟨hst, _⟩, h⟩)
      · exact .inl h
      · exact .inr ⟨hst, .inl ⟨hb, hP⟩⟩
      · exact .inr ⟨hst, .inr h⟩
    · rintro (h | ⟨hst, ⟨hb, hP⟩ | ⟨o, ho, hb, hP⟩⟩)
      · exact .inl (.inl h)
      · exact .inl (.inr ⟨hst, hb, hP⟩)
      · refine .inr ⟨⟨hst, fun hc => hnodup.1 ?_⟩, o, ho, hb, hP⟩
        exact List.mem_map.mpr ⟨o, ho, by rw [← hc, hb]⟩

theorem opener_class {o : Char × LexMode} (ho : o ∈ openers) :
    isNameStart o.1.toUInt8 = false ∧ isDigit o.1.toUInt8 = false := by
  have hall : ∀ o ∈ openers, isNameStart o.1.toUInt8 = false ∧ isDigit o.1.toUInt8 = false := by
    decide
  exact hall o ho

theorem leads_start {P : LexMode → Prop} : Leads LexMode.start.state b P ↔
    isNameStart b = true ∧ P .name ∨ isDigit b = true ∧ P .integer ∨
      ∃ o ∈ openers, b = o.1.toUInt8 ∧ P o.2 := by
  rw [LexMode.state, leads_openers openers (by decide)]
  have hclass (o : Char × LexMode) (ho : o ∈ openers) (hb : b = o.1.toUInt8) :
      isNameStart b = false ∧ isDigit b = false := hb ▸ opener_class ho
  have hdigit := not_isNameStart_of_isDigit (b := b)
  simp only [leads_digits, leads_onChar, leads_range, leads_empty, next?_empty, digits_eq_none,
    onChar_eq_none, range_eq_none]
  simp only [isNameStart, Bool.or_eq_true, beq_iff_eq] at *
  grind

/-- The tokens that begin with a character of their own. -/
theorem cons_mem_wordsOf_of_opener {o : Char × LexMode} (ho : o ∈ openers)
    (hw : word ∈ o.2.rest s) : o.1.toUInt8 :: word ∈ wordsOf s := by
  simp only [openers, List.mem_cons, List.not_mem_nil, or_false] at ho
  rcases ho with rfl | rfl | rfl | rfl | rfl | rfl | rfl | rfl | rfl | rfl | rfl | rfl | rfl
  · rcases hw with ⟨rfl, hw⟩ | ⟨rfl, hw⟩
    · exact cons_mem_byteOf.mpr ⟨rfl, hw⟩
    · exact cons_mem_sign_mul.mpr (.inr ⟨.inl rfl, hw⟩)
  · rcases hw with ⟨rfl, hw⟩ | ⟨rfl, hw⟩
    · exact cons_mem_byteOf.mpr ⟨rfl, hw⟩
    · exact cons_mem_sign_mul.mpr (.inr ⟨.inr rfl, hw⟩)
  · exact hw.1 ▸ cons_mem_byteOf.mpr ⟨rfl, hw.2⟩
  · exact hw.1 ▸ cons_mem_byteOf.mpr ⟨rfl, hw.2⟩
  · exact hw.1 ▸ cons_mem_byteOf.mpr ⟨rfl, hw.2⟩
  · exact hw.1 ▸ cons_mem_byteOf.mpr ⟨rfl, hw.2⟩
  · rcases hw with ⟨rfl, hw⟩ | ⟨rfl, hw⟩
    · exact cons_mem_byteOf.mpr ⟨rfl, hw⟩
    · exact cons_mem_byteOf_mul.mpr ⟨rfl, hw⟩
  · exact hw.1 ▸ cons_mem_byteOf.mpr ⟨rfl, hw.2⟩
  · exact hw.1 ▸ cons_mem_byteOf.mpr ⟨rfl, hw.2⟩
  · exact hw.1 ▸ cons_mem_byteOf.mpr ⟨rfl, hw.2⟩
  · exact hw.1 ▸ .inl (cons_mem_byteOf_mul.mpr ⟨rfl, hw.2⟩)
  · exact hw.1 ▸ .inr (cons_mem_byteOf_mul.mpr ⟨rfl, hw.2⟩)
  · rcases hw with ⟨rfl, hw⟩ | ⟨rfl, hw⟩
    · exact cons_mem_byteOf_mul.mpr ⟨rfl, hw⟩
    · exact hash_mem_lineComment.mpr hw

theorem solved_start : LexMode.start.Solved := by
  intro b word s
  rw [leads_start]
  constructor
  · rintro (⟨hb, rfl, hw⟩ | ⟨hb, rfl, hw⟩ | ⟨o, ho, rfl, hw⟩)
    · exact cons_mem_oneOf_mul.mpr ⟨hb, hw⟩
    · exact cons_mem_sign_mul.mpr (.inl (cons_mem_unsigned.mpr ⟨hb, hw⟩))
    · exact cons_mem_wordsOf_of_opener ho hw
  · intro h
    have hopener {c : Char} {m : LexMode} (hm : (c, m) ∈ openers) (hb : b = c.toUInt8)
        (hw : word ∈ m.rest s) : ∃ o ∈ openers, b = o.1.toUInt8 ∧ word ∈ o.2.rest s :=
      ⟨(c, m), hm, hb, hw⟩
    have hsingle {c : Char} {m : LexMode} (hm : (c, m) ∈ openers) (hb : b :: word ∈ byteOf c)
        (hrest : [] ∈ m.rest s) : ∃ o ∈ openers, b = o.1.toUInt8 ∧ word ∈ o.2.rest s := by
      obtain ⟨heq, rfl⟩ := cons_mem_byteOf.mp hb
      exact hopener hm heq hrest
    change b :: word ∈ wordsOf s at h
    unfold wordsOf at h
    split at h
    · exact .inl ⟨(cons_mem_oneOf_mul.mp h).1, rfl, (cons_mem_oneOf_mul.mp h).2⟩
    · rcases cons_mem_sign_mul.mp h with h | ⟨hb | hb, hw⟩
      · obtain ⟨hb, hw⟩ := cons_mem_unsigned.mp h
        exact .inr (.inl ⟨hb, rfl, hw⟩)
      · exact .inr (.inr (hopener (m := .plus) (by simp [openers]) hb (.inr ⟨rfl, hw⟩)))
      · exact .inr (.inr (hopener (m := .minus) (by simp [openers]) hb (.inr ⟨rfl, hw⟩)))
    · rcases h with h | h
      · obtain ⟨hb, hw⟩ := cons_mem_byteOf_mul.mp h
        exact .inr (.inr (hopener (m := .doubleQuoted) (by simp [openers]) hb ⟨rfl, hw⟩))
      · obtain ⟨hb, hw⟩ := cons_mem_byteOf_mul.mp h
        exact .inr (.inr (hopener (m := .singleQuoted) (by simp [openers]) hb ⟨rfl, hw⟩))
    · obtain ⟨hb, hw⟩ := cons_mem_byteOf_mul.mp h
      exact .inr (.inr (hopener (m := .hash) (by simp [openers]) hb (.inl ⟨rfl, hw⟩)))
    · obtain ⟨rfl, _⟩ := cons_mem_byteOf_mul.mp h.1
      exact .inr (.inr (hopener (m := .hash) (by simp [openers]) rfl
        (.inr ⟨rfl, hash_mem_lineComment.mp h⟩)))
    · exact .inr (.inr (hsingle (m := .plus) (by simp [openers]) h (.inl ⟨rfl, rfl⟩)))
    · exact .inr (.inr (hsingle (m := .minus) (by simp [openers]) h (.inl ⟨rfl, rfl⟩)))
    · exact .inr (.inr (hsingle (m := .star) (by simp [openers]) h ⟨rfl, rfl⟩))
    · exact .inr (.inr (hsingle (m := .slash) (by simp [openers]) h ⟨rfl, rfl⟩))
    · exact .inr (.inr (hsingle (m := .less) (by simp [openers]) h ⟨rfl, rfl⟩))
    · exact .inr (.inr (hsingle (m := .greater) (by simp [openers]) h ⟨rfl, rfl⟩))
    · exact .inr (.inr (hsingle (m := .equals) (by simp [openers]) h (.inl ⟨rfl, rfl⟩)))
    · obtain ⟨hb, hw⟩ := cons_mem_byteOf_mul.mp h
      exact .inr (.inr (hopener (m := .equals) (by simp [openers]) hb (.inr ⟨rfl, hw⟩)))
    · exact .inr (.inr (hsingle (m := .colon) (by simp [openers]) h ⟨rfl, rfl⟩))
    · exact .inr (.inr (hsingle (m := .comma) (by simp [openers]) h ⟨rfl, rfl⟩))
    · exact .inr (.inr (hsingle (m := .rightParen) (by simp [openers]) h ⟨rfl, rfl⟩))
    · exact absurd h (Language.notMem_zero _)

theorem solved (m : LexMode) : m.Solved := by
  cases m with
  | start => exact solved_start
  | name => exact solved_name
  | integer => exact solved_integer
  | plus => exact solved_sign rfl rfl
  | minus => exact solved_sign rfl rfl
  | equals => exact solved_equals
  | doubleQuoted => exact solved_quoted (by decide) rfl rfl rfl
  | doubleQuotedEscape => exact solved_escape rfl rfl rfl
  | singleQuoted => exact solved_quoted (by decide) rfl rfl rfl
  | singleQuotedEscape => exact solved_escape rfl rfl rfl
  | hash => exact solved_hash
  | lineComment => exact solved_lineComment
  | blockFirstLine => exact solved_blockFirstLine
  | blockFirstLineBar => exact solved_blockFirstLineBar
  | block => exact solved_block
  | blockBar => exact solved_blockBar
  | point => exact solved_digits rfl (fun _ => rfl) rfl rfl
  | fraction => exact solved_fraction
  | exponent => exact solved_exponent
  | exponentSign =>
    refine solved_digits (L := 1) rfl (fun _ => rfl) ?_ ?_ <;> rw [mul_one] <;> rfl
  | exponentDigits => exact solved_exponentDigits
  | star | slash | less | greater | doubleEquals | colon | comma | rightParen | stringDone
  | blockDone => exact solved_of_final rfl rfl

/-! ## The words that are accepted -/

theorem symbol_inj {s s' : PyretSymbol} : s.symbol = s'.symbol ↔ s = s' := by
  constructor
  · intro h
    have hs := ofSymbol?_symbol s
    rw [h, ofSymbol?_symbol] at hs
    exact (Option.some.inj hs).symm
  · rintro rfl
    rfl

theorem nil_mem_only_add {x y : PyretSymbol} {K L : ByteLanguage} (hK : [] ∈ K) (hL : [] ∉ L) :
    [] ∈ (only x K + only y L) s ↔ s = x := by
  constructor
  · rintro (⟨hs, _⟩ | ⟨_, h⟩)
    · exact hs
    · exact absurd h hL
  · exact fun hs => .inl ⟨hs, hK⟩

/-- A state accepts exactly the token to which nothing need be added. -/
theorem accept_iff (m : LexMode) (s : PyretSymbol) :
    m.state.accept = some s.symbol ↔ [] ∈ m.rest s := by
  have haccept {x : PyretSymbol} {P : Prop} (hx : m.state.accept = some x.symbol)
      (hP : P ↔ s = x) : m.state.accept = some s.symbol ↔ P := by
    rw [hx, Option.some.injEq, symbol_inj, hP, eq_comm]
  have hnone {P : Prop} (hm : m.state.accept = none) (hP : ¬ P) :
      m.state.accept = some s.symbol ↔ P := by
    rw [hm]
    exact iff_of_false (Option.some_ne_none _).symm hP
  have hstar (K : ByteLanguage) : [] ∈ K∗ := Language.nil_mem_kstar K
  have hexponent : [] ∈ exponentPart := .inl rfl
  have hfraction : [] ∈ fractionPart * exponentPart := nil_mem_mul.mpr ⟨.inl rfl, hexponent⟩
  have hline {K : ByteLanguage} (hK : [] ∉ K) :
      [] ∈ (only .blockComment K + only .lineComment (withoutStart K restOfLine)) s ↔
        s = .lineComment := by
    rw [add_comm]
    exact nil_mem_only_add (nil_mem_withoutStart.mpr ⟨hstar _, hK⟩) hK
  cases m with
  | start => exact hnone rfl nil_notMem_wordsOf
  | name | lineComment | exponentDigits => exact haccept rfl (and_iff_left (hstar _))
  | integer => exact haccept rfl (and_iff_left (nil_mem_mul.mpr ⟨hstar _, hfraction⟩))
  | fraction => exact haccept rfl (and_iff_left (nil_mem_mul.mpr ⟨hstar _, hexponent⟩))
  | plus | minus => exact haccept rfl (nil_mem_only_add rfl nil_notMem_unsigned)
  | equals => exact haccept rfl (nil_mem_only_add rfl nil_notMem_byteOf)
  | doubleQuoted | singleQuoted =>
    exact hnone rfl fun h => nil_notMem_byteOf (nil_mem_mul.mp h.2).2
  | doubleQuotedEscape | singleQuotedEscape =>
    exact hnone rfl fun h => nil_notMem_noneOf (nil_mem_mul.mp h.2).1
  | hash => exact haccept rfl (hline fun h => nil_notMem_byteOf (nil_mem_mul.mp h).1)
  | blockFirstLine => exact haccept rfl (hline nil_notMem_toCommentEnd)
  | blockFirstLineBar => exact haccept rfl (hline nil_notMem_toCommentEndBar)
  | block => exact hnone rfl fun h => nil_notMem_toCommentEnd h.2
  | blockBar => exact hnone rfl fun h => nil_notMem_toCommentEndBar h.2
  | point => exact hnone rfl fun h => nil_notMem_digitRun (nil_mem_mul.mp h.2).1
  | exponent => exact hnone rfl fun h => nil_notMem_digitRun (nil_mem_mul.mp h.2).2
  | exponentSign => exact hnone rfl fun h => nil_notMem_digitRun h.2
  | star | slash | less | greater | doubleEquals | colon | comma | rightParen | stringDone
  | blockDone => exact haccept rfl (and_iff_left Language.nil_mem_one)

theorem accept_cases (m : LexMode) {x : Symbol} (h : m.state.accept = some x) :
    ∃ s : PyretSymbol, x = s.symbol := by
  cases m <;> cases h <;> exact ⟨_, rfl⟩

theorem lexState?_id (m : LexMode) : table.lexState? m.id = some m.state := by
  have hid := LexMode.all_id m
  simp only [GrammarTable.lexState?, table, lexStates, List.getElem?_toArray, List.getElem?_map,
    hid, Option.map_some]

theorem LexMode.mem_all (m : LexMode) : m ∈ LexMode.all :=
  List.mem_of_getElem? (LexMode.all_id m)

/-- Every transition leads to a mode. -/
theorem next?_mode (m : LexMode) {id : LexStateId} (h : m.state.next? b = some id) :
    ∃ m' : LexMode, id = m'.id := by
  have hall : ∀ m ∈ LexMode.all, ∀ t ∈ m.state.transitions, ∃ m' ∈ LexMode.all, t.2 = m'.id := by
    decide
  obtain ⟨t, ht, rfl⟩ := Option.map_eq_some_iff.mp h
  obtain ⟨m', _, hm'⟩ := hall m m.mem_all t (List.mem_of_find?_eq_some ht)
  exact ⟨m', hm'⟩

/-- The automaton accepts from a mode on what completes a token there. -/
theorem accepts?_mode (m : LexMode) (word : Bytes) (s : PyretSymbol) :
    table.accepts? m.id word = some s.symbol ↔ word ∈ m.rest s := by
  induction word generalizing m with
  | nil =>
    rw [GrammarTable.accepts?_nil, lexState?_id]
    exact accept_iff m s
  | cons b word ih =>
    rw [GrammarTable.accepts?_cons, lexState?_id, ← solved m b word s, Option.bind_some,
      Option.bind_eq_some_iff]
    constructor
    · rintro ⟨id, hid, h⟩
      obtain ⟨m', rfl⟩ := next?_mode m hid
      exact ⟨m', hid, (ih m').mp h⟩
    · rintro ⟨m', hid, h⟩
      exact ⟨m'.id, hid, (ih m').mpr h⟩

theorem accepts?_symbol (m : LexMode) {word : Bytes} {x : Symbol}
    (h : table.accepts? m.id word = some x) : ∃ s : PyretSymbol, x = s.symbol := by
  induction word generalizing m with
  | nil =>
    rw [GrammarTable.accepts?_nil, lexState?_id] at h
    exact accept_cases m h
  | cons b word ih =>
    rw [GrammarTable.accepts?_cons, lexState?_id, Option.bind_some, Option.bind_eq_some_iff] at h
    obtain ⟨id, hid, h⟩ := h
    obtain ⟨m', rfl⟩ := next?_mode m hid
    exact ih m' h

/-- A word is accepted from the start exactly for the token that it spells, and no word spells two
tokens. -/
theorem accepts_iff_mem_wordsOf :
    (∀ word x, table.accepts? 0 word = some x ↔
      ∃ s : PyretSymbol, x = s.symbol ∧ word ∈ wordsOf s) ∧
      ∀ word s s', word ∈ wordsOf s → word ∈ wordsOf s' → s = s' := by
  have hstart (word : Bytes) (s : PyretSymbol) :
      table.accepts? 0 word = some s.symbol ↔ word ∈ wordsOf s := accepts?_mode .start word s
  constructor
  · intro word x
    constructor
    · intro h
      obtain ⟨s, rfl⟩ := accepts?_symbol .start h
      exact ⟨s, rfl, (hstart word s).mp h⟩
    · rintro ⟨s, rfl, h⟩
      exact (hstart word s).mpr h
  · intro word s s' h h'
    have heq := (hstart word s).mpr h
    rw [(hstart word s').mpr h'] at heq
    exact (symbol_inj.mp (Option.some.inj heq)).symm

/-- The bytes of `#|||#`. -/
def barComment : Bytes := [0x23, 0x7C, 0x7C, 0x7C, 0x23]

theorem barComment_mem_wordsOf : barComment ∈ wordsOf .blockComment ∧
    ∀ s, barComment ∈ wordsOf s → s = .blockComment := by
  have haccept : table.accepts? 0 barComment = some PyretSymbol.blockComment.symbol := by
    decide +kernel
  obtain ⟨s, hs, hspells⟩ := (accepts_iff_mem_wordsOf.1 barComment _).mp haccept
  obtain rfl := symbol_inj.mp hs
  exact ⟨hspells, fun s h => accepts_iff_mem_wordsOf.2 barComment s _ h hspells⟩

end TableParsing.Pyret

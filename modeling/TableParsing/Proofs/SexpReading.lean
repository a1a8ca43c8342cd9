import TableParsing.Proofs.VisibleTrees

/-!
# Reading S-expressions

A reader that goes through an S-expression character by character, with the list of the nodes that
are open. If kinds and fields are words and what is quoted needs no escapes, the parentheses of the
text of a tree are balanced and the reader returns the tree.
-/
namespace TableParsing

/-- The characters at which a word ends. -/
def isDelimiter (c : Char) : Bool := c == ' ' || c == '(' || c == ')' || c == '"' || c == ':'

def isWord (s : String) : Bool := s.toList.all (!isDelimiter ·)

/-- Between double quotes the name is spelled as it is. -/
def IsQuotable (s : String) : Prop := Escape.ascii s = s ∧ '"' ∉ s.toList

instance (s : String) : Decidable (IsQuotable s) := inferInstanceAs (Decidable (_ ∧ _))

/-- Parentheses pair off; between double quotes they do not count. -/
inductive Balanced : List Char → Prop
  | nil : Balanced []
  | plain {c : Char} {rest : List Char} : c ≠ '(' → c ≠ ')' → c ≠ '"' → Balanced rest →
      Balanced (c :: rest)
  | quoted {text rest : List Char} : '"' ∉ text → Balanced rest →
      Balanced ('"' :: (text ++ '"' :: rest))
  | nested {inner rest : List Char} : Balanced inner → Balanced rest →
      Balanced ('(' :: (inner ++ ')' :: rest))

/-- One pair of parentheses around balanced text. -/
def IsSexp (s : String) : Prop := ∃ inner, Balanced inner ∧ s.toList = '(' :: (inner ++ [')'])

namespace VisibleTree

/-- The heading tells kind and flags. -/
structure Legible (t : VisibleTree) : Prop where
  field : ∀ f, t.field = some f → isWord f = true
  written : t.missing = false → t.named = true ∧ isWord t.kind = true ∧ t.kind ≠ "MISSING"
  word : t.missing = true → t.named = true → isWord t.kind = true
  quoted : t.missing = true → t.named = false → IsQuotable t.kind

inductive Plain : VisibleTree → Prop
  | intro {t : VisibleTree} : t.Legible → (∀ c ∈ t.children, Plain c) → Plain t

/-- The three forms of a heading. -/
theorem Legible.heading_cases {t : VisibleTree} (h : t.Legible) :
    (t.missing = false ∧ t.named = true ∧ t.heading = t.kind ∧ isWord t.kind = true ∧
        t.kind ≠ "MISSING") ∨
      (t.missing = true ∧ t.named = true ∧ t.heading = "MISSING " ++ t.kind ∧
        isWord t.kind = true) ∨
      t.missing = true ∧ t.named = false ∧ t.heading = "MISSING \"" ++ t.kind ++ "\"" ∧
        '"' ∉ t.kind.toList := by
  cases hm : t.missing with
  | false =>
    obtain ⟨hn, hw, hk⟩ := h.written hm
    exact .inl ⟨rfl, hn, by simp [heading, hm], hw, hk⟩
  | true =>
    cases hn : t.named with
    | true => exact .inr (.inl ⟨rfl, rfl, by simp [heading, hm, hn], h.word hm hn⟩)
    | false =>
      obtain ⟨hspelled, hq⟩ := h.quoted hm hn
      exact .inr (.inr ⟨rfl, rfl, by simp [heading, hm, hn, hspelled], hq⟩)

end VisibleTree

/-! ## Balance -/

theorem Balanced.append {as bs : List Char} (ha : Balanced as) (hb : Balanced bs) :
    Balanced (as ++ bs) := by
  induction ha with
  | nil => exact hb
  | plain h1 h2 h3 _ ih => exact .plain h1 h2 h3 ih
  | quoted ht _ ih =>
    rw [List.cons_append, List.append_assoc, List.cons_append]
    exact .quoted ht ih
  | nested hi _ _ ih =>
    rw [List.cons_append, List.append_assoc, List.cons_append]
    exact .nested hi ih

theorem balanced_of_forall {cs : List Char} (h : ∀ c ∈ cs, c ≠ '(' ∧ c ≠ ')' ∧ c ≠ '"') :
    Balanced cs := by
  induction cs with
  | nil => exact .nil
  | cons c rest ih =>
    obtain ⟨⟨h1, h2, h3⟩, hrest⟩ := List.forall_mem_cons.mp h
    exact .plain h1 h2 h3 (ih hrest)

theorem not_isDelimiter_of_isWord {s : String} (h : isWord s = true) :
    ∀ c ∈ s.toList, isDelimiter c = false := by
  simpa [isWord] using h

theorem balanced_of_isWord {s : String} (h : isWord s = true) : Balanced s.toList := by
  refine balanced_of_forall fun c hc => ?_
  have hd := not_isDelimiter_of_isWord h c hc
  simp only [isDelimiter, Bool.or_eq_false_iff, beq_eq_false_iff_ne] at hd
  exact ⟨hd.1.1.1.2, hd.1.1.2, hd.1.2⟩

namespace VisibleTree

variable {t : VisibleTree} {ts : List VisibleTree}

theorem Legible.balanced_label (h : t.Legible) :
    Balanced (Language.sexpLabel t.field).toList := by
  cases hf : t.field with
  | none => exact .nil
  | some f =>
    rw [Language.sexpLabel, String.toList_append]
    exact (balanced_of_isWord (h.field f hf)).append (balanced_of_forall (by simp))

theorem Legible.balanced_heading (h : t.Legible) : Balanced t.heading.toList := by
  have hmissing : Balanced "MISSING ".toList := balanced_of_forall (by simp)
  rcases h.heading_cases with ⟨_, _, ht, hw, _⟩ | ⟨_, _, ht, hw⟩ | ⟨_, _, ht, hq⟩
  · rw [ht]
    exact balanced_of_isWord hw
  · rw [ht, String.toList_append]
    exact hmissing.append (balanced_of_isWord hw)
  · rw [ht, String.toList_append, String.toList_append, List.append_assoc]
    exact hmissing.append (.quoted hq .nil)

theorem toList_sexp (t : VisibleTree) : t.sexp.toList = (Language.sexpLabel t.field).toList ++
    '(' :: (t.heading.toList ++ (sexps t.children).toList ++ [')']) := by
  simp [sexp_eq]

theorem toList_sexps_cons (t : VisibleTree) (ts : List VisibleTree) :
    (sexps (t :: ts)).toList = ' ' :: (t.sexp.toList ++ (sexps ts).toList) := by
  simp [sexps]

theorem balanced_sexps (h : ∀ t ∈ ts, Balanced t.sexp.toList) : Balanced (sexps ts).toList := by
  induction ts with
  | nil => exact .nil
  | cons t ts ih =>
    obtain ⟨ht, hts⟩ := List.forall_mem_cons.mp h
    rw [toList_sexps_cons]
    exact .plain (by decide) (by decide) (by decide) (ht.append (ih hts))

theorem Plain.balanced (h : t.Plain) : Balanced t.sexp.toList := by
  induction h with
  | intro ht _ ih =>
    rw [toList_sexp]
    exact ht.balanced_label.append (.nested (ht.balanced_heading.append (balanced_sexps ih)) .nil)

theorem Plain.isSexp (h : t.Plain) (hf : t.field = none) : IsSexp t.sexp := by
  cases h with
  | intro ht hc =>
    refine ⟨_, ht.balanced_heading.append (balanced_sexps fun c hm => (hc c hm).balanced), ?_⟩
    rw [toList_sexp, hf]
    rfl

end VisibleTree

/-! ## The reader -/

namespace SexpReader

/-- What the word that is being read is. -/
inductive Place where
  /-- The label of a child, if it is not a blank between children. -/
  | label
  | kind
  | absent
  | quoted

/-- A node whose children are being read, with its siblings before it. -/
structure Frame where
  node : VisibleTree
  before : List VisibleTree

structure State where
  /-- Innermost first. -/
  opened : List Frame
  /-- The finished trees below the innermost open node. -/
  done : List VisibleTree
  field : Option String
  place : Place
  word : List Char

/-- Between two children of the innermost open node. -/
def between (opened : List Frame) (done : List VisibleTree) : State := ⟨opened, done, none, .label, []⟩

namespace State

variable (st : State)

def start (place : Place) : State := { st with place := place, word := [] }

/-- The word read was the last one of a heading. -/
def enter (missing named : Bool) : State :=
  between (⟨⟨String.ofList st.word, missing, named, st.field, []⟩, st.done⟩ :: st.opened) []

def leave? : Option State :=
  match st.opened with
  | [] => none
  | frame :: opened =>
    some (between opened (frame.before ++ [{ frame.node with children := st.done }]))

/-- A blank or a parenthesis where a child may begin. -/
def delimit? (c : Char) : Option State :=
  if c = ' ' then some st
  else if c = '(' then some (st.start .kind)
  else if c = ')' then st.leave?
  else none

/-- The word ends at `c`. -/
def finish? (c : Char) : Option State :=
  match st.place with
  | .label =>
    if c = ':' then some { st with field := some (String.ofList st.word), word := [] }
    else if st.word.isEmpty then st.delimit? c
    else none
  | .kind =>
    if c = ' ' ∧ String.ofList st.word = "MISSING" then some (st.start .absent)
    else (st.enter false true).delimit? c
  | .absent => if c = '"' then some (st.start .quoted) else (st.enter true true).delimit? c
  | .quoted => some (st.enter true false)

def ends (place : Place) (c : Char) : Bool :=
  match place with
  | .quoted => c == '"'
  | _ => isDelimiter c

def step? (c : Char) : Option State :=
  if ends st.place c then st.finish? c else some { st with word := st.word ++ [c] }

def run? (cs : List Char) : Option State := cs.foldlM step? st

end State

/-- The forest whose text this is. -/
def read? (s : String) : Option (List VisibleTree) :=
  match (between [] []).run? s.toList with
  | some ⟨[], done, none, .label, []⟩ => some done
  | _ => none

variable {st st' : State} {as cs : List Char} {c : Char} {opened : List Frame}
  {t : VisibleTree} {done ts : List VisibleTree}

theorem run?_append (h : st.run? as = some st') (cs : List Char) :
    st.run? (as ++ cs) = st'.run? cs := by
  rw [State.run?, List.foldlM_append]
  exact congrArg (· >>= _) h

theorem run?_cons (h : st.step? c = some st') (cs : List Char) : st.run? (c :: cs) = st'.run? cs := by
  have hone : st.run? [c] = some st' := by simp [State.run?, h]
  exact run?_append hone cs

/-- Up to its end a word is collected. -/
theorem run?_word (st : State) (h : ∀ c ∈ cs, State.ends st.place c = false) :
    st.run? cs = some { st with word := st.word ++ cs } := by
  induction cs generalizing st with
  | nil => simp [State.run?]
  | cons c cs ih =>
    obtain ⟨hc, hcs⟩ := List.forall_mem_cons.mp h
    have hstep : st.step? c = some { st with word := st.word ++ [c] } := by
      rw [State.step?, hc]
      rfl
    rw [run?_cons hstep, ih { st with word := st.word ++ [c] } hcs]
    simp

theorem run?_congr (h : st.step? c = st'.step? c) (cs : List Char) :
    st.run? (c :: cs) = st'.run? (c :: cs) := by
  rw [State.run?, List.foldlM_cons, h]
  rfl

theorem step?_between (opened : List Frame) (done : List VisibleTree) (hc : isDelimiter c = true)
    (hne : c ≠ ':') : (between opened done).step? c = (between opened done).delimit? c := by
  simp [State.step?, State.ends, State.finish?, between, hc, hne]

theorem run?_label (h : t.Legible) :
    (between opened done).run? (Language.sexpLabel t.field).toList =
      some { between opened done with field := t.field } := by
  cases hf : t.field with
  | none => rfl
  | some f =>
    have hw : (between opened done).run? f.toList =
        some { between opened done with word := f.toList } :=
      run?_word (between opened done) (not_isDelimiter_of_isWord (h.field f hf))
    rw [Language.sexpLabel, String.toList_append, run?_append hw]
    simp [State.run?, State.step?, State.ends, State.finish?, State.delimit?, between, isDelimiter]

theorem run?_missing (opened : List Frame) (done : List VisibleTree) (field : Option String) :
    State.run? ⟨opened, done, field, .kind, []⟩ "MISSING ".toList =
      some ⟨opened, done, field, .absent, []⟩ := by
  rfl

/-- A heading ends at the blank before the first child or at the parenthesis that closes the node. -/
theorem run?_heading (h : t.Legible) (hc : c = ' ' ∨ c = ')') (cs : List Char) :
    State.run? ⟨opened, done, t.field, .kind, []⟩ (t.heading.toList ++ c :: cs) =
      (between (⟨{ t with children := [] }, done⟩ :: opened) []).run? (c :: cs) := by
  have hd : isDelimiter c = true := by rcases hc with rfl | rfl <;> rfl
  have hcolon : c ≠ ':' := by rcases hc with rfl | rfl <;> decide
  have hquote : c ≠ '"' := by rcases hc with rfl | rfl <;> decide
  have hnext := step?_between (⟨{ t with children := [] }, done⟩ :: opened) [] hd hcolon
  rcases h.heading_cases with ⟨hm, hn, ht, hw, hk⟩ | ⟨hm, hn, ht, hw⟩ | ⟨hm, hn, ht, hq⟩
  · have hword := run?_word ⟨opened, done, t.field, .kind, []⟩ (not_isDelimiter_of_isWord hw)
    rw [ht, run?_append hword]
    refine run?_congr ?_ cs
    rw [hnext]
    simp [State.step?, State.ends, State.finish?, State.enter, hd, hk, hm, hn]
  · have hword := run?_word ⟨opened, done, t.field, .absent, []⟩ (not_isDelimiter_of_isWord hw)
    rw [ht, String.toList_append, List.append_assoc, run?_append (run?_missing opened done t.field),
      run?_append hword]
    refine run?_congr ?_ cs
    rw [hnext]
    simp [State.step?, State.ends, State.finish?, State.enter, hd, hquote, hm, hn]
  · have hopen : State.step? ⟨opened, done, t.field, .absent, []⟩ '"' =
        some ⟨opened, done, t.field, .quoted, []⟩ := rfl
    have hword := run?_word ⟨opened, done, t.field, .quoted, []⟩
      fun c hc => beq_eq_false_iff_ne.mpr fun he => hq (he ▸ hc)
    have hclose : State.step? ⟨opened, done, t.field, .quoted, t.kind.toList⟩ '"' =
        some (between (⟨{ t with children := [] }, done⟩ :: opened) []) := by
      simp [State.step?, State.ends, State.finish?, State.enter, hm, hn]
    have hmissing := run?_missing opened done t.field
    have hquoted : t.heading.toList ++ c :: cs =
        "MISSING ".toList ++ '"' :: (t.kind.toList ++ '"' :: c :: cs) := by
      simp [ht]
    rw [hquoted, run?_append hmissing, run?_cons hopen, run?_append hword]
    exact run?_cons hclose _

/-- What follows a heading. -/
theorem exists_behind_heading (ts : List VisibleTree) : ∃ c cs,
    (VisibleTree.sexps ts).toList ++ [')'] = c :: cs ∧ (c = ' ' ∨ c = ')') := by
  cases ts with
  | nil => exact ⟨')', [], rfl, .inr rfl⟩
  | cons t ts =>
    rw [VisibleTree.toList_sexps_cons]
    exact ⟨' ', _, rfl, .inl rfl⟩

theorem run?_sexps (h : ∀ t ∈ ts, ∀ opened done,
    (between opened done).run? t.sexp.toList = some (between opened (done ++ [t])))
    (opened : List Frame) (done : List VisibleTree) :
    (between opened done).run? (VisibleTree.sexps ts).toList = some (between opened (done ++ ts)) := by
  induction ts generalizing done with
  | nil => simp [State.run?, VisibleTree.sexps]
  | cons t ts ih =>
    obtain ⟨ht, hts⟩ := List.forall_mem_cons.mp h
    have hblank : (between opened done).step? ' ' = some (between opened done) := rfl
    rw [VisibleTree.toList_sexps_cons, run?_cons hblank, run?_append (ht opened done), ih hts]
    simp

/-- From its text a plain tree is read back behind its siblings. -/
theorem run?_sexp (h : t.Plain) : ∀ opened done,
    (between opened done).run? t.sexp.toList = some (between opened (done ++ [t])) := by
  induction h with
  | @intro t ht _ ih =>
    intro opened done
    obtain ⟨c, cs, hrest, hc⟩ := exists_behind_heading t.children
    have hopen : State.step? { between opened done with field := t.field } '(' =
        some ⟨opened, done, t.field, .kind, []⟩ := rfl
    have hchildren := run?_sexps ih (⟨{ t with children := [] }, done⟩ :: opened) []
    have hclose : State.step? (between (⟨{ t with children := [] }, done⟩ :: opened) t.children) ')' =
        some (between opened (done ++ [t])) := by
      cases t
      rfl
    rw [VisibleTree.toList_sexp, run?_append (run?_label ht), run?_cons hopen, List.append_assoc,
      hrest, run?_heading ht hc cs, ← hrest, run?_append hchildren]
    exact run?_cons hclose []

theorem read?_sexp (h : t.Plain) : read? t.sexp = some [t] := by
  rw [read?, run?_sexp h [] []]
  rfl

/-- A supplied parenthesis in a field. -/
example : read? "(a b: (MISSING \")\"))" =
    some [⟨"a", false, true, none, [⟨")", true, false, some "b", []⟩]⟩] := rfl

end SexpReader

end TableParsing

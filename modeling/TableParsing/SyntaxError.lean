import TableParsing.Span
import TableParsing.Text.Escape
import TableParsing.Text.Lines
import TableParsing.Text.Utf8

/-!
# Syntax errors

What a parse reports: the kind of error, where it is, and its wording.
-/
namespace TableParsing

inductive SyntaxErrorKind where
  | lexical
  | syntactic
  | missing
deriving DecidableEq, Inhabited

namespace SyntaxErrorKind

/-- The kind as a reader is told of it. -/
def label : SyntaxErrorKind → String
  | lexical => "lexical"
  | syntactic => "syntax"
  | missing => "missing token"

/-- The kind as a word of data. -/
def tag : SyntaxErrorKind → String
  | lexical => "lexical"
  | syntactic => "syntactic"
  | missing => "missing"

end SyntaxErrorKind

structure SyntaxError where
  kind : SyntaxErrorKind
  span : Span
  message : String
deriving DecidableEq, Inhabited

namespace SyntaxError

/-- Bytes in which no token begins. -/
def unrecognized (bytes : Bytes) (span : Span) : SyntaxError :=
  ⟨.lexical, span, s!"unrecognized input '{Escape.message (Utf8.lossyChars bytes)}'"⟩

def unexpected (name : String) (span : Span) : SyntaxError :=
  ⟨.syntactic, span, s!"unexpected {name}"⟩

def unexpectedEnd (span : Span) : SyntaxError := ⟨.syntactic, span, "unexpected end of input"⟩

/-- A token that was supplied at this offset. -/
def absent (name : String) (offset : Nat) : SyntaxError :=
  ⟨.missing, Span.empty offset, s!"missing {name}"⟩

def render (e : SyntaxError) : String :=
  s!"{e.kind.label} error at {e.span.start}..{e.span.stop}: {e.message}"

/-- The headline of a report on the error. -/
def headline (e : SyntaxError) : String := s!"Error: {e.kind.label} error"

/-- Where a report on the error points; offsets beyond the text count as its end. -/
def position? (e : SyntaxError) (text : List Char) : Option Lines.Position :=
  Lines.position? text (Utf8.charOffset text e.span.start)

end SyntaxError

end TableParsing

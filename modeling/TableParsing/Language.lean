import TableParsing.Artifact.Container
import TableParsing.Table.Check
import TableParsing.Text.Escape

/-!
# Languages

A language is a grammar that has passed every check, so its table can be followed without further
ones.
-/
namespace TableParsing

structure Language where
  grammar : Grammar
  supported : isSupported grammar.table.version = true
  consistent : grammar.fault? = none

namespace Language

/-- The version is checked first. -/
def load (g : Grammar) : Except LanguageError Language :=
  if hv : isSupported g.table.version = true then
    match hf : g.fault? with
    | none => .ok ⟨g, hv, hf⟩
    | some fault => .error (.inconsistentTable fault)
  else .error (.incompatibleVersion g.table.version)

theorem load_grammar (l : Language) : load l.grammar = .ok l := by
  obtain ⟨g, hv, hf⟩ := l
  simp only [load, hv, dite_true]
  split
  · rfl
  · rename_i fault h; simp [hf] at h

def ofArtifact (bytes : Bytes) : Except LanguageError Language := do
  load (← Grammar.ofArtifact bytes)

def table (l : Language) : GrammarTable := l.grammar.table

def name (l : Language) : String := l.table.name

def version (l : Language) : UInt32 := l.table.version

def symbolCount (l : Language) : Nat := l.table.symbols.size

def stateCount (l : Language) : Nat := l.table.states.size

def fieldCount (l : Language) : Nat := l.table.fields.size

def symbolName? (l : Language) (s : Symbol) : Option String :=
  if s = Symbol.error then some "ERROR" else (l.table.metadata? s).map (·.name)

def symbolNames (l : Language) : List String := l.table.symbols.toList.map (·.name)

/-- The first visible symbol of that name; errors are named. -/
def symbolForName? (l : Language) (name : String) (named : Bool) : Option Symbol :=
  if name = "ERROR" ∧ named then some Symbol.error
  else
    (l.table.symbols.findIdx? fun m => m.visible && m.named == named && m.name == name).map
      fun i => ⟨UInt16.ofNat i⟩

def isNamed (l : Language) (s : Symbol) : Bool := s == Symbol.error || l.table.isNamed s

def isVisible (l : Language) (s : Symbol) : Bool :=
  s == Symbol.error || (l.table.metadata? s).any (·.visible)

def isTerminal (l : Language) (s : Symbol) : Bool := l.table.isTerminal s

def fieldName? (l : Language) (f : FieldId) : Option String := l.table.fields[f.index]?

def fieldForName? (l : Language) (name : String) : Option FieldId :=
  (l.table.fields.findIdx? (· == name)).bind fun i =>
    if i ≤ 0xFFFF then some ⟨UInt16.ofNat i⟩ else none

/-- One line that identifies the language. -/
def summary (l : Language) : String :=
  "Language \x7b name: " ++ Escape.quoted l.name ++ s!", version: {l.version}, symbols: " ++
    s!"{l.symbolCount}, states: {l.stateCount}" ++ " \x7d"

end Language

end TableParsing

import TableParsing.Parser.Children
import TableParsing.Parser.Options
import TableParsing.Parser.Simulation
import TableParsing.Parser.Stack
import TableParsing.Tree.SyntaxTree

/-!
# Runs of the parser

The state of a parse and its steps without recovery: scan a token, shift it, reduce. A reduction is
started only for a token known to be viable, so an error is met at the token that causes it and
nothing has been given up by then.
-/
namespace TableParsing

inductive Phase where
  | scanning
  | shifting
  | reducing
  | recovering
  | accepting
  /-- The end was reached in a state from which nothing can be accepted. -/
  | gaveUp
deriving DecidableEq, Inhabited

def Phase.isFinal : Phase → Bool
  | accepting | gaveUp => true
  | _ => false

/-- What a parse works on. -/
structure Job where
  grammar : Grammar
  options : ParseOptions
  text : Text

structure Run where
  stack : Stack
  phase : Phase
  lookahead : Token
  /-- Where the next scan begins. -/
  position : Nat
  /-- End of the newest token or extra; a supplied token stands here. -/
  lastEnd : Nat
  /-- Set while the newest action skipped a token, so that the next skip extends the same error. -/
  mergeSkips : Bool
  /-- Newest first. -/
  errors : List SyntaxError

namespace Run

def initial : Run :=
  { stack := []
    phase := .scanning
    lookahead := ⟨Symbol.endOfInput, Span.empty 0⟩
    position := 0
    lastEnd := 0
    mergeSkips := false
    errors := [] }

/-- Moves the scan behind a token or extra. -/
def advance (r : Run) (stop : Nat) : Run :=
  { r with position := stop, lastEnd := stop, mergeSkips := false }

def pushExtra (r : Run) (n : Node) : Run :=
  { r.advance n.span.stop with stack := r.stack.pushExtra n }

def report (r : Run) (e : SyntaxError) : Run := { r with errors := e :: r.errors }

end Run

namespace Job

variable (job : Job)

def table : GrammarTable := job.grammar.table

def leaf (token : Token) : Node :=
  Node.leaf token.symbol token.span (job.table.isNamed token.symbol)

def currentAction? (r : Run) : Option Action :=
  job.table.action? r.stack.topState r.lookahead.symbol

/-- The phase for a lookahead that is known to be viable. -/
def phaseForLookahead (r : Run) : Phase :=
  match job.currentAction? r with
  | some (.shift _) => .shifting
  | some (.reduce _) => .reducing
  | some .accept => .accepting
  | none => .recovering

def isViable (path : List StateId) (s : Symbol) : Bool :=
  job.table.isViable s job.options.reductionLimit path

/-- The phase for a lookahead just scanned. -/
def dispatch (r : Run) : Phase :=
  match job.currentAction? r with
  | some (.reduce _) =>
    if job.isViable r.stack.path r.lookahead.symbol then .reducing else .recovering
  | _ => job.phaseForLookahead r

/-- Which external tokens have an action in the current state. -/
def validExternals (r : Run) : List Bool :=
  job.table.externalTokens.map fun s => (job.table.action? r.stack.topState s).isSome

def nextLexeme (r : Run) : Lexeme :=
  job.grammar.lexemeAt job.text (job.validExternals r) r.position

/-- Reads the next token that is not an extra, pushing extras and unlexable bytes on the way. -/
def scan (r : Run) : Run :=
  match _h : job.nextLexeme r with
  | .endOfText =>
    { r with lookahead := ⟨Symbol.endOfInput, Span.empty job.text.size⟩ }
  | .token token =>
    if job.table.isExtra token.symbol then scan (r.pushExtra (job.leaf token))
    else { r with lookahead := token }
  | .unlexable span =>
    scan ((r.report (.unrecognized (job.text.slice span) span)).pushExtra (Node.error span []))
termination_by job.text.size - r.position
decreasing_by
  · have := Grammar.token_bounds _h
    simp only [Run.pushExtra, Run.advance, leaf, Node.leaf, Node.branch]; omega
  · have := Grammar.unlexable_bounds _h
    simp only [Run.pushExtra, Run.advance, Node.error, Run.report]; omega

/-- Shifting the end would consume nothing, so it ends the parse. -/
def shift (r : Run) : Run :=
  match job.currentAction? r with
  | some (.shift next) =>
    if r.lookahead.symbol = Symbol.endOfInput then
      { r.report (.unexpectedEnd r.lookahead.span) with phase := .gaveUp }
    else
      { r.advance r.lookahead.span.stop with
        stack := r.stack.shift next (job.leaf r.lookahead)
        phase := .scanning }
  | _ => { r with phase := .recovering }

/-- Replaces the newest children by their parent, the extras above them staying on top. Without a
state to go to, the parent is kept as an error and the first result is false. -/
def reduce (r : Run) (p : Production) : Bool × Run :=
  let (trailing, s) := r.stack.popExtras
  let (popped, s) := Stack.popChildren p.childCount.toNat s []
  let children := job.table.collectChildren p 0 popped
  let span := coveringSpan (Stack.endOffset s) children
  let node := Node.branch p.lhs span (job.table.isNamed p.lhs) children
  match job.table.goto? (Stack.topState s) p.lhs with
  | some next =>
    (true, { r with
      stack := Stack.pushExtras (Stack.shift s next node) trailing
      mergeSkips := false })
  | none =>
    (false, { r with
      stack := Stack.pushExtras (Stack.pushExtra s (Node.error span [node])) trailing
      mergeSkips := false })

def reduceStep (r : Run) : Run :=
  match job.currentAction? r with
  | some (.reduce id) =>
    let (done, r) := job.reduce r ((job.table.production? id).getD default)
    { r with phase := if done then job.phaseForLookahead r else .recovering }
  | _ => { r with phase := job.dispatch r }

end Job

end TableParsing

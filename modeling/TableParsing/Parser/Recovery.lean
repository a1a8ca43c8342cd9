import TableParsing.Parser.Run

/-!
# Error recovery

For a lookahead that is not viable: supply a missing token, else skip the lookahead, else, at the
end, wrap the newest entries in an error so that the rest can be accepted.
-/
namespace TableParsing

/-- A symbol as messages name it; anonymous ones are quoted. -/
def GrammarTable.displayName (t : GrammarTable) (s : Symbol) : String :=
  match t.metadata? s with
  | none => s!"symbol {s.id}"
  | some m =>
    if s = Symbol.endOfInput then s!"end of input ({m.name})"
    else if m.named then m.name
    else "\"" ++ m.name ++ "\""

namespace Job

variable (job : Job)

def isAdmissible (path : List StateId) (lookahead s : Symbol) : Bool :=
  if s = Symbol.endOfInput || job.table.isExtra s || job.table.isExternal s then false
  else
    match job.table.simulate s job.options.reductionLimit path with
    | some (.shift next, path) => job.isViable (next :: path) lookahead
    | _ => false

def missingCandidate? (r : Run) : Option Symbol :=
  (job.table.state? r.stack.topState).bind fun st =>
    st.validTerminals.find? (job.isAdmissible r.stack.path r.lookahead.symbol)

/-- Performs the reductions that `s` triggers, at most `limit`, and pushes `s` as supplied. -/
def supply (s : Symbol) : (limit : Nat) → Run → Run
  | limit, r =>
    match job.table.action? r.stack.topState s with
    | some (.reduce id) =>
      match limit with
      | 0 => r
      | limit + 1 =>
        let (done, r) := job.reduce r ((job.table.production? id).getD default)
        if done then supply s limit r else r
    | some (.shift next) =>
      { r with stack := r.stack.shift next (Node.supplied s r.lastEnd (job.table.isNamed s)) }
    | _ => r

def insertMissing (s : Symbol) (r : Run) : Run :=
  let r := job.supply s job.options.reductionLimit r
  { r.report (.absent (job.table.displayName s) r.lastEnd) with mergeSkips := false }

def recoverAtEnd (r : Run) : Run :=
  match Stack.splitWhere (job.isViable · Symbol.endOfInput) [] r.stack with
  | some (removed, s) =>
    let nodes := removed.map (·.node)
    let span := coveringSpan (Stack.endOffset s) nodes
    let r := { r.report (.unexpectedEnd span) with
      stack := Stack.pushExtra s (Node.error span nodes) }
    { r with phase := job.phaseForLookahead r }
  | none =>
    { r.report (.unexpectedEnd (Span.empty job.text.size)) with phase := .gaveUp }

/-- The error on top of the stack, if it may grow by another skipped token. -/
def openSkip? (r : Run) : Option (Entry × Stack) :=
  match r.stack with
  | e :: s => if r.mergeSkips && e.node.isError then some (e, s) else none
  | [] => none

def extendNewest (stop : Nat) : List SyntaxError → List SyntaxError
  | [] => []
  | e :: rest => { e with span.stop := stop } :: rest

/-- Skips the lookahead into an error of its own or into the one on top. -/
def skipLookahead (r : Run) : Run :=
  let token := r.lookahead
  let skipped :=
    match openSkip? r with
    | some (e, s) =>
      let node := { e.node with
        span.stop := token.span.stop
        children := e.node.children ++ [job.leaf token] }
      { r with
        stack := { e with node := node } :: s
        errors := extendNewest token.span.stop r.errors }
    | none =>
      { r.report (.unexpected (job.table.displayName token.symbol) token.span) with
        stack := r.stack.pushExtra (Node.error token.span [job.leaf token]) }
  { skipped.advance token.span.stop with mergeSkips := true, phase := .scanning }

def recover (r : Run) : Run :=
  match if job.options.insertMissing then job.missingCandidate? r else none with
  | some s =>
    let r := job.insertMissing s r
    { r with phase := job.phaseForLookahead r }
  | none =>
    if r.lookahead.symbol = Symbol.endOfInput then job.recoverAtEnd r else job.skipLookahead r

end Job

end TableParsing

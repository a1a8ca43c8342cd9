import TableParsing.Parser.Recovery

/-!
# Parsing

Steps are repeated until the parse accepts or gives up, and the stack becomes the root. On a loaded
table each token takes at most one recovery and no more reductions than the limit allows, which
bounds the steps beforehand.
-/
namespace TableParsing

namespace Job

variable (job : Job)

def step (r : Run) : Run :=
  match r.phase with
  | .scanning =>
    let r := job.scan r
    { r with phase := job.dispatch r }
  | .shifting => job.shift r
  | .reducing => job.reduceStep r
  | .recovering => job.recover r
  | .accepting | .gaveUp => r

/-- At most `steps` steps, fewer if the run ends before. -/
def runFor : (steps : Nat) → Run → Run
  | 0, r => r
  | steps + 1, r => if r.phase.isFinal then r else runFor steps (job.step r)

/-- For each byte, and for the end: a scan, a recovery, the reductions, and a shift. -/
def stepBound : Nat := (job.text.size + 1) * (job.options.reductionLimit + 3)

def finish : Run := job.runFor job.stepBound Run.initial

/-- The accepted node takes the extras around it; any other outcome is an error around all nodes. -/
def assembleRoot (phase : Phase) (nodes : List Node) : Node :=
  let whole : Span := ⟨0, job.text.size⟩
  let failed := Node.branch Symbol.error whole true nodes
  if phase = .accepting then
    match nodes.dropWhile (·.extra) with
    | root :: trailing =>
      { root with
        span := whole
        children := nodes.takeWhile (·.extra) ++ root.children ++ trailing }
    | [] => failed
  else failed

end Job

structure Parser where
  language : Language
  options : ParseOptions := {}

namespace Parser

/-- Always yields a tree; what is wrong with the text is in its errors. -/
def parse (p : Parser) (text : Text) : SyntaxTree :=
  let job : Job := ⟨p.language.grammar, p.options, text⟩
  let r := job.finish
  ⟨job.assembleRoot r.phase r.stack.nodes, text, p.language, r.errors.reverse⟩

end Parser

def Language.parse (l : Language) (text : Text) : SyntaxTree := Parser.parse ⟨l, {}⟩ text

end TableParsing

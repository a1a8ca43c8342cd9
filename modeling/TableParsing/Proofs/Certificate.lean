import TableParsing.Proofs.Consistency
import TableParsing.Proofs.Derivation
import TableParsing.Proofs.Recognition

/-!
# Certificates for a table

A table records how many children a rule takes but not which. A certificate adds the rules and what
is needed to see that the automaton recognizes exactly the words they derive: for every state the
newest symbols below it, and for every phrase what it may begin with and what may follow it. Whether
a certificate fits a table is computed.
-/
namespace TableParsing

structure Certificate where
  rules : Rules
  /-- The symbol of whole programs. -/
  start : Symbol
  /-- The terminals with which a phrase may begin. -/
  first : Symbol → List Symbol
  /-- The terminals that may follow a phrase that begins in this state. -/
  after : StateId → Symbol → List Symbol
  /-- The newest symbols of every stack on which this state is the newest. -/
  spelling : StateId → List Symbol

namespace GrammarTable

variable {t : GrammarTable} {q next : StateId} {s : Symbol} {act : Action}

def Transition (t : GrammarTable) (q : StateId) (s : Symbol) (next : StateId) : Prop :=
  t.action? q s = some (.shift next) ∨ t.goto? q s = some next

def allActions (t : GrammarTable) (ok : StateId → Symbol → Action → Bool) : Bool :=
  t.states.toList.zipIdx.all fun (st, i) =>
    st.actions.toList.all fun (s, act) => ok (UInt16.ofNat i) s act

def allGotos (t : GrammarTable) (ok : StateId → Symbol → StateId → Bool) : Bool :=
  t.states.toList.zipIdx.all fun (st, i) =>
    st.gotos.toList.all fun (s, next) => ok (UInt16.ofNat i) s next

theorem mem_zipIdx_states {st : ParseState} (h : t.state? q = some st) :
    (st, q.toNat) ∈ t.states.toList.zipIdx := by
  rw [List.mem_zipIdx_iff_getElem?]
  simpa [state?] using h

theorem allActions_spec {ok : StateId → Symbol → Action → Bool} (h : t.allActions ok = true)
    (ha : t.action? q s = some act) : ok q s act = true := by
  obtain ⟨st, hst, hf⟩ := Option.bind_eq_some_iff.mp ha
  have hrow := List.all_eq_true.mp h _ (mem_zipIdx_states hst)
  simpa using List.all_eq_true.mp hrow _ (Row.mem_of_find? hf)

theorem allGotos_spec {ok : StateId → Symbol → StateId → Bool} (h : t.allGotos ok = true)
    (hg : t.goto? q s = some next) : ok q s next = true := by
  obtain ⟨st, hst, hf⟩ := Option.bind_eq_some_iff.mp hg
  have hrow := List.all_eq_true.mp h _ (mem_zipIdx_states hst)
  simpa using List.all_eq_true.mp hrow _ (Row.mem_of_find? hf)

end GrammarTable

namespace Certificate

variable (c : Certificate) (t : GrammarTable)

/-- The rule of a production has its left-hand side and as many symbols as it takes children. -/
def rulesMatch : Bool :=
  decide (c.rules.length ≤ 0x10000) &&
    c.rules.map (fun r => (r.lhs, r.rhs.length)) ==
      t.productions.toList.map fun p => (p.lhs, p.childCount.toNat)

/-! ## What a stack spells -/

def continues (q : StateId) (s : Symbol) (next : StateId) : Bool :=
  next != startState && (c.spelling next).isPrefixOf (s :: c.spelling q)

/-- Shifts continue the spelling, reductions find their rule on it, and only the end is accepted. -/
def actionFits (q : StateId) (s : Symbol) : Action → Bool
  | .shift next => !decide (c.rules.Rewrites s) && c.continues q s next
  | .reduce id => (c.rules[id.toNat]?).any fun r => r.rhs.reverse.isPrefixOf (c.spelling q)
  | .accept => s == Symbol.endOfInput && c.spelling q == [c.start]

/-- Gotos continue the spelling, and a whole program stands on the start state. -/
def gotoFits (q : StateId) (s : Symbol) (next : StateId) : Bool :=
  c.continues q s next && (s != c.start || q == startState)

def spells : Bool :=
  c.spelling startState == [] && decide (c.rules.Rewrites c.start) &&
    t.allActions c.actionFits && t.allGotos c.gotoFits

/-! ## What a state continues with -/

/-- The terminals with which what remains may begin, `as` standing behind it. -/
def firsts (as : List Symbol) : List Symbol → List Symbol
  | [] => as
  | s :: _ => if c.rules.Rewrites s then c.first s else [s]

def reducesOn (q : StateId) (as : List Symbol) (id : ProductionId) : Bool :=
  (t.state? q).any fun st => (as.map fun a => (a, Action.reduce id)).isSublist st.actions.toList

/-- From this state the automaton passes through the symbols and reduces by the production on every
terminal of `as`. -/
def passes (id : ProductionId) (as : List Symbol) : StateId → List Symbol → Bool
  | q, [] => reducesOn t q as id
  | q, s :: rest =>
    if c.rules.Rewrites s then
      (t.goto? q s).any fun next =>
        (c.firsts as rest).all (c.after q s).contains && passes id as next rest
    else
      match t.action? q s with
      | some (.shift next) => passes id as next rest
      | _ => false

/-- Wherever a phrase may begin, the automaton passes through all its rules. -/
def completes : Bool :=
  t.allGotos fun q s _ =>
    c.rules.zipIdx.all fun (r, i) => r.lhs != s || c.passes t (UInt16.ofNat i) (c.after q s) q r.rhs

/-- A rule begins with what its left-hand side may begin with; only a program may be empty. -/
def ruleFits (r : Rule) : Bool :=
  !r.rhs.contains c.start &&
    match r.rhs with
    | [] => r.lhs == c.start
    | _ :: _ => (c.firsts [] r.rhs).all (c.first r.lhs).contains

/-- A program may stand on the start state, and is accepted there. -/
def accepts : Bool :=
  (t.goto? startState c.start).any fun q =>
    t.action? q Symbol.endOfInput == some .accept &&
      (c.after startState c.start).contains Symbol.endOfInput

def check : Bool :=
  c.rulesMatch t && c.spells t && c.completes t && c.rules.all c.ruleFits && c.accepts t

end Certificate

end TableParsing

import Mathlib.Tactic.Common
import TableParsing.Tree.Sexp

/-!
# Visible trees

What an S-expression shows of a tree: the nodes that are written, each with its kind, its flags and
its field, and in place of any other node its descendants. The S-expression is the text of this
forest alone, so equal forests have equal S-expressions.
-/
namespace TableParsing

/-- A node that is written, without what its S-expression leaves out. -/
structure VisibleTree where
  kind : String
  missing : Bool
  named : Bool
  field : Option String
  children : List VisibleTree

namespace VisibleTree

/-- What stands between the opening parenthesis and the children. -/
def heading (t : VisibleTree) : String :=
  if t.missing then
    if t.named then "MISSING " ++ t.kind
    else "MISSING \"" ++ Escape.ascii t.kind ++ "\""
  else t.kind

mutual

def sexp : VisibleTree → String
  | t@⟨_, _, _, _, children⟩ =>
    Language.sexpLabel t.field ++ "(" ++ t.heading ++ sexps children ++ ")"

/-- Each tree stands behind a blank. -/
def sexps : List VisibleTree → String
  | [] => ""
  | t :: rest => " " ++ t.sexp ++ sexps rest

end

theorem sexp_eq (t : VisibleTree) :
    t.sexp = Language.sexpLabel t.field ++ "(" ++ t.heading ++ sexps t.children ++ ")" := by
  cases t
  rfl

theorem sexps_append (as bs : List VisibleTree) : sexps (as ++ bs) = sexps as ++ sexps bs := by
  induction as with
  | nil => simp [sexps]
  | cons t as ih => simp only [List.cons_append, sexps, ih, String.append_assoc]

end VisibleTree

namespace Language

open VisibleTree

mutual

/-- The node above the forest of its children if it is written, else that forest alone. -/
def visible (l : Language) : Node → List VisibleTree
  | n@⟨_, _, children, _, _, _, _⟩ =>
    if l.isWritten n then [⟨l.kind n, n.missing, n.named, l.fieldOf? n, l.visibles children⟩]
    else l.visibles children

def visibles (l : Language) : List Node → List VisibleTree
  | [] => []
  | n :: rest => l.visible n ++ l.visibles rest

end

variable {l : Language} {n : Node} {out : String}

theorem visible_of_written (h : l.isWritten n = true) : l.visible n =
    [⟨l.kind n, n.missing, n.named, l.fieldOf? n, l.visibles n.children⟩] := by
  cases n
  simp only [visible, h, ite_true]

theorem visible_of_not_written (h : l.isWritten n = false) :
    l.visible n = l.visibles n.children := by
  cases n
  simp only [visible, h, Bool.false_eq_true, ite_false]

theorem writeSexp_of_written (h : l.isWritten n = true) (field : Option String) :
    l.writeSexp out field n = l.writeSexps
      ((if out.isEmpty then out else out ++ " ") ++ sexpLabel field ++ l.sexpHead n)
      n.children ++ ")" := by
  cases n
  simp only [writeSexp, h, ite_true]

theorem writeSexp_of_not_written (h : l.isWritten n = false) (field : Option String) :
    l.writeSexp out field n = l.writeSexps out n.children := by
  cases n
  simp only [writeSexp, h, Bool.false_eq_true, ite_false]

theorem sexpHead_eq (l : Language) (n : Node) : l.sexpHead n =
    "(" ++ VisibleTree.heading ⟨l.kind n, n.missing, n.named, l.fieldOf? n, l.visibles n.children⟩ := by
  unfold sexpHead VisibleTree.heading
  cases n.missing <;> cases n.named <;> rfl

/-- The writer appends the trees of a list one by one. -/
theorem writeSexps_of_forall {ns : List Node} (h : out ≠ "") (hn : ∀ n ∈ ns, ∀ out, out ≠ "" →
    l.writeSexp out (l.fieldOf? n) n = out ++ sexps (l.visible n)) :
    l.writeSexps out ns = out ++ sexps (l.visibles ns) := by
  induction ns generalizing out with
  | nil => simp [writeSexps, visibles, sexps]
  | cons n rest ih =>
    have hout : out ++ sexps (l.visible n) ≠ "" := by simp [h]
    rw [writeSexps, hn n List.mem_cons_self out h,
      ih hout fun m hm => hn m (List.mem_cons_of_mem _ hm), visibles, sexps_append,
      String.append_assoc]

/-- Behind what is there, the writer appends the text of the forest. -/
theorem writeSexp_eq (l : Language) (n : Node) : ∀ out, out ≠ "" →
    l.writeSexp out (l.fieldOf? n) n = out ++ sexps (l.visible n) := by
  induction n using Node.induction_children with
  | parent n ih =>
    intro out h
    cases hw : l.isWritten n with
    | false =>
      rw [writeSexp_of_not_written hw, visible_of_not_written hw]
      exact writeSexps_of_forall h ih
    | true =>
      have hout : out ++ " " ++ sexpLabel (l.fieldOf? n) ++ l.sexpHead n ≠ "" := by simp [h]
      rw [writeSexp_of_written hw, visible_of_written hw,
        if_neg (by simpa [String.isEmpty_iff] using h), writeSexps_of_forall hout ih]
      simp only [sexps, sexp_eq, sexpHead_eq, String.append_assoc, String.append_empty]

/-- A root that is written and has no field is written as its tree. -/
theorem writeSexp_root (hw : l.isWritten n = true) (hf : l.fieldOf? n = none) :
    ∃ t, l.visible n = [t] ∧ l.writeSexp "" none n = t.sexp := by
  refine ⟨_, visible_of_written hw, ?_⟩
  have hout : "" ++ sexpLabel none ++ l.sexpHead n ≠ "" := by simp [sexpHead_eq]
  rw [writeSexp_of_written hw, if_pos (String.isEmpty_iff.mpr rfl),
    writeSexps_of_forall hout fun c _ => l.writeSexp_eq c, sexp_eq, hf]
  simp only [sexpHead_eq, hf, String.append_assoc, String.empty_append]

end Language

end TableParsing

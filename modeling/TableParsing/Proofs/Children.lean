import TableParsing.Proofs.Leaves

/-!
# Children without extras

A parent numbers its children without the extras between them. So it makes no difference whether
extras are erased before a parent is made or after: the same real children stand under it and bear
the same fields, and nothing that can be seen is lost on the way.
-/
namespace TableParsing

namespace Node

variable {n : Node} {ns : List Node}

/-! ## Thinning -/

/-- `thin` leaves of some nodes those to keep, each with its children thinned. -/
structure Thins (keep : Node → Bool) (cut : Node → Node) (thin : List Node → List Node) : Prop where
  nodes : ∀ ns, thin ns = (ns.filter keep).map cut
  node : ∀ n, cut n = { n with children := thin n.children }
  /-- Nodes are not chosen by their fields. -/
  fields : ∀ n field, keep { n with field := field } = keep n

section

variable {keep : Node → Bool} {cut : Node → Node} {thin : List Node → List Node}

theorem Thins.append (h : Thins keep cut thin) (ms ns : List Node) :
    thin (ms ++ ns) = thin ms ++ thin ns := by
  simp only [h.nodes, List.filter_append, List.map_append]

theorem Thins.cons_of_keep (h : Thins keep cut thin) (hn : keep n = true) (ns : List Node) :
    thin (n :: ns) = cut n :: thin ns := by
  rw [h.nodes, List.filter_cons_of_pos hn, List.map_cons, ← h.nodes]

theorem Thins.cons_of_drop (h : Thins keep cut thin) (hn : keep n = false) (ns : List Node) :
    thin (n :: ns) = thin ns := by
  rw [h.nodes, List.filter_cons_of_neg (by simp [hn]), ← h.nodes]

/-- Thinning and marking nodes can be exchanged. -/
theorem Thins.map (h : Thins keep cut thin) {f : Node → Node} (hk : ∀ n, keep (f n) = keep n)
    (hf : ∀ n, cut (f n) = f (cut n)) (ns : List Node) : thin (ns.map f) = (thin ns).map f := by
  induction ns with
  | nil => simp [h.nodes]
  | cons n ns ih =>
    rw [List.map_cons]
    cases hn : keep n with
    | true => rw [h.cons_of_keep ((hk n).trans hn), h.cons_of_keep hn, hf, ih, List.map_cons]
    | false => rw [h.cons_of_drop ((hk n).trans hn), h.cons_of_drop hn, ih]

theorem Thins.cut_inherit (h : Thins keep cut thin) (field : Option FieldId) (n : Node) :
    cut (n.inherit field) = (cut n).inherit field := by
  simp only [inherit, h.node]
  split <;> rfl

theorem Thins.cut_withField (h : Thins keep cut thin) (field : Option FieldId) (n : Node) :
    cut (n.withField field) = (cut n).withField field := by
  simp only [withField, h.node]
  split <;> rfl

theorem Thins.spliced (h : Thins keep cut thin) (t : GrammarTable) (field : Option FieldId)
    (hn : keep n = true) : thin (t.spliced field n) = t.spliced field (cut n) := by
  have hsymbol : (cut n).symbol = n.symbol := by rw [h.node]
  have hchildren : (cut n).children = thin n.children := by rw [h.node]
  unfold GrammarTable.spliced
  rw [isError, isError, hsymbol]
  split
  · rw [h.map (inherit_congr h.fields field) (h.cut_inherit field), hchildren]
  · rw [h.cons_of_keep ((withField_congr h.fields field n).trans hn), h.cut_withField, h.nodes]
    rfl

/-- If just the extras are dropped, they can be dropped before or after making a parent. -/
theorem Thins.collectChildren (h : Thins keep cut thin) (t : GrammarTable) (p : Production)
    (index : Nat) (hns : ∀ n ∈ ns, keep n = !n.extra) :
    thin (t.collectChildren p index ns) = t.collectChildren p index (thin ns) := by
  induction ns generalizing index with
  | nil => simp [h.nodes, GrammarTable.collectChildren]
  | cons n ns ih =>
    obtain ⟨hn, hns⟩ := List.forall_mem_cons.mp hns
    rw [GrammarTable.collectChildren]
    cases hx : n.extra with
    | true =>
      rw [hx] at hn
      rw [if_pos rfl, h.cons_of_drop hn, h.cons_of_drop hn, ih index hns]
    | false =>
      rw [hx] at hn
      have hcut : (cut n).extra = false := by rw [h.node, hx]
      rw [if_neg Bool.false_ne_true, h.append, h.spliced t _ hn, ih _ hns, h.cons_of_keep hn,
        GrammarTable.collectChildren, hcut, if_neg Bool.false_ne_true]

end

/-! ## Erasing extras -/

mutual

/-- The node without the extras below it. -/
def withoutExtras : Node → Node
  | ⟨s, span, children, field, named, extra, missing⟩ =>
    ⟨s, span, eraseExtras children, field, named, extra, missing⟩

/-- The nodes that are no extras, without those below them. -/
def eraseExtras : List Node → List Node
  | [] => []
  | n :: rest => if n.extra then eraseExtras rest else n.withoutExtras :: eraseExtras rest

end

theorem withoutExtras_eq (n : Node) :
    n.withoutExtras = { n with children := eraseExtras n.children } := by
  cases n
  rfl

theorem eraseExtras_eq (ns : List Node) :
    eraseExtras ns = (ns.filter (!·.extra)).map withoutExtras := by
  induction ns with
  | nil => rfl
  | cons n ns ih =>
    rw [eraseExtras]
    cases hx : n.extra <;> simp [hx, ih]

theorem thins_eraseExtras : Thins (!·.extra) withoutExtras eraseExtras :=
  ⟨eraseExtras_eq, withoutExtras_eq, fun _ _ => rfl⟩

/-- No extra is left, however deep. -/
theorem not_extra_of_mem_eraseExtras (ns : List Node) :
    ∀ n ∈ walkPending (eraseExtras ns), n.extra = false := by
  fun_induction walkPending ns with
  | case1 => simp [eraseExtras, walkPending]
  | case2 n ns ih =>
    -- A walk has the children pending together with the later nodes.
    have happend := thins_eraseExtras.append n.children ns
    rw [happend, walkPending_append, List.forall_mem_append] at ih
    rw [eraseExtras]
    cases hx : n.extra with
    | true => exact ih.2
    | false =>
      rw [if_neg Bool.false_ne_true, walkPending, List.forall_mem_cons, withoutExtras_eq,
        walkPending_append, List.forall_mem_append]
      exact ⟨hx, ih⟩

/-! ## Fields -/

theorem inherit_extra (field : Option FieldId) (n : Node) : (n.inherit field).extra = n.extra :=
  inherit_congr (fun _ _ => rfl) field n

theorem inherit_of_real (field : Option FieldId) (hx : n.extra = false) :
    n.inherit field = { n with field := n.field.or field } := by
  obtain ⟨s, span, children, own, named, extra, missing⟩ := n
  subst hx
  cases own <;> cases field <;> rfl

theorem inherit_of_extra (field : Option FieldId) (hx : n.extra = true) :
    n.inherit field = n := by
  simp [inherit, hx]

theorem withField_eq (field : Option FieldId) (n : Node) :
    n.withField field = { n with field := field.or n.field } := by
  cases n
  cases field <;> rfl

/-- The node apart from the field that a parent may have given it. -/
def unlabelled (n : Node) : Node := if n.extra then n else { n with field := none }

theorem unlabelled_field (field : Option FieldId) (hx : n.extra = false) :
    unlabelled { n with field := field } = n.unlabelled := by
  simp only [unlabelled, hx]
  rfl

end Node

open Node

namespace GrammarTable

variable (t : GrammarTable) (p : Production)

/-- The node is one of a hidden rule. -/
def hides (n : Node) : Bool := !n.isError && t.isHiddenRule n.symbol

/-- The childless nodes among these and below them but for hidden rules, in the order of a walk. -/
def shownLeaves (ns : List Node) : List Node := (leaves ns).filter (!t.hides ·)

/-- What stands for a real node in its parent, extras aside. A node that is shown takes the field, if
there is one; in place of a hidden one its children take it, unless they have one. -/
def realPart (field : Option FieldId) (n : Node) : List Node :=
  if t.hides n then (n.children.filter (!·.extra)).map fun c => { c with field := c.field.or field }
  else [{ n with field := field.or n.field }]

/-- The extras that stand for a node in its parent. -/
def extraPart (n : Node) : List Node :=
  if n.extra then [n] else if t.hides n then n.children.filter (·.extra) else []

theorem filter_real_spliced (field : Option FieldId) {n : Node} (hx : n.extra = false) :
    (t.spliced field n).filter (!·.extra) = t.realPart field n := by
  unfold spliced realPart hides
  split
  · rw [List.filter_map]
    have hextra : (fun c : Node => !c.extra) ∘ Node.inherit field = fun c => !c.extra :=
      funext fun c => congrArg not (inherit_extra field c)
    rw [hextra]
    apply List.map_congr_left
    intro c hc
    exact inherit_of_real field (by simpa using (List.mem_filter.mp hc).2)
  · rw [withField_eq, List.filter_cons_of_pos (by simp [hx])]
    rfl

theorem filter_extra_spliced (field : Option FieldId) {n : Node} (hx : n.extra = false) :
    (t.spliced field n).filter (·.extra) = t.extraPart n := by
  unfold spliced extraPart hides
  rw [hx, if_neg Bool.false_ne_true]
  split
  · rw [List.filter_map]
    have hextra : (fun c : Node => c.extra) ∘ Node.inherit field = fun c => c.extra :=
      funext (inherit_extra field)
    have hsame : ∀ c ∈ n.children.filter (·.extra), c.inherit field = id c := fun c hc =>
      inherit_of_extra field (List.mem_filter.mp hc).2
    rw [hextra, List.map_congr_left hsame, List.map_id]
  · rw [withField_eq, List.filter_cons_of_neg (by simp [hx]), List.filter_nil]

/-- The real children, given by the real nodes that they are made of and the numbers of those. -/
theorem filter_real_collectChildren (index : Nat) (ns : List Node) :
    (t.collectChildren p index ns).filter (!·.extra) =
      ((ns.filter (!·.extra)).zipIdx index).flatMap fun (n, i) => t.realPart (p.fieldFor i) n := by
  induction ns generalizing index with
  | nil => rfl
  | cons n ns ih =>
    rw [collectChildren]
    cases hx : n.extra with
    | true =>
      rw [if_pos rfl, List.filter_cons_of_neg (by simp [hx]), List.filter_cons_of_neg (by simp [hx]),
        ih]
    | false =>
      rw [if_neg Bool.false_ne_true, List.filter_append, t.filter_real_spliced _ hx, ih,
        List.filter_cons_of_pos (by simp [hx]), List.zipIdx_cons, List.flatMap_cons]

/-- Extras keep their order and are not touched. -/
theorem filter_extra_collectChildren (index : Nat) (ns : List Node) :
    (t.collectChildren p index ns).filter (·.extra) = ns.flatMap t.extraPart := by
  induction ns generalizing index with
  | nil => rfl
  | cons n ns ih =>
    rw [collectChildren, List.flatMap_cons]
    cases hx : n.extra with
    | true => rw [if_pos rfl, List.filter_cons_of_pos hx, ih, extraPart, if_pos hx]; rfl
    | false => rw [if_neg Bool.false_ne_true, List.filter_append, t.filter_extra_spliced _ hx, ih]

/-- Making a parent keeps the leaves that are shown, but for their fields. -/
theorem shownLeaves_collectChildren (index : Nat) (ns : List Node) :
    (t.shownLeaves (t.collectChildren p index ns)).map unlabelled =
      (t.shownLeaves ns).map unlabelled := by
  rw [shownLeaves, shownLeaves, map_filter_leaves, map_filter_leaves]
  apply t.gather_collectChildren p
  · intro n field hx
    simp only [unlabelled_field field hx]
    rfl
  · intro n _ _ he hh
    have hhides : t.hides n = true := by rw [hides, he, hh]; rfl
    rw [hhides]
    rfl

/-- Extras among the popped nodes and below them do not matter for the children that are made of the
others: erasing them before and after comes to the same. All shown leaves stay in order, from the
`i`-th real node comes what stands for it with the field that the production has for `i`, and the
extras stay as they are. -/
theorem collectChildren_ignores_extras (popped : List Node) :
    eraseExtras (t.collectChildren p 0 popped) = t.collectChildren p 0 (eraseExtras popped) ∧
    (t.shownLeaves (t.collectChildren p 0 popped)).map unlabelled =
      (t.shownLeaves popped).map unlabelled ∧
    (t.collectChildren p 0 popped).filter (!·.extra) =
      ((popped.filter (!·.extra)).zipIdx.flatMap fun (n, i) => t.realPart (p.fieldFor i) n) ∧
    (t.collectChildren p 0 popped).filter (·.extra) = popped.flatMap t.extraPart :=
  ⟨thins_eraseExtras.collectChildren t p 0 fun _ _ => rfl, t.shownLeaves_collectChildren p 0 popped,
    t.filter_real_collectChildren p 0 popped, t.filter_extra_collectChildren p 0 popped⟩

/-- A comment between two children takes neither a field nor a number. -/
example :
    let leaf (s : UInt16) : Node := Node.leaf ⟨s⟩ (Span.empty 0) true
    let comment : Node := { leaf 3 with extra := true }
    let p : Production := ((Production.ofArity ⟨4⟩ 2).withField 0 ⟨7⟩).withField 1 ⟨8⟩
    (collectChildren default p 0 [leaf 1, comment, leaf 2]).map (·.field) =
      [some ⟨7⟩, none, some ⟨8⟩] := by decide

end GrammarTable

end TableParsing

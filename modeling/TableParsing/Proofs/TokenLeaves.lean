import TableParsing.Proofs.Coverage
import TableParsing.Proofs.Shapes

/-!
# Leaves and tokens

A parse without errors and the lexer without a parser read a text alike, if no token that the lexer
finds in some state is another one where everything is valid. The parser asks for each lexeme behind
the one before, so what it has read and what the lexer still finds behind that make up the tokens of
the text. And where only the start symbol may be rewritten by nothing, each leaf is one of them.
-/
namespace TableParsing

/-- A token that is found where some external tokens are valid is found where all of them are. -/
def Grammar.Uniform (g : Grammar) : Prop :=
  ∀ text valid pos token, g.lexemeAt text valid pos = .token token →
    g.lexemeAt text g.allValid pos = .token token

namespace Job

variable {job : Job} {r : Run} {seen : List Lexeme} {l : Language} {pos : Nat}

/-! ## What is still to be read -/

/-- What has been returned, and behind it the tokens from `pos` on, are the tokens of the text. -/
def Agrees (job : Job) (seen : List Lexeme) (pos : Nat) : Prop :=
  job.grammar.tokensFrom job.text 0 = tokensOf seen ++ job.grammar.tokensFrom job.text pos

theorem Agrees.token {token : Token} (hu : job.grammar.Uniform)
    (hn : job.nextLexeme r = .token token) (h : job.Agrees seen r.position) :
    job.Agrees (.token token :: seen) token.span.stop := by
  rw [Agrees, h, Grammar.tokensFrom_token (hu _ _ _ _ hn), tokensOf_cons, List.append_assoc]
  rfl

theorem Agrees.ended (hn : job.nextLexeme r = .endOfText) (h : job.Agrees seen r.position) :
    job.Agrees (.endOfText :: seen) job.text.size := by
  have hhere := Grammar.tokensFrom_endOfText (Grammar.endOfText_congr hn job.grammar.allValid)
  have hsize : job.grammar.tokensFrom job.text job.text.size = [] :=
    Grammar.tokensFrom_endOfText (Grammar.lexemeAt_of_size_le (Nat.le_refl _))
  have htokens : tokensOf (.endOfText :: seen) = tokensOf seen := by
    rw [tokensOf_cons]
    exact List.append_nil _
  rw [Agrees, h, hhere, hsize, htokens]

/-- A scan goes on behind each extra, and bytes that no token takes would be reported. -/
theorem Agrees.scanned (hl : job.grammar = l.grammar) (hu : job.grammar.Uniform)
    (hp : r.phase = .scanning) (he : (job.recordStep seen r).2.errors = [])
    (h : r.errors = [] → job.Agrees seen r.position) :
    job.Agrees (job.recordStep seen r).1 (job.front (job.recordStep seen r).2) := by
  have extra (seen : List Lexeme) (r : Run) (token : Token) (hn : job.nextLexeme r = .token token)
      (h : r.errors = [] → job.Agrees seen r.position) (he : r.errors = []) :
      job.Agrees (.token token :: seen) (r.pushExtra (job.leaf token)).position :=
    (h he).token hu hn
  obtain ⟨seen', r', hr, ⟨hn, hs⟩ | ⟨token, hn, hs⟩⟩ := recordScan_cases
    (P := fun seen r => r.errors = [] → job.Agrees seen r.position) extra
    (fun _ _ _ _ _ he => nomatch he) h
  · simp only [recordStep, hp, hs] at he ⊢
    rw [front, if_neg (job.dispatch_ne_scanning _), if_pos rfl]
    exact (hr he).ended hn
  · have hend : token.symbol ≠ Symbol.endOfInput :=
      bne_iff_ne.mp (Bool.and_eq_true_iff.mp (lexed_of_nextLexeme hl hn).1).1
    simp only [recordStep, hp, hs] at he ⊢
    rw [front, if_neg (job.dispatch_ne_scanning _), if_neg hend]
    exact (hr he).token hu hn

/-- As long as no error is reported, the parser reads the tokens of the text. -/
theorem Recorded.agrees (hl : job.grammar = l.grammar) (hu : job.grammar.Uniform)
    (h : job.Recorded seen r) (he : r.errors = []) : job.Agrees seen (job.front r) := by
  induction h with
  | initial => rfl
  | @step seen r h ih =>
    have hbefore := ih (h.reachable.errors_eq_nil (n := 1) he)
    by_cases hp : r.phase = .scanning
    · have hfront : job.front r = r.position := if_pos hp
      rw [← recordStep_snd job seen] at he ⊢
      exact Agrees.scanned hl hu hp he fun _ => hfront ▸ hbefore
    · rw [recordStep_fst hp, h.reachable.front_step hl hp]
      exact hbefore

end Job

/-! ## Childless nodes -/

/-- Only the start symbol is rewritten by nothing, and no rule asks for it. -/
structure Rules.EmptyOnly (rules : Rules) (start : Symbol) : Prop where
  filled : ∀ rule ∈ rules, rule.rhs = [] → rule.lhs = start
  absent : ∀ rule ∈ rules, start ∉ rule.rhs

namespace GrammarTable

variable {t : GrammarTable} {start s : Symbol} {p : Production} {index : Nat}
  {field : Option FieldId} {w : List Part}

def inner (t : GrammarTable) (start s : Symbol) : PartLanguage :=
  {w | (w = [] → t.isTerminal s = true ∨ s = start) ∧ ∀ part ∈ w, part.1 ≠ start}

theorem ne_nil_of_offered (hs : s ≠ start) (h : w ∈ t.offered (t.inner start) field s) :
    w ≠ [] ∧ ∀ part ∈ w, part.1 ≠ start := by
  unfold offered at h
  split at h
  · rename_i hh
    obtain ⟨v, ⟨hempty, hparts⟩, rfl⟩ := h
    constructor
    · intro hv
      rcases hempty (List.map_eq_nil_iff.mp hv) with ht | ht
      · exact absurd (ht.symm.trans (isTerminal_of_isHiddenRule hh)) (by decide)
      · exact hs ht
    · intro part hpart
      obtain ⟨below, hbelow, rfl⟩ := List.mem_map.mp hpart
      exact hparts below hbelow
  · obtain rfl := h
    exact ⟨List.cons_ne_nil _ _, List.forall_mem_singleton.mpr hs⟩

/-- Every symbol of a rule leaves a part, so only an empty rule leaves none. -/
theorem eq_nil_of_offeredFrom {rhs : List Symbol} (hrhs : start ∉ rhs)
    (h : w ∈ t.offeredFrom (t.inner start) p index rhs) :
    (w = [] → rhs = []) ∧ ∀ part ∈ w, part.1 ≠ start := by
  induction rhs generalizing index w with
  | nil =>
    obtain rfl : w = [] := h
    exact ⟨fun _ => rfl, List.forall_mem_nil _⟩
  | cons s rhs ih =>
    obtain ⟨u, hu, v, hv, rfl⟩ := h
    obtain ⟨hne, hparts⟩ := ne_nil_of_offered (List.ne_of_not_mem_cons hrhs).symm hu
    have hrest := ih (List.not_mem_of_not_mem_cons hrhs) hv
    constructor
    · intro hw
      exact absurd (List.append_eq_nil_iff.mp hw).1 hne
    · exact List.forall_mem_append.mpr ⟨hparts, hrest.2⟩

theorem complies_inner {c : Certificate} (hfit : c.Fits t) (hrules : c.rules.EmptyOnly start) :
    t.Complies c.rules (t.inner start) where
  token _ hs := ⟨fun _ => .inl hs, List.forall_mem_nil _⟩
  rule {id r p} hr hp w hw := by
    have hmem := List.mem_of_getElem? hr
    obtain ⟨hempty, hparts⟩ := eq_nil_of_offeredFrom (hrules.absent r hmem) hw
    refine ⟨fun hnil => .inr ?_, hparts⟩
    obtain ⟨r', hr', hlhs, _⟩ := hfit.rule_of_production hp
    rw [hr] at hr'
    cases hr'
    exact hlhs ▸ hrules.filled r hmem (hempty hnil)

end GrammarTable

namespace Node

variable {m n : Node}

theorem all_of_hasError (h : n.hasError = false) :
    n.All fun m => m.isError = false ∧ m.missing = false := by
  have hclean : n.All fun m => m.hasError = false := by
    intro m hm
    induction hm with
    | root => exact h
    | child _ hc ih => exact (hasError_eq_false.mp ih).2.2 _ hc
  intro m hm
  obtain ⟨hs, hmissing, _⟩ := hasError_eq_false.mp (hclean m hm)
  exact ⟨beq_eq_false_iff_ne.mpr hs, hmissing⟩

theorem exists_parent (h : m ∈ walkPending n.children) :
    ∃ parent, n.Holds parent ∧ m ∈ parent.children := by
  obtain ⟨c, hc, hm⟩ := exists_holds_of_mem_walkPending h
  cases hm with
  | root => exact ⟨n, .root, hc⟩
  | child hp hm => exact ⟨_, hp.of_child hc, hm⟩

end Node

namespace GrammarTable

open Node

variable {t : GrammarTable} {wrapped : Prop} {start : Symbol} {m n : Node}

/-- Among nodes without errors only tokens have no children, but for a whole program. -/
theorem Builds.filled (hf : t.fault? = none) (h : t.Builds wrapped n) (hn : n.children = [])
    (hclean : n.isError = false ∧ n.missing = false) (hshaped : n.Shaped (t.inner start))
    (hstart : n.extra = false → n.symbol ≠ start) : n.span.start < n.span.stop := by
  cases h with
  | token _ _ hbytes => exact hbytes hclean.2
  | error he => exact absurd (he.symm.trans hclean.1) (by decide)
  | parent hp hs hx =>
    have hempty := (hshaped hx).1 (by rw [parts, hn]; rfl)
    rcases hempty with ht | ht
    · have hnon := isTerminal_of_isNonTerminal (isNonTerminal_lhs hf hp)
      exact absurd (ht.symm.trans (hs ▸ hnon)) (by decide)
    · exact absurd ht (hstart hx)

theorem Builds.not_extra (h : t.Builds wrapped n) (hm : m ∈ n.children)
    (he : n.isError = false) : n.extra = false := by
  cases h with
  | token _ hn =>
    rw [hn] at hm
    cases hm
  | error he' => exact absurd (he'.symm.trans he) (by decide)
  | parent _ _ hx => exact hx

end GrammarTable

namespace Parser

open Node

variable {p : Parser} {text : Text} {start : Symbol} {c : Certificate}

/-- In a tree without errors every leaf but the root has bytes. -/
theorem childless_filled (herr : (p.parse text).hasError = false) (hfit : c.Fits p.language.table)
    (hrules : c.rules.EmptyOnly start) (hsingle : Job.Single (p.job text).finish)
    {n : Node} (hn : n ∈ (p.parse text).childless) : n.span.start < n.span.stop := by
  have hf := p.language.table_fault
  have hclean := all_of_hasError (Bool.or_eq_false_iff.mp herr).2
  obtain ⟨hshaped, hextra⟩ := p.root_shaped text herr hsingle hfit
    (GrammarTable.complies_inner hfit hrules)
  have hbuilt {c m : Node} (hc : c ∈ (p.parse text).root.children) (hm : c.Holds m) :=
    (Job.builds_of_mem_root (l := p.language) rfl (p.job text).finish_reachable hc).of_holds hm
  rw [p.childless_eq, leaves, List.mem_filter, List.isEmpty_iff] at hn
  obtain ⟨hmem, hempty⟩ := hn
  obtain ⟨parent, hparent, hchild⟩ := exists_parent hmem
  have hholds := hparent.child hchild
  obtain ⟨m, hm, hmn⟩ := exists_holds_of_mem_walkPending hmem
  refine (hbuilt hm hmn).filled hf hempty (hclean n hholds) (hshaped n hholds) fun hx => ?_
  -- The parent has the node among its parts, and none of these is the start symbol.
  have hplain : parent.extra = false := by
    rcases holds_iff.mp hparent with rfl | ⟨c, hc, hcp⟩
    · exact hextra
    · exact (hbuilt hc hcp).not_extra hchild (hclean parent hparent).1
  have hpart : (n.symbol, n.field) ∈ parent.parts :=
    List.mem_map_of_mem (List.mem_filter.mpr ⟨hchild, by simp [hx]⟩)
  exact (hshaped parent hparent hplain).2 _ hpart

/-- The leaves of a tree without errors are the tokens of the text. -/
theorem childless_eq_tokens (herr : (p.parse text).hasError = false)
    (hu : p.language.grammar.Uniform) (haccept : p.language.table.AcceptsOnlyEnd)
    (hfit : c.Fits p.language.table) (hrules : c.rules.EmptyOnly start)
    (hsingle : Job.Single (p.job text).finish)
    (hroot : p.language.table.isTerminal (p.parse text).root.symbol = false) :
    (p.parse text).childless.map (fun n => (⟨n.symbol, n.span⟩ : Token)) =
      p.language.tokens text := by
  have hfilled : (p.parse text).childless.filter (fun n => n.span.start < n.span.stop) =
      (p.parse text).childless :=
    List.filter_eq_self.mpr fun n hn => decide_eq_true (childless_filled herr hfit hrules hsingle hn)
  have hlexemes := (p.lossless text haccept hroot).lexemes
  have hagrees := (p.recorded_finish text).agrees (l := p.language) rfl hu
    (p.errors_finish_of_hasError text herr)
  have hend := (p.job text).lookahead_finish (l := p.language) rfl haccept
  have hsize : (p.job text).grammar.tokensFrom (p.job text).text (p.job text).text.size = [] :=
    Grammar.tokensFrom_endOfText (Grammar.lexemeAt_of_size_le (Nat.le_refl _))
  rw [Job.Agrees, (p.job text).front_finish hend, hsize, List.append_nil, Job.tokensOf,
    List.reverse_reverse] at hagrees
  rw [hfilled] at hlexemes
  exact hlexemes.trans hagrees.symm

end Parser

end TableParsing

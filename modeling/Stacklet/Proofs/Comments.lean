import Stacklet.Program.Layout
import Stacklet.Proofs.WellFormed

/-!
The comments of a program. They stand in statements and among terms, at any depth. Rewriting each
of them rewrites the comments of the rows and nothing else; erasing them keeps all other terms and
statements in their order, except for expressions that have no other terms.
-/

namespace Stacklet

mutual

def Term.comments : Term → List String
  | .number _ | .identifier _ => []
  | .comment text => [text]
  | .block body => Block.comments body

def Term.commentsAll : List Term → List String
  | [] => []
  | term :: terms => term.comments ++ Term.commentsAll terms

def Statement.comments : Statement → List String
  | .expression terms comment => Term.commentsAll terms ++ comment.toList
  | .assignment _ value comment => Block.comments value ++ comment.toList
  | .method _ body comment => Block.comments body ++ comment.toList

/-- All comments, those of nested blocks included. -/
def Block.comments : List Statement → List String
  | [] => []
  | s :: statements => s.comments ++ Block.comments statements

end

mutual

def Term.mapComments (f : String → String) : Term → Term
  | .number n => .number n
  | .identifier name => .identifier name
  | .comment text => .comment (f text)
  | .block body => .block (Block.mapComments f body)

def Term.mapCommentsAll (f : String → String) : List Term → List Term
  | [] => []
  | term :: terms => term.mapComments f :: Term.mapCommentsAll f terms

def Statement.mapComments (f : String → String) : Statement → Statement
  | .expression terms comment => .expression (Term.mapCommentsAll f terms) (comment.map f)
  | .assignment names value comment =>
    .assignment names (Block.mapComments f value) (comment.map f)
  | .method name body comment => .method name (Block.mapComments f body) (comment.map f)

/-- Rewrites all comments, those of nested blocks included. -/
def Block.mapComments (f : String → String) : List Statement → List Statement
  | [] => []
  | s :: statements => s.mapComments f :: Block.mapComments f statements

end

variable {f : String → String}

theorem Term.mapCommentsAll_eq_map (terms : List Term) :
    Term.mapCommentsAll f terms = terms.map (Term.mapComments f) := by
  induction terms with
  | nil => rfl
  | cons term terms ih => rw [mapCommentsAll, ih, List.map_cons]

theorem Block.mapComments_eq_map (b : Block) :
    Block.mapComments f b = b.map (Statement.mapComments f) := by
  induction b with
  | nil => rfl
  | cons s b ih => rw [mapComments, ih, List.map_cons]

theorem Comment.map_eq_self_iff (comment : Option String) :
    comment.map f = comment ↔ ∀ text ∈ comment.toList, f text = text := by
  cases comment with
  | none => simp
  | some text => simp

mutual

theorem Term.mapComments_eq_self_iff : (term : Term) →
    (term.mapComments f = term ↔ ∀ text ∈ term.comments, f text = text)
  | .number _ | .identifier _ => by simp [Term.mapComments, Term.comments]
  | .comment text => by simp [Term.mapComments, Term.comments]
  | .block body => by
    simpa [Term.mapComments, Term.comments] using Block.mapComments_eq_self_iff body

theorem Term.mapCommentsAll_eq_self_iff : (terms : List Term) →
    (Term.mapCommentsAll f terms = terms ↔ ∀ text ∈ Term.commentsAll terms, f text = text)
  | [] => by simp [Term.mapCommentsAll, Term.commentsAll]
  | term :: terms => by
    rw [Term.mapCommentsAll, Term.commentsAll, List.forall_mem_append, List.cons.injEq,
      Term.mapComments_eq_self_iff term, Term.mapCommentsAll_eq_self_iff terms]

theorem Statement.mapComments_eq_self_iff : (s : Statement) →
    (s.mapComments f = s ↔ ∀ text ∈ s.comments, f text = text)
  | .expression terms comment => by
    rw [Statement.mapComments, Statement.comments, List.forall_mem_append,
      Statement.expression.injEq, Term.mapCommentsAll_eq_self_iff terms, Comment.map_eq_self_iff]
  | .assignment names value comment => by
    rw [Statement.mapComments, Statement.comments, List.forall_mem_append,
      Statement.assignment.injEq, Block.mapComments_eq_self_iff value, Comment.map_eq_self_iff]
    simp
  | .method name body comment => by
    rw [Statement.mapComments, Statement.comments, List.forall_mem_append,
      Statement.method.injEq, Block.mapComments_eq_self_iff body, Comment.map_eq_self_iff]
    simp

theorem Block.mapComments_eq_self_iff : (b : List Statement) →
    (Block.mapComments f b = b ↔ ∀ text ∈ Block.comments b, f text = text)
  | [] => by simp [Block.mapComments, Block.comments]
  | s :: statements => by
    rw [Block.mapComments, Block.comments, List.forall_mem_append, List.cons.injEq,
      Statement.mapComments_eq_self_iff s, Block.mapComments_eq_self_iff statements]

end

mutual

theorem Term.mapComments_mapComments (g : String → String) : (term : Term) →
    (term.mapComments g).mapComments f = term.mapComments (f ∘ g)
  | .number _ | .identifier _ | .comment _ => rfl
  | .block body => by
    rw [Term.mapComments, Term.mapComments, Term.mapComments, Block.mapComments_mapComments g body]

theorem Term.mapCommentsAll_mapCommentsAll (g : String → String) : (terms : List Term) →
    Term.mapCommentsAll f (Term.mapCommentsAll g terms) = Term.mapCommentsAll (f ∘ g) terms
  | [] => rfl
  | term :: terms => by
    rw [Term.mapCommentsAll, Term.mapCommentsAll, Term.mapCommentsAll,
      Term.mapComments_mapComments g term, Term.mapCommentsAll_mapCommentsAll g terms]

theorem Statement.mapComments_mapComments (g : String → String) : (s : Statement) →
    (s.mapComments g).mapComments f = s.mapComments (f ∘ g)
  | .expression terms comment => by
    rw [Statement.mapComments, Statement.mapComments, Statement.mapComments,
      Term.mapCommentsAll_mapCommentsAll g terms, Option.map_map]
  | .assignment names value comment => by
    rw [Statement.mapComments, Statement.mapComments, Statement.mapComments,
      Block.mapComments_mapComments g value, Option.map_map]
  | .method name body comment => by
    rw [Statement.mapComments, Statement.mapComments, Statement.mapComments,
      Block.mapComments_mapComments g body, Option.map_map]

theorem Block.mapComments_mapComments (g : String → String) : (b : List Statement) →
    Block.mapComments f (Block.mapComments g b) = Block.mapComments (f ∘ g) b
  | [] => rfl
  | s :: statements => by
    rw [Block.mapComments, Block.mapComments, Block.mapComments,
      Statement.mapComments_mapComments g s, Block.mapComments_mapComments g statements]

end

/-! Layout. -/

@[simp] theorem Term.items_mapComments (term : Term) : (term.mapComments f).items = term.items := by
  cases term <;> rfl

@[simp] theorem Term.isWord_mapComments (term : Term) :
    (term.mapComments f).isWord = term.isWord := by
  cases term <;> rfl

@[simp] theorem Term.isBlock_mapComments (term : Term) :
    (term.mapComments f).isBlock = term.isBlock := by
  cases term <;> rfl

theorem Term.lastComment_mapComments (own : Option String) (terms : List Term) :
    Term.lastComment (own.map f) (terms.map (Term.mapComments f)) =
      (Term.lastComment own terms).map f := by
  induction terms generalizing own with
  | nil => rfl
  | cons term terms ih =>
    cases term with
    | comment text => exact ih (some text)
    | number n => exact ih own
    | identifier name => exact ih own
    | block body => exact ih own

mutual

theorem Statement.inlineItems?_mapComments : (s : Statement) →
    (s.mapComments f).inlineItems? = s.inlineItems?
  | .expression terms none => by
    simp [Statement.mapComments, Statement.inlineItems?, Term.mapCommentsAll_eq_map,
      List.flatMap_map]
  | .assignment names value none => by
    simp [Statement.mapComments, Statement.inlineItems?, Block.inlineItems?_mapComments value]
  | .method name body none => by
    simp [Statement.mapComments, Statement.inlineItems?, Block.inlineItems?_mapComments body]
  | .expression _ (some _) | .assignment _ _ (some _) | .method _ _ (some _) => rfl

theorem Block.inlineItems?_mapComments : (b : List Statement) →
    Block.inlineItems? (Block.mapComments f b) = Block.inlineItems? b
  | [] => rfl
  | [s] => Statement.inlineItems?_mapComments s
  | _ :: _ :: _ => rfl

end

mutual

theorem Statement.rows_mapComments : (s : Statement) → (level : Nat) →
    (s.mapComments f).rows level = (s.rows level).map (Row.mapComment f)
  | .expression terms comment, level => by
    rw [Statement.mapComments, Statement.rows, Statement.rows, Term.nestedRows_mapComments terms,
      Term.mapCommentsAll_eq_map, Term.lastComment_mapComments, List.flatMap_map, List.map_cons]
    simp [Row.mapComment]
  | .assignment names value comment, level => by
    simp only [Statement.mapComments, Statement.rows, Block.inlineItems?_mapComments]
    split
    · rfl
    · rw [Block.rows_mapComments value, List.map_cons]
      rfl
  | .method name body comment, level => by
    simp only [Statement.mapComments, Statement.rows, Block.inlineItems?_mapComments]
    split
    · rfl
    · rw [Block.rows_mapComments body, List.map_cons]
      rfl

theorem Term.rows_mapComments : (term : Term) → (level : Nat) →
    (term.mapComments f).rows level = (term.rows level).map (Row.mapComment f)
  | .number _, _ | .identifier _, _ | .comment _, _ => rfl
  | .block body, level => Block.rows_mapComments body level

theorem Term.nestedRows_mapComments : (terms : List Term) → (level : Nat) →
    Term.nestedRows level (Term.mapCommentsAll f terms) =
      (Term.nestedRows level terms).map (Row.mapComment f)
  | [], _ => rfl
  | term :: terms, level => by
    have hany : (Term.mapCommentsAll f terms).any Term.isBlock = terms.any Term.isBlock := by
      simp [Term.mapCommentsAll_eq_map, Function.comp_def]
    rw [Term.mapCommentsAll, Term.nestedRows, Term.nestedRows, hany, Term.isBlock_mapComments]
    split
    · exact Term.nestedRows_mapComments terms level
    · split
      · exact Term.rows_mapComments term level
      · rfl

theorem Block.rows_mapComments : (b : List Statement) → (level : Nat) →
    Block.rows level (Block.mapComments f b) = (Block.rows level b).map (Row.mapComment f)
  | [], _ => rfl
  | s :: statements, level => by
    rw [Block.mapComments, Block.rows, Block.rows, List.map_append,
      Statement.rows_mapComments s level, Block.rows_mapComments statements level]

end

/-! Well-formed programs stay well-formed. -/

theorem Term.mapComments_ofAtom (a : Atom) : (Term.ofAtom a).mapComments f = Term.ofAtom a := by
  cases a <;> rfl

theorem Statement.isRemark_mapComments (s : Statement) :
    (s.mapComments f).isRemark = s.isRemark := by
  cases s with
  | expression terms comment => cases terms <;> rfl
  | assignment names value comment => rfl
  | method name body comment => rfl

theorem Block.Nests.mapComments {b : Block} (h : Block.Nests b) :
    Block.Nests (Block.mapComments f b) := by
  obtain ⟨s, rest, rfl, hs⟩ := h
  exact ⟨s.mapComments f, Block.mapComments f rest, rfl, by rw [s.isRemark_mapComments, hs]⟩

theorem Comment.OneLine.map {comment : Option String} (h : Comment.OneLine comment)
    (hf : ∀ text, '\n' ∉ text.toList → '\n' ∉ (f text).toList) :
    Comment.OneLine (comment.map f) := by
  intro text htext
  obtain ⟨original, horiginal, rfl⟩ := Option.map_eq_some_iff.mp htext
  exact hf original (h original horiginal)

theorem Block.wellFormed_mapComments {b : Block} (h : ∀ s ∈ b, (s.mapComments f).WellFormed) :
    Block.WellFormed (Block.mapComments f b) := by
  rw [Block.mapComments_eq_map]
  intro t ht
  obtain ⟨s, hs, rfl⟩ := List.mem_map.mp ht
  exact h s hs

theorem Statement.WellFormed.mapComments {s : Statement} (h : s.WellFormed)
    (hf : ∀ text, '\n' ∉ text.toList → '\n' ∉ (f text).toList) :
    (s.mapComments f).WellFormed := by
  have hwords (words : List Atom) :
      (words.map Term.ofAtom).map (Term.mapComments f) = words.map Term.ofAtom := by
    simp [Function.comp_def, Term.mapComments_ofAtom]
  induction h with
  | words valid oneLine filled =>
    rw [Statement.mapComments, Term.mapCommentsAll_eq_map, hwords]
    exact .words valid (oneLine.map hf) (by simpa using filled)
  | @nesting words note body valid oneLine nests inner ih =>
    have hnote : ((note.map Term.comment).toList ++ [Term.block body]).map (Term.mapComments f) =
        ((note.map f).map Term.comment).toList ++ [.block (Block.mapComments f body)] := by
      cases note <;> rfl
    rw [Statement.mapComments, Term.mapCommentsAll_eq_map, List.map_append, hwords, hnote]
    exact .nesting valid (oneLine.map hf) nests.mapComments (Block.wellFormed_mapComments ih)
  | assignment ne_nil valid oneLine nests inner ih =>
    exact .assignment ne_nil valid (oneLine.map hf) nests.mapComments
      (Block.wellFormed_mapComments ih)
  | method valid oneLine nests inner ih =>
    exact .method valid (oneLine.map hf) nests.mapComments (Block.wellFormed_mapComments ih)

/-! Programs without their comments. -/

def Term.isComment : Term → Bool
  | .comment _ => true
  | _ => false

mutual

def Term.erase : Term → Term
  | .number n => .number n
  | .identifier name => .identifier name
  | .comment text => .comment text
  | .block body => .block (Block.erase body)

def Term.eraseAll : List Term → List Term
  | [] => []
  | term :: terms =>
    if term.isComment then Term.eraseAll terms else term.erase :: Term.eraseAll terms

def Statement.erase : Statement → Statement
  | .expression terms _ => .expression (Term.eraseAll terms) none
  | .assignment names value _ => .assignment names (Block.erase value) none
  | .method name body _ => .method name (Block.erase body) none

/-- Leaves out all comments, at every depth, and the expressions in which nothing else stands. -/
def Block.erase : List Statement → List Statement
  | [] => []
  | s :: statements =>
    if s.erase.isRemark then Block.erase statements else s.erase :: Block.erase statements

end

theorem Term.eraseAll_eq_map (terms : List Term) :
    Term.eraseAll terms = (terms.filter (!·.isComment)).map Term.erase := by
  induction terms with
  | nil => rfl
  | cons term terms ih =>
    rw [Term.eraseAll, ih]
    split
    · rename_i h
      rw [List.filter_cons_of_neg (by simp [h])]
    · rename_i h
      rw [List.filter_cons_of_pos (by simpa using h), List.map_cons]

theorem Block.erase_eq_map (b : Block) :
    Block.erase b = (b.filter (!·.erase.isRemark)).map Statement.erase := by
  induction b with
  | nil => rfl
  | cons s b ih =>
    rw [Block.erase, ih]
    split
    · rename_i h
      rw [List.filter_cons_of_neg (by simp [h])]
    · rename_i h
      rw [List.filter_cons_of_pos (by simpa using h), List.map_cons]

/-! What an erased program comes from. -/

theorem exists_of_map_filter_eq_cons {α : Type} {p : α → Bool} {f : α → α} {xs ys : List α} {y : α}
    (h : (xs.filter p).map f = y :: ys) :
    ∃ left x rest, xs = left ++ x :: rest ∧ (∀ z ∈ left, p z = false) ∧
      f x = y ∧ (rest.filter p).map f = ys := by
  obtain ⟨x, kept, hkept, hx, rfl⟩ := List.map_eq_cons_iff.mp h
  obtain ⟨left, rest, rfl, hleft, -, rfl⟩ := List.filter_eq_cons_iff.mp hkept
  exact ⟨left, x, rest, rfl, by simpa using hleft, hx, rfl⟩

namespace Term

variable {t : Term}

theorem erase_eq_number_iff {n : Number} : t.erase = .number n ↔ t = .number n := by
  cases t <;> simp [erase]

theorem erase_eq_identifier_iff {name : String} :
    t.erase = .identifier name ↔ t = .identifier name := by
  cases t <;> simp [erase]

theorem erase_eq_comment_iff {text : String} : t.erase = .comment text ↔ t = .comment text := by
  cases t <;> simp [erase]

theorem erase_eq_block_iff {body' : Block} :
    t.erase = .block body' ↔ ∃ body, t = .block body ∧ Block.erase body = body' := by
  cases t <;> simp [erase]

theorem isComment_of_eraseAll_eq_nil {ts : List Term} (h : eraseAll ts = []) :
    ∀ t ∈ ts, t.isComment := by
  rw [eraseAll_eq_map, List.map_eq_nil_iff, List.filter_eq_nil_iff] at h
  simpa using h

theorem exists_of_eraseAll_eq_cons {ts rest' : List Term} {t' : Term}
    (h : eraseAll ts = t' :: rest') :
    ∃ notes t rest, ts = notes ++ t :: rest ∧ (∀ n ∈ notes, n.isComment) ∧
      t.erase = t' ∧ eraseAll rest = rest' := by
  rw [eraseAll_eq_map] at h
  obtain ⟨notes, t, rest, hts, hnotes, ht, hrest⟩ := exists_of_map_filter_eq_cons h
  exact ⟨notes, t, rest, hts, by simpa using hnotes, ht, (eraseAll_eq_map rest).trans hrest⟩

end Term

namespace Statement

variable {a : Statement}

theorem erase_eq_expression_iff {ts' : List Term} {comment' : Option String} :
    a.erase = .expression ts' comment' ↔
      ∃ ts comment, a = .expression ts comment ∧ Term.eraseAll ts = ts' ∧ comment' = none := by
  cases a <;> simp [erase, eq_comm]

theorem erase_eq_assignment_iff {names : List String} {value' : Block} {comment' : Option String} :
    a.erase = .assignment names value' comment' ↔
      ∃ value comment, a = .assignment names value comment ∧
        Block.erase value = value' ∧ comment' = none := by
  cases a <;> simp [erase, eq_comm]

theorem erase_eq_method_iff {name : String} {body' : Block} {comment' : Option String} :
    a.erase = .method name body' comment' ↔
      ∃ body comment, a = .method name body comment ∧
        Block.erase body = body' ∧ comment' = none := by
  cases a <;> simp [erase, eq_comm]

/-- An expression of which nothing is left has only comments for terms. -/
theorem exists_of_isRemark_erase (h : a.erase.isRemark) :
    ∃ notes comment, a = .expression notes comment ∧ ∀ t ∈ notes, t.isComment := by
  cases a with
  | expression terms comment =>
    have hnil : Term.eraseAll terms = [] := by
      cases hterms : Term.eraseAll terms with
      | nil => rfl
      | cons t rest =>
        rw [Statement.erase, hterms] at h
        cases h
    exact ⟨terms, comment, rfl, Term.isComment_of_eraseAll_eq_nil hnil⟩
  | assignment names value comment => cases h
  | method name body comment => cases h

end Statement

namespace Block

theorem isRemark_of_erase_eq_nil {b : Block} (h : erase b = []) : ∀ n ∈ b, n.erase.isRemark := by
  rw [erase_eq_map, List.map_eq_nil_iff, List.filter_eq_nil_iff] at h
  simpa using h

theorem exists_of_erase_eq_cons {b rest' : Block} {a' : Statement} (h : erase b = a' :: rest') :
    ∃ notes a rest, b = notes ++ a :: rest ∧ (∀ n ∈ notes, n.erase.isRemark) ∧
      a.erase = a' ∧ erase rest = rest' := by
  rw [erase_eq_map] at h
  obtain ⟨notes, a, rest, hb, hnotes, ha, hrest⟩ := exists_of_map_filter_eq_cons h
  exact ⟨notes, a, rest, hb, by simpa using hnotes, ha, (erase_eq_map rest).trans hrest⟩

end Block

end Stacklet

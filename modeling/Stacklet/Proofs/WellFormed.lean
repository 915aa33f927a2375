import Stacklet.Source
import Stacklet.Proofs.Grouping
import Stacklet.Proofs.Lines

/-!
The trees that reading gives. An expression is a list of words, possibly with a block after them;
headers have names to bind; a nested block has a first statement that is more than a comment.
-/

namespace Stacklet

open Text

/-- A comment by itself. -/
def Statement.isRemark : Statement → Bool
  | .expression [] _ => true
  | _ => false

/-- What can be nested: a block with statements, of which the first is not a comment. -/
def Block.Nests (b : Block) : Prop := ∃ s rest, b = s :: rest ∧ s.isRemark = false

inductive Statement.WellFormed : Statement → Prop where
  | words {words : List Atom} {comment : Option String} (valid : ∀ a ∈ words, a.Valid)
      (oneLine : Comment.OneLine comment) (filled : words = [] → comment.isSome) :
      WellFormed (.expression (words.map Term.ofAtom) comment)
  | nesting {words : List Atom} {note : Option String} {body : Block}
      (valid : ∀ a ∈ words, a.Valid) (oneLine : Comment.OneLine note) (nests : Block.Nests body)
      (inner : ∀ s ∈ body, WellFormed s) :
      WellFormed (.expression
        (words.map Term.ofAtom ++ ((note.map Term.comment).toList ++ [.block body])) none)
  | assignment {names : List String} {value : Block} {comment : Option String}
      (ne_nil : names ≠ []) (valid : ∀ name ∈ names, Atom.IsName name)
      (oneLine : Comment.OneLine comment) (nests : Block.Nests value)
      (inner : ∀ s ∈ value, WellFormed s) : WellFormed (.assignment names value comment)
  | method {name : String} {body : Block} {comment : Option String} (valid : Atom.IsName name)
      (oneLine : Comment.OneLine comment) (nests : Block.Nests body)
      (inner : ∀ s ∈ body, WellFormed s) : WellFormed (.method name body comment)

def Block.WellFormed (b : Block) : Prop := ∀ s ∈ b, s.WellFormed

/-- What may stand as a value or a body. -/
structure Block.Nestable (b : Block) : Prop where
  nests : Block.Nests b
  wellFormed : Block.WellFormed b

theorem Block.Nestable.singleton {s : Statement} (h : s.WellFormed) (hremark : s.isRemark = false) :
    Block.Nestable [s] := by
  refine ⟨⟨s, [], rfl, hremark⟩, ?_⟩
  intro t ht
  rw [List.mem_singleton.mp ht]
  exact h

/-! Lines. -/

def Header.Valid : Header → Prop
  | .assignment names => names ≠ [] ∧ ∀ name ∈ names, Atom.IsName name
  | .method name => Atom.IsName name

structure Shape.Valid (s : Shape) : Prop where
  headers : ∀ h ∈ s.headers, h.Valid
  words : ∀ a ∈ s.words, a.Valid

namespace Header

theorem isName_of_mapM {items : List Item} (hitems : ∀ i ∈ items, i.Valid) {names : List String}
    (h : items.mapM binding = .ok names) : ∀ name ∈ names, Atom.IsName name := by
  intro name hname
  obtain ⟨i, hi, hbinding⟩ := Except.exists_of_mem_mapM h hname
  have hvalid := hitems i hi
  unfold binding at hbinding
  split at hbinding
  · cases hbinding
    exact hvalid
  · cases hbinding
  · cases hbinding

theorem valid_of_ofAssign {items : List Item} (hitems : ∀ i ∈ items, i.Valid) {header : Header}
    (h : ofAssign items = .ok header) : header.Valid := by
  obtain ⟨names, hnames, h⟩ := Except.bind_eq_ok_iff.mp h
  split at h
  · cases h
  · rename_i hne
    cases h
    exact ⟨hne, isName_of_mapM hitems hnames⟩

theorem valid_of_ofMethod {items : List Item} (hitems : ∀ i ∈ items, i.Valid) {header : Header}
    (h : ofMethod items = .ok header) : header.Valid := by
  obtain ⟨names, hnames, h⟩ := Except.bind_eq_ok_iff.mp h
  split at h
  · cases h
  · cases h
    exact isName_of_mapM hitems hnames _ (by simp)
  · cases h

end Header

namespace Shape

theorem tail_eq_ok {items : List Item} (hitems : ∀ i ∈ items, i.Valid) {s : Shape}
    (h : tail items = .ok s) : s.Valid ∧ (items ≠ [] → s.hasTail) := by
  fun_induction tail items generalizing s with
  | case1 =>
    cases h
    exact ⟨⟨by simp, by simp⟩, by simp⟩
  | case2 a items ih =>
    obtain ⟨s', hs', h⟩ := Except.bind_eq_ok_iff.mp h
    cases h
    obtain ⟨⟨hheaders, hwords⟩, -⟩ := ih (fun i hi => hitems i (by simp [hi])) hs'
    refine ⟨⟨hheaders, ?_⟩, by simp [hasTail]⟩
    intro b hb
    rcases List.mem_cons.mp hb with rfl | hb
    · exact hitems (.atom b) (by simp)
    · exact hwords b hb
  | case3 m =>
    cases h
    exact ⟨⟨by simp, by simp⟩, by simp [hasTail]⟩
  | case4 => cases h

theorem Valid.header {s : Shape} (h : s.Valid) {header : Header} (hheader : header.Valid) :
    Shape.Valid { s with headers := header :: s.headers } := by
  refine ⟨?_, h.words⟩
  intro other hother
  rcases List.mem_cons.mp hother with rfl | hother
  · exact hheader
  · exact h.headers other hother

/-- Whether there is anything on the line. -/
def Filled (s : Shape) : Prop := s.headers = [] → s.hasTail

theorem filled_header (s : Shape) (header : Header) :
    Shape.Filled { s with headers := header :: s.headers } := by
  intro hnil
  simp at hnil

theorem ofItemsFrom_eq_ok {before items : List Item} (hbefore : ∀ i ∈ before, i.Valid)
    (hitems : ∀ i ∈ items, i.Valid) {s : Shape} (h : ofItemsFrom before items = .ok s) :
    s.Valid ∧ (before ≠ [] ∨ items ≠ [] → s.Filled) := by
  fun_induction ofItemsFrom before items generalizing s with
  | case1 before =>
    obtain ⟨hvalid, htail⟩ := tail_eq_ok (fun i hi => hbefore i (List.mem_reverse.mp hi)) h
    refine ⟨hvalid, ?_⟩
    rintro (hne | hne) -
    · exact htail (by simpa using hne)
    · exact absurd rfl hne
  | case2 before items ih =>
    obtain ⟨header, hassign, h⟩ := Except.bind_eq_ok_iff.mp h
    obtain ⟨s', hs', h⟩ := Except.bind_eq_ok_iff.mp h
    cases h
    have hvalid := Header.valid_of_ofAssign (fun i hi => hbefore i (List.mem_reverse.mp hi)) hassign
    obtain ⟨hrest, -⟩ := ih (by simp) (fun i hi => hitems i (by simp [hi])) hs'
    exact ⟨hrest.header hvalid, fun _ => filled_header s' header⟩
  | case3 before items ih =>
    obtain ⟨header, hmethod, h⟩ := Except.bind_eq_ok_iff.mp h
    obtain ⟨s', hs', h⟩ := Except.bind_eq_ok_iff.mp h
    cases h
    have hvalid := Header.valid_of_ofMethod (fun i hi => hbefore i (List.mem_reverse.mp hi)) hmethod
    obtain ⟨hrest, -⟩ := ih (by simp) (fun i hi => hitems i (by simp [hi])) hs'
    exact ⟨hrest.header hvalid, fun _ => filled_header s' header⟩
  | case4 before item items _ _ ih =>
    have hnext : ∀ i ∈ item :: before, i.Valid := by
      intro i hi
      rcases List.mem_cons.mp hi with rfl | hi
      · exact hitems i (by simp)
      · exact hbefore i hi
    obtain ⟨hvalid, hfilled⟩ := ih hnext (fun i hi => hitems i (by simp [hi])) h
    exact ⟨hvalid, fun _ => hfilled (.inl (by simp))⟩

theorem ofItems_eq_ok {items : List Item} (hitems : ∀ i ∈ items, i.Valid) {s : Shape}
    (h : ofItems items = .ok s) : s.Valid ∧ (items ≠ [] → s.Filled) := by
  obtain ⟨hvalid, hfilled⟩ := ofItemsFrom_eq_ok (by simp) hitems h
  exact ⟨hvalid, fun hne => hfilled (.inr hne)⟩

/-! The statement of a line. -/

/-- The expression after the headers, if there is one. -/
theorem Valid.wellFormed_terms {s : Shape} (h : s.Valid) (htail : s.hasTail)
    {comment own : Option String} {nested : Block} (hcomment : Comment.OneLine comment)
    (hown : Comment.OneLine own)
    (hnested : s.block → Block.Nestable nested) :
    Statement.WellFormed
      (.expression (s.terms comment nested) (if s.block then none else own)) := by
  cases hblock : s.block with
  | true =>
    obtain ⟨hnests, hinner⟩ := hnested hblock
    rw [terms, hblock]
    exact .nesting h.words hcomment hnests hinner
  | false =>
    have hne : s.words ≠ [] := by simpa [hasTail, hblock] using htail
    rw [terms, hblock, if_neg (by decide), List.append_nil]
    exact .words h.words hown fun hnil => absurd hnil hne

theorem terms_ne_nil {s : Shape} (htail : s.hasTail) (comment : Option String) (nested : Block) :
    s.terms comment nested ≠ [] := by
  cases hblock : s.block with
  | true => simp [terms, hblock]
  | false =>
    have hne : s.words ≠ [] := by simpa [hasTail, hblock] using htail
    simp [terms, hblock, hne]

theorem isRemark_eq_false {s : Shape} (htail : s.hasTail) (comment own : Option String)
    (nested : Block) :
    (Statement.expression (s.terms comment nested) own).isRemark = false := by
  obtain ⟨term, rest, hterms⟩ := List.exists_cons_of_ne_nil (terms_ne_nil htail comment nested)
  rw [hterms]
  rfl

end Shape

theorem Header.wellFormed_statement {header : Header} (h : header.Valid) {comment : Option String}
    (hcomment : Comment.OneLine comment) {value : Block} (hvalue : Block.Nestable value) :
    (header.statement comment value).WellFormed := by
  cases header with
  | assignment names => exact .assignment h.1 h.2 hcomment hvalue.nests hvalue.wellFormed
  | method name => exact .method h hcomment hvalue.nests hvalue.wellFormed

theorem Header.isRemark_statement (header : Header) (comment : Option String) (value : Block) :
    (header.statement comment value).isRemark = false := by
  cases header <;> rfl

theorem Header.nestable_foldr {headers : List Header} (h : ∀ header ∈ headers, header.Valid)
    {value : Block} (hvalue : Block.Nestable value) :
    Block.Nestable (headers.foldr (fun h value => [h.statement none value]) value) := by
  induction headers with
  | nil => exact hvalue
  | cons header headers ih =>
    have hrest := ih fun other hother => h other (by simp [hother])
    have hnone : Comment.OneLine none := by simp [Comment.OneLine]
    exact .singleton (wellFormed_statement (h header (by simp)) hnone hrest)
      (header.isRemark_statement _ _)

namespace Shape

theorem Valid.wellFormed_statement {s : Shape} (h : s.Valid) (hfilled : s.Filled)
    {comment : Option String} (hcomment : Comment.OneLine comment) {nested : Block}
    (hnested : s.claims → Block.Nestable nested) :
    (s.statement comment nested).WellFormed ∧ (s.statement comment nested).isRemark = false := by
  have hblock : s.block → Block.Nestable nested := by
    intro hb
    exact hnested (by simp [claims, hb])
  have hnone : Comment.OneLine none := by simp [Comment.OneLine]
  unfold statement
  cases hheaders : s.headers with
  | nil =>
    have htail := hfilled hheaders
    exact ⟨h.wellFormed_terms htail hcomment hcomment hblock, isRemark_eq_false htail _ _ _⟩
  | cons header headers =>
    have hvalid : ∀ other ∈ header :: headers, other.Valid := hheaders ▸ h.headers
    have houter : Comment.OneLine (if s.block then none else comment) := by
      split
      · exact hnone
      · exact hcomment
    have hinner : Block.Nestable
        (if s.hasTail then [.expression (s.terms comment nested) none] else nested) := by
      by_cases htail : s.hasTail
      · rw [if_pos htail]
        have hterms := h.wellFormed_terms htail hcomment hnone hblock
        rw [ite_self] at hterms
        exact .singleton hterms (isRemark_eq_false htail _ _ _)
      -- With nothing after the headers, the line claims the group below it.
      · rw [if_neg htail]
        apply hnested
        simp_all [claims, hasTail]
    have hrest : ∀ other ∈ headers, other.Valid :=
      fun other hother => hvalid other (by simp [hother])
    exact ⟨Header.wellFormed_statement (hvalid header (by simp)) houter
      (Header.nestable_foldr hrest hinner), header.isRemark_statement _ _⟩

end Shape

/-! Assembling the parts. -/

namespace Part

theorem mem_of_mem_groupsAhead {parts : List Part} {n : Nested} (h : n ∈ groupsAhead parts) :
    .nested n ∈ parts := by
  induction parts with
  | nil => simp [groupsAhead] at h
  | cons part parts ih =>
    cases part with
    | nested m =>
      rcases List.mem_cons.mp h with rfl | h
      · simp
      · simp [ih h]
    | line l =>
      rw [groupsAhead] at h
      split at h
      · simp at h
      · simp [ih h]

theorem statement_of_claims {l : Line} {s : Shape} (h : s.claims) (n : Nested)
    (ahead : List Nested) :
    Part.statement l s (n :: ahead) = n.block >>= fun nested =>
      if s.hasInline && !ahead.isEmpty then .error ⟨l.number, .inlineAndNestedBlock⟩
      else .ok (s.statement l.comment nested) := by
  simp [Part.statement, h]

theorem statement_of_not_claims {l : Line} {s : Shape} (h : s.claims = false)
    (ahead : List Nested) :
    Part.statement l s ahead =
      if s.hasInline && !ahead.isEmpty then .error ⟨l.number, .inlineAndNestedBlock⟩
      else .ok (s.statement l.comment []) := by
  simp only [Part.statement, h]
  rfl

/-- A line with items takes the first of the groups ahead if it claims one. With a value on the line
no group may be left then. -/
theorem statement_eq_ok_iff {l : Line} {s : Shape} {ahead : List Nested} {statement : Statement} :
    Part.statement l s ahead = .ok statement ↔
      ∃ nested left, statement = s.statement l.comment nested ∧ (s.hasInline → left = []) ∧
        (s.claims ∧ (∃ n, ahead = n :: left ∧ n.block = .ok nested) ∨
          ¬ s.claims ∧ ahead = left ∧ nested = []) := by
  have hleft (left : List Nested) (nested : Block) :
      (if s.hasInline && !left.isEmpty then .error ⟨l.number, .inlineAndNestedBlock⟩
        else .ok (s.statement l.comment nested) : Except SyntaxError Statement) = .ok statement ↔
      statement = s.statement l.comment nested ∧ (s.hasInline → left = []) := by
    cases s.hasInline <;> cases left <;> simp [eq_comm]
  cases hclaims : s.claims with
  | true =>
    cases ahead with
    | nil => simp [Part.statement, hclaims, bind, Except.bind]
    | cons n ahead =>
      simp only [statement_of_claims hclaims, Except.bind_eq_ok_iff, hleft]
      constructor
      · rintro ⟨nested, hnested, hstatement, hinline⟩
        exact ⟨nested, ahead, hstatement, hinline, .inl ⟨trivial, n, rfl, hnested⟩⟩
      · rintro ⟨nested, left, hstatement, hinline, ⟨-, m, heq, hnested⟩ | ⟨hnot, -⟩⟩
        · cases heq
          exact ⟨nested, hnested, hstatement, hinline⟩
        · exact absurd trivial hnot
  | false =>
    simp only [statement_of_not_claims hclaims, hleft]
    constructor
    · rintro ⟨hstatement, hinline⟩
      exact ⟨[], ahead, hstatement, hinline, .inr ⟨by simp, rfl, rfl⟩⟩
    · rintro ⟨nested, left, hstatement, hinline, ⟨hclaim, -⟩ | ⟨-, rfl, rfl⟩⟩
      · cases hclaim
      · exact ⟨hstatement, hinline⟩

/-- If the groups ahead of one line spell the blocks that those ahead of another spell, each changed
by `f`, then the statements are the same up to that change. -/
theorem statement_of_forall₂ {l l' : Line} {s : Shape} {f : Block → Block}
    {g : Statement → Statement} (hnil : f [] = [])
    (hg : ∀ nested, s.statement l'.comment (f nested) = g (s.statement l.comment nested))
    {ahead ahead' : List Nested}
    (hahead : List.Forall₂ (fun n n' => ∀ b, n.block = .ok b → n'.block = .ok (f b)) ahead ahead')
    {statement : Statement} (h : Part.statement l s ahead = .ok statement) :
    Part.statement l' s ahead' = .ok (g statement) := by
  obtain ⟨nested, left, rfl, hinline, ⟨hclaims, n, rfl, hblock⟩ | ⟨hclaims, rfl, rfl⟩⟩ :=
    statement_eq_ok_iff.mp h
  · obtain ⟨n', left', hn, hleft, rfl⟩ := List.forall₂_cons_left_iff.mp hahead
    refine statement_eq_ok_iff.mpr ⟨f nested, left', (hg nested).symm, fun hi => ?_,
      .inl ⟨hclaims, n', rfl, hn nested hblock⟩⟩
    rw [hinline hi] at hleft
    exact List.forall₂_nil_left_iff.mp hleft
  · refine statement_eq_ok_iff.mpr ⟨f [], ahead', (hg []).symm, fun hi => ?_,
      .inr ⟨hclaims, rfl, hnil⟩⟩
    rw [hinline hi] at hahead
    exact List.forall₂_nil_left_iff.mp hahead

/-- A line with items is a statement of its own, with the group that it claims. -/
theorem statement_eq_ok {l : Line} {s : Shape} {ahead : List Nested} {statement : Statement}
    (h : Part.statement l s ahead = .ok statement) :
    ∃ nested, statement = s.statement l.comment nested ∧
      (s.claims → ∃ n ∈ ahead, n.block = .ok nested) := by
  obtain ⟨nested, left, rfl, -, ⟨-, n, rfl, hblock⟩ | ⟨hnot, -⟩⟩ := statement_eq_ok_iff.mp h
  · exact ⟨nested, rfl, fun _ => ⟨n, by simp, hblock⟩⟩
  · exact ⟨nested, rfl, fun hclaims => absurd hclaims hnot⟩

theorem assemble_substantial {l : Line} (h : l.isSubstantial) {claimed : Bool}
    {parts : List Part} {b : Block} :
    assemble claimed (.line l :: parts) = .ok b ↔
      ∃ shape statement rest, Shape.ofItems l.items = .ok shape ∧
        Part.statement l shape (groupsAhead parts) = .ok statement ∧
        assemble shape.claims parts = .ok rest ∧ b = statement :: rest := by
  rw [assemble, if_neg (by simp [Row.isBlank_of_isSubstantial h]),
    if_neg (by simp [Row.isComment_of_isSubstantial h])]
  simp only [Except.bind_eq_ok_iff, Except.mapError_eq_ok_iff]
  constructor
  · rintro ⟨shape, hshape, statement, hstatement, rest, hrest, heq⟩
    exact ⟨shape, statement, rest, hshape, hstatement, hrest, (Except.ok.inj heq).symm⟩
  · rintro ⟨shape, statement, rest, hshape, hstatement, hrest, rfl⟩
    exact ⟨shape, hshape, statement, hstatement, rest, hrest, rfl⟩

theorem assemble_comment {l : Line} (h : l.isComment) {claimed : Bool} {parts : List Part}
    {b : Block} :
    assemble claimed (.line l :: parts) = .ok b ↔
      ∃ rest, assemble claimed parts = .ok rest ∧ b = .expression [] l.comment :: rest := by
  rw [assemble, if_neg (by simp [Row.isBlank_of_isComment h]), if_pos h, Except.bind_eq_ok_iff]
  constructor
  · rintro ⟨rest, hrest, heq⟩
    exact ⟨rest, hrest, (Except.ok.inj heq).symm⟩
  · rintro ⟨rest, hrest, rfl⟩
    exact ⟨rest, hrest, rfl⟩

/-- The lines are as the reader leaves them, and the groups that spell a block spell one that can be
nested. -/
def Sound : Part → Prop
  | .line l => l.Valid ∧ Comment.OneLine l.comment
  | .nested n => ∀ b, n.block = .ok b → Block.Nestable b

theorem wellFormed_statement {l : Line} (hl : Sound (.line l)) (hitems : l.isSubstantial)
    {parts : List Part} (h : ∀ part ∈ parts, part.Sound) {shape : Shape} {statement : Statement}
    (hshape : Shape.ofItems l.items = .ok shape)
    (hstatement : Part.statement l shape (groupsAhead parts) = .ok statement) :
    statement.WellFormed ∧ statement.isRemark = false := by
  have hne : l.items ≠ [] := by simpa [Row.isSubstantial] using hitems
  obtain ⟨hvalid, hfilled⟩ := Shape.ofItems_eq_ok hl.1 hshape
  obtain ⟨nested, rfl, hnested⟩ := statement_eq_ok hstatement
  apply hvalid.wellFormed_statement (hfilled hne) hl.2
  intro hclaims
  obtain ⟨n, hn, hblock⟩ := hnested hclaims
  exact h _ (mem_of_mem_groupsAhead hn) nested hblock

theorem wellFormed_assemble {parts : List Part} (h : ∀ part ∈ parts, part.Sound) {claimed : Bool}
    {b : Block} (hb : assemble claimed parts = .ok b) : Block.WellFormed b := by
  induction parts generalizing claimed b with
  | nil =>
    cases hb
    simp [Block.WellFormed]
  | cons part parts ih =>
    have hrest : ∀ other ∈ parts, other.Sound := fun other hother => h other (by simp [hother])
    have hpart : part.Sound := h part (by simp)
    cases part with
    | nested n =>
      rw [assemble] at hb
      split at hb
      · exact ih hrest hb
      · cases hb
    | line l =>
      by_cases hitems : l.isSubstantial
      · obtain ⟨shape, statement, rest, hshape, hstatement, htail, rfl⟩ :=
          (assemble_substantial hitems).mp hb
        intro s hs
        rcases List.mem_cons.mp hs with rfl | hs
        · exact (wellFormed_statement hpart hitems hrest hshape hstatement).1
        · exact ih hrest htail s hs
      · by_cases hblank : l.isBlank
        · rw [assemble, if_pos hblank] at hb
          exact ih hrest hb
        · have hcomment : l.isComment := Row.isComment_of_not hblank hitems
          obtain ⟨rest, htail, rfl⟩ := (assemble_comment hcomment).mp hb
          have hsome := (Row.isComment_iff.mp hcomment).2
          intro s hs
          rcases List.mem_cons.mp hs with rfl | hs
          · show Statement.WellFormed (.expression (([] : List Atom).map Term.ofAtom) l.comment)
            exact .words (by simp) hpart.2 fun _ => hsome
          · exact ih hrest htail s hs

theorem nests_assemble {l : Line} (hitems : l.isSubstantial) {parts : List Part}
    (h : ∀ part ∈ .line l :: parts, part.Sound) {claimed : Bool} {b : Block}
    (hb : assemble claimed (.line l :: parts) = .ok b) : Block.Nests b := by
  obtain ⟨shape, statement, rest, hshape, hstatement, -, rfl⟩ := (assemble_substantial hitems).mp hb
  have hrest : ∀ other ∈ parts, other.Sound := fun other hother => h other (by simp [hother])
  exact ⟨statement, rest, rfl,
    (wellFormed_statement (h _ (by simp)) hitems hrest hshape hstatement).2⟩

end Part

mutual

theorem Entry.sound_part : (e : Entry) → e.Headed →
    (∀ l ∈ e.lines, l.Valid ∧ Comment.OneLine l.comment) → e.part.Sound
  | .line l, _, hlines => hlines l (by simp [Entry.lines])
  | .group entries, ⟨hstarts, hheaded⟩, hlines => by
    have hparts := Outline.sound_parts entries hheaded hlines
    -- A group starts with a line that has items, so its block does not start with a comment.
    intro b hb
    obtain ⟨l, rest, rfl, hitems⟩ := hstarts
    exact ⟨Part.nests_assemble hitems hparts hb, Part.wellFormed_assemble hparts hb⟩

theorem Outline.sound_parts : (es : List Entry) → Outline.Headed es →
    (∀ l ∈ Outline.lines es, l.Valid ∧ Comment.OneLine l.comment) →
    ∀ part ∈ Outline.parts es, part.Sound
  | [], _, _ => by simp [Outline.parts]
  | e :: es, ⟨he, hes⟩, hlines => by
    have hfirst := Entry.sound_part e he fun l hl => hlines l (by simp [Outline.lines, hl])
    have hrest := Outline.sound_parts es hes fun l hl => hlines l (by simp [Outline.lines, hl])
    intro part hpart
    rcases List.mem_cons.mp hpart with rfl | hpart
    · exact hfirst
    · exact hrest part hpart

end

/-- Whatever is read is well-formed. -/
theorem Block.wellFormed_of_parse_eq_ok {source : String} {b : Block}
    (h : Block.parse source = .ok b) : Block.WellFormed b := by
  obtain ⟨outline, hread, hblock⟩ := Except.bind_eq_ok_iff.mp h
  obtain ⟨lines, hlines, hread⟩ := Except.bind_eq_ok_iff.mp hread
  obtain ⟨hkept, hheaded⟩ := Outline.ofLines_eq_ok (Except.mapError_eq_ok_iff.mp hread)
  have hvalid := Line.readAll_eq_ok (Except.mapError_eq_ok_iff.mp hlines)
  rw [← hkept] at hvalid
  exact Part.wellFormed_assemble (Outline.sound_parts outline hheaded hvalid)
    (Except.mapError_eq_ok_iff.mp hblock)

end Stacklet

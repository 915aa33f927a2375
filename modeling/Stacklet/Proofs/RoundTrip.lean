import Stacklet.Proofs.Comments

/-!
Reading what was written. The canonical rows of a well-formed block are grouped and assembled into
that block again, whatever the choice between values on their header's line and nested ones. The
only thing lost is a carriage return at the end of a comment.
-/

namespace Stacklet

open Text

/-! The rows of well-formed statements. -/

namespace Header

/-- What a header shows on its line. -/
def items : Header → List Item
  | .assignment names => names.map (.atom ∘ .identifier) ++ [.marker .assign]
  | .method name => [.atom (.identifier name), .marker .method]

theorem items_ne_nil (header : Header) : header.items ≠ [] := by
  cases header <;> simp [items]

/-- The names that a header binds. -/
def names : Header → List String
  | .assignment names => names
  | .method name => [name]

theorem Valid.names_ne_nil {header : Header} (h : header.Valid) : header.names ≠ [] := by
  cases header with
  | assignment names => exact h.1
  | method name => simp [names]

theorem Valid.items {header : Header} (h : header.Valid) : ∀ i ∈ header.items, i.Valid := by
  intro i hi
  cases header with
  | assignment names =>
    rcases List.mem_append.mp hi with hi | hi
    · obtain ⟨name, hname, rfl⟩ := List.mem_map.mp hi
      exact h.2 name hname
    · rw [List.mem_singleton.mp hi]
      trivial
  | method name =>
    rcases List.mem_cons.mp hi with rfl | hi
    · exact h
    · rw [List.mem_singleton.mp hi]
      trivial

theorem rows_statement (header : Header) (comment : Option String) (value : Block) (level : Nat) :
    (header.statement comment value).rows level =
      match Block.inlineItems? value with
      | some items => [⟨2 * level, header.items ++ items, comment⟩]
      | none => ⟨2 * level, header.items, comment⟩ :: Block.rows (level + 1) value := by
  cases header <;> rfl

theorem inlineItems?_statement (header : Header) (value : Block) :
    (header.statement none value).inlineItems? =
      (Block.inlineItems? value).map (header.items ++ ·) := by
  cases header with
  | assignment names => simp [statement, Statement.inlineItems?, items]
  | method name => simp [statement, Statement.inlineItems?, items]

theorem inlineItems?_statement_some (header : Header) (text : String) (value : Block) :
    (header.statement (some text) value).inlineItems? = none := by
  cases header <;> rfl

end Header

namespace Term

theorem flatMap_items_words (words : List Atom) :
    (words.map Term.ofAtom).flatMap Term.items = words.map .atom := by
  induction words with
  | nil => rfl
  | cons a words ih =>
    rw [List.map_cons, List.flatMap_cons, ih]
    cases a <;> rfl

theorem isWord_ofAtom (a : Atom) : (Term.ofAtom a).isWord := by
  cases a <;> rfl

theorem isBlock_ofAtom (a : Atom) : (Term.ofAtom a).isBlock = false := by
  cases a <;> rfl

theorem lastComment_words (own : Option String) (words : List Atom) (terms : List Term) :
    lastComment own (words.map Term.ofAtom ++ terms) = lastComment own terms := by
  induction words with
  | nil => rfl
  | cons a words ih => cases a <;> exact ih

theorem nestedRows_words (level : Nat) (words : List Atom) :
    nestedRows level (words.map Term.ofAtom) = [] := by
  induction words with
  | nil => rfl
  | cons a words ih =>
    rw [List.map_cons, nestedRows, if_neg (by simp [isBlock_ofAtom]), isBlock_ofAtom]
    rfl

theorem nestedRows_block (level : Nat) (terms : List Term) (body : Block) :
    nestedRows level (terms ++ [.block body]) = Block.rows level body := by
  induction terms with
  | nil => rfl
  | cons term terms ih =>
    rw [List.cons_append, nestedRows, if_pos (by simp [isBlock]), ih]

end Term

theorem Statement.rows_words (words : List Atom) (comment : Option String) (level : Nat) :
    (Statement.expression (words.map Term.ofAtom) comment).rows level =
      [⟨2 * level, words.map .atom, comment⟩] := by
  have hcomment := Term.lastComment_words comment words []
  rw [List.append_nil] at hcomment
  rw [Statement.rows, Term.flatMap_items_words, Term.nestedRows_words, hcomment]
  rfl

theorem Statement.rows_nesting (words : List Atom) (note : Option String) (body : Block)
    (level : Nat) :
    (Statement.expression (words.map Term.ofAtom ++ ((note.map Term.comment).toList ++
        [.block body])) none).rows level =
      ⟨2 * level, words.map .atom ++ [.marker .block], note⟩ :: Block.rows (level + 1) body := by
  have hitems : ((note.map Term.comment).toList ++ [Term.block body]).flatMap Term.items =
      [.marker .block] := by
    cases note <;> rfl
  have hcomment : Term.lastComment none ((note.map Term.comment).toList ++ [Term.block body]) =
      note := by
    cases note <;> rfl
  rw [Statement.rows, List.flatMap_append, Term.flatMap_items_words, hitems, Term.lastComment_words,
    hcomment, ← List.append_assoc, Term.nestedRows_block]

/-! The shapes of their lines. -/

namespace Shape

theorem tail_words (words : List Atom) (items : List Item) {s : Shape} (h : tail items = .ok s) :
    tail (words.map .atom ++ items) = .ok { s with words := words ++ s.words } := by
  induction words with
  | nil => exact h
  | cons a words ih =>
    rw [List.map_cons, List.cons_append, tail, ih]
    rfl

theorem ofItemsFrom_words (before : List Item) (words : List Atom) (items : List Item) :
    ofItemsFrom before (words.map .atom ++ items) =
      ofItemsFrom ((words.map .atom).reverse ++ before) items := by
  induction words generalizing before with
  | nil => rfl
  | cons a words ih =>
    rw [List.map_cons, List.cons_append, ofItemsFrom, ih]
    · simp
    · simp
    · simp

theorem ofItems_words (words : List Atom) :
    ofItems (words.map .atom) = .ok ⟨[], words, false⟩ := by
  have hitems := ofItemsFrom_words [] words []
  have htail := tail_words words [] (s := ⟨[], [], false⟩) rfl
  rw [List.append_nil] at hitems
  rw [List.append_nil] at htail
  rw [ofItems, hitems, ofItemsFrom, List.append_nil, List.reverse_reverse, htail, List.append_nil]

theorem ofItems_block (words : List Atom) :
    ofItems (words.map .atom ++ [.marker .block]) = .ok ⟨[], words, true⟩ := by
  have htail := tail_words words [.marker .block] (s := ⟨[], [], true⟩) rfl
  rw [ofItems, ofItemsFrom_words, ofItemsFrom, ofItemsFrom, List.append_nil, List.reverse_cons,
    List.reverse_reverse, htail, List.append_nil]
  · simp
  · simp

theorem mapM_binding (names : List String) :
    (names.map (.atom ∘ .identifier)).mapM Header.binding = .ok names := by
  rw [Except.mapM_eq_ok_iff, List.forall₂_map_left_iff, List.forall₂_same]
  intro name _
  rfl

theorem ofItems_header {header : Header} (h : header.names ≠ []) {items : List Item} {s : Shape}
    (hs : ofItems items = .ok s) :
    ofItems (header.items ++ items) = .ok { s with headers := header :: s.headers } := by
  unfold ofItems at hs
  cases header with
  | assignment names =>
    have hassign : Header.ofAssign (names.map (.atom ∘ .identifier)) = .ok (.assignment names) := by
      obtain ⟨name, rest, rfl⟩ := List.exists_cons_of_ne_nil h
      rw [Header.ofAssign, mapM_binding]
      rfl
    have hfrom := ofItemsFrom_words [] (names.map .identifier) (.marker .assign :: items)
    rw [List.map_map, List.append_nil] at hfrom
    rw [ofItems, Header.items, List.append_assoc, List.singleton_append, hfrom, ofItemsFrom,
      List.reverse_reverse, hassign, hs]
    rfl
  | method name =>
    show ofItemsFrom [.atom (.identifier name)] (.marker .method :: items) = _
    rw [ofItemsFrom, hs]
    rfl

/-- A header in front of a value on its line. -/
theorem statement_header {s : Shape} (hblock : s.block = false) (hwords : s.words ≠ [])
    (header : Header) (comment : Option String) :
    ({ s with headers := header :: s.headers } : Shape).statement comment [] =
      header.statement comment [s.statement none []] := by
  obtain ⟨headers, words, block⟩ := s
  obtain ⟨a, words, rfl⟩ := List.exists_cons_of_ne_nil hwords
  obtain rfl : block = false := hblock
  cases headers <;> rfl

end Shape

/-- The items of a line that spells the statement without a group. -/
def Statement.Inline (s : Statement) (items : List Item) : Prop :=
  (∀ i ∈ items, i.Valid) ∧ ∃ shape, Shape.ofItems items = .ok shape ∧ shape.block = false ∧
    shape.words ≠ [] ∧ shape.statement none [] = s

theorem Block.inlineItems?_eq_some {b : Block} {items : List Item}
    (h : Block.inlineItems? b = some items) : ∃ s, b = [s] ∧ s.inlineItems? = some items := by
  match b with
  | [] => simp [Block.inlineItems?] at h
  | [s] => exact ⟨s, rfl, h⟩
  | _ :: _ :: _ => simp [Block.inlineItems?] at h

theorem Statement.Inline.header {s : Statement} {items : List Item} (h : s.Inline items)
    {header : Header} (hvalid : header.Valid) :
    (header.statement none [s]).Inline (header.items ++ items) := by
  obtain ⟨hitems, shape, hshape, hblock, hwords, hs⟩ := h
  refine ⟨?_, { shape with headers := header :: shape.headers },
    Shape.ofItems_header hvalid.names_ne_nil hshape, hblock, hwords, ?_⟩
  · intro i hi
    rcases List.mem_append.mp hi with hi | hi
    · exact hvalid.items i hi
    · exact hitems i hi
  · rw [Shape.statement_header hblock hwords, hs]

theorem Header.Valid.inline_statement {header : Header} (hvalid : header.Valid) {value : Block}
    {comment : Option String} {items : List Item}
    (ih : ∀ s ∈ value, ∀ {items : List Item}, s.inlineItems? = some items → s.Inline items)
    (h : (header.statement comment value).inlineItems? = some items) :
    (header.statement comment value).Inline items := by
  cases comment with
  | some text => rw [header.inlineItems?_statement_some] at h; cases h
  | none =>
    rw [header.inlineItems?_statement] at h
    obtain ⟨inner, hinner, rfl⟩ := Option.map_eq_some_iff.mp h
    obtain ⟨s, rfl, hs⟩ := Block.inlineItems?_eq_some hinner
    exact (ih s (by simp) hs).header hvalid

/-- What is written on its header's line can be read there. -/
theorem Statement.WellFormed.inline {s : Statement} (h : s.WellFormed) {items : List Item}
    (hitems : s.inlineItems? = some items) : s.Inline items := by
  induction h generalizing items with
  | @words words comment valid oneLine filled =>
    cases comment with
    | some text => simp [Statement.inlineItems?] at hitems
    | none =>
      have hall : (words.map Term.ofAtom).all Term.isWord := by simp [Term.isWord_ofAtom]
      rw [Statement.inlineItems?, if_pos hall, Term.flatMap_items_words] at hitems
      cases hitems
      refine ⟨?_, ⟨[], words, false⟩, Shape.ofItems_words words, rfl, ?_, ?_⟩
      · intro i hi
        obtain ⟨a, ha, rfl⟩ := List.mem_map.mp hi
        exact valid a ha
      · intro hnil
        exact absurd (filled hnil) (by decide)
      · simp [Shape.statement, Shape.terms]
  | nesting => simp [Statement.inlineItems?, Term.isWord] at hitems
  | @assignment names value comment ne_nil valid oneLine nests inner ih =>
    have hvalid : Header.Valid (.assignment names) := ⟨ne_nil, valid⟩
    exact hvalid.inline_statement ih hitems
  | @method name body comment valid oneLine nests inner ih =>
    have hvalid : Header.Valid (.method name) := valid
    exact hvalid.inline_statement ih hitems

/-! Rows can be written. -/

/-- A row that can be written on a line of its own. -/
def Row.Writable (r : Row) : Prop := r.Valid ∧ Comment.OneLine r.comment

theorem Block.rows_writable {b : Block} {level : Nat}
    (h : ∀ s ∈ b, ∀ r ∈ s.rows level, r.Writable) : ∀ r ∈ Block.rows level b, r.Writable := by
  induction b with
  | nil => simp [Block.rows]
  | cons s b ih =>
    intro r hr
    rcases List.mem_append.mp hr with hr | hr
    · exact h s (by simp) r hr
    · exact ih (fun t ht => h t (by simp [ht])) r hr

theorem Header.Valid.rows_writable {header : Header} (h : header.Valid) {comment : Option String}
    (hcomment : Comment.OneLine comment) {value : Block} (hvalue : Block.WellFormed value)
    {level : Nat} (ih : ∀ s ∈ value, ∀ r ∈ s.rows (level + 1), r.Writable) :
    ∀ r ∈ (header.statement comment value).rows level, r.Writable := by
  intro r hr
  rw [header.rows_statement] at hr
  split at hr
  · rename_i items hitems
    obtain ⟨s, rfl, hs⟩ := Block.inlineItems?_eq_some hitems
    rw [List.mem_singleton.mp hr]
    refine ⟨?_, hcomment⟩
    intro i hi
    rcases List.mem_append.mp hi with hi | hi
    · exact h.items i hi
    · exact ((hvalue s (by simp)).inline hs).1 i hi
  · rcases List.mem_cons.mp hr with rfl | hr
    · exact ⟨h.items, hcomment⟩
    · exact Block.rows_writable ih r hr

theorem Statement.WellFormed.rows_writable {s : Statement} (h : s.WellFormed) (level : Nat) :
    ∀ r ∈ s.rows level, r.Writable := by
  induction h generalizing level with
  | @words words comment valid oneLine filled =>
    intro r hr
    rw [Statement.rows_words, List.mem_singleton] at hr
    subst hr
    refine ⟨?_, oneLine⟩
    intro i hi
    obtain ⟨a, ha, rfl⟩ := List.mem_map.mp hi
    exact valid a ha
  | @nesting words note body valid oneLine nests inner ih =>
    intro r hr
    rw [Statement.rows_nesting, List.mem_cons] at hr
    rcases hr with rfl | hr
    · refine ⟨?_, oneLine⟩
      intro i hi
      rcases List.mem_append.mp hi with hi | hi
      · obtain ⟨a, ha, rfl⟩ := List.mem_map.mp hi
        exact valid a ha
      · rw [List.mem_singleton.mp hi]
        trivial
    · exact Block.rows_writable (fun t ht => ih t ht (level + 1)) r hr
  | @assignment names value comment ne_nil valid oneLine nests inner ih =>
    have hvalid : Header.Valid (.assignment names) := ⟨ne_nil, valid⟩
    exact hvalid.rows_writable oneLine inner fun t ht => ih t ht (level + 1)
  | @method name body comment valid oneLine nests inner ih =>
    have hvalid : Header.Valid (.method name) := valid
    exact hvalid.rows_writable oneLine inner fun t ht => ih t ht (level + 1)

theorem Header.rows_head (header : Header) (comment : Option String) (value : Block) (level : Nat) :
    ∃ r rows, (header.statement comment value).rows level = r :: rows ∧ r.isSubstantial ∧
      r.indent = 2 * level := by
  rw [header.rows_statement]
  split
  · exact ⟨_, [], rfl, by simp [Row.isSubstantial, header.items_ne_nil], rfl⟩
  · exact ⟨_, _, rfl, by simp [Row.isSubstantial, header.items_ne_nil], rfl⟩

theorem Statement.WellFormed.rows_head {s : Statement} (h : s.WellFormed)
    (hremark : s.isRemark = false) (level : Nat) :
    ∃ r rows, s.rows level = r :: rows ∧ r.isSubstantial ∧ r.indent = 2 * level := by
  cases h with
  | @words words comment valid oneLine filled =>
    have hne : words ≠ [] := by
      rintro rfl
      simp [Statement.isRemark] at hremark
    exact ⟨_, [], Statement.rows_words _ _ _, by simp [Row.isSubstantial, hne], rfl⟩
  | nesting valid oneLine nests inner =>
    exact ⟨_, _, Statement.rows_nesting _ _ _ _, by simp [Row.isSubstantial], rfl⟩
  | @assignment names value comment ne_nil valid oneLine nests inner =>
    exact Header.rows_head (.assignment names) comment value level
  | @method name body comment valid oneLine nests inner =>
    exact Header.rows_head (.method name) comment body level

theorem Block.Nestable.rows_head {b : Block} (h : Block.Nestable b) (level : Nat) :
    ∃ r rows, Block.rows level b = r :: rows ∧ r.isSubstantial ∧ r.indent = 2 * level := by
  obtain ⟨s, rest, rfl, hs⟩ := h.nests
  obtain ⟨r, rows, hrows, hr⟩ := (h.wellFormed s (by simp)).rows_head hs level
  exact ⟨r, rows ++ Block.rows level rest, by rw [Block.rows, hrows]; rfl, hr⟩

/-! Rows are grouped and assembled into what they came from. -/

/-- Before anything that claims no group, the entries spell the block. -/
def Outline.Spells (es : List Entry) (b : Block) : Prop :=
  ∀ parts rest, Part.groupsAhead parts = [] →
    (∀ claimed, Part.assemble claimed parts = .ok rest) →
    Part.groupsAhead (Outline.parts es ++ parts) = [] ∧
      ∀ claimed, Part.assemble claimed (Outline.parts es ++ parts) = .ok (b ++ rest)

namespace Outline

theorem parts_append (es fs : List Entry) :
    Outline.parts (es ++ fs) = Outline.parts es ++ Outline.parts fs := by
  induction es with
  | nil => rfl
  | cons e es ih => rw [List.cons_append, Outline.parts, Outline.parts, ih, List.cons_append]

theorem Spells.nil : Spells [] [] := fun _ _ hahead hrest => ⟨hahead, hrest⟩

theorem Spells.append {es fs : List Entry} {b c : Block} (hes : Spells es b) (hfs : Spells fs c) :
    Spells (es ++ fs) (b ++ c) := by
  intro parts rest hahead hrest
  obtain ⟨hahead', hrest'⟩ := hfs parts rest hahead hrest
  rw [parts_append, List.append_assoc, List.append_assoc]
  exact hes _ _ hahead' hrest'

theorem Spells.block {es : List Entry} {b : Block} (h : Spells es b) :
    Outline.block es = .ok b := by
  obtain ⟨-, hb⟩ := h [] [] rfl fun _ => rfl
  simpa [Outline.block] using hb false

theorem Spells.remark {l : Line} (h : l.isComment) :
    Spells [.line l] [.expression [] l.comment] := by
  have hempty := (Row.isComment_iff.mp h).1
  intro parts rest hahead hrest
  constructor
  · show Part.groupsAhead (.line l :: parts) = []
    rw [Part.groupsAhead, if_neg (by simp [Row.isSubstantial, hempty]), hahead]
  · intro claimed
    exact (Part.assemble_comment h).mpr ⟨rest, hrest claimed, rfl⟩

theorem Spells.line {l : Line} {shape : Shape} (hitems : l.isSubstantial)
    (hshape : Shape.ofItems l.items = .ok shape) (hclaims : shape.claims = false) :
    Spells [.line l] [shape.statement l.comment []] := by
  intro parts rest hahead hrest
  constructor
  · show Part.groupsAhead (.line l :: parts) = []
    rw [Part.groupsAhead, if_pos hitems]
  · intro claimed
    have hstatement : Part.statement l shape (Part.groupsAhead parts) =
        .ok (shape.statement l.comment []) := by
      rw [hahead, Part.statement_of_not_claims hclaims, if_neg (by simp)]
    exact (Part.assemble_substantial hitems).mpr
      ⟨shape, _, rest, hshape, hstatement, hrest _, rfl⟩

theorem Spells.nested {l : Line} {shape : Shape} (hitems : l.isSubstantial)
    (hshape : Shape.ofItems l.items = .ok shape) (hclaims : shape.claims) {es : List Entry}
    {body : Block} (hbody : Spells es body) :
    Spells [.line l, .group es] [shape.statement l.comment body] := by
  intro parts rest hahead hrest
  let group : Nested := ⟨Outline.firstLine es, Outline.block es⟩
  constructor
  · show Part.groupsAhead (.line l :: .nested group :: parts) = []
    rw [Part.groupsAhead, if_pos hitems]
  · intro claimed
    have hstatement : Part.statement l shape (Part.groupsAhead (.nested group :: parts)) =
        .ok (shape.statement l.comment body) := by
      rw [Part.groupsAhead, hahead, Part.statement_of_claims hclaims,
        show group.block = .ok body from hbody.block]
      exact if_neg (by simp)
    -- The group has been claimed, so it is passed over where it stands.
    have htail : Part.assemble shape.claims (.nested group :: parts) = .ok rest := by
      rw [Part.assemble, if_pos hclaims, hrest]
    exact (Part.assemble_substantial hitems).mpr
      ⟨shape, _, rest, hshape, hstatement, htail, rfl⟩

end Outline

/-- However they are numbered, lines with the rows are grouped and assembled into the block. -/
def Block.ReadsFrom (level : Nat) (rows : List Row) (b : Block) : Prop :=
  ∀ ls : List Line, ls.map Line.toRow = rows →
    ∃ es, Outline.Takes level ls es ∧ Outline.Spells es b

theorem Block.ReadsFrom.append {level : Nat} {rows rows' : List Row} {b c : Block}
    (hb : ReadsFrom level rows b) (hc : ReadsFrom level rows' c) :
    ReadsFrom level (rows ++ rows') (b ++ c) := by
  intro ls hls
  obtain ⟨ls₁, ls₂, rfl, h₁, h₂⟩ := List.map_eq_append_iff.mp hls
  obtain ⟨es, htakes, hspells⟩ := hb ls₁ h₁
  obtain ⟨fs, htakes', hspells'⟩ := hc ls₂ h₂
  exact ⟨es ++ fs, htakes.append htakes', hspells.append hspells'⟩

theorem Block.readsFrom_rows {b : Block} {level : Nat}
    (h : ∀ s ∈ b, ReadsFrom level (s.rows level) [s]) : ReadsFrom level (Block.rows level b) b := by
  induction b with
  | nil =>
    intro ls hls
    obtain rfl : ls = [] := List.map_eq_nil_iff.mp hls
    exact ⟨[], .nil level, .nil⟩
  | cons s b ih => exact (h s (by simp)).append (ih fun t ht => h t (by simp [ht]))

theorem Block.readsFrom_remark {level : Nat} {comment : Option String} (h : comment.isSome) :
    ReadsFrom level [⟨2 * level, [], comment⟩] [.expression [] comment] := by
  intro ls hls
  obtain ⟨l, rfl, hl⟩ := List.map_eq_singleton_iff.mp hls
  obtain ⟨row, number⟩ := l
  obtain rfl : row = ⟨2 * level, [], comment⟩ := hl
  have hcomment : Row.isComment ⟨2 * level, [], comment⟩ := Row.isComment_iff.mpr ⟨rfl, h⟩
  exact ⟨_, .line (Row.isBlank_of_isComment hcomment) rfl, .remark hcomment⟩

theorem Block.readsFrom_line {level : Nat} {items : List Item} {comment : Option String}
    {shape : Shape} (hne : items ≠ []) (hshape : Shape.ofItems items = .ok shape)
    (hclaims : shape.claims = false) :
    ReadsFrom level [⟨2 * level, items, comment⟩] [shape.statement comment []] := by
  intro ls hls
  obtain ⟨l, rfl, hl⟩ := List.map_eq_singleton_iff.mp hls
  obtain ⟨row, number⟩ := l
  obtain rfl : row = ⟨2 * level, items, comment⟩ := hl
  have hitems : Row.isSubstantial ⟨2 * level, items, comment⟩ := by simp [Row.isSubstantial, hne]
  exact ⟨_, .line (Row.isBlank_of_isSubstantial hitems) rfl, .line hitems hshape hclaims⟩

theorem Block.readsFrom_nested {level : Nat} {items : List Item} {comment : Option String}
    {shape : Shape} (hne : items ≠ []) (hshape : Shape.ofItems items = .ok shape)
    (hclaims : shape.claims) {body : Block} (hbody : Block.Nestable body)
    (ih : ReadsFrom (level + 1) (Block.rows (level + 1) body) body) :
    ReadsFrom level (⟨2 * level, items, comment⟩ :: Block.rows (level + 1) body)
      [shape.statement comment body] := by
  intro ls hls
  obtain ⟨l, ls, rfl, hl, hrest⟩ := List.map_eq_cons_iff.mp hls
  obtain ⟨row, number⟩ := l
  obtain rfl : row = ⟨2 * level, items, comment⟩ := hl
  obtain ⟨es, htakes, hspells⟩ := ih ls hrest
  obtain ⟨r, rows, hrows, hr, hindent⟩ := hbody.rows_head (level + 1)
  obtain ⟨first, rest, rfl, rfl, -⟩ := List.map_eq_cons_iff.mp (hrest.trans hrows)
  have hitems : Row.isSubstantial ⟨2 * level, items, comment⟩ := by simp [Row.isSubstantial, hne]
  exact ⟨_, .nested (Row.isBlank_of_isSubstantial hitems) rfl hr hindent htakes,
    .nested hitems hshape hclaims hspells⟩

theorem Header.Valid.readsFrom_rows {header : Header} (h : header.Valid) (comment : Option String)
    {value : Block} (hvalue : Block.Nestable value) {level : Nat}
    (ih : ∀ s ∈ value, Block.ReadsFrom (level + 1) (s.rows (level + 1)) [s]) :
    Block.ReadsFrom level ((header.statement comment value).rows level)
      [header.statement comment value] := by
  rw [header.rows_statement]
  split
  -- The value is on the header's line, and no group may follow.
  · rename_i items hitems
    obtain ⟨s, rfl, hs⟩ := Block.inlineItems?_eq_some hitems
    obtain ⟨-, shape, hshape, hblock, hwords, hstatement⟩ :=
      (hvalue.wellFormed s (by simp)).inline hs
    have hline : (header.statement comment [s]) =
        ({ shape with headers := header :: shape.headers } : Shape).statement comment [] := by
      rw [Shape.statement_header hblock hwords, hstatement]
    rw [hline]
    apply Block.readsFrom_line _ (Shape.ofItems_header h.names_ne_nil hshape)
    · simp [Shape.claims, hblock, hwords]
    · simp [header.items_ne_nil]
  -- The value is nested, and the header alone claims its group.
  · have hshape : Shape.ofItems (header.items ++ []) = .ok ⟨[header], [], false⟩ :=
      Shape.ofItems_header h.names_ne_nil (s := ⟨[], [], false⟩) rfl
    rw [List.append_nil] at hshape
    exact Block.readsFrom_nested header.items_ne_nil hshape rfl hvalue (Block.readsFrom_rows ih)

/-- The rows of a well-formed statement, at any level, are read as that statement. -/
theorem Statement.WellFormed.readsFrom_rows {s : Statement} (h : s.WellFormed) (level : Nat) :
    Block.ReadsFrom level (s.rows level) [s] := by
  -- The level grows with the nesting, so the induction is for all levels at once.
  induction h generalizing level with
  | @words words comment valid oneLine filled =>
    rw [Statement.rows_words]
    by_cases hnil : words = []
    · subst hnil
      exact Block.readsFrom_remark (filled rfl)
    · have hread : Block.ReadsFrom level [⟨2 * level, words.map .atom, comment⟩]
          [(⟨[], words, false⟩ : Shape).statement comment []] :=
        Block.readsFrom_line (by simpa using hnil) (Shape.ofItems_words words)
          (by simp [Shape.claims])
      simpa [Shape.statement, Shape.terms] using hread
  | @nesting words note body valid oneLine nests inner ih =>
    rw [Statement.rows_nesting]
    exact Block.readsFrom_nested (by simp) (Shape.ofItems_block words) rfl ⟨nests, inner⟩
      (Block.readsFrom_rows fun t ht => ih t ht (level + 1))
  | @assignment names value comment ne_nil valid oneLine nests inner ih =>
    have hvalid : Header.Valid (.assignment names) := ⟨ne_nil, valid⟩
    exact hvalid.readsFrom_rows comment ⟨nests, inner⟩ fun t ht => ih t ht (level + 1)
  | @method name body comment valid oneLine nests inner ih =>
    have hvalid : Header.Valid (.method name) := valid
    exact hvalid.readsFrom_rows comment ⟨nests, inner⟩ fun t ht => ih t ht (level + 1)

/-- The canonical text of a well-formed block is read as the block, but for carriage returns at the
ends of comments. -/
theorem Block.WellFormed.parse_render_eq {b : Block} (h : Block.WellFormed b) :
    Block.parse b.render = .ok (Block.mapComments chomp b) := by
  have hwritable : ∀ r ∈ Block.rows 0 b, r.Writable :=
    Block.rows_writable fun s hs => (h s hs).rows_writable 0
  obtain ⟨ls, hread, hrows⟩ :=
    Line.readAll_join (fun r hr => (hwritable r hr).1) fun r hr => (hwritable r hr).2
  -- The lines have the rows of a block with shorter comments, and it is this block they spell.
  have hchomp : Block.WellFormed (Block.mapComments chomp b) :=
    Block.wellFormed_mapComments fun s hs =>
      (h s hs).mapComments fun text htext => Text.not_mem_chomp htext
  rw [← Block.rows_mapComments] at hrows
  obtain ⟨es, htakes, hspells⟩ :=
    Block.readsFrom_rows (fun s hs => (hchomp s hs).readsFrom_rows 0) ls hrows
  have houtline : Outline.read b.render = .ok es := by
    apply Except.bind_eq_ok_iff.mpr
    exact ⟨ls, Except.mapError_eq_ok_iff.mpr hread, Except.mapError_eq_ok_iff.mpr htakes.ofLines⟩
  apply Except.bind_eq_ok_iff.mpr
  exact ⟨es, houtline, Except.mapError_eq_ok_iff.mpr hspells.block⟩

/-- A program that was read is read again from its canonical text, with one carriage return less at
the end of each comment that ends in one. So it is read unchanged if and only if no comment does. -/
theorem Block.parse_render {source : String} {b : Block} (h : Block.parse source = .ok b) :
    Block.parse b.render = .ok (Block.mapComments chomp b) ∧
      (Block.parse b.render = .ok b ↔
        ∀ text ∈ Block.comments b, text.toList.getLast? ≠ some '\r') := by
  have hread := (Block.wellFormed_of_parse_eq_ok h).parse_render_eq
  refine ⟨hread, ?_⟩
  rw [hread, Except.ok.injEq, Block.mapComments_eq_self_iff]
  simp only [Text.chomp_eq_self_iff]

/-- A method whose comment ends in a carriage return. -/
def Block.returned : Block :=
  [.method "m"
    [.assignment ["x"] [.expression [.identifier "y"] none] none,
      .expression [.identifier "z", .block [.expression [.identifier "u"] (some "v")]] none]
    (some "w\r")]

theorem Block.returned_changed :
    Block.parse "m >> --w\r\r\n  x = y\n\n  z :\n    u --v" = .ok returned ∧
      Block.parse (Block.render returned) = .ok (Block.mapComments chomp returned) ∧
      Block.parse (Block.render returned) ≠ .ok returned := by
  have hread : Block.parse "m >> --w\r\r\n  x = y\n\n  z :\n    u --v" = .ok returned := by
    decide +kernel
  obtain ⟨hchomp, hsame⟩ := Block.parse_render hread
  refine ⟨hread, hchomp, ?_⟩
  intro h
  have hmem : "w\r" ∈ Block.comments returned := by decide
  exact hsame.mp h "w\r" hmem (by decide)

end Stacklet

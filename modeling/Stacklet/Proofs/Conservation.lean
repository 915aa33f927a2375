import Stacklet.Proofs.Grammar

/-!
What building keeps. A block has the atoms that stand on the lines of its outline, in their order,
and it has their comments, each once, though a comment that stands before a group may come after the
statement that takes the group.
-/

namespace Stacklet

/-! Atoms and comments. -/

def Item.atom? : Item → Option Atom
  | .atom a => some a
  | .marker _ => none

def Row.atoms (r : Row) : List Atom := r.items.filterMap Item.atom?

/-- The atoms on the lines of an outline, in order. -/
def Outline.atoms (o : Outline) : List Atom := (Outline.lines o).flatMap (·.atoms)

def Outline.comments (o : Outline) : List String := (Outline.lines o).filterMap (·.comment)

mutual

def Term.atoms : Term → List Atom
  | .number n => [.number n]
  | .identifier name => [.identifier name]
  | .comment _ => []
  | .block body => Block.atoms body

def Term.atomsAll : List Term → List Atom
  | [] => []
  | term :: terms => term.atoms ++ Term.atomsAll terms

def Statement.atoms : Statement → List Atom
  | .expression terms _ => Term.atomsAll terms
  | .assignment names value _ => names.map .identifier ++ Block.atoms value
  | .method name body _ => .identifier name :: Block.atoms body

/-- The names that are bound, the numbers and the identifiers, those of nested blocks included. -/
def Block.atoms : List Statement → List Atom
  | [] => []
  | s :: statements => s.atoms ++ Block.atoms statements

end

theorem Block.atoms_append (b c : Block) :
    Block.atoms (b ++ c) = Block.atoms b ++ Block.atoms c := by
  induction b with
  | nil => rfl
  | cons s b ih => rw [List.cons_append, Block.atoms, Block.atoms, ih, List.append_assoc]

theorem Block.comments_append (b c : Block) :
    Block.comments (b ++ c) = Block.comments b ++ Block.comments c := by
  induction b with
  | nil => rfl
  | cons s b ih => rw [List.cons_append, Block.comments, Block.comments, ih, List.append_assoc]

/-! The statement of a line. -/

namespace Term

theorem atomsAll_words (words : List Atom) (terms : List Term) :
    atomsAll (words.map Term.ofAtom ++ terms) = words ++ atomsAll terms := by
  induction words with
  | nil => rfl
  | cons a words ih => cases a <;> simp [atomsAll, Term.ofAtom, Term.atoms, ih]

theorem commentsAll_words (words : List Atom) (terms : List Term) :
    commentsAll (words.map Term.ofAtom ++ terms) = commentsAll terms := by
  induction words with
  | nil => rfl
  | cons a words ih => cases a <;> simp [commentsAll, Term.ofAtom, Term.comments, ih]

end Term

namespace Header

def atoms (header : Header) : List Atom := header.names.map .identifier

theorem filterMap_items (header : Header) : header.items.filterMap Item.atom? = header.atoms := by
  have hnames (names : List String) :
      (names.map (Item.atom ∘ Atom.identifier)).filterMap Item.atom? = names.map .identifier := by
    simp [List.filterMap_map, Function.comp_def, Item.atom?]
  cases header with
  | assignment names =>
    rw [items, List.filterMap_append, hnames]
    simp [Item.atom?, atoms, Header.names]
  | method name => rfl

theorem atoms_statement (header : Header) (comment : Option String) (value : Block) :
    (header.statement comment value).atoms = header.atoms ++ Block.atoms value := by
  cases header <;> rfl

theorem comments_statement (header : Header) (comment : Option String) (value : Block) :
    (header.statement comment value).comments = Block.comments value ++ comment.toList := by
  cases header <;> rfl

theorem atoms_foldr (headers : List Header) (value : Block) :
    Block.atoms (headers.foldr (fun h value => [h.statement none value]) value) =
      headers.flatMap atoms ++ Block.atoms value := by
  induction headers with
  | nil => rfl
  | cons header headers ih =>
    rw [List.foldr_cons, Block.atoms, Block.atoms, header.atoms_statement, ih]
    simp

theorem comments_foldr (headers : List Header) (value : Block) :
    Block.comments (headers.foldr (fun h value => [h.statement none value]) value) =
      Block.comments value := by
  induction headers with
  | nil => rfl
  | cons header headers ih =>
    rw [List.foldr_cons, Block.comments, Block.comments, header.comments_statement, ih]
    simp

end Header

namespace Shape

variable {s : Shape} {nested : Block}

theorem filterMap_items (s : Shape) :
    s.items.filterMap Item.atom? = s.headers.flatMap Header.atoms ++ s.words := by
  have hheaders : (s.headers.flatMap Header.items).filterMap Item.atom? =
      s.headers.flatMap Header.atoms := by
    rw [List.filterMap_flatMap]
    exact congrArg s.headers.flatMap (funext Header.filterMap_items)
  have hwords : (s.words.map Item.atom).filterMap Item.atom? = s.words := by
    simp [List.filterMap_map, Function.comp_def, Item.atom?]
  rw [items, List.filterMap_append, List.filterMap_append, hheaders, hwords]
  cases s.block <;> simp [Item.atom?]

/-- A line that has something after its headers, or no headers, takes a group only for a `:`. -/
theorem claims_eq_block (h : s.headers = [] ∨ s.hasTail) : s.claims = s.block := by
  unfold claims
  cases hblock : s.block with
  | true => rfl
  | false =>
    rcases h with hheaders | htail
    · simp [hheaders]
    · have hwords : s.words ≠ [] := by simpa [hasTail, hblock] using htail
      simp [hwords]

theorem atomsAll_terms (hnested : s.block = false → nested = []) (comment : Option String) :
    Term.atomsAll (s.terms comment nested) = s.words ++ Block.atoms nested := by
  rw [terms, Term.atomsAll_words]
  cases hblock : s.block with
  | true => cases comment <;> simp [Term.atomsAll, Term.atoms]
  | false =>
    rw [hnested hblock]
    rfl

/-- The comment stands before the block of a `:`, and else it is left for the statement. -/
theorem commentsAll_terms (hnested : s.block = false → nested = []) (comment : Option String) :
    Term.commentsAll (s.terms comment nested) ++ (if s.block then none else comment).toList =
      comment.toList ++ Block.comments nested := by
  rw [terms, Term.commentsAll_words]
  cases hblock : s.block with
  | true => cases comment <;> simp [Term.commentsAll, Term.comments]
  | false =>
    rw [hnested hblock]
    simp [Term.commentsAll, Block.comments]

/-- The statement of a line has the atoms of the line and then those of the block it takes. -/
theorem atoms_statement (hnested : s.claims = false → nested = []) (comment : Option String) :
    (s.statement comment nested).atoms = s.items.filterMap Item.atom? ++ Block.atoms nested := by
  rw [filterMap_items, statement]
  cases hheaders : s.headers with
  | nil =>
    rw [claims_eq_block (.inl hheaders)] at hnested
    rw [Statement.atoms, atomsAll_terms hnested]
    rfl
  | cons header headers =>
    rw [header.atoms_statement, Header.atoms_foldr]
    by_cases htail : s.hasTail
    · rw [claims_eq_block (.inr htail)] at hnested
      rw [if_pos htail, Block.atoms, Statement.atoms, atomsAll_terms hnested]
      simp [Block.atoms]
    · have hwords : s.words = [] := by simp_all [hasTail]
      rw [if_neg htail, hwords]
      simp

theorem comments_statement (hnested : s.claims = false → nested = []) (comment : Option String) :
    (s.statement comment nested).comments.Perm (comment.toList ++ Block.comments nested) := by
  rw [statement]
  cases hheaders : s.headers with
  | nil =>
    rw [claims_eq_block (.inl hheaders)] at hnested
    rw [Statement.comments, commentsAll_terms hnested]
  | cons header headers =>
    rw [header.comments_statement, Header.comments_foldr]
    by_cases htail : s.hasTail
    · rw [claims_eq_block (.inr htail)] at hnested
      rw [if_pos htail, ← commentsAll_terms hnested]
      simp [Block.comments, Statement.comments]
    · have hblock : s.block = false := by simp_all [hasTail]
      rw [if_neg htail, hblock]
      exact List.perm_append_comm

end Shape

/-! The block of an outline. -/

namespace Outline

/-- The block has the atoms of the outline in their order, and its comments in some order. -/
structure ConservedIn (o : Outline) (b : Block) : Prop where
  atoms : Block.atoms b = Outline.atoms o
  comments : (Block.comments b).Perm (Outline.comments o)

variable {es g : List Entry} {l : Line} {b nested : Block}

theorem atoms_line : Outline.atoms (.line l :: es) = l.atoms ++ Outline.atoms es := rfl

theorem atoms_group : Outline.atoms (.group g :: es) = Outline.atoms g ++ Outline.atoms es := by
  simp [Outline.atoms, Outline.lines, Entry.lines]

theorem comments_line :
    Outline.comments (.line l :: es) = l.comment.toList ++ Outline.comments es := by
  cases h : l.comment <;> simp [Outline.comments, Outline.lines, Entry.lines, h]

theorem comments_group :
    Outline.comments (.group g :: es) = Outline.comments g ++ Outline.comments es := by
  simp [Outline.comments, Outline.lines, Entry.lines]

theorem ConservedIn.group (hg : ConservedIn g nested) (hes : ConservedIn es b) :
    ConservedIn (.group g :: es) (nested ++ b) := by
  constructor
  · rw [Block.atoms_append, hg.atoms, hes.atoms, atoms_group]
  · rw [Block.comments_append, comments_group]
    exact hg.comments.append hes.comments

theorem ConservedIn.blank (h : l.isBlank) (hes : ConservedIn es b) :
    ConservedIn (.line l :: es) b := by
  obtain ⟨hitems, hcomment⟩ : l.items = [] ∧ l.comment = none := by
    simpa [Row.isBlank] using h
  constructor
  · rw [hes.atoms, atoms_line, Row.atoms, hitems]
    rfl
  · rw [comments_line, hcomment]
    exact hes.comments

/-- A comment may be put behind any block that is taken. -/
theorem ConservedIn.remark (h : l.isComment) (hes : ConservedIn es (nested ++ b)) :
    ConservedIn (.line l :: es) (nested ++ .expression [] l.comment :: b) := by
  have hitems : l.items = [] := (Row.isComment_iff.mp h).1
  constructor
  · rw [atoms_line, Row.atoms, hitems, ← hes.atoms, Block.atoms_append, Block.atoms_append]
    rfl
  · have hmoved : (Block.comments (nested ++ .expression [] l.comment :: b)).Perm
        (l.comment.toList ++ Block.comments (nested ++ b)) := by
      rw [Block.comments_append, Block.comments_append]
      exact List.perm_append_comm_assoc ..
    rw [comments_line]
    exact hmoved.trans (hes.comments.append_left _)

theorem ConservedIn.line {s : Shape} (hs : Shape.ofItems l.items = .ok s)
    (hnested : s.claims = false → nested = []) (hes : ConservedIn es (nested ++ b)) :
    ConservedIn (.line l :: es) (s.statement l.comment nested :: b) := by
  obtain ⟨hitems, -⟩ := Shape.ofItems_eq_ok_iff.mp hs
  constructor
  · rw [Block.atoms, Shape.atoms_statement hnested, List.append_assoc, ← Block.atoms_append,
      hes.atoms, atoms_line, Row.atoms, hitems]
  · rw [Block.comments, comments_line]
    have hstatement := (Shape.comments_statement hnested l.comment).append_right (Block.comments b)
    rw [List.append_assoc, ← Block.comments_append] at hstatement
    exact hstatement.trans (hes.comments.append_left _)

end Outline

namespace Part

/-- What is taken from the groups ahead: the block of the first one if it is claimed, else
nothing. -/
inductive Takes (ahead : List Nested) : Bool → Block → Prop where
  | group {n : Nested} {left : List Nested} {nested : Block} :
      ahead = n :: left → n.block = .ok nested → Takes ahead true nested
  | nothing : Takes ahead false []

theorem Takes.eq_nil {ahead : List Nested} {claimed : Bool} {nested : Block}
    (h : Takes ahead claimed nested) (hclaimed : claimed = false) : nested = [] := by
  cases h with
  | group => cases hclaimed
  | nothing => rfl

/-- Where no group is ahead, nothing is taken. -/
theorem Takes.eq_nil_of_nil {claimed : Bool} {nested : Block} (h : Takes [] claimed nested) :
    nested = [] := by
  cases h with
  | group hahead => cases hahead
  | nothing => rfl

theorem takes_of_statement_eq_ok {l : Line} {s : Shape} {ahead : List Nested}
    {statement : Statement} (h : Part.statement l s ahead = .ok statement) :
    ∃ nested, statement = s.statement l.comment nested ∧ Takes ahead s.claims nested := by
  obtain ⟨nested, left, rfl, -, ⟨hclaims, n, hahead, hn⟩ | ⟨hclaims, -, rfl⟩⟩ :=
    statement_eq_ok_iff.mp h
  · rw [hclaims]
    exact ⟨nested, rfl, .group hahead hn⟩
  · rw [Bool.not_eq_true] at hclaims
    rw [hclaims]
    exact ⟨[], rfl, .nothing⟩

end Part

namespace Outline

variable {es : List Entry} {b nested : Block}

/-- A line that claims a group has its block already, so where one is still to come, the block
counts with the statements that follow. -/
theorem conservedIn_assemble
    (hgroups : ∀ g, .group g ∈ es → ∀ c, Outline.block g = .ok c → ConservedIn g c)
    {claimed : Bool} (hb : Part.assemble claimed (parts es) = .ok b)
    (htaken : Part.Takes (Part.groupsAhead (parts es)) claimed nested) :
    ConservedIn es (nested ++ b) := by
  induction es generalizing claimed nested b with
  | nil =>
    cases hb
    rw [htaken.eq_nil_of_nil]
    exact ⟨rfl, .nil⟩
  | cons e es ih =>
    have hinner : ∀ g, .group g ∈ es → ∀ c, Outline.block g = .ok c → ConservedIn g c :=
      fun g hg => hgroups g (List.mem_cons_of_mem _ hg)
    cases e with
    | group g =>
      rw [parts, Entry.part, Part.assemble] at hb
      cases htaken with
      | group hahead hn =>
        obtain ⟨rfl, -⟩ := List.cons.inj hahead
        exact .group (hgroups g (List.mem_cons_self ..) nested hn) (ih hinner hb .nothing)
      | nothing => cases hb
    | line l =>
      rw [parts, Entry.part] at hb
      rw [parts, Entry.part, Part.groupsAhead] at htaken
      by_cases hitems : l.isSubstantial
      -- The line stands before any group, so it is the one to take what is ahead.
      · rw [if_pos hitems] at htaken
        obtain ⟨s, statement, rest, hs, hstatement, hrest, rfl⟩ :=
          (Part.assemble_substantial hitems).mp hb
        obtain ⟨taken, rfl, htakes⟩ := Part.takes_of_statement_eq_ok hstatement
        rw [htaken.eq_nil_of_nil]
        exact .line hs htakes.eq_nil (ih hinner hrest htakes)
      · rw [if_neg hitems] at htaken
        by_cases hblank : l.isBlank
        · rw [Part.assemble, if_pos hblank] at hb
          exact .blank hblank (ih hinner hb htaken)
        · have hcomment : l.isComment := Row.isComment_of_not hblank hitems
          obtain ⟨rest, hrest, rfl⟩ := (Part.assemble_comment hcomment).mp hb
          exact .remark hcomment (ih hinner hrest htaken)

/-- Building loses nothing and adds nothing. If an outline spells a block, the block has the atoms
of the outline's lines in the same order, and the same comments, each as often as the lines have
it. -/
theorem block_conserves_atoms_and_comments {o : Outline} {b : Block} (h : o.block = .ok b) :
    Block.atoms b = Outline.atoms o ∧ (Block.comments b).Perm (Outline.comments o) := by
  have hconserved : ConservedIn o b := by
    induction o using group_induction generalizing b with
    | h o ih => exact conservedIn_assemble (fun g hg _ => ih g hg) h .nothing
  exact ⟨hconserved.atoms, hconserved.comments⟩

/-- Comments between a line and its group, also below a `:` in a value, which takes the comment of
its line. -/
def steppedOver : Outline :=
  [.line ⟨⟨0, [.atom (.identifier "f"), .marker .method], some "a"⟩, 1⟩,
    .line ⟨⟨0, [], some "b"⟩, 2⟩,
    .line ⟨⟨3, [], none⟩, 3⟩,
    .group [.line ⟨⟨2, [.atom (.identifier "x"), .marker .assign, .atom (.identifier "y"),
        .atom (.number ⟨.int32, 1, by decide⟩), .marker .block], some "c"⟩, 4⟩,
      .line ⟨⟨2, [], some "a"⟩, 5⟩,
      .group [.line ⟨⟨4, [.atom (.identifier "z")], some "d"⟩, 6⟩]],
    .line ⟨⟨0, [], some "e"⟩, 7⟩]

def steppedOverBlock : Block :=
  [.method "f"
      [.assignment ["x"]
          [.expression
            [.identifier "y", .number ⟨.int32, 1, by decide⟩, .comment "c",
              .block [.expression [.identifier "z"] (some "d")]] none] none,
        .expression [] (some "a")]
      (some "a"),
    .expression [] (some "b"),
    .expression [] (some "e")]

theorem steppedOver_conserved :
    Outline.block steppedOver = .ok steppedOverBlock ∧
      Block.atoms steppedOverBlock = Outline.atoms steppedOver ∧
      (Block.comments steppedOverBlock).Perm (Outline.comments steppedOver) ∧
      Block.comments steppedOverBlock ≠ Outline.comments steppedOver := by
  have hblock : Outline.block steppedOver = .ok steppedOverBlock := by decide +kernel
  obtain ⟨hatoms, hcomments⟩ := block_conserves_atoms_and_comments hblock
  exact ⟨hblock, hatoms, hcomments, by decide +kernel⟩

end Outline

end Stacklet

import Stacklet.Proofs.Blanks
import Stacklet.Proofs.Grammar

/-!
Sources without their comments. A comment may close groups, and one that stands between a line and
the group it claims is moved behind both; so without comments the lines may be grouped otherwise.
Still, lines that spell a block spell the same one without them.
-/

namespace Stacklet

namespace Line

def bare (l : Line) : Line := { l with comment := none }

/-- Leaves out the lines that are only comments, and the comments of the others. -/
def withoutComments (ls : List Line) : List Line := (ls.filter (!·.isComment)).map bare

/-- What is left of a line without its comment, if that is more than a blank line. -/
def core? (l : Line) : Option Line := if l.isSubstantial then some l.bare else none

theorem core?_eq (l : Line) : l.core? = if !l.isComment then l.bare.filled? else none := by
  obtain ⟨⟨indent, items, comment⟩, number⟩ := l
  cases items <;> cases comment <;> rfl

theorem filterMap_filled_withoutComments (ls : List Line) :
    (withoutComments ls).filterMap filled? = ls.filterMap core? := by
  rw [withoutComments, List.filterMap_map, List.filterMap_filter]
  exact congrArg (List.filterMap · ls) (funext fun l => (core?_eq l).symm)

end Line

namespace Outline

/-- The outline without comments and blank lines. -/
def core (o : Outline) : Outline := Outline.filterMap Line.core? o

variable {es g : List Entry} {l : Line}

theorem core_group : core (.group g :: es) = .group (core g) :: core es := by
  simp [core, Outline.filterMap, Entry.filterMap]

theorem core_line (h : l.isSubstantial) : core (.line l :: es) = .line l.bare :: core es := by
  simp [core, Outline.filterMap, Entry.filterMap, Line.core?, h]

theorem core_skip (h : ¬ l.isSubstantial) : core (.line l :: es) = core es := by
  simp [core, Outline.filterMap, Entry.filterMap, Line.core?, h]

end Outline

/-! The statement of a line. -/

namespace Term

theorem eraseAll_append (terms terms' : List Term) :
    eraseAll (terms ++ terms') = eraseAll terms ++ eraseAll terms' := by
  simp [eraseAll_eq_map]

theorem eraseAll_words (words : List Atom) :
    eraseAll (words.map Term.ofAtom) = words.map Term.ofAtom := by
  induction words with
  | nil => rfl
  | cons a words ih => cases a <;> simp [eraseAll, Term.ofAtom, Term.isComment, Term.erase, ih]

end Term

theorem Block.erase_cons {s : Statement} {b : Block} (h : s.erase.isRemark = false) :
    Block.erase (s :: b) = s.erase :: Block.erase b := by
  rw [Block.erase, h]
  rfl

theorem Header.erase_statement (header : Header) (comment : Option String) (value : Block) :
    (header.statement comment value).erase = header.statement none (Block.erase value) := by
  cases header <;> rfl

theorem Header.erase_foldr (headers : List Header) (value : Block) :
    Block.erase (headers.foldr (fun h value => [h.statement none value]) value) =
      headers.foldr (fun h value => [h.statement none value]) (Block.erase value) := by
  induction headers with
  | nil => rfl
  | cons header headers ih =>
    rw [List.foldr_cons, Block.erase_cons, header.erase_statement, ih, List.foldr_cons]
    · rfl
    · rw [header.erase_statement, header.isRemark_statement]

namespace Shape

variable {s : Shape}

theorem eraseAll_terms (s : Shape) (comment : Option String) (nested : Block) :
    Term.eraseAll (s.terms comment nested) = s.terms none (Block.erase nested) := by
  rw [terms, Term.eraseAll_append, Term.eraseAll_words, terms]
  split
  · cases comment <;> rfl
  · rfl

theorem filled_of_items_ne_nil (h : s.items ≠ []) : s.Filled := by
  intro hheaders
  by_contra htail
  apply h
  simp_all [items, hasTail]

theorem isRemark_statement (h : s.Filled) (comment : Option String) (nested : Block) :
    (s.statement comment nested).isRemark = false := by
  unfold statement
  cases hheaders : s.headers with
  | nil => exact isRemark_eq_false (h hheaders) _ _ _
  | cons header headers => exact header.isRemark_statement _ _

/-- Without comments, a line says what it did before but for comments. -/
theorem erase_statement (s : Shape) (comment : Option String) (nested : Block) :
    (s.statement comment nested).erase = s.statement none (Block.erase nested) := by
  have hterms := s.eraseAll_terms comment nested
  unfold statement
  cases s.headers with
  | nil =>
    rw [Statement.erase, hterms, ite_self]
  | cons header headers =>
    -- The innermost value is an expression, unless the line ends in a header.
    have hinner : Block.erase
        (if s.hasTail then [.expression (s.terms comment nested) none] else nested) =
          if s.hasTail then [.expression (s.terms none (Block.erase nested)) none]
          else Block.erase nested := by
      split
      · rename_i htail
        rw [Block.erase_cons, Statement.erase, hterms]
        · rfl
        · rw [Statement.erase, hterms]
          exact isRemark_eq_false htail _ _ _
      · rfl
    rw [header.erase_statement, Header.erase_foldr, hinner, ite_self]

end Shape

/-! The block of an outline. -/

/-- The one group spells the block of the other without comments. -/
def Nested.Erases (n n' : Nested) : Prop := ∀ b, n.block = .ok b → n'.block = .ok (Block.erase b)

theorem Part.statement_bare {l : Line} {s : Shape} {ahead ahead' : List Nested}
    {statement : Statement} (hahead : List.Forall₂ Nested.Erases ahead ahead')
    (h : Part.statement l s ahead = .ok statement) :
    Part.statement l.bare s ahead' = .ok statement.erase :=
  statement_of_forall₂ rfl (fun nested => (s.erase_statement l.comment nested).symm) hahead h

namespace Outline

/-- Without comments and blank lines, the outline spells its block without comments. -/
def CoreErases (o : Outline) : Prop :=
  ∀ b, o.block = .ok b → Outline.block (core o) = .ok (Block.erase b)

theorem groupsAhead_core {es : List Entry} (h : ∀ g, .group g ∈ es → CoreErases g) :
    List.Forall₂ Nested.Erases (Part.groupsAhead (parts es))
      (Part.groupsAhead (parts (core es))) := by
  induction es with
  | nil => exact .nil
  | cons e es ih =>
    have hrest := ih fun g hg => h g (List.mem_cons_of_mem _ hg)
    cases e with
    | group g =>
      rw [core_group]
      exact .cons (h g (List.mem_cons_self ..)) hrest
    | line l =>
      by_cases hitems : l.isSubstantial
      · have hbare : l.bare.isSubstantial := hitems
        rw [core_line hitems, parts, parts, Entry.part, Entry.part, Part.groupsAhead,
          Part.groupsAhead, if_pos hitems, if_pos hbare]
        exact .nil
      · rw [core_skip hitems, parts, Entry.part, Part.groupsAhead, if_neg hitems]
        exact hrest

theorem assemble_core {es : List Entry} (h : ∀ g, .group g ∈ es → CoreErases g)
    {claimed : Bool} {b : Block} (hb : Part.assemble claimed (parts es) = .ok b) :
    Part.assemble claimed (parts (core es)) = .ok (Block.erase b) := by
  induction es generalizing claimed b with
  | nil =>
    cases hb
    rfl
  | cons e es ih =>
    have hgroups : ∀ g, .group g ∈ es → CoreErases g := fun g hg =>
      h g (List.mem_cons_of_mem _ hg)
    cases e with
    | group g =>
      rw [parts, Entry.part, Part.assemble] at hb
      rw [core_group, parts, Entry.part, Part.assemble]
      split at hb
      · rename_i hclaimed
        rw [if_pos hclaimed]
        exact ih hgroups hb
      · cases hb
    | line l =>
      rw [parts, Entry.part] at hb
      by_cases hitems : l.isSubstantial
      · obtain ⟨s, statement, rest, hs, hstatement, hrest, rfl⟩ :=
          (Part.assemble_substantial hitems).mp hb
        have hne : s.items ≠ [] := by
          rw [← (Shape.ofItems_eq_ok_iff.mp hs).1]
          simpa [Row.isSubstantial] using hitems
        have hremark : statement.erase.isRemark = false := by
          obtain ⟨nested, rfl, -⟩ := Part.statement_eq_ok hstatement
          rw [s.erase_statement]
          exact Shape.isRemark_statement (Shape.filled_of_items_ne_nil hne) _ _
        rw [core_line hitems, parts, Entry.part, Block.erase_cons hremark]
        have hbare : l.bare.isSubstantial := hitems
        exact (Part.assemble_substantial hbare).mpr ⟨s, _, _, hs,
          Part.statement_bare (groupsAhead_core hgroups) hstatement, ih hgroups hrest, rfl⟩
      · rw [core_skip hitems]
        by_cases hblank : l.isBlank
        · rw [Part.assemble, if_pos hblank] at hb
          exact ih hgroups hb
        · have hcomment : l.isComment := Row.isComment_of_not hblank hitems
          obtain ⟨rest, hrest, rfl⟩ := (Part.assemble_comment hcomment).mp hb
          have hremark : Block.erase (.expression [] l.comment :: rest) = Block.erase rest := rfl
          rw [hremark]
          exact ih hgroups hrest

theorem coreErases (o : Outline) : CoreErases o := by
  induction o using group_induction with
  | h o ih => exact fun b hb => assemble_core ih hb

/-! The groups of an outline. -/

theorem Starts.core {es : List Entry} (h : Starts es) {level : Nat} (hindent : Indented level es) :
    ∃ first rest, Outline.lines (core es) = first :: rest ∧ first.isSubstantial ∧
      first.indent = 2 * level := by
  obtain ⟨l, rest, rfl, hitems⟩ := h
  rw [core_line hitems]
  exact ⟨l.bare, Outline.lines (Outline.core rest), rfl, hitems, hindent.1 hitems⟩

theorem Takes.core_group {es g : List Entry} {level : Nat} {header : Line}
    (hitems : header.isSubstantial) (hheader : header.indent = 2 * level) (hstarts : Starts g)
    (hindent : Indented (level + 1) g)
    (hg : Takes (level + 1) (Outline.lines (core g)) (core g))
    (hes : Takes level (Outline.lines (core es)) (core es)) :
    Takes level (header :: Outline.lines (core (.group g :: es)))
      (.line header :: core (.group g :: es)) := by
  obtain ⟨first, rest, hlines, hfirst, hfirstIndent⟩ := hstarts.core hindent
  rw [hlines] at hg
  have hnested :=
    (Takes.nested (Row.isBlank_of_isSubstantial hitems) hheader hfirst hfirstIndent hg).append hes
  rw [Outline.core_group, Outline.lines, Entry.lines, hlines]
  exact hnested

/-- Where lines are followed by groups exactly if they claim them, the lines alone are grouped in
the same way. A line that waits for its group is taken together with it. -/
theorem takes_core_from {es : List Entry} {level : Nat}
    (hgroups : ∀ g, .group g ∈ es → Takes (level + 1) (Outline.lines (core g)) (core g))
    (hheaded : Headed es) (hindent : Indented level es) {claimed : Bool}
    (hpaired : PairedFrom claimed (significant es)) :
    (claimed = false → Takes level (Outline.lines (core es)) (core es)) ∧
      (claimed = true → ∀ l : Line, l.isSubstantial → l.indent = 2 * level →
        Takes level (l :: Outline.lines (core es)) (.line l :: core es)) := by
  induction es generalizing claimed with
  | nil =>
    obtain rfl := pairedFrom_nil.mp hpaired
    exact ⟨fun _ => .nil level, nofun⟩
  | cons e es ih =>
    obtain ⟨he, hes⟩ := hheaded
    obtain ⟨hindentE, hindentEs⟩ := hindent
    have hrest {c : Bool} (hc : PairedFrom c (significant es)) :=
      ih (fun g hg => hgroups g (List.mem_cons_of_mem _ hg)) hes hindentEs hc
    cases e with
    | group g =>
      obtain ⟨rfl, hnext⟩ := pairedFrom_cons.mp hpaired
      refine ⟨nofun, fun _ header hitems hheader => ?_⟩
      exact .core_group hitems hheader he.1 hindentE (hgroups g (List.mem_cons_self ..))
        ((hrest hnext).1 rfl)
    | line l =>
      by_cases hitems : l.isSubstantial
      · have hsignificant : significant (.line l :: es) = .line l :: significant es :=
          List.filter_cons_of_pos hitems
        rw [hsignificant] at hpaired
        obtain ⟨rfl, hnext⟩ := pairedFrom_cons.mp hpaired
        refine ⟨fun _ => ?_, nofun⟩
        have hbare : l.bare.isSubstantial := hitems
        have hbareIndent : l.bare.indent = 2 * level := hindentE hitems
        rw [core_line hitems]
        cases hclaims : Entry.claims (.line l) with
        | true => exact (hrest hnext).2 hclaims l.bare hbare hbareIndent
        | false =>
          have hline : Takes level [l.bare] [.line l.bare] :=
            .line (Row.isBlank_of_isSubstantial hbare) hbareIndent
          exact hline.append ((hrest hnext).1 hclaims)
      · have hsignificant : significant (.line l :: es) = significant es :=
          List.filter_cons_of_neg hitems
        rw [hsignificant] at hpaired
        rw [core_skip hitems]
        exact hrest hpaired

theorem takes_core {o : Outline} (hblock : ∃ b, o.block = .ok b) (hheaded : Headed o) {level : Nat}
    (hindent : Indented level o) : Takes level (Outline.lines (core o)) (core o) := by
  induction o using group_induction generalizing level with
  | h o ih =>
    obtain ⟨hbuilds, hpaired⟩ := exists_block_iff_builds.mp hblock
    have hgroups (g : Outline) (hg : .group g ∈ o) :
        Takes (level + 1) (Outline.lines (core g)) (core g) :=
      ih g hg (hbuilds (.group g) hg) (headed_iff.mp hheaded (.group g) hg).2
        (indented_iff.mp hindent (.group g) hg)
    exact (takes_core_from hgroups hheaded hindent hpaired).1 rfl

/-- Lines that spell a block still do so without their comments, and the block is the same without
its comments. -/
theorem block_withoutComments {ls : List Line} {o : Outline} {b : Block}
    (hgroup : Outline.ofLines ls = .ok o) (hblock : o.block = .ok b) :
    ∃ o', Outline.ofLines (Line.withoutComments ls) = .ok o' ∧
      Outline.block o' = .ok (Block.erase b) := by
  obtain ⟨hlines, hheaded⟩ := ofLines_eq_ok hgroup
  have htakes : Takes 0 (Outline.lines (core o)) (core o) :=
    takes_core ⟨b, hblock⟩ hheaded (indented_of_ofLines hgroup)
  have hcore : Outline.ofLines (ls.filterMap Line.core?) = .ok (core o) := by
    rw [← hlines, ← Outline.lines_filterMap]
    exact htakes.ofLines
  -- Blank lines are not left out of the source, but make no difference to it.
  rw [← Line.filterMap_filled_withoutComments, ofLines_filled] at hcore
  obtain ⟨o', ho', hfilled⟩ := Except.map_eq_ok_iff.mp hcore
  refine ⟨o', ho', ?_⟩
  rw [← block_filled (ofLines_eq_ok ho').2, hfilled]
  exact coreErases o b hblock

/-- Comments behind items, before a group that is claimed, and in place of a dedent. -/
def remarked : Outline :=
  [.line ⟨⟨0, [.atom (.identifier "f"), .marker .method], some "a"⟩, 1⟩,
    .line ⟨⟨0, [], some "b"⟩, 2⟩,
    .group [.line ⟨⟨2, [.atom (.identifier "x"), .marker .block], some "c"⟩, 3⟩,
      .group [.line ⟨⟨4, [.atom (.identifier "y")], none⟩, 4⟩]],
    .line ⟨⟨0, [], some "d"⟩, 5⟩,
    .line ⟨⟨0, [], none⟩, 6⟩,
    .line ⟨⟨0, [.atom (.identifier "f")], some "e"⟩, 7⟩]

def remarkedBlock : Block :=
  [.method "f"
      [.expression
        [.identifier "x", .comment "c", .block [.expression [.identifier "y"] none]] none]
      (some "a"),
    .expression [] (some "b"),
    .expression [] (some "d"),
    .expression [.identifier "f"] (some "e")]

theorem remarked_withoutComments :
    Outline.ofLines (Outline.lines remarked) = .ok remarked ∧
      Outline.block remarked = .ok remarkedBlock ∧
      ∃ o', Outline.ofLines (Line.withoutComments (Outline.lines remarked)) = .ok o' ∧
        Outline.block o' = .ok
          [.method "f"
              [.expression [.identifier "x", .block [.expression [.identifier "y"] none]] none]
              none,
            .expression [.identifier "f"] none] := by
  have hgroup : Outline.ofLines (Outline.lines remarked) = .ok remarked := by decide +kernel
  have hblock : Outline.block remarked = .ok remarkedBlock := by decide +kernel
  exact ⟨hgroup, hblock, block_withoutComments hgroup hblock⟩

end Outline

end Stacklet

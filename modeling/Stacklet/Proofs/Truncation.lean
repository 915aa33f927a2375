import Stacklet.Proofs.Nesting
import Stacklet.Proofs.WellFormed

/-!
Outlines that are cut short. The first of some lines are grouped as they are among all of them, so
their outline is the whole one, cut off within its open groups. If it spells no block, then the
whole outline spells none either, by a fault on one of these lines, unless the cut separates a line
from the group that it claims.
-/

namespace Stacklet

/-! Outlines and their beginnings. -/

namespace Outline

/-- The one outline is the beginning of the other, in which groups may go on where it ends. -/
inductive Cut : List Entry → List Entry → Prop where
  | nil (fs : List Entry) : Cut [] fs
  | cons (e : Entry) {es fs : List Entry} : Cut es fs → Cut (e :: es) (e :: fs)
  | group {g h : List Entry} (fs : List Entry) : Cut g h → Cut [.group g] (.group h :: fs)

namespace Cut

theorem refl (es : List Entry) : Cut es es := by
  induction es with
  | nil => exact .nil []
  | cons e es ih => exact .cons e ih

theorem append_left (es : List Entry) {fs gs : List Entry} (h : Cut fs gs) :
    Cut (es ++ fs) (es ++ gs) := by
  induction es with
  | nil => exact h
  | cons e es ih => exact .cons e ih

theorem append_right (es fs : List Entry) : Cut es (es ++ fs) := by
  simpa using append_left es (.nil fs)

theorem eq_nil {es : List Entry} (h : Cut es []) : es = [] := by
  cases h
  rfl

theorem trans {es fs gs : List Entry} (h : Cut es fs) (h' : Cut fs gs) : Cut es gs := by
  induction h generalizing gs with
  | nil => exact .nil gs
  | cons e h ih =>
    cases h' with
    | cons _ h' => exact .cons e (ih h')
    | group fs h' =>
      rw [h.eq_nil]
      exact .group fs h'
  | group fs h ih =>
    cases h' with
    | cons _ _ => exact .group _ h
    | group fs' h' => exact .group fs' (ih h')

/-- A group that has been opened starts as it does when more is added. -/
theorem firstLine_eq {g h : List Entry} (hcut : Cut g h) (hstarts : Starts g) :
    Outline.firstLine h = Outline.firstLine g := by
  obtain ⟨l, rest, rfl, -⟩ := hstarts
  cases hcut
  rfl

end Cut

/-! The first of some lines. -/

namespace Groups

theorem finish_close (g : Groups) : g.close.finish = g.finish := by
  obtain ⟨inner, outer⟩ := g
  cases outer with
  | nil => rfl
  | cons parent outer => rfl

theorem finish_closeTo (g : Groups) (level : Nat) : (g.closeTo level).finish = g.finish :=
  closeMany_induction (P := fun g' => g'.finish = g.finish)
    (fun g' hg' => (finish_close g').trans hg') _ rfl

theorem cut_finish {inner inner' : List Entry} (outer : List (List Entry))
    (h : Cut inner.reverse inner'.reverse) :
    Cut (finish ⟨inner, outer⟩) (finish ⟨inner', outer⟩) := by
  induction outer generalizing inner inner' with
  | nil => exact h
  | cons parent outer ih =>
    rw [← finish_close ⟨inner, _⟩, ← finish_close ⟨inner', _⟩]
    apply ih
    rw [List.reverse_cons, List.reverse_cons]
    exact .append_left _ (.group [] h)

theorem cut_push (g : Groups) (e : Entry) : Cut g.finish (g.push e).finish := by
  apply cut_finish
  rw [List.reverse_cons]
  exact .append_right _ _

theorem cut_add {g g' : Groups} {l : Line} (h : g.add l = .ok g') : Cut g.finish g'.finish := by
  rcases add_cases h with ⟨level, -, -, rfl⟩ | ⟨-, -, rfl⟩
  · rw [← finish_closeTo g level]
    exact cut_push _ _
  -- Once closed, the new group is an entry of the one that was innermost.
  · rw [← finish_close ⟨[.line l], _⟩]
    exact cut_push g (.group [.line l])

theorem cut_foldlM {ls : List Line} {g g' : Groups} (h : ls.foldlM Groups.add g = .ok g') :
    Cut g.finish g'.finish := by
  induction ls generalizing g with
  | nil =>
    cases h
    exact .refl _
  | cons l ls ih =>
    rw [List.foldlM_cons] at h
    obtain ⟨g₁, hadd, hrest⟩ := Except.bind_eq_ok_iff.mp h
    exact (cut_add hadd).trans (ih hrest)

end Groups

/-- The first lines are grouped as the whole, cut off after them. -/
theorem exists_cut_of_ofLines {ls ms : List Line} {o : Outline}
    (h : Outline.ofLines (ls ++ ms) = .ok o) : ∃ p, Outline.ofLines ls = .ok p ∧ Cut p o := by
  obtain ⟨g', hfold, rfl⟩ := Except.map_eq_ok_iff.mp h
  rw [List.foldlM_append] at hfold
  obtain ⟨g, hls, hms⟩ := Except.bind_eq_ok_iff.mp hfold
  exact ⟨g.finish, Except.map_eq_ok_iff.mpr ⟨g, hls, rfl⟩, Groups.cut_foldlM hms⟩

end Outline

/-! How assembling fails. -/

namespace Part

/-- How the statement of a line fails: the group that it claims is missing or spells no block, or it
has a value on the line and a group is left. -/
inductive Refuses (l : Line) (s : Shape) : List Nested → SyntaxError → Prop where
  | missing : s.claims → Refuses l s [] ⟨l.number, .missingBlock⟩
  | nested {n : Nested} {left : List Nested} {e : SyntaxError} :
      s.claims → n.block = .error e → Refuses l s (n :: left) e
  | second {n : Nested} {left : List Nested} {b : Block} :
      s.claims → n.block = .ok b → s.hasInline → left ≠ [] →
        Refuses l s (n :: left) ⟨l.number, .inlineAndNestedBlock⟩
  | first {ahead : List Nested} :
      s.claims = false → s.hasInline → ahead ≠ [] →
        Refuses l s ahead ⟨l.number, .inlineAndNestedBlock⟩

theorem statement_eq_error_iff {l : Line} {s : Shape} {ahead : List Nested} {e : SyntaxError} :
    Part.statement l s ahead = .error e ↔ Refuses l s ahead e := by
  have hleft (left : List Nested) (nested : Block) :
      (if s.hasInline && !left.isEmpty then .error ⟨l.number, .inlineAndNestedBlock⟩
        else .ok (s.statement l.comment nested) : Except SyntaxError Statement) = .error e ↔
      s.hasInline ∧ left ≠ [] ∧ e = ⟨l.number, .inlineAndNestedBlock⟩ := by
    cases s.hasInline <;> cases left <;> simp [eq_comm]
  constructor
  · intro h
    cases hclaims : s.claims with
    | true =>
      cases ahead with
      | nil =>
        simp only [Part.statement, hclaims] at h
        cases h
        exact .missing hclaims
      | cons n left =>
        rw [statement_of_claims hclaims, Except.bind_eq_error_iff] at h
        rcases h with hn | ⟨b, hb, h⟩
        · exact .nested hclaims hn
        · obtain ⟨hinline, hne, rfl⟩ := (hleft left b).mp h
          exact .second hclaims hb hinline hne
    | false =>
      rw [statement_of_not_claims hclaims] at h
      obtain ⟨hinline, hne, rfl⟩ := (hleft ahead []).mp h
      exact .first hclaims hinline hne
  · intro h
    cases h with
    | missing hclaims => simp [Part.statement, hclaims, bind, Except.bind]
    | nested hclaims hn => rw [statement_of_claims hclaims, hn]; rfl
    | second hclaims hb hinline hne =>
      rw [statement_of_claims hclaims, hb]
      exact (hleft _ _).mpr ⟨hinline, hne, rfl⟩
    | first hclaims hinline hne =>
      rw [statement_of_not_claims hclaims]
      exact (hleft _ _).mpr ⟨hinline, hne, rfl⟩

theorem assemble_skip {l : Line} (h : ¬ l.isSubstantial) {claimed : Bool} {parts : List Part}
    {e : SyntaxError} :
    assemble claimed (.line l :: parts) = .error e ↔ assemble claimed parts = .error e := by
  by_cases hblank : l.isBlank
  · rw [assemble, if_pos hblank]
  · have hcomment : l.isComment := Row.isComment_of_not hblank h
    rw [assemble, if_neg hblank, if_pos hcomment, Except.bind_eq_error_iff]
    simp [pure, Except.pure]

/-- A line with items fails by itself, or in taking a group, or it leaves the failing to the parts
after it. -/
theorem assemble_substantial_eq_error_iff {l : Line} (h : l.isSubstantial) {claimed : Bool}
    {parts : List Part} {e : SyntaxError} :
    assemble claimed (.line l :: parts) = .error e ↔
      (∃ fault, Shape.ofItems l.items = .error fault ∧ e = ⟨l.number, fault⟩) ∨
      ∃ s, Shape.ofItems l.items = .ok s ∧
        (Refuses l s (groupsAhead parts) e ∨
          (∀ e', ¬ Refuses l s (groupsAhead parts) e') ∧ assemble s.claims parts = .error e) := by
  rw [assemble, if_neg (by simp [Row.isBlank_of_isSubstantial h]),
    if_neg (by simp [Row.isComment_of_isSubstantial h])]
  simp only [← statement_eq_error_iff]
  cases Shape.ofItems l.items with
  | error fault => simp [bind, Except.bind, Except.mapError, eq_comm]
  | ok s =>
    cases hstatement : Part.statement l s (groupsAhead parts) with
    | error e' => simp [bind, Except.bind, Except.mapError, hstatement]
    | ok statement =>
      cases hrest : assemble s.claims parts <;>
        simp [bind, Except.bind, Except.mapError, pure, Except.pure, hstatement, hrest]

end Part

/-! Where a cut falls. -/

/-- The first lines end between a line that has this number and the next one with items, which is
one level deeper. -/
inductive Line.CutOff : List Line → List Line → Nat → Prop where
  | intro {before skipped between after : List Line} {header first : Line} :
      header.isSubstantial → (∀ l ∈ skipped ++ between, ¬ l.isSubstantial) →
      first.isSubstantial → first.indent = header.indent + 2 →
      CutOff (before ++ header :: skipped)
        (before ++ header :: (skipped ++ between ++ first :: after)) header.number

namespace Line.CutOff

variable {ls ms : List Line} {number : Nat}

theorem prepend (front : List Line) (h : CutOff ls ms number) :
    CutOff (front ++ ls) (front ++ ms) number := by
  obtain ⟨hheader, hskipped, hfirst, hindent⟩ := h
  rw [← List.append_assoc, ← List.append_assoc]
  exact .intro hheader hskipped hfirst hindent

theorem append (h : CutOff ls ms number) (rest : List Line) : CutOff ls (ms ++ rest) number := by
  obtain ⟨hheader, hskipped, hfirst, hindent⟩ := h
  rw [List.append_assoc, List.cons_append, List.append_assoc _ _ rest, List.cons_append]
  exact .intro hheader hskipped hfirst hindent

theorem length_lt (h : CutOff ls ms number) : ls.length < ms.length := by
  obtain ⟨-, -, -, -⟩ := h
  simp only [List.length_append, List.length_cons]
  omega

end Line.CutOff

namespace Outline

/-- The error is at a line of the outline that has items. -/
def Names (o : Outline) (e : SyntaxError) : Prop :=
  ∃ l ∈ Outline.lines o, l.isSubstantial ∧ l.number = e.line

/-- The group as a part that has been built. -/
def nested (g : Outline) : Nested := ⟨Outline.firstLine g, Outline.block g⟩

variable {es fs g h : List Entry} {level : Nat}

theorem names_line {l : Line} (hitems : l.isSubstantial) {e : SyntaxError}
    (he : e.line = l.number) : Names (.line l :: es) e :=
  ⟨l, List.mem_cons_self .., hitems, he.symm⟩

theorem names_firstLine (hstarts : Starts g) (fault : SyntaxFault) :
    Names (.group g :: es) ⟨Outline.firstLine g, fault⟩ := by
  obtain ⟨l, rest, rfl, hitems⟩ := hstarts
  exact ⟨l, List.mem_cons_self .., hitems, rfl⟩

theorem Names.cons {e : SyntaxError} (he : Names es e) (entry : Entry) :
    Names (entry :: es) e := by
  obtain ⟨l, hl, hnames⟩ := he
  exact ⟨l, List.mem_append_right _ hl, hnames⟩

/-- What is known of the groups ahead in the beginning of an outline. There may be none. Else the
first of them is also the first in the whole outline, or it is where the cut falls. -/
inductive Ahead (es fs : List Entry) : Prop where
  | none : Part.groupsAhead (parts es) = [] → Ahead es fs
  | same {g : List Entry} {left left' : List Nested} :
      .group g ∈ es → .group g ∈ fs → Part.groupsAhead (parts es) = nested g :: left →
      Part.groupsAhead (parts fs) = nested g :: left' → (left ≠ [] → left' ≠ []) → Ahead es fs
  | cut {g h : List Entry} {left : List Nested} {before after : List Line} :
      .group g ∈ es → .group h ∈ fs → Cut g h → Part.groupsAhead (parts es) = [nested g] →
      Part.groupsAhead (parts fs) = nested h :: left →
      (∀ e, Part.assemble true (parts es) ≠ .error e) →
      Outline.lines es = before ++ Outline.lines g →
      Outline.lines fs = before ++ (Outline.lines h ++ after) → Ahead es fs

theorem Ahead.ne_nil (h : Ahead es fs) (hes : Part.groupsAhead (parts es) ≠ []) :
    Part.groupsAhead (parts fs) ≠ [] := by
  cases h with
  | none hnone => exact absurd hnone hes
  | same _ _ _ hfs _ => simp [hfs]
  | cut _ _ _ _ hfs _ _ _ => simp [hfs]

theorem groupsAhead_group (g es : List Entry) :
    Part.groupsAhead (parts (.group g :: es)) = nested g :: Part.groupsAhead (parts es) := rfl

theorem groupsAhead_skip {l : Line} (hskip : ¬ l.isSubstantial) (es : List Entry) :
    Part.groupsAhead (parts (.line l :: es)) = Part.groupsAhead (parts es) := by
  rw [parts, Entry.part, Part.groupsAhead, if_neg hskip]

theorem groupsAhead_substantial {l : Line} (hitems : l.isSubstantial) (es : List Entry) :
    Part.groupsAhead (parts (.line l :: es)) = [] := by
  rw [parts, Entry.part, Part.groupsAhead, if_pos hitems]

theorem Ahead.skip {l : Line} (hskip : ¬ l.isSubstantial) (h : Ahead es fs) :
    Ahead (.line l :: es) (.line l :: fs) := by
  cases h with
  | none hnone => exact .none ((groupsAhead_skip hskip es).trans hnone)
  | same hes hfs hahead hahead' hne =>
    exact .same (List.mem_cons_of_mem _ hes) (List.mem_cons_of_mem _ hfs)
      ((groupsAhead_skip hskip es).trans hahead) ((groupsAhead_skip hskip fs).trans hahead') hne
  | @cut g h _ before after hes hfs hcut hahead hahead' hok hlines hlines' =>
    have hfront : Outline.lines (.line l :: es) = (l :: before) ++ Outline.lines g :=
      congrArg (l :: ·) hlines
    have hfront' : Outline.lines (.line l :: fs) = (l :: before) ++ (Outline.lines h ++ after) :=
      congrArg (l :: ·) hlines'
    refine .cut (List.mem_cons_of_mem _ hes) (List.mem_cons_of_mem _ hfs) hcut
      ((groupsAhead_skip hskip es).trans hahead) ((groupsAhead_skip hskip fs).trans hahead') ?_
      hfront hfront'
    exact fun e he => hok e ((Part.assemble_skip hskip).mp he)

theorem Cut.ahead (hcut : Cut es fs) : Ahead es fs := by
  induction hcut with
  | nil fs => exact .none rfl
  | cons e _ ih =>
    cases e with
    | group g =>
      exact .same (List.mem_cons_self ..) (List.mem_cons_self ..) (groupsAhead_group g _)
        (groupsAhead_group g _) ih.ne_nil
    | line l =>
      by_cases hitems : l.isSubstantial
      · exact .none (groupsAhead_substantial hitems _)
      · exact ih.skip hitems
  | @group g h fs hcut _ =>
    have hlines : Outline.lines [.group g] = [] ++ Outline.lines g := List.append_nil _
    have hok : Part.assemble true (parts [.group g]) = .ok [] := rfl
    exact .cut (List.mem_cons_self ..) (List.mem_cons_self ..) hcut (groupsAhead_group g [])
      (groupsAhead_group h fs) (fun e he => nomatch hok.symm.trans he) hlines rfl

/-- Only lines without items stand before a group ahead, and the group starts one level deeper. -/
theorem exists_first_of_groupsAhead (hheaded : Headed es) (hindent : Indented level es)
    (hahead : Part.groupsAhead (parts es) ≠ []) :
    ∃ skipped first after, Outline.lines es = skipped ++ first :: after ∧
      (∀ l ∈ skipped, ¬ l.isSubstantial) ∧ first.isSubstantial ∧
      first.indent = 2 * (level + 1) := by
  induction es with
  | nil => exact absurd rfl hahead
  | cons e es ih =>
    obtain ⟨he, hes⟩ := hheaded
    obtain ⟨hindentE, hindentEs⟩ := hindent
    cases e with
    | group g =>
      obtain ⟨⟨l, rest, rfl, hitems⟩, -⟩ := he
      exact ⟨[], l, Outline.lines rest ++ Outline.lines es, rfl, by simp, hitems,
        hindentE.1 hitems⟩
    | line l =>
      by_cases hitems : l.isSubstantial
      · exact absurd (groupsAhead_substantial hitems es) hahead
      · rw [groupsAhead_skip hitems] at hahead
        obtain ⟨skipped, first, after, hlines, hskipped, hfirst⟩ := ih hes hindentEs hahead
        exact ⟨l :: skipped, first, after, congrArg (l :: ·) hlines,
          List.forall_mem_cons.mpr ⟨hitems, hskipped⟩, hfirst⟩

/-- If a group ahead is lost by the cut, then so is everything from its first line on. -/
theorem Cut.exists_first (hcut : Cut es fs) (hheaded : Headed fs) (hindent : Indented level fs)
    (hes : Part.groupsAhead (parts es) = []) (hfs : Part.groupsAhead (parts fs) ≠ []) :
    ∃ between first after, Outline.lines fs = Outline.lines es ++ between ++ first :: after ∧
      (∀ l ∈ Outline.lines es ++ between, ¬ l.isSubstantial) ∧ first.isSubstantial ∧
      first.indent = 2 * (level + 1) := by
  induction hcut with
  | nil fs => exact exists_first_of_groupsAhead hheaded hindent hfs
  | group => cases hes
  | cons e _ ih =>
    cases e with
    | group g => cases hes
    | line l =>
      by_cases hitems : l.isSubstantial
      · exact absurd (groupsAhead_substantial hitems _) hfs
      · rw [groupsAhead_skip hitems] at hes hfs
        obtain ⟨between, first, after, hlines, hskipped, hfirst⟩ :=
          ih hheaded.2 hindent.2 hes hfs
        exact ⟨between, first, after, congrArg (l :: ·) hlines,
          List.forall_mem_cons.mpr ⟨hitems, hskipped⟩, hfirst⟩

/-! Faults before the cut. -/

/-- The whole outline fails at a line of its beginning, or the error in the beginning is that the
cut has taken the group which a line claims. -/
def Foretold (es fs : List Entry) (e : SyntaxError) (r : Except SyntaxError Block) : Prop :=
  (∃ e', r = .error e' ∧ Names es e') ∨
    e.fault = .missingBlock ∧ Line.CutOff (Outline.lines es) (Outline.lines fs) e.line

theorem Foretold.cons {e : SyntaxError} {r r' : Except SyntaxError Block} (h : Foretold es fs e r)
    (entry : Entry) (hr : ∀ e', r = .error e' → r' = .error e') :
    Foretold (entry :: es) (entry :: fs) e r' := by
  rcases h with ⟨e', he', hnames⟩ | ⟨hfault, hoff⟩
  · exact .inl ⟨e', hr e' he', hnames.cons entry⟩
  · exact .inr ⟨hfault, hoff.prepend entry.lines⟩

/-- Each error in a beginning of the outline foretells how the outline fails. -/
def ForetoldByCuts (h : Outline) : Prop :=
  ∀ g, Headed g → Cut g h → ∀ e, Outline.block g = .error e → Foretold g h e h.block

theorem Names.of_group {e : SyntaxError} (h : Names g e) (hg : .group g ∈ es) : Names es e := by
  induction es with
  | nil => cases hg
  | cons entry es ih =>
    rcases List.mem_cons.mp hg with rfl | hg
    · obtain ⟨l, hl, hnames⟩ := h
      exact ⟨l, List.mem_append_left _ hl, hnames⟩
    · exact (ih hg).cons entry

section

variable {l : Line} {s : Shape} {e e' : SyntaxError}

/-- If the first group ahead spells no block before the cut, then neither does the first one in the
whole outline, unless a line in it has lost its own group. -/
theorem Cut.foretold_nested (hcut : Cut es fs)
    (hgroups : ∀ h, .group h ∈ fs → ForetoldByCuts h) (hheaded : Headed es) {n : Nested}
    {left : List Nested} (hes : Part.groupsAhead (parts es) = n :: left)
    (hn : n.block = .error e) :
    (∃ m left' e', Part.groupsAhead (parts fs) = m :: left' ∧ m.block = .error e' ∧
        Names es e') ∨
      e.fault = .missingBlock ∧ Line.CutOff (Outline.lines es) (Outline.lines fs) e.line := by
  cases hcut.ahead with
  | none hnone => cases hes.symm.trans hnone
  | @same g _ left' hg hg' hahead hahead' _ =>
    obtain ⟨rfl, -⟩ := List.cons.inj (hes.symm.trans hahead)
    have hheadedG : Headed g := (headed_iff.mp hheaded _ hg).2
    rcases hgroups g hg' g hheadedG (.refl g) e hn with ⟨e', he', hnames⟩ | ⟨-, hoff⟩
    · exact .inl ⟨nested g, left', e', hahead', he', hnames.of_group hg⟩
    · exact absurd hoff.length_lt (Nat.lt_irrefl _)
  | @cut g h left' before after hg hh hcut' hahead hahead' _ hlines hlines' =>
    obtain ⟨rfl, -⟩ := List.cons.inj (hes.symm.trans hahead)
    have hheadedG : Headed g := (headed_iff.mp hheaded _ hg).2
    rcases hgroups h hh g hheadedG hcut' e hn with ⟨e', he', hnames⟩ | ⟨hfault, hoff⟩
    · exact .inl ⟨nested h, left', e', hahead', he', hnames.of_group hg⟩
    · have hoff' := (hoff.append after).prepend before
      rw [← hlines, ← hlines'] at hoff'
      exact .inr ⟨hfault, hoff'⟩

theorem Cut.foretold_refuses (hcut : Cut es fs)
    (hgroups : ∀ h, .group h ∈ fs → ForetoldByCuts h)
    (hheaded : Headed es) (hheaded' : Headed fs) (hindent : Indented level (.line l :: fs))
    (hitems : l.isSubstantial) (href : Part.Refuses l s (Part.groupsAhead (parts es)) e) :
    (∃ e', Part.Refuses l s (Part.groupsAhead (parts fs)) e' ∧ Names (.line l :: es) e') ∨
      e.fault = .missingBlock ∧
        Line.CutOff (Outline.lines (.line l :: es)) (Outline.lines (.line l :: fs)) e.line := by
  generalize hes : Part.groupsAhead (parts es) = ahead at href
  cases href with
  | missing hclaims =>
    by_cases hfs : Part.groupsAhead (parts fs) = []
    · rw [hfs]
      exact .inl ⟨_, .missing hclaims, names_line hitems rfl⟩
    · obtain ⟨between, first, after, hlines, hskipped, hfirst, hdeeper⟩ :=
        hcut.exists_first hheaded' hindent.2 hes hfs
      have hheader : l.indent = 2 * level := hindent.1 hitems
      have hoff : Line.CutOff ([] ++ l :: Outline.lines es)
          ([] ++ l :: (Outline.lines es ++ between ++ first :: after)) l.number :=
        .intro hitems hskipped hfirst (by omega)
      rw [← hlines] at hoff
      exact .inr ⟨rfl, hoff⟩
  | nested hclaims hn =>
    rcases hcut.foretold_nested hgroups hheaded hes hn with
      ⟨m, left', e', hfs, hm, hnames⟩ | ⟨hfault, hoff⟩
    · rw [hfs]
      exact .inl ⟨e', .nested hclaims hm, hnames.cons _⟩
    · exact .inr ⟨hfault, hoff.prepend [l]⟩
  | second hclaims hb hinline hne =>
    cases hcut.ahead with
    | none hnone => cases hes.symm.trans hnone
    | same _ _ hahead hahead' hleft =>
      obtain ⟨rfl, rfl⟩ := List.cons.inj (hes.symm.trans hahead)
      rw [hahead']
      exact .inl ⟨_, .second hclaims hb hinline (hleft hne), names_line hitems rfl⟩
    | cut _ _ _ hahead =>
      obtain ⟨-, hnil⟩ := List.cons.inj (hes.symm.trans hahead)
      exact absurd hnil hne
  | first hclaims hinline hne =>
    rw [← hes] at hne
    exact .inl ⟨_, .first hclaims hinline (hcut.ahead.ne_nil hne), names_line hitems rfl⟩

/-- If a line is content with what it finds before the cut and something fails after it, then the
group it takes is the same in the whole outline, and all it can object to is a further group. -/
theorem Cut.line_eq_of_refuses (hcut : Cut es fs)
    (hfree : ∀ e, ¬ Part.Refuses l s (Part.groupsAhead (parts es)) e)
    (hrest : Part.assemble s.claims (parts es) = .error e)
    (href : Part.Refuses l s (Part.groupsAhead (parts fs)) e') : e'.line = l.number := by
  generalize hfs : Part.groupsAhead (parts fs) = ahead at href
  cases href with
  | missing | second | first => rfl
  | nested hclaims hn =>
    exfalso
    cases hcut.ahead with
    | none hnone =>
      rw [hnone] at hfree
      exact hfree _ (.missing hclaims)
    | same _ _ hahead hahead' _ =>
      obtain ⟨rfl, -⟩ := List.cons.inj (hfs.symm.trans hahead')
      rw [hahead] at hfree
      exact hfree _ (.nested hclaims hn)
    | cut _ _ _ _ _ hok =>
      rw [hclaims] at hrest
      exact hok e hrest

theorem Cut.foretold_line (hcut : Cut es fs)
    (hgroups : ∀ h, .group h ∈ fs → ForetoldByCuts h)
    (hheaded : Headed es) (hheaded' : Headed fs) (hindent : Indented level (.line l :: fs))
    (hitems : l.isSubstantial)
    (ih : ∀ {claimed e}, Part.assemble claimed (parts es) = .error e →
      Foretold es fs e (Part.assemble claimed (parts fs)))
    {claimed : Bool} (he : Part.assemble claimed (parts (.line l :: es)) = .error e) :
    Foretold (.line l :: es) (.line l :: fs) e
      (Part.assemble claimed (parts (.line l :: fs))) := by
  simp only [Foretold, parts, Entry.part, Part.assemble_substantial_eq_error_iff hitems] at he ⊢
  rcases he with ⟨fault, hfault, rfl⟩ | ⟨s, hs, href | ⟨hfree, hrest⟩⟩
  · exact .inl ⟨_, .inl ⟨fault, hfault, rfl⟩, names_line hitems rfl⟩
  · rcases hcut.foretold_refuses hgroups hheaded hheaded' hindent hitems href with
      ⟨e', href', hnames⟩ | hoff
    · exact .inl ⟨e', .inr ⟨s, hs, .inl href'⟩, hnames⟩
    · exact .inr hoff
  · rcases (ih hrest).cons (.line l) fun _ => id with ⟨e', he', hnames⟩ | hoff
    · by_cases hfull : ∃ e', Part.Refuses l s (Part.groupsAhead (parts fs)) e'
      · obtain ⟨e', href⟩ := hfull
        have hline := hcut.line_eq_of_refuses hfree hrest href
        exact .inl ⟨e', .inr ⟨s, hs, .inl href⟩, names_line hitems hline⟩
      · exact .inl ⟨e', .inr ⟨s, hs, .inr ⟨not_exists.mp hfull, he'⟩⟩, hnames⟩
    · exact .inr hoff

theorem Cut.foretold_assemble (hcut : Cut es fs)
    (hgroups : ∀ h, .group h ∈ fs → ForetoldByCuts h)
    (hheaded : Headed es) (hheaded' : Headed fs) (hindent : Indented level fs) {claimed : Bool}
    (he : Part.assemble claimed (parts es) = .error e) :
    Foretold es fs e (Part.assemble claimed (parts fs)) := by
  induction hcut generalizing claimed e with
  | nil fs => cases he
  | @group g h fs hcut _ =>
    rw [parts, Entry.part, Part.assemble] at he ⊢
    split at he
    · cases he
    · cases he
      rw [if_neg ‹_›, hcut.firstLine_eq hheaded.1.1]
      exact .inl ⟨_, rfl, names_firstLine hheaded.1.1 _⟩
  | @cons entry es fs hcut ih =>
    have hrest {claimed : Bool} {e : SyntaxError}
        (he : Part.assemble claimed (parts es) = .error e) :
        Foretold es fs e (Part.assemble claimed (parts fs)) :=
      ih (fun h hh => hgroups h (List.mem_cons_of_mem _ hh)) hheaded.2 hheaded'.2 hindent.2 he
    cases entry with
    | group g =>
      rw [parts, Entry.part, Part.assemble] at he ⊢
      split at he
      · rw [if_pos ‹_›]
        exact (hrest he).cons _ fun _ => id
      · cases he
        rw [if_neg ‹_›]
        exact .inl ⟨_, rfl, names_firstLine hheaded.1.1 _⟩
    | line l =>
      by_cases hitems : l.isSubstantial
      · have hinner : ∀ h, .group h ∈ fs → ForetoldByCuts h :=
          fun h hh => hgroups h (List.mem_cons_of_mem _ hh)
        exact hcut.foretold_line hinner hheaded.2 hheaded'.2 hindent hitems hrest he
      · exact (hrest ((Part.assemble_skip hitems).mp he)).cons _ fun _ =>
          (Part.assemble_skip hitems).mpr

end

/-- What is wrong with a beginning of an outline is wrong with the outline, unless it is only that a
line has lost its group. -/
theorem foretoldByCuts (hheaded : Headed h) (hindent : Indented level h) : ForetoldByCuts h := by
  induction h using group_induction generalizing level with
  | h h ih =>
    intro g hg hcut e he
    refine hcut.foretold_assemble ?_ hg hheaded hindent he
    intro h' hh'
    exact ih h' hh' (headed_iff.mp hheaded _ hh').2 (indented_iff.mp hindent _ hh')

end Outline

end Stacklet

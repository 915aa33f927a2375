import Stacklet.Proofs.Nesting
import Stacklet.Proofs.RoundTrip

/-!
The grammar of outlines. A line with items is a sequence of headers and words, possibly with a `:`
at its end, and one that ends in a marker claims the group after it. An outline spells a block
exactly if all its lines are of this form and groups stand where they are claimed and nowhere else.
-/

namespace Stacklet

/-! Lines. -/

namespace Item

def isMarker : Item → Bool
  | .atom _ => false
  | .marker _ => true

/-- A header on its line. -/
inductive Segment : List Item → Prop where
  | assignment {names : List String} :
      names ≠ [] → Segment (names.map (.atom ∘ .identifier) ++ [.marker .assign])
  | method {name : String} : Segment [.atom (.identifier name), .marker .method]

/-- What may follow the headers. -/
inductive Tail : List Item → Prop where
  | words {words : List Atom} : words ≠ [] → Tail (words.map .atom)
  | block {words : List Atom} : Tail (words.map .atom ++ [.marker .block])

/-- Any number of headers and then a tail, which may be missing after a header. -/
inductive Sentence : List Item → Prop where
  | tail {items : List Item} : Tail items → Sentence items
  | last {segment : List Item} : Segment segment → Sentence segment
  | header {segment items : List Item} :
      Segment segment → Sentence items → Sentence (segment ++ items)

end Item

open Item

namespace Header

theorem segment_items {header : Header} (h : header.names ≠ []) : Segment header.items := by
  cases header with
  | assignment names => exact .assignment h
  | method name => exact .method

theorem getLast?_items (header : Header) : ∃ m, header.items.getLast? = some (.marker m) := by
  cases header with
  | assignment names => exact ⟨.assign, by simp [items]⟩
  | method name => exact ⟨.method, rfl⟩

theorem exists_of_segment {items : List Item} (h : Segment items) :
    ∃ header : Header, header.names ≠ [] ∧ header.items = items := by
  cases h with
  | @assignment names hne => exact ⟨.assignment names, hne, rfl⟩
  | @method name => exact ⟨.method name, by simp [names], rfl⟩

theorem eq_map_of_mapM {items : List Item} {names : List String}
    (h : items.mapM binding = .ok names) : items = names.map (.atom ∘ .identifier) := by
  induction Except.mapM_eq_ok_iff.mp h with
  | nil => rfl
  | @cons i name items names hi hrest ih =>
    rw [List.map_cons, ← ih (Except.mapM_eq_ok_iff.mpr hrest)]
    unfold binding at hi
    split at hi
    · cases hi
      rfl
    · cases hi
    · cases hi

theorem ofAssign_eq_ok {items : List Item} {header : Header} (h : ofAssign items = .ok header) :
    items ++ [.marker .assign] = header.items ∧ header.names ≠ [] := by
  obtain ⟨names, hnames, h⟩ := Except.bind_eq_ok_iff.mp h
  rw [eq_map_of_mapM hnames]
  split at h
  · cases h
  · rename_i hne
    cases h
    exact ⟨rfl, hne⟩

theorem ofMethod_eq_ok {items : List Item} {header : Header} (h : ofMethod items = .ok header) :
    items ++ [.marker .method] = header.items ∧ header.names ≠ [] := by
  obtain ⟨found, hfound, h⟩ := Except.bind_eq_ok_iff.mp h
  rw [eq_map_of_mapM hfound]
  split at h
  · cases h
  · cases h
    exact ⟨rfl, by simp [names]⟩
  · cases h

end Header

namespace Shape

/-- What a line of this shape shows. -/
def items (s : Shape) : List Item :=
  s.headers.flatMap Header.items ++
    (s.words.map .atom ++ if s.block then [.marker .block] else [])

theorem items_header (header : Header) (s : Shape) :
    ({ s with headers := header :: s.headers } : Shape).items = header.items ++ s.items := by
  simp [items]

theorem items_of_tail {items : List Item} (hitems : ∀ i ∈ items, i ≠ .marker .assign ∧
    i ≠ .marker .method) {s : Shape} (h : tail items = .ok s) :
    items = s.items ∧ s.headers = [] := by
  fun_induction tail items generalizing s with
  | case1 =>
    cases h
    exact ⟨rfl, rfl⟩
  | case2 a items ih =>
    obtain ⟨s', hs', h⟩ := Except.bind_eq_ok_iff.mp h
    cases h
    obtain ⟨hrest, hheaders⟩ := ih (fun i hi => hitems i (by simp [hi])) hs'
    refine ⟨?_, hheaders⟩
    rw [hrest]
    simp [Shape.items, hheaders]
  | case3 m =>
    cases h
    obtain ⟨hassign, hmethod⟩ := hitems (.marker m) (by simp)
    cases m with
    | assign => exact absurd rfl hassign
    | method => exact absurd rfl hmethod
    | block => exact ⟨rfl, rfl⟩
  | case4 => cases h

theorem items_of_ofItemsFrom {before items : List Item}
    (hbefore : ∀ i ∈ before, i ≠ .marker .assign ∧ i ≠ .marker .method) {s : Shape}
    (h : ofItemsFrom before items = .ok s) :
    before.reverse ++ items = s.items ∧ ∀ header ∈ s.headers, header.names ≠ [] := by
  -- A header takes what stands before its marker, and the rest starts afresh.
  have hheader {header : Header} {s' : Shape} {m : Item} {before items : List Item}
      (hitems : before.reverse ++ [m] = header.items ∧ header.names ≠ [])
      (hrest : [] ++ items = s'.items ∧ ∀ other ∈ s'.headers, other.names ≠ []) :
      before.reverse ++ m :: items = ({ s' with headers := header :: s'.headers } : Shape).items ∧
        ∀ other ∈ header :: s'.headers, other.names ≠ [] := by
    constructor
    · rw [items_header, ← hitems.1, ← hrest.1]
      simp
    · intro other hother
      rcases List.mem_cons.mp hother with rfl | hother
      · exact hitems.2
      · exact hrest.2 other hother
  fun_induction ofItemsFrom before items generalizing s with
  | case1 before =>
    obtain ⟨hitems, hheaders⟩ := items_of_tail (by simpa using hbefore) h
    rw [List.append_nil]
    refine ⟨hitems, ?_⟩
    rw [hheaders]
    simp
  | case2 before items ih =>
    obtain ⟨header, hassign, h⟩ := Except.bind_eq_ok_iff.mp h
    obtain ⟨s', hs', h⟩ := Except.bind_eq_ok_iff.mp h
    cases h
    exact hheader (Header.ofAssign_eq_ok hassign) (ih (by simp) hs')
  | case3 before items ih =>
    obtain ⟨header, hmethod, h⟩ := Except.bind_eq_ok_iff.mp h
    obtain ⟨s', hs', h⟩ := Except.bind_eq_ok_iff.mp h
    cases h
    exact hheader (Header.ofMethod_eq_ok hmethod) (ih (by simp) hs')
  | case4 before item items hassign hmethod ih =>
    have hnext : ∀ i ∈ item :: before, i ≠ .marker .assign ∧ i ≠ .marker .method := by
      intro i hi
      rcases List.mem_cons.mp hi with rfl | hi
      · exact ⟨hassign, hmethod⟩
      · exact hbefore i hi
    simpa using ih hnext h

/-- A line is read as the one shape that shows its items. -/
theorem ofItems_eq_ok_iff {items : List Item} {s : Shape} :
    ofItems items = .ok s ↔ items = s.items ∧ ∀ header ∈ s.headers, header.names ≠ [] := by
  constructor
  · intro h
    exact items_of_ofItemsFrom (by simp) h
  · rintro ⟨rfl, hnames⟩
    obtain ⟨headers, words, block⟩ := s
    induction headers with
    | nil =>
      cases block with
      | false => simpa [Shape.items] using ofItems_words words
      | true => simpa [Shape.items] using ofItems_block words
    | cons header headers ih =>
      have hrest := ih fun other hother => hnames other (by simp [hother])
      have hheader := ofItems_header (hnames header (by simp)) hrest
      rwa [← items_header] at hheader

theorem sentence_items {s : Shape} (hnames : ∀ header ∈ s.headers, header.names ≠ [])
    (hne : s.items ≠ []) : Sentence s.items := by
  obtain ⟨headers, words, block⟩ := s
  induction headers with
  | nil =>
    cases block with
    | true => exact .tail (by simpa [Shape.items] using Tail.block)
    | false =>
      have hwords : words ≠ [] := by simpa [Shape.items] using hne
      exact .tail (by simpa [Shape.items] using Tail.words hwords)
  | cons header headers ih =>
    have hsegment := Header.segment_items (hnames header (by simp))
    have hsplit : Shape.items ⟨header :: headers, words, block⟩ =
        header.items ++ Shape.items ⟨headers, words, block⟩ :=
      items_header header ⟨headers, words, block⟩
    rw [hsplit]
    by_cases hnil : Shape.items ⟨headers, words, block⟩ = []
    · rw [hnil, List.append_nil]
      exact .last hsegment
    · exact .header hsegment (ih (fun other hother => hnames other (by simp [hother])) hnil)

theorem exists_of_sentence {items : List Item} (h : Sentence items) :
    ∃ s, ofItems items = .ok s := by
  induction h with
  | tail h =>
    cases h with
    | @words words hne => exact ⟨_, ofItems_words words⟩
    | @block words => exact ⟨_, ofItems_block words⟩
  | last h =>
    obtain ⟨header, hnames, rfl⟩ := Header.exists_of_segment h
    have hempty : ofItems [] = .ok ⟨[], [], false⟩ := rfl
    have hread := ofItems_header hnames hempty
    rw [List.append_nil] at hread
    exact ⟨_, hread⟩
  | header h _ ih =>
    obtain ⟨header, hnames, rfl⟩ := Header.exists_of_segment h
    obtain ⟨s, hs⟩ := ih
    exact ⟨_, ofItems_header hnames hs⟩

/-- Exactly the sentences have a shape, but for the line without items. -/
theorem exists_ofItems_iff {items : List Item} (hne : items ≠ []) :
    (∃ s, ofItems items = .ok s) ↔ Sentence items := by
  constructor
  · rintro ⟨s, hs⟩
    obtain ⟨rfl, hnames⟩ := ofItems_eq_ok_iff.mp hs
    exact sentence_items hnames hne
  · exact exists_of_sentence

/-- The lines that claim a group are those that end in a marker. -/
theorem claims_eq {items : List Item} {s : Shape} (h : ofItems items = .ok s) :
    s.claims = items.getLast?.any isMarker := by
  obtain ⟨rfl, -⟩ := ofItems_eq_ok_iff.mp h
  obtain ⟨headers, words, block⟩ := s
  cases block with
  | true => simp [claims, Shape.items, isMarker]
  | false =>
    rcases List.eq_nil_or_concat words with rfl | ⟨init, a, rfl⟩
    · rcases List.eq_nil_or_concat headers with rfl | ⟨others, header, rfl⟩
      · rfl
      -- Nothing stands after the last header, so its marker ends the line.
      · obtain ⟨m, hm⟩ := header.getLast?_items
        simp [claims, Shape.items, List.getLast?_append, hm, isMarker]
    · simp [claims, Shape.items, isMarker, List.getLast?_append]

end Shape

/-! Parts. -/

namespace Part

/-- Whatever is assembled, at most the group that has been claimed lies ahead. -/
theorem groupsAhead_of_assemble {claimed : Bool} {parts : List Part} {b : Block}
    (h : assemble claimed parts = .ok b) :
    groupsAhead parts = [] ∨ claimed ∧ ∃ n, groupsAhead parts = [n] := by
  induction parts generalizing claimed b with
  | nil => exact .inl rfl
  | cons part parts ih =>
    cases part with
    | nested n =>
      rw [assemble] at h
      split at h
      · rename_i hclaimed
        have hnone : groupsAhead parts = [] := by simpa using ih h
        exact .inr ⟨hclaimed, n, by rw [groupsAhead, hnone]⟩
      · cases h
    | line l =>
      rw [groupsAhead]
      split
      · exact .inl rfl
      · rename_i hitems
        by_cases hblank : l.isBlank
        · rw [assemble, if_pos hblank] at h
          exact ih h
        · have hcomment : l.isComment := Row.isComment_of_not hblank hitems
          obtain ⟨rest, hrest, -⟩ := (assemble_comment hcomment).mp h
          exact ih hrest

/-- The parts can be assembled; and if a group has been claimed, there is one, and it spells a
block. -/
def Accepted (claimed : Bool) (parts : List Part) : Prop :=
  (∃ b, assemble claimed parts = .ok b) ∧
    (claimed → ∃ n b, groupsAhead parts = [n] ∧ n.block = .ok b)

theorem accepted_false_iff {parts : List Part} :
    Accepted false parts ↔ ∃ b, assemble false parts = .ok b := by
  simp [Accepted]

theorem accepted_nil {claimed : Bool} : Accepted claimed [] ↔ claimed = false := by
  simp [Accepted, assemble, groupsAhead]

theorem accepted_nested {claimed : Bool} {n : Nested} {parts : List Part} :
    Accepted claimed (.nested n :: parts) ↔
      claimed ∧ (∃ b, n.block = .ok b) ∧ Accepted false parts := by
  constructor
  · rintro ⟨⟨b, hb⟩, hclaim⟩
    rw [assemble] at hb
    split at hb
    · rename_i hclaimed
      obtain ⟨m, c, hm, hc⟩ := hclaim hclaimed
      obtain ⟨rfl, -⟩ := List.cons.inj hm
      exact ⟨hclaimed, ⟨c, hc⟩, accepted_false_iff.mpr ⟨b, hb⟩⟩
    · cases hb
  · rintro ⟨hclaimed, ⟨c, hc⟩, hrest⟩
    obtain ⟨b, hb⟩ := accepted_false_iff.mp hrest
    have hnone : groupsAhead parts = [] := by simpa using groupsAhead_of_assemble hb
    refine ⟨⟨b, ?_⟩, fun _ => ⟨n, c, ?_, hc⟩⟩
    · rw [assemble, if_pos hclaimed, hb]
    · rw [groupsAhead, hnone]

/-- Blank lines and comments make no difference. -/
theorem accepted_skip {claimed : Bool} {l : Line} (h : ¬ l.isSubstantial) {parts : List Part} :
    Accepted claimed (.line l :: parts) ↔ Accepted claimed parts := by
  have hahead : groupsAhead (.line l :: parts) = groupsAhead parts := by
    rw [groupsAhead, if_neg h]
  have hassemble : (∃ b, assemble claimed (.line l :: parts) = .ok b) ↔
      ∃ b, assemble claimed parts = .ok b := by
    by_cases hblank : l.isBlank
    · rw [assemble, if_pos hblank]
    · have hcomment : l.isComment := Row.isComment_of_not hblank h
      constructor
      · rintro ⟨b, hb⟩
        obtain ⟨rest, hrest, -⟩ := (assemble_comment hcomment).mp hb
        exact ⟨rest, hrest⟩
      · rintro ⟨rest, hrest⟩
        exact ⟨_, (assemble_comment hcomment).mpr ⟨rest, hrest, rfl⟩⟩
  rw [Accepted, hahead, hassemble, Accepted]

theorem accepted_line {claimed : Bool} {l : Line} (h : l.isSubstantial) {parts : List Part} :
    Accepted claimed (.line l :: parts) ↔
      claimed = false ∧ ∃ s, Shape.ofItems l.items = .ok s ∧ Accepted s.claims parts := by
  have hahead : groupsAhead (.line l :: parts) = [] := by rw [groupsAhead, if_pos h]
  constructor
  · rintro ⟨⟨b, hb⟩, hclaim⟩
    obtain ⟨s, statement, rest, hs, hstatement, hrest, -⟩ := (assemble_substantial h).mp hb
    refine ⟨?_, s, hs, ⟨rest, hrest⟩, fun hclaims => ?_⟩
    · by_contra hclaimed
      obtain ⟨n, c, hn, -⟩ := hclaim (by simpa using hclaimed)
      rw [hahead] at hn
      cases hn
    · obtain ⟨nested, -, hnested⟩ := statement_eq_ok hstatement
      obtain ⟨n, hn, hblock⟩ := hnested hclaims
      rcases groupsAhead_of_assemble hrest with hnone | ⟨-, m, hm⟩
      · rw [hnone] at hn
        cases hn
      · rw [hm] at hn
        rw [List.mem_singleton.mp hn] at hblock
        exact ⟨m, nested, hm, hblock⟩
  · rintro ⟨rfl, s, hs, ⟨rest, hrest⟩, hclaim⟩
    have hstatement : ∃ statement, Part.statement l s (groupsAhead parts) = .ok statement := by
      cases hclaims : s.claims with
      | true =>
        obtain ⟨n, nested, hn, hblock⟩ := hclaim hclaims
        rw [hn, statement_of_claims hclaims, hblock]
        exact ⟨_, if_neg (by simp)⟩
      | false =>
        rw [hclaims] at hrest
        have hnone : groupsAhead parts = [] := by simpa using groupsAhead_of_assemble hrest
        rw [hnone, statement_of_not_claims hclaims]
        exact ⟨_, if_neg (by simp)⟩
    obtain ⟨statement, hstatement⟩ := hstatement
    exact accepted_false_iff.mpr
      ⟨_, (assemble_substantial h).mpr ⟨s, statement, rest, hs, hstatement, hrest, rfl⟩⟩

end Part

/-! Outlines. -/

namespace Entry

def isGroup : Entry → Bool
  | .line _ => false
  | .group _ => true

/-- Whether a line asks for a group after it, by a marker at its end. -/
def claims : Entry → Bool
  | .line l => l.items.getLast?.any isMarker
  | .group _ => false

/-- Whether an entry is more than a blank line or a comment. -/
def isSignificant : Entry → Bool
  | .line l => l.isSubstantial
  | .group _ => true

/-- What an entry has to be by itself. -/
def Builds : Entry → Prop
  | .line l => l.isSubstantial → Sentence l.items
  | .group entries => ∃ b, Outline.block entries = .ok b

end Entry

namespace Outline

/-- The entries of an outline without blank lines and comments. -/
def significant (o : Outline) : Outline := o.filter Entry.isSignificant

/-- The first entry is a group if one has been claimed, and any other entry is a group if the one
before it claims a group. -/
def PairedFrom (claimed : Bool) (es : List Entry) : Prop :=
  es[0]?.any Entry.isGroup = claimed ∧
    ∀ i, es[i + 1]?.any Entry.isGroup = es[i]?.any Entry.claims

/-- Between blank lines and comments, the groups are the entries right after lines that end in a
marker. -/
def Paired (o : Outline) : Prop := PairedFrom false o.significant

theorem pairedFrom_nil {claimed : Bool} : PairedFrom claimed [] ↔ claimed = false := by
  simp [PairedFrom, eq_comm]

theorem pairedFrom_cons {claimed : Bool} {e : Entry} {es : List Entry} :
    PairedFrom claimed (e :: es) ↔ e.isGroup = claimed ∧ PairedFrom e.claims es := by
  unfold PairedFrom
  rw [← Nat.and_forall_add_one]
  simp

theorem accepted_parts_iff {claimed : Bool} {es : List Entry} :
    Part.Accepted claimed (Outline.parts es) ↔
      (∀ e ∈ es, e.Builds) ∧ PairedFrom claimed (significant es) := by
  induction es generalizing claimed with
  | nil => simp [Outline.parts, Part.accepted_nil, significant, pairedFrom_nil]
  | cons e es ih =>
    rw [Outline.parts, List.forall_mem_cons]
    cases e with
    | group entries =>
      have hsignificant : significant (.group entries :: es) = .group entries :: significant es :=
        rfl
      rw [Entry.part, Part.accepted_nested, ih, hsignificant, pairedFrom_cons]
      simp only [Entry.isGroup, Entry.claims, Entry.Builds, Outline.block]
      tauto
    | line l =>
      by_cases hitems : l.isSubstantial
      · have hne : l.items ≠ [] := by simpa [Row.isSubstantial] using hitems
        have hsignificant : significant (.line l :: es) = .line l :: significant es :=
          List.filter_cons_of_pos hitems
        -- The shape of the line decides what is claimed, and its items decide the shape.
        have hshape : (∃ s, Shape.ofItems l.items = .ok s ∧ Part.Accepted s.claims (parts es)) ↔
            Sentence l.items ∧ Part.Accepted (Entry.claims (.line l)) (parts es) := by
          rw [← Shape.exists_ofItems_iff hne, Entry.claims]
          constructor
          · rintro ⟨s, hs, hrest⟩
            rw [Shape.claims_eq hs] at hrest
            exact ⟨⟨s, hs⟩, hrest⟩
          · rintro ⟨⟨s, hs⟩, hrest⟩
            rw [← Shape.claims_eq hs] at hrest
            exact ⟨s, hs, hrest⟩
        rw [Entry.part, Part.accepted_line hitems, hshape, ih, hsignificant, pairedFrom_cons]
        simp only [Entry.isGroup, Entry.Builds, hitems, forall_const, eq_comm]
        tauto
      · have hsignificant : significant (.line l :: es) = significant es :=
          List.filter_cons_of_neg hitems
        rw [Entry.part, Part.accepted_skip hitems, ih, hsignificant]
        simp [Entry.Builds, hitems]

/-- Whether an outline spells a block can be told from its entries and those of its groups that
spell one. -/
theorem exists_block_iff_builds {o : Outline} :
    (∃ b, o.block = .ok b) ↔ (∀ e ∈ o, e.Builds) ∧ o.Paired := by
  rw [Paired, ← accepted_parts_iff, Part.accepted_false_iff]
  rfl

/-- An outline spells a block exactly if, in it and in every group nested in it, the lines with
items are sentences, and groups stand where lines claim them and nowhere else. -/
theorem exists_block_iff_sentences_paired (o : Outline) :
    (∃ b, o.block = .ok b) ↔
      ∀ g, o.Within g →
        (∀ l, .line l ∈ g → l.isSubstantial → Sentence l.items) ∧ g.Paired := by
  constructor
  · intro h g hg
    have hblock : ∃ b, Outline.block g = .ok b := by
      induction hg with
      | refl => exact h
      | tail _ hmem ih => exact (exists_block_iff_builds.mp ih).1 _ hmem
    obtain ⟨hbuilds, hpaired⟩ := exists_block_iff_builds.mp hblock
    exact ⟨fun l hl => hbuilds _ hl, hpaired⟩
  · intro h
    induction o using group_induction with
    | h o ih =>
      obtain ⟨hlines, hpaired⟩ := h o .refl
      refine exists_block_iff_builds.mpr ⟨fun e he => ?_, hpaired⟩
      cases e with
      | line l => exact hlines l he
      | group entries => exact ih entries he fun g hg => h g (.head he hg)

end Outline

end Stacklet

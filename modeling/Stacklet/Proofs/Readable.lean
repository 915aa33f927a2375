import Stacklet.Proofs.Nesting
import Stacklet.Proofs.RoundTrip

/-!
The programs that can be read. A block is what some source says exactly if its names are words, its
comments stay on their lines, and its expressions, headers and nested blocks have the form that a
line and the group under it can have.
-/

namespace Stacklet

open Text

/-! Names. -/

/-- A word that is neither cut by the scanner nor taken for a literal. -/
structure Atom.Nameable (name : String) : Prop where
  ne_empty : name ≠ ""
  no_space : ∀ c ∈ name.toList, isSpace c = false
  no_colon : ':' ∉ name.toList
  no_equals : '=' ∉ name.toList
  no_dashes : ¬ ['-', '-'] <:+: name.toList
  no_angles : ¬ ['>', '>'] <:+: name.toList
  no_digit : ∀ c ∈ name.toList.head?, ¬ c.isDigit

theorem Text.isChain_apart_iff {cs : List Char} :
    cs.IsChain Apart ↔ ¬ ['-', '-'] <:+: cs ∧ ¬ ['>', '>'] <:+: cs := by
  constructor
  · intro h
    constructor
    · intro hin
      have hpair := List.IsChain.infix h hin
      exact (List.isChain_pair.mp hpair).1 ⟨rfl, rfl⟩
    · intro hin
      have hpair := List.IsChain.infix h hin
      exact (List.isChain_pair.mp hpair).2 ⟨rfl, rfl⟩
  · rintro ⟨hdashes, hangles⟩
    apply (List.isChain_isInfix cs).imp
    intro a b hab
    constructor
    · rintro ⟨rfl, rfl⟩
      exact hdashes hab
    · rintro ⟨rfl, rfl⟩
      exact hangles hab

theorem Atom.isName_iff {name : String} : Atom.IsName name ↔ Atom.Nameable name := by
  constructor
  · rintro ⟨hne, ⟨hordinary, happart⟩, hdigit⟩
    obtain ⟨hdashes, hangles⟩ := isChain_apart_iff.mp happart
    constructor
    case ne_empty => exact fun h => hne (by rw [h]; rfl)
    case no_space => exact fun c hc => (hordinary c hc).1
    case no_colon => exact fun hc => (hordinary _ hc).2.2 rfl
    case no_equals => exact fun hc => (hordinary _ hc).2.1 rfl
    case no_dashes => exact hdashes
    case no_angles => exact hangles
    case no_digit =>
      intro c hc
      rw [Option.mem_def.mp hc] at hdigit
      simpa using hdigit
  · intro h
    refine ⟨?_, ⟨?_, isChain_apart_iff.mpr ⟨h.no_dashes, h.no_angles⟩⟩, ?_⟩
    · exact fun hnil => h.ne_empty (String.toList_eq_nil_iff.mp hnil)
    · intro c hc
      refine ⟨h.no_space c hc, ?_, ?_⟩
      · rintro rfl
        exact h.no_equals hc
      · rintro rfl
        exact h.no_colon hc
    · cases hhead : name.toList.head? with
      | none => rfl
      | some c => simpa using h.no_digit c hhead

/-! The conditions. -/

/-- Words only, or words and a block, which may have a comment before it. A comment of the
expression's own is on its line, so none is left beside a block. -/
inductive Term.Arranged : List Term → Option String → Prop where
  | words {terms : List Term} {comment : Option String} :
      (∀ t ∈ terms, t.isWord) → Arranged terms comment
  | block {words : List Term} {body : Block} :
      (∀ t ∈ words, t.isWord) → Arranged (words ++ [.block body]) none
  | noted {words : List Term} {text : String} {body : Block} :
      (∀ t ∈ words, t.isWord) → Arranged (words ++ [.comment text, .block body]) none

def Term.name? : Term → Option String
  | .identifier name => some name
  | _ => none

def Term.text? : Term → Option String
  | .comment text => some text
  | _ => none

namespace Statement

/-- The names that a statement uses or binds, those of nested blocks left out. -/
def names : Statement → List String
  | .expression terms _ => terms.filterMap Term.name?
  | .assignment names .. => names
  | .method name .. => [name]

/-- The comments of a statement, those of nested blocks left out. -/
def texts : Statement → List String
  | .expression terms comment => terms.filterMap Term.text? ++ comment.toList
  | .assignment _ _ comment | .method _ _ comment => comment.toList

end Statement

/-- What a block has to be for a source to say it. The block itself may be empty or start with a
comment, unlike those that are nested in it. -/
structure Block.Readable (b : Block) : Prop where
  names : ∀ s, b.Has s → ∀ name ∈ s.names, Atom.Nameable name
  texts : ∀ s, b.Has s → ∀ text ∈ s.texts, '\n' ∉ text.toList
  binding : ∀ names value comment, b.Has (.assignment names value comment) → names ≠ []
  arranged : ∀ terms comment, b.Has (.expression terms comment) → Term.Arranged terms comment
  filled : ∀ comment, b.Has (.expression [] comment) → comment.isSome
  nested : ∀ c d, b.Within c → c.Child d → Block.Nests d

/-! They are met by well-formed blocks. -/

theorem Term.exists_atoms {terms : List Term} (h : ∀ t ∈ terms, t.isWord) :
    ∃ words : List Atom, terms = words.map Term.ofAtom := by
  induction terms with
  | nil => exact ⟨[], rfl⟩
  | cons t terms ih =>
    obtain ⟨words, rfl⟩ := ih fun u hu => h u (by simp [hu])
    have ht := h t (by simp)
    cases t with
    | number n => exact ⟨.number n :: words, rfl⟩
    | identifier name => exact ⟨.identifier name :: words, rfl⟩
    | comment text => cases ht
    | block body => cases ht

theorem Term.valid_of_names {words : List Atom}
    (h : ∀ name, Term.identifier name ∈ words.map Term.ofAtom → Atom.IsName name) :
    ∀ a ∈ words, a.Valid := by
  intro a ha
  cases a with
  | number n => trivial
  | identifier name => exact h name (List.mem_map.mpr ⟨_, ha, rfl⟩)

theorem Term.mem_nesting {words : List Atom} {note : Option String} {body : Block} {t : Term} :
    t ∈ words.map Term.ofAtom ++ ((note.map Term.comment).toList ++ [.block body]) ↔
      (∃ a ∈ words, Term.ofAtom a = t) ∨ (∃ text, note = some text ∧ .comment text = t) ∨
        t = .block body := by
  simp [List.mem_append, List.mem_map, Option.mem_toList]

namespace Statement.WellFormed

variable {s : Statement}

theorem names (h : s.WellFormed) : ∀ name ∈ s.names, Atom.IsName name := by
  have hword {words : List Atom} (hvalid : ∀ a ∈ words, a.Valid) {name : String} {a : Atom}
      (ha : a ∈ words) (hname : Term.ofAtom a = .identifier name) : Atom.IsName name := by
    cases a with
    | number n => cases hname
    | identifier x =>
      cases hname
      exact hvalid _ ha
  have hidentifier {t : Term} {name : String} (ht : t.name? = some name) :
      t = .identifier name := by
    cases t <;> simp_all [Term.name?]
  intro name hname
  cases h with
  | words valid =>
    obtain ⟨t, ht, hn⟩ := List.mem_filterMap.mp hname
    obtain ⟨a, ha, hat⟩ := List.mem_map.mp ht
    exact hword valid ha (hat.trans (hidentifier hn))
  | nesting valid =>
    obtain ⟨t, ht, hn⟩ := List.mem_filterMap.mp hname
    rcases Term.mem_nesting.mp ht with ⟨a, ha, hat⟩ | ⟨text, -, rfl⟩ | rfl
    · exact hword valid ha (hat.trans (hidentifier hn))
    · cases hn
    · cases hn
  | assignment ne_nil valid => exact valid name hname
  | method valid =>
    rw [List.mem_singleton.mp hname]
    exact valid

theorem texts (h : s.WellFormed) : ∀ text ∈ s.texts, '\n' ∉ text.toList := by
  have hword (a : Atom) : (Term.ofAtom a).text? = none := by cases a <;> rfl
  intro text htext
  cases h with
  | words valid oneLine =>
    rcases List.mem_append.mp htext with htext | htext
    · obtain ⟨t, ht, hn⟩ := List.mem_filterMap.mp htext
      obtain ⟨a, -, rfl⟩ := List.mem_map.mp ht
      rw [hword] at hn
      cases hn
    · exact oneLine text (Option.mem_toList.mp htext)
  | nesting valid oneLine =>
    rw [Statement.texts, Option.toList_none, List.append_nil] at htext
    obtain ⟨t, ht, hn⟩ := List.mem_filterMap.mp htext
    rcases Term.mem_nesting.mp ht with ⟨a, -, rfl⟩ | ⟨note, hnote, rfl⟩ | rfl
    · rw [hword] at hn
      cases hn
    · cases hn
      exact oneLine text hnote
    · cases hn
  | assignment _ _ oneLine | method _ oneLine => exact oneLine text (Option.mem_toList.mp htext)

theorem arranged {terms : List Term} {comment : Option String}
    (h : WellFormed (.expression terms comment)) : Term.Arranged terms comment := by
  have hword (words : List Atom) : ∀ t ∈ words.map Term.ofAtom, t.isWord := by
    intro t ht
    obtain ⟨a, -, rfl⟩ := List.mem_map.mp ht
    exact Term.isWord_ofAtom a
  cases h with
  | @words words => exact .words (hword words)
  | @nesting words note =>
    cases note with
    | none => exact .block (hword words)
    | some text => exact .noted (hword words)

theorem filled {comment : Option String} (h : WellFormed (.expression [] comment)) :
    comment.isSome := by
  generalize hterms : ([] : List Term) = terms at h
  cases h with
  | words valid oneLine filled => exact filled (List.map_eq_nil_iff.mp hterms.symm)
  | nesting => simp at hterms

end Statement.WellFormed

namespace Block

variable {b c : Block}

theorem WellFormed.nestable (h : WellFormed b) (hc : b.Child c) : Nestable c := by
  cases hc with
  | value hs =>
    cases h _ hs with
    | assignment _ _ _ nests inner => exact ⟨nests, inner⟩
  | body hs =>
    cases h _ hs with
    | method _ _ nests inner => exact ⟨nests, inner⟩
  | term hs ht =>
    cases h _ hs with
    | words =>
      obtain ⟨a, -, ha⟩ := List.mem_map.mp ht
      cases a <;> cases ha
    | nesting _ _ nests inner =>
      rcases Term.mem_nesting.mp ht with ⟨a, -, ha⟩ | ⟨_, -, htext⟩ | hbody
      · cases a <;> cases ha
      · cases htext
      · cases hbody
        exact ⟨nests, inner⟩

theorem WellFormed.within (h : WellFormed b) (hc : b.Within c) : WellFormed c := by
  induction hc with
  | refl => exact h
  | tail _ hchild ih => exact (ih.nestable hchild).wellFormed

theorem WellFormed.has {s : Statement} (h : WellFormed b) (hs : b.Has s) : s.WellFormed := by
  obtain ⟨c, hc, hs⟩ := hs
  exact h.within hc s hs

theorem WellFormed.readable (h : WellFormed b) : Readable b where
  names s hs name hname := Atom.isName_iff.mp ((h.has hs).names name hname)
  texts s hs := (h.has hs).texts
  binding names value comment hs := by
    cases h.has hs with
    | assignment ne_nil => exact ne_nil
  arranged terms comment hs := (h.has hs).arranged
  filled comment hs := (h.has hs).filled
  nested c d hc hd := ((h.within hc).nestable hd).nests

/-! And they make a block well-formed. -/

theorem Readable.child (h : Readable b) (hc : b.Child c) : Readable c := by
  have hwithin {d : Block} (hd : c.Within d) : b.Within d := .head hc hd
  have hhas {s : Statement} (hs : c.Has s) : b.Has s := by
    obtain ⟨d, hd, hs⟩ := hs
    exact ⟨d, hwithin hd, hs⟩
  constructor
  case names => exact fun s hs => h.names s (hhas hs)
  case texts => exact fun s hs => h.texts s (hhas hs)
  case binding => exact fun names value comment hs => h.binding names value comment (hhas hs)
  case arranged => exact fun terms comment hs => h.arranged terms comment (hhas hs)
  case filled => exact fun comment hs => h.filled comment (hhas hs)
  case nested => exact fun d e hd he => h.nested d e (hwithin hd) he

theorem Readable.wellFormed (h : Readable b) : WellFormed b := by
  induction b using child_induction with
  | h b ih =>
    intro s hs
    have hhas : b.Has s := ⟨b, .refl, hs⟩
    have hnames (name : String) (hname : name ∈ s.names) : Atom.IsName name :=
      Atom.isName_iff.mpr (h.names s hhas name hname)
    have hnestable {c : Block} (hc : b.Child c) : Nestable c :=
      ⟨h.nested b c .refl hc, ih c hc (h.child hc)⟩
    have htexts := h.texts s hhas
    cases s with
    | expression terms comment =>
      -- The terms are words in each case, and what follows them is set apart.
      cases h.arranged terms comment hhas with
      | words hwords =>
        obtain ⟨words, rfl⟩ := Term.exists_atoms hwords
        have hvalid : ∀ a ∈ words, a.Valid := Term.valid_of_names fun name hname =>
          hnames name (List.mem_filterMap.mpr ⟨_, hname, rfl⟩)
        refine .words hvalid ?_ ?_
        · exact fun text htext => htexts text (by simp [Statement.texts, Option.mem_def.mp htext])
        · rintro rfl
          exact h.filled comment hhas
      | @block terms body hwords =>
        obtain ⟨words, rfl⟩ := Term.exists_atoms hwords
        have hbody : Nestable body := hnestable (.term hs (by simp))
        have hvalid : ∀ a ∈ words, a.Valid := Term.valid_of_names fun name hname =>
          hnames name (List.mem_filterMap.mpr ⟨_, List.mem_append_left _ hname, rfl⟩)
        have hnone : Comment.OneLine none := by simp [Comment.OneLine]
        exact @Statement.WellFormed.nesting words none body hvalid hnone hbody.nests
          hbody.wellFormed
      | @noted terms text body hwords =>
        obtain ⟨words, rfl⟩ := Term.exists_atoms hwords
        have hbody : Nestable body := hnestable (.term hs (by simp))
        have hvalid : ∀ a ∈ words, a.Valid := Term.valid_of_names fun name hname =>
          hnames name (List.mem_filterMap.mpr ⟨_, List.mem_append_left _ hname, rfl⟩)
        have hnote : Comment.OneLine (some text) := by
          intro note hnote
          cases hnote
          exact htexts text (by simp [Statement.texts, Term.text?])
        exact @Statement.WellFormed.nesting words (some text) body hvalid hnote hbody.nests
          hbody.wellFormed
    | assignment names value comment =>
      have hvalue := hnestable (.value hs)
      exact .assignment (h.binding _ _ _ hhas) hnames
        (fun text htext => htexts text (Option.mem_toList.mpr htext)) hvalue.nests hvalue.wellFormed
    | method name body comment =>
      have hbody := hnestable (.body hs)
      exact .method (hnames name (by simp [Statement.names]))
        (fun text htext => htexts text (Option.mem_toList.mpr htext)) hbody.nests hbody.wellFormed

/-- Every well-formed block is read from some source: its canonical text with a carriage return
after each comment, which is lost in reading. -/
theorem WellFormed.exists_parse (h : WellFormed b) : ∃ source, Block.parse source = .ok b := by
  let returned : Block := Block.mapComments (· ++ "\r") b
  have hreturned : WellFormed returned := by
    apply wellFormed_mapComments
    intro s hs
    apply (h s hs).mapComments
    intro text htext
    simpa using htext
  have hchomp : Block.mapComments chomp returned = b := by
    rw [mapComments_mapComments, mapComments_eq_self_iff]
    intro text _
    simp [chomp]
  exact ⟨returned.render, by rw [hreturned.parse_render_eq, hchomp]⟩

/-- What can be read is exactly what meets the conditions. -/
theorem exists_parse_iff_readable (b : Block) :
    (∃ source, Block.parse source = .ok b) ↔ Readable b := by
  constructor
  · rintro ⟨source, hsource⟩
    exact (wellFormed_of_parse_eq_ok hsource).readable
  · intro h
    exact h.wellFormed.exists_parse

end Block

end Stacklet

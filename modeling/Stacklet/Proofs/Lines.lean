import Stacklet.Proofs.Lexing

/-!
Sources line by line. Rows written one to a line are read back, up to one carriage return at the
end of a comment, which is taken for a part of the line's ending.
-/

namespace Stacklet

open Text

/-- A comment stays on its line. -/
def Comment.OneLine (comment : Option String) : Prop := ∀ text ∈ comment, '\n' ∉ text.toList

theorem Line.readFrom_eq_ok {number : Nat} {texts : List String} {ls : List Line}
    (htexts : ∀ text ∈ texts, '\n' ∉ text.toList) (h : Line.readFrom number texts = .ok ls) :
    ∀ l ∈ ls, l.Valid ∧ Comment.OneLine l.comment := by
  induction texts generalizing number ls with
  | nil =>
    cases h
    simp
  | cons text texts ih =>
    rw [readFrom, Except.bind_eq_ok_iff] at h
    obtain ⟨l, hl, h⟩ := h
    obtain ⟨rest, hrest, h⟩ := Except.bind_eq_ok_iff.mp h
    cases h
    intro m hm
    rcases List.mem_cons.mp hm with rfl | hm
    · obtain ⟨hvalid, hcomment⟩ := read_eq_ok hl
      refine ⟨hvalid, fun comment hc hn => ?_⟩
      exact htexts text (by simp) (hcomment comment hc _ hn)
    · exact ih (fun t ht => htexts t (by simp [ht])) hrest m hm

/-! The lines of a text. -/

namespace Text

theorem not_mem_linesFrom {line text : List Char} (hline : '\n' ∉ line) :
    ∀ l ∈ linesFrom line text, '\n' ∉ l := by
  have hdrop (line : List Char) (h : '\n' ∉ line) : '\n' ∉ dropReturn line := by
    unfold dropReturn
    split
    · exact fun hn => h (by simp [hn])
    · exact h
  intro l hl
  fun_induction linesFrom line text with
  | case1 line _ => simp at hl
  | case2 line _ =>
    obtain rfl : l = line.reverse := by simpa using hl
    simpa using hline
  | case3 line text ih =>
    rcases List.mem_cons.mp hl with rfl | hl
    · simpa using hdrop line hline
    · exact ih (by simp) hl
  | case4 line c text hc ih => exact ih (by simp [hline, Ne.symm hc]) hl

theorem not_mem_lines {source line : String} (h : line ∈ lines source) : '\n' ∉ line.toList := by
  obtain ⟨l, hl, rfl⟩ := List.mem_map.mp h
  rw [String.toList_ofList]
  exact not_mem_linesFrom (by simp) l hl

/-- Without one carriage return at the end. -/
def chomp (text : String) : String :=
  if text.toList.getLast? = some '\r' then String.ofList text.toList.dropLast else text

theorem chomp_eq_self_iff {text : String} :
    chomp text = text ↔ text.toList.getLast? ≠ some '\r' := by
  unfold chomp
  split
  · rename_i h
    simp only [h, ne_eq, not_true_eq_false, iff_false]
    intro heq
    have hlength := congrArg (fun t : String => t.toList.length) heq
    have hne : text.toList ≠ [] := by
      intro hnil
      simp [hnil] at h
    have hpos := List.length_pos_iff.mpr hne
    simp only [String.toList_ofList, List.length_dropLast] at hlength
    omega
  · rename_i h
    simp [h]

theorem not_mem_chomp {text : String} {c : Char} (h : c ∉ text.toList) :
    c ∉ (chomp text).toList := by
  unfold chomp
  split
  · rw [String.toList_ofList]
    exact fun hc => h (List.dropLast_subset _ hc)
  · exact h

theorem toList_chomp (text : String) :
    (chomp text).toList = (dropReturn text.toList.reverse).reverse := by
  unfold chomp dropReturn
  split
  · rename_i h
    obtain ⟨cs, hcs⟩ := List.getLast?_eq_some_iff.mp h
    simp [hcs]
  · rename_i h
    split
    · rename_i line hline
      exact absurd (by simp [List.getLast?_eq_head?_reverse, hline]) h
    · simp

theorem linesFrom_append {line cs rest : List Char} (hcs : '\n' ∉ cs) :
    linesFrom line (cs ++ '\n' :: rest) =
      (dropReturn (cs.reverse ++ line)).reverse :: linesFrom [] rest := by
  induction cs generalizing line with
  | nil => simp [linesFrom]
  | cons c cs ih =>
    have hc : c ≠ '\n' := fun h => hcs (by simp [h])
    rw [List.cons_append, linesFrom, if_neg hc, ih fun h => hcs (by simp [h])]
    simp

/-- Texts written one to a line are read back, each without one carriage return at its end. -/
theorem lines_join {texts : List String} (h : ∀ text ∈ texts, '\n' ∉ text.toList) :
    lines (String.join (texts.map (· ++ "\n"))) = texts.map chomp := by
  rw [lines, String.toList_join]
  induction texts with
  | nil => rfl
  | cons text texts ih =>
    have hbreak : "\n".toList = ['\n'] := rfl
    rw [List.map_cons, List.flatMap_cons, String.toList_append, hbreak, List.append_assoc,
      List.singleton_append, linesFrom_append (h text (by simp)), List.map_cons,
      ih fun t ht => h t (by simp [ht]), List.append_nil, ← toList_chomp, String.ofList_toList,
      List.map_cons]

theorem chomp_append {a : String} (ha : a.toList.getLast? ≠ some '\r') (text : String) :
    chomp (a ++ text) = a ++ chomp text := by
  rw [← String.toList_inj, String.toList_append]
  by_cases hnil : text.toList = []
  -- Nothing is added, so the end is that of `a`.
  · have hempty : text = "" := String.toList_eq_nil_iff.mp hnil
    subst hempty
    rw [String.append_empty, chomp_eq_self_iff.mpr ha]
    simp [chomp]
  · have hlast : (a ++ text).toList.getLast? = text.toList.getLast? := by
      rw [String.toList_append, List.getLast?_append_of_ne_nil _ hnil]
    unfold chomp
    rw [hlast]
    split
    · simp [List.dropLast_append_of_ne_nil hnil]
    · simp

end Text

namespace Row

def mapComment (f : String → String) (r : Row) : Row := { r with comment := r.comment.map f }

/-- White space other than the space itself comes from the comment. -/
theorem not_mem_render {r : Row} (h : r.Valid) {c : Char} (hc : isSpace c) (hspace : c ≠ ' ')
    (hcomment : ∀ text ∈ r.comment, c ∉ text.toList) : c ∉ r.render.toList := by
  have hitem {i : Item} (hi : i.Valid) : c ∉ i.render.toList := by
    intro hmem
    rw [hi.isSpace_eq_false hmem] at hc
    exact absurd hc (by decide)
  have hminus : c ≠ '-' := by
    rintro rfl
    exact absurd hc (by decide)
  have hspaced (items : List Item) (hitems : ∀ i ∈ items, i.Valid) :
      c ∉ spaced items r.comment := by
    induction items with
    | nil =>
      cases htext : r.comment with
      | none => simp [spaced]
      | some text => simp [spaced, hspace, hminus, hcomment text htext]
    | cons i items ih =>
      simp [spaced, hspace, hitem (hitems i (by simp)), ih fun j hj => hitems j (by simp [hj])]
  rw [toList_render]
  intro hmem
  rcases List.mem_append.mp hmem with hmem | hmem
  · exact hspace (List.eq_of_mem_replicate hmem)
  · cases hitems : r.items with
    | nil =>
      cases htext : r.comment with
      | none => simp [hitems, htext, body] at hmem
      | some text => simp [hitems, htext, body, hminus, hcomment text htext] at hmem
    | cons i items =>
      rw [hitems, body] at hmem
      have hvalid : ∀ j ∈ i :: items, j.Valid := hitems ▸ h
      rcases List.mem_append.mp hmem with hmem | hmem
      · exact hitem (hvalid i (by simp)) hmem
      · exact hspaced items (fun j hj => hvalid j (by simp [hj])) hmem

/-- A carriage return at the end of a row's text is one at the end of its comment. -/
theorem chomp_render {r : Row} (h : r.Valid) : chomp r.render = (r.mapComment chomp).render := by
  obtain ⟨indent, items, comment⟩ := r
  cases comment with
  | none =>
    show chomp (render ⟨indent, items, none⟩) = render ⟨indent, items, none⟩
    rw [chomp_eq_self_iff]
    intro hlast
    exact not_mem_render h (by decide) (by decide) (by simp) (List.mem_of_getLast? hlast)
  | some text =>
    simp only [mapComment, render, Option.map_some, ← String.append_assoc]
    apply chomp_append
    split <;> simp

theorem valid_mapComment {f : String → String} {r : Row} (h : r.Valid) : (r.mapComment f).Valid := h

end Row

/-- Rows written one to a line are read back, their comments without one carriage return at the
end. -/
theorem Line.readAll_join {rows : List Row} (hvalid : ∀ r ∈ rows, r.Valid)
    (hcomment : ∀ r ∈ rows, Comment.OneLine r.comment) :
    ∃ ls, Line.readAll (String.join (rows.map (·.render ++ "\n"))) = .ok ls ∧
      ls.map Line.toRow = rows.map (Row.mapComment chomp) := by
  have hbreak : ∀ text ∈ rows.map Row.render, '\n' ∉ text.toList := by
    intro text htext
    obtain ⟨r, hr, rfl⟩ := List.mem_map.mp htext
    exact Row.not_mem_render (hvalid r hr) (by decide) (by decide) (hcomment r hr)
  have hlines : Text.lines (String.join (rows.map (·.render ++ "\n"))) =
      (rows.map (Row.mapComment chomp)).map Row.render := by
    have h := Text.lines_join hbreak
    rw [List.map_map, List.map_map] at h
    refine h.trans ?_
    rw [List.map_map]
    exact List.map_congr_left fun r hr => Row.chomp_render (hvalid r hr)
  rw [readAll, hlines]
  apply readFrom_render
  intro r hr
  obtain ⟨q, hq, rfl⟩ := List.mem_map.mp hr
  exact Row.valid_mapComment (hvalid q hq)

/-- The lines of any source are valid, and no comment runs over the end of its line. -/
theorem Line.readAll_eq_ok {source : String} {ls : List Line} (h : Line.readAll source = .ok ls) :
    ∀ l ∈ ls, l.Valid ∧ Comment.OneLine l.comment :=
  readFrom_eq_ok (fun _ htext => Text.not_mem_lines htext) h

end Stacklet

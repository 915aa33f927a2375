import Stacklet.Proofs.Input
import Stacklet.Proofs.Output

/-!
Interactive sessions. The lines of an input are cut into chunks, where all lines of a chunk but the
last end in a space. A session evaluates the complete chunks, each once and in order, and prints the
prompts and what the chunks have to show. Lines that are left at the end are never evaluated.
-/

namespace Stacklet

theorem Evaluation.ofSource_of_parse {source : String} {b : Block}
    (h : Block.parse source = .ok b) (limit : Nat) (stack : Stack) (e : ScopeId) (w : World) :
    ofSource limit source stack e w = ofRun ((Machine.start b stack e w).run limit) := by
  rw [ofSource, h]

theorem Evaluation.ofRun_of_done {run : Run} {s : State} (h : run.ending? = some (.done, s)) :
    ofRun run = .ok s.stack s.world := by
  cases run with
  | finished m unspent =>
    cases h
    rfl
  | failed f => cases h
  | running m => cases h

theorem Evaluation.ofRun_of_failed {run : Run} {s : State} {fault : Fault} {a : Statement}
    (h : run.ending? = some (.failed fault a, s)) :
    ∃ f, ofRun run = .failed (.execution f) s.world ∧ f.fault = fault ∧ f.statement = a := by
  cases run with
  | finished m unspent => cases h
  | failed f =>
    cases h
    exact ⟨f, rfl, rfl, rfl⟩
  | running m => cases h

theorem Evaluation.ofRun_of_running {run : Run} (h : run.ending? = none) :
    ∃ w, ofRun run = .unfinished w := by
  cases run with
  | finished m unspent => cases h
  | failed f => cases h
  | running m => exact ⟨m.world, rfl⟩

/-- A run that ends does so within every limit that is large enough. -/
theorem Machine.Ends.exists_limit {m : Machine} {o : Outcome} {s : State} (h : m.Ends o s) :
    ∃ least, ∀ limit ≥ least, (m.run limit).ending? = some (o, s) := by
  induction h with
  | done hf =>
    refine ⟨0, fun limit _ => ?_⟩
    rw [run.eq_def, if_pos (by simp [isFinished, hf])]
    rfl
  | @failed m f hstep =>
    have hf : m.isFinished = false := by
      cases hm : m.frames with
      | nil => simp [Machine.step, hm] at hstep
      | cons => simp [isFinished, hm]
    refine ⟨1, fun limit hlimit => ?_⟩
    obtain ⟨n, rfl⟩ := Nat.exists_eq_add_of_le' hlimit
    rw [run, if_neg (by simp [hf])]
    simp only [hstep]
    rfl
  | step hf hstep _ ih =>
    obtain ⟨least, hleast⟩ := ih
    refine ⟨least + 1, fun limit hlimit => ?_⟩
    obtain ⟨n, rfl⟩ := Nat.exists_eq_add_of_le' (Nat.le_trans (Nat.le_add_left 1 least) hlimit)
    rw [run, if_neg (by simpa [isFinished] using hf)]
    simp only [hstep]
    exact hleast n (by omega)

namespace Repl

/-! Chunks. -/

/-- The line is continued on the next one. -/
def Continued (line : String) : Prop := line.toList.getLast? = some ' '

instance (line : String) : Decidable (Continued line) := inferInstanceAs (Decidable (_ = _))

/-- Some lines that are continued, and one that is not. -/
structure Chunk where
  continued : List String
  last : String
  continues : ∀ line ∈ continued, Continued line
  completes : ¬ Continued last

def Chunk.lines (c : Chunk) : List String := c.continued ++ [c.last]

def Chunk.source (c : Chunk) : String := "\n".intercalate c.lines

/-- The line without the line feeds and carriage returns it ends in. -/
def strip (line : List Char) : String := String.ofList (line.rdropWhile isLineEnd)

def linesOf (text : String) : List String := (Text.physicalLines text.toList).map strip

/-- The lines are cut into chunks, up to some that are continued but never completed. -/
structure Cut (lines : List String) (chunks : List Chunk) (left : List String) : Prop where
  eq_append : lines = chunks.flatMap Chunk.lines ++ left
  continues : ∀ line ∈ left, Continued line

theorem exists_cut (lines : List String) : ∃ chunks left, Cut lines chunks left := by
  induction lines with
  | nil => exact ⟨[], [], rfl, by simp⟩
  | cons line lines ih =>
    obtain ⟨chunks, left, heq, hleft⟩ := ih
    by_cases hline : Continued line
    · cases chunks with
      | nil => exact ⟨[], line :: left, by rw [heq]; rfl, by simpa using ⟨hline, hleft⟩⟩
      | cons c chunks =>
        refine ⟨⟨line :: c.continued, c.last, ?_, c.completes⟩ :: chunks, left, ?_, hleft⟩
        · simpa using ⟨hline, c.continues⟩
        · rw [heq]
          rfl
    · exact ⟨⟨[], line, by simp, hline⟩ :: chunks, left, by rw [heq]; rfl, hleft⟩

theorem takeWhile_continued {lines rest : List String} {last : String}
    (hlines : ∀ line ∈ lines, Continued line) (hlast : ¬ Continued last) :
    (lines ++ last :: rest).takeWhile (decide <| Continued ·) = lines := by
  rw [List.takeWhile_append_of_pos (by simpa using hlines),
    List.takeWhile_cons_of_neg (by simpa using hlast), List.append_nil]

theorem Chunk.eq_of_append {c d : Chunk} {rest rest' : List String}
    (h : c.lines ++ rest = d.lines ++ rest') : c = d ∧ rest = rest' := by
  obtain ⟨lines, last, hlines, hlast⟩ := c
  obtain ⟨lines', last', hlines', hlast'⟩ := d
  simp only [Chunk.lines, List.append_assoc, List.singleton_append] at h
  obtain rfl : lines = lines' := by
    rw [← takeWhile_continued hlines hlast, h, takeWhile_continued hlines' hlast']
  obtain ⟨rfl, rfl⟩ := List.cons.inj (List.append_cancel_left h)
  exact ⟨rfl, rfl⟩

theorem not_continued_of_eq {left rest : List String} {c : Chunk} (h : left = c.lines ++ rest) :
    ¬ ∀ line ∈ left, Continued line := by
  intro hleft
  apply c.completes
  apply hleft
  simp [h, Chunk.lines]

theorem Cut.unique {lines : List String} {chunks chunks' : List Chunk} {left left' : List String}
    (h : Cut lines chunks left) (h' : Cut lines chunks' left') :
    chunks = chunks' ∧ left = left' := by
  induction chunks generalizing lines chunks' with
  | nil =>
    cases chunks' with
    | nil => exact ⟨rfl, h.eq_append.symm.trans h'.eq_append⟩
    | cons d chunks' =>
      have heq := h.eq_append.symm.trans h'.eq_append
      rw [List.flatMap_cons, List.append_assoc] at heq
      exact absurd h.continues (not_continued_of_eq heq)
  | cons c chunks ih =>
    have heq := h'.eq_append.symm.trans h.eq_append
    cases chunks' with
    | nil =>
      rw [List.flatMap_cons, List.append_assoc] at heq
      exact absurd h'.continues (not_continued_of_eq heq)
    | cons d chunks' =>
      rw [List.flatMap_cons, List.append_assoc, List.flatMap_cons, List.append_assoc] at heq
      obtain ⟨rfl, hrest⟩ := Chunk.eq_of_append heq
      obtain ⟨rfl, rfl⟩ := ih ⟨rfl, h.continues⟩ ⟨hrest.symm, h'.continues⟩
      exact ⟨rfl, rfl⟩

/-! Replies. -/

/-- What is printed after an evaluation that leaves a stack. -/
def closing (stack : Stack) : Outcome → String
  | .done => if stack.isEmpty then "" else stack.render ++ "\n"
  | .failed fault a =>
    "Error: " ++ ("Error executing statement: " ++ a.render ++ " - " ++ fault.message) ++ "\n"

/-- What a session with the scopes `h` shows for a source, and the scopes that are left. The source
is evaluated on an empty stack, and what it writes comes first. -/
inductive Replies (h : Scopes) (source : String) : Scopes → List UInt8 → Prop where
  | unreadable {e : ParseError} : Block.parse source = .error e →
      Replies h source h ("Error: " ++ e.message ++ "\n").toUTF8.toList
  | evaluated {b : Block} {o : Outcome} {s : State} : Block.parse source = .ok b →
      Evaluates World.program (.statements b) ⟨.empty, ⟨h, .console [] 0⟩⟩ o s →
        Replies h source s.world.scopes
          (s.world.stdout.toList ++ (closing s.stack o).toUTF8.toList)

/-- A prompt for the first line of a chunk, and one for each further line. -/
def prompts (further : Nat) : List UInt8 :=
  "> ".toUTF8.toList ++ (List.replicate further "| ".toUTF8.toList).flatten

/-- What a session prints for chunks, each of which is evaluated in the scopes that the one before
has left. -/
inductive Transcript : Scopes → List Chunk → List UInt8 → Prop where
  | nil {h : Scopes} : Transcript h [] []
  | cons {h h' : Scopes} {c : Chunk} {chunks : List Chunk} {reply rest : List UInt8} :
      Replies h c.source h' reply → Transcript h' chunks rest →
        Transcript h (c :: chunks) (prompts c.continued.length ++ reply ++ rest)

/-! Entering a line. -/

section Enter

variable {limit : Nat} {r : Repl} {line : List Char} {h : Scopes} {shown : List UInt8}

theorem respond_line :
    r.respond limit (String.ofList line).toUTF8 = r.enter limit (.ofList line) := by
  rw [respond, Text.fromUTF8?_toUTF8]

theorem enter_continued (hline : Continued (strip line)) :
    r.enter limit (.ofList line) =
      .ready { r with pending := r.pending ++ strip line ++ "\n" } := by
  rw [Continued, strip, String.toList_ofList] at hline
  rw [enter, String.toList_ofList]
  exact if_pos hline

theorem enter_completed (hline : ¬ Continued (strip line)) :
    r.enter limit (.ofList line) =
      match Evaluation.ofSource limit (r.pending ++ strip line) .empty World.program r.world with
      | .ok stack world => .ready ⟨"", world.printStack stack⟩
      | .failed e world => .ready ⟨"", world.print ("Error: " ++ e.message ++ "\n")⟩
      | .unfinished world => .unfinished world := by
  rw [Continued, strip, String.toList_ofList] at hline
  rw [enter, String.toList_ofList]
  exact if_neg hline

theorem enter_unreadable {e : ParseError} (hline : ¬ Continued (strip line))
    (hparse : Block.parse (r.pending ++ strip line) = .error e) :
    r.enter limit (.ofList line) =
      .ready ⟨"", r.world.print ("Error: " ++ e.message ++ "\n")⟩ := by
  rw [enter_completed hline, Evaluation.ofSource, hparse]
  rfl

/-- The world after an evaluation, once its outcome is printed. -/
def concluded (s : State) : Outcome → World
  | .done => s.world.printStack s.stack
  | .failed fault a => s.world.print (closing s.stack (.failed fault a))

theorem shows_concluded {s : State} (hs : s.world.Shows h shown) (o : Outcome) :
    (concluded s o).Shows h (shown ++ (closing s.stack o).toUTF8.toList) := by
  cases o with
  | done =>
    rw [concluded, World.printStack, closing]
    split
    · rw [Text.toList_toUTF8]
      simpa [Text.encode] using hs
    · exact hs.print _
  | failed fault a => exact hs.print _

theorem enter_ended {b : Block} {o : Outcome} {s : State} (hline : ¬ Continued (strip line))
    (hparse : Block.parse (r.pending ++ strip line) = .ok b)
    (hrun : ((Machine.start b .empty World.program r.world).run limit).ending? = some (o, s)) :
    r.enter limit (.ofList line) = .ready ⟨"", concluded s o⟩ := by
  rw [enter_completed hline, Evaluation.ofSource_of_parse hparse]
  cases o with
  | done => rw [Evaluation.ofRun_of_done hrun, concluded]
  | failed fault a =>
    obtain ⟨f, hf, rfl, rfl⟩ := Evaluation.ofRun_of_failed hrun
    rw [hf]
    rfl

theorem enter_running {b : Block} (hline : ¬ Continued (strip line))
    (hparse : Block.parse (r.pending ++ strip line) = .ok b)
    (hrun : ((Machine.start b .empty World.program r.world).run limit).ending? = none) :
    ∃ w, r.enter limit (.ofList line) = .unfinished w := by
  obtain ⟨w, hw⟩ := Evaluation.ofRun_of_running hrun
  rw [enter_completed hline, Evaluation.ofSource_of_parse hparse, hw]
  exact ⟨w, rfl⟩

/-- A completed source is not evaluated to its end, or the session shows its reply. -/
theorem unfinished_or_replies (hline : ¬ Continued (strip line)) (hw : r.world.Shows h shown)
    (hh : h.Steady) (limit : Nat) :
    (∃ w, r.enter limit (.ofList line) = .unfinished w) ∨
      ∃ h' reply r', Replies h (r.pending ++ strip line) h' reply ∧ h'.Steady ∧
        r.enter limit (.ofList line) = .ready r' ∧ r'.pending = "" ∧
        r'.world.Shows h' (shown ++ reply) := by
  cases hparse : Block.parse (r.pending ++ strip line) with
  | error e =>
    exact .inr ⟨h, _, _, .unreadable hparse, hh, enter_unreadable hline hparse, rfl, hw.print _⟩
  | ok b =>
    cases hrun : ((Machine.start b .empty World.program r.world).run limit).ending? with
    | none => exact .inl (enter_running hline hparse hrun)
    | some ending =>
      obtain ⟨o, s⟩ := ending
      have heval := Machine.ends_start_iff.mp (Machine.ends_of_run hrun)
      obtain ⟨s', data, heval', hstack, hscopes, hsteady, hs, hs'⟩ :=
        heval.on_console hw hh ⟨0, rfl⟩
      have hreply := Replies.evaluated hparse heval'
      have hshows := shows_concluded hs o
      rw [hstack, hscopes, hs'.stdout] at hreply
      rw [List.append_assoc] at hshows
      exact .inr ⟨s.world.scopes, _, _, hreply, hsteady, enter_ended hline hparse hrun, rfl, hshows⟩

/-- A source that has a reply is evaluated to its end if the limit is large enough. -/
theorem Replies.enter {h' : Scopes} {reply : List UInt8}
    (hreply : Replies h (r.pending ++ strip line) h' reply) (hline : ¬ Continued (strip line))
    (hw : r.world.Shows h shown) (hh : h.Steady) :
    h'.Steady ∧ ∃ least r', (∀ limit ≥ least, r.enter limit (.ofList line) = .ready r') ∧
      r'.pending = "" ∧ r'.world.Shows h' (shown ++ reply) := by
  cases hreply with
  | unreadable hparse =>
    exact ⟨hh, 0, _, fun limit _ => enter_unreadable hline hparse, rfl, hw.print _⟩
  | @evaluated b o s hparse heval =>
    obtain ⟨s', data, heval', hstack, -, hsteady, hs, hs'⟩ := heval.on_console ⟨0, rfl⟩ hh hw
    obtain ⟨least, hleast⟩ := (Machine.ends_start_iff.mpr heval').exists_limit
    have hshows := shows_concluded hs' o
    rw [List.append_assoc, hstack] at hshows
    rw [hs.stdout]
    exact ⟨hsteady, least, ⟨"", concluded s' o⟩,
      fun limit hlimit => enter_ended hline hparse (hleast limit hlimit), rfl, hshows⟩

end Enter

/-! Sessions. -/

/-- Lines as they are taken from the input. -/
def encoded (lines : List (List Char)) : List ByteArray :=
  lines.map fun line => (String.ofList line).toUTF8

theorem encoded_append (lines lines' : List (List Char)) :
    encoded (lines ++ lines') = encoded lines ++ encoded lines' := List.map_append

section Line

variable {limit : Nat} {r : Repl} {line : List Char} (rest : List ByteArray)

theorem session_ready {r' : Repl} (h : r.prompt.enter limit (.ofList line) = .ready r') :
    r.session limit (encoded [line] ++ rest) = r'.session limit rest := by
  change r.session limit ((String.ofList line).toUTF8 :: rest) = _
  rw [session, respond_line, h]

theorem session_unfinished {w : World} (h : r.prompt.enter limit (.ofList line) = .unfinished w) :
    r.session limit (encoded [line] ++ rest) = .unfinished w.stdout := by
  change r.session limit ((String.ofList line).toUTF8 :: rest) = _
  rw [session, respond_line, h]

end Line

theorem session_end (limit : Nat) {r : Repl} {h : Scopes} {shown : List UInt8}
    (hw : r.prompt.world.Shows h shown) :
    r.session limit [] = .done ⟨shown.toArray, "", 0⟩ := by
  rw [session, Report.success, hw.stdout]

/-- Continued lines are kept, and each brings another prompt. -/
theorem exists_session_continued {lines : List (List Char)}
    (hlines : ∀ line ∈ lines, Continued (strip line)) {r : Repl} {h : Scopes} {shown : List UInt8}
    (hw : r.world.Shows h shown) :
    ∃ r' : Repl, (∀ limit rest, r.session limit (encoded lines ++ rest) = r'.session limit rest) ∧
      r'.pending = r.pending ++ String.join (lines.map (strip · ++ "\n")) ∧
      r'.prompt.world.Shows h (shown ++ (if r.pending.isEmpty then "> " else "| ").toUTF8.toList ++
        (List.replicate lines.length "| ".toUTF8.toList).flatten) := by
  induction lines generalizing r shown with
  | nil =>
    refine ⟨r, fun _ _ => rfl, ?_, ?_⟩
    · simp [String.join]
    · rw [List.length_nil, List.replicate_zero, List.flatten_nil, List.append_nil]
      exact hw.print _
  | cons line lines ih =>
    have hfirst : Continued (strip line) := hlines line (List.mem_cons_self ..)
    have hprompt : r.prompt.world.Shows h _ := hw.print (if r.pending.isEmpty then "> " else "| ")
    let next : Repl := ⟨r.pending ++ strip line ++ "\n", r.prompt.world⟩
    obtain ⟨r', hsession, hpending, hshows⟩ :=
      ih (r := next) (fun l hl => hlines l (List.mem_cons_of_mem _ hl)) hprompt
    refine ⟨r', fun limit rest => ?_, ?_, ?_⟩
    · rw [← List.singleton_append, encoded_append, List.append_assoc,
        session_ready _ (enter_continued hfirst)]
      exact hsession limit rest
    · rw [hpending]
      simp [next, String.join_cons, String.append_assoc]
    -- What is kept ends in a line feed, so only the first prompt can be that of a new chunk.
    · have hnext : next.pending.isEmpty = false := by simp [next]
      rw [hnext] at hshows
      simpa [List.replicate_succ, List.append_assoc] using hshows

theorem intercalate_concat (lines : List String) (last : String) :
    "\n".intercalate (lines ++ [last]) = String.join (lines.map (· ++ "\n")) ++ last := by
  induction lines with
  | nil => simp
  | cons line lines ih =>
    rw [List.cons_append, String.intercalate_cons_of_ne_nil (by simp), ih, List.map_cons,
      String.join_cons]
    simp only [String.append_assoc]

/-- A session that is ready for a chunk. -/
structure Ready (r : Repl) (h : Scopes) (shown : List UInt8) : Prop where
  pending : r.pending = ""
  shows : r.world.Shows h shown
  steady : h.Steady

variable {r : Repl} {h : Scopes} {shown : List UInt8} {lines : List (List Char)}

theorem Ready.exists_continued (hr : Ready r h shown)
    (hlines : ∀ line ∈ lines, Continued (strip line)) :
    ∃ r' : Repl, (∀ limit rest, r.session limit (encoded lines ++ rest) = r'.session limit rest) ∧
      r'.pending = String.join (lines.map (strip · ++ "\n")) ∧
      r'.prompt.world.Shows h (shown ++ prompts lines.length) := by
  obtain ⟨r', hsession, hpending, hshows⟩ := exists_session_continued hlines hr.shows
  rw [hr.pending] at hpending hshows
  refine ⟨r', hsession, ?_, ?_⟩
  · simpa using hpending
  · rw [List.append_assoc] at hshows
    exact hshows

/-- The last line of a chunk is entered with all of its source. -/
theorem Ready.exists_last {c : Chunk} (hr : Ready r h shown) (hlines : lines.map strip = c.lines) :
    ∃ (r' : Repl) (line : List Char),
      (∀ limit rest, r.session limit (encoded lines ++ rest) =
        r'.session limit (encoded [line] ++ rest)) ∧
      ¬ Continued (strip line) ∧ r'.prompt.pending ++ strip line = c.source ∧
      r'.prompt.world.Shows h (shown ++ prompts c.continued.length) := by
  obtain ⟨before, last, rfl, hbefore, hlast⟩ := List.map_eq_append_iff.mp hlines
  obtain ⟨line, rfl, hline⟩ := List.map_eq_singleton_iff.mp hlast
  have hcontinued : ∀ line ∈ before, Continued (strip line) := by
    intro line hmem
    apply c.continues
    rw [← hbefore]
    exact List.mem_map_of_mem hmem
  obtain ⟨r', hsession, hpending, hshows⟩ := hr.exists_continued hcontinued
  refine ⟨r', line, fun limit rest => ?_, ?_, ?_, ?_⟩
  · rw [encoded_append, List.append_assoc, hsession]
  · rw [hline]
    exact c.completes
  · rw [Chunk.source, Chunk.lines, intercalate_concat, ← hbefore, hline, List.map_map]
    exact congrArg (· ++ c.last) hpending
  · rwa [← hbefore, List.length_map]

/-- A session that comes to its end has answered the chunk it started with. -/
theorem Ready.of_session {c : Chunk} (hr : Ready r h shown) (hlines : lines.map strip = c.lines)
    {limit : Nat} {rest : List ByteArray} {report : Report}
    (hdone : r.session limit (encoded lines ++ rest) = .done report) :
    ∃ h' reply r', Replies h c.source h' reply ∧
      Ready r' h' (shown ++ (prompts c.continued.length ++ reply)) ∧
      r'.session limit rest = .done report := by
  obtain ⟨r₁, line, hsession, hline, hsource, hshows⟩ := hr.exists_last hlines
  rw [hsession] at hdone
  rcases unfinished_or_replies hline hshows hr.steady limit with
    ⟨w, henter⟩ | ⟨h', reply, r', hreply, hsteady, henter, hpending, hshows'⟩
  · rw [session_unfinished rest henter] at hdone
    cases hdone
  · rw [session_ready rest henter] at hdone
    rw [hsource] at hreply
    rw [List.append_assoc] at hshows'
    exact ⟨h', reply, r', hreply, ⟨hpending, hshows', hsteady⟩, hdone⟩

/-- Within a limit that is large enough, a session answers a chunk and is ready for the next. -/
theorem Ready.session {c : Chunk} (hr : Ready r h shown) (hlines : lines.map strip = c.lines)
    {h' : Scopes} {reply : List UInt8} (hreply : Replies h c.source h' reply) :
    ∃ least r', (∀ limit ≥ least, ∀ rest,
        r.session limit (encoded lines ++ rest) = r'.session limit rest) ∧
      Ready r' h' (shown ++ (prompts c.continued.length ++ reply)) := by
  obtain ⟨r₁, line, hsession, hline, hsource, hshows⟩ := hr.exists_last hlines
  rw [← hsource] at hreply
  obtain ⟨hsteady, least, r', henter, hpending, hshows'⟩ := hreply.enter hline hshows hr.steady
  rw [List.append_assoc] at hshows'
  refine ⟨least, r', fun limit hlimit rest => ?_, hpending, hshows', hsteady⟩
  rw [hsession, session_ready rest (henter limit hlimit)]

theorem Ready.session_left (hr : Ready r h shown)
    (hlines : ∀ line ∈ lines.map strip, Continued line) (limit : Nat) :
    r.session limit (encoded lines) =
      .done ⟨(shown ++ prompts (lines.map strip).length).toArray, "", 0⟩ := by
  obtain ⟨r', hsession, -, hshows⟩ := hr.exists_continued (List.forall_mem_map.mp hlines)
  rw [← List.append_nil (encoded lines), hsession, session_end limit hshows, List.length_map]

theorem Ready.exists_transcript {chunks : List Chunk} {left : List String} (hr : Ready r h shown)
    (hcut : Cut (lines.map strip) chunks left) {limit : Nat} {report : Report}
    (hdone : r.session limit (encoded lines) = .done report) :
    ∃ out, Transcript h chunks out ∧
      report = ⟨(shown ++ (out ++ prompts left.length)).toArray, "", 0⟩ := by
  obtain ⟨heq, hleft⟩ := hcut
  induction chunks generalizing r h shown lines with
  | nil =>
    obtain rfl : lines.map strip = left := heq
    rw [hr.session_left hleft] at hdone
    exact ⟨[], .nil, (Progress.done.inj hdone).symm⟩
  | cons c chunks ih =>
    rw [List.flatMap_cons, List.append_assoc] at heq
    obtain ⟨first, others, rfl, hfirst, hothers⟩ := List.map_eq_append_iff.mp heq
    rw [encoded_append] at hdone
    obtain ⟨h', reply, r', hreply, hr', hrest⟩ := hr.of_session hfirst hdone
    obtain ⟨out, hout, rfl⟩ := ih hr' hrest hothers
    exact ⟨_, .cons hreply hout, by simp⟩

theorem Transcript.exists_session {chunks : List Chunk} {out : List UInt8} {left : List String}
    (ht : Transcript h chunks out) (hr : Ready r h shown)
    (hcut : Cut (lines.map strip) chunks left) :
    ∃ least, ∀ limit ≥ least, r.session limit (encoded lines) =
      .done ⟨(shown ++ (out ++ prompts left.length)).toArray, "", 0⟩ := by
  obtain ⟨heq, hleft⟩ := hcut
  induction ht generalizing r shown lines with
  | nil =>
    obtain rfl : lines.map strip = left := heq
    exact ⟨0, fun limit _ => hr.session_left hleft limit⟩
  | @cons h h' c chunks reply rest hreply _ ih =>
    rw [List.flatMap_cons, List.append_assoc] at heq
    obtain ⟨first, others, rfl, hfirst, hothers⟩ := List.map_eq_append_iff.mp heq
    obtain ⟨least, r', hsession, hr'⟩ := hr.session hfirst hreply
    obtain ⟨least', hleast'⟩ := ih hr' hothers
    refine ⟨max least least', fun limit hlimit => ?_⟩
    rw [encoded_append, hsession limit (Nat.le_trans (Nat.le_max_left ..) hlimit),
      hleast' limit (Nat.le_trans (Nat.le_max_right ..) hlimit)]
    simp

theorem ready_start : Ready start World.console.scopes banner.toUTF8.toList :=
  ⟨rfl, World.console_shows.print banner, World.console_steady⟩

/-- What a session prints in all. -/
def output (out : List UInt8) (left : List String) : List UInt8 :=
  banner.toUTF8.toList ++ (out ++ prompts left.length)

/-- A session is a fold over the chunks of its input. The lines of a text can be cut into chunks in
one way. If the session comes to an end, each complete chunk has been evaluated, one after the other
in a scope under the base scope, and the output is made of the banner, a prompt for every line and
for the end of the input, and the replies of the chunks. And it comes to an end if all of them
do. -/
theorem run_folds_chunks (text : String) :
    (∃! cut : List Chunk × List String, Cut (linesOf text) cut.1 cut.2) ∧
    World.console.scopes.parent? World.program = some World.root ∧
    ∀ chunks left, Cut (linesOf text) chunks left →
      (∀ limit report, run limit text.toUTF8 = .done report →
        ∃ out, Transcript World.console.scopes chunks out ∧
          report = ⟨(output out left).toArray, "", 0⟩) ∧
      ∀ out, Transcript World.console.scopes chunks out →
        ∃ least, ∀ limit ≥ least,
          run limit text.toUTF8 = .done ⟨(output out left).toArray, "", 0⟩ := by
  refine ⟨?_, rfl, fun chunks left hcut => ⟨fun limit report hdone => ?_, fun out hout => ?_⟩⟩
  · obtain ⟨chunks, left, hcut⟩ := exists_cut (linesOf text)
    refine ⟨(chunks, left), hcut, fun other hother => ?_⟩
    obtain ⟨hchunks, hleft⟩ := hother.unique hcut
    exact Prod.ext hchunks hleft
  · rw [run, map_linesFrom_toUTF8] at hdone
    exact ready_start.exists_transcript hcut hdone
  · simp only [run, map_linesFrom_toUTF8]
    exact hout.exists_session ready_start hcut

def seven : Number := ⟨.int32, 7, by decide⟩

/-- Binds a name, and writes a byte before it comes to a name that is not bound. -/
def interrupted : Chunk :=
  ⟨["x = 7 "], "cout 33b to-be write y", by decide +kernel, by decide +kernel⟩

def writing : Statement :=
  .expression [.identifier "cout", .number (.ofByte 33), .identifier "to-be", .identifier "write",
    .identifier "y"] none

/-- The scopes that the interrupted chunk leaves. -/
def afterInterrupted : Scopes :=
  (World.console.scopes.extend World.program).2.bindAll World.program ["x"] [.number seven]

theorem evaluates_interrupted :
    Evaluates World.program
      (.statements [.assignment ["x"] [.expression [.number seven] none] none, writing])
      ⟨.empty, ⟨World.console.scopes, .console [] 0⟩⟩ (.failed (.unboundName "y") writing)
      ⟨.empty, ⟨afterInterrupted, .console [33] 2⟩⟩ := by
  have hroot {x : String} (hx : afterInterrupted.local? World.program x = none) :
      afterInterrupted.get? World.program x = afterInterrupted.get? World.root x :=
    Scopes.get?_of_parent? hx rfl Nat.zero_lt_one
  have hcout : afterInterrupted.get? World.program "cout" =
      some (.value (.stream Builtin.cout)) := (hroot rfl).trans (Scopes.get?_of_local? rfl)
  have htoBE : afterInterrupted.get? World.program "to-be" = some (.host Builtin.toBE) :=
    (hroot rfl).trans (Scopes.get?_of_local? rfl)
  have hwrite : afterInterrupted.get? World.program "write" = some (.host Builtin.write) :=
    (hroot rfl).trans (Scopes.get?_of_local? rfl)
  have hy : afterInterrupted.get? World.program "y" = none := by
    rw [hroot rfl, Scopes.get?]
    rfl
  have hbytes : (Builtin.toBE.invoke [.number (.ofByte 33)]).run (.console [] 0) =
      (.ok [.ofBytes [33]], .console [] 0) := rfl
  have hwritten : (Builtin.write.invoke [.stream Builtin.cout, .ofBytes [33]]).run
      (.console [] 0) = (.ok [], .console [33] 2) := by
    have hdata : HostM.write Builtin.cout [33] (.console [] 0) = (.ok (), .console [33] 2) := by
      simp only [HostM.write, Builtin.cout, Writers.write_console]
      rfl
    change (HostM.write Builtin.cout [33] >>= fun results =>
      pure (ValueType.valueAll [] results)) (.console [] 0) = _
    rw [HostM.bind_of_ok hdata]
    rfl
  have hfirst : [Value.number (.ofByte 33)].length = Builtin.toBE.parameters.length := rfl
  have hsecond : [Value.stream Builtin.cout, .ofBytes [33]].length =
      Builtin.write.parameters.length := rfl
  have hbinds : Evaluates World.program
      (.statement (.assignment ["x"] [.expression [.number seven] none] none))
      ⟨.empty, ⟨World.console.scopes, .console [] 0⟩⟩ .done
      ⟨.empty, ⟨afterInterrupted, .console [] 0⟩⟩ :=
    .assignment (.cons (.expression (.termsCons .number .termsNil)) .nil)
      (.binding (binds_iff.mpr ⟨[.number seven], [], rfl, rfl, rfl⟩))
  refine .cons hbinds (.consFailed (.expression ?_))
  refine .termsCons (.value hcout) (.termsCons .number ?_)
  refine .termsCons (.host htoBE hfirst rfl hbytes) ?_
  exact .termsCons (.host hwrite hsecond rfl hwritten) (.termsFailed (.unbound hy))

/-- What a chunk has written before it fails is shown, and the name it has bound stays bound. A
chunk that cannot be read is answered, and the last line is left without an evaluation. -/
theorem interrupted_folds_chunks :
    linesOf "x = 7 \ncout 33b to-be write y\n=\nx\r\nz " =
        ["x = 7 ", "cout 33b to-be write y", "=", "x", "z "] ∧
      ∃ least, ∀ limit ≥ least,
        run limit "x = 7 \ncout 33b to-be write y\n=\nx\r\nz ".toUTF8 =
          .done ⟨(banner ++ ("> | !Error: Error executing statement: cout 33b to-be write y - " ++
            "Unbound name: y\n> Error: Line 1: syntax error: Missing binding before \"=\"\n" ++
            "> [ 7 ]\n> | ")).toUTF8.toList.toArray, "", 0⟩ := by
  have hlines : linesOf "x = 7 \ncout 33b to-be write y\n=\nx\r\nz " =
      ["x = 7 ", "cout 33b to-be write y", "=", "x", "z "] := by decide +kernel
  let misspelt : Chunk := ⟨[], "=", by decide, by decide +kernel⟩
  let recalled : Chunk := ⟨[], "x", by decide, by decide +kernel⟩
  have hcut : Cut (linesOf "x = 7 \ncout 33b to-be write y\n=\nx\r\nz ")
      [interrupted, misspelt, recalled] ["z "] := ⟨hlines, by decide +kernel⟩
  have hread : Block.parse interrupted.source =
      .ok [.assignment ["x"] [.expression [.number seven] none] none, writing] := by
    decide +kernel
  have hunread : Block.parse misspelt.source =
      .error (.syntaxError ⟨1, .missingAssignmentBinding⟩) := by decide +kernel
  have hrecalled : Block.parse recalled.source = .ok [.expression [.identifier "x"] none] := by
    decide +kernel
  have hvalue : afterInterrupted.get? World.program "x" = some (.value (.number seven)) :=
    Scopes.get?_of_local? rfl
  have heval : Evaluates World.program (.statements [.expression [.identifier "x"] none])
      ⟨.empty, ⟨afterInterrupted, .console [] 0⟩⟩ .done
      ⟨.ofList [.number seven], ⟨afterInterrupted, .console [] 0⟩⟩ :=
    .cons (.expression (.termsCons (.value hvalue) .termsNil)) .nil
  have htranscript := Transcript.cons (c := interrupted) (.evaluated hread evaluates_interrupted)
    (.cons (c := misspelt) (.unreadable hunread)
      (.cons (c := recalled) (.evaluated hrecalled heval) .nil))
  obtain ⟨least, hleast⟩ := ((run_folds_chunks _).2.2 _ _ hcut).2 _ htranscript
  refine ⟨hlines, least, fun limit hlimit => ?_⟩
  rw [hleast limit hlimit]
  rw [output, Text.toList_toUTF8_append banner]
  apply congrArg fun bytes : List UInt8 =>
    Progress.done ⟨(banner.toUTF8.toList ++ bytes).toArray, "", 0⟩
  decide +kernel

end Repl

end Stacklet

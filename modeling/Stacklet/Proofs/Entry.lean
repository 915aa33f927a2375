import Mathlib.Data.List.ModifyLast
import Stacklet.Proofs.Frames
import Stacklet.Proofs.Session

/-!
Programs and their entries. A run takes the same steps above frames that wait, and in a block that
goes on after the one it runs. So to evaluate a source and call its entry is to run its block with
one more statement, the entry's name.
-/

namespace Stacklet

/-- What becomes of a run that is part of a longer one: the longer one goes on from where the part
finished, and before that its machines are those of the part, with a change. -/
def Run.onward (next : Machine → Nat → Run) (change : Machine → Machine) : Run → Run
  | finished m unspent => next m unspent
  | failed f => .failed { f with machine := change f.machine }
  | running m => .running (change m)

namespace Machine

variable {m m' : Machine}

/-- The run takes so many steps to finish. Within a smaller limit it is still running, and what a
larger one allows beyond them is unspent. -/
structure FinishesIn (m : Machine) (spent : Nat) (m' : Machine) : Prop where
  finished : ∀ j, m.run (spent + j) = .finished m' j
  running : ∀ limit < spent, ∃ m₁, m.run limit = .running m₁

theorem FinishesIn.running_or_finished {spent : Nat} (h : m.FinishesIn spent m') (limit : Nat) :
    (∃ m₁, m.run limit = .running m₁) ∨ ∃ j, limit = spent + j := by
  rcases Nat.lt_or_ge limit spent with hlt | hge
  · exact .inl (h.running limit hlt)
  · exact .inr (Nat.exists_eq_add_of_le hge)

theorem exists_finishesIn {n unspent : Nat} (h : m.run n = .finished m' unspent) :
    m'.frames = [] ∧ ∃ spent, m.FinishesIn spent m' := by
  fun_induction run n m with
  | case1 n m hf =>
    cases h
    refine ⟨List.isEmpty_iff.mp hf, 0, fun j => ?_, fun limit hlimit => ?_⟩
    · rw [Nat.zero_add, run_of_finished hf]
    · exact absurd hlimit (Nat.not_lt_zero _)
  | case2 => cases h
  | case3 m hf n m₁ hstep ih =>
    obtain ⟨hend, spent, hfinished, hrunning⟩ := ih h
    refine ⟨hend, spent + 1, fun j => ?_, fun limit hlimit => ?_⟩
    · rw [Nat.add_right_comm, run_succ_of_ok hf hstep]
      exact hfinished j
    · cases limit with
      | zero => exact ⟨m, run_zero hf⟩
      | succ limit =>
        rw [run_succ_of_ok hf hstep]
        exact hrunning limit (Nat.lt_of_succ_lt_succ hlimit)
  | case4 => cases h

/-- The machine with frames that wait until its own are left. -/
def under (m : Machine) (below : List Frame) : Machine := { m with frames := m.frames ++ below }

theorem of_under (frames below : List Frame) (s : State) :
    (of frames s).under below = of (frames ++ below) s := rfl

theorem under_of_finished (h : m.frames = []) (below : List Frame) :
    m.under below = of below m.state := by
  rw [under, h]
  rfl

theorem run_under (m : Machine) (below : List Frame) (limit : Nat) :
    (m.under below).run limit =
      (m.run limit).onward (fun m' unspent => (m'.under below).run unspent) (·.under below) := by
  have hbusy {m : Machine} (hf : ¬ m.isFinished) : ¬ (m.under below).isFinished := by
    simp only [isFinished, List.isEmpty_iff] at hf
    simp [isFinished, under, hf]
  fun_induction run limit m with
  | case1 => rfl
  | case2 m hf => exact run_zero (hbusy hf)
  | case3 m hf n m₁ hstep ih =>
    obtain ⟨f, frames, fs, s', hm, hadv, rfl⟩ :=
      exists_advances (length_pos_of_not_finished hf) hstep
    have hunder : (m.under below).step = .ok (of (fs ++ (frames ++ below)) s') := by
      rw [hm]
      exact step_of_advances hadv (frames ++ below)
    rw [run_succ_of_ok (hbusy hf) hunder, ← ih, of_under, List.append_assoc]
  | case4 m hf n failure hstep =>
    obtain ⟨f, frames, s', hm, hfault, hmachine⟩ := exists_faults hstep
    have hunder : (m.under below).step =
        .error ⟨failure.fault, failure.statement, of (f :: frames ++ below) s'⟩ := by
      rw [hm]
      exact step_of_faults hfault (frames ++ below)
    rw [run_succ_of_error hunder, Run.onward, hmachine, of_under]

end Machine

namespace Frame

/-- The frame in a block that goes on with `rest`. -/
def continued (f : Frame) (rest : Block) : Frame := { f with block := f.block ++ rest }

variable {f : Frame} {a : Statement} {s s' : State}

theorem At.continued (ha : f.At a) (rest : Block) : (f.continued rest).At a :=
  (List.getElem?_append_left ha.lt_length).trans ha

theorem AtTerm.continued {t : Term} (ht : f.AtTerm a t) (rest : Block) :
    (f.continued rest).AtTerm a t := by
  obtain ⟨ha, ht⟩ := ht
  exact .mk (ha.continued rest) ht

/-- A frame that is not left takes the same step in the longer block. -/
theorem Advances.continued {fs : List Frame} (h : f.Advances s fs s') (hfs : fs ≠ [])
    (rest : Block) :
    (f.continued rest).Advances s (fs.modifyLast (·.continued rest)) s' := by
  cases h with
  | leave => exact absurd rfl hfs
  | number ht => exact .number (ht.continued rest)
  | value ht hv => exact .value (ht.continued rest) hv
  | guest ht hc => exact .guest (ht.continued rest) hc
  | host ht hc hlen hstack hrun => exact .host (ht.continued rest) hc hlen hstack hrun
  | comment ht => exact .comment (ht.continued rest)
  | block ht => exact .block (ht.continued rest)
  | expression ha ht => exact .expression (ha.continued rest) ht
  | enter ha h0 => exact .enter (ha.continued rest) h0
  | assign ha h0 hlen hstack => exact .assign (ha.continued rest) h0 hlen hstack
  | method ha => exact .method (ha.continued rest)

theorem Faults.continued {fault : Fault} (h : f.Faults s fault a s') (rest : Block) :
    (f.continued rest).Faults s fault a s' := by
  cases h with
  | unbound ht hn => exact .unbound (ht.continued rest) hn
  | callUnderflow ht hc hlt => exact .callUnderflow (ht.continued rest) hc hlt
  | host ht hc hlen hstack hrun => exact .host (ht.continued rest) hc hlen hstack hrun
  | assignUnderflow ha h0 hlt => exact .assignUnderflow (ha.continued rest) h0 hlt

end Frame

namespace Machine

/-- The machine with its bottom frame in a block that goes on with `rest`. -/
def continued (m : Machine) (rest : Block) : Machine :=
  { m with frames := m.frames.modifyLast (·.continued rest) }

theorem of_continued (above : List Frame) (f : Frame) (s : State) (rest : Block) :
    (of (above ++ [f]) s).continued rest = of (above ++ [f.continued rest]) s := by
  simp [continued, of, List.modifyLast_concat]

section Continued

variable {m m' : Machine} {above : List Frame} {f : Frame}

/-- A step either leaves the bottom frame, which then stands where the longer block goes on, or it
is the same in the longer block. -/
theorem step_continued (hm : m.frames = above ++ [f]) (hf : f.InBounds) (h : m.step = .ok m')
    (rest : Block) :
    (m'.frames = [] ∧
      m.continued rest = of [⟨f.block ++ rest, f.block.length, 0, f.scope⟩] m'.state) ∨
    ∃ above' f', m'.frames = above' ++ [f'] ∧ f'.InBounds ∧ f'.block = f.block ∧
      f'.scope = f.scope ∧ (m.continued rest).step = .ok (m'.continued rest) := by
  obtain ⟨f₀, frames, fs, s', hm₀, hadv, rfl⟩ := exists_advances (n := 0) (by simp [hm]) h
  rw [hm₀] at hm ⊢
  cases above with
  | nil =>
    obtain ⟨rfl, rfl⟩ : f₀ = f ∧ frames = [] := by simpa using hm
    rcases hadv.awaits with rfl | ⟨f', hf', hblock, hscope, hfs⟩
    · obtain ⟨hn⟩ := hadv
      have hend : f₀.statement = f₀.block.length :=
        Nat.le_antisymm hf.statement (List.getElem?_eq_none_iff.mp hn)
      refine .inl ⟨rfl, ?_⟩
      rw [← hend, ← hf.finished hend]
      rfl
    · have hlast : ∃ above', fs = above' ++ [f'] := by
        rcases hfs with rfl | ⟨g, rfl, -⟩
        · exact ⟨[], rfl⟩
        · exact ⟨[g], rfl⟩
      obtain ⟨above', rfl⟩ := hlast
      refine .inr ⟨above', f', List.append_nil _, hf', hblock, hscope, ?_⟩
      have hstep := step_of_advances (hadv.continued (by simp) rest) []
      rw [List.modifyLast_concat] at hstep
      rw [List.append_nil, of_continued, ← List.append_nil (above' ++ _)]
      exact hstep
  | cons g above =>
    obtain ⟨rfl, rfl⟩ : f₀ = g ∧ frames = above ++ [f] := by simpa using hm
    refine .inr ⟨fs ++ above, f, (List.append_assoc ..).symm, hf, rfl, rfl, ?_⟩
    rw [← List.cons_append, of_continued, ← List.append_assoc, of_continued, List.append_assoc]
    exact step_of_advances hadv (above ++ [f.continued rest])

theorem step_continued_of_error {failure : Failure} (hm : m.frames = above ++ [f])
    (h : m.step = .error failure) (rest : Block) :
    (m.continued rest).step =
      .error { failure with machine := failure.machine.continued rest } := by
  obtain ⟨f₀, frames, s', hm₀, hfault, hmachine⟩ := exists_faults h
  rw [hm₀] at hm ⊢
  rw [hmachine]
  cases above with
  | nil =>
    obtain ⟨rfl, rfl⟩ : f₀ = f ∧ frames = [] := by simpa using hm
    exact step_of_faults (hfault.continued rest) []
  | cons g above =>
    obtain ⟨rfl, rfl⟩ : f₀ = g ∧ frames = above ++ [f] := by simpa using hm
    rw [← List.cons_append, of_continued, of_continued]
    exact step_of_faults hfault (above ++ [f.continued rest])

/-- Where the longer block goes on, the run that is part of it has taken one more step, by which it
left its bottom frame. -/
theorem run_continued (hm : m.frames = above ++ [f]) (hf : f.InBounds) (rest : Block)
    (limit : Nat) :
    (m.continued rest).run limit =
      (m.run limit).onward
        (fun m' unspent =>
          (of [⟨f.block ++ rest, f.block.length, 0, f.scope⟩] m'.state).run (unspent + 1))
        (·.continued rest) := by
  have hbusy {m : Machine} {above : List Frame} {f : Frame} (hm : m.frames = above ++ [f]) :
      ¬ (m.continued rest).isFinished := by
    simp [isFinished, continued, hm, List.modifyLast_concat]
  fun_induction run limit m generalizing above f with
  | case1 n m hfin => simp [isFinished, hm] at hfin
  | case2 m => exact run_zero (hbusy hm)
  | case3 m _ n m₁ hstep ih =>
    rcases step_continued hm hf hstep rest with
      ⟨hend, hm₁⟩ | ⟨above', f', hm₁, hf', hblock, hscope, hstep'⟩
    · have hfin : m₁.isFinished := by simp [isFinished, hend]
      rw [hm₁, run_of_finished hfin]
      rfl
    · rw [run_succ_of_ok (hbusy hm) hstep', ih hm₁ hf', hblock, hscope]
  | case4 m _ n failure hstep =>
    exact run_succ_of_error (step_continued_of_error hm hstep rest) n

/-- A block that goes on after another is run as the other, and then from where it goes on. -/
theorem run_start_append (b rest : Block) (stack : Stack) (e : ScopeId) (world : World)
    (limit : Nat) :
    (start (b ++ rest) stack e world).run limit =
      ((start b stack e world).run limit).onward
        (fun m' unspent => (of [⟨b ++ rest, b.length, 0, e⟩] m'.state).run (unspent + 1))
        (·.continued rest) := by
  have hbottom : (start b stack e world).frames = [] ++ [.start b e] := rfl
  exact run_continued hbottom (Frame.inBounds_start b e) rest limit

end Continued

/-- A frame that has only the end of its last statement before it is left in two steps. -/
theorem ending?_run_last {f : Frame} {terms : List Term} {comment : Option String}
    (ha : f.At (.expression terms comment)) (ht : terms[f.term]? = none)
    (hlast : f.block[f.statement + 1]? = none) (s : State) (limit : Nat) :
    ((of [f] s).run limit).ending? = if limit < 2 then none else some (.done, s) := by
  have hbusy (f : Frame) : ¬ (of [f] s).isFinished := by simp [isFinished]
  rcases limit with _ | _ | n
  · rw [run_zero (hbusy f)]
    rfl
  · rw [run_of_advances (.expression ha ht)]
    exact congrArg Run.ending? (run_zero (hbusy f.nextStatement))
  · rw [run_of_advances (.expression ha ht), if_neg (by omega)]
    change ((of [f.nextStatement] s).run (n + 1)).ending? = _
    rw [run_of_advances (.leave hlast), run_of_finished rfl]
    rfl

end Machine

/-- The block with one more statement, in which a name stands alone. -/
def Block.calling (b : Block) (entry : String) (comment : Option String) : Block :=
  b ++ [.expression [.identifier entry] comment]

namespace Machine

variable {b : Block} {stack : Stack} {e : ScopeId} {world : World} {entry : String}
  {m : Machine} {spent : Nat}

/-- The frame in which a block has called its entry. -/
def caller (b : Block) (entry : String) (comment : Option String) (e : ScopeId) : Frame :=
  ⟨b.calling entry comment, b.length, 1, e⟩

/-- The machine that runs a method. -/
def called (c : Closure) (s : State) : Machine := of [.start c.body s.fresh] (s.extend c.scope)

/-- While the block runs, the longer one is in step with it. -/
theorem run_calling_of_running {limit : Nat} (comment : Option String)
    (hrun : (start b stack e world).run limit = .running m) :
    (start (b.calling entry comment) stack e world).run limit =
      .running (m.continued [.expression [.identifier entry] comment]) := by
  rw [Block.calling, run_start_append, hrun, Run.onward]

/-- The frame that called the entry only has to be left. -/
theorem ending?_run_caller (comment : Option String) (s : State) (limit : Nat) :
    ((of [caller b entry comment e] s).run limit).ending? =
      if limit < 2 then none else some (.done, s) := by
  have ha : (caller b entry comment e).At (.expression [.identifier entry] comment) := by
    simp [Frame.At, caller, Block.calling]
  have hlast : (b.calling entry comment)[b.length + 1]? = none := by simp [Block.calling]
  exact ending?_run_last ha rfl hlast s limit

section Calling

variable {c : Closure} {o : Outcome} {s : State}
  (hspent : (start b stack e world).FinishesIn spent m)
  (hentry : m.world.scopes.get? e entry = some (.guest c)) (comment : Option String)

include hspent hentry

/-- Once the block is through, the longer one calls its entry, as a machine above one frame. -/
theorem run_calling (j : Nat) :
    (start (b.calling entry comment) stack e world).run (spent + j) =
      ((called c m.state).run j).onward
        (fun m' unspent => (m'.under [caller b entry comment e]).run unspent)
        (·.under [caller b entry comment e]) := by
  have hterm : Frame.AtTerm ⟨b.calling entry comment, b.length, 0, e⟩
      (.expression [.identifier entry] comment) (.identifier entry) :=
    .mk (by simp [Frame.At, Block.calling]) rfl
  rw [Block.calling, run_start_append, hspent.finished, Run.onward]
  change (of [⟨b.calling entry comment, b.length, 0, e⟩] m.state).run (j + 1) = _
  rw [run_of_advances (.guest hterm hentry), ← run_under]
  rfl

theorem ends_of_run_calling {j : Nat}
    (h : ((start (b.calling entry comment) stack e world).run (spent + j)).ending? = some (o, s)) :
    (called c m.state).Ends o s := by
  rw [run_calling hspent hentry comment] at h
  have hend : ((called c m.state).run j).ending? = some (o, s) := by
    cases hcall : (called c m.state).run j with
    | finished m' unspent =>
      rw [hcall, Run.onward, under_of_finished (exists_finishesIn hcall).1,
        ending?_run_caller] at h
      split at h
      · cases h
      · exact h
    | failed f =>
      rw [hcall] at h
      exact h
    | running m' =>
      rw [hcall] at h
      cases h
  exact ends_of_run hend

theorem exists_run_calling (h : (called c m.state).Ends o s) :
    ∃ limit, ((start (b.calling entry comment) stack e world).run limit).ending? = some (o, s) := by
  obtain ⟨limit, hlimit⟩ := exists_run_of_ends h
  cases hcall : (called c m.state).run limit with
  | finished m' unspent =>
    rw [hcall] at hlimit
    obtain ⟨hend, spent', hspent'⟩ := exists_finishesIn hcall
    -- Two more steps are needed to leave the frame of the call.
    refine ⟨spent + (spent' + 2), ?_⟩
    rw [run_calling hspent hentry comment, hspent'.finished, Run.onward, under_of_finished hend,
      ending?_run_caller]
    exact hlimit
  | failed f =>
    rw [hcall] at hlimit
    refine ⟨spent + limit, ?_⟩
    rw [run_calling hspent hentry comment, hcall]
    exact hlimit
  | running m' =>
    rw [hcall] at hlimit
    cases hlimit

/-- The longer block ends as the method does that it calls. -/
theorem exists_run_calling_iff :
    (∃ limit, ((start (b.calling entry comment) stack e world).run limit).ending? = some (o, s)) ↔
      (called c m.state).Ends o s := by
  constructor
  · rintro ⟨limit, h⟩
    rcases hspent.running_or_finished limit with ⟨m₁, hm₁⟩ | ⟨j, rfl⟩
    · rw [run_calling_of_running comment hm₁] at h
      cases h
    · exact ends_of_run_calling hspent hentry comment h
  · exact exists_run_calling hspent hentry comment

end Calling

end Machine

theorem Run.exists_of_done {run : Run} {s : State} (h : run.ending? = some (.done, s)) :
    ∃ m unspent, run = .finished m unspent ∧ m.state = s := by
  cases run with
  | finished m unspent =>
    cases h
    exact ⟨m, unspent, rfl, rfl⟩
  | failed f => cases h
  | running m => cases h

namespace Evaluation

/-- How a program that was run has ended, if it has. -/
def ending? : Evaluation → Option (Outcome × State)
  | ok stack world => some (.done, ⟨stack, world⟩)
  | failed (.execution f) world => some (.failed f.fault f.statement, ⟨f.machine.stack, world⟩)
  | _ => none

theorem ending?_ofRun (run : Run) : (ofRun run).ending? = run.ending? := by
  cases run with
  | finished m unspent => rfl
  | failed f => rfl
  | running m => rfl

theorem exists_of_ofRun_eq_unfinished {run : Run} {w : World} (h : ofRun run = .unfinished w) :
    ∃ m, run = .running m ∧ m.world = w := by
  cases run with
  | finished m unspent => cases h
  | failed f => cases h
  | running m =>
    cases h
    exact ⟨m, rfl, rfl⟩

section Program

variable {source entry : String} {b : Block} {e : ScopeId} {world : World} {m : Machine}
  (hparse : Block.parse source = .ok b)

include hparse

theorem ofProgram_of_running {limit : Nat}
    (hrun : (Machine.start b .empty e world).run limit = .running m) :
    ofProgram limit source entry e world = .unfinished m.world := by
  rw [ofProgram, ofSource_of_parse hparse, hrun]
  rfl

variable {c : Closure} {spent : Nat}
  (hspent : (Machine.start b .empty e world).FinishesIn spent m) (hstack : m.stack = .empty)
  (hentry : m.world.scopes.get? e entry = some (.guest c))

include hspent hstack hentry

theorem ofProgram_of_finished (j : Nat) :
    ofProgram (spent + j) source entry e world =
      ofRun ((Machine.called c m.state).run (spent + j)) := by
  have hstate : m.state = ⟨.empty, m.world⟩ := by rw [Machine.state, hstack]
  have hempty : m.stack.isEmpty := by
    rw [hstack]
    rfl
  rw [ofProgram, ofSource_of_parse hparse, hspent.finished]
  simp only [ofRun, if_pos hempty, hentry]
  rw [hstack, hstate]
  rfl

/-- The evaluation ends as the method does that it calls. -/
theorem exists_ofProgram_iff {o : Outcome} {s : State} :
    (∃ limit, (ofProgram limit source entry e world).ending? = some (o, s)) ↔
      (Machine.called c m.state).Ends o s := by
  constructor
  · rintro ⟨limit, h⟩
    rcases hspent.running_or_finished limit with ⟨m₁, hm₁⟩ | ⟨j, rfl⟩
    · rw [ofProgram_of_running hparse hm₁] at h
      cases h
    · rw [ofProgram_of_finished hparse hspent hstack hentry, ending?_ofRun] at h
      exact Machine.ends_of_run h
  · intro h
    obtain ⟨least, hleast⟩ := h.exists_limit
    refine ⟨spent + least, ?_⟩
    rw [ofProgram_of_finished hparse hspent hstack hentry, ending?_ofRun]
    exact hleast _ (Nat.le_add_left least spent)

theorem exists_unfinished {limit : Nat}
    (h : (ofProgram limit source entry e world).ending? = none) :
    ∃ w, ofProgram limit source entry e world = .unfinished w := by
  rcases hspent.running_or_finished limit with ⟨m₁, hm₁⟩ | ⟨j, rfl⟩
  · exact ⟨_, ofProgram_of_running hparse hm₁⟩
  · rw [ofProgram_of_finished hparse hspent hstack hentry, ending?_ofRun] at h
    rw [ofProgram_of_finished hparse hspent hstack hentry]
    exact ofRun_of_running h

end Program

/-- Evaluating a source and then calling its entry is running its block with the entry's name as one
more statement. Suppose the source is a block `b` that ends with no values on the stack, and then
the entry is a method. The two end with the same outcome, on the same stack and in the same world,
or neither ever ends. They also go through the same worlds: while `b` runs, at the same steps, and
from then on at the steps that the call has taken, to which the longer run adds those of `b`. -/
theorem ofProgram_runs_entry_in_block (source entry : String) (comment : Option String)
    (e : ScopeId) (world w : World) (b : Block) (c : Closure) (n : Nat)
    (hparse : Block.parse source = .ok b)
    (hrun : ((Machine.start b .empty e world).run n).ending? = some (.done, ⟨.empty, w⟩))
    (hentry : w.scopes.get? e entry = some (.guest c)) :
    (∀ o s, (∃ limit, (ofProgram limit source entry e world).ending? = some (o, s)) ↔
      ∃ limit, ((Machine.start (b.calling entry comment) .empty e world).run limit).ending? =
        some (o, s)) ∧
    ((∀ limit, ∃ w', ofProgram limit source entry e world = .unfinished w') ↔
      ∀ limit, ((Machine.start (b.calling entry comment) .empty e world).run limit).ending? =
        none) ∧
    ∃ k, (∀ limit < k, ofProgram limit source entry e world =
        ofRun ((Machine.start (b.calling entry comment) .empty e world).run limit)) ∧
      ∀ limit ≥ k, ∀ w', ofProgram limit source entry e world = .unfinished w' →
        ofRun ((Machine.start (b.calling entry comment) .empty e world).run (k + limit)) =
          .unfinished w' := by
  obtain ⟨m, unspent, hm, hstate⟩ := Run.exists_of_done hrun
  obtain ⟨hstack, rfl⟩ : m.stack = .empty ∧ m.world = w := by simpa [Machine.state] using hstate
  obtain ⟨-, k, hspent⟩ := Machine.exists_finishesIn hm
  have hends (o : Outcome) (s : State) :=
    (exists_ofProgram_iff (o := o) (s := s) hparse hspent hstack hentry).trans
      (Machine.exists_run_calling_iff hspent hentry comment).symm
  refine ⟨hends, ⟨fun h limit => ?_, fun h limit => ?_⟩, k, fun limit hlimit => ?_,
    fun limit hlimit w' hw' => ?_⟩
  · rw [Option.eq_none_iff_forall_ne_some]
    rintro ⟨o, s⟩ hend
    obtain ⟨limit', hend'⟩ := (hends o s).mpr ⟨limit, hend⟩
    obtain ⟨w', hw'⟩ := h limit'
    rw [hw'] at hend'
    cases hend'
  · apply exists_unfinished hparse hspent hstack hentry
    rw [Option.eq_none_iff_forall_ne_some]
    rintro ⟨o, s⟩ hend
    obtain ⟨limit', hend'⟩ := (hends o s).mp ⟨limit, hend⟩
    rw [h limit'] at hend'
    cases hend'
  · obtain ⟨m₁, hm₁⟩ := hspent.running limit hlimit
    rw [ofProgram_of_running hparse hm₁, Machine.run_calling_of_running comment hm₁]
    rfl
  · obtain ⟨j, rfl⟩ := Nat.exists_eq_add_of_le hlimit
    rw [ofProgram_of_finished hparse hspent hstack hentry] at hw'
    obtain ⟨m₁, hm₁, rfl⟩ := exists_of_ofRun_eq_unfinished hw'
    rw [Machine.run_calling hspent hentry comment, hm₁]
    rfl

/-- The body of a method that leaves a value and then fails. -/
def interruptedEntry : Block := [.expression [.number (.ofByte 7), .identifier "x"] none]

/-- The entry fails in the program, so it fails when it is called from outside, at the same
statement and with its value on the stack. -/
theorem ofProgram_runs_interruptedEntry : ∃ s : State,
    s.stack = .ofList [.number (.ofByte 7)] ∧
    (∃ limit, ((Machine.start (Block.calling [.method "main" interruptedEntry none] "main" none)
      .empty World.program .console).run limit).ending? =
        some (.failed (.unboundName "x")
          (.expression [.number (.ofByte 7), .identifier "x"] none), s)) ∧
    ∃ limit, (ofProgram limit "main >> 7b x" "main" World.program .console).ending? =
      some (.failed (.unboundName "x")
        (.expression [.number (.ofByte 7), .identifier "x"] none), s) := by
  let defined : State := State.bind ⟨.empty, .console⟩ 1 "main" (.guest ⟨1, interruptedEntry⟩)
  let entered : State := (defined.extend 1).push (.number (.ofByte 7))
  have hparse : Block.parse "main >> 7b x" = .ok [.method "main" interruptedEntry none] := by
    decide +kernel
  have hentry : defined.world.scopes.get? 1 "main" = some (.guest ⟨1, interruptedEntry⟩) :=
    Scopes.get?_of_local? rfl
  have hx : entered.world.scopes.get? 2 "x" = none := by
    rw [Scopes.get?_of_parent? rfl rfl (Nat.lt_succ_self 1),
      Scopes.get?_of_parent? rfl rfl Nat.zero_lt_one, Scopes.get?]
    rfl
  obtain ⟨n, hdefines⟩ : ∃ n, ((Machine.start [.method "main" interruptedEntry none] .empty
      World.program .console).run n).ending? = some (.done, ⟨.empty, defined.world⟩) :=
    Machine.exists_run_of_ends (Machine.ends_start_iff.mpr (.cons .method .nil))
  have hfails : ∃ limit, ((Machine.start (Block.calling [.method "main" interruptedEntry none]
      "main" none) .empty World.program .console).run limit).ending? =
        some (.failed (.unboundName "x")
          (.expression [.number (.ofByte 7), .identifier "x"] none), entered) := by
    apply Machine.exists_run_of_ends
    rw [Machine.ends_start_iff]
    refine .cons .method (.consFailed (.expression (.termsFailed (.guest hentry ?_))))
    exact .consFailed (.expression (.termsCons .number (.termsFailed (.unbound hx))))
  obtain ⟨hends, -⟩ := ofProgram_runs_entry_in_block "main >> 7b x" "main" none World.program
    .console defined.world _ _ n hparse hdefines hentry
  exact ⟨entered, rfl, hfails, (hends _ _).mpr hfails⟩

end Evaluation

end Stacklet

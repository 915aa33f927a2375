import Stacklet.Proofs.BigStep

/-!
The machine and the big-step semantics agree. A derivation is played on the machine under any
frames that wait below; and what a list of frames has left to do, as the semantics sees it, is
undisturbed by steps, read backwards from the end of a run.
-/

namespace Stacklet

/-- How a run of a machine ends. -/
inductive Machine.Ends : Machine → Outcome → State → Prop where
  | done {m : Machine} : m.frames = [] → Ends m .done m.state
  | failed {m : Machine} {f : Failure} :
      m.step = .error f → Ends m (.failed f.fault f.statement) f.machine.state
  | step {m m' : Machine} {o : Outcome} {s : State} :
      m.frames ≠ [] → m.step = .ok m' → Ends m' o s → Ends m o s

/-- How a run ended, if it did within its limit. -/
def Run.ending? : Run → Option (Outcome × State)
  | finished m _ => some (.done, m.state)
  | failed f => some (.failed f.fault f.statement, f.machine.state)
  | running _ => none

namespace Machine

section Run

variable {m m' : Machine}

theorem run_of_finished (h : m.isFinished) (limit : Nat) : m.run limit = .finished m limit := by
  rw [run.eq_def, if_pos h]

theorem run_zero (h : ¬ m.isFinished) : m.run 0 = .running m := by
  rw [run, if_neg h]

theorem run_succ_of_ok (h : ¬ m.isFinished) (hstep : m.step = .ok m') (n : Nat) :
    m.run (n + 1) = m'.run n := by
  rw [run, if_neg h]
  simp only [hstep]

theorem run_succ_of_error {failure : Failure} (hstep : m.step = .error failure) (n : Nat) :
    m.run (n + 1) = .failed failure := by
  have h : m.isFinished = false := by
    cases hm : m.frames with
    | nil => simp [step, hm] at hstep
    | cons => simp [isFinished, hm]
  rw [run, if_neg (by simp [h])]
  simp only [hstep]

theorem run_of_advances {f : Frame} {fs frames : List Frame} {s s' : State}
    (hadv : f.Advances s fs s') (n : Nat) :
    (of (f :: frames) s).run (n + 1) = (of (fs ++ frames) s').run n :=
  run_succ_of_ok (by simp [isFinished]) (step_of_advances hadv frames) n

end Run

variable {m : Machine} {o : Outcome} {s s' : State}

theorem ends_of_run {limit : Nat} (h : (m.run limit).ending? = some (o, s)) : m.Ends o s := by
  induction limit generalizing m with
  | zero =>
    rw [run] at h
    split at h
    · rename_i hf
      cases h
      exact .done (by simpa [isFinished] using hf)
    · cases h
  | succ n ih =>
    rw [run] at h
    split at h
    · rename_i hf
      cases h
      exact .done (by simpa [isFinished] using hf)
    · rename_i hf
      split at h
      · rename_i m' hm
        exact .step (by simpa [isFinished] using hf) hm (ih h)
      · rename_i f hm
        cases h
        exact .failed hm

theorem exists_run_of_ends (h : m.Ends o s) : ∃ limit, (m.run limit).ending? = some (o, s) := by
  induction h with
  | done hf => exact ⟨0, by simp [run, isFinished, hf, Run.ending?]⟩
  | @failed m f hm =>
    have hf : m.frames ≠ [] := by
      intro hf
      simp [step, hf] at hm
    exact ⟨1, by simp [run, isFinished, hf, hm, Run.ending?]⟩
  | step hf hm _ ih =>
    obtain ⟨limit, hrun⟩ := ih
    exact ⟨limit + 1, by simp [run, isFinished, hf, hm, hrun]⟩

theorem exists_run_iff_ends : (∃ limit, (m.run limit).ending? = some (o, s)) ↔ m.Ends o s :=
  ⟨fun ⟨_, h⟩ => ends_of_run h, exists_run_of_ends⟩

variable {f : Frame} {frames fs : List Frame}

theorem ends_of_advances (hadv : f.Advances s fs s') (h : (of (fs ++ frames) s').Ends o s₁) :
    (of (f :: frames) s).Ends o s₁ :=
  .step (by simp) (step_of_advances hadv frames) h

theorem ends_of_faults {fault : Fault} {a : Statement} (h : f.Faults s fault a s') :
    (of (f :: frames) s).Ends (.failed fault a) s' :=
  .failed (step_of_faults h frames)

end Machine

/-- The frame is about to carry out a task, after which `fs` will be in its place. -/
inductive Frame.Faces (f : Frame) : Task → List Frame → Prop where
  | statements {rest : Block} :
      f.term = 0 → f.block.drop f.statement = rest → Faces f (.statements rest) []
  | statement {a : Statement} : f.term = 0 → f.At a → Faces f (.statement a) [f.nextStatement]
  | binding {names : List String} {value : Block} {comment : Option String} :
      f.term ≠ 0 → f.At (.assignment names value comment) →
        Faces f (.binding names (.assignment names value comment)) [f.nextStatement]
  | terms {ts rest : List Term} {comment : Option String} :
      f.At (.expression ts comment) → ts.drop f.term = rest →
        Faces f (.terms (.expression ts comment) rest) [f.nextStatement]
  | term {a : Statement} {t : Term} : f.AtTerm a t → Faces f (.term a t) [f.nextTerm]

theorem getElem?_of_drop {α : Type} {xs rest : List α} {x : α} {i : Nat}
    (h : xs.drop i = x :: rest) : xs[i]? = some x ∧ xs.drop (i + 1) = rest := by
  constructor
  · rw [← List.head?_drop, h]
    rfl
  · rw [← List.tail_drop, h]
    rfl

theorem drop_of_getElem? {α : Type} {xs : List α} {x : α} {i : Nat} (h : xs[i]? = some x) :
    xs.drop i = x :: xs.drop (i + 1) := by
  rw [List.drop_eq_getElem?_toList_append, h]
  rfl

theorem Frame.faces_start (b : Block) (e : ScopeId) : (Frame.start b e).Faces (.statements b) [] :=
  .statements rfl rfl

open Effect in
/-- A derivation is played on the machine, whatever frames wait below. -/
theorem Evaluates.ends {e : ScopeId} {t : Task} {s s₁ s' : State} {o₁ o : Outcome}
    (h : Evaluates e t s o₁ s₁) {f : Frame} {fs frames : List Frame} (he : f.scope = e)
    (hf : f.Faces t fs)
    (hafter : After (fun s => (Machine.of (fs ++ frames) s).Ends) o₁ s₁ o s') :
    (Machine.of (f :: frames) s).Ends o s' := by
  -- Frames below and what follows are arbitrary, since a nested derivation has other ones.
  induction h generalizing f fs frames o s' with
  | nil =>
    obtain ⟨-, hdrop⟩ := hf
    obtain ⟨hk⟩ := hafter
    have hend : f.block[f.statement]? = none :=
      List.getElem?_eq_none (List.drop_eq_nil_iff.mp hdrop)
    exact Machine.ends_of_advances (.leave hend) hk
  | cons _ _ ih₁ ih₂ =>
    obtain ⟨h0, hdrop⟩ := hf
    obtain ⟨ha, hrest⟩ := getElem?_of_drop hdrop
    exact ih₁ he (.statement h0 ha) (.done (ih₂ he (.statements rfl hrest) hafter))
  | consFailed _ ih =>
    obtain ⟨h0, hdrop⟩ := hf
    cases hafter
    exact ih he (.statement h0 (getElem?_of_drop hdrop).1) .failed
  | expression _ ih =>
    obtain _ | ⟨h0, ha⟩ := hf
    exact ih he (.terms ha (by rw [h0, List.drop_zero])) hafter
  | assignment _ _ ih₁ ih₂ =>
    obtain _ | ⟨h0, ha⟩ := hf
    subst he
    apply Machine.ends_of_advances (.enter ha h0)
    apply ih₁ rfl (Frame.faces_start _ _)
    exact .done (ih₂ rfl (.binding (f := f.nextTerm) (Nat.succ_ne_zero _) ha) hafter)
  | assignmentFailed _ ih =>
    obtain _ | ⟨h0, ha⟩ := hf
    subst he
    cases hafter
    exact Machine.ends_of_advances (.enter ha h0) (ih rfl (Frame.faces_start _ _) .failed)
  | method =>
    obtain _ | ⟨h0, ha⟩ := hf
    subst he
    obtain ⟨hk⟩ := hafter
    exact Machine.ends_of_advances (.method ha) hk
  | binding hb =>
    obtain _ | _ | ⟨h0, ha⟩ := hf
    subst he
    obtain ⟨values, below, hlen, hstack, rfl⟩ := binds_iff.mp hb
    obtain ⟨hk⟩ := hafter
    exact Machine.ends_of_advances (.assign ha h0 hlen hstack) hk
  | bindingUnderflow hlt =>
    obtain _ | _ | ⟨h0, ha⟩ := hf
    cases hafter
    exact Machine.ends_of_faults (.assignUnderflow ha h0 hlt)
  | termsNil =>
    obtain _ | _ | _ | ⟨ha, hdrop⟩ := hf
    obtain ⟨hk⟩ := hafter
    have hend := List.getElem?_eq_none (List.drop_eq_nil_iff.mp hdrop)
    exact Machine.ends_of_advances (.expression ha hend) hk
  | termsCons _ _ ih₁ ih₂ =>
    obtain _ | _ | _ | ⟨ha, hdrop⟩ := hf
    obtain ⟨ht, hrest⟩ := getElem?_of_drop hdrop
    exact ih₁ he (.term (.mk ha ht)) (.done (ih₂ (f := f.nextTerm) he (.terms ha hrest) hafter))
  | termsFailed _ ih =>
    obtain _ | _ | _ | ⟨ha, hdrop⟩ := hf
    cases hafter
    exact ih he (.term (.mk ha (getElem?_of_drop hdrop).1)) .failed
  | number =>
    obtain _ | _ | _ | _ | ht := hf
    obtain ⟨hk⟩ := hafter
    exact Machine.ends_of_advances (.number ht) hk
  | comment =>
    obtain _ | _ | _ | _ | ht := hf
    obtain ⟨hk⟩ := hafter
    exact Machine.ends_of_advances (.comment ht) hk
  | block _ ih =>
    obtain _ | _ | _ | _ | ht := hf
    subst he
    exact Machine.ends_of_advances (.block ht) (ih rfl (Frame.faces_start _ _) hafter)
  | value hv =>
    obtain _ | _ | _ | _ | ht := hf
    subst he
    obtain ⟨hk⟩ := hafter
    exact Machine.ends_of_advances (.value ht hv) hk
  | guest hc _ ih =>
    obtain _ | _ | _ | _ | ht := hf
    subst he
    exact Machine.ends_of_advances (.guest ht hc) (ih rfl (Frame.faces_start _ _) hafter)
  | host hc hlen hstack hrun =>
    obtain _ | _ | _ | _ | ht := hf
    subst he
    obtain ⟨hk⟩ := hafter
    exact Machine.ends_of_advances (.host ht hc hlen hstack hrun) hk
  | unbound hn =>
    obtain _ | _ | _ | _ | ht := hf
    subst he
    cases hafter
    exact Machine.ends_of_faults (.unbound ht hn)
  | hostUnderflow hc hlt =>
    obtain _ | _ | _ | _ | ht := hf
    subst he
    cases hafter
    exact Machine.ends_of_faults (.callUnderflow ht hc hlt)
  | hostFailed hc hlen hstack hrun =>
    obtain _ | _ | _ | _ | ht := hf
    subst he
    cases hafter
    exact Machine.ends_of_faults (.host ht hc hlen hstack hrun)

namespace Frame

/-- What is left of the statement a frame stands at. -/
def task (f : Frame) : Statement → Task
  | .expression terms comment => .terms (.expression terms comment) (terms.drop f.term)
  | .assignment names value comment =>
    if f.term = 0 then .statement (.assignment names value comment)
    else .binding names (.assignment names value comment)
  | .method name body comment => .statement (.method name body comment)

/-- What a frame has left to do: the rest of its statement, then the statements that follow. -/
inductive Resumes (f : Frame) : Effect where
  | left {s : State} : f.block[f.statement]? = none → Resumes f s .done s
  | inside {a : Statement} {s s' : State} {o : Outcome} :
      f.At a →
      Effect.Then (Evaluates f.scope (f.task a))
        (Evaluates f.scope (.statements (f.block.drop (f.statement + 1)))) s o s' →
        Resumes f s o s'

end Frame

open Effect

namespace Evaluates

variable {e : ScopeId} {s s' : State} {o : Outcome}

theorem of_then {a : Statement} {rest : Block}
    (h : Then (Evaluates e (.statement a)) (Evaluates e (.statements rest)) s o s') :
    Evaluates e (.statements (a :: rest)) s o s' := by
  obtain ⟨o₁, s₁, h₁, h₂ | _⟩ := h
  · exact .cons h₁ h₂
  · exact .consFailed h₁

theorem terms_of_then {a : Statement} {t : Term} {rest : List Term}
    (h : Then (Evaluates e (.term a t)) (Evaluates e (.terms a rest)) s o s') :
    Evaluates e (.terms a (t :: rest)) s o s' := by
  obtain ⟨o₁, s₁, h₁, h₂ | _⟩ := h
  · exact .termsCons h₁ h₂
  · exact .termsFailed h₁

theorem assignment_of_then {names : List String} {value : Block} {comment : Option String}
    (h : Then (Evaluates s.fresh (.statements value))
      (Evaluates e (.binding names (.assignment names value comment))) (s.extend e) o s') :
    Evaluates e (.statement (.assignment names value comment)) s o s' := by
  obtain ⟨o₁, s₁, h₁, h₂ | _⟩ := h
  · exact .assignment h₁ h₂
  · exact .assignmentFailed h₁

end Evaluates

namespace Frame

variable {f : Frame} {a : Statement} {s s' : State} {o : Outcome}

/-- At the start of a statement, all that is left is the statements from there on. -/
theorem Resumes.evaluates (h : f.Resumes s o s') (h0 : f.term = 0) :
    Evaluates f.scope (.statements (f.block.drop f.statement)) s o s' := by
  cases h with
  | left hn =>
    rw [List.drop_eq_nil_of_le (List.getElem?_eq_none_iff.mp hn)]
    exact .nil
  | @inside a _ _ _ ha hthen =>
    rw [drop_of_getElem? ha]
    apply Evaluates.of_then
    refine hthen.imp fun o s' h => ?_
    cases a with
    | expression terms comment =>
      rw [task, h0, List.drop_zero] at h
      exact .expression h
    | assignment names value comment =>
      rw [task, if_pos h0] at h
      exact h
    | method name body comment => exact h

theorem resumes_eq (ha : f.At a) :
    f.Resumes = Then (Evaluates f.scope (f.task a))
      (Evaluates f.scope (.statements (f.block.drop (f.statement + 1)))) := by
  funext s o s'
  apply propext
  constructor
  · intro h
    cases h with
    | left hn =>
      rw [At, hn] at ha
      cases ha
    | @inside b _ _ _ hb hthen =>
      have hab : a = b := Option.some.inj (ha.symm.trans hb)
      exact hab ▸ hthen
  · exact .inside ha

/-- After the term it stands at, a frame goes on with the next. -/
theorem AtTerm.resumes {t : Term} (ht : f.AtTerm a t)
    (h : Then (Evaluates f.scope (.term a t)) f.nextTerm.Resumes s o s') : f.Resumes s o s' := by
  obtain ⟨ha, ht⟩ := ht
  rename_i terms comment
  have hnext : f.nextTerm.At (.expression terms comment) := ha
  rw [resumes_eq hnext] at h
  rw [resumes_eq ha, task, drop_of_getElem? ht]
  refine (then_assoc.mpr h).imp fun o s' h => ?_
  exact Evaluates.terms_of_then h

/-- After its statement, a frame goes on with the statements that follow. -/
theorem resumes_of_nextStatement (ha : f.At a)
    (h : Then (Evaluates f.scope (f.task a)) f.nextStatement.Resumes s o s') :
    f.Resumes s o s' := by
  obtain ⟨o₁, s₁, h₁, h₂ | _⟩ := h
  · exact .inside ha ⟨_, _, h₁, .done (h₂.evaluates rfl)⟩
  · exact .inside ha ⟨_, _, h₁, .failed⟩

end Frame

/-- What frames have left to do, the innermost first. -/
def Machine.Resumes : List Frame → Effect
  | [] => skip
  | f :: frames => Then f.Resumes (Resumes frames)

namespace Machine

variable {f : Frame} {fs frames : List Frame} {s s₁ s' : State} {o : Outcome}

theorem resumes_append :
    Resumes (fs ++ frames) s o s' ↔ Then (Resumes fs) (Resumes frames) s o s' := by
  induction fs generalizing s o s' with
  | nil => exact skip_then.symm
  | cons f fs ih =>
    have hfs : Resumes (fs ++ frames) = Then (Resumes fs) (Resumes frames) := by
      funext s o s'
      exact propext ih
    rw [List.cons_append, Resumes, hfs, Resumes, then_assoc]

theorem resumes_singleton : Resumes [f] = f.Resumes := by
  funext s o s'
  exact propext then_skip

theorem resumes_pair {g : Frame} : Resumes [f, g] = Then f.Resumes g.Resumes := by
  rw [Resumes, resumes_singleton]

end Machine

namespace Frame

variable {f : Frame} {fs : List Frame} {s s₁ s' : State} {o : Outcome}

theorem Resumes.evaluates_start {b : Block} {e : ScopeId} (h : (start b e).Resumes s o s') :
    Evaluates e (.statements b) s o s' := h.evaluates rfl

/-- Before a step that succeeds, a frame has left to do what its successors have after it. -/
theorem Advances.resumes (hadv : f.Advances s fs s₁) (h : Machine.Resumes fs s₁ o s') :
    f.Resumes s o s' := by
  cases hadv with
  | leave hn =>
    obtain ⟨rfl, rfl⟩ := h
    exact .left hn
  | number ht => exact ht.resumes ⟨_, _, .number, .done (then_skip.mp h)⟩
  | value ht hv => exact ht.resumes ⟨_, _, .value hv, .done (then_skip.mp h)⟩
  | guest ht hc =>
    rw [Machine.resumes_pair] at h
    exact ht.resumes (h.imp fun _ _ hb => .guest hc hb.evaluates_start)
  | host ht hc hlen hstack hrun =>
    exact ht.resumes ⟨_, _, .host hc hlen hstack hrun, .done (then_skip.mp h)⟩
  | comment ht => exact ht.resumes ⟨_, _, .comment, .done (then_skip.mp h)⟩
  | block ht =>
    rw [Machine.resumes_pair] at h
    exact ht.resumes (h.imp fun _ _ hb => .block hb.evaluates_start)
  | expression ha ht =>
    apply resumes_of_nextStatement ha
    rw [task, List.drop_eq_nil_of_le (List.getElem?_eq_none_iff.mp ht)]
    exact ⟨_, _, .termsNil, .done (then_skip.mp h)⟩
  | @enter names value comment ha h0 =>
    have hnext : f.nextTerm.At (.assignment names value comment) := ha
    have hbind : f.nextTerm.task (.assignment names value comment) =
        .binding names (.assignment names value comment) := by
      simp [task, nextTerm]
    rw [Machine.resumes_pair, resumes_eq hnext, hbind] at h
    rw [resumes_eq ha, task, if_pos h0]
    refine (then_assoc.mpr h).imp fun o s' hv => ?_
    exact .assignment_of_then (hv.imp fun _ _ hb => hb.evaluates_start)
  | assign ha h0 hlen hstack =>
    apply resumes_of_nextStatement ha
    rw [task, if_neg h0]
    exact ⟨_, _, .binding (binds_iff.mpr ⟨_, _, hlen, hstack, rfl⟩), .done (then_skip.mp h)⟩
  | method ha => exact resumes_of_nextStatement ha ⟨_, _, .method, .done (then_skip.mp h)⟩

theorem Faults.resumes {fault : Fault} {a : Statement} (h : f.Faults s fault a s') :
    f.Resumes s (.failed fault a) s' := by
  cases h with
  | unbound ht hn => exact ht.resumes ⟨_, _, .unbound hn, .failed⟩
  | callUnderflow ht hc hlt => exact ht.resumes ⟨_, _, .hostUnderflow hc hlt, .failed⟩
  | host ht hc hlen hstack hrun =>
    exact ht.resumes ⟨_, _, .hostFailed hc hlen hstack hrun, .failed⟩
  | assignUnderflow ha h0 hlt =>
    apply resumes_of_nextStatement ha
    rw [task, if_neg h0]
    exact ⟨_, _, .bindingUnderflow hlt, .failed⟩

end Frame

namespace Machine

variable {m : Machine} {s : State} {o : Outcome}

/-- A run that ends does what its frames had left to do. -/
theorem Ends.resumes (h : m.Ends o s) : Resumes m.frames m.state o s := by
  induction h with
  | done hf =>
    rw [hf]
    exact ⟨rfl, rfl⟩
  | @failed m failure hm =>
    cases hframes : m.frames with
    | nil => simp [Machine.step, hframes] at hm
    | cons f frames =>
      rw [← of_state m, hframes] at hm
      obtain ⟨fault, a, s', hfault, rfl⟩ := step_eq_error_iff.mp hm
      exact ⟨_, _, hfault.resumes, .failed⟩
  | @step m m' o s hne hm _ ih =>
    cases hframes : m.frames with
    | nil => exact absurd hframes hne
    | cons f frames =>
      rw [← of_state m, hframes] at hm
      obtain ⟨fs, s', hadv, rfl⟩ := step_eq_ok_iff.mp hm
      -- Only the frame that stepped has changed what it has left to do.
      exact (resumes_append.mp ih).imp fun _ _ hfs => hadv.resumes hfs

theorem ends_start_iff {b : Block} {e : ScopeId} {stack : Stack} {world : World} :
    (start b stack e world).Ends o s ↔ Evaluates e (.statements b) ⟨stack, world⟩ o s := by
  constructor
  · intro h
    have hr := h.resumes
    rw [start, resumes_singleton] at hr
    exact hr.evaluates_start
  · intro h
    apply h.ends rfl (Frame.faces_start b e)
    cases o with
    | done => exact .done (.done rfl)
    | failed fault a => exact .failed

/-- Running a block to its end is evaluating it: the same outcome, with the innermost statement if
it is a fault, and the same stack, scopes and writers. -/
theorem run_ends_iff_evaluates (b : Block) (e : ScopeId) (stack : Stack) (world : World)
    (o : Outcome) (s : State) :
    (∃ limit, ((start b stack e world).run limit).ending? = some (o, s)) ↔
      Evaluates e (.statements b) ⟨stack, world⟩ o s := by
  rw [exists_run_iff_ends]
  exact ends_start_iff

end Machine

end Stacklet

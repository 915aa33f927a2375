import Mathlib.Data.List.Forall2
import Stacklet.Proofs.Entry

/-!
One block after another. What a frame does depends on what its block has left from where it stands,
and not on what came before. So a block that goes on after another is run as the other, and then, if
that finishes, as what it goes on with: both come to the same end, or go through the same states
without end.
-/

namespace Stacklet

namespace Frame

/-- Two frames that have the same left to do. -/
structure Alike (f g : Frame) : Prop where
  statements : f.block.drop f.statement = g.block.drop g.statement
  term : f.term = g.term
  scope : f.scope = g.scope

variable {f g : Frame} {a : Statement} {s s' : State}

theorem Alike.refl (f : Frame) : f.Alike f := ⟨rfl, rfl, rfl⟩

theorem Alike.getElem? (h : f.Alike g) : f.block[f.statement]? = g.block[g.statement]? := by
  rw [← List.head?_drop, h.statements, List.head?_drop]

theorem Alike.nextTerm (h : f.Alike g) : f.nextTerm.Alike g.nextTerm :=
  ⟨h.statements, congrArg (· + 1) h.term, h.scope⟩

theorem Alike.nextStatement (h : f.Alike g) : f.nextStatement.Alike g.nextStatement := by
  refine ⟨?_, rfl, h.scope⟩
  change f.block.drop (f.statement + 1) = g.block.drop (g.statement + 1)
  rw [← List.tail_drop, h.statements, List.tail_drop]

theorem At.alike (ha : f.At a) (h : f.Alike g) : g.At a := h.getElem?.symm.trans ha

theorem AtTerm.alike {t : Term} (ht : f.AtTerm a t) (h : f.Alike g) : g.AtTerm a t := by
  obtain ⟨ha, ht⟩ := ht
  rw [h.term] at ht
  exact .mk (ha.alike h) ht

/-- They take the same step. -/
theorem Advances.alike {fs : List Frame} (hadv : f.Advances s fs s') (h : f.Alike g) :
    ∃ gs, g.Advances s gs s' ∧ List.Forall₂ Alike fs gs := by
  have hmoved : List.Forall₂ Alike [f.nextTerm] [g.nextTerm] := .cons h.nextTerm .nil
  have hdone : List.Forall₂ Alike [f.nextStatement] [g.nextStatement] :=
    .cons h.nextStatement .nil
  have hscope := h.scope
  have hterm := h.term
  cases hadv with
  | leave hn => exact ⟨[], .leave (h.getElem?.symm.trans hn), .nil⟩
  | number ht => exact ⟨_, .number (ht.alike h), hmoved⟩
  | value ht hv =>
    rw [hscope] at hv
    exact ⟨_, .value (ht.alike h) hv, hmoved⟩
  | guest ht hc =>
    rw [hscope] at hc
    exact ⟨_, .guest (ht.alike h) hc, .cons (.refl _) hmoved⟩
  | host ht hc hlen hstack hrun =>
    rw [hscope] at hc
    exact ⟨_, .host (ht.alike h) hc hlen hstack hrun, hmoved⟩
  | comment ht => exact ⟨_, .comment (ht.alike h), hmoved⟩
  | block ht =>
    rw [hscope]
    exact ⟨_, .block (ht.alike h), .cons (.refl _) hmoved⟩
  | expression ha ht =>
    rw [hterm] at ht
    exact ⟨_, .expression (ha.alike h) ht, hdone⟩
  | enter ha h0 =>
    rw [hterm] at h0
    rw [hscope]
    exact ⟨_, .enter (ha.alike h) h0, .cons (.refl _) hmoved⟩
  | assign ha h0 hlen hstack =>
    rw [hterm] at h0
    rw [hscope]
    exact ⟨_, .assign (ha.alike h) h0 hlen hstack, hdone⟩
  | method ha =>
    rw [hscope]
    exact ⟨_, .method (ha.alike h), hdone⟩

theorem Faults.alike {fault : Fault} (hfault : f.Faults s fault a s') (h : f.Alike g) :
    g.Faults s fault a s' := by
  have hscope := h.scope
  cases hfault with
  | unbound ht hn =>
    rw [hscope] at hn
    exact .unbound (ht.alike h) hn
  | callUnderflow ht hc hlt =>
    rw [hscope] at hc
    exact .callUnderflow (ht.alike h) hc hlt
  | host ht hc hlen hstack hrun =>
    rw [hscope] at hc
    exact .host (ht.alike h) hc hlen hstack hrun
  | assignUnderflow ha h0 hlt =>
    rw [h.term] at h0
    exact .assignUnderflow (ha.alike h) h0 hlt

end Frame

/-- What can be told of a run from outside: how it ended, if it did, and the state it has come to. -/
def Run.seen : Run → Option Outcome × State
  | finished m _ => (some .done, m.state)
  | failed f => (some (.failed f.fault f.statement), f.machine.state)
  | running m => (none, m.state)

theorem Run.ending?_of_seen {r r' : Run} (h : r.seen = r'.seen) : r.ending? = r'.ending? := by
  have hseen (r : Run) : r.ending? = r.seen.1.map (·, r.seen.2) := by
    cases r with
    | finished m unspent => rfl
    | failed f => rfl
    | running m => rfl
  rw [hseen, hseen, h]

namespace Machine

/-- Two machines with the same state, whose frames have the same left to do. -/
structure Alike (m m' : Machine) : Prop where
  frames : List.Forall₂ Frame.Alike m.frames m'.frames
  state : m.state = m'.state

variable {m m' m₁ : Machine}

theorem Alike.isFinished_eq (h : m.Alike m') : m.isFinished = m'.isFinished := by
  have hlength := h.frames.length_eq
  rw [isFinished, isFinished, Bool.eq_iff_iff, List.isEmpty_iff_length_eq_zero,
    List.isEmpty_iff_length_eq_zero, hlength]

theorem Alike.step (h : m.Alike m') (hf : ¬ m.isFinished) (hstep : m.step = .ok m₁) :
    ∃ m₁', m'.step = .ok m₁' ∧ m₁.Alike m₁' := by
  obtain ⟨f, frames, fs, s', hm, hadv, rfl⟩ := exists_advances (length_pos_of_not_finished hf) hstep
  obtain ⟨hframes, hstate⟩ := h
  rw [hm] at hframes
  obtain ⟨g, frames', hg, hrest, hframes'⟩ := List.forall₂_cons_left_iff.mp hframes
  obtain ⟨gs, hadv', hgs⟩ := hadv.alike hg
  refine ⟨of (gs ++ frames') s', ?_, List.rel_append hgs hrest, rfl⟩
  rw [← of_state m', hframes', ← hstate]
  exact step_of_advances hadv' frames'

theorem Alike.step_of_error {failure : Failure} (h : m.Alike m')
    (hstep : m.step = .error failure) :
    ∃ left, m'.step = .error ⟨failure.fault, failure.statement, left⟩ ∧
      left.state = failure.machine.state := by
  obtain ⟨f, frames, s', hm, hfault, hmachine⟩ := exists_faults hstep
  obtain ⟨hframes, hstate⟩ := h
  rw [hm] at hframes
  obtain ⟨g, frames', hg, -, hframes'⟩ := List.forall₂_cons_left_iff.mp hframes
  refine ⟨of (g :: frames') s', ?_, by rw [hmachine]; rfl⟩
  rw [← of_state m', hframes', ← hstate]
  exact step_of_faults (hfault.alike hg) frames'

/-- Such machines cannot be told apart. -/
theorem Alike.seen_run (h : m.Alike m') (limit : Nat) :
    (m.run limit).seen = (m'.run limit).seen := by
  fun_induction run limit m generalizing m' with
  | case1 n m hf =>
    rw [h.isFinished_eq] at hf
    rw [run_of_finished hf, Run.seen, h.state]
    rfl
  | case2 m hf =>
    rw [h.isFinished_eq] at hf
    rw [run_zero hf, Run.seen, h.state]
    rfl
  | case3 m hf n m₁ hstep ih =>
    obtain ⟨m₁', hstep', h₁⟩ := h.step hf hstep
    rw [h.isFinished_eq] at hf
    rw [run_succ_of_ok hf hstep']
    exact ih h₁
  | case4 m hf n failure hstep =>
    obtain ⟨left, hstep', hleft⟩ := h.step_of_error hstep
    rw [run_succ_of_error hstep', Run.seen, ← hleft]
    rfl

theorem alike_append (b c : Block) (e : ScopeId) (s : State) :
    (of [⟨b ++ c, b.length, 0, e⟩] s).Alike (start c s.stack e s.world) := by
  have hrest : (b ++ c).drop b.length = c := List.drop_left
  exact ⟨.cons ⟨hrest, rfl, rfl⟩ .nil, rfl⟩

end Machine

namespace Block

/-- Runs the block for at most `limit` steps. -/
def run (b : Block) (limit : Nat) (e : ScopeId) (s : State) : Run :=
  (Machine.start b s.stack e s.world).run limit

/-- How a run of the block ends. -/
def Ends (b : Block) (e : ScopeId) : Effect := fun s o s' =>
  ∃ limit, (b.run limit e s).ending? = some (o, s')

/-- A run of the block never ends. -/
def Diverges (b : Block) (e : ScopeId) (s : State) : Prop :=
  ∀ limit, (b.run limit e s).ending? = none

variable {b c : Block} {e : ScopeId} {s s' : State} {o : Outcome}

theorem diverges_iff : b.Diverges e s ↔ ∀ o s', ¬ b.Ends e s o s' := by
  constructor
  · rintro h o s' ⟨limit, hend⟩
    rw [h limit] at hend
    cases hend
  · intro h limit
    rw [Option.eq_none_iff_forall_ne_some]
    rintro ⟨o, s'⟩ hend
    exact h o s' ⟨limit, hend⟩

/-- What is seen of a block that goes on with `c` is what is seen of the block without, and once that
has finished, of `c` from there on. The last step without `c`, in which the block is left, is not
taken. -/
theorem seen_run_append (b c : Block) (limit : Nat) (e : ScopeId) (s : State) :
    ((b ++ c : Block).run limit e s).seen =
      match b.run limit e s with
      | .finished m unspent => (c.run (unspent + 1) e m.state).seen
      | r => r.seen := by
  rw [run, Machine.run_start_append]
  change (Run.onward _ _ (b.run limit e s)).seen = _
  cases b.run limit e s with
  | finished m unspent => exact (Machine.alike_append b c e m.state).seen_run (unspent + 1)
  | failed f => rfl
  | running m => rfl

section Append

variable {limit unspent : Nat} {m : Machine}

theorem ending?_append_of_finished (h : b.run limit e s = .finished m unspent) (c : Block) :
    ((b ++ c : Block).run limit e s).ending? = (c.run (unspent + 1) e m.state).ending? := by
  apply Run.ending?_of_seen
  rw [seen_run_append, h]

theorem ending?_append_of_not_finished (h : ∀ m unspent, b.run limit e s ≠ .finished m unspent)
    (c : Block) : ((b ++ c : Block).run limit e s).ending? = (b.run limit e s).ending? := by
  apply Run.ending?_of_seen
  rw [seen_run_append]
  split
  · rename_i m unspent hrun
    exact absurd hrun (h m unspent)
  · rfl

end Append

theorem Ends.exists_finishesIn (h : b.Ends e s .done s') :
    ∃ spent m, (Machine.start b s.stack e s.world).FinishesIn spent m ∧ m.state = s' := by
  obtain ⟨limit, hlimit⟩ := h
  obtain ⟨m, unspent, hrun, hstate⟩ := Run.exists_of_done hlimit
  obtain ⟨-, spent, hspent⟩ := Machine.exists_finishesIn hrun
  exact ⟨spent, m, hspent, hstate⟩

theorem Ends.exists_limit (h : b.Ends e s o s') :
    ∃ least, ∀ limit ≥ least, (b.run limit e s).ending? = some (o, s') :=
  (Machine.exists_run_iff_ends.mp h).exists_limit

theorem ends_append_iff :
    (b ++ c : Block).Ends e s o s' ↔ Effect.Then (b.Ends e) (c.Ends e) s o s' := by
  constructor
  · rintro ⟨limit, h⟩
    cases hb : b.run limit e s with
    | finished m unspent =>
      rw [ending?_append_of_finished hb] at h
      exact ⟨.done, m.state, ⟨limit, by rw [hb]; rfl⟩, .done ⟨unspent + 1, h⟩⟩
    | failed f =>
      rw [ending?_append_of_not_finished (by simp [hb]), hb] at h
      cases h
      exact ⟨_, _, ⟨limit, by rw [hb]; rfl⟩, .failed⟩
    | running m =>
      rw [ending?_append_of_not_finished (by simp [hb]), hb] at h
      cases h
  · rintro ⟨o₁, s₁, hb, hc | _⟩
    · obtain ⟨spent, m, hspent, rfl⟩ := hb.exists_finishesIn
      obtain ⟨least, hleast⟩ := hc.exists_limit
      refine ⟨spent + least, ?_⟩
      rw [ending?_append_of_finished (hspent.finished least)]
      exact hleast _ (Nat.le_succ least)
    · obtain ⟨limit, hlimit⟩ := hb
      refine ⟨limit, ?_⟩
      rw [ending?_append_of_not_finished, hlimit]
      intro m unspent hrun
      rw [hrun] at hlimit
      cases hlimit

theorem diverges_append_iff :
    (b ++ c : Block).Diverges e s ↔
      b.Diverges e s ∨ ∃ s₁, b.Ends e s .done s₁ ∧ c.Diverges e s₁ := by
  constructor
  · intro h
    by_cases hb : b.Diverges e s
    · exact .inl hb
    · obtain ⟨o, s₁, hb⟩ : ∃ o s₁, b.Ends e s o s₁ := by simpa [diverges_iff] using hb
      rw [diverges_iff] at h
      cases o with
      | done =>
        refine .inr ⟨s₁, hb, diverges_iff.mpr ?_⟩
        intro o s' hc
        exact h o s' (ends_append_iff.mpr ⟨_, _, hb, .done hc⟩)
      | failed fault a => exact absurd (ends_append_iff.mpr ⟨_, _, hb, .failed⟩) (h _ _)
  · rintro (hb | ⟨s₁, hb, hc⟩)
    · rw [diverges_iff] at hb ⊢
      intro o s' h
      obtain ⟨o₁, s₁, hb', -⟩ := ends_append_iff.mp h
      exact hb o₁ s₁ hb'
    · intro limit
      obtain ⟨spent, m, hspent, rfl⟩ := hb.exists_finishesIn
      rcases hspent.running_or_finished limit with ⟨m₁, hm₁⟩ | ⟨j, rfl⟩
      · have hrun : b.run limit e s = .running m₁ := hm₁
        rw [ending?_append_of_not_finished (by simp [hrun]), hrun]
        rfl
      · rw [ending?_append_of_finished (hspent.finished j)]
        exact hc (j + 1)

/-- To run a block that goes on with another is to run the two in order. It ends as the first does,
if that fails, and otherwise as the second does on the stack, scopes and writers that the first has
left; and it never ends if the first does not, or if the second then does not. It also goes through
the same states on the way, whether it ends or not. -/
theorem append_runs_in_order (b c : Block) (e : ScopeId) (s : State) :
    (∀ o s', (b ++ c : Block).Ends e s o s' ↔ Effect.Then (b.Ends e) (c.Ends e) s o s') ∧
    ((b ++ c : Block).Diverges e s ↔
      b.Diverges e s ∨ ∃ s₁, b.Ends e s .done s₁ ∧ c.Diverges e s₁) ∧
    ∀ limit, ((b ++ c : Block).run limit e s).seen =
      match b.run limit e s with
      | .finished m unspent => (c.run (unspent + 1) e m.state).seen
      | r => r.seen :=
  ⟨fun _ _ => ends_append_iff, diverges_append_iff, fun limit => seen_run_append b c limit e s⟩

end Block

end Stacklet

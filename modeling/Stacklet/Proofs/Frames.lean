import Mathlib.Data.List.Chain
import Mathlib.Data.List.Nodup
import Stacklet.Console
import Stacklet.Proofs.Isolation

/-!
The frames of a run. Each stands at a place that its block has, all run in scopes of their own, and
each but the innermost waits for the one above it, at the value, the block or the call that started
it.
-/

namespace Stacklet

/-- How far terms are counted at a statement: those of an expression, one for the value of an
assignment, and none for a method. -/
def Statement.lastTerm : Statement → Nat
  | .expression terms _ => terms.length
  | .assignment .. => 1
  | .method .. => 0

namespace Frame

/-- The frame stands at a statement of its block, or at its end. -/
structure InBounds (f : Frame) : Prop where
  statement : f.statement ≤ f.block.length
  finished : f.statement = f.block.length → f.term = 0
  term : ∀ a, f.At a → f.term ≤ a.lastTerm

variable {f g : Frame} {a : Statement}

theorem inBounds_start (b : Block) (e : ScopeId) : (start b e).InBounds :=
  ⟨Nat.zero_le _, fun _ => rfl, fun _ _ => Nat.zero_le _⟩

theorem At.lt_length (ha : f.At a) : f.statement < f.block.length :=
  (List.getElem?_eq_some_iff.mp ha).1

theorem At.inBounds_nextStatement (ha : f.At a) : f.nextStatement.InBounds :=
  ⟨ha.lt_length, fun _ => rfl, fun _ _ => Nat.zero_le _⟩

theorem At.inBounds_nextTerm (ha : f.At a) (hterm : f.term < a.lastTerm) :
    f.nextTerm.InBounds where
  statement := Nat.le_of_lt ha.lt_length
  finished hend := absurd hend (Nat.ne_of_lt ha.lt_length)
  term b hb := by
    have hba : b = a := Option.some.inj (hb.symm.trans ha)
    rw [hba]
    exact hterm

theorem AtTerm.inBounds_nextTerm {t : Term} (ht : f.AtTerm a t) : f.nextTerm.InBounds := by
  obtain ⟨ha, ht⟩ := ht
  exact ha.inBounds_nextTerm (List.getElem?_eq_some_iff.mp ht).1

/-- The frame `f` waits until `g`, the frame above it, is left. -/
inductive Awaits (h : Scopes) (f g : Frame) : Prop where
  | value {names : List String} {comment : Option String} :
      f.At (.assignment names g.block comment) → f.term = 1 →
      h.parent? g.scope = some f.scope → Awaits h f g
  | block {terms : List Term} {comment : Option String} {k : Nat} :
      f.At (.expression terms comment) → f.term = k + 1 → terms[k]? = some (.block g.block) →
      h.parent? g.scope = some f.scope → Awaits h f g
  | call {terms : List Term} {comment : Option String} {k : Nat} {name : String} :
      f.At (.expression terms comment) → f.term = k + 1 → terms[k]? = some (.identifier name) →
        Awaits h f g

namespace Awaits

variable {h h' : Scopes}

/-- It matters only what runs in the frame above and where, not how far it has come. -/
theorem replace {g' : Frame} (hw : f.Awaits h g) (hblock : g'.block = g.block)
    (hscope : g'.scope = g.scope) : f.Awaits h g' := by
  cases hw with
  | value ha hterm hparent =>
    rw [← hscope] at hparent
    rw [← hblock] at ha
    exact .value ha hterm hparent
  | block ha hterm ht hparent =>
    rw [← hscope] at hparent
    rw [← hblock] at ht
    exact .block ha hterm ht hparent
  | call ha hterm ht => exact .call ha hterm ht

theorem grows {may : ScopeId → String → Prop} (hw : f.Awaits h g) (hgrows : h.Grows may h') :
    f.Awaits h' g := by
  have hkept (hparent : h.parent? g.scope = some f.scope) : h'.parent? g.scope = some f.scope :=
    (hgrows.parent _ (Scopes.lt_size_of_parent? hparent)).trans hparent
  cases hw with
  | value ha hterm hparent => exact .value ha hterm (hkept hparent)
  | block ha hterm ht hparent => exact .block ha hterm ht (hkept hparent)
  | call ha hterm ht => exact .call ha hterm ht

end Awaits

/-- What takes the place of a frame: nothing, the frame further on, or that with a frame above it
that it waits for, in a scope that was not there before. -/
theorem Advances.awaits {s s' : State} {fs : List Frame} (h : f.Advances s fs s') :
    fs = [] ∨ ∃ f' : Frame, f'.InBounds ∧ f'.block = f.block ∧ f'.scope = f.scope ∧
      (fs = [f'] ∨ ∃ g : Frame, fs = [g, f'] ∧ g.InBounds ∧ g.scope = s.fresh ∧
        s.fresh < s'.fresh ∧ f'.Awaits s'.world.scopes g) := by
  have hfresh (p : ScopeId) : s.fresh < (s.extend p).fresh := by
    simp [State.fresh, State.extend]
  have hparent (p : ScopeId) : (s.extend p).world.scopes.parent? s.fresh = some p := by
    simp [State.fresh, State.extend, Scopes.parent?_extend]
  cases h with
  | leave => exact .inl rfl
  | number ht | value ht | host ht | comment ht =>
    exact .inr ⟨f.nextTerm, ht.inBounds_nextTerm, rfl, rfl, .inl rfl⟩
  | expression ha | assign ha | method ha =>
    exact .inr ⟨f.nextStatement, ha.inBounds_nextStatement, rfl, rfl, .inl rfl⟩
  | guest ht =>
    refine .inr ⟨f.nextTerm, ht.inBounds_nextTerm, rfl, rfl, .inr ⟨_, rfl, ?_⟩⟩
    obtain ⟨ha, ht⟩ := ht
    exact ⟨inBounds_start _ _, rfl, hfresh _, .call ha rfl ht⟩
  | block ht =>
    refine .inr ⟨f.nextTerm, ht.inBounds_nextTerm, rfl, rfl, .inr ⟨_, rfl, ?_⟩⟩
    obtain ⟨ha, ht⟩ := ht
    exact ⟨inBounds_start _ _, rfl, hfresh _, .block ha rfl ht (hparent _)⟩
  -- Entering the value counts as its one term, so the frame resumes in its second phase.
  | enter ha h0 =>
    have hterm : f.nextTerm.term = 1 := congrArg (· + 1) h0
    refine .inr ⟨f.nextTerm, ha.inBounds_nextTerm (by simp [Statement.lastTerm, h0]), rfl, rfl,
      .inr ⟨_, rfl, ?_⟩⟩
    exact ⟨inBounds_start _ _, rfl, hfresh _, .value ha hterm (hparent _)⟩

end Frame

/-- Frames, listed innermost first, as they stand in a run. -/
structure WellFramed (h : Scopes) (frames : List Frame) : Prop where
  bounds : ∀ f ∈ frames, f.InBounds
  awaits : frames.IsChain fun g f => f.Awaits h g
  scope : ∀ f ∈ frames, f.scope < h.all.size
  distinct : (frames.map Frame.scope).Nodup

namespace WellFramed

variable {h h' : Scopes} {f g f' : Frame} {frames : List Frame}

theorem singleton (hbounds : f.InBounds) (hscope : f.scope < h.all.size) : WellFramed h [f] where
  bounds := by simpa using hbounds
  awaits := .singleton f
  scope := by simpa using hscope
  distinct := List.nodup_singleton _

theorem tail (hw : WellFramed h (f :: frames)) : WellFramed h frames where
  bounds g hg := hw.bounds g (List.mem_cons_of_mem _ hg)
  awaits := hw.awaits.tail
  scope g hg := hw.scope g (List.mem_cons_of_mem _ hg)
  distinct := (List.nodup_cons.mp hw.distinct).2

theorem replace (hw : WellFramed h (f :: frames)) (hbounds : f'.InBounds)
    (hblock : f'.block = f.block) (hscope : f'.scope = f.scope) :
    WellFramed h (f' :: frames) where
  bounds := List.forall_mem_cons.mpr ⟨hbounds, hw.tail.bounds⟩
  awaits := by
    obtain ⟨hhead, hrest⟩ := List.isChain_cons.mp hw.awaits
    exact hrest.cons fun g hg => (hhead g hg).replace hblock hscope
  scope := by
    refine List.forall_mem_cons.mpr ⟨?_, hw.tail.scope⟩
    rw [hscope]
    exact hw.scope f (List.mem_cons_self ..)
  distinct := by
    rw [List.map_cons, hscope]
    exact hw.distinct

theorem grows {may : ScopeId → String → Prop} (hw : WellFramed h frames)
    (hgrows : h.Grows may h') : WellFramed h' frames where
  bounds := hw.bounds
  awaits := hw.awaits.imp fun _ _ hawaits => hawaits.grows hgrows
  scope f hf := Nat.lt_of_lt_of_le (hw.scope f hf) hgrows.size
  distinct := hw.distinct

/-- A frame is put on in a scope that none of the others can have. -/
theorem cons (hw : WellFramed h' (f :: frames)) (hbounds : g.InBounds)
    (hscope : g.scope < h'.all.size) (hfresh : ∀ f' ∈ f :: frames, f'.scope < g.scope)
    (hawaits : f.Awaits h' g) : WellFramed h' (g :: f :: frames) where
  bounds := List.forall_mem_cons.mpr ⟨hbounds, hw.bounds⟩
  awaits := .cons_cons hawaits hw.awaits
  scope := List.forall_mem_cons.mpr ⟨hscope, hw.scope⟩
  distinct := by
    refine List.nodup_cons.mpr ⟨fun hmem => ?_, hw.distinct⟩
    obtain ⟨f', hf', heq⟩ := List.mem_map.mp hmem
    exact absurd heq (Nat.ne_of_lt (hfresh f' hf'))

theorem step {s s' : State} {fs : List Frame} (hw : WellFramed s.world.scopes (f :: frames))
    (hadv : f.Advances s fs s') : WellFramed s'.world.scopes (fs ++ frames) := by
  have hgrown : WellFramed s'.world.scopes (f :: frames) := hw.grows hadv.grows
  rcases hadv.awaits with rfl | ⟨f', hbounds, hblock, hscope, rfl | ⟨g, rfl, hg, hfresh, hlt, hf'⟩⟩
  · exact hgrown.tail
  · exact hgrown.replace hbounds hblock hscope
  · refine (hgrown.replace hbounds hblock hscope).cons hg (by rw [hfresh]; exact hlt) ?_ hf'
    -- The scopes of the other frames were there before the step, so they are older.
    rw [hfresh]
    exact (hw.replace hbounds hblock hscope).scope

end WellFramed

namespace Machine

variable {b : Block} {stack : Stack} {e : ScopeId} {world : World} {m : Machine}

theorem Leads.wellFramed (he : e < world.scopes.all.size)
    (h : Leads 0 (start b stack e world) m) : WellFramed m.world.scopes m.frames := by
  induction h with
  | refl => exact .singleton (Frame.inBounds_start b e) he
  | tail _ hstep ih =>
    obtain ⟨hn, hstep⟩ := hstep
    obtain ⟨f, frames, fs, s', hm, hadv, rfl⟩ := exists_advances hn hstep
    rw [hm] at ih
    exact ih.step hadv

/-- The frames are as they should be in every machine that a run of a block goes through, and in the
one that a failing step leaves. -/
theorem run_is_well_framed (b : Block) (stack : Stack) (e : ScopeId) (world : World)
    (he : e < world.scopes.all.size) (m : Machine) (hm : (start b stack e world).Visits 0 m) :
    WellFramed m.world.scopes m.frames := by
  obtain ⟨m₁, hleads, hframes, hscopes⟩ := hm.exists_leads
  rw [hframes, hscopes]
  exact hleads.wellFramed he

/-- A method, called from a block in the value of an assignment. -/
def calledInValue : Block :=
  [.method "f" [.expression [.number (.ofByte 1)] none] none,
    .assignment ["x"] [.expression [.block [.expression [.identifier "f"] none]] none] none]

/-- While the method runs, three frames wait, each for another reason. -/
theorem calledInValue_well_framed : ∃ m,
    (start calledInValue .empty World.program World.console).Visits 0 m ∧
      m.frames.map (fun f => (f.statement, f.term, f.scope)) =
        [(0, 0, 4), (0, 1, 3), (0, 1, 2), (1, 1, 1)] ∧
      WellFramed m.world.scopes m.frames := by
  let body : Block := [.expression [.number (.ofByte 1)] none]
  let inner : Block := [.expression [.identifier "f"] none]
  let s₁ : State := State.bind ⟨.empty, World.console⟩ 1 "f" (.guest ⟨1, body⟩)
  let s₂ : State := (s₁.extend 1).extend 2
  let m : Machine :=
    of [.start body 4, ⟨inner, 0, 1, 3⟩, ⟨[.expression [.block inner] none], 0, 1, 2⟩,
      ⟨calledInValue, 1, 1, 1⟩] (s₂.extend 1)
  have hcall : s₂.world.scopes.get? 3 "f" = some (.guest ⟨1, body⟩) := by
    have hvalue : s₂.world.scopes.get? 3 "f" = s₂.world.scopes.get? 2 "f" :=
      Scopes.get?_of_parent? rfl rfl (Nat.lt_succ_self 2)
    rw [hvalue, Scopes.get?_of_parent? rfl rfl (Nat.lt_succ_self 1)]
    exact Scopes.get?_of_local? rfl
  have hleads : Leads 0 (start calledInValue .empty World.program World.console) m := by
    change Leads 0 (of [.start calledInValue 1] ⟨.empty, World.console⟩) m
    refine Leads.of_advances (.method rfl) ?_
    refine Leads.of_advances (.enter rfl rfl) ?_
    refine Leads.of_advances (.block (.mk rfl rfl)) ?_
    exact Leads.of_advances (.guest (.mk rfl rfl) hcall) .refl
  have hprogram : World.program < World.console.scopes.all.size := Nat.lt_succ_self 1
  exact ⟨m, .leads hleads, rfl, run_is_well_framed calledInValue .empty World.program World.console
    hprogram m (.leads hleads)⟩

end Machine

end Stacklet

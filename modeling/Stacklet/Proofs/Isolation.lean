import Stacklet.Proofs.Step

/-!
What a run does to scopes that were there before it. Only the scope the block runs in gets new
bindings, and only of names that the block's own statements bind: values, nested blocks and
methods run in scopes of their own.
-/

namespace Stacklet

/-- The names that a statement binds in the scope it runs in. -/
def Statement.bound : Statement → List String
  | .expression .. => []
  | .assignment names .. => names
  | .method name .. => [name]

def Block.bound (b : Block) : List String := b.flatMap Statement.bound

theorem Block.mem_bound {b : Block} {a : Statement} {x : String} (ha : a ∈ b) (hx : x ∈ a.bound) :
    x ∈ b.bound := List.mem_flatMap.mpr ⟨a, ha, hx⟩

/-- The scopes of `h` keep their parents, and their own bindings but for those that `may` change;
scopes may be added. -/
structure Scopes.Grows (may : ScopeId → String → Prop) (h h' : Scopes) : Prop where
  size : h.all.size ≤ h'.all.size
  parent : ∀ id < h.all.size, h'.parent? id = h.parent? id
  own : ∀ id < h.all.size, ∀ x, ¬ may id x → h'.local? id x = h.local? id x

namespace Scopes.Grows

variable {may may' : ScopeId → String → Prop} {h h' h'' : Scopes}

theorem refl : Grows may h h := ⟨Nat.le_refl _, fun _ _ => rfl, fun _ _ _ _ => rfl⟩

theorem trans (h₁ : Grows may h h') (h₂ : Grows may h' h'') : Grows may h h'' where
  size := Nat.le_trans h₁.size h₂.size
  parent id hid := (h₂.parent id (Nat.lt_of_lt_of_le hid h₁.size)).trans (h₁.parent id hid)
  own id hid x hx :=
    (h₂.own id (Nat.lt_of_lt_of_le hid h₁.size) x hx).trans (h₁.own id hid x hx)

theorem imp (hgrows : Grows may h h') (hmay : ∀ id x, may id x → may' id x) :
    Grows may' h h' where
  size := hgrows.size
  parent := hgrows.parent
  own id hid x hx := hgrows.own id hid x fun hm => hx (hmay id x hm)

theorem add (h : Scopes) (parent : Option ScopeId) : Grows may h (h.add parent).2 where
  size := by simp [Scopes.add]
  parent id hid := by rw [parent?_add, if_neg (Nat.ne_of_lt hid)]
  own id _ x _ := by rw [local?_add]

theorem extend (h : Scopes) (parent : ScopeId) : Grows may h (h.extend parent).2 :=
  add h (some parent)

end Scopes.Grows

namespace Machine

/-- The machines that successful steps lead to, each taken with more than `n` frames. -/
def Leads (n : Nat) : Machine → Machine → Prop :=
  Relation.ReflTransGen fun m m' => n < m.frames.length ∧ m.step = .ok m'

/-- The machines a run goes through while it has more than `n` frames, and the one that a failing
step leaves. -/
inductive Visits (n : Nat) (m : Machine) : Machine → Prop where
  | leads {m' : Machine} : Leads n m m' → Visits n m m'
  | fails {m' : Machine} {failure : Failure} :
      Leads n m m' → n < m'.frames.length → m'.step = .error failure → Visits n m failure.machine

end Machine

namespace Frame

variable {f : Frame} {s s' : State} {fs : List Frame}

theorem At.mem {a : Statement} (ha : f.At a) : a ∈ f.block := List.mem_of_getElem? ha

/-- A step leaves the frame, moves it on, or starts a frame in a new scope above it. -/
theorem Advances.frames (h : f.Advances s fs s') :
    fs = [] ∨ ∃ f', f'.block = f.block ∧ f'.scope = f.scope ∧
      (fs = [f'] ∨ ∃ body, fs = [.start body s.fresh, f']) := by
  cases h with
  | leave => exact .inl rfl
  | number | value | host | comment =>
    exact .inr ⟨f.nextTerm, rfl, rfl, .inl rfl⟩
  | guest | block | enter => exact .inr ⟨f.nextTerm, rfl, rfl, .inr ⟨_, rfl⟩⟩
  | expression | assign | method => exact .inr ⟨f.nextStatement, rfl, rfl, .inl rfl⟩

/-- A step changes the bindings of the frame's scope only, at names its block binds. -/
theorem Advances.grows (h : f.Advances s fs s') :
    s.world.scopes.Grows (fun id x => id = f.scope ∧ x ∈ f.block.bound) s'.world.scopes := by
  cases h with
  | leave | number | value | host | comment | expression => exact .refl
  | guest | block | enter => exact .extend _ _
  | @assign names value comment values below ha =>
    refine ⟨by simp, by simp, fun id _ x hx => ?_⟩
    rcases s.world.scopes.local?_bindAll_or f.scope id x names values with hlocal | ⟨hid, hn, -⟩
    · exact hlocal
    · exact absurd ⟨hid, Block.mem_bound ha.mem hn⟩ hx
  | @method name body comment ha =>
    refine ⟨by simp [State.bind], by simp [State.bind], fun id _ x hx => ?_⟩
    simp only [State.bind, Scopes.local?_bind]
    rw [if_neg]
    rintro ⟨hid, rfl, -⟩
    exact hx ⟨hid, Block.mem_bound ha.mem (List.mem_singleton.mpr rfl)⟩

theorem Faults.scopes {fault : Fault} {a : Statement} (h : f.Faults s fault a s') :
    s'.world.scopes = s.world.scopes := by
  cases h <;> rfl

end Frame

/-- The frames of a run of `b` in the scope `e` on top of `base`: at the bottom the frame of `b`
itself, which is left last, and all others in scopes from `first` on. -/
inductive Owned (first : Nat) (b : Block) (e : ScopeId) (base : List Frame) :
    List Frame → Prop where
  | left : Owned first b e base base
  | bottom {f : Frame} : f.block = b → f.scope = e → Owned first b e base (f :: base)
  | above {f : Frame} {frames : List Frame} :
      first ≤ f.scope → base.length < frames.length → Owned first b e base frames →
        Owned first b e base (f :: frames)

namespace Owned

variable {first : Nat} {b : Block} {e : ScopeId} {base : List Frame} {f : Frame}
  {frames fs : List Frame} {s s' : State}

/-- Putting a frame on with the block and scope of the one it replaces. -/
theorem replace {f' : Frame} (h : Owned first b e base (f :: frames))
    (hbase : base.length < (f :: frames).length) (hblock : f'.block = f.block)
    (hscope : f'.scope = f.scope) : Owned first b e base (f' :: frames) := by
  cases h with
  | left => exact absurd hbase (Nat.lt_irrefl _)
  | bottom hb he => exact .bottom (hblock.trans hb) (hscope.trans he)
  | above hf hlen hrest => exact .above (hscope ▸ hf) hlen hrest

theorem tail (h : Owned first b e base (f :: frames)) (hbase : base.length < (f :: frames).length) :
    Owned first b e base frames := by
  cases h with
  | left => exact absurd hbase (Nat.lt_irrefl _)
  | bottom => exact .left
  | above _ _ hrest => exact hrest

theorem step (h : Owned first b e base (f :: frames))
    (hbase : base.length < (f :: frames).length) (hfresh : first ≤ s.fresh)
    (hadv : f.Advances s fs s') : Owned first b e base (fs ++ frames) := by
  rcases hadv.frames with rfl | ⟨f', hblock, hscope, rfl | ⟨body, rfl⟩⟩
  · exact h.tail hbase
  · exact h.replace hbase hblock hscope
  · exact .above hfresh hbase (h.replace hbase hblock hscope)

/-- What a step of an owned frame may change. -/
theorem grows (h : Owned first b e base (f :: frames))
    (hbase : base.length < (f :: frames).length) (hadv : f.Advances s fs s') :
    s.world.scopes.Grows (fun id x => id = e ∧ x ∈ b.bound ∨ first ≤ id) s'.world.scopes := by
  refine hadv.grows.imp fun id x ⟨hid, hx⟩ => ?_
  cases h with
  | left => exact absurd hbase (Nat.lt_irrefl _)
  | bottom hb he =>
    subst hb he
    exact .inl ⟨hid, hx⟩
  -- Any other frame runs in a scope that the run has created.
  | above hf => exact .inr (hid ▸ hf)

end Owned

namespace Machine

variable {n : Nat} {m m' : Machine}

theorem length_pos_of_not_finished (h : ¬ m.isFinished) : 0 < m.frames.length :=
  List.length_pos_of_ne_nil (by simpa [isFinished] using h)

/-- A successful step of a machine that has frames is a step of its innermost frame. -/
theorem exists_advances (hn : n < m.frames.length) (h : m.step = .ok m') :
    ∃ f frames fs s', m = of (f :: frames) m.state ∧ f.Advances m.state fs s' ∧
      m' = of (fs ++ frames) s' := by
  obtain ⟨f, frames, hframes⟩ := List.exists_cons_of_length_pos (Nat.zero_lt_of_lt hn)
  have hm : m = of (f :: frames) m.state := by rw [← hframes, of_state]
  rw [hm] at h
  obtain ⟨fs, s', hadv, rfl⟩ := step_eq_ok_iff.mp h
  exact ⟨f, frames, fs, s', hm, hadv, rfl⟩

theorem exists_faults {failure : Failure} (h : m.step = .error failure) :
    ∃ f frames s', m = of (f :: frames) m.state ∧
      f.Faults m.state failure.fault failure.statement s' ∧
      failure.machine = of (f :: frames) s' := by
  cases hframes : m.frames with
  | nil => simp [step, hframes] at h
  | cons f frames =>
    have hm : m = of (f :: frames) m.state := by rw [← hframes, of_state]
    rw [hm] at h
    obtain ⟨fault, a, s', hfault, rfl⟩ := step_eq_error_iff.mp h
    exact ⟨f, frames, s', hm, hfault, rfl⟩

theorem Leads.of_advances {f : Frame} {fs frames : List Frame} {s s' : State}
    (hadv : f.Advances s fs s') (h : Leads 0 (of (fs ++ frames) s') m) :
    Leads 0 (of (f :: frames) s) m :=
  .head ⟨Nat.zero_lt_succ _, step_of_advances hadv frames⟩ h

/-- What holds of every machine that is reached holds of the one a failing step leaves, if it only
depends on frames and scopes. -/
theorem Visits.exists_leads (h : m.Visits n m') :
    ∃ m₁, Leads n m m₁ ∧ m'.frames = m₁.frames ∧ m'.world.scopes = m₁.world.scopes := by
  cases h with
  | leads h => exact ⟨m', h, rfl, rfl⟩
  | @fails m₁ failure h hn hstep =>
    obtain ⟨f, frames, s', hm, hfault, hf⟩ := exists_faults hstep
    refine ⟨m₁, h, ?_, ?_⟩
    · rw [hf, hm]
      rfl
    · rw [hf]
      exact hfault.scopes

/-- Along any steps, scopes keep their parents. -/
theorem Leads.grows (h : Leads n m m') :
    m.world.scopes.Grows (fun _ _ => True) m'.world.scopes := by
  induction h with
  | refl => exact .refl
  | tail _ hstep ih =>
    obtain ⟨hn, hstep⟩ := hstep
    obtain ⟨f, frames, fs, s', hm, hadv, rfl⟩ := exists_advances hn hstep
    exact ih.trans (hadv.grows.imp fun _ _ _ => trivial)

/-- Along a run of a block on top of other frames, its frames stay its own, and the scopes below
`first` change only where the block's own statements bind names. -/
theorem Leads.owned {first : Nat} {b : Block} {e : ScopeId} {base : List Frame} {s : State}
    (hfirst : first ≤ s.fresh) (h : Leads base.length (of (.start b e :: base) s) m) :
    Owned first b e base m.frames ∧
      s.world.scopes.Grows (fun id x => id = e ∧ x ∈ b.bound ∨ first ≤ id) m.world.scopes := by
  induction h with
  | refl => exact ⟨.bottom rfl rfl, .refl⟩
  | @tail m₁ m₂ _ hstep ih =>
    obtain ⟨hn, hstep⟩ := hstep
    obtain ⟨hown, hgrows⟩ := ih
    obtain ⟨f, frames, fs, s', hm, hadv, rfl⟩ := exists_advances hn hstep
    rw [hm] at hn hown
    have hfresh : first ≤ m₁.state.fresh := Nat.le_trans hfirst hgrows.size
    exact ⟨hown.step hn hfresh hadv, hgrows.trans (hown.grows hn hadv)⟩

/-- While a block runs, an older scope keeps a binding that is not of the block's own names. -/
theorem Visits.local?_eq {b : Block} {e id : ScopeId} {x : String} {base : List Frame} {s : State}
    (h : (of (.start b e :: base) s).Visits base.length m) (hid : id < s.fresh)
    (hx : id = e → x ∉ b.bound) :
    m.world.scopes.local? id x = s.world.scopes.local? id x := by
  obtain ⟨m₁, hleads, -, hscopes⟩ := h.exists_leads
  have hgrows := (hleads.owned (Nat.le_refl s.fresh)).2
  rw [hscopes]
  apply hgrows.own id hid x
  rintro (⟨he, hb⟩ | hle)
  · exact hx he hb
  · exact absurd hid (Nat.not_lt.mpr hle)

/-- The next step calls the method `c`. -/
def Calls (m : Machine) (c : Closure) : Prop :=
  ∃ f frames a name, m.frames = f :: frames ∧ f.AtTerm a (.identifier name) ∧
    m.world.scopes.get? f.scope name = some (.guest c)

theorem Calls.step {c : Closure} (h : m.Calls c) :
    ∃ f frames, m.frames.length = (f :: frames).length ∧
      m.step = .ok (of (.start c.body m.state.fresh :: f :: frames) (m.state.extend c.scope)) := by
  obtain ⟨f, frames, a, name, hframes, ht, hc⟩ := h
  refine ⟨f.nextTerm, frames, by rw [hframes]; rfl, ?_⟩
  rw [← of_state m, hframes]
  exact step_of_advances (.guest ht hc) frames

/-- Scopes are isolated along every run of a block `b` in a scope `e`, whether it ends in a failure
or not. A scope that was there before keeps its bindings, unless it is `e`, where only names that a
statement of `b` itself binds can change. Every scope keeps its parent. And while a method is
called, no scope that was there at the call changes, so neither does the one the method was defined
in. -/
theorem run_isolates_scopes (b : Block) (stack : Stack) (e : ScopeId) (world : World) :
    (∀ m, (start b stack e world).Visits 0 m → ∀ id < world.scopes.all.size, ∀ x,
      m.world.scopes.local? id x ≠ world.scopes.local? id x → id = e ∧ x ∈ b.bound) ∧
    (∀ m m', Leads 0 (start b stack e world) m → m.Visits 0 m' → ∀ id < m.world.scopes.all.size,
      m'.world.scopes.parent? id = m.world.scopes.parent? id) ∧
    (∀ m m₁ m' c, Leads 0 (start b stack e world) m → m.Calls c → m.step = .ok m₁ →
      m₁.Visits m.frames.length m' → ∀ id < m.world.scopes.all.size, ∀ x,
        m'.world.scopes.local? id x = m.world.scopes.local? id x) := by
  refine ⟨?_, ?_, ?_⟩
  · intro m hm id hid x hne
    have hm : (of [.start b e] ⟨stack, world⟩).Visits ([] : List Frame).length m := hm
    by_contra hx
    exact hne (hm.local?_eq hid fun he hb => hx ⟨he, hb⟩)
  · intro m m' _ hm' id hid
    obtain ⟨m₁, hleads, -, hscopes⟩ := hm'.exists_leads
    rw [hscopes]
    exact hleads.grows.parent id hid
  · intro m m₁ m' c _ hcall hstep hm' id hid x
    obtain ⟨f, frames, hlen, hcstep⟩ := hcall.step
    obtain rfl := Except.ok.inj (hstep.symm.trans hcstep)
    rw [hlen] at hm'
    have hfresh : id < (m.state.extend c.scope).fresh := by
      simp only [State.fresh, State.extend, Scopes.size_extend]
      exact Nat.lt_succ_of_lt hid
    -- The body runs in a scope that is not there yet, so no older scope is its own.
    rw [hm'.local?_eq hfresh fun he => absurd he (Nat.ne_of_lt hid)]
    exact Scopes.local?_extend ..

end Machine

end Stacklet

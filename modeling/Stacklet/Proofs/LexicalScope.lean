import Mathlib.Logic.Function.Basic
import Stacklet.Console
import Stacklet.Proofs.Isolation
import Stacklet.Proofs.Nesting

/-!
Lexical scoping. Whoever calls a piece of code, the scopes around its frame follow the blocks
around it in the program, so a name that none of these blocks binds is found only where the program
itself was started.
-/

namespace Stacklet

namespace Scopes

/-- Scopes are numbered in the order of their creation, so a parent comes before its children. -/
def Ordered (h : Scopes) : Prop := ∀ e p, h.parent? e = some p → p < e

/-- A scope and those that enclose it. -/
def Chain (h : Scopes) : ScopeId → ScopeId → Prop :=
  Relation.ReflTransGen fun e p => h.parent? e = some p

variable {h : Scopes} {e id : ScopeId} {x : String} {b : Binding}

theorem Chain.le (hord : h.Ordered) (hchain : h.Chain e id) : id ≤ e := by
  induction hchain with
  | refl => exact Nat.le_refl _
  | tail _ hp ih => exact Nat.le_trans (Nat.le_of_lt (hord _ _ hp)) ih

/-- A binding that is found is the own binding of an enclosing scope. -/
theorem exists_chain_of_get? (hb : h.get? e x = some b) :
    ∃ id, h.Chain e id ∧ h.local? id x = some b := by
  fun_induction get? h e x with
  | case1 e b' hl => exact ⟨e, .refl, hl.trans hb⟩
  | case2 => cases hb
  | case3 e _ p hp _ ih =>
    obtain ⟨id, hchain, hl⟩ := ih hb
    exact ⟨id, .head hp hchain, hl⟩
  | case4 => cases hb

theorem get?_eq_none (hn : ∀ id, h.Chain e id → h.local? id x = none) : h.get? e x = none := by
  cases hb : h.get? e x with
  | none => rfl
  | some b =>
    obtain ⟨id, hchain, hl⟩ := exists_chain_of_get? hb
    rw [hn id hchain] at hl
    cases hl

end Scopes

/-- A static nesting path and the scopes that go with it, innermost first. It starts with the
program's block `b₀` in `e₀`; each further block stands directly in the one before, and its scope is
a child of the one before, created since there were `first` scopes, with own names that the block
binds. -/
inductive Placed (h : Scopes) (first : Nat) (b₀ : Block) (e₀ : ScopeId) :
    List (Block × ScopeId) → Prop where
  | root : Placed h first b₀ e₀ [(b₀, e₀)]
  | nested {b c : Block} {e e' : ScopeId} {path : List (Block × ScopeId)} :
      Placed h first b₀ e₀ ((b, e) :: path) → b.Child c →
      h.parent? e' = some e → first ≤ e' → (∀ x, h.local? e' x ≠ none → x ∈ c.bound) →
        Placed h first b₀ e₀ ((c, e') :: (b, e) :: path)

/-- The scopes a frame of the run may have: the one it was started in, and those created since. -/
def Scopes.OfRun (h : Scopes) (first : Nat) (e₀ id : ScopeId) : Prop :=
  id = e₀ ∨ first ≤ id ∧ id < h.all.size

/-- The invariant behind lexical scoping: each scope of the run is that of one block, `code`, and
frames and methods are in accord with it. Of the scopes from before the run, those that enclose
`e₀` are the only ones to be seen. -/
structure Lexical (h₀ : Scopes) (b₀ : Block) (e₀ : ScopeId) (code : ScopeId → Block)
    (frames : List Frame) (h : Scopes) : Prop where
  root : code e₀ = b₀
  size : h₀.all.size ≤ h.all.size
  parent : ∀ id < h₀.all.size, h.parent? id = h₀.parent? id
  scope : ∀ id, h₀.all.size ≤ id → id < h.all.size → ∃ p, h.parent? id = some p ∧
    h.OfRun h₀.all.size e₀ p ∧ p < id ∧ (code p).Child (code id) ∧
    ∀ x, h.local? id x ≠ none → x ∈ (code id).bound
  frame : ∀ f ∈ frames, h.OfRun h₀.all.size e₀ f.scope ∧ f.block = code f.scope
  guest : ∀ id x c, h₀.Chain e₀ id ∨ h₀.all.size ≤ id → h.local? id x = some (.guest c) →
    h.OfRun h₀.all.size e₀ c.scope ∧ ∃ name comment, .method name c.body comment ∈ code c.scope

namespace Lexical

variable {h₀ h : Scopes} {b₀ body : Block} {e₀ p id : ScopeId} {code : ScopeId → Block}
  {frames frames' : List Frame} {f : Frame}

/-- All that can be seen from a scope of the run. -/
theorem seen (hl : Lexical h₀ b₀ e₀ code frames h) (hold : ∀ id, h₀.Chain e₀ id → id < h₀.all.size)
    (hp : h.OfRun h₀.all.size e₀ p) (hchain : h.Chain p id) :
    h₀.Chain e₀ id ∨ h₀.all.size ≤ id := by
  have hrun {p : ScopeId} (hp : h.OfRun h₀.all.size e₀ p) :
      h₀.Chain e₀ p ∨ h₀.all.size ≤ p := by
    rcases hp with rfl | ⟨hle, -⟩
    · exact .inl .refl
    · exact .inr hle
  induction hchain with
  | refl => exact hrun hp
  | @tail a q _ hq ih =>
    rcases ih with hold' | hle
    · rw [hl.parent a (hold a hold')] at hq
      exact .inl (hold'.tail hq)
    · obtain ⟨q', hq', hrun', -⟩ := hl.scope a hle (Scopes.lt_size_of_parent? hq)
      rw [hq] at hq'
      cases hq'
      exact hrun hrun'

theorem reframe (hl : Lexical h₀ b₀ e₀ code frames h)
    (hsub : ∀ f ∈ frames', ∃ g ∈ frames, f.block = g.block ∧ f.scope = g.scope) :
    Lexical h₀ b₀ e₀ code frames' h where
  root := hl.root
  size := hl.size
  parent := hl.parent
  scope := hl.scope
  guest := hl.guest
  frame f hf := by
    obtain ⟨g, hg, hblock, hscope⟩ := hsub f hf
    rw [hblock, hscope]
    exact hl.frame g hg

/-- A block that stands in that of a scope starts in a new scope under it. -/
theorem extend (hl : Lexical h₀ b₀ e₀ code frames h) (he₀ : e₀ < h₀.all.size)
    (hp : h.OfRun h₀.all.size e₀ p) (hchild : (code p).Child body) :
    Lexical h₀ b₀ e₀ (Function.update code h.all.size body)
      (.start body h.all.size :: frames) (h.extend p).2 := by
  have hsize := hl.size
  have hlt {id : ScopeId} (hid : h.OfRun h₀.all.size e₀ id) : id < h.all.size := by
    rcases hid with rfl | ⟨-, hlt⟩
    · exact Nat.lt_of_lt_of_le he₀ hsize
    · exact hlt
  have hrun {id : ScopeId} (hid : h.OfRun h₀.all.size e₀ id) :
      (h.extend p).2.OfRun h₀.all.size e₀ id := by
    rcases hid with rfl | ⟨hle, hlt⟩
    · exact .inl rfl
    · refine .inr ⟨hle, ?_⟩
      rw [Scopes.size_extend]
      exact Nat.lt_succ_of_lt hlt
  have hcode {id : ScopeId} (hid : h.OfRun h₀.all.size e₀ id) :
      Function.update code h.all.size body id = code id :=
    Function.update_of_ne (Nat.ne_of_lt (hlt hid)) _ _
  constructor
  case root => rw [hcode (.inl rfl), hl.root]
  case size => rw [Scopes.size_extend]; omega
  case parent =>
    intro id hid
    have hne : id ≠ h.all.size := Nat.ne_of_lt (Nat.lt_of_lt_of_le hid hsize)
    rw [Scopes.parent?_extend, if_neg hne, hl.parent id hid]
  case scope =>
    intro id hle hid
    rw [Scopes.parent?_extend]
    by_cases hnew : id = h.all.size
    · subst hnew
      refine ⟨p, if_pos rfl, hrun hp, hlt hp, ?_, fun x hx => ?_⟩
      · rw [Function.update_self, hcode hp]
        exact hchild
      · rw [Scopes.local?_extend, Scopes.local?,
          Array.getElem?_eq_none (Nat.le_refl _)] at hx
        exact absurd rfl hx
    · rw [Scopes.size_extend] at hid
      obtain ⟨q, hq, hqrun, hqlt, hqchild, hown⟩ := hl.scope id hle (by omega)
      refine ⟨q, by rw [if_neg hnew, hq], hrun hqrun, hqlt, ?_, fun x hx => ?_⟩
      · rw [hcode hqrun, Function.update_of_ne hnew]
        exact hqchild
      · rw [Scopes.local?_extend] at hx
        rw [Function.update_of_ne hnew]
        exact hown x hx
  case frame =>
    intro f hf
    rcases List.mem_cons.mp hf with rfl | hf
    · refine ⟨.inr ⟨hsize, ?_⟩, ?_⟩
      · rw [Scopes.size_extend]
        exact Nat.lt_succ_self _
      · exact (Function.update_self h.all.size body code).symm
    · obtain ⟨hfrun, hblock⟩ := hl.frame f hf
      exact ⟨hrun hfrun, by rw [hcode hfrun, hblock]⟩
  case guest =>
    intro id x c hid hc
    rw [Scopes.local?_extend] at hc
    obtain ⟨hcrun, hbody⟩ := hl.guest id x c hid hc
    exact ⟨hrun hcrun, by rw [hcode hcrun]; exact hbody⟩

/-- A frame may bind names of its block in its scope, and methods of its block with that scope. -/
theorem rebind {h' : Scopes} (hl : Lexical h₀ b₀ e₀ code frames h) (hf : f ∈ frames)
    (hsize : h'.all.size = h.all.size) (hparent : ∀ id, h'.parent? id = h.parent? id)
    (hown : ∀ id x b, h'.local? id x = some b → h.local? id x = some b ∨
      id = f.scope ∧ x ∈ f.block.bound ∧ ∀ c, b = .guest c → c.scope = f.scope ∧
        ∃ name comment, .method name c.body comment ∈ f.block) :
    Lexical h₀ b₀ e₀ code frames h' := by
  have hrun {id : ScopeId} (hid : h.OfRun h₀.all.size e₀ id) : h'.OfRun h₀.all.size e₀ id := by
    rw [Scopes.OfRun, hsize]
    exact hid
  obtain ⟨hfrun, hblock⟩ := hl.frame f hf
  constructor
  case root => exact hl.root
  case size => rw [hsize]; exact hl.size
  case parent =>
    intro id hid
    rw [hparent, hl.parent id hid]
  case scope =>
    intro id hle hid
    obtain ⟨q, hq, hqrun, hqlt, hqchild, hnames⟩ := hl.scope id hle (hsize ▸ hid)
    refine ⟨q, (hparent id).trans hq, hrun hqrun, hqlt, hqchild, fun x hx => ?_⟩
    obtain ⟨b, hb⟩ := Option.ne_none_iff_exists'.mp hx
    rcases hown id x b hb with hb | ⟨rfl, hbound, -⟩
    · exact hnames x (by rw [hb]; exact Option.some_ne_none b)
    · exact hblock ▸ hbound
  case frame =>
    intro g hg
    exact ⟨hrun (hl.frame g hg).1, (hl.frame g hg).2⟩
  case guest =>
    intro id x c hid hc
    rcases hown id x _ hc with hc | ⟨-, -, hguest⟩
    · obtain ⟨hcrun, hbody⟩ := hl.guest id x c hid hc
      exact ⟨hrun hcrun, hbody⟩
    · obtain ⟨hscope, hbody⟩ := hguest c rfl
      rw [hscope, ← hblock]
      exact ⟨hrun hfrun, hbody⟩

theorem step {s s' : State} {fs : List Frame}
    (hl : Lexical h₀ b₀ e₀ code (f :: frames) s.world.scopes) (he₀ : e₀ < h₀.all.size)
    (hold : ∀ id, h₀.Chain e₀ id → id < h₀.all.size) (hadv : f.Advances s fs s') :
    ∃ code', Lexical h₀ b₀ e₀ code' (fs ++ frames) s'.world.scopes := by
  obtain ⟨hfrun, hblock⟩ := hl.frame f (List.mem_cons_self ..)
  have hmove (f' : Frame) (hb : f'.block = f.block) (hs : f'.scope = f.scope) :
      Lexical h₀ b₀ e₀ code (f' :: frames) s.world.scopes := by
    apply hl.reframe
    intro g hg
    rcases List.mem_cons.mp hg with rfl | hg
    · exact ⟨f, List.mem_cons_self .., hb, hs⟩
    · exact ⟨g, List.mem_cons_of_mem _ hg, rfl, rfl⟩
  have hnext := hmove f.nextTerm rfl rfl
  have hdone := hmove f.nextStatement rfl rfl
  cases hadv with
  | leave =>
    exact ⟨code, hl.reframe fun g hg => ⟨g, List.mem_cons_of_mem _ hg, rfl, rfl⟩⟩
  | number | value | host | comment => exact ⟨code, hnext⟩
  | expression => exact ⟨code, hdone⟩
  | @guest _ name c ht hc =>
    obtain ⟨id, hchain, hlocal⟩ := Scopes.exists_chain_of_get? hc
    obtain ⟨hcrun, _, _, hbody⟩ := hl.guest id name c (hl.seen hold hfrun hchain) hlocal
    exact ⟨_, hnext.extend he₀ hcrun (.body hbody)⟩
  | block ht =>
    obtain ⟨ha, ht⟩ := ht
    exact ⟨_, hnext.extend he₀ hfrun (.term (hblock ▸ ha.mem) (List.mem_of_getElem? ht))⟩
  | enter ha => exact ⟨_, hnext.extend he₀ hfrun (.value (hblock ▸ ha.mem))⟩
  | @assign names value comment values below ha =>
    refine ⟨code, hdone.rebind (List.mem_cons_self ..) (by simp) (by simp) fun id x b hb => ?_⟩
    rcases s.world.scopes.local?_bindAll_or f.scope id x names values with hlocal | ⟨hid, hx, v, hv⟩
    · exact .inl (hlocal ▸ hb)
    · refine .inr ⟨hid, Block.mem_bound ha.mem hx, fun c hc => ?_⟩
      rw [hv, hc] at hb
      cases hb
  | @method name body comment ha =>
    refine ⟨code, hdone.rebind (List.mem_cons_self ..) (by simp [State.bind])
      (by simp [State.bind]) fun id x b hb => ?_⟩
    simp only [State.bind, Scopes.local?_bind] at hb
    split at hb
    · rename_i hat
      obtain ⟨hid, rfl, -⟩ := hat
      refine .inr ⟨hid, Block.mem_bound ha.mem (List.mem_singleton.mpr rfl), fun c hc => ?_⟩
      subst hc
      cases hb
      exact ⟨rfl, _, _, ha.mem⟩
    · exact .inl hb

/-- Every scope of the run has a place in the program. -/
theorem placed (hl : Lexical h₀ b₀ e₀ code frames h) (hid : h.OfRun h₀.all.size e₀ id) :
    ∃ path, Placed h h₀.all.size b₀ e₀ ((code id, id) :: path) := by
  induction id using Nat.strongRecOn with
  | ind id ih =>
    rcases hid with rfl | ⟨hle, hlt⟩
    · exact ⟨[], by rw [hl.root]; exact .root⟩
    · obtain ⟨p, hp, hprun, hplt, hchild, hown⟩ := hl.scope id hle hlt
      obtain ⟨path, hpath⟩ := ih p hplt hprun
      exact ⟨_, .nested hpath hchild hp hle hown⟩

end Lexical

/-- The scopes seen from the innermost of a path are those of the path and those around `e₀`. -/
theorem Placed.chain {h : Scopes} {first : Nat} {b₀ b : Block} {e₀ e id : ScopeId}
    {path : List (Block × ScopeId)} (hp : Placed h first b₀ e₀ ((b, e) :: path))
    (hchain : h.Chain e id) :
    h.Chain e₀ id ∨ ∃ c, (c, id) ∈ (b, e) :: path ∧ ∀ x, h.local? id x ≠ none → x ∈ c.bound := by
  generalize hfull : (b, e) :: path = full at hp
  induction hp generalizing b e path with
  | root =>
    cases hfull
    exact .inl hchain
  | nested _ _ hparent _ hown ih =>
    cases hfull
    rcases Relation.ReflTransGen.cases_head hchain with rfl | ⟨q, hq, hchain⟩
    · exact .inr ⟨_, List.mem_cons_self .., hown⟩
    · rw [hparent] at hq
      cases hq
      rcases ih hchain rfl with hold | ⟨c, hc, hn⟩
      · exact .inl hold
      · exact .inr ⟨c, List.mem_cons_of_mem _ hc, hn⟩

theorem Placed.root_mem {h : Scopes} {first : Nat} {b₀ : Block} {e₀ : ScopeId}
    {path : List (Block × ScopeId)} (hp : Placed h first b₀ e₀ path) : (b₀, e₀) ∈ path := by
  induction hp with
  | root => exact List.mem_cons_self ..
  | nested _ _ _ _ _ ih => exact List.mem_cons_of_mem _ ih

namespace Machine

variable {b : Block} {stack : Stack} {e : ScopeId} {world : World} {m : Machine}

/-- The invariant holds along every run, given that nothing can be called at its start. -/
theorem Leads.lexical (he : e < world.scopes.all.size)
    (hold : ∀ id, world.scopes.Chain e id → id < world.scopes.all.size)
    (hguest : ∀ id x c, world.scopes.Chain e id → world.scopes.local? id x ≠ some (.guest c))
    (h : Leads 0 (start b stack e world) m) :
    ∃ code, Lexical world.scopes b e code m.frames m.world.scopes := by
  induction h with
  | refl =>
    -- Only the scope `e` belongs to the run yet, so the code of the others does not matter.
    refine ⟨fun _ => b, ?_⟩
    constructor
    case root => rfl
    case size => exact Nat.le_refl _
    case parent => exact fun _ _ => rfl
    case scope => exact fun id hle hlt => absurd hlt (Nat.not_lt.mpr hle)
    case frame =>
      intro f hf
      rw [List.mem_singleton.mp hf]
      exact ⟨.inl rfl, rfl⟩
    case guest =>
      intro id x c hid hc
      rcases hid with hid | hle
      · exact absurd hc (hguest id x c hid)
      · change world.scopes.local? id x = some (.guest c) at hc
        rw [Scopes.local?, Array.getElem?_eq_none hle] at hc
        cases hc
  | tail _ hstep ih =>
    obtain ⟨hn, hstep⟩ := hstep
    obtain ⟨code, hl⟩ := ih
    obtain ⟨f, frames, fs, s', hm, hadv, rfl⟩ := exists_advances hn hstep
    rw [hm] at hl
    exact hl.step he hold hadv

/-- A name that no block of a path binds, and that could not be seen at the start of the run, is
not found from the path. -/
theorem Visits.get?_eq_none {x : String} {c : Block} {e' : ScopeId}
    {path : List (Block × ScopeId)} (h : (start b stack e world).Visits 0 m)
    (hchain : ∀ id, m.world.scopes.Chain e id → world.scopes.Chain e id)
    (hold : ∀ id, world.scopes.Chain e id → id < world.scopes.all.size)
    (hp : Placed m.world.scopes world.scopes.all.size b e ((c, e') :: path))
    (hpath : ∀ p ∈ (c, e') :: path, x ∉ p.1.bound)
    (hx : ∀ id, world.scopes.Chain e id → world.scopes.local? id x = none) :
    m.world.scopes.get? e' x = none := by
  have h : (of [.start b e] ⟨stack, world⟩).Visits ([] : List Frame).length m := h
  apply Scopes.get?_eq_none
  intro id hid
  rcases hp.chain hid with hseen | ⟨d, hd, hnames⟩
  · have hseen := hchain id hseen
    rw [h.local?_eq (hold id hseen) fun _ => hpath _ hp.root_mem]
    exact hx id hseen
  · by_contra hne
    exact hpath _ hd (hnames x hne)

/-- What lexical scoping says of a machine `m`, in a run of `b` in the scope `e` that started with
the world `world`. -/
structure LexicallyScoped (b : Block) (e : ScopeId) (world : World) (m : Machine) : Prop where
  /-- Each frame has a place in the program. -/
  frame : ∀ f ∈ m.frames, ∃ path,
    Placed m.world.scopes world.scopes.all.size b e ((f.block, f.scope) :: path)
  /-- Each method stands in a block that has a place, and was defined in its scope. -/
  method : ∀ id x c, m.world.scopes.Chain e id ∨ world.scopes.all.size ≤ id →
    m.world.scopes.local? id x = some (.guest c) →
      ∃ d path name comment, .method name c.body comment ∈ d ∧
        Placed m.world.scopes world.scopes.all.size b e ((d, c.scope) :: path)
  /-- A name that no block around the frame binds, and that could not be seen from `e` at the
  start, is not bound. -/
  unbound : ∀ f frames a x path, m.frames = f :: frames → f.AtTerm a (.identifier x) →
    Placed m.world.scopes world.scopes.all.size b e ((f.block, f.scope) :: path) →
    (∀ p ∈ (f.block, f.scope) :: path, x ∉ p.1.bound) →
    (∀ id, world.scopes.Chain e id → world.scopes.local? id x = none) →
      m.step = .error ⟨.unboundName x, a, m⟩

/-- A run of a block in a scope from which no method can be seen is lexically scoped throughout. -/
theorem run_is_lexically_scoped (b : Block) (stack : Stack) (e : ScopeId) (world : World)
    (hord : world.scopes.Ordered) (he : e < world.scopes.all.size)
    (hguest : ∀ id x c, world.scopes.Chain e id → world.scopes.local? id x ≠ some (.guest c))
    (m : Machine) (hm : (start b stack e world).Visits 0 m) : LexicallyScoped b e world m := by
  have hold (id : ScopeId) (hid : world.scopes.Chain e id) : id < world.scopes.all.size :=
    Nat.lt_of_le_of_lt (hid.le hord) he
  obtain ⟨m₁, hleads, hframes, hscopes⟩ := hm.exists_leads
  obtain ⟨code, hl⟩ := hleads.lexical he hold hguest
  rw [← hframes, ← hscopes] at hl
  have hchain (id : ScopeId) (hid : m.world.scopes.Chain e id) : world.scopes.Chain e id := by
    induction hid with
    | refl => exact .refl
    | tail _ hp ih =>
      rw [hl.parent _ (hold _ ih)] at hp
      exact ih.tail hp
  constructor
  case frame =>
    intro f hf
    obtain ⟨hrun, hblock⟩ := hl.frame f hf
    rw [hblock]
    exact hl.placed hrun
  case method =>
    intro id x c hid hc
    obtain ⟨hrun, name, comment, hbody⟩ := hl.guest id x c (hid.imp_left (hchain id)) hc
    obtain ⟨path, hpath⟩ := hl.placed hrun
    exact ⟨_, path, name, comment, hbody, hpath⟩
  case unbound =>
    intro f frames a x path hf ht hp hpath hx
    have hnone := hm.get?_eq_none hchain hold hp hpath hx
    rw [← of_state m, hf]
    exact step_of_faults (.unbound ht hnone) frames

end Machine

namespace World

/-- Binding names one after the other binds nothing else. -/
theorem exists_mem_of_local?_foldl {bindings : List (String × Binding)} {h : Scopes} {id : ScopeId}
    {x : String} {b : Binding}
    (hb : (bindings.foldl (fun h (name, b) => h.bind root name b) h).local? id x = some b) :
    (∃ name, (name, b) ∈ bindings) ∨ h.local? id x = some b := by
  induction bindings generalizing h with
  | nil => exact .inr hb
  | cons p bindings ih =>
    rcases ih hb with ⟨name, hmem⟩ | hlocal
    · exact .inl ⟨name, List.mem_cons_of_mem _ hmem⟩
    · rw [Scopes.local?_bind] at hlocal
      split at hlocal
      · cases hlocal
        exact .inl ⟨p.1, List.mem_cons_self ..⟩
      · exact .inr hlocal

/-- What a program finds when it starts. -/
theorem exists_mem_bindings {id : ScopeId} {x : String} {b : Binding}
    (hb : console.scopes.local? id x = some b) : ∃ name, (name, b) ∈ Builtin.bindings := by
  have hroot : Scopes.empty.root.2.local? id x = none := by
    rw [Scopes.root, Scopes.local?_add]
    rfl
  have hbase := (Scopes.local?_extend _ root id x).symm.trans hb
  rcases exists_mem_of_local?_foldl hbase with hmem | hlocal
  · exact hmem
  · rw [hroot] at hlocal
    cases hlocal

/-- No method can be called before a program has defined one. -/
theorem console_local?_ne_guest (id : ScopeId) (x : String) (c : Closure) :
    console.scopes.local? id x ≠ some (.guest c) := by
  intro hc
  obtain ⟨name, hmem⟩ := exists_mem_bindings hc
  rcases List.mem_append.mp hmem with hmem | hmem
  · obtain ⟨call, -, heq⟩ := List.mem_map.mp hmem
    cases heq
  · simp at hmem

theorem console_ordered : console.scopes.Ordered := by
  intro e p hp
  have hlt : e < 2 := Scopes.lt_size_of_parent? hp
  match e, hlt with
  | 0, _ => cases hp
  | 1, _ =>
    cases hp
    exact Nat.zero_lt_one

end World

namespace Machine

/-- A method that uses a name, and a block that binds the name before it calls the method. -/
def calledWithName : Block :=
  [.method "f" [.expression [.identifier "y"] none] none,
    .expression [.block [.method "y" [] none, .expression [.identifier "f"] none]] none]

/-- The method does not see what its caller binds. -/
theorem calledWithName_unbound : ∃ m,
    (start calledWithName .empty World.program World.console).Visits 0 m ∧
      LexicallyScoped calledWithName World.program World.console m ∧
      m.step = .error ⟨.unboundName "y", .expression [.identifier "y"] none, m⟩ := by
  let body : Block := [.expression [.identifier "y"] none]
  let caller : Block := [.method "y" [] none, .expression [.identifier "f"] none]
  let s₁ : State := State.bind ⟨.empty, World.console⟩ 1 "f" (.guest ⟨1, body⟩)
  let s₂ : State := (s₁.extend 1).bind 2 "y" (.guest ⟨2, []⟩)
  let m : Machine :=
    of [.start body 3, ⟨caller, 1, 1, 2⟩, ⟨calledWithName, 1, 1, 1⟩] (s₂.extend 1)
  have hcall : s₂.world.scopes.get? 2 "f" = some (.guest ⟨1, body⟩) := by
    have hown : s₂.world.scopes.local? 2 "f" = none := rfl
    have hparent : s₂.world.scopes.parent? 2 = some 1 := rfl
    have houter : s₂.world.scopes.local? 1 "f" = some (.guest ⟨1, body⟩) := rfl
    rw [Scopes.get?_of_parent? hown hparent (Nat.lt_succ_self 1)]
    exact Scopes.get?_of_local? houter
  have hleads : Leads 0 (start calledWithName .empty World.program World.console) m := by
    change Leads 0 (of [.start calledWithName 1] ⟨.empty, World.console⟩) m
    refine Leads.of_advances (.method rfl) ?_
    refine Leads.of_advances (.block (.mk rfl rfl)) ?_
    refine Leads.of_advances (.method rfl) ?_
    exact Leads.of_advances (.guest (.mk rfl rfl) hcall) .refl
  have hscoped := run_is_lexically_scoped calledWithName .empty World.program World.console
    World.console_ordered (by decide) (fun id x c _ => World.console_local?_ne_guest id x c)
    m (.leads hleads)
  refine ⟨m, .leads hleads, hscoped, ?_⟩
  have hplace : Placed m.world.scopes World.console.scopes.all.size calledWithName 1
      [(body, 3), (calledWithName, 1)] := by
    refine .nested .root (.body (List.mem_cons_self ..)) rfl (by decide) fun x hx => ?_
    exact absurd rfl hx
  apply hscoped.unbound _ _ _ "y" _ rfl (.mk rfl rfl) hplace
  · decide
  · intro id hid
    have hle : id ≤ 1 := hid.le World.console_ordered
    match id, hle with
    | 0, _ => rfl
    | 1, _ => rfl

end Machine

end Stacklet

import Mathlib.Data.List.Nodup
import Stacklet.Proofs.Frames
import Stacklet.Proofs.LexicalScope

/-!
Looking names up. However scopes have come about, the parents of a scope lead to a root, and a name
is found in the nearest of them that binds it. So a new binding is seen from just those scopes that
have no nearer one for the name.
-/

namespace Stacklet

namespace Scopes

/-! How scopes come about. -/

/-- One operation on scopes: a new root, a new child, a binding, or a step of a machine, which may
fail. It refers to scopes that are there. -/
inductive Changes (h : Scopes) : Scopes → Prop where
  | root : Changes h h.root.2
  | extend {e : ScopeId} : e < h.all.size → Changes h (h.extend e).2
  | bind {e : ScopeId} {name : String} {b : Binding} :
      e < h.all.size → (∀ c, b = .guest c → c.scope < h.all.size) → Changes h (h.bind e name b)
  | step {m m' : Machine} :
      m.world.scopes = h → (∀ f ∈ m.frames, f.scope < h.all.size) → m.step = .ok m' →
        Changes h m'.world.scopes
  | failing {m : Machine} {failure : Failure} :
      m.world.scopes = h → (∀ f ∈ m.frames, f.scope < h.all.size) → m.step = .error failure →
        Changes h failure.machine.world.scopes

/-- What becomes of scopes by any operations. -/
def Becomes : Scopes → Scopes → Prop := Relation.ReflTransGen Changes

/-- Parents are older than their children, and methods were defined in scopes that are there. -/
structure Sound (h : Scopes) : Prop where
  ordered : h.Ordered
  guest : ∀ id x c, h.local? id x = some (.guest c) → c.scope < h.all.size

variable {h h' : Scopes} {e e' : ScopeId} {x y : String} {b : Binding}

theorem sound_empty : Sound .empty := by
  constructor
  · intro e p hp
    simp [parent?, empty] at hp
  · intro id x c hc
    simp [local?, empty] at hc

theorem Sound.add (hs : h.Sound) {parent : Option ScopeId} (hp : ∀ p ∈ parent, p < h.all.size) :
    (h.add parent).2.Sound := by
  have hsize : (h.add parent).2.all.size = h.all.size + 1 := by simp [Scopes.add]
  constructor
  · intro e p hparent
    rw [parent?_add] at hparent
    split at hparent
    · rename_i he
      rw [he]
      exact hp p hparent
    · exact hs.ordered e p hparent
  · intro id x c hc
    rw [local?_add] at hc
    rw [hsize]
    exact Nat.lt_succ_of_lt (hs.guest id x c hc)

theorem Sound.extend (hs : h.Sound) (he : e < h.all.size) : (h.extend e).2.Sound :=
  hs.add fun _ hp => Option.some.inj hp ▸ he

/-- Bindings may change, if new methods were defined in scopes that are there. -/
theorem Sound.rebind (hs : h.Sound) (hsize : h'.all.size = h.all.size)
    (hparent : ∀ id, h'.parent? id = h.parent? id)
    (hown : ∀ id x c, h'.local? id x = some (.guest c) →
      h.local? id x = some (.guest c) ∨ c.scope < h.all.size) : h'.Sound := by
  constructor
  · intro e p hp
    rw [hparent] at hp
    exact hs.ordered e p hp
  · intro id x c hc
    rw [hsize]
    rcases hown id x c hc with hc | hlt
    · exact hs.guest id x c hc
    · exact hlt

theorem Sound.bind (hs : h.Sound) (hb : ∀ c, b = .guest c → c.scope < h.all.size) :
    (h.bind e x b).Sound := by
  refine hs.rebind (by simp) (by simp) fun id y c hc => ?_
  rw [local?_bind] at hc
  split at hc
  · exact .inr (hb c (Option.some.inj hc))
  · exact .inl hc

theorem Sound.bindAll (hs : h.Sound) (names : List String) (values : List Value) :
    (h.bindAll e names values).Sound := by
  refine hs.rebind (by simp) (by simp) fun id y c hc => ?_
  rcases h.local?_bindAll_or e id y names values with hlocal | ⟨-, -, v, hv⟩
  · exact .inl (hlocal ▸ hc)
  · rw [hv] at hc
    cases hc

end Scopes

theorem Frame.Advances.sound {f : Frame} {s s' : State} {fs : List Frame}
    (hadv : f.Advances s fs s') (hs : s.world.scopes.Sound)
    (hf : f.scope < s.world.scopes.all.size) : s'.world.scopes.Sound := by
  cases hadv with
  | leave | number | value | host | comment | expression => exact hs
  | guest _ hc =>
    obtain ⟨id, -, hlocal⟩ := Scopes.exists_chain_of_get? hc
    exact hs.extend (hs.guest id _ _ hlocal)
  | block | enter => exact hs.extend hf
  | assign => exact hs.bindAll _ _
  | method =>
    apply hs.bind
    rintro c hc
    cases hc
    exact hf

/-- A step that succeeds is one of a frame, unless there is none. -/
theorem Machine.eq_or_exists_advances {m m' : Machine} (h : m.step = .ok m') :
    m' = m ∨ ∃ f frames fs s', m = of (f :: frames) m.state ∧ f.Advances m.state fs s' ∧
      m' = of (fs ++ frames) s' := by
  cases hframes : m.frames with
  | nil =>
    simp only [step, hframes] at h
    exact .inl (Except.ok.inj h).symm
  | cons f frames => exact .inr (exists_advances (n := 0) (by simp [hframes]) h)

namespace Scopes

variable {h h' : Scopes} {e e' : ScopeId} {x y : String} {b : Binding} {path : List ScopeId}

theorem Changes.sound (hc : h.Changes h') (hs : h.Sound) : h'.Sound := by
  cases hc with
  | root => exact hs.add fun p hp => nomatch hp
  | extend he => exact hs.extend he
  | bind _ hb => exact hs.bind hb
  | @step m m' hm hframes hstep =>
    subst hm
    rcases Machine.eq_or_exists_advances hstep with rfl | ⟨f, frames, fs, s', hm, hadv, rfl⟩
    · exact hs
    · rw [hm] at hframes
      exact hadv.sound hs (hframes f (List.mem_cons_self ..))
  | failing hm _ hstep =>
    subst hm
    obtain ⟨f, frames, s', -, hfault, hmachine⟩ := Machine.exists_faults hstep
    rw [hmachine]
    exact hfault.scopes ▸ hs

/-- No operation takes a scope away or gives it another parent. -/
theorem Changes.grows (hc : h.Changes h') : h.Grows (fun _ _ => True) h' := by
  cases hc with
  | root => exact .add h none
  | extend he => exact .extend h _
  | bind _ hb => exact ⟨by simp, by simp, fun _ _ _ hfalse => absurd trivial hfalse⟩
  | @step m m' hm hframes hstep =>
    subst hm
    rcases Machine.eq_or_exists_advances hstep with rfl | ⟨f, frames, fs, s', hm, hadv, rfl⟩
    · exact .refl
    · exact hadv.grows.imp fun _ _ _ => trivial
  | failing hm _ hstep =>
    subst hm
    obtain ⟨f, frames, s', -, hfault, hmachine⟩ := Machine.exists_faults hstep
    rw [hmachine]
    exact hfault.scopes ▸ .refl

theorem Becomes.sound (hb : h.Becomes h') (hs : h.Sound) : h'.Sound := by
  induction hb with
  | refl => exact hs
  | tail _ hc ih => exact hc.sound ih

theorem Becomes.grows (hb : h.Becomes h') : h.Grows (fun _ _ => True) h' := by
  induction hb with
  | refl => exact .refl
  | tail _ hc ih => exact ih.trans hc.grows

end Scopes

namespace Machine

variable {b : Block} {stack : Stack} {e : ScopeId} {world : World} {m : Machine}

theorem Leads.becomes (he : e < world.scopes.all.size) (h : Leads 0 (start b stack e world) m) :
    world.scopes.Becomes m.world.scopes := by
  induction h with
  | refl => exact .refl
  | tail hleads hstep ih => exact ih.tail (.step rfl (Leads.wellFramed he hleads).scope hstep.2)

/-- A run does nothing to scopes but by its steps, and these refer to scopes that are there. -/
theorem Visits.becomes (he : e < world.scopes.all.size) (h : (start b stack e world).Visits 0 m) :
    world.scopes.Becomes m.world.scopes := by
  cases h with
  | leads h => exact h.becomes he
  | fails h _ hstep => exact (h.becomes he).tail (.failing rfl (h.wellFramed he).scope hstep)

end Machine

namespace Scopes

variable {h h' : Scopes} {e e' : ScopeId} {x y : String} {b : Binding} {path : List ScopeId}

/-! Lookup along parents. -/

/-- The scopes from `e` on to a root, by their parents. -/
inductive Path (h : Scopes) : ScopeId → List ScopeId → Prop where
  | root {e : ScopeId} : h.parent? e = none → Path h e [e]
  | child {e p : ScopeId} {path : List ScopeId} :
      h.parent? e = some p → Path h p path → Path h e (e :: path)

theorem Ordered.exists_path (hord : h.Ordered) (e : ScopeId) : ∃ path, h.Path e path := by
  induction e using Nat.strongRecOn with
  | ind e ih =>
    cases hp : h.parent? e with
    | none => exact ⟨[e], .root hp⟩
    | some p =>
      obtain ⟨path, hpath⟩ := ih p (hord e p hp)
      exact ⟨e :: path, .child hp hpath⟩

theorem Path.le (hpath : h.Path e path) (hord : h.Ordered) : ∀ id ∈ path, id ≤ e := by
  induction hpath with
  | root => simp
  | child hp _ ih =>
    refine List.forall_mem_cons.mpr ⟨Nat.le_refl _, fun id hid => ?_⟩
    exact Nat.le_trans (ih id hid) (Nat.le_of_lt (hord _ _ hp))

theorem Path.nodup (hpath : h.Path e path) (hord : h.Ordered) : path.Nodup := by
  induction hpath with
  | root => exact List.nodup_singleton _
  | child hp hrest ih =>
    refine List.nodup_cons.mpr ⟨fun hmem => ?_, ih⟩
    exact absurd (hrest.le hord _ hmem) (Nat.not_le.mpr (hord _ _ hp))

/-- The search passes from a scope to its parent. -/
theorem Ordered.get?_eq (hord : h.Ordered) (e : ScopeId) (x : String) :
    h.get? e x = (h.local? e x).or ((h.parent? e).bind fun p => h.get? p x) := by
  rw [get?]
  cases h.local? e x with
  | some b => rfl
  | none =>
    cases hp : h.parent? e with
    | none => rfl
    | some p => exact if_pos (hord e p hp)

theorem Path.get?_eq (hpath : h.Path e path) (hord : h.Ordered) (x : String) :
    h.get? e x = path.findSome? (h.local? · x) := by
  induction hpath with
  | @root e hp =>
    rw [hord.get?_eq, hp, List.findSome?_cons]
    cases h.local? e x with
    | none => rfl
    | some b => rfl
  | @child e p path hp _ ih =>
    rw [hord.get?_eq, hp, List.findSome?_cons]
    cases h.local? e x with
    | none => exact ih
    | some b => rfl

/-! Lookup after a binding. -/

/-- A search for the name along the path comes to the scope `e`: no nearer one binds the name. -/
def SearchedAt (h : Scopes) (e : ScopeId) (x : String) (path : List ScopeId) : Prop :=
  ∃ near far, path = near ++ e :: far ∧ ∀ id ∈ near, h.local? id x = none

theorem searchedAt_nil : ¬ h.SearchedAt e x [] := by
  rintro ⟨near, far, hpath, -⟩
  simp at hpath

theorem searchedAt_cons {a : ScopeId} :
    h.SearchedAt e x (a :: path) ↔ a = e ∨ h.local? a x = none ∧ h.SearchedAt e x path := by
  constructor
  · rintro ⟨_ | ⟨a', near⟩, far, hpath, hnear⟩
    · exact .inl (List.cons.inj hpath).1
    · obtain ⟨rfl, rfl⟩ := List.cons.inj hpath
      obtain ⟨hnone, hnear⟩ := List.forall_mem_cons.mp hnear
      exact .inr ⟨hnone, near, far, rfl, hnear⟩
  · rintro (rfl | ⟨hnone, near, far, rfl, hnear⟩)
    · exact ⟨[], path, rfl, by simp⟩
    · exact ⟨a :: near, far, rfl, List.forall_mem_cons.mpr ⟨hnone, hnear⟩⟩

theorem Ordered.bind (hord : h.Ordered) (e : ScopeId) (x : String) (b : Binding) :
    (h.bind e x b).Ordered := by
  intro e' p hp
  rw [parent?_bind] at hp
  exact hord e' p hp

/-- A binding is found wherever a search for its name comes to its scope. -/
theorem Path.get?_bind (hpath : h.Path e' path) (hord : h.Ordered) (he : e < h.all.size)
    (hsearched : h.SearchedAt e x path) (b : Binding) : (h.bind e x b).get? e' x = some b := by
  have hhere : (h.bind e x b).get? e x = some b := by
    apply get?_of_local?
    rw [local?_bind, if_pos ⟨rfl, rfl, he⟩]
  induction hpath with
  | root =>
    rcases searchedAt_cons.mp hsearched with rfl | ⟨-, hsearched⟩
    · exact hhere
    · exact absurd hsearched searchedAt_nil
  | @child e' p path hp _ ih =>
    by_cases heq : e' = e
    · rw [heq, hhere]
    · obtain ⟨hnone, hsearched⟩ := (searchedAt_cons.mp hsearched).resolve_left heq
      have hnone' : (h.bind e x b).local? e' x = none := by
        rw [local?_bind, if_neg fun hat => heq hat.1, hnone]
      rw [get?_of_parent? hnone' (by rw [parent?_bind, hp]) (hord e' p hp)]
      exact ih hsearched

/-- All other lookups give what they gave before. -/
theorem Path.get?_bind_of_not (hpath : h.Path e' path) (hord : h.Ordered)
    (hnot : ¬ (y = x ∧ h.SearchedAt e x path)) (b : Binding) :
    (h.bind e x b).get? e' y = h.get? e' y := by
  have hown (a : ScopeId) (path : List ScopeId)
      (hnot : ¬ (y = x ∧ h.SearchedAt e x (a :: path))) :
      (h.bind e x b).local? a y = h.local? a y := by
    rw [local?_bind, if_neg fun hat => hnot ⟨hat.2.1, searchedAt_cons.mpr (.inl hat.1)⟩]
  induction hpath with
  | @root e' hp =>
    rw [(hord.bind e x b).get?_eq, hord.get?_eq, parent?_bind, hp, hown e' [] hnot]
    rfl
  | @child e' p path hp _ ih =>
    rw [(hord.bind e x b).get?_eq, hord.get?_eq, parent?_bind, hp, hown e' path hnot]
    cases hnone : h.local? e' y with
    | some v => rfl
    | none =>
      refine ih ?_
      rintro ⟨rfl, hsearched⟩
      exact hnot ⟨rfl, searchedAt_cons.mpr (.inr ⟨hnone, hsearched⟩)⟩

/-! Lookup in a new scope. -/

theorem get?_extend (hs : h.Sound) (he : e < h.all.size) (he' : e' < h.all.size) (x : String) :
    (h.extend e).2.get? e' x = h.get? e' x := by
  induction e' using Nat.strongRecOn with
  | ind e' ih =>
    have hparent : (h.extend e).2.parent? e' = h.parent? e' := by
      rw [parent?_extend, if_neg (Nat.ne_of_lt he')]
    rw [(hs.extend he).ordered.get?_eq, hs.ordered.get?_eq, local?_extend, hparent]
    cases hp : h.parent? e' with
    | none => rfl
    | some p =>
      have hlt : p < e' := hs.ordered e' p hp
      rw [Option.bind_some, Option.bind_some, ih p hlt (Nat.lt_trans hlt he')]

/-- A new scope has nothing of its own. -/
theorem local?_fresh (h : Scopes) (e : ScopeId) (x : String) :
    (h.extend e).2.local? h.all.size x = none := by
  rw [local?_extend, local?, Array.getElem?_eq_none (Nat.le_refl _)]
  rfl

/-- Later too, a name that has not been bound in it is looked up in its parent. -/
theorem Becomes.get?_fresh (hb : (h.extend e).2.Becomes h') (he : e < h.all.size)
    (hx : h'.local? h.all.size x = none) : h'.get? h.all.size x = h'.get? e x := by
  have hthere : h.all.size < (h.extend e).2.all.size := by
    rw [size_extend]
    exact Nat.lt_succ_self _
  have hparent : h'.parent? h.all.size = some e := by
    rw [hb.grows.parent _ hthere, parent?_extend, if_pos rfl]
  exact get?_of_parent? hx hparent he

/-- The law of lookup, for scopes `h`. -/
structure LooksUp (h : Scopes) : Prop where
  /-- Parents lead to a root, by scopes that are all different, and what is found is what the nearest
  of them binds that binds the name. -/
  nearest : ∀ e < h.all.size, ∃ path, h.Path e path ∧ path.Nodup ∧ (∀ id ∈ path, id < h.all.size) ∧
    ∀ x, h.get? e x = path.findSome? (h.local? · x)
  /-- A new binding is found from where a search for its name comes to its scope. -/
  found : ∀ e < h.all.size, ∀ e' path x b, h.Path e' path → h.SearchedAt e x path →
    (h.bind e x b).get? e' x = some b
  /-- No other lookup is changed by it, -/
  kept : ∀ e e' path x y b, h.Path e' path → ¬ (y = x ∧ h.SearchedAt e x path) →
    (h.bind e x b).get? e' y = h.get? e' y
  /-- nor is any other binding, -/
  own : ∀ e < h.all.size, ∀ e' x y b,
    (h.bind e x b).local? e' y = if e' = e ∧ y = x then some b else h.local? e' y
  /-- nor any parent. -/
  parent : ∀ e e' x b, (h.bind e x b).parent? e' = h.parent? e'
  /-- A new scope binds nothing and finds what its parent finds, and so it is for every name until
  that is bound in it. -/
  fresh : ∀ e < h.all.size, ∀ x, (h.extend e).2.local? (h.extend e).1 x = none ∧
    (h.extend e).2.get? (h.extend e).1 x = h.get? e x ∧
    ∀ h', (h.extend e).2.Becomes h' → h'.local? (h.extend e).1 x = none →
      h'.get? (h.extend e).1 x = h'.get? e x

theorem Sound.looksUp (hs : h.Sound) : LooksUp h := by
  constructor
  case nearest =>
    intro e he
    obtain ⟨path, hpath⟩ := hs.ordered.exists_path e
    refine ⟨path, hpath, hpath.nodup hs.ordered, fun id hid => ?_, hpath.get?_eq hs.ordered⟩
    exact Nat.lt_of_le_of_lt (hpath.le hs.ordered id hid) he
  case found =>
    intro e he e' path x b hpath hsearched
    exact hpath.get?_bind hs.ordered he hsearched b
  case kept =>
    intro e e' path x y b hpath hnot
    exact hpath.get?_bind_of_not hs.ordered hnot b
  case own =>
    intro e he e' x y b
    simp only [local?_bind, he, and_true]
  case parent =>
    intro e e' x b
    exact parent?_bind ..
  case fresh =>
    intro e he x
    have hnone := h.local?_fresh e x
    refine ⟨hnone, ?_, fun h' hb hx => hb.get?_fresh he hx⟩
    rw [← get?_extend hs he he]
    exact Becomes.get?_fresh .refl he hnone

/-- However scopes have come about, by operations of any kind and order, the law of lookup holds. So
it holds in every machine of a run that was started in one of them, and in the one that a failing
step leaves. -/
theorem lookup_finds_nearest (h : Scopes) (hmade : Becomes .empty h) :
    LooksUp h ∧ ∀ b stack e writers m, e < h.all.size →
      (Machine.start b stack e ⟨h, writers⟩).Visits 0 m →
        Becomes .empty m.world.scopes ∧ LooksUp m.world.scopes := by
  refine ⟨(hmade.sound sound_empty).looksUp, ?_⟩
  intro b stack e writers m he hm
  have hvisited : Becomes .empty m.world.scopes := hmade.trans (hm.becomes he)
  exact ⟨hvisited, (hvisited.sound sound_empty).looksUp⟩

/-- A method in the middle of three scopes has the name of a value in the outermost. From the
innermost, the method is found, whatever the name is bound to in the outermost. -/
theorem shadowed_lookup : ∃ h, Becomes .empty h ∧ LooksUp h ∧ h.Path 2 [2, 1, 0] ∧
    h.get? 2 "f" = some (.guest ⟨1, []⟩) ∧
    (∀ b, (h.bind 0 "f" b).get? 2 "f" = some (.guest ⟨1, []⟩)) ∧
    ∀ b, (h.bind 1 "f" b).get? 2 "f" = some b := by
  let outer : Scopes := empty.root.2.bind 0 "f" (.value (.number (.ofByte 7)))
  let program : Machine := .start [.method "f" [] none] .empty 1 ⟨(outer.extend 0).2, #[]⟩
  let middle : Scopes := (outer.extend 0).2.bind 1 "f" (.guest ⟨1, []⟩)
  let h : Scopes := (middle.extend 1).2
  have hstep : program.step =
      .ok (.of [⟨[.method "f" [] none], 1, 0, 1⟩] ⟨.empty, ⟨middle, #[]⟩⟩) := rfl
  have hroot : Becomes .empty empty.root.2 := .single .root
  have houter : Becomes .empty outer := hroot.tail (.bind (by decide) (fun c hc => by cases hc))
  have hchild : Becomes .empty (outer.extend 0).2 := houter.tail (.extend (by decide))
  have hmiddle : Becomes .empty middle := hchild.tail (.step rfl (by decide) hstep)
  have hmade : Becomes .empty h := hmiddle.tail (.extend (by decide))
  have hpath : h.Path 2 [2, 1, 0] := .child rfl (.child rfl (.root rfl))
  have hlooks := (lookup_finds_nearest h hmade).1
  have hfound : h.get? 2 "f" = some (.guest ⟨1, []⟩) := by
    rw [get?_of_parent? rfl rfl (Nat.lt_succ_self 1)]
    exact get?_of_local? rfl
  have hnearer : ∀ id ∈ [2], h.local? id "f" = none := by
    intro id hid
    rw [List.mem_singleton.mp hid]
    rfl
  refine ⟨h, hmade, hlooks, hpath, hfound, fun b => ?_, fun b => ?_⟩
  · rw [hlooks.kept 0 2 [2, 1, 0] "f" "f" b hpath, hfound]
    rintro ⟨-, hsearched⟩
    have hbeyond := ((searchedAt_cons.mp hsearched).resolve_left (by decide)).2
    exact nomatch ((searchedAt_cons.mp hbeyond).resolve_left (by decide)).1
  · exact hlooks.found 1 (by decide) 2 [2, 1, 0] "f" b hpath ⟨[2], [0], rfl, hnearer⟩

end Scopes

end Stacklet

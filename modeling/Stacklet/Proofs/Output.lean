import Stacklet.Proofs.Failing
import Stacklet.Proofs.LexicalScope
import Stacklet.Proofs.Refinement

/-!
Programs on a reliable standard output. A program does not see what has been written there before:
it takes the same steps, ends in the same way, and adds the same bytes.
-/

namespace Stacklet

/-- A reliable standard output alone, which has taken `shown` in so many calls. -/
def Writers.console (shown : List UInt8) (calls : Nat) : Writers :=
  #[⟨.reliable, shown.toArray, calls⟩]

theorem Writer.write_reliable (kept : Array UInt8) (calls : Nat) (data : List UInt8) :
    Writer.write ⟨.reliable, kept, calls⟩ data =
      (.ok (), ⟨.reliable, kept ++ data, calls + if data.isEmpty then 1 else 2⟩) := by
  cases data with
  | nil => simp [write, deliver, flush, Device.reliable]
  | cons b rest => simp [write, deliver, flush, Device.reliable]

namespace Writers

theorem write_console (shown : List UInt8) (calls : Nat) (data : List UInt8) :
    (console shown calls).write 0 data =
      (.ok (), console (shown ++ data) (calls + if data.isEmpty then 1 else 2)) := by
  simp [write, console, Writer.write_reliable]

theorem exists_write_console (id : Nat) (data : List UInt8) :
    ∃ added n, ∀ shown calls,
      (console shown calls).write id data = (.ok (), console (shown ++ added) (calls + n)) := by
  cases id with
  | zero => exact ⟨data, _, fun shown calls => write_console shown calls data⟩
  -- There is no other writer, so the data is discarded.
  | succ id => exact ⟨[], 0, fun shown calls => by simp [write, console]⟩

end Writers

namespace HostM

variable {α β : Type}

/-- What it gives and what it writes do not depend on what has been written before. -/
def Steady (x : HostM α) : Prop :=
  ∃ result data n, ∀ shown calls,
    x (.console shown calls) = (result, .console (shown ++ data) (calls + n))

theorem steady_of_eq {x : HostM α} {result : Except HostError α}
    (h : ∀ writers, x writers = (result, writers)) : Steady x :=
  ⟨result, [], 0, fun shown calls => by rw [h, List.append_nil, Nat.add_zero]⟩

theorem steady_pure (a : α) : Steady (pure a : HostM α) := steady_of_eq fun _ => rfl

theorem steady_throw (error : HostError) : Steady (throw error : HostM α) :=
  steady_of_eq fun _ => rfl

theorem steady_write (s : Stream) (data : List UInt8) : Steady (write s data) := by
  obtain ⟨added, n, h⟩ := Writers.exists_write_console s.writer data
  refine ⟨.ok (), added, n, fun shown calls => ?_⟩
  simp only [write, h]
  rfl

theorem bind_of_ok {x : HostM α} {k : α → HostM β} {w w' : Writers} {a : α}
    (h : x w = (.ok a, w')) : (x >>= k) w = k a w' := by
  change ExceptT.bind x k w = _
  simp only [ExceptT.bind, ExceptT.mk, bind, StateT.bind, h, ExceptT.bindCont]

theorem Steady.bind {x : HostM α} {k : α → HostM β} (hx : x.Steady) (hk : ∀ a, (k a).Steady) :
    (x >>= k).Steady := by
  obtain ⟨result, data, n, hx⟩ := hx
  cases result with
  | error e => exact ⟨.error e, data, n, fun shown calls => bind_of_error (hx shown calls)⟩
  | ok a =>
    obtain ⟨result, data', n', hk⟩ := hk a
    refine ⟨result, data ++ data', n + n', fun shown calls => ?_⟩
    rw [bind_of_ok (hx shown calls), hk, List.append_assoc, Nat.add_assoc]

end HostM

namespace HostCall

def Steady (c : HostCall) : Prop := ∀ arguments, (c.invoke arguments).Steady

theorem steady_of_function {c : HostCall} (h : ∀ arguments, (c.function arguments).Steady) :
    c.Steady := by
  intro arguments
  unfold invoke
  split
  · refine HostM.Steady.bind ?_ fun arguments => (h arguments).bind fun _ => HostM.steady_pure _
    exact HostM.steady_of_eq fun _ => rfl
  · exact HostM.steady_throw _

end HostCall

namespace Builtin

theorem steady_sqrt (arguments : ValueType.Carriers sqrt.parameters) :
    (sqrt.function arguments).Steady := by
  obtain ⟨⟨n, hn⟩, -⟩ := arguments
  simp only [sqrt]
  split
  · exact HostM.steady_throw _
  · exact HostM.steady_pure _

theorem steady_of_mem : ∀ c ∈ calls, c.Steady := by
  simp only [calls, List.forall_mem_cons]
  refine ⟨?add, ?arr, ?cat, ?sqrt, ?toBE, ?toLE, ?toME, ?write, by simp⟩
  case sqrt => exact HostCall.steady_of_function steady_sqrt
  case write => exact HostCall.steady_of_function fun _ => HostM.steady_write _ _
  -- The others neither fail nor write.
  all_goals exact HostCall.steady_of_function fun _ => HostM.steady_pure _

end Builtin

/-! Scopes that only know such calls. -/

def Scopes.Steady (h : Scopes) : Prop := ∀ id x c, h.local? id x = some (.host c) → c.Steady

theorem Scopes.Steady.of_get? {h : Scopes} (hh : h.Steady) {e : ScopeId} {x : String} {c : HostCall}
    (hc : h.get? e x = some (.host c)) : c.Steady := by
  obtain ⟨id, -, hlocal⟩ := exists_chain_of_get? hc
  exact hh id x c hlocal

theorem World.mem_calls_of_local? {id : ScopeId} {x : String} {c : HostCall}
    (hc : console.scopes.local? id x = some (.host c)) : c ∈ Builtin.calls := by
  obtain ⟨name, hmem⟩ := exists_mem_bindings hc
  rcases List.mem_append.mp hmem with hmem | hmem
  · obtain ⟨call, hcall, heq⟩ := List.mem_map.mp hmem
    cases heq
    exact hcall
  · simp at hmem

theorem World.console_steady : console.scopes.Steady :=
  fun _ _ c hc => Builtin.steady_of_mem c (mem_calls_of_local? hc)

namespace Frame

variable {f : Frame} {s s' : State} {fs : List Frame}

/-- A program binds values and methods, never a host call. -/
theorem Advances.local?_host (h : f.Advances s fs s') {id : ScopeId} {x : String} {c : HostCall}
    (hc : s'.world.scopes.local? id x = some (.host c)) :
    s.world.scopes.local? id x = some (.host c) := by
  cases h with
  | leave | number | value | host | comment | expression => exact hc
  | guest | block | enter =>
    rw [State.extend, Scopes.local?_extend] at hc
    exact hc
  | @assign names _ _ values =>
    rcases s.world.scopes.local?_bindAll_or f.scope id x names values with hlocal | ⟨-, -, v, hv⟩
    · rw [← hlocal]
      exact hc
    · rw [hv] at hc
      cases hc
  | method =>
    rw [State.bind, Scopes.local?_bind] at hc
    split at hc
    · cases hc
    · exact hc

theorem Advances.steady (h : f.Advances s fs s') (hs : s.world.scopes.Steady) :
    s'.world.scopes.Steady :=
  fun id x c hc => hs id x c (h.local?_host hc)

end Frame

/-! Runs. -/

namespace State

/-- The state with a standard output that has taken `shown`. -/
def showing (s : State) (shown : List UInt8) (calls : Nat) : State :=
  { s with world.writers := .console shown calls }

/-- `R` leads from `s`, where `shown` has been written, to `s'`. It leads there whatever has been
written, with the same bytes added. -/
def Uniformly (R : State → State → Prop) (s : State) (shown : List UInt8) (calls : Nat)
    (s' : State) : Prop :=
  ∃ (s₁ : State) (data : List UInt8) (n : Nat), s' = s₁.showing (shown ++ data) (calls + n) ∧
    ∀ shown calls, R (s.showing shown calls) (s₁.showing (shown ++ data) (calls + n))

variable {R : State → State → Prop} {s s' : State} {shown : List UInt8} {calls : Nat}

theorem uniformly_of_quiet (s₁ : State) (heq : s' = s₁.showing shown calls)
    (h : ∀ shown calls, R (s.showing shown calls) (s₁.showing shown calls)) :
    Uniformly R s shown calls s' := by
  refine ⟨s₁, [], 0, ?_, fun shown calls => ?_⟩
  · rw [List.append_nil, Nat.add_zero, heq]
  · rw [List.append_nil, Nat.add_zero]
    exact h shown calls

end State

namespace Frame

variable {f : Frame} {s s' : State} {fs : List Frame} {shown : List UInt8} {calls : Nat}

theorem Advances.uniformly (h : f.Advances (s.showing shown calls) fs s')
    (hs : s.world.scopes.Steady) :
    State.Uniformly (fun s s' => f.Advances s fs s') s shown calls s' := by
  cases h with
  | leave hn => exact State.uniformly_of_quiet s rfl fun _ _ => .leave hn
  | @number _ n ht => exact State.uniformly_of_quiet (s.push (.number n)) rfl fun _ _ => .number ht
  | @value _ _ v ht hv => exact State.uniformly_of_quiet (s.push v) rfl fun _ _ => .value ht hv
  | @guest _ _ c ht hc =>
    exact State.uniformly_of_quiet (s.extend c.scope) rfl fun _ _ => .guest ht hc
  | @host _ _ c arguments results below writers ht hc hlen hstack hrun =>
    obtain ⟨result, data, n, hinvoke⟩ := hs.of_get? hc arguments
    obtain ⟨rfl, rfl⟩ := Prod.mk.inj (hrun.symm.trans (hinvoke shown calls))
    exact ⟨⟨⟨results.reverse ++ below⟩, s.world⟩, data, n, rfl,
      fun shown calls => .host ht hc hlen hstack (hinvoke shown calls)⟩
  | comment ht => exact State.uniformly_of_quiet s rfl fun _ _ => .comment ht
  | block ht => exact State.uniformly_of_quiet (s.extend f.scope) rfl fun _ _ => .block ht
  | expression ha ht => exact State.uniformly_of_quiet s rfl fun _ _ => .expression ha ht
  | enter ha h0 => exact State.uniformly_of_quiet (s.extend f.scope) rfl fun _ _ => .enter ha h0
  | @assign names _ _ values below ha h0 hlen hstack =>
    exact State.uniformly_of_quiet
      ⟨⟨below⟩, { s.world with scopes := s.world.scopes.bindAll f.scope names values }⟩ rfl
      fun _ _ => .assign ha h0 hlen hstack
  | @method name body _ ha =>
    exact State.uniformly_of_quiet (s.bind f.scope name (.guest ⟨f.scope, body⟩)) rfl
      fun _ _ => .method ha

theorem Faults.uniformly {fault : Fault} {a : Statement}
    (h : f.Faults (s.showing shown calls) fault a s') (hs : s.world.scopes.Steady) :
    State.Uniformly (fun s s' => f.Faults s fault a s') s shown calls s' := by
  cases h with
  | unbound ht hn => exact State.uniformly_of_quiet s rfl fun _ _ => .unbound ht hn
  | callUnderflow ht hc hlt =>
    exact State.uniformly_of_quiet s rfl fun _ _ => .callUnderflow ht hc hlt
  | @host _ _ c arguments below error writers ht hc hlen hstack hrun =>
    obtain ⟨result, data, n, hinvoke⟩ := hs.of_get? hc arguments
    obtain ⟨rfl, rfl⟩ := Prod.mk.inj (hrun.symm.trans (hinvoke shown calls))
    exact ⟨⟨⟨below⟩, s.world⟩, data, n, rfl,
      fun shown calls => .host ht hc hlen hstack (hinvoke shown calls)⟩
  | assignUnderflow ha h0 hlt =>
    exact State.uniformly_of_quiet s rfl fun _ _ => .assignUnderflow ha h0 hlt

end Frame

namespace Machine

/-- A run that ends does so whatever has been written before it, with the same bytes added. -/
theorem Ends.uniformly {frames : List Frame} {s s' : State} {o : Outcome} {shown : List UInt8}
    {calls : Nat} (h : (of frames (s.showing shown calls)).Ends o s')
    (hs : s.world.scopes.Steady) :
    State.Uniformly (fun s s' => (of frames s).Ends o s') s shown calls s' ∧
      s'.world.scopes.Steady := by
  generalize hm : of frames (s.showing shown calls) = m at h
  induction h generalizing frames s shown calls with
  | done hf =>
    subst hm
    exact ⟨State.uniformly_of_quiet s rfl fun _ _ => .done hf, hs⟩
  | @failed m failure hstep =>
    obtain ⟨f, below, s', hof, hfaults, hmachine⟩ := exists_faults hstep
    rw [hmachine]
    subst hm
    obtain rfl : frames = f :: below := congrArg Machine.frames hof
    obtain ⟨s₁, data, n, heq, hall⟩ := Frame.Faults.uniformly hfaults hs
    refine ⟨⟨s₁, data, n, heq, fun shown calls => ends_of_faults (hall shown calls)⟩, ?_⟩
    have hscopes : s'.world.scopes = s.world.scopes := hfaults.scopes
    exact hscopes ▸ hs
  | @step m m' o s' hne hstep hends ih =>
    obtain ⟨f, below, fs, s₂, hof, hadv, rfl⟩ :=
      exists_advances (List.length_pos_iff.mpr hne) hstep
    subst hm
    obtain rfl : frames = f :: below := congrArg Machine.frames hof
    obtain ⟨s₁, data, n, rfl, hall⟩ := Frame.Advances.uniformly hadv hs
    have hs₁ : s₁.world.scopes.Steady := (hall shown calls).steady hs
    obtain ⟨⟨s₂, data', n', rfl, hall'⟩, hsteady⟩ := ih hs₁ rfl
    refine ⟨⟨s₂, data ++ data', n + n', ?_, fun shown calls => ?_⟩, hsteady⟩
    · rw [List.append_assoc, Nat.add_assoc]
    · have hrest := hall' (shown ++ data) (calls + n)
      rw [List.append_assoc, Nat.add_assoc] at hrest
      exact ends_of_advances (hall shown calls) hrest

end Machine

/-! What standard output shows. -/

namespace World

/-- A world with these scopes, on a reliable standard output that shows `shown`. -/
def Shows (w : World) (h : Scopes) (shown : List UInt8) : Prop :=
  ∃ calls, w = ⟨h, .console shown calls⟩

variable {w : World} {h : Scopes} {shown : List UInt8}

theorem Shows.stdout (hw : w.Shows h shown) : w.stdout = shown.toArray := by
  obtain ⟨calls, rfl⟩ := hw
  rfl

theorem Shows.print (hw : w.Shows h shown) (text : String) :
    (w.print text).Shows h (shown ++ text.toUTF8.toList) := by
  obtain ⟨calls, rfl⟩ := hw
  refine ⟨calls + if text.toUTF8.toList.isEmpty then 1 else 2, ?_⟩
  rw [World.print, Writers.write_console]

theorem console_shows : console.Shows console.scopes [] := ⟨0, rfl⟩

end World

/-- A block is evaluated alike on every reliable standard output with the same scopes: it ends with
the same outcome, stack and scopes, and writes the same. -/
theorem Evaluates.on_console {e : ScopeId} {b : Block} {stack : Stack} {w w' : World} {h : Scopes}
    {shown shown' : List UInt8} {o : Outcome} {s : State}
    (heval : Evaluates e (.statements b) ⟨stack, w⟩ o s) (hw : w.Shows h shown) (hs : h.Steady)
    (hw' : w'.Shows h shown') :
    ∃ s' data, Evaluates e (.statements b) ⟨stack, w'⟩ o s' ∧
      s'.stack = s.stack ∧ s'.world.scopes = s.world.scopes ∧ s.world.scopes.Steady ∧
      s.world.Shows s.world.scopes (shown ++ data) ∧
      s'.world.Shows s.world.scopes (shown' ++ data) := by
  obtain ⟨calls, rfl⟩ := hw
  obtain ⟨calls', rfl⟩ := hw'
  let start : State := ⟨stack, ⟨h, #[]⟩⟩
  have hends : (Machine.of [.start b e] (start.showing shown calls)).Ends o s :=
    Machine.ends_start_iff.mpr heval
  obtain ⟨⟨s₁, data, n, rfl, hall⟩, hsteady⟩ := hends.uniformly hs
  exact ⟨s₁.showing (shown' ++ data) (calls' + n), data,
    Machine.ends_start_iff.mp (hall shown' calls'), rfl, rfl, hsteady, ⟨_, rfl⟩, ⟨_, rfl⟩⟩

end Stacklet

import Mathlib.Algebra.Ring.Nat
import Stacklet.Proofs.Isolation
import Stacklet.Proofs.Refinement

/-!
How long runs take. What a frame has left to do by itself takes a number of steps that can be read
off its block, and each step of the machine is one of them. Only a call adds more, and as many as
the method's body takes by itself. So a run without end makes calls without end.
-/

namespace Stacklet

/-! The steps of a block. -/

mutual

/-- The steps of a term that is a block, apart from the one that enters it. -/
def Term.blockDuration : Term → Nat
  | .block body => Block.duration body
  | .number _ | .identifier _ | .comment _ => 0

def Term.blockDurations : List Term → Nat
  | [] => 0
  | t :: terms => t.blockDuration + Term.blockDurations terms

def Statement.duration : Statement → Nat
  | .expression terms _ => 1 + terms.length + Term.blockDurations terms
  | .assignment _ value _ => 2 + Block.duration value
  | .method .. => 1

/-- The steps that a block takes, without those of the methods it calls: its statements', and one to
leave it. -/
def Block.duration : Block → Nat
  | [] => 1
  | a :: rest => a.duration + Block.duration rest

end

/-- The steps that the bodies of methods take, without those of the methods they call in turn. -/
def Closure.durations (calls : List Closure) : Nat := (calls.map (·.body.duration)).sum

theorem Closure.durations_append (cs ds : List Closure) :
    durations (cs ++ ds) = durations cs + durations ds := by
  simp [durations]

/-- The steps that are left of a statement, from one of its terms on. -/
def Statement.remaining : Statement → Nat → Nat
  | .expression terms _, k => 1 + (terms.drop k).length + Term.blockDurations (terms.drop k)
  | .assignment _ value _, 0 => 2 + Block.duration value
  | .assignment .., _ + 1 => 1
  | .method .., _ => 1

theorem Statement.remaining_zero (a : Statement) : a.remaining 0 = a.duration := by
  cases a with
  | expression terms comment => rfl
  | assignment names value comment => rfl
  | method name body comment => rfl

theorem Statement.remaining_pos (a : Statement) (k : Nat) : 0 < a.remaining k := by
  unfold remaining
  split <;> omega

/-- The method that a term calls, in a scope. -/
def Term.callee? (h : Scopes) (e : ScopeId) : Term → Option Closure
  | .identifier name =>
    match h.get? e name with
    | some (.guest c) => some c
    | _ => none
  | .number _ | .comment _ | .block _ => none

namespace Frame

/-- The steps that a frame has left to take by itself. -/
def remaining (f : Frame) : Nat :=
  match f.block[f.statement]? with
  | none => 1
  | some a => a.remaining f.term + Block.duration (f.block.drop (f.statement + 1))

/-- The method that the next step of the frame calls. -/
def callee? (f : Frame) (h : Scopes) : Option Closure :=
  match f.block[f.statement]? with
  | some (.expression terms _) => terms[f.term]?.bind (Term.callee? h f.scope)
  | _ => none

variable {f : Frame} {a : Statement} {s s' : State} {fs : List Frame}

theorem At.remaining (ha : f.At a) :
    f.remaining = a.remaining f.term + Block.duration (f.block.drop (f.statement + 1)) := by
  rw [At] at ha
  simp only [Frame.remaining, ha]

theorem remaining_of_end (h : f.block[f.statement]? = none) : f.remaining = 1 := by
  simp only [remaining, h]

theorem remaining_pos (f : Frame) : 0 < f.remaining := by
  cases ha : f.block[f.statement]? with
  | none => rw [remaining_of_end ha]; exact Nat.one_pos
  | some a => rw [At.remaining ha]; exact Nat.add_pos_left (a.remaining_pos _) _

/-- At the start of a statement, all statements from there on are left. -/
theorem remaining_of_term_eq_zero (h : f.term = 0) :
    f.remaining = Block.duration (f.block.drop f.statement) := by
  cases ha : f.block[f.statement]? with
  | none =>
    rw [remaining_of_end ha, List.drop_eq_nil_of_le (List.getElem?_eq_none_iff.mp ha)]
    rfl
  | some a =>
    rw [At.remaining ha, h, drop_of_getElem? ha, Statement.remaining_zero]
    rfl

theorem remaining_start (b : Block) (e : ScopeId) : (start b e).remaining = b.duration :=
  remaining_of_term_eq_zero rfl

theorem At.remaining_nextStatement (ha : f.At a) :
    f.remaining = a.remaining f.term + f.nextStatement.remaining := by
  have hnext : f.nextStatement.remaining = Block.duration (f.block.drop (f.statement + 1)) :=
    remaining_of_term_eq_zero rfl
  rw [ha.remaining, hnext]

/-- A term takes one step, and those of the block that it may be. -/
theorem AtTerm.remaining {t : Term} (ht : f.AtTerm a t) :
    f.remaining = f.nextTerm.remaining + t.blockDuration + 1 := by
  obtain ⟨ha, ht⟩ := ht
  rename_i terms comment
  have hnext : f.nextTerm.At (.expression terms comment) := ha
  rw [ha.remaining, hnext.remaining]
  simp only [Statement.remaining, drop_of_getElem? ht, List.length_cons, Term.blockDurations,
    nextTerm]
  omega

theorem AtTerm.callee? {t : Term} (ht : f.AtTerm a t) (h : Scopes) :
    f.callee? h = t.callee? h f.scope := by
  obtain ⟨ha, ht⟩ := ht
  rw [At] at ha
  simp only [Frame.callee?, ha, ht, Option.bind_some]

theorem callee?_eq_some_iff {c : Closure} {h : Scopes} :
    f.callee? h = some c ↔
      ∃ a name, f.AtTerm a (.identifier name) ∧ h.get? f.scope name = some (.guest c) := by
  constructor
  · intro hcallee
    unfold Frame.callee? at hcallee
    split at hcallee
    · rename_i terms comment ha
      obtain ⟨t, ht, hc⟩ := Option.bind_eq_some_iff.mp hcallee
      cases t with
      | identifier name =>
        refine ⟨_, name, .mk ha ht, ?_⟩
        rw [Term.callee?] at hc
        split at hc
        · rename_i c' hget
          rw [hget, Option.some.inj hc]
        · cases hc
      | number n => cases hc
      | comment text => cases hc
      | block body => cases hc
    · cases hcallee
  · rintro ⟨a, name, ht, hc⟩
    rw [ht.callee?, Term.callee?, hc]

theorem At.callee?_eq_none (ha : f.At a) (hterm : ∀ t, ¬ f.AtTerm a t) (h : Scopes) :
    f.callee? h = none := by
  rw [Option.eq_none_iff_forall_ne_some]
  intro c hc
  obtain ⟨a', name, ht, -⟩ := callee?_eq_some_iff.mp hc
  obtain rfl := Option.some.inj (ha.symm.trans ht.at)
  exact hterm _ ht

theorem remaining_pair (body : Block) (e : ScopeId) (g : Frame) :
    ([start body e, g].map Frame.remaining).sum = body.duration + g.remaining := by
  simp [remaining_start]

/-- The last step of a statement. -/
theorem At.remaining_of_last (ha : f.At a) (hlast : a.remaining f.term = 1) :
    ([f.nextStatement].map Frame.remaining).sum + 1 = f.remaining := by
  rw [ha.remaining_nextStatement, hlast]
  simp [Nat.add_comm]

/-- A step is one of those that are left, and a call adds those of the method's body. -/
theorem Advances.remaining (h : f.Advances s fs s') :
    (fs.map Frame.remaining).sum + 1 =
      f.remaining + Closure.durations (f.callee? s.world.scopes).toList := by
  have hquiet (hcallee : f.callee? s.world.scopes = none)
      (hsum : (fs.map Frame.remaining).sum + 1 = f.remaining) :
      (fs.map Frame.remaining).sum + 1 =
        f.remaining + Closure.durations (f.callee? s.world.scopes).toList := by
    rw [hcallee, hsum]
    rfl
  cases h with
  | leave hn =>
    have hcallee : f.callee? s.world.scopes = none := by simp only [Frame.callee?, hn]
    exact hquiet hcallee (remaining_of_end hn).symm
  | number ht | comment ht => exact hquiet (ht.callee? _) ht.remaining.symm
  | value ht hv | host ht hv =>
    have hcallee : f.callee? s.world.scopes = none := by
      rw [ht.callee?, Term.callee?, hv]
    exact hquiet hcallee ht.remaining.symm
  | @guest a name c ht hc =>
    have hcallee : f.callee? s.world.scopes = some c := by
      rw [ht.callee?, Term.callee?, hc]
    have hbody : Closure.durations (some c).toList = c.body.duration := Nat.add_zero _
    rw [hcallee, hbody, remaining_pair, ht.remaining, Term.blockDuration]
    omega
  | block ht =>
    refine hquiet (ht.callee? _) ?_
    rw [remaining_pair, ht.remaining, Term.blockDuration]
    omega
  | expression ha ht =>
    refine hquiet (ha.callee?_eq_none ?_ _) (ha.remaining_of_last ?_)
    · rintro t ⟨-, ht'⟩
      rw [ht] at ht'
      cases ht'
    · have hdrop := List.drop_eq_nil_of_le (List.getElem?_eq_none_iff.mp ht)
      rw [Statement.remaining, hdrop]
      rfl
  | @enter names value comment ha h0 =>
    have hnext : f.nextTerm.At (.assignment names value comment) := ha
    have hbinding : f.nextTerm.remaining = 1 + Block.duration (f.block.drop (f.statement + 1)) :=
      hnext.remaining
    refine hquiet (ha.callee?_eq_none (fun t ht => nomatch ht) _) ?_
    rw [remaining_pair, hbinding, ha.remaining, h0, Statement.remaining]
    omega
  | assign ha h0 =>
    refine hquiet (ha.callee?_eq_none (fun t ht => nomatch ht) _) (ha.remaining_of_last ?_)
    obtain ⟨k, hk⟩ := Nat.exists_eq_succ_of_ne_zero h0
    rw [hk, Statement.remaining]
  | method ha =>
    exact hquiet (ha.callee?_eq_none (fun t ht => nomatch ht) _) (ha.remaining_of_last rfl)

end Frame

/-! The steps of a run. -/

namespace Machine

variable {m m' : Machine}

/-- The steps that the frames have left to take, without those of the methods they call. -/
def remaining (m : Machine) : Nat := (m.frames.map Frame.remaining).sum

/-- The method that the next step calls. -/
def callee? (m : Machine) : Option Closure := m.frames.head?.bind (·.callee? m.world.scopes)

theorem callee?_eq_some_iff {c : Closure} : m.callee? = some c ↔ m.Calls c := by
  cases hframes : m.frames with
  | nil => simp [callee?, Calls, hframes]
  | cons f frames => simp [callee?, Calls, hframes, Frame.callee?_eq_some_iff]

/-- The methods that are called in the first `n` steps, in order. -/
def calls : Nat → Machine → List Closure
  | 0, _ => []
  | n + 1, m =>
    match m.step with
    | .ok m' => m.callee?.toList ++ calls n m'
    | .error _ => []

theorem remaining_pos (h : ¬ m.isFinished) : 0 < m.remaining := by
  obtain ⟨f, frames, hm⟩ := List.exists_cons_of_length_pos (length_pos_of_not_finished h)
  rw [remaining, hm, List.map_cons, List.sum_cons]
  exact Nat.add_pos_left f.remaining_pos _

theorem remaining_step (h : ¬ m.isFinished) (hstep : m.step = .ok m') :
    m'.remaining + 1 = m.remaining + Closure.durations m.callee?.toList := by
  obtain ⟨f, frames, fs, s', hm, hadv, rfl⟩ := exists_advances (length_pos_of_not_finished h) hstep
  have hafter : (of (fs ++ frames) s').remaining =
      (fs.map Frame.remaining).sum + (frames.map Frame.remaining).sum := by
    simp [remaining]
  have hbefore : m.remaining = f.remaining + (frames.map Frame.remaining).sum := by
    rw [hm]
    rfl
  have hcallee : m.callee? = f.callee? m.state.world.scopes := by
    rw [hm]
    rfl
  have hf := hadv.remaining
  rw [hafter, hbefore, hcallee]
  omega

section Calls

variable {n : Nat}

theorem calls_succ_of_ok (hstep : m.step = .ok m') :
    m.calls (n + 1) = m.callee?.toList ++ m'.calls n := by
  rw [calls, hstep]

theorem calls_of_finished (h : m.isFinished) : m.calls n = [] := by
  have hframes : m.frames = [] := List.isEmpty_iff.mp h
  have hstep : m.step = .ok m := by simp only [step, hframes]
  induction n with
  | zero => rfl
  | succ n ih =>
    rw [calls_succ_of_ok hstep, ih, callee?, hframes]
    rfl

/-- What is left and what is called add up to what has been taken, and to what is left then. -/
theorem remaining_of_running (h : m.run n = .running m') :
    ¬ m'.isFinished ∧ m.remaining + Closure.durations (m.calls n) = n + m'.remaining := by
  fun_induction run n m with
  | case1 => cases h
  | case2 m hf =>
    cases h
    exact ⟨hf, Nat.add_comm _ _⟩
  | case3 m hf n m₁ hstep ih =>
    obtain ⟨hf', hsum⟩ := ih h
    have htaken := remaining_step hf hstep
    rw [calls_succ_of_ok hstep, Closure.durations_append]
    exact ⟨hf', by omega⟩
  | case4 => cases h

theorem remaining_of_finished {unspent : Nat} (h : m.run n = .finished m' unspent) :
    m.remaining + Closure.durations (m.calls n) + unspent = n := by
  fun_induction run n m with
  | case1 n m hf =>
    cases h
    rw [calls_of_finished hf, remaining, List.isEmpty_iff.mp hf]
    exact Nat.zero_add _
  | case2 => cases h
  | case3 m hf n m₁ hstep ih =>
    have hsum := ih h
    have htaken := remaining_step hf hstep
    rw [calls_succ_of_ok hstep, Closure.durations_append]
    omega
  | case4 => cases h

theorem run_of_failed {failure : Failure} (h : m.run n = .failed failure) {limit : Nat}
    (hlimit : m.remaining + Closure.durations (m.calls n) ≤ limit) :
    m.run limit = .failed failure := by
  fun_induction run n m generalizing limit with
  | case1 => cases h
  | case2 => cases h
  | case3 m hf n m₁ hstep ih =>
    have htaken := remaining_step hf hstep
    rw [calls_succ_of_ok hstep, Closure.durations_append] at hlimit
    obtain ⟨rest, rfl⟩ : ∃ rest, limit = rest + 1 := ⟨limit - 1, by omega⟩
    rw [run_succ_of_ok hf hstep]
    exact ih h (by omega)
  | case4 m hf n f hstep =>
    have hpos := remaining_pos hf
    obtain ⟨rest, rfl⟩ : ∃ rest, limit = rest + 1 := ⟨limit - 1, by omega⟩
    rw [run_succ_of_error hstep]
    exact h

/-- Between calls the steps that are left run out. -/
theorem exists_ends_of_calls_le (k : Nat) (m : Machine) (h : ∀ n, (m.calls n).length ≤ k) :
    ∃ o s, m.Ends o s := by
  by_cases hf : m.isFinished
  · exact ⟨_, _, .done (List.isEmpty_iff.mp hf)⟩
  · cases hstep : m.step with
    | error failure => exact ⟨_, _, .failed hstep⟩
    | ok m' =>
      have htaken := remaining_step hf hstep
      have hcalls (n : Nat) : m.callee?.toList.length + (m'.calls n).length ≤ k := by
        have hn := h (n + 1)
        rwa [calls_succ_of_ok hstep, List.length_append] at hn
      have hends : ∃ o s, m'.Ends o s := by
        cases hcallee : m.callee? with
        | none =>
          have hless : m'.remaining < m.remaining := by
            rw [hcallee] at htaken
            exact Nat.lt_of_succ_le (Nat.le_of_eq htaken)
          exact exists_ends_of_calls_le k m' fun n => Nat.le_trans (Nat.le_add_left ..) (hcalls n)
        | some c =>
          simp only [hcallee, Option.toList_some, List.length_singleton] at hcalls
          obtain ⟨j, rfl⟩ : ∃ j, k = j + 1 := ⟨k - 1, by have := hcalls 0; omega⟩
          exact exists_ends_of_calls_le j m' fun n => by have := hcalls n; omega
      obtain ⟨o, s, hends⟩ := hends
      exact ⟨o, s, .step (by simpa [isFinished] using hf) hstep hends⟩
termination_by (k, m.remaining)

end Calls

/-- Only calls make a run longer than its block. A run of `b` that finishes takes as many steps as
`b` and the bodies of all methods that it calls; one that fails takes no more. If there is a bound on
how many methods a run calls, it ends; and if it calls none, then within the steps of `b`. -/
theorem only_calls_prolong_run (b : Block) (stack : Stack) (e : ScopeId) (world : World) :
    (∀ limit m unspent, (start b stack e world).run limit = .finished m unspent →
      limit = b.duration + Closure.durations ((start b stack e world).calls limit) + unspent) ∧
    (∀ limit failure, (start b stack e world).run limit = .failed failure →
      (start b stack e world).run
        (b.duration + Closure.durations ((start b stack e world).calls limit)) =
          .failed failure) ∧
    ((∃ k, ∀ limit, ((start b stack e world).calls limit).length ≤ k) →
      ∃ limit o s, ((start b stack e world).run limit).ending? = some (o, s)) ∧
    ((start b stack e world).calls b.duration = [] →
      ∃ o s, ((start b stack e world).run b.duration).ending? = some (o, s)) := by
  have hstart : (start b stack e world).remaining = b.duration := by
    simp [remaining, start, Frame.remaining_start]
  rw [← hstart]
  refine ⟨?_, ?_, ?_, ?_⟩
  · intro limit m unspent h
    exact (remaining_of_finished h).symm
  · intro limit failure h
    exact run_of_failed h (Nat.le_refl _)
  · rintro ⟨k, hk⟩
    obtain ⟨o, s, hends⟩ := exists_ends_of_calls_le k _ hk
    obtain ⟨limit, hlimit⟩ := exists_run_of_ends hends
    exact ⟨limit, o, s, hlimit⟩
  · intro hcalls
    cases hrun : (start b stack e world).run (start b stack e world).remaining with
    | finished m unspent => exact ⟨_, _, rfl⟩
    | failed failure => exact ⟨_, _, rfl⟩
    | running m =>
      -- All steps are taken, but a frame that is not left has at least one more.
      obtain ⟨hf, hsum⟩ := remaining_of_running hrun
      have hpos := remaining_pos hf
      rw [hcalls] at hsum
      simp only [Closure.durations, List.map_nil, List.sum_nil] at hsum
      omega

-- Five steps bind the name: one enters the value, three run it, and the last binds.
example :
    Block.duration [.assignment ["a"] [.expression [.number (.ofByte 1)] none] none,
      .expression [.identifier "a"] none] = 8 := by decide

end Machine

end Stacklet

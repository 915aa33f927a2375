import Mathlib.Data.List.Forall2
import Stacklet.Builtin
import Stacklet.Proofs.Step

/-!
Host calls keep to their signatures. Values of a type and native values of its carrier are the same
thing in two forms, so a call runs its function exactly if it gets arguments of the declared types,
and gives back results of the declared types.
-/

namespace Stacklet

namespace ValueType

/-- The values of a type. -/
def Conforms : ValueType → Value → Prop
  | number t, v => v.type = .number t
  | integer, v => ∃ t, v.type = .number t
  | array, v => v.type = .array
  | bytes, v => ∃ values, v = .array values ∧ ∀ u ∈ values, u.type = .number .uint8
  | stream, v => v.type = .stream
  | any, _ => True

end ValueType

/-! Bytes. -/

namespace Value

theorem type_eq_number_iff {v : Value} {t : NumberType} :
    v.type = .number t ↔ ∃ n : Number, n.type = t ∧ v = .number n := by
  cases v <;> simp [type, eq_comm]

theorem type_eq_array_iff {v : Value} : v.type = .array ↔ ∃ values, v = .array values := by
  cases v <;> simp [type]

theorem type_eq_stream_iff {v : Value} : v.type = .stream ↔ ∃ s, v = .stream s := by
  cases v <;> simp [type]

/-- A number of type `uint8` is a byte. -/
theorem byte?_eq_some_iff {v : Value} {b : UInt8} :
    v.byte? = some b ↔ v = .number (.ofByte b) := by
  constructor
  · intro h
    cases v with
    | number n =>
      obtain ⟨t, value, holds⟩ := n
      rw [byte?] at h
      split at h
      · rename_i ht
        subst ht
        obtain ⟨hleast, hbound⟩ := holds
        have hvalue : ((UInt8.ofNat value.toNat).toNat : Int) = value := by
          change 0 ≤ value at hleast
          change value < 256 at hbound
          rw [UInt8.toNat_ofNat']
          omega
        cases h
        simp only [Number.ofByte, hvalue]
      · cases h
    | array values => cases h
    | stream s => cases h
  · rintro rfl
    simp [byte?, Number.ofByte]

theorem exists_ofByte {v : Value} (h : v.type = .number .uint8) :
    ∃ b, v = .number (.ofByte b) := by
  obtain ⟨n, hn, rfl⟩ := type_eq_number_iff.mp h
  exact ⟨_, byte?_eq_some_iff.mp (if_pos hn)⟩

theorem mapM_byte?_eq_some_iff {values : List Value} {data : List UInt8} :
    values.mapM byte? = some data ↔ ofBytes data = array values := by
  rw [ofBytes, array.injEq]
  induction values generalizing data with
  | nil => cases data <;> simp
  | cons v values ih =>
    simp only [List.mapM_cons, Option.pure_def, Option.bind_eq_bind, Option.bind_eq_some_iff,
      Option.some.injEq, byte?_eq_some_iff, ih]
    constructor
    · rintro ⟨b, rfl, rest, rfl, rfl⟩
      rfl
    · intro h
      obtain ⟨b, rest, rfl, rfl, rfl⟩ := List.map_eq_cons_iff.mp h
      exact ⟨b, rfl, rest, rfl, rfl⟩

theorem exists_ofBytes {values : List Value} (h : ∀ v ∈ values, v.type = .number .uint8) :
    ∃ data, ofBytes data = array values := by
  induction values with
  | nil => exact ⟨[], rfl⟩
  | cons v values ih =>
    obtain ⟨b, rfl⟩ := exists_ofByte (h v (List.mem_cons_self ..))
    obtain ⟨data, hdata⟩ := ih fun u hu => h u (List.mem_cons_of_mem _ hu)
    rw [ofBytes, array.injEq] at hdata
    exact ⟨b :: data, by rw [ofBytes, List.map_cons, hdata]; rfl⟩

end Value

/-! Native values. -/

namespace ValueType

/-- Reading is the inverse of giving a value back. -/
theorem read?_eq_some_iff_value {t : ValueType} {v : Value} {a : t.Carrier} :
    t.read? v = some a ↔ t.value a = v := by
  cases t with
  | number t =>
    obtain ⟨value, holds⟩ := a
    cases v with
    | number n =>
      obtain ⟨t', value', holds'⟩ := n
      simp only [read?, ValueType.value, Value.number.injEq, Number.mk.injEq]
      split
      · rename_i ht
        subst ht
        simp [eq_comm]
      · rename_i ht
        simp [Ne.symm ht]
    | array values => simp [read?, ValueType.value]
    | stream s => simp [read?, ValueType.value]
  | integer => cases v <;> simp [read?, value, eq_comm]
  | array => cases v <;> simp [read?, value, eq_comm]
  | bytes =>
    cases v with
    | array values => exact Value.mapM_byte?_eq_some_iff
    | number n => simp [read?, value, Value.ofBytes]
    | stream s => simp [read?, value, Value.ofBytes]
  | stream => cases v <;> simp [read?, value, eq_comm]
  | any => simp [read?, value, eq_comm]

theorem read?_value (t : ValueType) (a : t.Carrier) : t.read? (t.value a) = some a :=
  read?_eq_some_iff_value.mpr rfl

/-- Native values are given back as values of their type. -/
theorem conforms_value (t : ValueType) (a : t.Carrier) : t.Conforms (t.value a) := by
  cases t with
  | number t => rfl
  | integer => exact ⟨a.type, rfl⟩
  | array => rfl
  | bytes =>
    refine ⟨_, rfl, fun u hu => ?_⟩
    obtain ⟨b, -, rfl⟩ := List.mem_map.mp hu
    rfl
  | stream => rfl
  | any => trivial

/-- Every value of a type comes from a native one. -/
theorem exists_value {t : ValueType} {v : Value} (h : t.Conforms v) : ∃ a, t.value a = v := by
  cases t with
  | number t =>
    obtain ⟨n, rfl, rfl⟩ := Value.type_eq_number_iff.mp h
    exact ⟨⟨n.value, n.holds⟩, rfl⟩
  | integer =>
    obtain ⟨t, ht⟩ := h
    obtain ⟨n, -, rfl⟩ := Value.type_eq_number_iff.mp ht
    exact ⟨n, rfl⟩
  | array =>
    obtain ⟨values, rfl⟩ := Value.type_eq_array_iff.mp h
    exact ⟨values, rfl⟩
  | bytes =>
    obtain ⟨values, rfl, hvalues⟩ := h
    exact Value.exists_ofBytes hvalues
  | stream =>
    obtain ⟨s, rfl⟩ := Value.type_eq_stream_iff.mp h
    exact ⟨s, rfl⟩
  | any => exact ⟨v, rfl⟩

theorem read?_eq_none {t : ValueType} {v : Value} (h : ¬ t.Conforms v) : t.read? v = none := by
  rw [Option.eq_none_iff_forall_ne_some]
  intro a ha
  rw [← read?_eq_some_iff_value.mp ha] at h
  exact h (t.conforms_value a)

/-! Lists of them. -/

theorem conforms_valueAll (types : List ValueType) (a : Carriers types) :
    List.Forall₂ Conforms types (valueAll types a) := by
  induction types with
  | nil => exact .nil
  | cons t types ih => exact .cons (t.conforms_value a.1) (ih a.2)

theorem exists_valueAll {types : List ValueType} {values : List Value}
    (h : List.Forall₂ Conforms types values) : ∃ a, valueAll types a = values := by
  induction h with
  | nil => exact ⟨(), rfl⟩
  | cons hv _ ih =>
    obtain ⟨a, rfl⟩ := exists_value hv
    obtain ⟨rest, rfl⟩ := ih
    exact ⟨(a, rest), rfl⟩

theorem readAll_valueAll (types : List ValueType) (a : Carriers types) (position : Nat)
    (h : (valueAll types a).length = types.length) :
    readAll position types (valueAll types a) h = .ok a := by
  induction types generalizing position with
  | nil => rfl
  | cons t types ih =>
    obtain ⟨a, rest⟩ := a
    simp only [valueAll, readAll, read?_value]
    rw [ih rest]
    rfl

/-- The first value that is not of its type, among as many values as types. -/
structure Mismatch (types : List ValueType) (values : List Value) (i : Nat) (t : ValueType)
    (v : Value) : Prop where
  type : types[i]? = some t
  value : values[i]? = some v
  differs : ¬ t.Conforms v
  before : List.Forall₂ Conforms (types.take i) (values.take i)

theorem Mismatch.cons {types : List ValueType} {values : List Value} {i : Nat} {t t₀ : ValueType}
    {v v₀ : Value} (h : Mismatch types values i t v) (h₀ : t₀.Conforms v₀) :
    Mismatch (t₀ :: types) (v₀ :: values) (i + 1) t v :=
  ⟨h.type, h.value, h.differs, .cons h₀ h.before⟩

theorem readAll_of_mismatch {types : List ValueType} {values : List Value} {i : Nat}
    {t : ValueType} {v : Value} (hmismatch : Mismatch types values i t v) (position : Nat)
    (h : values.length = types.length) :
    readAll position types values h = .error (.type (position + i) t v.type) := by
  induction types generalizing values i position with
  | nil => cases hmismatch.type
  | cons t₀ types ih =>
    cases values with
    | nil => cases h
    | cons v₀ values =>
      cases i with
      | zero =>
        obtain rfl : t₀ = t := by simpa using hmismatch.type
        obtain rfl : v₀ = v := by simpa using hmismatch.value
        simp only [readAll, read?_eq_none hmismatch.differs]
        rfl
      | succ i =>
        obtain ⟨htype, hvalue, hdiffers, hbefore⟩ := hmismatch
        obtain ⟨h₀, hrest⟩ := List.forall₂_cons.mp hbefore
        obtain ⟨a, rfl⟩ := exists_value h₀
        have hmismatch : Mismatch types values i t v := ⟨htype, hvalue, hdiffers, hrest⟩
        simp only [readAll, read?_value]
        rw [ih hmismatch (position + 1) (Nat.succ.inj h), Nat.add_right_comm, Nat.add_assoc]
        rfl

theorem conforms_or_mismatch {types : List ValueType} {values : List Value}
    (h : values.length = types.length) :
    List.Forall₂ Conforms types values ∨ ∃ i t v, Mismatch types values i t v := by
  induction types generalizing values with
  | nil =>
    obtain rfl := List.eq_nil_of_length_eq_zero h
    exact .inl .nil
  | cons t types ih =>
    obtain ⟨v, values, rfl⟩ := List.exists_cons_of_length_eq_add_one h
    by_cases hv : t.Conforms v
    · rcases ih (Nat.succ.inj h) with hrest | ⟨i, t', v', hrest⟩
      · exact .inl (.cons hv hrest)
      · exact .inr ⟨i + 1, t', v', hrest.cons hv⟩
    · exact .inr ⟨0, t, v, rfl, rfl, hv, .nil⟩

end ValueType

/-! Calls. -/

namespace HostCall

open ValueType

variable {c : HostCall} {arguments : List Value} {w : Writers}

/-- How a call that keeps to its signature answers arguments, and what the writers are then. The
function is run only by the last two rules. -/
inductive Answers (c : HostCall) (arguments : List Value) (w : Writers) :
    Except HostError (List Value) × Writers → Prop where
  | arity : arguments.length ≠ c.parameters.length →
      Answers c arguments w (.error (.arity c.parameters.length arguments.length), w)
  | type {i : Nat} {t : ValueType} {v : Value} : arguments.length = c.parameters.length →
      Mismatch c.parameters arguments i t v →
        Answers c arguments w (.error (.type i t v.type), w)
  | failed {a : Carriers c.parameters} {error : HostError} {w' : Writers} :
      List.Forall₂ Conforms c.parameters arguments → valueAll c.parameters a = arguments →
      (c.function a).run w = (.error error, w') → Answers c arguments w (.error error, w')
  | results {a : Carriers c.parameters} {b : Carriers c.results} {w' : Writers} :
      List.Forall₂ Conforms c.parameters arguments → valueAll c.parameters a = arguments →
      (c.function a).run w = (.ok b, w') →
      List.Forall₂ Conforms c.results (valueAll c.results b) →
        Answers c arguments w (.ok (valueAll c.results b), w')

theorem invoke_of_length_ne (h : arguments.length ≠ c.parameters.length) :
    (c.invoke arguments).run w =
      (.error (.arity c.parameters.length arguments.length), w) := by
  rw [invoke, dif_neg h]
  rfl

theorem invoke_of_readAll_error (h : arguments.length = c.parameters.length) {error : HostError}
    (hread : readAll 0 c.parameters arguments h = .error error) :
    (c.invoke arguments).run w = (.error error, w) := by
  rw [invoke, dif_pos h, hread]
  rfl

theorem invoke_valueAll (a : Carriers c.parameters) :
    (c.invoke (valueAll c.parameters a)).run w =
      ((c.function a).run w).map (Except.map (valueAll c.results)) id := by
  have h : (valueAll c.parameters a).length = c.parameters.length :=
    (conforms_valueAll c.parameters a).length_eq.symm
  rw [invoke, dif_pos h, readAll_valueAll]
  change ExceptT.bind (c.function a) (fun b => ExceptT.pure (valueAll c.results b)) w =
    Prod.map (Except.map (valueAll c.results)) id (c.function a w)
  simp only [ExceptT.bind, ExceptT.mk, bind, StateT.bind]
  rcases c.function a w with ⟨_ | b, w'⟩
  · rfl
  · rfl

theorem Answers.invoke {r : Except HostError (List Value) × Writers}
    (h : c.Answers arguments w r) : (c.invoke arguments).run w = r := by
  cases h with
  | arity hlen => exact invoke_of_length_ne hlen
  | type hlen hmismatch =>
    apply invoke_of_readAll_error hlen
    rw [readAll_of_mismatch hmismatch, Nat.zero_add]
  | failed _ ha hrun =>
    rw [← ha, invoke_valueAll, hrun]
    rfl
  | results _ ha hrun _ =>
    rw [← ha, invoke_valueAll, hrun]
    rfl

theorem exists_answers (c : HostCall) (arguments : List Value) (w : Writers) :
    ∃ r, c.Answers arguments w r := by
  by_cases hlen : arguments.length = c.parameters.length
  · rcases conforms_or_mismatch hlen with hall | ⟨i, t, v, hmismatch⟩
    · obtain ⟨a, ha⟩ := exists_valueAll hall
      rcases hrun : (c.function a).run w with ⟨error | b, w'⟩
      · exact ⟨_, .failed hall ha hrun⟩
      · exact ⟨_, .results hall ha hrun (conforms_valueAll _ _)⟩
    · exact ⟨_, .type hlen hmismatch⟩
  · exact ⟨_, .arity hlen⟩

/-- A call answers in one way only. -/
theorem invoke_eq_iff {r : Except HostError (List Value) × Writers} :
    (c.invoke arguments).run w = r ↔ c.Answers arguments w r := by
  constructor
  · rintro rfl
    obtain ⟨r, hr⟩ := c.exists_answers arguments w
    rw [hr.invoke]
    exact hr
  · exact Answers.invoke

end HostCall

/-- What a machine pops for a call is as long as the call's parameters. -/
theorem Machine.answers_of_call {m m' : Machine} {c : HostCall} {name : String}
    {error : HostError} (h : m.call c = .error (.hostCall name error, m')) :
    ∃ arguments writers, arguments.length = c.parameters.length ∧
      c.Answers arguments m.world.writers (.error error, writers) := by
  rcases m.stack.pop_or_underflow c.parameters.length with ⟨arguments, below, hlen, hstack⟩ | hlt
  · rcases hrun : (c.invoke arguments).run m.world.writers with ⟨error' | results, writers⟩
    · rw [call_error hlen hstack hrun] at h
      cases h
      exact ⟨arguments, writers, hlen, HostCall.invoke_eq_iff.mp hrun⟩
    · rw [call_ok hlen hstack hrun] at h
      cases h
  · rw [call_underflow hlt] at h
    cases h

open ValueType in
/-- Marshalling is exact. Native values can be read back from what they are given as, and what can
be read are the values of the type. A call given the wrong number of arguments says so; else, if
one is not of its declared type, it names the first such position, and in neither case runs the
function. Else it runs the function once, on the arguments in their native form, and gives its error
or results of the declared types. The machine always passes the right number of arguments, so if a
step fails for their number, it is the function itself that says so. -/
theorem HostCall.marshalling_is_exact :
    (∀ (t : ValueType) (a : t.Carrier), t.read? (t.value a) = some a) ∧
    (∀ (t : ValueType) (v : Value) (a : t.Carrier),
      t.read? v = some a ↔ t.Conforms v ∧ t.value a = v) ∧
    (∀ (c : HostCall) (arguments : List Value) (w : Writers)
      (r : Except HostError (List Value) × Writers),
      (c.invoke arguments).run w = r ↔ c.Answers arguments w r) ∧
    ∀ (m m' : Machine) (c : HostCall) (name : String) (expected found : Nat),
      m.call c = .error (.hostCall name (.arity expected found), m') →
        ∃ a, ((c.function a).run m.world.writers).1 = .error (.arity expected found) := by
  refine ⟨read?_value, ?_, fun _ _ _ _ => invoke_eq_iff, ?_⟩
  · intro t v a
    rw [read?_eq_some_iff_value]
    constructor
    · rintro rfl
      exact ⟨t.conforms_value a, rfl⟩
    · exact And.right
  · intro m m' c name expected found h
    obtain ⟨arguments, writers, hlen, hanswers⟩ := Machine.answers_of_call h
    cases hanswers with
    | arity hne => exact absurd hlen hne
    | failed _ _ hrun => exact ⟨_, by rw [hrun]⟩

/-- An array of bytes, but for a byte in an array of its own. -/
def Value.almostBytes : Value := .array [.number (.ofByte 1), .array [.number (.ofByte 2)]]

/-- Complains about its one argument. -/
def HostCall.miscounting : HostCall where
  name := "miscount"
  parameters := [.any]
  results := []
  function := fun _ => throw (.arity 9 1)

/-- The second argument is refused, and nothing is written. The other call is passed one argument,
as it declares, and fails for their number by itself. -/
theorem HostCall.almostBytes_refused :
    (¬ ValueType.bytes.Conforms .almostBytes ∧
      ∀ w, (Builtin.write.invoke [.stream Builtin.cout, .almostBytes]).run w =
        (.error (.type 1 .bytes .array), w)) ∧
    ∃ m m' : Machine, m.stack.size = 1 ∧
      m.call miscounting = .error (.hostCall "miscount" (.arity 9 1), m') ∧
      ∃ a, ((miscounting.function a).run m.world.writers).1 = .error (.arity 9 1) := by
  obtain ⟨-, -, hinvoke, hcall⟩ := marshalling_is_exact
  have hdiffers : ¬ ValueType.bytes.Conforms .almostBytes := by
    rintro ⟨values, hvalues, hbytes⟩
    cases hvalues
    have hinner := hbytes (.array [.number (.ofByte 2)]) (by simp)
    cases hinner
  have hmismatch : ValueType.Mismatch Builtin.write.parameters
      [.stream Builtin.cout, .almostBytes] 1 .bytes .almostBytes :=
    ⟨rfl, rfl, hdiffers, .cons rfl .nil⟩
  refine ⟨⟨hdiffers, fun w => ?_⟩, ?_⟩
  · exact (hinvoke _ _ w _).mpr (.type rfl hmismatch)
  · let m : Machine := ⟨[], .ofList [.number (.ofByte 7)], World.base #[]⟩
    have hfails : m.call miscounting =
        .error (.hostCall "miscount" (.arity 9 1), { m with stack := .empty }) := rfl
    exact ⟨m, _, rfl, hfails, hcall m _ miscounting _ _ _ hfails⟩

end Stacklet

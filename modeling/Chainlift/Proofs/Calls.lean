import Chainlift.Proofs.Places
import Chainlift.Proofs.Unread

/-!
# Calls up to the point where a function is entered

A call is evaluated to what is called, on what object and with which arguments (`Machine.approach`); then it is made. A call by
`call` or `apply` calls a function that makes another call. What these two do, and what arrays are, is said of a machine by
`Machine.Standard`; such a machine takes no notice of the trace.

A method is got from an object in the same way whatever stands for the object (`Machine.approach_access`).
-/

namespace Chainlift

open Eval Tree

/-- What is called, on what object and with which arguments. -/
structure Invocation where
  function : Value
  this : Value
  args : List Value
  deriving DecidableEq, Repr

/-- A method by the name of `call` or `apply`. -/
def Tree.isExplicit : Tree → Bool
  | .member _ word _ => word == "call" || word == "apply"
  | _ => false

/-- None of the variables is read in the expression. -/
def Tree.UnreadAll (names : List String) (t : Tree) : Prop := ∀ name ∈ names, t.Unread name

namespace Eval

variable {σ α : Type}

theorem Alike.ok {R : σ → σ → Prop} {x y : ExceptT Value (StateM σ) α} (h : Alike R x y) {s s' m : σ} {a : α}
    (hx : x s = (.ok a, s')) (hs : R s m) : ∃ m', y m = (.ok a, m') ∧ R s' m' := by
  obtain ⟨hr, hstate⟩ := h s m hs
  rw [hx] at hr hstate
  exact ⟨(y m).2, Prod.ext hr.symm rfl, hstate⟩

theorem pure_ok {a b : α} {s s' : σ} : (pure a : ExceptT Value (StateM σ) α) s = (.ok b, s') ↔ a = b ∧ s = s' := by
  constructor
  · intro h
    exact ⟨Except.ok.inj (Prod.mk.inj h).1, (Prod.mk.inj h).2⟩
  · rintro ⟨rfl, rfl⟩
    rfl

end Eval

namespace Machine

variable {W : Type} (M : Machine W)

/-! ## Approaching a call -/

/-- Evaluate a call up to the point where the function is entered. There is none if the chain ends before. -/
def approach (callee : Tree) (args : List Tree) (link : Bool) : Eval W (Option Invocation) := do
  let p ← M.refer callee
  match p with
  | none => pure none
  | some p => do
    let f ← M.get p
    if link && f.isNullish then pure none
    else do
      let vs ← M.valuesOf args
      pure (some ⟨f, p.receiver, vs⟩)

/-- A call is approached, and then made. -/
theorem refer_call (callee : Tree) (args : List Tree) (link : Bool) : M.refer (.call callee args link) = (do
    let i ← M.approach callee args link
    match i with
    | none => pure none
    | some i => do
      let r ← perform (.call i.function i.this i.args) (M.call i.function i.this i.args)
      pure (some (.value r))) := by
  simp only [refer, approach, bind_assoc]
  refine bind_congr fun p => ?_
  cases p with
  | none => simp [step]
  | some p =>
    simp only [step, bind_assoc]
    refine bind_congr fun f => ?_
    split <;> simp

/-! ## Methods -/

/-- The key of an access. -/
def keyOf (access : Tree) : Eval W Key :=
  match access with
  | .member _ name _ => pure (.name name)
  | .privateMember _ name _ => pure (.privateName name)
  | .index _ key _ => do
    let k ← M.eval key
    pure (.computed k)
  | _ => pure (.name "")

/-- What the access gets from an object. -/
def member (access : Tree) (object : Value) : Eval W Value := do
  let key ← M.keyOf access
  M.get (.property object key)

theorem refer_onObject {access o : Tree} (ho : access.object? = some o) (t : Tree) (link : Bool) :
    M.refer (access.onObject t link) = M.openValue t >>= onto link fun v => (do
      let key ← M.keyOf access
      pure (some (.property v key))) := by
  unfold object? at ho
  split at ho
  · simp only [onObject, refer, keyOf, refer_step, pure_bind]
  · simp only [onObject, refer, keyOf, refer_step, refer_eval, bind_assoc, pure_bind]
  · simp only [onObject, refer, keyOf, refer_step, pure_bind]
  · exact absurd ho (by simp)

theorem openValue_access {access o : Tree} (ho : access.object? = some o) (t : Tree) (link : Bool) :
    M.openValue (access.onObject t link) = (do
      let v ← M.openValue t
      match v with
      | none => pure none
      | some v => if link && v.isNullish then pure none else do
        let f ← M.member access v
        pure (some f)) := by
  rw [openValue, refer_onObject M ho, bind_assoc]
  refine bind_congr fun v => ?_
  cases v with
  | none => simp [onto, fetch]
  | some v => cases h : link && v.isNullish <;> simp [onto, fetch, member, h]

theorem approach_access {access o : Tree} (ho : access.object? = some o) (t : Tree) (linked : Bool) (args : List Tree)
    (link : Bool) : M.approach (access.onObject t linked) args link = (do
      let v ← M.openValue t
      match v with
      | none => pure none
      | some v => if linked && v.isNullish then pure none else do
        let f ← M.member access v
        if link && f.isNullish then pure none
        else do
          let vs ← M.valuesOf args
          pure (some ⟨f, v, vs⟩)) := by
  rw [approach, refer_onObject M ho, bind_assoc]
  refine bind_congr fun v => ?_
  cases v with
  | none => simp [onto]
  | some v => cases h : linked && v.isNullish <;> simp [onto, member, h, Referent.receiver]

variable {M}

theorem not_nullish_of_member {access : Tree} {v f : Value} {s s' : State W} (h : M.member access v s = (.ok f, s')) :
    v.isNullish = false := by
  obtain ⟨key, m, -, hget⟩ := of_bind_ok h
  cases hv : v.isNullish with
  | false => rfl
  | true =>
    rw [get, if_pos hv] at hget
    exact absurd (Prod.mk.inj hget).1 (by simp)

theorem openValue_of_eval {t : Tree} {v : Value} {s s' : State W} (h : M.eval t s = (.ok v, s')) (hv : v.isNullish = false) :
    M.openValue t s = (.ok (some v), s') := by
  rw [eval_eq_openValue] at h
  obtain ⟨w, m, hw, hpure⟩ := of_bind_ok h
  obtain ⟨hwv, rfl⟩ := pure_ok.1 hpure
  cases w with
  | none =>
    rw [← show Value.undefined = v from hwv] at hv
    exact absurd hv (by simp [Value.isNullish])
  | some w =>
    obtain rfl : w = v := hwv
    exact hw

theorem openValue_reference {name : String} (hn : name ≠ "undefined") : M.openValue (.reference name) = (do
    let v ← M.readVariable name
    pure (some v)) := by
  simp [openValue, refer, hn, fetch, get]

theorem readVariable_ok {name : String} {v : Value} {s s' : State W} :
    M.readVariable name s = (.ok v, s') ↔ s.store.vars name = some v ∧ s = s' := by
  unfold readVariable
  cases s.store.vars name with
  | none => exact ⟨fun h => absurd (Prod.mk.inj h).1 (by simp), fun h => absurd h.1 (by simp)⟩
  | some w => exact pure_ok.trans (by rw [Option.some_inj])

section Access

variable {access o t : Tree} {args : List Tree} {linked link : Bool} {s s' : State W} (ho : access.object? = some o)

include ho

theorem exists_of_openValue_access {f : Value} (h : M.openValue (access.onObject t link) s = (.ok (some f), s')) :
    ∃ v m, M.openValue t s = (.ok (some v), m) ∧ M.member access v m = (.ok f, s') := by
  rw [openValue_access M ho] at h
  obtain ⟨v, m, hv, h⟩ := of_bind_ok h
  cases v with
  | none => exact absurd (pure_ok.1 h).1 (by simp)
  | some v =>
    simp only at h
    split at h
    · exact absurd (pure_ok.1 h).1 (by simp)
    · obtain ⟨g, m', hg, hpure⟩ := of_bind_ok h
      obtain ⟨heq, rfl⟩ := pure_ok.1 hpure
      obtain rfl := Option.some.inj heq
      exact ⟨v, m, hv, hg⟩

theorem exists_of_approach_access {i : Invocation} (h : M.approach (access.onObject t linked) args link s = (.ok (some i), s')) :
    ∃ m m', M.openValue t s = (.ok (some i.this), m) ∧ M.member access i.this m = (.ok i.function, m') ∧
      M.valuesOf args m' = (.ok i.args, s') := by
  rw [approach_access M ho] at h
  obtain ⟨v, m, hv, h⟩ := of_bind_ok h
  cases v with
  | none => exact absurd (pure_ok.1 h).1 (by simp)
  | some v =>
    simp only at h
    split at h
    · exact absurd (pure_ok.1 h).1 (by simp)
    · obtain ⟨f, m', hf, h⟩ := of_bind_ok h
      split at h
      · exact absurd (pure_ok.1 h).1 (by simp)
      · obtain ⟨vs, m'', hvs, hpure⟩ := of_bind_ok h
        obtain ⟨heq, rfl⟩ := pure_ok.1 hpure
        obtain rfl := Option.some.inj heq
        exact ⟨m, m', hv, hf, hvs⟩

/-- A method that is got from an object is called on that object. -/
theorem approach_access_ok {v f : Value} {vs : List Value} {m m' : State W} (hv : M.openValue t s = (.ok (some v), m))
    (hf : M.member access v m = (.ok f, m')) (hcallable : link = true → f.isNullish = false)
    (hargs : M.valuesOf args m' = (.ok vs, s')) :
    M.approach (access.onObject t linked) args link s = (.ok (some ⟨f, v, vs⟩), s') := by
  have hnullish : (link && f.isNullish) = false := by
    cases link with
    | false => rfl
    | true => simp [hcallable rfl]
  rw [approach_access M ho, bind_ok hv]
  simp only [not_nullish_of_member hf, Bool.and_false, Bool.false_eq_true, if_false]
  rw [bind_ok hf]
  simp only [hnullish, Bool.false_eq_true, if_false]
  rw [bind_ok hargs]
  rfl

end Access

/-- What has no object to pass on is called without one. -/
theorem approach_value_ok {callee : Tree} {args : List Tree} {link : Bool} {f : Value} {vs : List Value} {s m s' : State W}
    (hf : M.refer callee s = (.ok (some (.value f)), m)) (hcallable : link = true → f.isNullish = false)
    (hargs : M.valuesOf args m = (.ok vs, s')) : M.approach callee args link s = (.ok (some ⟨f, .undefined, vs⟩), s') := by
  have hnullish : (link && f.isNullish) = false := by
    cases link with
    | false => rfl
    | true => simp [hcallable rfl]
  rw [approach, bind_ok hf]
  simp only [get, pure_bind, hnullish, Bool.false_eq_true, if_false]
  rw [bind_ok hargs]
  rfl

theorem exists_of_approach_value {callee : Tree} {args : List Tree} {link : Bool} {i : Invocation} {s m s' : State W} {f : Value}
    (hf : M.refer callee s = (.ok (some (.value f)), m)) (h : M.approach callee args link s = (.ok (some i), s')) :
    ∃ vs, M.valuesOf args m = (.ok vs, s') ∧ i = ⟨f, .undefined, vs⟩ := by
  rw [approach, bind_ok hf] at h
  simp only [get, pure_bind] at h
  split at h
  · exact absurd (pure_ok.1 h).1 (by simp)
  · obtain ⟨vs, m', hvs, hpure⟩ := of_bind_ok h
    obtain ⟨heq, rfl⟩ := pure_ok.1 hpure
    exact ⟨vs, hvs, (Option.some.inj heq).symm⟩

/-! ## Standard functions -/

/-- `call` and `apply` are methods of every function and call the function whose method they are. Arrays consist of the values of
their elements, and spreading one gives these. What is left to the machine does not depend on what has been noticed. -/
structure Standard (M : Machine W) where
  callable : Value → Prop
  call : Value
  apply : Value
  /-- The elements of an array. -/
  elements : Store W → Value → Option (List Value)
  call_ne_apply : call ≠ apply
  not_nullish : ∀ f, callable f → f.isNullish = false
  read_call : ∀ f s, callable f → M.read f (.name "call") s = (.ok call, s)
  read_apply : ∀ f s, callable f → M.read f (.name "apply") s = (.ok apply, s)
  call_call : ∀ f this args s, callable f → M.call call f (this :: args) s = M.call f this args s
  call_apply : ∀ f this s, callable f → M.call apply f [this] s = M.call f this [] s
  call_applyArray : ∀ f this list rest vs s, callable f → elements s list = some vs →
    M.call apply f (this :: list :: rest) s = M.call f this vs s
  iterate : ∀ v s vs, elements s v = some vs → M.iterate v s = (.ok vs, s)
  array : ∀ es s v s', (∀ e ∈ es, e.form ≠ .absent) → M.other (.array es) s = (.ok v, s') →
    ∃ vs m, M.valuesOf es s = (.ok vs, m) ∧ elements s'.store v = some vs
  other : ∀ t, Alike (fun s s' : State W => s.store = s'.store) (M.other t) (M.other t)

namespace Standard

variable (std : M.Standard)

/-- In the given store, the first invocation does nothing but make the second one. -/
inductive Makes (s : Store W) : Invocation → Invocation → Prop
  | call (f this : Value) (args : List Value) : Makes s ⟨std.call, f, this :: args⟩ ⟨f, this, args⟩
  | apply (f this : Value) : Makes s ⟨std.apply, f, [this]⟩ ⟨f, this, []⟩
  | applyArray (f this list : Value) (rest vs : List Value) (h : std.elements s list = some vs) :
    Makes s ⟨std.apply, f, this :: list :: rest⟩ ⟨f, this, vs⟩

theorem Makes.call_eq {std : M.Standard} {s : Store W} {i j : Invocation} (h : std.Makes s i j)
    (hf : std.callable j.function) : M.call i.function i.this i.args s = M.call j.function j.this j.args s := by
  cases h with
  | call f this args => exact std.call_call f this args s hf
  | apply f this => exact std.call_apply f this s hf
  | applyArray f this list rest vs h => exact std.call_applyArray f this list rest vs s hf h

/-- After the evaluation, the call invokes a function: the one that is called, or the one that an explicit call makes a call
of. -/
def Reaches (before : Eval W Unit) (callee : Tree) (args : List Tree) (link : Bool) (s : State W) (j : Invocation) : Prop :=
  std.callable j.function ∧ ∃ i s', (before >>= fun _ => M.approach callee args link) s = (.ok (some i), s') ∧
    if callee.isExplicit then std.Makes s'.store i j else i = j

end Standard

/-- Call the function; that is noticed as the event. -/
def enter (j : Invocation) (e : Event) : Eval W (Option Referent) := do
  let r ← perform e (M.call j.function j.this j.args)
  pure (some (.value r))

theorem refer_call_of_approach {M : Machine W} {callee : Tree} {args : List Tree} {link : Bool} {i : Invocation} {s s' : State W}
    (h : M.approach callee args link s = (.ok (some i), s')) :
    M.refer (.call callee args link) s = M.enter i (.call i.function i.this i.args) s' := by
  rw [refer_call, bind_ok h]
  rfl

/-- A call does what the invocation does that it reaches. -/
theorem Standard.Reaches.exists_enter {M : Machine W} {std : M.Standard} {before : Eval W Unit} {callee : Tree} {args : List Tree}
    {link : Bool} {s : State W} {j : Invocation} (h : std.Reaches before callee args link s j) :
    ∃ e s', (before >>= fun _ => M.refer (.call callee args link)) s = M.enter j e s' := by
  obtain ⟨hcallable, i, s', hi, hj⟩ := h
  obtain ⟨_, m, hbefore, hi⟩ := of_bind_ok hi
  rw [bind_ok hbefore, refer_call_of_approach hi]
  refine ⟨.call i.function i.this i.args, s', ?_⟩
  split at hj
  · refine bind_congr_at ?_ _
    simp only [perform, hj.call_eq hcallable]
  · rw [hj]

/-! ## Related states -/

/-- The stores differ in these variables at most, whatever has been noticed. -/
def Like (names : List String) (s s' : State W) : Prop := s.store.Agree names s'.store

/-- What sees neither the variables nor the trace. -/
theorem alike_like {α : Type} {names : List String} {x : Eval W α} (h : IdleAll names x x)
    (hx : Alike (fun s s' : State W => s.store = s'.store) x x) : Alike (Like names) x x := by
  intro s s' hs
  have hmiddle := h s ⟨s'.store, s.trace⟩ ⟨hs, rfl⟩
  have hlast := hx ⟨s'.store, s.trace⟩ s' rfl
  refine ⟨hmiddle.1.trans hlast.1, ?_⟩
  rw [Like, ← hlast.2]
  exact hmiddle.2.1

theorem alike_perform {α : Type} {names : List String} {a : Action W α} (h : ∀ name ∈ names, a.Ignores name) (e : Event) :
    Alike (Like names) (perform e a) (perform e a) := by
  refine alike_like (idleAll_of_idle fun name hn => idle_perform (h name hn) e) ?_
  rintro ⟨store, trace⟩ ⟨_, trace'⟩ rfl
  exact ⟨rfl, rfl⟩

/-- Expressions that do not read the variables do not tell such states apart. -/
theorem Standard.respectsIn (std : M.Standard) {names : List String} (hM : ∀ name ∈ names, M.Overlooks name) :
    M.RespectsIn (Like names) (UnreadAll names) where
  read object key := alike_perform (fun name hn => (hM name hn).read object key) _
  write object key v := alike_perform (fun name hn => (hM name hn).write object key v) _
  remove object key := alike_perform (fun name hn => (hM name hn).remove object key) _
  call function receiver args := alike_perform (fun name hn => (hM name hn).call function receiver args) _
  iterate v := alike_perform (fun name hn => (hM name hn).iterate v) _
  looselyEqual a b := alike_perform (fun name hn => (hM name hn).looselyEqual a b) _
  setVariable name v s s' hs := by
    refine ⟨rfl, hs.1, fun n hn => ?_⟩
    simp only [setVariable]
    split
    · rfl
    · exact hs.2 n hn
  parts f ps ho h p hp name hn := unread_evaluated ho (h name hn) p hp
  readVariable name h s s' hs := by
    have hname : name ∉ names := fun hn => not_unread_reference _ (h name hn)
    simp only [readVariable, hs.2 name hname]
    split
    · exact ⟨rfl, hs⟩
    · exact ⟨rfl, hs⟩
  other t h := alike_like (idleAll_of_idle fun name hn => (hM name hn).other t (h name hn)) (std.other t)

theorem alike_member {R : State W → State W → Prop} {P : Tree → Prop} (hR : M.RespectsIn R P) {access : Tree}
    (hkey : ∀ o key link, access = .index o key link → P key) (v : Value) : Alike R (M.member access v) (M.member access v) := by
  refine Alike.bind ?_ fun key => alike_get hR.toRespects _
  unfold keyOf
  split
  · exact alike_pure _
  · exact alike_pure _
  · exact (hR.eval (hkey _ _ _ rfl)).bind fun k => alike_pure _
  · exact alike_pure _

/-- Getting the property from an object does not set the variable. -/
def Steady (M : Machine W) (name : String) (access : Tree) : Prop :=
  ∀ object f s s', M.member access object s = (.ok f, s') → s'.store.vars name = s.store.vars name

end Machine

end Chainlift

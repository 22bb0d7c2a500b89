import Chainlift.Proofs.Machine

/-!
# Agreement off some variables

Two states agree off some variables when they differ in the values of these at most. Two evaluations are close off some
variables when from the same state they have the same outcome and end in states that agree off them (`Eval.Close`): that is
what an expression has in common with one in which assignments were dropped. A variable is idle in two evaluations when
whatever it holds before makes no difference, except to what it holds afterwards (`Eval.Idle`).
-/

namespace Chainlift

variable {W : Type}

/-- The stores differ in these variables at most. -/
def Store.Agree (names : List String) (s s' : Store W) : Prop :=
  s.world = s'.world ∧ ∀ n, n ∉ names → s.vars n = s'.vars n

namespace Store

theorem agree_refl (names : List String) (s : Store W) : s.Agree names s := ⟨rfl, fun _ _ => rfl⟩

theorem agree_trans {names names' : List String} {s s' s'' : Store W} (h : s.Agree names s') (h' : s'.Agree names' s'') :
    s.Agree (names ++ names') s'' := by
  refine ⟨h.1.trans h'.1, fun n hn => ?_⟩
  rw [List.mem_append, not_or] at hn
  exact (h.2 n hn.1).trans (h'.2 n hn.2)

end Store

/-- Nothing but these variables differs. -/
def State.Agree (names : List String) (s s' : State W) : Prop :=
  s.store.Agree names s'.store ∧ s.trace = s'.trace

namespace State

theorem agree_refl (names : List String) (s : State W) : s.Agree names s := ⟨Store.agree_refl names s.store, rfl⟩

theorem agree_trans {names names' : List String} {s s' s'' : State W} (h : s.Agree names s') (h' : s'.Agree names' s'') :
    s.Agree (names ++ names') s'' := ⟨Store.agree_trans h.1 h'.1, h.2.trans h'.2⟩

/-- States that agree off several variables agree off the first one with a state that agrees off the rest. -/
theorem agree_cons {name : String} {names : List String} {s s' : State W} (h : s.Agree (name :: names) s') :
    ∃ m : State W, s.Agree [name] m ∧ m.Agree names s' := by
  refine ⟨{ s with store.vars := fun n => if n = name then s'.store.vars n else s.store.vars n },
    ⟨⟨rfl, fun n hn => ?_⟩, rfl⟩, ⟨h.1.1, fun n hn => ?_⟩, h.2⟩
  · simp only [if_neg (List.ne_of_not_mem_cons hn)]
  · by_cases hm : n = name
    · simp only [if_pos hm]
    · simp only [if_neg hm]
      exact h.1.2 n (by simp [hm, hn])

/-- One of the variables may be set. -/
theorem agree_set {names : List String} {s s' : State W} (h : s.Agree names s') {name : String} (hn : name ∈ names)
    (v : Value) : State.Agree names { s with store.vars := fun n => if n = name then some v else s.store.vars n } s' := by
  refine ⟨⟨h.1.1, fun n hm => ?_⟩, h.2⟩
  have hne : n ≠ name := fun heq => hm (heq ▸ hn)
  simp only [if_neg hne]
  exact h.1.2 n hm

theorem eq_of_agree_nil {s s' : State W} (h : s.Agree [] s') : s = s' := by
  obtain ⟨⟨vars, world⟩, trace⟩ := s
  obtain ⟨⟨vars', world'⟩, trace'⟩ := s'
  obtain ⟨⟨rfl, hvars⟩, rfl⟩ := h
  obtain rfl : vars = vars' := funext fun n => hvars n (by simp)
  rfl

end State

/-- What an operation does depends on the variable only in what it leaves in it. -/
def Action.Ignores {α : Type} (name : String) (a : Action W α) : Prop :=
  ∀ s s', s.Agree [name] s' → (a s).1 = (a s').1 ∧ (a s).2.Agree [name] (a s').2

/-- Reading, calling and comparing do not depend on the variable. -/
structure Machine.Ignores (M : Machine W) (name : String) : Prop where
  read : ∀ object key, (M.read object key).Ignores name
  call : ∀ function receiver args, (M.call function receiver args).Ignores name
  looselyEqual : ∀ a b, (M.looselyEqual a b).Ignores name

namespace Eval

/-! ## Evaluating alike -/

section Alike

variable {σ α β : Type} {R : σ → σ → Prop}

/-- From related states the same outcome, and related states in the end. -/
def Alike (R : σ → σ → Prop) (x y : ExceptT Value (StateM σ) α) : Prop :=
  ∀ s s', R s s' → (x s).1 = (y s').1 ∧ R (x s).2 (y s').2

theorem alike_pure (a : α) : Alike R (pure a) (pure a) := fun _ _ h => ⟨rfl, h⟩

theorem alike_throw (e : Value) : Alike R (throw e : ExceptT Value (StateM σ) α) (throw e) := fun _ _ h => ⟨rfl, h⟩

/-- What has the same outcome and ends in related states goes on alike if what follows does not see the difference. -/
theorem bind_alike {x y : ExceptT Value (StateM σ) α} {f g : α → ExceptT Value (StateM σ) β} {s s' : σ}
    (h : (x s).1 = (y s').1 ∧ R (x s).2 (y s').2) (hf : ∀ a, Alike R (f a) (g a)) :
    ((x >>= f) s).1 = ((y >>= g) s').1 ∧ R ((x >>= f) s).2 ((y >>= g) s').2 := by
  obtain ⟨hr, hs⟩ := h
  rcases hx : x s with ⟨e | a, t⟩ <;> rcases hy : y s' with ⟨e' | a', t'⟩ <;> rw [hx, hy] at hr hs
  · rw [bind_error hx, bind_error hy]
    exact ⟨congrArg Except.error (Except.error.inj hr), hs⟩
  · exact absurd hr (by simp)
  · exact absurd hr (by simp)
  · obtain rfl := Except.ok.inj hr
    rw [bind_ok hx, bind_ok hy]
    exact hf a t t' hs

theorem Alike.bind {x y : ExceptT Value (StateM σ) α} {f g : α → ExceptT Value (StateM σ) β} (h : Alike R x y)
    (hf : ∀ a, Alike R (f a) (g a)) : Alike R (x >>= f) (y >>= g) := fun s s' hs => bind_alike (h s s' hs) hf

theorem alike_ite {x x' y y' : ExceptT Value (StateM σ) α} (c : Bool) (hx : Alike R x x') (hy : Alike R y y') :
    Alike R (if c = true then x else y) (if c = true then x' else y') := by
  cases c
  · exact hy
  · exact hx

end Alike

variable {α β : Type}

/-- The same outcome from the same state; in the end nothing but the variables differs. -/
def Close (names : List String) (x y : Eval W α) : Prop :=
  ∀ s, (x s).1 = (y s).1 ∧ (x s).2.Agree names (y s).2

/-- The same outcome from states that agree off the variable, and agreement off it in the end. -/
def Idle (name : String) (x y : Eval W α) : Prop :=
  ∀ s s', s.Agree [name] s' → (x s).1 = (y s').1 ∧ (x s).2.Agree [name] (y s').2

/-- The same of several variables. -/
def IdleAll (names : List String) (x y : Eval W α) : Prop :=
  ∀ s s', s.Agree names s' → (x s).1 = (y s').1 ∧ (x s).2.Agree names (y s').2

/-! ## Closeness -/

theorem close_refl (names : List String) (x : Eval W α) : Close names x x :=
  fun _ => ⟨rfl, State.agree_refl names _⟩

theorem Close.trans {names names' : List String} {x y z : Eval W α} (h : Close names x y) (h' : Close names' y z) :
    Close (names ++ names') x z :=
  fun s => ⟨(h s).1.trans (h' s).1, State.agree_trans (h s).2 (h' s).2⟩

/-- Two evaluations with a common beginning. -/
theorem Close.bind {names : List String} {f g : α → Eval W β} (x : Eval W α) (h : ∀ a, Close names (f a) (g a)) :
    Close names (x >>= f) (x >>= g) := by
  intro s
  rcases hx : x s with ⟨_ | a, s'⟩
  · rw [bind_error hx, bind_error hx]
    exact ⟨rfl, State.agree_refl _ _⟩
  · rw [bind_ok hx, bind_ok hx]
    exact h a s'

/-! ## Idleness -/

theorem Idle.close {name : String} {x y : Eval W α} (h : Idle name x y) : Close [name] x y :=
  fun s => h s s (State.agree_refl _ s)

theorem idle_pure (name : String) (a : α) : Idle name (pure a : Eval W α) (pure a) := alike_pure a

theorem idle_throw (name : String) (e : Value) : Idle name (throw e : Eval W α) (throw e) := alike_throw e

theorem Close.bind_idleAll {names : List String} {x y : Eval W α} {f g : α → Eval W β} (h : Close names x y)
    (hf : ∀ a, IdleAll names (f a) (g a)) : Close names (x >>= f) (y >>= g) := fun s => bind_alike (h s) hf

theorem IdleAll.bind {names : List String} {x y : Eval W α} {f g : α → Eval W β} (h : IdleAll names x y)
    (hf : ∀ a, IdleAll names (f a) (g a)) : IdleAll names (x >>= f) (y >>= g) := Alike.bind h hf

theorem Idle.bind {name : String} {x y : Eval W α} {f g : α → Eval W β} (h : Idle name x y)
    (hf : ∀ a, Idle name (f a) (g a)) : Idle name (x >>= f) (y >>= g) := Alike.bind h hf

/-- What ignores each of some variables ignores them all. -/
theorem idleAll_of_idle {names : List String} {x : Eval W α} (h : ∀ name ∈ names, Idle name x x) : IdleAll names x x := by
  induction names with
  | nil =>
    intro s s' hs
    obtain rfl := State.eq_of_agree_nil hs
    exact ⟨rfl, State.agree_refl _ _⟩
  | cons name names ih =>
    intro s s' hs
    simp only [List.mem_cons, forall_eq_or_imp] at h
    obtain ⟨m, hm, hs'⟩ := State.agree_cons hs
    obtain ⟨hfirst, hagree⟩ := h.1 s m hm
    obtain ⟨hrest, hagree'⟩ := ih h.2 m s' hs'
    exact ⟨hfirst.trans hrest, State.agree_trans hagree hagree'⟩

theorem idle_ite {name : String} {x x' y y' : Eval W α} (c : Bool) (hx : Idle name x x') (hy : Idle name y y') :
    Idle name (if c = true then x else y) (if c = true then x' else y') := alike_ite c hx hy

end Eval

namespace Machine

open Eval

variable {α : Type} {M : Machine W} {name : String}

theorem idle_perform {a : Action W α} (h : a.Ignores name) (e : Event) : Idle name (perform e a) (perform e a) := by
  intro s s' hs
  obtain ⟨hr, ha⟩ := h s.store s'.store hs.1
  exact ⟨hr, ha, congrArg (· ++ [e]) hs.2⟩

theorem idle_readVariable {other : String} (h : other ≠ name) : Idle name (M.readVariable other) (M.readVariable other) := by
  intro s s' hs
  have hv := hs.1.2 other (by simpa using h)
  simp only [readVariable, hv]
  split
  · exact ⟨rfl, hs⟩
  · exact ⟨rfl, hs⟩

theorem idle_setVariable (other : String) (v : Value) :
    Idle name (setVariable other v : Eval W Unit) (setVariable other v) := by
  intro s s' hs
  refine ⟨rfl, ⟨hs.1.1, fun n hn => ?_⟩, hs.2⟩
  simp only [setVariable]
  split
  · rfl
  · exact hs.1.2 n hn

/-- An assignment to an idle variable can go. -/
theorem idleAll_dropped {names : List String} (hn : name ∈ names) {x y : Eval W α} (h : IdleAll names x y) (v : Value) :
    IdleAll names (do setVariable name v; x) y :=
  fun _ s' hs => h _ s' (State.agree_set hs hn v)

theorem idle_dropped {x y : Eval W α} (h : Idle name x y) (v : Value) :
    Idle name (do setVariable name v; x) y := idleAll_dropped (by simp) h v

variable (hM : M.Ignores name)

include hM

theorem idle_get (p : Referent) : Idle name (M.get p) (M.get p) := by
  cases p with
  | value v => exact idle_pure name v
  | property object key => exact idle_ite _ (idle_throw name _) (idle_perform (hM.read object key) _)

theorem idle_value (p : Option Referent) : Idle name (M.value p) (M.value p) := by
  cases p with
  | none => exact idle_pure name _
  | some p => exact idle_get hM p

theorem idle_compare (strict : Bool) (a b : Value) : Idle name (M.compare strict a b) (M.compare strict a b) :=
  idle_ite _ (idle_pure name _) (idle_ite _ (idle_pure name _) (idle_perform (hM.looselyEqual a b) _))

theorem idle_step {go go' : Referent → Value → Eval W (Option Referent)} (hgo : ∀ p v, Idle name (go p v) (go' p v))
    (link : Bool) (p : Option Referent) : Idle name (M.step link go p) (M.step link go' p) := by
  cases p with
  | none => exact idle_pure name _
  | some p => exact (idle_get hM p).bind fun v => idle_ite _ (idle_pure name _) (hgo p v)

end Machine

theorem Machine.constant_ignores (v : Value) (name : String) : (Machine.constant v).Ignores name where
  read _ _ _ _ h := ⟨rfl, h⟩
  call _ _ _ _ _ h := ⟨rfl, h⟩
  looselyEqual _ _ _ _ h := ⟨rfl, h⟩

end Chainlift

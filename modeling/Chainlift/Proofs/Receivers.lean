import Chainlift.Proofs.Calls

/-!
# Methods and their receivers

An explicit call evaluates a function, a receiver and arguments, and invokes the function on the receiver
(`Machine.Standard.exists_of_explicit`). The same invocation is made by a direct call of a method that is got from the receiver
itself, be it that the receiver is the object of the method (`Machine.Standard.approach_method`), or that the method was stored
in a variable (`Machine.Stored.approach_stored`); then the expression it was read off takes the place of the variable.
-/

namespace Chainlift

open Eval Tree

theorem Tree.mem_nodes_object {t o : Tree} (ho : t.object? = some o) : o ∈ t.nodes := by
  unfold object? at ho
  split at ho
  all_goals first
    | (obtain rfl := Option.some.inj ho; exact mem_nodes_part List.mem_cons_self (mem_nodes_self _))
    | exact absurd ho (by simp)

theorem Tree.onObject_isLink {t o : Tree} (ho : t.object? = some o) : t.onObject o t.isLink = t := by
  unfold object? at ho
  split at ho
  all_goals first | (obtain rfl := Option.some.inj ho; rfl) | exact absurd ho (by simp)

/-- A variable, or an assignment to it. -/
def Tree.Stores (t : Tree) (name : String) : Prop := t = .reference name ∨ ∃ v, t = .assign .plain (.reference name) v

namespace Machine

variable {W : Type} (M : Machine W)

/-- Store the value of an expression in a variable. -/
def store (t : Tree) (name : String) : Eval W Unit := do
  let v ← M.eval t
  setVariable name v

variable {M} (std : M.Standard)

namespace Standard

/-- The function behind an explicit call. -/
def builtin : Method → Value
  | .call => std.call
  | _ => std.apply

variable {std}

theorem eval_array (es : List Tree) : M.eval (.array es) = M.other (.array es) := by
  rw [eval, refer_of_not_isOpened M rfl]
  simp only [unopened, literal?, form, bind_assoc, pure_bind, value_value, bind_pure]

/-! ### What an explicit call makes -/

/-- All arguments after the first are passed on. -/
theorem exists_of_makes_call {f this : Value} {vs : List Value} {j : Invocation} {s : Store W}
    (h : std.Makes s ⟨std.call, f, this :: vs⟩ j) : j.function = f ∧ j.this = this ∧ j.args = vs := by
  generalize hi : (⟨std.call, f, this :: vs⟩ : Invocation) = i at h
  cases h with
  | call f' this' args =>
    obtain ⟨-, rfl, hargs⟩ := Invocation.mk.inj hi
    obtain ⟨rfl, rfl⟩ := List.cons.inj hargs
    exact ⟨rfl, rfl, rfl⟩
  | apply => exact absurd (Invocation.mk.inj hi).1 std.call_ne_apply
  | applyArray => exact absurd (Invocation.mk.inj hi).1 std.call_ne_apply

/-- Without an array there are no arguments. -/
theorem exists_of_makes_apply_none {f this : Value} {j : Invocation} {s : Store W}
    (h : std.Makes s ⟨std.apply, f, [this]⟩ j) : j.function = f ∧ j.this = this ∧ j.args = [] := by
  generalize hi : (⟨std.apply, f, [this]⟩ : Invocation) = i at h
  cases h with
  | call => exact absurd (Invocation.mk.inj hi).1 std.call_ne_apply.symm
  | apply f' this' =>
    obtain ⟨-, rfl, hargs⟩ := Invocation.mk.inj hi
    obtain ⟨rfl, -⟩ := List.cons.inj hargs
    exact ⟨rfl, rfl, rfl⟩
  | applyArray => exact absurd (Invocation.mk.inj hi).2.2 (by simp)

/-- The elements of the one array that is applied. -/
theorem exists_of_makes_apply {f this list : Value} {j : Invocation} {s : Store W}
    (h : std.Makes s ⟨std.apply, f, [this, list]⟩ j) : j.function = f ∧ j.this = this ∧ std.elements s list = some j.args := by
  generalize hi : (⟨std.apply, f, [this, list]⟩ : Invocation) = i at h
  cases h with
  | call => exact absurd (Invocation.mk.inj hi).1 std.call_ne_apply.symm
  | apply => exact absurd (Invocation.mk.inj hi).2.2 (by simp)
  | applyArray f' this' list' rest vs h =>
    obtain ⟨-, rfl, hargs⟩ := Invocation.mk.inj hi
    obtain ⟨rfl, hlist⟩ := List.cons.inj hargs
    obtain ⟨rfl, -⟩ := List.cons.inj hlist
    exact ⟨rfl, rfl, h⟩

theorem exists_of_valuesOf_single {t : Tree} (ht : ∀ u, t ≠ .spread u) {vs : List Value} {s s' : State W}
    (h : M.valuesOf [t] s = (.ok vs, s')) : ∃ v, vs = [v] ∧ M.eval t s = (.ok v, s') := by
  rw [valuesOf_single M ht] at h
  obtain ⟨v, m, hv, hpure⟩ := of_bind_ok h
  obtain ⟨rfl, rfl⟩ := pure_ok.1 hpure
  exact ⟨v, rfl, hv⟩

/-- The arguments of a direct call are those that the explicit call passes on. -/
theorem exists_of_makes {method : Method} {rest direct : List Tree} (hd : method.directArguments rest = some direct)
    {f this : Value} {vs : List Value} {j : Invocation} {s s' : State W} (hvs : M.valuesOf rest s = (.ok vs, s'))
    (hj : std.Makes s'.store ⟨std.builtin method, f, this :: vs⟩ j) :
    j.function = f ∧ j.this = this ∧ ∃ m, M.valuesOf direct s = (.ok j.args, m) := by
  obtain ⟨rfl, rfl⟩ | ⟨rfl, ⟨rfl, rfl⟩ | ⟨rfl, hall⟩ | ⟨list, rfl, hspread, rfl⟩⟩ := directArguments_eq_some hd
  · obtain ⟨hf, hthis, hargs⟩ := exists_of_makes_call hj
    exact ⟨hf, hthis, s', hargs ▸ hvs⟩
  · obtain ⟨rfl, rfl⟩ := pure_ok.1 (show (pure [] : Eval W (List Value)) s = _ from hvs)
    obtain ⟨hf, hthis, hargs⟩ := exists_of_makes_apply_none hj
    exact ⟨hf, hthis, s, hargs ▸ hvs⟩
  · obtain ⟨list, rfl, hlist⟩ := exists_of_valuesOf_single (by simp) hvs
    obtain ⟨hf, hthis, helements⟩ := exists_of_makes_apply hj
    rw [eval_array] at hlist
    obtain ⟨ws, m, hws, hsame⟩ := std.array direct s list s' hall hlist
    obtain rfl : ws = j.args := Option.some.inj (hsame.symm.trans helements)
    exact ⟨hf, hthis, m, hws⟩
  · obtain ⟨v, rfl, hv⟩ := exists_of_valuesOf_single hspread hvs
    obtain ⟨hf, hthis, helements⟩ := exists_of_makes_apply hj
    refine ⟨hf, hthis, ⟨s'.store, s'.trace ++ [.iterate v]⟩, ?_⟩
    rw [valuesOf_spread, bind_ok hv]
    simp only [perform, std.iterate v s'.store j.args helements]

theorem this_of_makes {i j : Invocation} {s : Store W} (h : std.Makes s i j) : i.this = j.function := by
  cases h <;> rfl

/-- A function has the two methods, and getting them changes nothing. -/
theorem member_builtin {function : Tree} {word : String} {linked : Bool} {method : Method} {rest direct : List Tree}
    (hword : Method.ofName? word = some method) (hd : method.directArguments rest = some direct) {f g : Value} {s s' : State W}
    (hf : std.callable f) (h : M.member (.member function word linked) f s = (.ok g, s')) :
    g = std.builtin method ∧ s'.store = s.store := by
  have hread : M.read f (.name word) s.store = (.ok (std.builtin method), s.store) := by
    unfold Method.ofName? at hword
    split at hword
    · obtain rfl := Option.some.inj hword
      exact std.read_call f s.store hf
    · obtain rfl := Option.some.inj hword
      exact std.read_apply f s.store hf
    · obtain rfl := Option.some.inj hword
      exact absurd hd (by simp [Method.directArguments])
    · exact absurd hword (by simp)
  have hget : M.get (.property f (.name word)) s = (.ok g, s') := h
  rw [get, std.not_nullish f hf, if_neg (by simp)] at hget
  simp only [perform, hread] at hget
  obtain ⟨hg, hs⟩ := Prod.mk.inj hget
  exact ⟨(Except.ok.inj hg).symm, by rw [← hs]⟩

/-- An explicit call evaluates the function, the receiver and the other arguments, and its invocation is made of these. -/
theorem exists_of_explicit {function receiver : Tree} {word : String} {linked link : Bool} {method : Method}
    {rest direct : List Tree} (hword : Method.ofName? word = some method) (hd : method.directArguments rest = some direct)
    (hreceiver : ∀ u, receiver ≠ .spread u) {i j : Invocation} {s s' : State W}
    (hi : M.approach (.member function word linked) (receiver :: rest) link s = (.ok (some i), s'))
    (hj : std.Makes s'.store i j) (hcallable : std.callable j.function) :
    ∃ m m' m'' n, M.openValue function s = (.ok (some j.function), m) ∧ m'.store = m.store ∧
      M.eval receiver m' = (.ok j.this, m'') ∧ M.valuesOf direct m'' = (.ok j.args, n) := by
  have hobject : (Tree.member function word linked).object? = some function := rfl
  obtain ⟨m, m', hfunction, hmember, hargs⟩ := exists_of_approach_access hobject hi
  have hthis := this_of_makes hj
  rw [hthis] at hfunction hmember
  obtain ⟨hbuiltin, hstore⟩ := member_builtin hword hd hcallable hmember
  rw [valuesOf_cons hreceiver] at hargs
  obtain ⟨this, m'', hreceived, hargs⟩ := of_bind_ok hargs
  obtain ⟨vs, n, hvs, hpure⟩ := of_bind_ok hargs
  obtain ⟨hlist, rfl⟩ := pure_ok.1 hpure
  have hmade : std.Makes n.store ⟨std.builtin method, j.function, this :: vs⟩ j := by
    rw [hlist, ← hbuiltin, ← hthis]
    exact hj
  obtain ⟨-, rfl, n', hdirect⟩ := exists_of_makes hd hvs hmade
  exact ⟨m, m', m'', n', hfunction, hstore, hreceived, hdirect⟩

/-! ## Methods of one object -/

section Methods

variable {names : List String} {access o t x : Tree} {name : String} {v : Value} {s₀ s s₁ s₂ : State W}
  (hR : M.RespectsIn (Like names) (UnreadAll names)) (ho : access.object? = some o)
  (hkey : ∀ o key link, access = .index o key link → key.UnreadAll names)
  (ht : ∀ w m, M.openValue t s₀ = (.ok (some w), m) → w = v ∧ m = s₁) (hx : M.eval x s = (.ok v, s₂)) (hlike : Like names s₁ s₂)

include hR ho hkey ht hx hlike

/-- What is got from the object in one expression is got from it in the other one. -/
theorem exists_openValue {f : Value} {linked : Bool} {m : State W}
    (h : M.openValue (access.onObject t linked) s₀ = (.ok (some f), m)) :
    M.member access v s₁ = (.ok f, m) ∧ M.openValue x s = (.ok (some v), s₂) ∧
      ∃ m', M.member access v s₂ = (.ok f, m') ∧ Like names m m' := by
  obtain ⟨w, m₁, hw, hmember⟩ := exists_of_openValue_access ho h
  obtain ⟨rfl, rfl⟩ := ht w m₁ hw
  refine ⟨hmember, openValue_of_eval hx (not_nullish_of_member hmember), ?_⟩
  exact (alike_member hR hkey w).ok hmember hlike

/-- A call with the object as its explicit receiver can be made direct. -/
theorem approach_method {word : String} {linked linked' link link' lk : Bool} {method : Method} {rest direct : List Tree}
    (hword : Method.ofName? word = some method) (hd : method.directArguments rest = some direct)
    (hn : name ≠ "undefined") (hname : s₁.store.vars name = some v) (hsteady : M.Steady name access)
    (hdirect : ∀ p ∈ direct, p.UnreadAll names) {i j : Invocation} {s' : State W}
    (hi : M.approach (.member (access.onObject t linked) word lk) (.reference name :: rest) link s₀ = (.ok (some i), s'))
    (hj : std.Makes s'.store i j) (hcallable : std.callable j.function) :
    ∃ n, M.approach (access.onObject x linked') direct link' s = (.ok (some j), n) := by
  obtain ⟨m, m', m'', n, hfunction, hstore, hreceiver, hargs⟩ := exists_of_explicit hword hd (by simp) hi hj hcallable
  obtain ⟨hmember, hobject, m₂, hmember', hlike'⟩ := exists_openValue hR ho hkey ht hx hlike hfunction
  rw [eval_reference M hn, readVariable_ok] at hreceiver
  obtain ⟨hthis, rfl⟩ := hreceiver
  have hthis : j.this = v := by
    rw [hstore, hsteady _ _ _ _ hmember, hname] at hthis
    exact (Option.some.inj hthis).symm
  have hlike'' : Like names m' m₂ := by
    rw [Like, hstore]
    exact hlike'
  obtain ⟨n', hargs', -⟩ := (hR.valuesOf hdirect).ok hargs hlike''
  refine ⟨n', ?_⟩
  rw [approach_access_ok ho hobject hmember' (fun _ => std.not_nullish _ hcallable) hargs', ← hthis]

/-- A method of the function that is got is called as before. -/
theorem approach_method_of {word : String} {linked linked' link lk lk' : Bool} {args : List Tree}
    (hargs : ∀ p ∈ args, p.UnreadAll names) {i : Invocation} {s' : State W}
    (hi : M.approach (.member (access.onObject t linked) word lk) args link s₀ = (.ok (some i), s')) :
    ∃ n, M.approach (.member (access.onObject x linked') word lk') args false s = (.ok (some i), n) := by
  have hmember : ∀ (t : Tree) (lk : Bool), (Tree.member t word lk).object? = some t := fun _ _ => rfl
  obtain ⟨m, m', hfunction, hmethod, hvs⟩ := exists_of_approach_access (hmember (access.onObject t linked) lk) hi
  obtain ⟨-, hobject, m₂, hfunction₂, hlike'⟩ := exists_openValue hR ho hkey ht hx hlike hfunction
  obtain ⟨n, hmethod', hlike''⟩ := (alike_member hR (by simp) i.this).ok hmethod hlike'
  obtain ⟨n', hvs', -⟩ := (hR.valuesOf hargs).ok hvs hlike''
  have hfunction' : M.openValue (access.onObject x linked') s = (.ok (some i.this), m₂) := by
    rw [openValue_access M ho, bind_ok hobject]
    simp only [not_nullish_of_member hfunction₂, Bool.and_false, Bool.false_eq_true, if_false]
    rw [bind_ok hfunction₂]
    rfl
  exact ⟨n', approach_access_ok (hmember (access.onObject x linked') lk') hfunction' hmethod' (by simp) hvs'⟩

end Methods

end Standard

/-! ## What is stored in the token -/

/-- A variable, or an assignment to it: its value is that of the variable. -/
theorem vars_of_eval {t : Tree} {name : String} (h : t.Stores name) (hn : name ≠ "undefined") {v : Value} {s s' : State W}
    (hv : M.eval t s = (.ok v, s')) : s'.store.vars name = some v := by
  rcases h with rfl | ⟨w, rfl⟩
  · rw [eval_reference M hn, readVariable_ok] at hv
    rw [← hv.2]
    exact hv.1
  · rw [eval_assign] at hv
    obtain ⟨u, m, -, h⟩ := of_bind_ok hv
    obtain ⟨_, m', hset, hpure⟩ := of_bind_ok h
    obtain ⟨rfl, rfl⟩ := pure_ok.1 hpure
    rw [← (Prod.mk.inj hset).2]
    simp

/-- The value of an assignment is stored in the variable. -/
theorem exists_of_openValue_assign {t : Tree} {name : String} {v : Value} {s s' : State W}
    (h : M.openValue (.assign .plain (.reference name) t) s = (.ok (some v), s')) :
    (∀ w m, M.eval t s = (.ok w, m) → v = w) ∧ M.store t name s = (.ok (), s') := by
  rw [openValue, refer, refer_eval, bind_assoc] at h
  obtain ⟨u, m, hu, h⟩ := of_bind_ok h
  rw [bind_assoc] at h
  obtain ⟨_, m', hset, h⟩ := of_bind_ok h
  obtain ⟨heq, rfl⟩ := pure_ok.1 (show (pure (some u) : Eval W (Option Value)) m' = _ from h)
  obtain rfl := Option.some.inj heq
  refine ⟨fun w n hw => ?_, by rw [store, bind_ok hu, hset]⟩
  rw [hu] at hw
  exact Except.ok.inj (Prod.mk.inj hw).1

theorem exists_of_store {t : Tree} {name : String} {s s₁ : State W} (h : M.store t name s = (.ok (), s₁)) :
    ∃ v s₂, M.eval t s = (.ok v, s₂) ∧ s₁.store.vars name = some v ∧ Like [name] s₁ s₂ ∧
      (s₂.store.vars name = some v → Like [] s₁ s₂) := by
  obtain ⟨v, s₂, hv, hset⟩ := of_bind_ok h
  obtain rfl := (Prod.mk.inj hset).2
  refine ⟨v, s₂, hv, by simp, ⟨rfl, fun n hn => ?_⟩, fun hsame => ⟨rfl, fun n _ => ?_⟩⟩
  · simp only [List.mem_singleton] at hn
    simp [hn]
  · by_cases hn : n = name
    · simp [hn, hsame]
    · simp [hn]

/-- The receiver of an access is its object, if nothing sets the receiver before it is read. -/
theorem eval_receiver {receiver o target : Tree} {name : String} (hr : ReceiverCall.isReceiverOf receiver o = true)
    (hsteady : ∀ n, receiver = .reference n → n ≠ "undefined" ∧ n ≠ name ∧ M.Steady n target) {object f this : Value}
    {s m s₁ s₂ s₃ : State W} (hobject : M.openValue o s = (.ok (some object), m)) (hf : M.member target object m = (.ok f, s₂))
    (hlike : Like [name] s₁ s₂) (hthis : M.eval receiver s₁ = (.ok this, s₃)) : this = object ∧ s₃ = s₁ := by
  have heval : M.eval o s = (.ok object, m) := by
    rw [eval_eq_openValue, bind_ok hobject]
    rfl
  have hvariable : ∀ n, receiver = .reference n → o.Stores n → this = object ∧ s₃ = s₁ := by
    rintro n rfl hstores
    obtain ⟨hn, hne, hsteady⟩ := hsteady n rfl
    rw [eval_reference M hn, readVariable_ok] at hthis
    have hvars := vars_of_eval hstores hn heval
    rw [← hsteady _ _ _ _ hf, ← hlike.2 n (by simpa using hne), hthis.1] at hvars
    exact ⟨Option.some.inj hvars, hthis.2.symm⟩
  unfold ReceiverCall.isReceiverOf at hr
  split at hr
  · rw [eval_this] at hthis heval
    obtain ⟨rfl, rfl⟩ := pure_ok.1 hthis
    obtain ⟨rfl, -⟩ := pure_ok.1 heval
    exact ⟨rfl, rfl⟩
  · exact hvariable _ rfl (.inl (by rw [beq_iff_eq.1 hr]))
  · obtain ⟨⟨n', w⟩, ha, heq⟩ := (Option.any_eq_true _ _).1 hr
    obtain rfl := beq_iff_eq.1 heq
    exact hvariable _ rfl (.inr ⟨w, eq_of_assignment? ha⟩)
  · exact absurd hr (by simp)

/-- The value of the expression is in the variable: the states are those with and without it. -/
structure Stored (M : Machine W) (names : List String) (t : Tree) (name : String) (v : Value) (s s₁ s₂ : State W) : Prop where
  eval : M.eval t s = (.ok v, s₂)
  vars : s₁.store.vars name = some v
  like : Like names s₁ s₂
  likeName : Like [name] s₁ s₂

section Stored

variable {names : List String} {x : Tree} {name : String} {v : Value} {s s₁ s₂ : State W} (hs : M.Stored names x name v s s₁ s₂)
  (hR : M.RespectsIn (Like names) (UnreadAll names))

include hs

theorem Stored.openValue_reference (hn : name ≠ "undefined") : M.openValue (.reference name) s₁ = (.ok (some v), s₁) := by
  rw [Machine.openValue_reference hn, bind_ok (readVariable_ok.2 ⟨hs.vars, rfl⟩)]
  rfl

theorem Stored.refer_reference (hn : name ≠ "undefined") : M.refer (.reference name) s₁ = (.ok (some (.value v)), s₁) := by
  rw [Machine.refer_reference hn, eval_reference M hn, bind_ok (readVariable_ok.2 ⟨hs.vars, rfl⟩)]
  rfl

theorem Stored.refer_unbound (hx : ∀ u, x ≠ .spread u) : M.refer x.unbound s = (.ok (some (.value v)), s₂) := by
  rw [Machine.refer_unbound hx, bind_ok hs.eval]
  rfl

include hR

/-- A value is called without an object, whatever it is read off. -/
theorem Stored.approach_value {callee callee' : Tree} {args : List Tree} {link : Bool} {i : Invocation} {s' : State W}
    (h : M.refer callee s₁ = (.ok (some (.value v)), s₁)) (h' : M.refer callee' s = (.ok (some (.value v)), s₂))
    (hv : v.isNullish = false) (hargs : ∀ a ∈ args, a.UnreadAll names)
    (hi : M.approach callee args link s₁ = (.ok (some i), s')) : ∃ n, M.approach callee' args true s = (.ok (some i), n) := by
  obtain ⟨vs, hvs, rfl⟩ := exists_of_approach_value h hi
  obtain ⟨n, hvs', -⟩ := (hR.valuesOf hargs).ok hvs hs.like
  exact ⟨n, approach_value_ok h' (fun _ => hv) hvs'⟩

/-- A stored value that is called directly has no object, if the expression that it is read off passes none on. -/
theorem Stored.approach_token {args : List Tree} {link : Bool} (hn : name ≠ "undefined")
    (hx : x.isMember = true ∨ x.place? [] false = none) (hargs : ∀ a ∈ args, a.UnreadAll names) {i : Invocation} {s' : State W}
    (hnullish : i.function.isNullish = false) (hi : M.approach (.reference name) args link s₁ = (.ok (some i), s')) :
    ∃ n, M.approach (if x.isMember then x.unbound else x) args true s = (.ok (some i), n) := by
  obtain ⟨_, -, hfunction⟩ := exists_of_approach_value (hs.refer_reference hn) hi
  have hv : v.isNullish = false := by rwa [hfunction] at hnullish
  refine hs.approach_value hR (hs.refer_reference hn) ?_ hv hargs hi
  cases hm : x.isMember with
  | true =>
    refine hs.refer_unbound ?_
    rintro u rfl
    exact absurd hm (by simp [isMember, isAccess, object?])
  | false =>
    rw [if_neg (by simp), refer_of_place? M (hx.resolve_left (by simp [hm])), bind_ok (openValue_of_eval hs.eval hv)]
    rfl

/-- A stored method that is called on its own object can be called directly. -/
theorem Stored.approach_stored {std : M.Standard} {o receiver : Tree} {word : String} {link lk : Bool} {method : Method}
    {rest direct : List Tree} (ho : x.object? = some o) (hword : Method.ofName? word = some method)
    (hd : method.directArguments rest = some direct) (hn : name ≠ "undefined")
    (hr : ReceiverCall.isReceiverOf receiver o = true)
    (hsteady : ∀ n, receiver = .reference n → n ≠ "undefined" ∧ n ≠ name ∧ M.Steady n x)
    (hdirect : ∀ p ∈ direct, p.UnreadAll names) {i j : Invocation} {s' : State W}
    (hi : M.approach (.member (.reference name) word lk) (receiver :: rest) link s₁ = (.ok (some i), s'))
    (hj : std.Makes s'.store i j) (hcallable : std.callable j.function) :
    ∃ n, M.approach x direct true s = (.ok (some j), n) := by
  have hspread : ∀ u, receiver ≠ .spread u := by
    rintro u rfl
    exact absurd hr (by simp [ReceiverCall.isReceiverOf])
  obtain ⟨m, m', m'', n, hfunction, hstore, hreceiver, hargs⟩ := Standard.exists_of_explicit hword hd hspread hi hj hcallable
  rw [hs.openValue_reference hn] at hfunction
  obtain ⟨hv, rfl⟩ := Prod.mk.inj hfunction
  obtain rfl : v = j.function := Option.some.inj (Except.ok.inj hv)
  have hself := onObject_isLink ho
  have hopen := openValue_of_eval hs.eval (std.not_nullish _ hcallable)
  rw [← hself] at hopen
  obtain ⟨object, m₀, hobject, hmember⟩ := exists_of_openValue_access ho hopen
  have hlike : ∀ {names : List String}, Like names s₁ s₂ → Like names m' s₂ := by
    intro names h
    rw [Like, hstore]
    exact h
  obtain ⟨rfl, rfl⟩ := eval_receiver hr hsteady hobject hmember (hlike hs.likeName) hreceiver
  obtain ⟨n', hargs', -⟩ := (hR.valuesOf hdirect).ok hargs (hlike hs.like)
  refine ⟨n', ?_⟩
  rw [← hself]
  exact approach_access_ok ho hobject hmember (fun _ => std.not_nullish _ hcallable) hargs'

end Stored

end Machine

end Chainlift

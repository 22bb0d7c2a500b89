import Chainlift.Spine.Fold
import Mathlib.Algebra.Order.BigOperators.Group.List
import Mathlib.Algebra.Order.Ring.Nat

/-!
# What folding changes

A variable that is assigned as often as it is used is not read (`Tree.Unread`), and only such a variable is unwrapped. Unwrapping
it takes its uses away and leaves those of the other variables. Folding does not change the form of an expression that is
neither a call nor an assignment.
-/

namespace Chainlift.Tree

/-- The variable is assigned as often as it is used, so it is not read. -/
def Unread (name : String) (t : Tree) : Prop := t.uses name = t.assignmentCount name

instance (name : String) (t : Tree) : Decidable (t.Unread name) := inferInstanceAs (Decidable (_ = _))

/-! ## Nodes -/

theorem mem_nodesAll {t : Tree} {ts : List Tree} : t ∈ nodesAll ts ↔ ∃ u ∈ ts, t ∈ u.nodes := by
  induction ts with
  | nil => simp [nodesAll]
  | cons u us ih => simp [nodesAll, ih]

theorem mem_nodes_self (t : Tree) : t ∈ t.nodes := by
  obtain ⟨f, ps⟩ := t
  rw [nodes]
  exact List.mem_cons_self

theorem mem_nodes_part {f : Form} {ps : List Tree} {p t : Tree} (hp : p ∈ ps) (ht : t ∈ p.nodes) : t ∈ (node f ps).nodes := by
  rw [nodes]
  exact List.mem_cons_of_mem _ (mem_nodesAll.2 ⟨p, hp, ht⟩)

theorem forall_nodes_node {P : Tree → Prop} {f : Form} {ps : List Tree} :
    (∀ t ∈ (node f ps).nodes, P t) ↔ P (node f ps) ∧ ∀ p ∈ ps, ∀ t ∈ p.nodes, P t := by
  constructor
  · exact fun h => ⟨h _ (mem_nodes_self _), fun p hp t ht => h t (mem_nodes_part hp ht)⟩
  · rintro ⟨hown, hps⟩ t ht
    rw [nodes] at ht
    rcases List.mem_cons.1 ht with rfl | ht
    · exact hown
    · obtain ⟨p, hp, ht⟩ := mem_nodesAll.1 ht
      exact hps p hp t ht

/-! ## Counting -/

theorem usesAll_eq_sum (name : String) (ts : List Tree) :
    (referencesAll ts).count name = (ts.map (·.uses name)).sum := by
  induction ts with
  | nil => rfl
  | cons t ts ih =>
    rw [referencesAll, List.count_append, ih]
    rfl

theorem uses_node (f : Form) (ps : List Tree) (name : String) :
    (node f ps).uses name = (ownReferences f).count name + (ps.map (·.uses name)).sum := by
  show (references (node f ps)).count name = _
  rw [references, List.count_append, usesAll_eq_sum]

theorem assignmentsAll_eq_sum (name : String) (ts : List Tree) :
    (assignmentsAll ts).count name = (ts.map (·.assignmentCount name)).sum := by
  induction ts with
  | nil => rfl
  | cons t ts ih =>
    rw [assignmentsAll, List.count_append, ih]
    rfl

theorem assignmentCount_node {f : Form} (hf : f.isFunction = false) (ps : List Tree) (name : String) :
    (node f ps).assignmentCount name = (ownAssignments f ps).count name + (ps.map (·.assignmentCount name)).sum := by
  show (assignments (node f ps)).count name = _
  rw [assignments, if_neg (by simp [hf]), List.count_append, assignmentsAll_eq_sum]

theorem ownReferences_eq {f : Form} (h : ∀ name, f ≠ .reference name) : ownReferences f = [] := by
  unfold ownReferences
  split
  · exact absurd rfl (h _)
  · rfl

theorem mem_ownAssignments {name : String} {f : Form} {ps : List Tree} :
    name ∈ ownAssignments f ps ↔ f = .assign .plain ∧ ∃ rest, ps = .reference name :: rest := by
  unfold ownAssignments
  split
  · rename_i n rest
    rw [List.mem_singleton]
    constructor
    · rintro rfl
      exact ⟨rfl, rest, rfl⟩
    · rintro ⟨-, _, heq⟩
      exact (Form.reference.inj (Tree.node.inj (List.cons.inj heq).1).1).symm
  · rename_i hne
    constructor
    · exact fun h => absurd h (by simp)
    · rintro ⟨rfl, rest, rfl⟩
      exact absurd rfl (hne name rest rfl)

theorem ownAssignments_eq {f : Form} (h : f ≠ .assign .plain) (ps : List Tree) : ownAssignments f ps = [] :=
  List.eq_nil_iff_forall_not_mem.2 fun _ hn => h (mem_ownAssignments.1 hn).1

mutual

/-- A variable is used at least as often as it is assigned: the target of an assignment is a use. -/
theorem assignmentCount_le_uses (name : String) : ∀ t : Tree, t.assignmentCount name ≤ t.uses name
  | .node f ps => by
    unfold assignmentCount uses assignments references
    simp only [List.count_append]
    have h := assignmentsAll_le name ps
    by_cases hf : f.isFunction = true
    · simp only [hf, if_true, List.count_nil, Nat.zero_le]
    · simp only [hf, Bool.false_eq_true, if_false, List.count_append]
      unfold ownAssignments
      split
      · rename_i target rest
        have hrest := assignmentsAll_le name rest
        simp only [assignmentsAll, referencesAll, assignments, references, ownAssignments, ownReferences, Form.isFunction,
          List.count_append, Bool.false_eq_true, if_false, List.append_nil, List.nil_append]
        omega
      · simp only [List.count_nil]
        omega

theorem assignmentsAll_le (name : String) :
    ∀ ts : List Tree, (assignmentsAll ts).count name ≤ (referencesAll ts).count name
  | [] => Nat.le_refl _
  | t :: ts => by
    have ht := assignmentCount_le_uses name t
    have hts := assignmentsAll_le name ts
    unfold assignmentCount uses at ht
    simp only [assignmentsAll, referencesAll, List.count_append]
    omega

end

theorem Unread.of_uses {name : String} {t : Tree} (h : t.uses name = 0) : t.Unread name := by
  have := assignmentCount_le_uses name t
  unfold Unread
  omega

/-- The parts of a node that does not assign the variable itself. -/
theorem unread_parts {name : String} {f : Form} {ps : List Tree} (hf : f.isFunction = false) (ho : name ∉ ownAssignments f ps)
    (h : (Tree.node f ps).Unread name) : ∀ p ∈ ps, p.Unread name := by
  unfold Unread uses assignmentCount references assignments at h
  simp only [hf, List.count_eq_zero.2 ho, Bool.false_eq_true, if_false, List.count_append, Nat.zero_add] at h
  have hall : (referencesAll ps).count name = (assignmentsAll ps).count name := by
    have := assignmentsAll_le name ps
    omega
  clear h ho hf f
  induction ps with
  | nil => simp
  | cons p ps ih =>
    have hp := assignmentCount_le_uses name p
    have hps := assignmentsAll_le name ps
    unfold uses assignmentCount at hp
    simp only [referencesAll, assignmentsAll, List.count_append] at hall
    simp only [List.mem_cons, forall_eq_or_imp]
    refine ⟨?_, ih ?_⟩
    · unfold Unread uses assignmentCount
      omega
    · omega

/-- The parts of a node that assigns nothing itself. -/
theorem unread_node {name : String} {f : Form} {ps : List Tree} (hf : f.isFunction = false) (ho : ownAssignments f ps = [])
    (h : (Tree.node f ps).Unread name) : ∀ p ∈ ps, p.Unread name := unread_parts hf (by simp [ho]) h

/-- A reference is a read. -/
theorem Unread.form_ne {name : String} {t : Tree} (h : t.Unread name) : t.form ≠ .reference name := by
  obtain ⟨f, ps⟩ := t
  rintro (rfl : f = .reference name)
  have hle := assignmentsAll_le name ps
  simp only [Unread, uses, assignmentCount, references, assignments, ownReferences, ownAssignments, Form.isFunction,
    List.count_append, List.count_singleton_self, List.count_nil, Bool.false_eq_true, if_false] at h
  omega

theorem not_unread_reference (name : String) : ¬ (reference name).Unread name := fun h => h.form_ne rfl

theorem unread_assign {name n : String} {v : Tree} (h : (assign .plain (.reference n) v).Unread name) : v.Unread name := by
  unfold Unread uses assignmentCount at h ⊢
  simp only [references, assignments, referencesAll, assignmentsAll, ownReferences, ownAssignments, Form.isFunction,
    List.count_append, Bool.false_eq_true, if_false, List.append_nil, List.nil_append] at h
  omega

/-! ## Unwrapping -/

theorem eq_of_assignment? {t : Tree} {name : String} {v : Tree} (h : t.assignment? = some (name, v)) :
    t = .assign .plain (.reference name) v := by
  unfold assignment? at h
  split at h
  · obtain ⟨rfl, rfl⟩ := Prod.mk.inj (Option.some.inj h)
    rfl
  · exact absurd h (by simp)

theorem eq_of_asVariable? {t : Tree} {name : String} (h : t.asVariable? = some name) : t = .reference name := by
  unfold asVariable? at h
  split at h
  · rw [Option.some.inj h]
  · exact absurd h (by simp)

theorem eq_of_asTarget? {t target : Tree} (h : t.asTarget? = some target) : target = t := by
  unfold asTarget? at h
  split at h
  · exact (Option.some.inj h).symm
  · exact absurd h (by simp)

theorem uses_assign (m name : String) (v : Tree) :
    (assign .plain (.reference name) v).uses m = [name].count m + v.uses m := by
  simp only [uses, references, referencesAll, ownReferences, List.append_nil, List.nil_append, List.count_append]

theorem assignmentCount_assign (m name : String) (v : Tree) :
    (assign .plain (.reference name) v).assignmentCount m = [name].count m + v.assignmentCount m := by
  simp only [assignmentCount, assignments, assignmentsAll, ownAssignments, Form.isFunction, List.append_nil, List.nil_append,
    List.count_append, Bool.false_eq_true, if_false]

theorem uses_unwrapOne {m name : String} (h : m ≠ name) (t : Tree) : (t.unwrapOne name).uses m = t.uses m := by
  unfold unwrapOne
  split
  · rename_i assigned value ha
    obtain rfl := eq_of_assignment? ha
    split
    · rename_i hn
      rw [uses_assign, List.count_singleton, beq_iff_eq.1 hn]
      simp [Ne.symm h]
    · rfl
  · rfl

mutual

/-- The uses of other variables stay. -/
theorem uses_unwrap {m name : String} (h : m ≠ name) : ∀ t : Tree, (t.unwrap name).uses m = t.uses m
  | .node f ps => by
    have hps := usesAll_unwrapAll h ps
    unfold unwrap
    split
    · rfl
    · rw [uses_unwrapOne h]
      simp only [uses, references, List.count_append, hps]

theorem usesAll_unwrapAll {m name : String} (h : m ≠ name) :
    ∀ ts : List Tree, (referencesAll (unwrapAll name ts)).count m = (referencesAll ts).count m
  | [] => rfl
  | t :: ts => by
    have ht := uses_unwrap h t
    have hts := usesAll_unwrapAll h ts
    unfold uses at ht
    simp only [unwrapAll, referencesAll, List.count_append, ht, hts]

end

theorem unwrapAll_eq_map (name : String) (ts : List Tree) : unwrapAll name ts = ts.map (unwrap name) := by
  induction ts with
  | nil => rfl
  | cons t ts ih => rw [unwrapAll, ih, List.map_cons]

mutual

/-- Without a use there is nothing to be unwrapped. -/
theorem unwrap_of_uses {name : String} : ∀ {t : Tree}, t.uses name = 0 → t.unwrap name = t
  | .node f ps, h => by
    rw [uses_node] at h
    have hps : unwrapAll name ps = ps := unwrapAll_of_uses (by rw [usesAll_eq_sum]; omega)
    unfold unwrap
    split
    · rfl
    · rw [hps]
      unfold unwrapOne
      split
      · rename_i assigned value ha
        have hn : assigned ≠ name := by
          rintro rfl
          have := congrArg (uses · assigned) (eq_of_assignment? ha)
          simp only [uses_assign, List.count_singleton_self] at this
          rw [uses_node] at this
          omega
        simp [hn]
      · rfl

theorem unwrapAll_of_uses {name : String} : ∀ {ts : List Tree}, (referencesAll ts).count name = 0 → unwrapAll name ts = ts
  | [], _ => rfl
  | t :: ts, h => by
    simp only [referencesAll, List.count_append] at h
    rw [unwrapAll, unwrap_of_uses (by unfold uses; omega), unwrapAll_of_uses (by omega)]

end

theorem unwrap_assign (name n : String) (v : Tree) :
    (assign .plain (.reference n) v).unwrap name = if n = name then v.unwrap name else .assign .plain (.reference n) (v.unwrap name) := by
  simp [unwrap, unwrapAll, unwrapOne, assignment?, Form.isFunction]

/-- Below a node of another form nothing but the parts changes. -/
theorem unwrap_node {f : Form} (hf : f.isFunction = false) (ha : f ≠ .assign .plain) (name : String) (ps : List Tree) :
    (node f ps).unwrap name = .node f (ps.map (unwrap name)) := by
  unfold unwrap
  rw [if_neg (by simp [hf]), unwrapAll_eq_map]
  unfold unwrapOne
  split
  · rename_i h
    exact absurd (Tree.node.inj (eq_of_assignment? h)).1 ha
  · rfl

/-- Assignments are unwrapped outside functions, in a node after its parts. -/
theorem unwrap_induct {motive : Tree → Tree → Prop} (name : String)
    (function : ∀ f ps, f.isFunction = true → motive (node f ps) (node f ps))
    (parts : ∀ f ps, f.isFunction = false → (∀ p ∈ ps, motive p (p.unwrap name)) →
      motive (node f ps) (unwrapOne name (.node f (ps.map (unwrap name))))) (t : Tree) : motive t (t.unwrap name) := by
  induction t with
  | node f ps ih =>
    unfold unwrap
    split
    · rename_i hf
      exact function f ps hf
    · rename_i hf
      rw [unwrapAll_eq_map]
      exact parts f ps (by simpa using hf) ih

/-! ## Forms -/

/-- Folding changes the form of calls and assignments only. -/
def isFoldable (t : Tree) : Bool :=
  match t.form with
  | .call _ | .assign _ => true
  | _ => false

theorem foldCall_of_form {name : String} {t : Tree} (h : t.isFoldable = false) : t.foldCall name = t := by
  unfold foldCall
  split
  · exact absurd h (by simp [isFoldable, form])
  · rfl

theorem unwrapOne_of_form {name : String} {t : Tree} (h : t.isFoldable = false) : t.unwrapOne name = t := by
  unfold unwrapOne assignment?
  split
  · rename_i heq
    split at heq
    · exact absurd h (by simp [isFoldable, form])
    · exact absurd heq (by simp)
  · rfl

theorem form_foldCalls {name : String} {t : Tree} (h : t.isFoldable = false) : (t.foldCalls name).form = t.form := by
  obtain ⟨f, ps⟩ := t
  unfold foldCalls
  split
  · rfl
  · rw [foldCall_of_form (by exact h)]
    rfl

theorem form_unwrap {name : String} {t : Tree} (h : t.isFoldable = false) : (t.unwrap name).form = t.form := by
  obtain ⟨f, ps⟩ := t
  unfold unwrap
  split
  · rfl
  · rw [unwrapOne_of_form (by exact h)]
    rfl

theorem form_fold {name : String} {t : Tree} (h : t.isFoldable = false) : (t.fold name).form = t.form := by
  have hc : (t.foldCalls name).form = t.form := form_foldCalls h
  unfold fold
  simp only
  split
  · rw [form_unwrap (by unfold isFoldable; rw [hc]; exact h), hc]
  · exact hc

theorem form_foldEach {t : Tree} (h : t.isFoldable = false) (names : List String) : (t.foldEach names).1.form = t.form := by
  induction names generalizing t with
  | nil => rfl
  | cons name names ih =>
    have hf : (t.fold name).form = t.form := form_fold h
    unfold foldEach
    simp only
    split
    · rw [ih (by unfold isFoldable; rw [hf]; exact h), hf]
    · exact ih h

theorem foldCallsAll_eq_map (name : String) (ts : List Tree) : foldCallsAll name ts = ts.map (foldCalls name) := by
  induction ts with
  | nil => rfl
  | cons t ts ih => rw [foldCallsAll, ih, List.map_cons]

theorem foldCalls_node {f : Form} (hf : f.isFunction = false) (name : String) (ps : List Tree) :
    (node f ps).foldCalls name = foldCall name (.node f (ps.map (foldCalls name))) := by
  unfold foldCalls
  rw [if_neg (by simp [hf]), foldCallsAll_eq_map]

/-- Calls are folded outside functions, in a node after its parts. -/
theorem foldCalls_induct {motive : Tree → Tree → Prop} (name : String)
    (function : ∀ f ps, f.isFunction = true → motive (node f ps) (node f ps))
    (parts : ∀ f ps, f.isFunction = false → (∀ p ∈ ps, motive p (p.foldCalls name)) →
      motive (node f ps) (foldCall name (.node f (ps.map (foldCalls name))))) (t : Tree) : motive t (t.foldCalls name) := by
  induction t with
  | node f ps ih =>
    cases hf : f.isFunction with
    | true =>
      rw [foldCalls, if_pos hf]
      exact function f ps hf
    | false =>
      rw [foldCalls_node hf]
      exact parts f ps hf ih

/-! ## Explicit calls -/

theorem eq_cons_of_splitReceiver? {args rest : List Tree} {receiver : Tree}
    (h : ReceiverCall.splitReceiver? args = some (receiver, rest)) : args = receiver :: rest := by
  unfold ReceiverCall.splitReceiver? at h
  split at h
  · exact absurd h (by simp)
  · obtain ⟨rfl, rfl⟩ := Prod.mk.inj (Option.some.inj h)
    rfl
  · exact absurd h (by simp)

/-- A direct call passes what is passed on by `call`, the elements of an array without holes, or what another list is spread to. -/
theorem directArguments_eq_some {method : Method} {rest direct : List Tree} (h : method.directArguments rest = some direct) :
    method = .call ∧ rest = direct ∨ method = .apply ∧ (rest = [] ∧ direct = [] ∨
      rest = [.array direct] ∧ (∀ e ∈ direct, e.form ≠ .absent) ∨
      ∃ list, rest = [list] ∧ (∀ u, list ≠ .spread u) ∧ direct = [.spread list]) := by
  cases method with
  | call => exact .inl ⟨rfl, Option.some.inj h⟩
  | apply =>
    simp only [Method.directArguments] at h
    unfold Method.appliedArguments at h
    split at h
    · exact .inr ⟨rfl, .inl ⟨rfl, (Option.some.inj h).symm⟩⟩
    · split at h
      · rename_i hall
        obtain rfl := Option.some.inj h
        exact .inr ⟨rfl, .inr (.inl ⟨rfl, by simpa using hall⟩)⟩
      · exact absurd h (by simp)
    · exact absurd h (by simp)
    · rename_i list _ hspread
      exact .inr ⟨rfl, .inr (.inr ⟨list, rfl, fun u heq => hspread u (by rw [heq]), (Option.some.inj h).symm⟩)⟩
    · exact absurd h (by simp)
  | bind => exact absurd h (by simp [Method.directArguments])

/-- A call that is folded is one of a method of the assigned variable, with the variable as its receiver. -/
theorem exists_of_foldCall {name : String} {callee : Tree} {args : List Tree} {link : Bool}
    (h : foldCall name (.call callee args link) ≠ .call callee args link) :
    ∃ function word linked object value method rest direct, callee = .member function word linked ∧
      Method.ofName? word = some method ∧ function.object? = some object ∧ object.assignment? = some (name, value) ∧
      args = .reference name :: rest ∧ method.directArguments rest = some direct ∧
      foldCall name (.call callee args link) = .call (function.onObject value function.isLink) direct (link || linked) := by
  unfold foldCall at h ⊢
  split at h
  · rename_i link word linked function args heq
    obtain ⟨hf, hps⟩ := Tree.node.inj heq
    obtain ⟨rfl, rfl⟩ := List.cons.inj hps
    obtain rfl := Form.call.inj hf
    simp only at h ⊢
    have hsome : ∀ {o : Option Tree} {t : Tree}, o.getD t ≠ t → ∃ u, o = some u := by
      intro o t h
      cases o with
      | none => exact absurd rfl h
      | some u => exact ⟨u, rfl⟩
    obtain ⟨u, hu⟩ := hsome h
    rw [hu]
    simp only [Option.bind_eq_bind, Option.bind_eq_some_iff] at hu
    obtain ⟨object, ho, ⟨assigned, value⟩, ha, method, hm, ⟨receiver, rest⟩, hr, direct, hd, hif⟩ := hu
    split at hif
    · rename_i hn
      rw [Bool.and_eq_true, beq_iff_eq, beq_iff_eq] at hn
      obtain ⟨rfl, hn⟩ := hn
      obtain rfl := eq_of_asVariable? hn
      exact ⟨function, word, linked, object, value, method, rest, direct, rfl, hm, ho, ha, eq_cons_of_splitReceiver? hr, hd,
        (Option.some.inj hif).symm⟩
    · exact absurd hif (by simp)
  · exact absurd rfl h

/-- A call stays as it is, or it is the call of a method of `name = value` with an explicit receiver and is made directly. -/
theorem foldCall_cases (name : String) (callee : Tree) (args : List Tree) (link : Bool) :
    foldCall name (.call callee args link) = .call callee args link ∨
    ∃ function word linked object value method receiver rest direct, callee = .member function word linked ∧
      Method.ofName? word = some method ∧ function.object? = some object ∧ object.assignment? = some (name, value) ∧
      ReceiverCall.splitReceiver? args = some (receiver, rest) ∧ method.directArguments rest = some direct ∧
      foldCall name (.call callee args link) = .call (function.onObject value function.isLink) direct (link || linked) := by
  by_cases h : foldCall name (.call callee args link) = .call callee args link
  · exact .inl h
  · obtain ⟨function, word, linked, object, value, method, rest, direct, hc, hm, ho, ha, rfl, hd, heq⟩ := exists_of_foldCall h
    exact .inr ⟨function, word, linked, object, value, method, _, rest, direct, hc, hm, ho, ha, rfl, hd, heq⟩

/-- A call is folded only if its callee is reached through an assigned variable. -/
theorem foldCall_eq {name : String} {callee : Tree} {args : List Tree} {link : Bool}
    (h : ∀ o, callee.object?.bind object? = some o → o.assignment? = none) :
    foldCall name (.call callee args link) = .call callee args link := by
  unfold foldCall
  split
  · rename_i function _ heq
    obtain ⟨rfl, -⟩ := List.cons.inj (Tree.node.inj heq).2
    cases hf : function.object? with
    | none => rfl
    | some o => simp [h o (by exact hf)]
  · rfl

/-- A call is folded only if its callee is `call`, `apply` or `bind`. -/
theorem foldCall_of_name {name : String} {callee : Tree} {args : List Tree} {link : Bool}
    (h : ∀ o word linked, callee = .member o word linked → Method.ofName? word = none) :
    foldCall name (.call callee args link) = .call callee args link := by
  unfold foldCall
  split
  · rename_i function _ heq
    obtain ⟨rfl, -⟩ := List.cons.inj (Tree.node.inj heq).2
    rw [h _ _ _ rfl]
    cases function.object? with
    | none => rfl
    | some o => cases o.assignment? <;> simp
  · rfl

end Chainlift.Tree

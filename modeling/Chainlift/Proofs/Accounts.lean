import Chainlift.Proofs.Additive
import Chainlift.Proofs.Counting
import Chainlift.Proofs.Targets

/-!
# What becomes of uses when temporaries are folded

An assignment uses the variable that it assigns. So a variable is assigned no more often than it is used, and as often exactly if each
of its uses is the target of `=` outside nested functions (`Tree.assigned_among_uses`). Then, and only then, unwrapping these
assignments leaves no use of it.

Folding a variable into an expression keeps the uses of all others and the assignments to them. So the account of a folding is even: a
variable that was folded has no use left, and any other has as many as before (`Tree.foldAssigned_counts`).

All this is about expressions in which something that can stand there is at the left of each `=` (`Tree.AssignsTargets`), as in every
program: were an assignment to stand there, then unwrapping it would put another target in its place.
-/

namespace Chainlift

open Tree

namespace Tree

variable {m name : String} {f : Form} {ps : List Tree}

/-! ## Assigned uses -/

/-- At the address stands the variable as the target of `=`, outside nested functions. -/
def AssignedAt (t : Tree) (name : String) (q : List Nat) : Prop :=
  ∃ b, q = b ++ [0] ∧ t.Assigns name b ∧ ∀ c u, c <+: b → t.at? c = some u → u.form.isFunction = false

theorem not_assignedAt_nil (t : Tree) : ¬ t.AssignedAt name [] := by
  rintro ⟨b, heq, -⟩
  exact absurd heq (by simp)

theorem AssignedAt.isFunction_eq_false {q : List Nat} (h : (node f ps).AssignedAt name q) : f.isFunction = false := by
  obtain ⟨b, -, -, houter⟩ := h
  exact houter [] (.node f ps) List.nil_prefix rfl

/-- The target is the first part of a node that assigns the variable. -/
theorem assignedAt_target (hp : ps[0]? = some (.reference name)) : (node (.assign .plain) ps).AssignedAt name [0] := by
  obtain ⟨rest, rfl⟩ := List.head?_eq_some_iff.1 (List.head?_eq_getElem?.trans hp)
  refine ⟨[], rfl, ⟨rest, rfl⟩, fun c u hc hu => ?_⟩
  obtain rfl := List.prefix_nil.1 hc
  obtain rfl := Option.some.inj hu
  rfl

/-- What is assigned in a part is assigned in the node, unless this is a function. -/
theorem AssignedAt.cons {i : Nat} {p : Tree} {q : List Nat} (hf : f.isFunction = false) (hp : ps[i]? = some p)
    (h : p.AssignedAt name q) : (node f ps).AssignedAt name (i :: q) := by
  obtain ⟨b, rfl, ⟨value, hvalue⟩, houter⟩ := h
  refine ⟨i :: b, rfl, ⟨value, Option.bind_eq_some_iff.2 ⟨p, hp, hvalue⟩⟩, fun c u hc hu => ?_⟩
  cases c with
  | nil =>
    obtain rfl := Option.some.inj hu
    exact hf
  | cons j c =>
    obtain ⟨rfl, hbelow⟩ := List.cons_prefix_cons.1 hc
    obtain ⟨p', hp', hu⟩ := Option.bind_eq_some_iff.1 hu
    obtain rfl := Option.some.inj (hp.symm.trans hp')
    exact houter c u hbelow hu

/-- What is assigned in a node is assigned in a part of it, or it is the target of the node. -/
theorem AssignedAt.of_cons {i : Nat} {q : List Nat} (h : (node f ps).AssignedAt name (i :: q)) :
    (f = .assign .plain ∧ ps[0]? = some (.reference name) ∧ i = 0 ∧ q = []) ∨ ∃ p, ps[i]? = some p ∧ p.AssignedAt name q := by
  obtain ⟨b, hq, ⟨value, hvalue⟩, houter⟩ := h
  cases b with
  | nil =>
    obtain ⟨rfl, rfl⟩ := List.cons.inj hq
    obtain ⟨rfl, rfl⟩ := node.inj (Option.some.inj hvalue)
    exact .inl ⟨rfl, rfl, rfl, rfl⟩
  | cons j b =>
    obtain ⟨rfl, rfl⟩ := List.cons.inj hq
    obtain ⟨p, hp, hvalue⟩ := Option.bind_eq_some_iff.1 hvalue
    refine .inr ⟨p, hp, b, rfl, ⟨value, hvalue⟩, fun c u hc hu => ?_⟩
    exact houter (i :: c) u ((List.prefix_cons_inj i).2 hc) (Option.bind_eq_some_iff.2 ⟨p, hp, hu⟩)

/-! ## Variables that are not read -/

/-- Not read in some trees is not read in any of them. -/
theorem sum_uses_eq_iff : (ps.map (·.uses name)).sum = (ps.map (·.assignmentCount name)).sum ↔ ∀ p ∈ ps, p.Unread name := by
  induction ps with
  | nil => simp
  | cons p ps ih =>
    have hp := assignmentCount_le_uses name p
    have hps : (ps.map (·.assignmentCount name)).sum ≤ (ps.map (·.uses name)).sum :=
      List.sum_le_sum fun q _ => assignmentCount_le_uses name q
    rw [List.map_cons, List.map_cons, List.sum_cons, List.sum_cons, List.forall_mem_cons, ← ih]
    unfold Unread
    omega

/-- A variable is not read in a node if the node is no use of it and it is not read in any part, unless the part is what the node
assigns. -/
theorem unread_node_iff (hf : f.isFunction = false) : (node f ps).Unread name ↔
    f ≠ .reference name ∧ ∀ i p, ps[i]? = some p → p.Unread name ∨ i = 0 ∧ f = .assign .plain ∧ p = .reference name := by
  by_cases hown : ∃ n, n ∈ ownAssignments f ps
  · obtain ⟨n, hn⟩ := hown
    obtain ⟨rfl, rest, rfl⟩ := mem_ownAssignments.1 hn
    have hiff : (node (.assign .plain) (.reference n :: rest)).Unread name ↔ ∀ p ∈ rest, p.Unread name := by
      rw [Unread, uses_node, assignmentCount_node rfl, ← sum_uses_eq_iff]
      simp only [ownReferences, ownAssignments, List.map_cons, List.sum_cons, List.count_nil, uses, references, referencesAll,
        assignmentCount, assignments, assignmentsAll, Form.isFunction, Bool.false_eq_true, if_false, List.append_nil]
      omega
    rw [hiff]
    constructor
    · intro h
      refine ⟨by simp, fun i p hp => ?_⟩
      cases i with
      | zero =>
        obtain rfl := Option.some.inj hp
        by_cases hname : n = name
        · exact .inr ⟨rfl, rfl, by rw [hname]⟩
        · refine .inl (.of_uses ?_)
          simp [uses, references, referencesAll, ownReferences, hname]
      | succ i => exact .inl (h p (List.mem_of_getElem? hp))
    · rintro ⟨-, h⟩ p hp
      obtain ⟨i, hi⟩ := List.mem_iff_getElem?.1 hp
      rcases h (i + 1) p hi with hunread | ⟨hzero, -⟩
      · exact hunread
      · exact absurd hzero (by simp)
  · have hnil : ownAssignments f ps = [] := List.eq_nil_iff_forall_not_mem.2 fun n hn => hown ⟨n, hn⟩
    have hle : (ps.map (·.assignmentCount name)).sum ≤ (ps.map (·.uses name)).sum :=
      List.sum_le_sum fun q _ => assignmentCount_le_uses name q
    have hiff : (node f ps).Unread name ↔ f ≠ .reference name ∧ ∀ p ∈ ps, p.Unread name := by
      rw [Unread, uses_node, assignmentCount_node hf, hnil, ← ownReferences_eq_zero, ← sum_uses_eq_iff, List.count_nil]
      omega
    rw [hiff]
    refine and_congr_right fun _ => ⟨fun h i p hp => .inl (h p (List.mem_of_getElem? hp)), fun h p hp => ?_⟩
    obtain ⟨i, hi⟩ := List.mem_iff_getElem?.1 hp
    rcases h i p hi with hunread | ⟨rfl, rfl, rfl⟩
    · exact hunread
    · obtain ⟨rest, rfl⟩ := List.head?_eq_some_iff.1 (List.head?_eq_getElem?.trans hi)
      exact absurd ⟨name, mem_ownAssignments.2 ⟨rfl, rest, rfl⟩⟩ hown

/-- A variable is not read exactly if each of its uses is assigned. -/
theorem unread_iff_assignedAt {t : Tree} : t.Unread name ↔ ∀ q, t.UsedAt name q → t.AssignedAt name q := by
  induction t with
  | node f ps ih =>
    by_cases hf : f.isFunction = true
    · -- In a function nothing counts as assigned, so there must be no use.
      have hzero : (node f ps).assignmentCount name = 0 := by simp [assignmentCount, assignments, hf]
      rw [Unread, hzero, uses_eq_zero_iff]
      refine forall_congr' fun q => ⟨fun h hq => absurd hq h, fun h hq => ?_⟩
      have := (h hq).isFunction_eq_false
      simp [hf] at this
    rw [Bool.not_eq_true] at hf
    rw [unread_node_iff hf]
    constructor
    · rintro ⟨hne, h⟩ q hq
      cases q with
      | nil => exact absurd (usedAt_nil.1 hq) hne
      | cons i q =>
        obtain ⟨p, hp, hq⟩ := usedAt_cons.1 hq
        rcases h i p hp with hunread | ⟨rfl, rfl, rfl⟩
        · exact .cons hf hp ((ih p (List.mem_of_getElem? hp)).1 hunread q hq)
        · cases q with
          | nil => exact assignedAt_target hp
          | cons j q =>
            obtain ⟨_, hnone, -⟩ := usedAt_cons.1 hq
            exact absurd hnone (by simp)
    · intro h
      refine ⟨fun heq => not_assignedAt_nil _ (h [] (usedAt_nil.2 heq)), fun i p hp => ?_⟩
      by_cases htarget : i = 0 ∧ f = .assign .plain ∧ p = .reference name
      · exact .inr htarget
      · refine .inl ((ih p (List.mem_of_getElem? hp)).2 fun q hq => ?_)
        rcases (h (i :: q) (usedAt_cons.2 ⟨p, hp, hq⟩)).of_cons with ⟨hassign, hreference, hzero, -⟩ | ⟨p', hp', hq⟩
        · rw [hzero] at hp htarget
          exact absurd ⟨rfl, hassign, Option.some.inj (hp.symm.trans hreference)⟩ htarget
        · obtain rfl := Option.some.inj (hp.symm.trans hp')
          exact hq

/-! ## Targets that stay -/

/-- A change that makes no variable of what stands at the left of `=` leaves the assignments that the node makes itself. -/
theorem ownAssignments_map {g : Tree → Tree} (ht : (node f ps).AssignsTargets) (hg : ∀ n, g (.reference n) = .reference n)
    (hreference : ∀ p n, p.form.standsLeft = true → g p = .reference n → p = .reference n) :
    ownAssignments f (ps.map g) = ownAssignments f ps := by
  by_cases hplain : f = .assign .plain
  · subst hplain
    obtain ⟨target, value, rfl, htarget⟩ := ht.exists_target
    by_cases hvariable : ∃ n, target = .reference n
    · obtain ⟨n, rfl⟩ := hvariable
      rw [List.map_cons, hg]
      rfl
    · have hnone : ∀ {u : Tree} {us : List Tree}, (∀ n, u ≠ .reference n) → ownAssignments (.assign .plain) (u :: us) = [] := by
        intro u us hu
        refine List.eq_nil_iff_forall_not_mem.2 fun n hn => ?_
        obtain ⟨-, rest, heq⟩ := mem_ownAssignments.1 hn
        exact hu n (List.cons.inj heq).1
      rw [List.map_cons, hnone fun n heq => hvariable ⟨n, heq⟩, hnone fun n heq => hvariable ⟨n, hreference target n htarget heq⟩]
  · rw [ownAssignments_eq hplain, ownAssignments_eq hplain]

theorem unwrapOne_of_standsLeft {t : Tree} (h : t.form.standsLeft = true) : t.unwrapOne name = t := by
  unfold unwrapOne
  split
  · rename_i ha
    rw [eq_of_assignment? ha] at h
    exact absurd h (by simp [form, Form.standsLeft])
  · rfl

theorem eq_reference_of_standsLeft {t : Tree} (ht : t.form.standsLeft = true) {n : String} (h : t.unwrap name = .reference n) :
    t = .reference n := by
  obtain ⟨f, ps⟩ := t
  cases hf : f.isFunction with
  | true => rwa [unwrap, if_pos hf] at h
  | false =>
    have hone : (node f (ps.map (unwrap name))).unwrapOne name = node f (ps.map (unwrap name)) := unwrapOne_of_standsLeft ht
    rw [unwrap, if_neg (by simp [hf]), unwrapAll_eq_map, hone] at h
    obtain ⟨rfl, hps⟩ := node.inj h
    rw [List.map_eq_nil_iff.1 hps]

theorem foldCall_eq_or (name : String) (t : Tree) :
    t.foldCall name = t ∨ ∃ callee args link, t.foldCall name = .call callee args link := by
  by_cases heq : t.foldCall name = t
  · exact .inl heq
  · obtain ⟨callee, args, link, rfl⟩ := exists_call_of_foldCall heq
    obtain ⟨_, _, _, _, _, _, _, _, -, -, -, -, -, -, heq⟩ := exists_of_foldCall heq
    exact .inr ⟨_, _, _, heq⟩

theorem eq_reference_of_foldCalls {t : Tree} {n : String} (h : t.foldCalls name = .reference n) : t = .reference n := by
  obtain ⟨f, ps⟩ := t
  cases hf : f.isFunction with
  | true => rwa [foldCalls, if_pos hf] at h
  | false =>
    rw [foldCalls_node hf] at h
    rcases foldCall_eq_or name (.node f (ps.map (foldCalls name))) with heq | ⟨callee, args, link, heq⟩
    · obtain ⟨rfl, hps⟩ := node.inj (heq.symm.trans h)
      rw [List.map_eq_nil_iff.1 hps]
    · exact absurd (heq.symm.trans h) (by simp)

/-! ## Unwrapping -/

/-- The node is an assignment to the variable, or nothing but its parts is unwrapped and its own assignment is another one. -/
theorem unwrap_node_cases (name : String) (hf : f.isFunction = false) (ht : (node f ps).AssignsTargets) :
    (∃ v, node f ps = .assign .plain (.reference name) v) ∨
      ((node f ps).unwrap name = .node f (ps.map (unwrap name)) ∧ ownAssignments f (ps.map (unwrap name)) = ownAssignments f ps ∧
        name ∉ ownAssignments f ps) := by
  have hown : ownAssignments f (ps.map (unwrap name)) = ownAssignments f ps :=
    ownAssignments_map ht (fun _ => rfl) fun _ _ hp h => eq_reference_of_standsLeft hp h
  by_cases hmem : name ∈ ownAssignments f ps
  · exact .inl (ht.exists_value hmem)
  · refine .inr ⟨?_, hown, hmem⟩
    rw [unwrap, if_neg (by simp [hf]), unwrapAll_eq_map, unwrapOne]
    split
    · rename_i n v ha
      have hn : n ∈ ownAssignments f ps := by
        obtain ⟨hassign, hps⟩ := node.inj (eq_of_assignment? ha)
        rw [← hown]
        exact mem_ownAssignments.2 ⟨hassign, _, hps⟩
      have hne : n ≠ name := fun heq => hmem (heq ▸ hn)
      simp [hne]
    · rfl

/-- The assignments to other variables stay. -/
theorem assignmentCount_unwrap (h : m ≠ name) {t : Tree} (ht : t.AssignsTargets) :
    (t.unwrap name).assignmentCount m = t.assignmentCount m := by
  induction t with
  | node f ps ih =>
    have htargets := (assignsTargets_node.1 ht).2
    cases hf : f.isFunction with
    | true => rw [unwrap, if_pos hf]
    | false =>
      rcases unwrap_node_cases name hf ht with ⟨v, heq⟩ | ⟨heq, hown, -⟩
      · obtain ⟨rfl, rfl⟩ := node.inj heq
        rw [unwrap_assign, if_pos rfl, assignmentCount_assign, ih v (by simp) (htargets v (by simp))]
        simp [Ne.symm h]
      · rw [heq, assignmentCount_node hf, assignmentCount_node hf, hown, List.map_map]
        exact congrArg (_ + List.sum ·) (List.map_congr_left fun p hp => ih p hp (htargets p hp))

/-- Each assignment to the variable goes, and with it the one use that its target is. -/
theorem counts_unwrap {t : Tree} (ht : t.AssignsTargets) (name : String) :
    (t.unwrap name).uses name + t.assignmentCount name = t.uses name ∧ (t.unwrap name).assignmentCount name = 0 := by
  induction t with
  | node f ps ih =>
    have htargets := (assignsTargets_node.1 ht).2
    cases hf : f.isFunction with
    | true =>
      have hzero : (node f ps).assignmentCount name = 0 := by simp [assignmentCount, assignments, hf]
      rw [unwrap, if_pos hf, hzero]
      exact ⟨rfl, rfl⟩
    | false =>
      rcases unwrap_node_cases name hf ht with ⟨v, heq⟩ | ⟨heq, hown, hmem⟩
      · obtain ⟨rfl, rfl⟩ := node.inj heq
        obtain ⟨huses, hcount⟩ := ih v (by simp) (htargets v (by simp))
        rw [unwrap_assign, if_pos rfl, uses_assign, assignmentCount_assign, List.count_singleton_self]
        exact ⟨by omega, hcount⟩
      · have hparts := fun p hp => ih p hp (htargets p hp)
        rw [heq, uses_node, uses_node, assignmentCount_node hf, assignmentCount_node hf, hown, List.count_eq_zero.2 hmem,
          List.map_map, List.map_map]
        constructor
        · have hsum : (ps.map fun p => (p.unwrap name).uses name + p.assignmentCount name).sum = (ps.map (·.uses name)).sum :=
            congrArg List.sum (List.map_congr_left fun p hp => (hparts p hp).1)
          rw [List.sum_map_add] at hsum
          show _ + (ps.map fun p => (p.unwrap name).uses name).sum + _ = _
          omega
        · rw [Nat.zero_add, List.sum_eq_zero_iff, List.forall_mem_map]
          exact fun p hp => (hparts p hp).2

/-- Unwrapping leaves no use exactly if there was no read. -/
theorem unread_iff_unwrap {t : Tree} (ht : t.AssignsTargets) : t.Unread name ↔ (t.unwrap name).uses name = 0 := by
  have := (counts_unwrap ht name).1
  unfold Unread
  omega

/-- A variable is assigned no more often than it is used, and as often exactly if each of its uses, those in nested functions and classes
included, is the target of `=` outside nested functions. Unwrapping these assignments takes them all away, and a use with each. So
this is also the case exactly if it leaves no use, and that is when folding does it. -/
theorem assigned_among_uses (t : Tree) (name : String) :
    t.assignmentCount name ≤ t.uses name ∧
    (t.assignmentCount name = t.uses name ↔ ∀ q, t.UsedAt name q → t.AssignedAt name q) ∧
    (t.AssignsTargets →
      (t.unwrap name).assignmentCount name = 0 ∧ (t.unwrap name).uses name + t.assignmentCount name = t.uses name ∧
      (t.uses name = t.assignmentCount name ↔ (t.unwrap name).uses name = 0) ∧
      t.fold name =
        if ((t.foldCalls name).unwrap name).uses name = 0 then (t.foldCalls name).unwrap name else t.foldCalls name) := by
  refine ⟨assignmentCount_le_uses name t, ?_, fun ht => ?_⟩
  · rw [← unread_iff_assignedAt, Unread]
    exact eq_comm
  · obtain ⟨huses, hcount⟩ := counts_unwrap ht name
    refine ⟨hcount, huses, unread_iff_unwrap ht, ?_⟩
    have hfolded := (KeepsTargets.foldCalls name t ht).1
    simp only [fold, beq_iff_eq, ← unread_iff_unwrap hfolded]
    rfl

namespace AccountsWitness

/-- `(n = f(n = x)).m.call(n)` -/
def called : Tree :=
  .call (.member (.member (.assign .plain (.reference "n") (.call (.reference "f") [.assign .plain (.reference "n") (.reference "x")] false))
    "m" false) "call" false) [.reference "n"] false

/-- `f(x).m()` -/
def direct : Tree := .call (.member (.call (.reference "f") [.reference "x"] false) "m" false) [] false

end AccountsWitness

open AccountsWitness in
/-- The receiver `n` is a read, so unwrapping would not do. Once the call is made directly the one use left is assigned, and folding takes
it away. -/
theorem assigned_among_uses_receiver : called.AssignsTargets ∧ ¬ (∀ q, called.UsedAt "n" q → called.AssignedAt "n" q) ∧
    (called.unwrap "n").uses "n" = 1 ∧ called.fold "n" = direct := by
  have ht : called.AssignsTargets := by decide
  obtain ⟨-, hiff, hcounts⟩ := called.assigned_among_uses "n"
  obtain ⟨-, huses, -, hfold⟩ := hcounts ht
  have hassigned : called.assignmentCount "n" = 2 := by decide
  have hused : called.uses "n" = 3 := by decide
  refine ⟨ht, ?_, by omega, hfold.trans (by decide)⟩
  intro hall
  have hsame := hiff.2 hall
  omega

/-! ## Folding -/

theorem uses_reference (m name : String) : (reference name).uses m = [name].count m := by
  simp [uses, references, referencesAll, ownReferences]

theorem assignmentCount_reference (m name : String) : (reference name).assignmentCount m = 0 := rfl

theorem uses_foldCall (h : m ≠ name) (t : Tree) : (t.foldCall name).uses m = t.uses m := by
  rcases (additive_uses m).foldCall name t with heq | ⟨value, heq⟩
  · rw [heq]
  · simp only [uses_assign, uses_reference, List.count_singleton, beq_eq_false_iff_ne.2 (Ne.symm h)] at heq
    simpa using heq

theorem uses_foldCalls (h : m ≠ name) (t : Tree) : (t.foldCalls name).uses m = t.uses m := by
  refine foldCalls_induct (motive := fun t u => u.uses m = t.uses m) name ?_ ?_ t
  · exact fun _ _ _ => rfl
  · intro f ps _ ih
    rw [uses_foldCall h, uses_node, uses_node, List.map_map]
    exact congrArg (_ + List.sum ·) (List.map_congr_left ih)

theorem assignmentCount_foldCall (h : m ≠ name) (t : Tree) : (t.foldCall name).assignmentCount m = t.assignmentCount m := by
  rcases (additive_assignmentCount m).foldCall name t with heq | ⟨value, heq⟩
  · rw [heq]
  · simp only [assignmentCount_assign, assignmentCount_reference, List.count_singleton, beq_eq_false_iff_ne.2 (Ne.symm h)] at heq
    simpa using heq

theorem assignmentCount_foldCalls (h : m ≠ name) {t : Tree} (ht : t.AssignsTargets) :
    (t.foldCalls name).assignmentCount m = t.assignmentCount m := by
  induction t with
  | node f ps ih =>
    cases hf : f.isFunction with
    | true => rw [foldCalls, if_pos hf]
    | false =>
      have hown : ownAssignments f (ps.map (foldCalls name)) = ownAssignments f ps :=
        ownAssignments_map ht (fun _ => rfl) fun _ _ _ h => eq_reference_of_foldCalls h
      rw [foldCalls_node hf, assignmentCount_foldCall h, assignmentCount_node hf, assignmentCount_node hf, hown, List.map_map]
      exact congrArg (_ + List.sum ·) (List.map_congr_left fun p hp => ih p hp ((assignsTargets_node.1 ht).2 p hp))

/-- Folding a variable keeps the uses of the others. -/
theorem uses_fold (h : m ≠ name) (t : Tree) : (t.fold name).uses m = t.uses m := by
  unfold fold
  simp only
  split
  · rw [uses_unwrap h, uses_foldCalls h]
  · exact uses_foldCalls h t

/-- Folding a variable keeps the assignments to the others. -/
theorem assignmentCount_fold (h : m ≠ name) {t : Tree} (ht : t.AssignsTargets) :
    (t.fold name).assignmentCount m = t.assignmentCount m := by
  unfold fold
  simp only
  split
  · rw [assignmentCount_unwrap h (KeepsTargets.foldCalls name t ht).1, assignmentCount_foldCalls h ht]
  · exact assignmentCount_foldCalls h ht

/-- What one variable after the other is folded into has no use of those that were folded, and of the others as many as before. -/
theorem foldEach_counts {t : Tree} (ht : t.AssignsTargets) (names : List String) :
    (t.foldEach names).2.Sublist names ∧ (∀ m ∈ (t.foldEach names).2, (t.foldEach names).1.uses m = 0) ∧
    ∀ m, m ∉ (t.foldEach names).2 → (t.foldEach names).1.uses m = t.uses m ∧
      (t.foldEach names).1.assignmentCount m = t.assignmentCount m := by
  induction names generalizing t with
  | nil => exact ⟨.slnil, by simp [foldEach], fun _ _ => ⟨rfl, rfl⟩⟩
  | cons name names ih =>
    unfold foldEach
    simp only
    split
    · rename_i hgone
      rw [beq_iff_eq] at hgone
      obtain ⟨hsub, hfolded, hothers⟩ := ih (KeepsTargets.fold name t ht).1
      refine ⟨hsub.cons_cons name, fun m hm => ?_, fun m hm => ?_⟩
      · by_cases hlater : m ∈ ((t.fold name).foldEach names).2
        · exact hfolded m hlater
        · obtain rfl : m = name := (List.mem_cons.1 hm).resolve_right hlater
          exact (hothers m hlater).1.trans hgone
      · rw [List.mem_cons, not_or] at hm
        obtain ⟨huses, hcount⟩ := hothers m hm.2
        exact ⟨huses.trans (uses_fold hm.1 t), hcount.trans (assignmentCount_fold hm.1 ht)⟩
    · obtain ⟨hsub, hrest⟩ := ih ht
      exact ⟨hsub.cons name, hrest⟩

namespace AccountsWitness

/-- `(n = (o = a).b).m.apply(n, [x, () => o])` -/
def applied : Tree :=
  .call (.member (.member (.assign .plain (.reference "n") (.member (.assign .plain (.reference "o") (.reference "a")) "b" false))
    "m" false) "apply" false)
    [.reference "n", .array [.reference "x", .node (.arrow false false) [.node .parameters [], .absent, .reference "o"]]] false

end AccountsWitness

end Tree

end Chainlift

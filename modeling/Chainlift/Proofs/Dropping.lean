import Chainlift.Proofs.Harmless
import Chainlift.Proofs.Unread
import Mathlib.Data.List.Forall2

/-!
# Assignments that nobody notices

A variable that is not read may be assigned or not: if a host overlooks it (`Host.Overlooks`), the assignments to it can be
replaced by the assigned values, and all other effects stay as they are (`Host.Overlooks.unwrap`). That holds for assignments
whose values are taken; `Tree.isTidy` excludes those that stand where a place is taken, such as the callee of a call, which has a
receiver once it is no longer an assignment.

All forms are treated alike (`Host.Overlooks.perform`): what is done with parts that have the same values, and with a first part
that is the same place where one is taken, is the same.
-/

namespace Chainlift

open Tree Eval

/-- The effect is something else than an assignment to one of the variables. -/
def Effect.isNoticed (names : List String) : Effect → Bool
  | .assign name _ => !names.contains name
  | _ => true

namespace Scene

variable {W : Type}

/-- Nothing differs but the values of these variables, and how often they were assigned. -/
def Agree (names : List String) (s s' : Scene W) : Prop :=
  s.store.Agree names s'.store ∧ s.effects.filter (·.isNoticed names) = s'.effects.filter (·.isNoticed names)

theorem agree_refl (names : List String) (s : Scene W) : s.Agree names s := ⟨Store.agree_refl names s.store, rfl⟩

theorem agree_trans {names names' : List String} {s s' s'' : Scene W} (h : s.Agree names s') (h' : s'.Agree names' s'') :
    s.Agree (names ++ names') s'' := by
  refine ⟨Store.agree_trans h.1 h'.1, ?_⟩
  have hboth : ∀ e : Effect, e.isNoticed (names ++ names') = (e.isNoticed names' && e.isNoticed names) := by
    intro e
    cases e <;> simp [Effect.isNoticed, Bool.and_comm]
  have hleft := congrArg (List.filter (Effect.isNoticed names')) h.2
  have hright := congrArg (List.filter (Effect.isNoticed names)) h'.2
  simp only [List.filter_filter] at hleft hright
  simp only [hboth, hleft]
  simp only [Bool.and_comm] at hright ⊢
  exact hright

end Scene

namespace Host

variable {W : Type} {α : Type}

/-- The same outcome whatever the variable holds before, and the same effects but for assignments to it. -/
def Idle (name : String) (x y : Run W α) : Prop := Alike (Scene.Agree [name]) x y

end Host

/-- Two parts of an expression in which the variable is idle and which are places of the same form. -/
structure Piece.SamePlace {W : Type} (name : String) (p q : Piece W) : Prop where
  form : p.form = q.form
  unread : p.form ≠ some (.reference name)
  run : Host.Idle name p.run q.run

namespace Host

variable {W : Type} {H : Host W} {name : String}

/-- Nothing that the host does depends on the variable, or on the assignments to it that are made in the parts. -/
structure Overlooks (H : Host W) (name : String) : Prop where
  read : ∀ object key (s s' : Store W), s.Agree [name] s' → H.read object key s = H.read object key s'
  looselyEqual : ∀ a b (s s' : Store W), s.Agree [name] s' → H.looselyEqual a b s = H.looselyEqual a b s'
  write : ∀ object key v, (H.write object key v).Ignores name
  remove : ∀ object key, (H.remove object key).Ignores name
  call : ∀ function receiver args, (H.call function receiver args).Ignores name
  iterate : ∀ v, (H.iterate v).Ignores name
  operate : ∀ f ps qs, List.Forall₂ (Piece.SamePlace name) ps qs → Idle name (H.operate f ps) (H.operate f qs)
  whole : ∀ t, t.uses name = 0 → Idle name (H.whole t) (H.whole t)

/-- Two parts of an expression in which the variable is idle and which have the same value. -/
structure SameValue (H : Host W) (name : String) (p q : Piece W) : Prop where
  mark : p.form.filter Form.isMark = q.form.filter Form.isMark
  reach : Idle name (H.reach p) (H.reach q)

/-! ## Operations -/

theorem idle_look {α : Type} {f : Store W → Except Value α} (h : ∀ s s' : Store W, s.Agree [name] s' → f s = f s') :
    Idle name (look f) (look f) := fun _ _ hs => ⟨h _ _ hs.1, hs⟩

theorem idle_enact {α : Type} {a : Action W α} (h : a.Ignores name) (e : Effect) : Idle name (enact e a) (enact e a) := by
  intro s s' hs
  obtain ⟨hr, ha⟩ := h s.store s'.store hs.1
  refine ⟨hr, ha, ?_⟩
  simp only [enact, List.filter_append, hs.2]

theorem idle_assign (n : String) (v : Value) : Idle name (assign n v : Run W Unit) (assign n v) := by
  refine idle_enact (fun _ _ hs => ⟨rfl, hs.1, fun m hm => ?_⟩) _
  simp only [hs.2 m hm]

/-- An assignment to an idle variable can go. -/
theorem idle_dropped {α : Type} {x y : Run W α} (h : Idle name x y) (v : Value) : Idle name (do assign name v; x) y := by
  intro s s' hs
  refine h _ s' ⟨⟨hs.1.1, fun n hn => ?_⟩, ?_⟩
  · show (if n = name then some v else s.store.vars n) = s'.store.vars n
    rw [if_neg (by simpa using hn)]
    exact hs.1.2 n hn
  · show (s.effects ++ [Effect.assign name v]).filter _ = _
    rw [List.filter_append, hs.2]
    simp [Effect.isNoticed]

theorem idle_readVariable {n : String} (h : n ≠ name) : Idle name (H.readVariable n) (H.readVariable n) := by
  refine idle_look fun s s' hs => ?_
  rw [hs.2 n (by simpa using h)]

theorem Idle.settle {x y : Run W Value} (h : Idle name x y) : Idle name (settle x) (settle y) := h.bind fun _ => alike_pure _

theorem idle_onto (link : Bool) {go go' : Value → Run W (Option Referent)} (h : ∀ v, Idle name (go v) (go' v))
    (v : Option Value) : Idle name (onto link go v) (onto link go' v) := by
  cases v with
  | none => exact alike_pure _
  | some v => exact alike_ite _ (alike_pure _) (h v)

namespace Overlooks

variable (hH : H.Overlooks name)

include hH

theorem get (p : Referent) : Idle name (H.get p) (H.get p) := by
  cases p with
  | value v => exact alike_pure _
  | property object key => exact alike_ite _ (alike_throw _) (idle_look (hH.read object key))

theorem fetch (p : Option Referent) : Idle name (H.fetch p) (H.fetch p) := by
  cases p with
  | none => exact alike_pure _
  | some p => exact (hH.get p).bind fun _ => alike_pure _

theorem set (v : Value) (p : Referent) : Idle name (H.set v p) (H.set v p) := by
  cases p with
  | value => exact alike_throw _
  | property object key => exact alike_ite _ (alike_throw _) (idle_enact (hH.write object key v) _)

theorem delete (p : Referent) : Idle name (H.delete p) (H.delete p) := by
  cases p with
  | value => exact alike_pure _
  | property object key =>
    exact alike_ite _ (alike_throw _) ((idle_enact (hH.remove object key) _).bind fun _ => alike_pure _)

theorem compare (strict : Bool) (a b : Value) : Idle name (H.compare strict a b) (H.compare strict a b) :=
  alike_ite _ (alike_pure _) (alike_ite _ (alike_pure _) (idle_look (hH.looselyEqual a b)))

/-! ## Parts -/

theorem sameValue {p q : Piece W} (h : Piece.SamePlace name p q) : H.SameValue name p q :=
  ⟨by rw [h.form], h.run.bind hH.fetch⟩

omit hH in
theorem valueOf {p q : Piece W} (h : H.SameValue name p q) : Idle name (H.valueOf p) (H.valueOf q) :=
  h.reach.bind fun _ => alike_pure _

omit hH in
theorem settled {p q : Piece W} (h : H.SameValue name p q) : Piece.SamePlace name (H.settled p) (H.settled q) where
  form := h.mark
  unread heq := by
    obtain ⟨-, hmark⟩ := Option.filter_eq_some_iff.1 heq
    exact absurd hmark (by simp [Form.isMark])
  run := (valueOf h).settle

omit hH in
/-- What an operation of the form is given: values, but perhaps a place first. -/
theorem handed {f : Form} {ps qs : List (Piece W)} (hv : List.Forall₂ (H.SameValue name) ps qs)
    (hp : f.takesPlace = true → ∀ p ∈ ps.head?, ∀ q ∈ qs.head?, Piece.SamePlace name p q) :
    List.Forall₂ (Piece.SamePlace name) (H.handed f ps) (H.handed f qs) := by
  cases hv with
  | nil => exact .nil
  | cons h hv =>
    refine .cons ?_ (List.forall₂_map_left_iff.2 (List.forall₂_map_right_iff.2 (hv.imp fun _ _ => settled)))
    split
    · rename_i hf
      exact hp hf _ rfl _ rfl
    · exact settled h

theorem valuesOf {ps qs : List (Piece W)} (hv : List.Forall₂ (H.SameValue name) ps qs) :
    Idle name (H.valuesOf ps) (H.valuesOf qs) := by
  induction hv with
  | nil => exact alike_pure _
  | @cons p q ps qs h _ ih =>
    have hspread : (p.form == some .spread) = (q.form == some .spread) := by
      have hiff : ∀ o : Option Form, o = some .spread ↔ o.filter Form.isMark = some .spread := by
        intro o
        simp [Option.filter_eq_some_iff, Form.isMark]
      rw [Bool.eq_iff_iff, beq_iff_eq, beq_iff_eq, hiff p.form, hiff q.form, h.mark]
    refine (valueOf h).bind fun v => ?_
    rw [hspread]
    exact (alike_ite _ (idle_enact (hH.iterate v) _) (alike_pure _)).bind fun _ => ih.bind fun _ => alike_pure _

omit hH in
theorem ofOne {f : Form} {ps qs : List (Piece W)} (hv : List.Forall₂ (H.SameValue name) ps qs)
    (ho : Idle name (H.operation f ps) (H.operation f qs)) {go : Piece W → Run W (Option Referent)}
    (hgo : ∀ p ∈ ps.head?, ∀ q ∈ qs.head?, H.SameValue name p q → Idle name (go p) (go q)) :
    Idle name (H.ofOne f ps go) (H.ofOne f qs go) := by
  unfold Host.ofOne
  rcases hv with _ | ⟨h, _ | ⟨_, _⟩⟩ <;> dsimp only
  · exact ho
  · exact hgo _ rfl _ rfl h
  · exact ho

omit hH in
theorem ofTwo {f : Form} {ps qs : List (Piece W)} (hv : List.Forall₂ (H.SameValue name) ps qs)
    (ho : Idle name (H.operation f ps) (H.operation f qs)) {go : Piece W → Piece W → Run W (Option Referent)}
    (hgo : ∀ p ∈ ps.head?, ∀ q ∈ qs.head?, H.SameValue name p q →
      ∀ p' q', H.SameValue name p' q' → Idle name (go p p') (go q q')) :
    Idle name (H.ofTwo f ps go) (H.ofTwo f qs go) := by
  unfold Host.ofTwo
  rcases hv with _ | ⟨h, _ | ⟨h', _ | ⟨_, _⟩⟩⟩ <;> dsimp only
  · exact ho
  · exact ho
  · exact hgo _ rfl _ rfl h _ _ h'
  · exact ho

/-- An expression does the same with parts in which the variable is idle. -/
theorem perform {f : Form} (hf : f ≠ .reference name) {ps qs : List (Piece W)} (hv : List.Forall₂ (H.SameValue name) ps qs)
    (hp : f.takesPlace = true → ∀ p ∈ ps.head?, ∀ q ∈ qs.head?, Piece.SamePlace name p q) :
    Idle name (H.perform f ps) (H.perform f qs) := by
  have ho : Idle name (H.operation f ps) (H.operation f qs) := (hH.operate f _ _ (handed hv hp)).settle
  have hsome := fun p : Option Referent => (alike_pure p : Idle name (pure p : Run W _) (pure p))
  unfold Host.perform
  split
  case h_1 n =>
    have hn : n ≠ name := fun heq => hf (heq ▸ rfl)
    exact Idle.settle (alike_ite _ (alike_pure _) (idle_readVariable hn))
  case h_8 => exact ofOne hv ho fun o _ o' _ h => h.reach.bind (idle_onto _ fun _ => hsome _)
  case h_9 => exact ofOne hv ho fun o _ o' _ h => h.reach.bind (idle_onto _ fun _ => hsome _)
  case h_10 =>
    refine ofTwo hv ho fun o _ o' _ h k k' hk => h.reach.bind (idle_onto _ fun v => ?_)
    exact (valueOf hk).bind fun _ => hsome _
  case h_11 =>
    cases hv with
    | nil => exact ho
    | @cons callee callee' args args' h hv =>
      refine (hp rfl callee rfl callee' rfl).run.bind fun r => (hH.fetch r).bind (idle_onto _ fun v => Idle.settle ?_)
      exact (hH.valuesOf hv).bind fun vs => idle_enact (hH.call _ _ _) _
  case h_12 => exact ofOne hv ho fun p hpm q hqm _ => (hp rfl p hpm q hqm).run.bind fun _ => hsome _
  case h_13 => exact ofOne hv ho fun p hpm q hqm _ => (hp rfl p hpm q hqm).run
  case h_14 => exact ofOne hv ho fun p hpm q hqm _ => (hp rfl p hpm q hqm).run
  case h_15 => exact ofOne hv ho fun p _ q _ h => (valueOf h).settle
  case h_16 =>
    refine ofOne hv ho fun p hpm q hqm _ => Idle.settle ?_
    exact (hp rfl p hpm q hqm).run.bind fun r => hH.delete _
  case h_17 => exact ofOne hv ho fun p _ q _ h => Idle.settle ((valueOf h).bind fun _ => alike_pure _)
  case h_18 => exact ofOne hv ho fun p _ q _ h => Idle.settle ((valueOf h).bind fun _ => alike_pure _)
  case h_19 =>
    split
    · refine ofTwo hv ho fun a _ a' _ ha b b' hb => Idle.settle ?_
      refine (valueOf ha).bind fun v => (valueOf hb).bind fun w => ?_
      exact (hH.compare _ v w).bind fun _ => alike_pure _
    · exact ho
  case h_20 =>
    refine ofTwo hv ho fun a _ a' _ ha b b' hb => Idle.settle ?_
    exact (valueOf ha).bind fun _ => alike_ite _ (valueOf hb) (alike_pure _)
  case h_21 =>
    rcases hv with _ | ⟨hc, _ | ⟨hy, _ | ⟨hn, _ | ⟨_, _⟩⟩⟩⟩ <;> dsimp only
    · exact ho
    · exact ho
    · exact ho
    · exact Idle.settle ((valueOf hc).bind fun _ => alike_ite _ (valueOf hy) (valueOf hn))
    · exact ho
  case h_22 =>
    refine ofTwo hv ho fun target ht target' ht' _ v v' h => ?_
    have hplace := hp rfl target ht target' ht'
    rw [← hplace.form]
    split
    · exact h.reach.bind fun w => (idle_assign _ _).bind fun _ => hsome _
    · refine Idle.settle (hplace.run.bind fun r => (valueOf h).bind fun w => ?_)
      exact (hH.set w _).bind fun _ => alike_pure _
  case h_23 => exact Idle.settle ((hH.valuesOf hv).bind fun _ => alike_pure _)
  case h_24 => exact ho
  -- The others are constants.
  all_goals exact Idle.settle (alike_pure _)

end Overlooks

end Host

/-! ## Tidy expressions -/

namespace Tree

/-- The expression is an assignment to the variable. -/
def isAssignmentTo (name : String) (t : Tree) : Bool := t.assignment?.any (·.1 == name)

/-- A single expression that is a value. -/
def isOneValue : List Tree → Bool
  | [v] => !v.uncommented.form.isMark
  | _ => false

/-- Nothing that such a node does with its first part stands in the way of dropping assignments to the variable: the part is not
taken as a place that is such an assignment, an assignment to the variable has a value, and a method that is called with an
explicit receiver is not reached through the variable. -/
def isTidyNode (name : String) : Form → List Tree → Bool
  | _, [] => true
  | .assign .plain, p :: ps => !p.isAssignmentTo name && (p.asVariable? != some name || isOneValue ps)
  | .call _, p :: _ => !p.isAssignmentTo name && (!p.uncommented.form.isMethod || p.uses name == 0)
  | f, p :: _ => !f.takesPlace || !p.isAssignmentTo name

mutual

/-- Assignments to the variable stand only where their values are taken, and in nothing that is left to the host as a whole. -/
def isTidy (name : String) : Tree → Bool
  | .node f ps => if (node f ps).isWhole then (node f ps).uses name == 0 else isTidyNode name f ps && allTidy name ps

def allTidy (name : String) : List Tree → Bool
  | [] => true
  | t :: ts => t.isTidy name && allTidy name ts

end

theorem allTidy_iff {name : String} {ts : List Tree} : allTidy name ts = true ↔ ∀ t ∈ ts, t.isTidy name = true := by
  induction ts with
  | nil => simp [allTidy]
  | cons t ts ih => simp [allTidy, ih]

theorem isOneValue_iff {ps : List Tree} : isOneValue ps = true ↔ ∃ v, ps = [v] ∧ v.uncommented.form.isMark = false := by
  rcases ps with _ | ⟨v, _ | _⟩ <;> simp [isOneValue]

variable {name : String}

theorem isTidy_of_isWhole {t : Tree} (hw : t.isWhole = true) : t.isTidy name = true ↔ t.uses name = 0 := by
  obtain ⟨f, ps⟩ := t
  rw [isTidy, if_pos hw, beq_iff_eq]

theorem isTidy_node {f : Form} {ps : List Tree} (hw : (node f ps).isWhole = false) :
    (node f ps).isTidy name = true ↔ isTidyNode name f ps = true ∧ ∀ p ∈ ps, p.isTidy name = true := by
  rw [isTidy, if_neg (by simp [hw]), Bool.and_eq_true, allTidy_iff]

theorem isAssignmentTo_iff {t : Tree} : t.isAssignmentTo name = true ↔ ∃ v, t = .assign .plain (.reference name) v := by
  simp only [isAssignmentTo, Option.any_eq_true, beq_iff_eq]
  constructor
  · rintro ⟨⟨n, v⟩, h, rfl⟩
    exact ⟨v, eq_of_assignment? h⟩
  · rintro ⟨v, rfl⟩
    exact ⟨(name, v), rfl, rfl⟩

/-- The place that a form takes is no assignment to the variable. -/
theorem isAssignmentTo_of_isTidyNode {f : Form} {ps : List Tree} (h : isTidyNode name f ps = true)
    (hf : f.takesPlace = true) : ∀ p ∈ ps.head?, p.isAssignmentTo name = false := by
  intro p hp
  cases ps with
  | nil => exact absurd hp (by simp)
  | cons q ps =>
    obtain rfl : q = p := by simpa using hp
    unfold isTidyNode at h
    split at h
    · simp_all
    · simp_all
    · simp_all
    · simp_all

theorem isTidyNode_assign {v : Tree} (h : isTidyNode name (.assign .plain) [.reference name, v] = true) :
    v.uncommented.form.isMark = false := by
  simpa [isTidyNode, asVariable?, isOneValue, isAssignmentTo, assignment?] using h

theorem isTidyNode_call {link : Bool} {callee : Tree} {args : List Tree}
    (h : isTidyNode name (.call link) (callee :: args) = true) :
    callee.uncommented.form.isMethod = false ∨ callee.uses name = 0 := by
  simp only [isTidyNode, Bool.and_eq_true] at h
  simpa using h.2

/-- What is no assignment of a value to the variable does not assign it at all. -/
theorem not_mem_ownAssignments {f : Form} {ps : List Tree} (h : isTidyNode name f ps = true)
    (ha : (node f ps).isAssignmentTo name = false) : name ∉ ownAssignments f ps := by
  intro hm
  unfold ownAssignments at hm
  split at hm
  · rename_i n rest
    obtain rfl := List.mem_singleton.1 hm
    simp only [isTidyNode, asVariable?, bne_self_eq_false, Bool.false_or, Bool.and_eq_true] at h
    obtain ⟨v, rfl, -⟩ := isOneValue_iff.1 h.2
    have hassigns : (assign .plain (.reference name) v).isAssignmentTo name = true := isAssignmentTo_iff.2 ⟨v, rfl⟩
    exact absurd (hassigns.symm.trans ha) (by simp)
  · exact absurd hm (by simp)

/-- What is left to the host as a whole depends on the form of the first part at most. -/
theorem isWhole_map {f : Form} {ps : List Tree} {g : Tree → Tree}
    (h : f.takesPlace = true → ∀ p ∈ ps.head?, (g p).uncommented.form = p.uncommented.form) :
    (node f (ps.map g)).isWhole = (node f ps).isWhole := by
  by_cases hf : f = .assign .plain
  · subst hf
    rcases ps with _ | ⟨p, _ | ⟨q, _ | _⟩⟩
    · rfl
    · rfl
    · simp [isWhole, h rfl p rfl]
    · rfl
  · have hother : ∀ qs, (node f qs).isWhole = f.isWhole := by
      intro qs
      unfold isWhole
      split
      · rename_i heq
        exact absurd (Tree.node.inj heq).1 hf
      · rename_i heq
        rw [(Tree.node.inj heq).1]
    rw [hother, hother]

theorem isFunction_of_isWhole {f : Form} {ps : List Tree} (h : (node f ps).isWhole = false) : f.isFunction = false := by
  cases f <;> first | rfl | exact absurd h (by simp [isWhole, Form.isWhole])

theorem map_eq_self {g : Tree → Tree} {ps : List Tree} (h : ∀ p ∈ ps, g p = p) : ps.map g = ps :=
  (List.map_congr_left h).trans (List.map_id ps)

theorem uses_le_of_mem {f : Form} {ps : List Tree} {p : Tree} (h : p ∈ ps) (name : String) :
    p.uses name ≤ (node f ps).uses name := by
  rw [uses_node]
  have := List.single_le_sum (l := ps.map (·.uses name)) (fun _ _ => Nat.zero_le _) _ (List.mem_map_of_mem h)
  omega

/-! ## Unwrapping -/

/-- Unwrapping changes the parts of what is no assignment to the variable. -/
theorem unwrap_of_isTidy {t : Tree} (h : t.isTidy name = true) (ha : t.isAssignmentTo name = false) :
    t.unwrap name = .node t.form (t.parts.map (unwrap name)) := by
  induction t with
  | node f ps ih =>
    cases hw : (node f ps).isWhole with
    | true =>
      rw [isTidy_of_isWhole hw] at h
      have hps : ps.map (unwrap name) = ps := map_eq_self fun p hp => unwrap_of_uses (by
        have := uses_le_of_mem (f := f) hp name
        omega)
      rw [unwrap_of_uses h, parts, hps, form]
    | false =>
      obtain ⟨hnode, hps⟩ := (isTidy_node hw).1 h
      have hf := isFunction_of_isWhole hw
      by_cases hplain : f = .assign .plain
      · subst hplain
        rw [unwrap, if_neg (by simp [hf]), unwrapAll_eq_map, unwrapOne]
        split
        · rename_i n value heq
          split
          · rename_i hn
            obtain rfl := beq_iff_eq.1 hn
            obtain ⟨q, qs, rfl, hq, hqs⟩ := List.map_eq_cons_iff.1 (Tree.node.inj (eq_of_assignment? heq)).2
            obtain ⟨v, rfl, -⟩ := List.map_eq_singleton_iff.1 hqs
            have hplace := isAssignmentTo_of_isTidyNode hnode rfl q rfl
            rw [ih q (by simp) (hps q (by simp)) hplace] at hq
            obtain ⟨hform, hparts⟩ := Tree.node.inj hq
            obtain ⟨g, rs⟩ := q
            obtain rfl : g = .reference n := hform
            obtain rfl : rs = [] := List.map_eq_nil_iff.1 hparts
            have hassigns : (assign .plain (.reference n) v).isAssignmentTo n = true := isAssignmentTo_iff.2 ⟨v, rfl⟩
            exact absurd (hassigns.symm.trans ha) (by simp)
          · rfl
        · rfl
      · exact unwrap_node hf hplain name ps

/-- Unwrapping leaves the form of what is no assignment to the variable. -/
theorem form_unwrap_of_isTidy {t : Tree} (h : t.isTidy name = true) (ha : t.isAssignmentTo name = false) :
    (t.unwrap name).uncommented.form = t.uncommented.form := by
  induction t with
  | node f ps ih =>
    rw [unwrap_of_isTidy h ha]
    rcases bare_cases f ps with ⟨cs, p, rfl, rfl⟩ | ⟨-, hu⟩
    · obtain ⟨hnode, hps⟩ := (isTidy_node rfl).1 h
      exact ih p (by simp) (hps p (by simp)) (isAssignmentTo_of_isTidyNode hnode rfl p rfl)
    · simp only [form, parts, hu ps rfl, hu _ (List.length_map _)]

/-- What is not read is no reference to the variable, nor a comment around one. -/
theorem Unread.uncommented_form_ne {t : Tree} (h : t.Unread name) : t.uncommented.form ≠ .reference name := by
  induction t with
  | node f ps ih =>
    rcases bare_cases f ps with ⟨cs, t, rfl, rfl⟩ | ⟨-, hu⟩
    · exact ih t (by simp) (unread_node rfl rfl h t (by simp))
    · rw [hu ps rfl]
      exact h.form_ne

/-! ## Folding -/

theorem uses_of_object? {t o : Tree} (h : t.object? = some o) (name : String) : o.uses name ≤ t.uses name := by
  obtain ⟨l, hl, -⟩ := exists_onto_of_object? h
  rw [hl, uses_onto]
  exact Nat.le_add_right _ _

/-- A call is folded only if its callee is a method that is reached through the variable. -/
theorem foldCall_of_uses {callee : Tree} (h : callee.uncommented.form.isMethod = false ∨ callee.uses name = 0) (args : List Tree)
    (link : Bool) : foldCall name (.call callee args link) = .call callee args link := by
  rcases foldCall_cases name callee args link with heq | ⟨function, word, linked, object, value, method, -, -, -, rfl, hm, ho, ha, -⟩
  · exact heq
  · rcases h with h | h
    · simp [uncommented, form, Form.isMethod, hm] at h
    · have hobject := uses_of_object? ho name
      have hfunction : function.uses name ≤ (Tree.member function word linked).uses name := uses_le_of_mem (by simp) name
      have hassign : 0 < object.uses name := by
        rw [eq_of_assignment? ha, uses_assign, List.count_singleton_self]
        omega
      omega

/-- Nothing is folded in an expression whose parts stay, unless it is a call by a method that is reached through the variable. -/
theorem foldCalls_eq_self {f : Form} {ps : List Tree} (hps : ∀ p ∈ ps, p.foldCalls name = p)
    (hc : ∀ link callee args, f = .call link → ps = callee :: args →
      callee.uncommented.form.isMethod = false ∨ callee.uses name = 0) : (node f ps).foldCalls name = .node f ps := by
  cases hf : f.isFunction with
  | true => simp [foldCalls, hf]
  | false =>
    rw [foldCalls_node hf, map_eq_self hps]
    by_cases hcall : ∃ link callee args, f = .call link ∧ ps = callee :: args
    · obtain ⟨link, callee, args, rfl, rfl⟩ := hcall
      exact foldCall_of_uses (hc link callee args rfl rfl) args link
    · unfold foldCall
      split
      · rename_i heq
        obtain ⟨rfl, rfl⟩ := Tree.node.inj heq
        exact absurd ⟨_, _, _, rfl, rfl⟩ hcall
      · rfl

/-- Without a use of the variable there is no call to fold. -/
theorem foldCalls_of_uses {t : Tree} (h : t.uses name = 0) : t.foldCalls name = t := by
  induction t with
  | node f ps ih =>
    have hps : ∀ p ∈ ps, p.uses name = 0 := fun p hp => Nat.le_zero.1 (h ▸ uses_le_of_mem hp name)
    exact foldCalls_eq_self (fun p hp => ih p hp (hps p hp)) fun link callee args _ heq => .inr (hps callee (by simp [heq]))

/-- Nothing is folded but assignments. -/
theorem foldCalls_of_isTidy {t : Tree} (h : t.isTidy name = true) : t.foldCalls name = t := by
  induction t with
  | node f ps ih =>
    cases hw : (node f ps).isWhole with
    | true => exact foldCalls_of_uses ((isTidy_of_isWhole hw).1 h)
    | false =>
      obtain ⟨hnode, hps⟩ := (isTidy_node hw).1 h
      refine foldCalls_eq_self (fun p hp => ih p hp (hps p hp)) ?_
      rintro link callee args rfl rfl
      exact isTidyNode_call hnode

end Tree

namespace Host

open Eval Tree

variable {W : Type} {H : Host W} {name : String}

theorem fetch_map_value (v : Option Value) : H.fetch (v.map .value) = pure v := by
  cases v <;> rfl

/-- An assignment to a variable has the value that is assigned, even if that is a chain that ends early. -/
theorem reach_assign (n : String) (t : Tree) : H.reach (H.piece (.assign .plain (.reference n) t)) = (do
    let v ← H.reach (H.piece t)
    assign n (v.getD .undefined)
    pure v) := by
  have hrefer : H.refer (.assign .plain (.reference n) t) = (do
      let v ← H.reach (H.piece t)
      assign n (v.getD .undefined)
      pure (v.map .value)) := by
    rw [H.refer_node rfl]
    rfl
  simp only [reach, piece] at hrefer ⊢
  simp only [hrefer, bind_assoc, pure_bind, fetch_map_value]

/-- Assignments to a variable that is not read can go from an expression in which they stand only where their values are taken. -/
theorem Overlooks.unwrap (hH : H.Overlooks name) {t : Tree} (ht : t.isTidy name = true) (hu : t.Unread name) :
    H.SameValue name (H.piece t) (H.piece (t.unwrap name)) ∧
    (t.isAssignmentTo name = false → Piece.SamePlace name (H.piece t) (H.piece (t.unwrap name))) := by
  induction t with
  | node f ps ih =>
    cases ha : (Tree.node f ps).isAssignmentTo name with
    | true =>
      obtain ⟨v, hv⟩ := isAssignmentTo_iff.1 ha
      obtain ⟨rfl, rfl⟩ := Tree.node.inj hv
      obtain ⟨hnode, hps⟩ := (isTidy_node rfl).1 ht
      obtain ⟨⟨hmark, hreach⟩, -⟩ := ih v (by simp) (hps v (by simp)) (unread_assign hu)
      rw [unwrap_assign, if_pos rfl]
      refine ⟨⟨?_, ?_⟩, by simp⟩
      · have hvmark : (H.piece v).form.filter Form.isMark = none :=
          Option.filter_eq_none_iff.2 (by simp [piece, isTidyNode_assign hnode])
        rw [← hmark, hvmark]
        rfl
      · rw [reach_assign, ← bind_pure (H.reach (H.piece (v.unwrap name)))]
        exact hreach.bind fun w => idle_dropped (alike_pure w) _
    | false =>
      have hrun : Idle name (H.refer (.node f ps)) (H.refer ((Tree.node f ps).unwrap name)) := by
        cases hw : (Tree.node f ps).isWhole with
        | true =>
          have huses := (isTidy_of_isWhole hw).1 ht
          rw [unwrap_of_uses huses, refer_of_isWhole H hw]
          exact (hH.whole _ huses).settle
        | false =>
          obtain ⟨hnode, hps⟩ := (isTidy_node hw).1 ht
          have hparts := unread_parts (isFunction_of_isWhole hw) (not_mem_ownAssignments hnode ha) hu
          have hplaces := isAssignmentTo_of_isTidyNode hnode
          have hwhole : (Tree.node f (ps.map (Tree.unwrap name))).isWhole = false := by
            rw [isWhole_map fun hf p hp => form_unwrap_of_isTidy (hps p (List.mem_of_mem_head? hp)) (hplaces hf p hp), hw]
          rw [unwrap_of_isTidy ht ha, form, parts, H.refer_node hw, H.refer_node hwhole]
          refine hH.perform hu.form_ne ?_ ?_
          · rw [List.map_map, List.forall₂_map_left_iff, List.forall₂_map_right_iff, List.forall₂_same]
            exact fun p hp => (ih p hp (hps p hp) (hparts p hp)).1
          · intro hf
            cases ps with
            | nil => simp
            | cons p ps => simpa using (ih p (by simp) (hps p (by simp)) (hparts p (by simp))).2 (hplaces hf p rfl)
      have hplace : Piece.SamePlace name (H.piece (.node f ps)) (H.piece ((Tree.node f ps).unwrap name)) :=
        ⟨congrArg some (form_unwrap_of_isTidy ht ha).symm, fun heq => hu.uncommented_form_ne (Option.some.inj heq), hrun⟩
      exact ⟨hH.sameValue hplace, fun _ => hplace⟩

end Host

end Chainlift

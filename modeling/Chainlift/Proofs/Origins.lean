import Chainlift.Proofs.Progress
import Chainlift.Proofs.Statements
import Chainlift.Proofs.Levels

/-!
# What becomes of the scopes that are left

A sweep leaves scope after scope, the inner ones first (`Sweep.Leaves`). What is put in the place of an expression around a scope
that has been left keeps it, leaves it out or repeats it. Only folding changes it, and only if it is a static block: nested
functions are not folded into. So every scope in the program after the sweep was left in the sweep, and its statements are those
that were left, perhaps folded (`Sweep.exists_left`). With that it has no more uses, declares no other names and exposes no more
declarators (`Tree.Folded.uses_le`, `Tree.Folded.declaresAlike`).
-/

namespace Chainlift

open Tree

/-! ## Choices among the nodes -/

namespace Tree

theorem branchings_le_node (f : Form) {ps : List Tree} {p : Tree} (hp : p ∈ ps) : p.branchings ≤ (node f ps).branchings := by
  rw [branchings_node]
  exact (List.single_le_sum (by simp) _ (List.mem_map_of_mem hp)).trans (Nat.le_add_left _ _)

theorem sizeAll_eq_sum (ts : List Tree) : sizeAll ts = (ts.map size).sum := by
  induction ts with
  | nil => rfl
  | cons t ts ih => rw [sizeAll, ih, List.map_cons, List.sum_cons]

theorem branchings_le_size (t : Tree) : t.branchings ≤ t.size := by
  induction t with
  | node f ps ih =>
    have hown : Weight.branchings.own f ps ≤ 1 := by
      unfold Weight.branchings
      simp only
      split <;> omega
    rw [branchings_node, size, sizeAll_eq_sum, Nat.add_comm]
    exact Nat.add_le_add (List.sum_le_sum ih) hown

theorem branchings_le_sizeAll {ts : List Tree} {t : Tree} (ht : t ∈ ts) : t.branchings ≤ sizeAll ts := by
  rw [sizeAll_eq_sum]
  exact (branchings_le_size t).trans (List.single_le_sum (by simp) _ (List.mem_map_of_mem ht))

end Tree

/-! ## Folded trees -/

/-- What becomes of a tree when variables are folded into it. -/
inductive Tree.Folded (t : Tree) : Tree → Prop where
  | self : Folded t t
  | calls {u : Tree} (name : String) (h : Folded t u) : Folded t (u.foldCalls name)
  | unwrapped {u : Tree} (name : String) (h : Folded t u) : Folded t (u.unwrap name)

namespace Tree.Folded

variable {t u : Tree}

theorem uses_le (h : t.Folded u) (m : String) : u.uses m ≤ t.uses m := by
  induction h with
  | self => exact Nat.le_refl _
  | @calls u name _ ih => exact (Measure.uses_le ((Measure.uses m).weight.foldCalls_le name u)).trans ih
  | @unwrapped u name _ ih => exact (Measure.uses_le ((Measure.uses m).weight.unwrap_le name u)).trans ih

theorem declaresAlike (h : t.Folded u) (ht : t.IsOrderly) : DeclaresAlike t u := by
  induction h with
  | self => exact .refl ht
  | calls name _ ih => exact ih.trans (.foldCalls ih.orderly name)
  | unwrapped name _ ih => exact ih.trans (.unwrap ih.orderly name)

end Tree.Folded

/-! ## What holds of every scope -/

/-- The condition holds of each node that opens a scope. -/
def Tree.EachScope (E : Form → List Tree → Prop) (t : Tree) : Prop :=
  ∀ u ∈ t.nodes, (Scope.of? u.form u.parts).isSome = true → E u.form u.parts

/-- Folding into the statements of a static block keeps the condition. -/
structure Form.Folds (E : Form → List Tree → Prop) : Prop where
  calls : ∀ {ps : List Tree} (name : String), E .staticBlock ps → E .staticBlock (ps.map (foldCalls name))
  unwrapped : ∀ {ps : List Tree} (name : String), E .staticBlock ps → E .staticBlock (ps.map (unwrap name))

namespace Tree.EachScope

variable {E : Form → List Tree → Prop} {f : Form} {ps : List Tree}

theorem node_iff : EachScope E (node f ps) ↔ ((Scope.of? f ps).isSome = true → E f ps) ∧ ∀ p ∈ ps, p.EachScope E := forall_nodes_node

theorem node_of_opensScope (hf : f.opensScope = false) : EachScope E (node f ps) ↔ ∀ p ∈ ps, p.EachScope E := by
  rw [node_iff, Sweep.of?_eq_none hf]
  simp

theorem opensScope_of_isOperation (hf : f.isOperation = true) : f.opensScope = false := by
  cases f <;> first | rfl | exact absurd hf (by simp [Form.isOperation])

theorem partwise : Partwise (EachScope E) where
  operation hf _ := node_of_opensScope (opensScope_of_isOperation hf)
  assigned h := by simpa using (node_of_opensScope rfl).1 h

theorem statementwise : Statementwise (EachScope E) where
  node hf := node_of_opensScope (by
    rename_i f _
    cases f <;> first | rfl | exact absurd hf (by simp [Form.isStatements, holdsStatements]))
  absent := (node_of_opensScope rfl).2 (by simp)
  empty := (node_of_opensScope rfl).2 (by simp)

/-- A change that goes to all parts outside nested functions. -/
theorem map {g : Tree → Tree} (hf : f.isFunction = false) (hown : E .staticBlock ps → E .staticBlock (ps.map g))
    (h : ∀ p ∈ ps, p.EachScope E → (g p).EachScope E) (ht : EachScope E (node f ps)) : EachScope E (node f (ps.map g)) := by
  obtain ⟨hself, hps⟩ := node_iff.1 ht
  refine node_iff.2 ⟨fun hsome => ?_, fun q hq => ?_⟩
  · rw [Scope.isSome_of?_congr f (List.length_map g)] at hsome
    obtain ⟨scope, hscope⟩ := Option.isSome_iff_exists.1 hsome
    have hopens := Scope.opensScope_of_of? hscope
    rw [Form.opensScope, hf, Bool.false_or, beq_iff_eq] at hopens
    subst hopens
    exact hown (hself hsome)
  · obtain ⟨p, hp, rfl⟩ := List.mem_map.1 hq
    exact h p hp (hps p hp)

section

variable (hE : Form.Folds E)

include hE

theorem foldCalls {t : Tree} (name : String) (h : t.EachScope E) : (t.foldCalls name).EachScope E := by
  induction t with
  | node f ps ih =>
    cases hf : f.isFunction with
    | true => rwa [Tree.foldCalls, if_pos hf]
    | false =>
      rw [foldCalls_node hf]
      exact partwise.foldCall (map hf (hE.calls name) ih h) name

theorem unwrap {t : Tree} (name : String) (h : t.EachScope E) : (t.unwrap name).EachScope E := by
  induction t with
  | node f ps ih =>
    cases hf : f.isFunction with
    | true => rwa [Tree.unwrap, if_pos hf]
    | false =>
      rw [Tree.unwrap, if_neg (by simp [hf]), unwrapAll_eq_map]
      exact partwise.unwrapOne (map hf (hE.unwrapped name) ih h) name

theorem compositional : Compositional (EachScope E) where
  toPartwise := partwise
  assign _ htarget hvalue := (node_of_opensScope rfl).2 (by simpa using ⟨htarget, hvalue⟩)
  fold name h := by
    unfold Tree.fold
    simp only
    split
    · exact unwrap hE name (foldCalls hE name h)
    · exact foldCalls hE name h

/-- What is put in the place of an expression has only scopes for which the condition holds, if the expression has. -/
theorem tryRewrite {o : Options} {t u : Tree} {s s' : Sweep} (h : Sweep.tryRewrite o t s = some (u, s')) (ht : t.EachScope E) :
    u.EachScope E := by
  obtain ⟨r, kind, hr, haccept⟩ := Sweep.accept_of_tryRewrite h
  obtain ⟨rfl, -⟩ := Sweep.rewrites_accept haccept
  rcases hr with hr | ⟨-, hr⟩
  · exact (compositional hE).coalesce ht hr
  · exact (compositional hE).reconstruct ht hr

end

end Tree.EachScope

namespace Sweep

/-! ## Left nodes -/

/-- In the visit of a tree a node of this form is left when its parts have become these. -/
inductive Leaves (o : Options) : Nat → Tree → Sweep → Form → List Tree → Sweep → Prop where
  | here {d d' : Nat} {t : Tree} {f : Form} {ps ps' : List Tree} {s₀ s₁ s : Sweep}
      (turned : Turns o d t s₀ d' (.node f ps) s₁)
      (visited : visitAll o d' ps (s₁.enter f ps) = (ps', s)) :
      Leaves o d t s₀ f ps' s
  | part {d d' : Nat} {t p : Tree} {f g : Form} {before before' after qs : List Tree} {s₀ s₁ s₂ s : Sweep}
      (turned : Turns o d t s₀ d' (.node f (before ++ p :: after)) s₁)
      (visited : visitAll o d' before (s₁.enter f (before ++ p :: after)) = (before', s₂))
      (left : Leaves o d' p s₂ g qs s) :
      Leaves o d t s₀ g qs s

/-- The same of a sweep over statements. -/
inductive LeavesIn (o : Options) : List Tree → Form → List Tree → Sweep → Prop where
  | mk {p : Tree} {f : Form} {before before' after ps : List Tree} {s₂ s : Sweep}
      (visited : visitAll o (sizeAll (before ++ p :: after)) before (entered (before ++ p :: after)) = (before', s₂))
      (left : Leaves o (sizeAll (before ++ p :: after)) p s₂ f ps s) :
      LeavesIn o (before ++ p :: after) f ps s

/-- What becomes of the statements of a scope that is left in this state. -/
def Ends (s : Sweep) (scope : Scope) (ss : List Tree) : Prop := List.Forall₂ Folded (s.leaveScope scope).1 ss

theorem Ends.self (s : Sweep) (scope : Scope) : s.Ends scope (s.leaveScope scope).1 := List.forall₂_same.2 fun _ _ => .self

theorem Ends.map {s : Sweep} {scope : Scope} {ss : List Tree} {g : Tree → Tree} (h : s.Ends scope ss)
    (hg : ∀ {t u : Tree}, t.Folded u → t.Folded (g u)) : s.Ends scope (ss.map g) :=
  List.forall₂_map_right_iff.2 (h.imp fun _ _ => hg)

/-- A node that opens a scope is what has become of one that was left. -/
def WasLeft (L : Form → List Tree → Sweep → Prop) (f : Form) (qs : List Tree) : Prop :=
  ∃ ps s scope ss, L f ps s ∧ Scope.of? f ps = some scope ∧ s.Ends scope ss ∧ qs = Scope.put f ps ss

variable {o : Options} {L : Form → List Tree → Sweep → Prop}

theorem folds_wasLeft : Form.Folds (WasLeft L) where
  calls name := by
    rintro ⟨ps, s, scope, ss, hleft, hscope, hends, rfl⟩
    exact ⟨ps, s, scope, _, hleft, hscope, hends.map (.calls name), rfl⟩
  unwrapped name := by
    rintro ⟨ps, s, scope, ss, hleft, hscope, hends, rfl⟩
    exact ⟨ps, s, scope, _, hleft, hscope, hends.map (.unwrapped name), rfl⟩

theorem wasLeft_leave {f : Form} {ps : List Tree} {s : Sweep} (hps : ∀ p ∈ ps, p.EachScope (WasLeft L)) (hleft : L f ps s) :
    (s.leave f ps).1.EachScope (WasLeft L) := by
  obtain ⟨qs, heq, hqs⟩ := EachScope.statementwise.leave (f := f) hps s
  rw [heq]
  refine EachScope.node_iff.2 ⟨fun hsome => ?_, hqs⟩
  unfold leave at heq
  split at heq
  · rename_i scope hscope
    obtain ⟨-, rfl⟩ := node.inj heq
    exact ⟨ps, s, scope, _, hleft, hscope, .self s scope, rfl⟩
  · rename_i hnone
    obtain ⟨-, rfl⟩ := node.inj heq
    rw [hnone] at hsome
    exact absurd hsome (by simp)

theorem wasLeft_finish {f : Form} {before : Sweep} {visited : List Tree × Sweep} (hps : ∀ p ∈ visited.1, p.EachScope (WasLeft L))
    (hleft : L f visited.1 visited.2) : (finish o before f visited).1.EachScope (WasLeft L) := by
  have hnode := wasLeft_leave hps hleft
  unfold finish
  simp only
  split
  · cases ht : tryRewrite o (visited.2.leave f visited.1).1 (visited.2.leave f visited.1).2 with
    | none => exact hnode
    | some x => exact hnode.tryRewrite folds_wasLeft ht
  · exact hnode

/-- What holds of each tree as it is visited in its turn holds of all of them. -/
theorem forall_visitAll {P : Tree → Prop} {d : Nat} {ps : List Tree} {s : Sweep}
    (h : ∀ before p after, ps = before ++ p :: after → P (visitWith o (again o d) p (visitAll o d before s).2).1) :
    ∀ q ∈ (visitAll o d ps s).1, P q := by
  induction ps generalizing s with
  | nil =>
    rw [visitAll_eq, visitAllWith]
    simp
  | cons p ps ih =>
    have hcons : ∀ qs, visitAll o d (p :: qs) s =
        ((visitWith o (again o d) p s).1 :: (visitAll o d qs (visitWith o (again o d) p s).2).1,
          (visitAll o d qs (visitWith o (again o d) p s).2).2) := by
      intro qs
      rw [visitAll_eq, visitAllWith]
    rw [hcons]
    simp only [List.mem_cons, forall_eq_or_imp]
    refine ⟨?_, ih fun before q after heq => ?_⟩
    · have hfirst := h [] p ps rfl
      rwa [visitAll_eq, visitAllWith] at hfirst
    · have hnext := h (p :: before) q after (by rw [heq]; rfl)
      rwa [hcons] at hnext

theorem wasLeft_of_turns {d d' : Nat} {t : Tree} {f : Form} {ps : List Tree} {s₀ s₁ : Sweep}
    (turned : Turns o d t s₀ d' (.node f ps) s₁) (hL : ∀ g qs s, Leaves o d t s₀ g qs s → L g qs s)
    (hps : ∀ p ∈ ps, ∀ s, (∀ g qs s', Leaves o d' p s g qs s' → L g qs s') →
      (visitWith o (again o d') p s).1.EachScope (WasLeft L)) :
    (visitWith o (again o d) t s₀).1.EachScope (WasLeft L) := by
  rw [turned.visit]
  refine wasLeft_finish (forall_visitAll fun before p after heq => ?_) (hL _ _ _ (.here turned rfl))
  subst heq
  exact hps p (by simp) _ fun g qs s hleft => hL g qs s (.part turned rfl hleft)

/-- A visit that goes deep enough leaves every scope of the tree that comes out. -/
theorem wasLeft_visit {d : Nat} {t : Tree} {s₀ : Sweep} (ht : t.branchings ≤ d) (hL : ∀ g qs s, Leaves o d t s₀ g qs s → L g qs s) :
    (visitWith o (again o d) t s₀).1.EachScope (WasLeft L) := by
  -- A rewrite takes a choice away, so that what is visited in its place needs one rewrite less below it.
  induction d using Nat.strong_induction_on generalizing t s₀ with
  | _ d ihd =>
    induction t generalizing s₀ with
    | node f ps iht =>
      cases h : tryRewrite o (.node f ps) s₀ with
      | none => exact wasLeft_of_turns (.kept h) hL fun p hp s hleft => iht p hp ((branchings_le_node f hp).trans ht) hleft
      | some x =>
        obtain ⟨⟨g, qs⟩, s₁⟩ := x
        have hless := (branchings_of_tryRewrite h).1
        obtain _ | d := d
        · omega
        · refine wasLeft_of_turns (.replaced h) hL fun q hq s hleft => ihd d (Nat.lt_succ_self d) ?_ hleft
          have hpart := branchings_le_node g hq
          omega

/-- Every scope in the program after a sweep is what has become of one that was left in the sweep. -/
theorem exists_left (ss : List Tree) : ∀ u ∈ nodesAll (overStatements o ss).1, (Scope.of? u.form u.parts).isSome = true →
    WasLeft (LeavesIn o ss) u.form u.parts := by
  have hvisited : ∀ p ∈ (⟨none, (visitAll o (sizeAll ss) ss (entered ss)).1⟩ : Scope).statements,
      p.EachScope (WasLeft (LeavesIn o ss)) := by
    refine forall_visitAll fun before p after heq => ?_
    subst heq
    exact wasLeft_visit (branchings_le_sizeAll (by simp)) fun g qs s hleft => .mk rfl hleft
  have hleft := EachScope.statementwise.leaveScope hvisited (visitAll o (sizeAll ss) ss (entered ss)).2
  intro u hu
  obtain ⟨p, hp, hu⟩ := mem_nodesAll.1 hu
  exact hleft p hp u hu

/-! ## The nodes around an attempt -/

theorem length_visitAll {d : Nat} {ps ps' : List Tree} {s s' : Sweep} (h : visitAll o d ps s = (ps', s')) : ps'.length = ps.length := by
  have hlength := ((preserves_uses o "").visitAll d ps s).length_eq
  rw [h] at hlength
  exact hlength.symm

/-- Each node around an expression that is tried is left, and so is its scope if it has opened one. -/
theorem Passes.leaves {d : Nat} {t u : Tree} {s₀ s : Sweep} {ls : List Level} (h : Passes o d t s₀ ls u s) :
    ∀ l ∈ ls, Leaves o d t s₀ l.around.form l.parts l.state ∧ (l.IsScope → Scope.of? l.around.form l.parts = some l.last) := by
  induction h with
  | first => simp
  | @part d d' t p u f before before' after ps' s₀ s₁ s₂ s₃ s ls turned visited whole passes ih =>
    intro l hl
    rcases List.mem_append.1 hl with hl | hl
    · exact (ih l hl).imp_left (.part turned visited)
    · obtain rfl := List.mem_singleton.1 hl
      refine ⟨.here turned whole, fun hscope => ?_⟩
      have hsome : (Scope.of? f ps').isSome = true := by
        rw [Scope.isSome_of?_congr f (length_visitAll whole)]
        unfold Level.IsScope Scope.ownedBy at hscope
        rwa [Option.isSome_map] at hscope
      obtain ⟨scope, hof⟩ := Option.isSome_iff_exists.1 hsome
      rw [Level.last, Scope.ofNode, hof]
      rfl
  | last => simp

/-- The outermost of them is the program; the statements that are left of it are the program after the sweep. -/
theorem Attempts.leaves {ss : List Tree} {u : Tree} {s : Sweep} {ls inner outer : List Level} {l : Level} (h : Attempts o ss ls u s)
    (heq : ls = inner ++ l :: outer) :
    outer = [] ∧ (l.state.leaveScope l.last).1 = (overStatements o ss).1 ∨
      outer ≠ [] ∧ LeavesIn o ss l.around.form l.parts l.state ∧ (l.IsScope → Scope.of? l.around.form l.parts = some l.last) := by
  cases h with
  | mk visited whole passes =>
    rcases eq_or_of_append_singleton heq with ⟨-, rfl, rfl⟩ | ⟨outer', rfl, hsame⟩
    · refine .inl ⟨rfl, ?_⟩
      unfold overStatements
      simp only
      rw [← entered, whole]
      rfl
    · obtain ⟨hleft, hscope⟩ := passes.leaves l (by simp [hsame])
      exact .inr ⟨by simp, .mk visited hleft, hscope⟩

end Sweep

end Chainlift

import Chainlift.Proofs.Cleaning
import Chainlift.Proofs.Locality
import Chainlift.Proofs.Preservation

/-!
# From an attempt to the end of the sweep

After an expression has been tried, the sweep goes on with the rest of the nodes around it and leaves one after the other. For each
of these nodes a `Level` holds what it is at the moment of the attempt, and what has become of its parts when it is about to be
left (`Sweep.Tries.exists_passes`). A scope declares the same names at both times and when it was entered
(`Sweep.Passes.alike`), and what the attempt takes away does not come back (`Sweep.Passes.changed`).
-/

namespace Chainlift

open Tree

namespace Sweep

/-! ## Levels -/

/-- A node around an expression that is tried: as it is then, with this tree in the place where the expression is, and its parts and
the state when it is about to be left. -/
structure Level where
  around : Enclosure
  inside : Tree
  parts : List Tree
  state : Sweep

/-- The tree around an expression, with the expression in it. -/
def Level.fillAll (ls : List Level) (t : Tree) : Tree := Enclosure.fillAll (ls.map (·.around)) t

theorem Level.fillAll_append_singleton (ls : List Level) (l : Level) (t : Tree) :
    fillAll (ls ++ [l]) t = l.around.fill (fillAll ls t) := by
  rw [fillAll, List.map_append, Enclosure.fillAll_append]
  rfl

/-- In the visit of a tree an expression is tried, and then the nodes around it are visited to their ends. -/
inductive Passes (o : Options) : Nat → Tree → Sweep → List Level → Tree → Sweep → Prop where
  | first {d : Nat} {t : Tree} {s : Sweep} : Passes o d t s [] t s
  | part {d d' : Nat} {t p u : Tree} {f : Form} {before before' after ps' : List Tree} {s₀ s₁ s₂ s₃ s : Sweep} {ls : List Level}
      (turned : Turns o d t s₀ d' (.node f (before ++ p :: after)) s₁)
      (visited : visitAll o d' before (s₁.enter f (before ++ p :: after)) = (before', s₂))
      (whole : visitAll o d' (before ++ p :: after) (s₁.enter f (before ++ p :: after)) = (ps', s₃))
      (passes : Passes o d' p s₂ ls u s) :
      Passes o d t s₀
        (ls ++ [⟨⟨f, before', after, Scope.ownedBy f (before ++ p :: after)⟩, Level.fillAll ls u, ps', s₃⟩]) u s
  | last {d d' : Nat} {t : Tree} {f : Form} {ps ps' : List Tree} {s₀ s₁ s₂ : Sweep}
      (turned : Turns o d t s₀ d' (.node f ps) s₁)
      (visited : visitAll o d' ps (s₁.enter f ps) = (ps', s₂))
      (rewritten : s₁.rewrites < (s₂.leave f ps').2.rewrites) :
      Passes o d t s₀ [] (s₂.leave f ps').1 (s₂.leave f ps').2

/-- A sweep over statements tries an expression, and then the nodes around it are visited to their ends; the outermost of them is
the program. -/
inductive Attempts (o : Options) : List Tree → List Level → Tree → Sweep → Prop where
  | mk {p u : Tree} {before before' after ps' : List Tree} {s₂ s₃ s : Sweep} {ls : List Level}
      (visited : visitAll o (sizeAll (before ++ p :: after)) before (entered (before ++ p :: after)) = (before', s₂))
      (whole : visitAll o (sizeAll (before ++ p :: after)) (before ++ p :: after) (entered (before ++ p :: after)) = (ps', s₃))
      (passes : Passes o (sizeAll (before ++ p :: after)) p s₂ ls u s) :
      Attempts o (before ++ p :: after)
        (ls ++ [⟨⟨.body [], before', after, some (Scope.owned ⟨none, before ++ p :: after⟩)⟩, Level.fillAll ls u, ps', s₃⟩]) u s

variable {o : Options}

theorem Passes.tries {d : Nat} {t u : Tree} {s₀ s : Sweep} {ls : List Level} (h : Passes o d t s₀ ls u s) :
    Tries o d t s₀ (ls.map (·.around)) u s := by
  induction h with
  | first => exact .first
  | part turned visited _ _ ih =>
    rw [List.map_append]
    exact .part turned visited ih
  | last turned visited rewritten => exact .last turned visited rewritten

/-- Whatever is tried, the sweep goes on from there. -/
theorem Tries.exists_passes {d : Nat} {t u : Tree} {s₀ s : Sweep} {around : List Enclosure} (h : Tries o d t s₀ around u s) :
    ∃ ls, ls.map (·.around) = around ∧ Passes o d t s₀ ls u s := by
  induction h with
  | first => exact ⟨[], rfl, .first⟩
  | part turned visited _ ih =>
    obtain ⟨ls, rfl, hpasses⟩ := ih
    exact ⟨_, by rw [List.map_append]; rfl, .part turned visited rfl hpasses⟩
  | last turned visited rewritten => exact ⟨[], rfl, .last turned visited rewritten⟩

theorem Attempts.reaches {ss : List Tree} {ls : List Level} {u : Tree} {s : Sweep} (h : Attempts o ss ls u s) :
    Reaches o ss ⟨ls.map (·.around), u, s⟩ := by
  cases h with
  | mk visited _ passes =>
    rw [List.map_append]
    exact .now visited passes.tries

/-- The statements of a program after so many sweeps. -/
def sweeps (o : Options) (n : Nat) (ss : List Tree) : List Tree := (fun ss => (overStatements o ss).1)^[n] ss

theorem sweeps_succ (o : Options) (n : Nat) (ss : List Tree) : sweeps o (n + 1) ss = (overStatements o (sweeps o n ss)).1 :=
  Function.iterate_succ_apply' ..

/-- Every moment of a program is an attempt of one of its sweeps. -/
theorem Reaches.exists_attempts {ss : List Tree} {m : Moment} (h : Reaches o ss m) :
    ∃ n ls, ls.map (·.around) = m.around ∧ Attempts o (sweeps o n ss) ls m.candidate m.state := by
  induction h with
  | now visited tried =>
    obtain ⟨ls, rfl, hpasses⟩ := tried.exists_passes
    exact ⟨0, _, by rw [List.map_append]; rfl, .mk visited rfl hpasses⟩
  | later _ ih =>
    obtain ⟨n, ls, hls, hattempts⟩ := ih
    exact ⟨n + 1, ls, hls, hattempts⟩

/-- In a list with one more level at its end, a level is that one or one of the others. -/
theorem eq_or_of_append_singleton {ls inner outer : List Level} {x l : Level} (h : ls ++ [x] = inner ++ l :: outer) :
    (ls = inner ∧ x = l ∧ outer = []) ∨ ∃ outer', outer = outer' ++ [x] ∧ ls = inner ++ l :: outer' := by
  rcases List.eq_nil_or_concat outer with rfl | ⟨outer', y, rfl⟩
  · obtain ⟨hls, hx⟩ := List.append_inj' h rfl
    exact .inl ⟨hls, List.singleton_inj.1 hx, rfl⟩
  · rw [List.concat_eq_append, ← List.cons_append, ← List.append_assoc] at h
    obtain ⟨hls, hx⟩ := List.append_inj' h rfl
    obtain rfl := List.singleton_inj.1 hx
    exact .inr ⟨outer', List.concat_eq_append, hls⟩

/-- The tree that a level shows is the expression with the inner nodes around it. -/
theorem Passes.inside_eq {d : Nat} {t u : Tree} {s₀ s : Sweep} {ls : List Level} (h : Passes o d t s₀ ls u s) :
    ∀ {inner l outer}, ls = inner ++ l :: outer → l.inside = Level.fillAll inner u := by
  induction h with
  | first => exact fun heq => absurd heq (by simp)
  | part _ _ _ _ ih =>
    intro inner l outer heq
    rcases eq_or_of_append_singleton heq with ⟨rfl, rfl, -⟩ | ⟨outer', -, hls⟩
    · rfl
    · exact ih hls
  | last => exact fun heq => absurd heq (by simp)

theorem Attempts.inside_eq {ss : List Tree} {u : Tree} {s : Sweep} {ls : List Level} (h : Attempts o ss ls u s)
    {inner outer : List Level} {l : Level} (heq : ls = inner ++ l :: outer) : l.inside = Level.fillAll inner u := by
  cases h with
  | mk _ _ passes =>
    rcases eq_or_of_append_singleton heq with ⟨rfl, rfl, -⟩ | ⟨outer', -, hls⟩
    · rfl
    · exact passes.inside_eq hls

/-! ## Visits -/

/-- Parts are visited one after the other. -/
theorem visitAll_append (d : Nat) (before : List Tree) (p : Tree) (after : List Tree) (s : Sweep) :
    visitAll o d (before ++ p :: after) s =
      let (before', s₁) := visitAll o d before s
      let (p', s₂) := visitWith o (again o d) p s₁
      let (after', s₃) := visitAll o d after s₂
      (before' ++ p' :: after', s₃) := by
  simp only [visitAll_eq]
  induction before generalizing s with
  | nil => rfl
  | cons b before ih =>
    rw [List.cons_append, visitAllWith, visitAllWith]
    simp only [ih]
    rfl

/-- The visit of a tree that has been tried for the first time. -/
theorem Turns.visit {d d' : Nat} {t : Tree} {f : Form} {ps : List Tree} {s s₁ : Sweep} (h : Turns o d t s d' (.node f ps) s₁) :
    visitWith o (again o d) t s = finish o s₁ f (visitAll o d' ps (s₁.enter f ps)) := by
  cases h with
  | kept h =>
    rw [visitWith.eq_def, visitAll_eq]
    simp only
    rw [h]
  | replaced h =>
    obtain ⟨g, qs⟩ := t
    rw [visitWith, h]
    rfl

/-! ## What is preserved -/

/-- What a sweep preserves between a tree and whatever comes of an expression when it has been tried. -/
structure Leads (o : Options) (R : Tree → Tree → Prop) (u : Tree) (s : Sweep) (w : Tree) : Prop where
  visit : ∀ d, R w (visitWith o (again o d) u s).1
  again : R w ((tryRewrite o u s).getD (u, s)).1

namespace Preserves

variable {R : Tree → Tree → Prop} (hR : Preserves o R)

include hR

theorem turns {d d' : Nat} {t u : Tree} {s s' : Sweep} (h : Turns o d t s d' u s') : R t u := by
  cases h with
  | kept _ => exact hR.refl t
  | replaced h => exact hR.rewrite h

/-- The expression itself leads to whatever comes of it. -/
theorem leads_self (u : Tree) (s : Sweep) : Leads o R u s u where
  visit d := hR.visit d u s
  again := by
    cases h : tryRewrite o u s with
    | none => exact hR.refl u
    | some x => exact hR.rewrite h

/-- So does what takes its place. -/
theorem leads_rewritten {u v : Tree} {s s' : Sweep} (h : tryRewrite o u s = some (v, s')) : Leads o R u s v where
  visit d := by
    obtain ⟨g, qs⟩ := u
    obtain ⟨f, ps⟩ := v
    rw [Sweep.visitWith, h]
    exact hR.finish (hR.again d _ _)
  again := by
    rw [h]
    exact hR.refl v

/-! ### Parts -/

section

variable {d : Nat} {p x : Tree} {before before' after ps' : List Tree} {s₁ s₂ s₃ : Sweep}

theorem forall₂_begun (visited : Sweep.visitAll o d before s₁ = (before', s₂)) (hx : R p x) :
    List.Forall₂ R (before ++ p :: after) (before' ++ x :: after) := by
  have hbefore := hR.visitAll d before s₁
  rw [visited] at hbefore
  exact List.rel_append hbefore (.cons hx (hR.forall₂_refl after))

theorem forall₂_whole (visited : Sweep.visitAll o d before s₁ = (before', s₂))
    (whole : Sweep.visitAll o d (before ++ p :: after) s₁ = (ps', s₃)) (hx : R x (Sweep.visitWith o (Sweep.again o d) p s₂).1) :
    List.Forall₂ R (before' ++ x :: after) ps' := by
  rw [visitAll_append, visited] at whole
  obtain ⟨rfl, -⟩ := Prod.mk.inj whole
  exact List.rel_append (hR.forall₂_refl before') (.cons hx (hR.visitAll d after _))

end

/-! ### Levels -/

/-- Between a tree and what it is when an expression in it is tried. -/
theorem entered {d : Nat} {t u : Tree} {s₀ s : Sweep} {ls : List Level} (h : Passes o d t s₀ ls u s) :
    R t (Level.fillAll ls u) := by
  induction h with
  | first => exact hR.refl _
  | part turned visited _ _ ih =>
    rw [Level.fillAll_append_singleton]
    exact hR.trans (hR.turns turned) (hR.node (hR.forall₂_begun visited ih))
  | @last d d' t f ps ps' s₀ s₁ s₂ turned visited _ =>
    have hps := hR.visitAll d' ps (s₁.enter f ps)
    rw [visited] at hps
    exact hR.trans (hR.turns turned) (hR.trans (hR.node hps) (hR.leave s₂ f ps'))

/-- Between a tree in which an expression is tried, or one with something else in its place, and what the visit makes of it. -/
theorem result {d : Nat} {t u w : Tree} {s₀ s : Sweep} {ls : List Level} (h : Passes o d t s₀ ls u s) (hw : Leads o R u s w) :
    R (Level.fillAll ls w) (Sweep.visitWith o (Sweep.again o d) t s₀).1 := by
  induction h with
  | first => exact hw.visit _
  | @part d d' t p u f before before' after ps' s₀ s₁ s₂ s₃ s ls turned visited whole _ ih =>
    rw [Level.fillAll_append_singleton, turned.visit, whole]
    exact hR.finish (hR.forall₂_whole visited whole (ih hw))
  | last turned visited rewritten =>
    rw [turned.visit, visited, Sweep.finish]
    simp only [rewritten, if_true]
    exact hw.again

/-- The same holds of the parts of each node around the expression. -/
theorem forall₂_parts {d : Nat} {t u w : Tree} {s₀ s : Sweep} {ls : List Level} (h : Passes o d t s₀ ls u s)
    (hw : Leads o R u s w) : ∀ {inner l outer}, ls = inner ++ l :: outer →
      List.Forall₂ R (l.around.parts (Level.fillAll inner w)) l.parts := by
  induction h with
  | first => exact fun heq => absurd heq (by simp)
  | part _ visited whole passes ih =>
    intro inner l outer heq
    rcases eq_or_of_append_singleton heq with ⟨rfl, rfl, -⟩ | ⟨outer', -, hls⟩
    · exact hR.forall₂_whole visited whole (hR.result passes hw)
    · exact ih hw hls
  | last => exact fun heq => absurd heq (by simp)

/-- And of the program. -/
theorem attempts {ss : List Tree} {u w : Tree} {s : Sweep} {ls : List Level} (h : Attempts o ss ls u s) (hw : Leads o R u s w)
    {inner outer : List Level} {l : Level} (heq : ls = inner ++ l :: outer) :
    List.Forall₂ R (l.around.parts (Level.fillAll inner w)) l.parts := by
  cases h with
  | mk visited whole passes =>
    rcases eq_or_of_append_singleton heq with ⟨rfl, rfl, -⟩ | ⟨outer', -, hls⟩
    · exact hR.forall₂_whole visited whole (hR.result passes hw)
    · exact hR.forall₂_parts passes hw hls

end Preserves

/-! ## Uses -/

/-- A sweep adds no use. -/
theorem preserves_uses (o : Options) (name : String) : Preserves o fun t u => u.uses name ≤ t.uses name where
  refl _ := Nat.le_refl _
  trans h h' := h'.trans h
  node h := by
    rw [uses_node, uses_node]
    refine Nat.add_le_add_left ?_ _
    induction h with
    | nil => exact Nat.le_refl _
    | cons h _ ih =>
      rw [List.map_cons, List.map_cons, List.sum_cons, List.sum_cons]
      exact Nat.add_le_add h ih
  rewrite h := by
    obtain ⟨r, kind, hr, haccept⟩ := accept_of_tryRewrite h
    obtain ⟨rfl, -⟩ := rewrites_accept haccept
    rw [← Measure.total_uses, ← Measure.total_uses]
    rcases hr with hr | ⟨-, hr⟩
    · exact (Measure.uses name).coalesce_le hr
    · exact (Measure.uses name).reconstruct_le hr
  leave s f ps := by
    rw [← Measure.total_uses, ← Measure.total_uses]
    exact (Measure.uses name).leave_le s f ps fun _ => Nat.le_refl _

theorem forall₂_of_isOrderly {ps qs : List Tree} (h : List.Forall₂ (fun t u => t.IsOrderly → DeclaresAlike t u) ps qs)
    (hps : ∀ p ∈ ps, p.IsOrderly) : List.Forall₂ DeclaresAlike ps qs := by
  induction h with
  | nil => exact .nil
  | cons h _ ih =>
    simp only [List.mem_cons, forall_eq_or_imp] at hps
    exact .cons (h hps.1) (ih hps.2)

/-- A sweep does not change what is declared. -/
theorem preserves_declaresAlike (o : Options) : Preserves o fun t u => t.IsOrderly → DeclaresAlike t u where
  refl _ ht := .refl ht
  trans h h' ht := (h ht).trans (h' (h ht).orderly)
  node h ht := .node ht (forall₂_of_isOrderly h fun p hp => (isOrderly_node.1 ht p hp).2)
  rewrite h := declaresAlike_tryRewrite h
  leave s _ _ := declaresAlike_leave s

end Sweep

/-! ## Scopes -/

namespace Scope

/-- The scope of a node that opens one, or of a program. -/
def ofNode (f : Form) (ps : List Tree) : Scope := (of? f ps).getD ⟨none, ps⟩

/-- The node opens a scope, or it holds a program. -/
def HasScope (f : Form) (ps : List Tree) : Prop := (of? f ps).isSome = true ∨ f = .body []

theorem HasScope.congr {f : Form} {ps qs : List Tree} (hlength : ps.length = qs.length) (h : HasScope f ps) : HasScope f qs :=
  h.imp_left fun h => by rwa [← isSome_of?_congr f hlength]

/-- The scopes declare the same, and values that can be skipped in the first one can be skipped in the second. -/
structure Alike (s s' : Scope) : Prop where
  parameterNames : s'.parameterNames = s.parameterNames
  variableNames : s'.variableNames = s.variableNames
  functionNames : s'.functionNames = s.functionNames
  initial : ∀ n, (∀ t ∈ s.statements, t.initialPure n = true) → ∀ t ∈ s'.statements, t.initialPure n = true

theorem Alike.declares_iff {s s' : Scope} (h : Alike s s') (name : String) : s'.Declares name ↔ s.Declares name := by
  unfold Declares
  rw [h.parameterNames, h.variableNames, h.functionNames]

theorem declared_bodyStatements (body : Tree) :
    declaredVariablesAll body.bodyStatements = body.declaredVariables ∧
      declaredFunctionsAll body.bodyStatements = body.declaredFunctions := by
  unfold bodyStatements
  split
  · exact ⟨rfl, rfl⟩
  · simp [declaredVariablesAll, declaredFunctionsAll]

theorem initialPure_bodyStatements {body : Tree} {n : String} :
    (∀ t ∈ body.bodyStatements, t.initialPure n = true) ↔ body.initialPure n = true := by
  unfold bodyStatements
  split
  · rw [initialPure, if_neg (by simp [Form.isFunction]), if_neg (by simp), initialPureAll_iff]
  · simp

theorem alike_bodyStatements {parameters parameters' body body' : Tree} (hparameters : DeclaresAlike parameters parameters')
    (hbody : DeclaresAlike body body') :
    Alike ⟨some parameters, body.bodyStatements⟩ ⟨some parameters', body'.bodyStatements⟩ where
  parameterNames := hparameters.boundNames
  variableNames := by
    rw [variableNames, variableNames, (declared_bodyStatements body).1, (declared_bodyStatements body').1, hbody.declaredVariables]
  functionNames := by
    rw [functionNames, functionNames, (declared_bodyStatements body).2, (declared_bodyStatements body').2, hbody.declaredFunctions]
  initial n h := initialPure_bodyStatements.2 (hbody.initial n (initialPure_bodyStatements.1 h))

theorem alike_statements {ss ss' : List Tree} (h : List.Forall₂ DeclaresAlike ss ss') : Alike ⟨none, ss⟩ ⟨none, ss'⟩ where
  parameterNames := rfl
  variableNames := (DeclaresAlike.declaredAll_eq h).1
  functionNames := (DeclaresAlike.declaredAll_eq h).2
  initial _ hss := initialPureAll_iff.1 (DeclaresAlike.initialPureAll h (initialPureAll_iff.2 hss))

/-- The scopes of nodes whose parts declare the same are alike. -/
theorem alike_ofNode {f : Form} {ps qs : List Tree} (hscope : HasScope f ps) (h : List.Forall₂ DeclaresAlike ps qs) :
    Alike (ofNode f ps) (ofNode f qs) := by
  unfold ofNode
  rcases hscope with hsome | rfl
  · obtain ⟨scope, hof⟩ := Option.isSome_iff_exists.1 hsome
    rw [hof]
    unfold of? at hof
    split at hof
    · obtain rfl := Option.some.inj hof
      obtain _ | ⟨-, _ | ⟨hparameters, _ | ⟨-, _ | ⟨hbody, _ | _⟩⟩⟩⟩ := h
      exact alike_bodyStatements hparameters hbody
    · obtain rfl := Option.some.inj hof
      obtain _ | ⟨hparameters, _ | ⟨-, _ | ⟨hbody, _ | _⟩⟩⟩ := h
      exact alike_bodyStatements hparameters hbody
    · obtain rfl := Option.some.inj hof
      exact alike_statements h
    · exact absurd hof (by simp)
  · exact alike_statements h

/-- The uses in a scope are those in the parts of its node that belong to the scope. -/
theorem uses_ofNode {f : Form} {ps : List Tree} (hscope : HasScope f ps) (name : String) :
    (ofNode f ps).parameterUses name + (ofNode f ps).statementUses name = scopeUses f name 0 ps := by
  unfold ofNode
  rcases hscope with hsome | rfl
  · obtain ⟨scope, hof⟩ := Option.isSome_iff_exists.1 hsome
    rw [← get_tally hof, tally_eq, hof]
    rfl
  · rw [scopeUses_eq_sum rfl, ← usesAll_eq_sum]
    exact Nat.zero_add _

theorem isStatement_ofNode {f : Form} {ps : List Tree} (hscope : HasScope f ps) (ht : (node f ps).IsOrderly) :
    ∀ t ∈ (ofNode f ps).statements, t.IsStatement := by
  unfold ofNode
  rcases hscope with hsome | rfl
  · obtain ⟨scope, hof⟩ := Option.isSome_iff_exists.1 hsome
    rw [hof]
    exact isStatement_statements hof ht
  · have hbody : (node (.body []) ps).IsStatement := ⟨ht, by simp [form]⟩
    exact isStatement_bodyStatements hbody

end Scope

namespace Sweep

namespace Level

/-- The node of the level has opened a scope. -/
def IsScope (l : Level) : Prop := l.around.owned.isSome = true

instance (l : Level) : Decidable l.IsScope := inferInstanceAs (Decidable (l.around.owned.isSome = true))

/-- The scope at the moment of the attempt. -/
def now (l : Level) : Scope := .ofNode l.around.form (l.around.parts l.inside)

/-- The scope when it is about to be left. -/
def last (l : Level) : Scope := .ofNode l.around.form l.parts

/-- What the sweep has made of a level: it was entered with certain parts, has others now, and is about to be left with others
again. -/
structure Continues (l : Level) (ps : List Tree) : Prop where
  orderly : (node l.around.form ps).IsOrderly
  entered : List.Forall₂ DeclaresAlike ps (l.around.parts l.inside)
  ends : List.Forall₂ DeclaresAlike (l.around.parts l.inside) l.parts
  owned : l.around.owned = Scope.ownedBy l.around.form ps ∨
    l.around.form = .body [] ∧ l.around.owned = some (Scope.owned ⟨none, ps⟩)

namespace Continues

variable {l : Level} {ps : List Tree} (h : l.Continues ps)

include h

theorem hasScope (hl : l.IsScope) : Scope.HasScope l.around.form ps := by
  unfold IsScope at hl
  rcases h.owned with howned | ⟨hform, -⟩
  · rw [howned, Scope.ownedBy, Option.isSome_map] at hl
    exact .inl hl
  · exact .inr hform

/-- The names that belong to the scope are those of its parameters and variables. -/
theorem owns_iff (hl : l.IsScope) (name : String) :
    l.around.Owns name ↔ name ∈ l.now.parameterNames ∨ name ∈ l.now.variableNames := by
  have hnow := Scope.alike_ofNode (h.hasScope hl) h.entered
  have howned : l.around.owned = some (Scope.owned (Scope.ofNode l.around.form ps)) := by
    unfold IsScope at hl
    rcases h.owned with howned | ⟨hform, howned⟩
    · rw [howned, Scope.ownedBy, Option.isSome_map] at hl
      obtain ⟨scope, hscope⟩ := Option.isSome_iff_exists.1 hl
      rw [howned, Scope.ownedBy, Scope.ofNode, hscope]
      rfl
    · rw [howned, hform]
      rfl
  unfold Enclosure.Owns now
  rw [hnow.parameterNames, hnow.variableNames, howned]
  simp [Scope.owned, or_comm]

theorem alike (hl : l.IsScope) : Scope.Alike l.now l.last :=
  Scope.alike_ofNode ((h.hasScope hl).congr h.entered.length_eq) h.ends

theorem hasScope_last (hl : l.IsScope) : Scope.HasScope l.around.form l.parts :=
  ((h.hasScope hl).congr h.entered.length_eq).congr h.ends.length_eq

theorem isStatement_last (hl : l.IsScope) : ∀ t ∈ l.last.statements, t.IsStatement :=
  Scope.isStatement_ofNode (h.hasScope_last hl)
    (DeclaresAlike.node (DeclaresAlike.node h.orderly h.entered).orderly h.ends).orderly

end Continues

end Level

/-- The scope around an expression, as it is when the expression is tried. -/
theorem Attempts.now_eq {ss : List Tree} {ls inner outer : List Level} {l : Level} {u : Tree} {s : Sweep} (h : Attempts o ss ls u s)
    (heq : ls = inner ++ l :: outer) :
    l.now = .ofNode l.around.form (l.around.parts (Enclosure.fillAll (inner.map (·.around)) u)) := by
  rw [Level.now, h.inside_eq heq]
  rfl

section

variable {o : Options} {d : Nat} {p u : Tree} {before before' after ps' : List Tree} {s₁ s₂ s₃ s : Sweep} {ls : List Level}

theorem forall₂_parts_of_isOrderly (hps : ∀ q ∈ before ++ p :: after, q.IsOrderly)
    (visited : visitAll o d before s₁ = (before', s₂)) (whole : visitAll o d (before ++ p :: after) s₁ = (ps', s₃))
    (passes : Passes o d p s₂ ls u s) :
    List.Forall₂ DeclaresAlike (before ++ p :: after) (before' ++ Level.fillAll ls u :: after) ∧
      List.Forall₂ DeclaresAlike (before' ++ Level.fillAll ls u :: after) ps' := by
  have hR := preserves_declaresAlike o
  have hbegun := forall₂_of_isOrderly (hR.forall₂_begun visited (hR.entered passes)) hps
  refine ⟨hbegun, forall₂_of_isOrderly (hR.forall₂_whole visited whole (hR.result passes (hR.leads_self u s))) fun q hq => ?_⟩
  obtain ⟨p, -, hpq⟩ := exists_of_forall₂ hbegun hq
  exact hpq.orderly

/-- Each node around an expression of an orderly tree continues as it was entered. -/
theorem Passes.continues {t : Tree} {s₀ : Sweep} (h : Passes o d t s₀ ls u s) (ht : t.IsOrderly) :
    ∀ l ∈ ls, ∃ ps, l.Continues ps := by
  induction h with
  | first => simp
  | @part d d' t p u f before before' after ps' s₀ s₁ s₂ s₃ s ls turned visited whole passes ih =>
    have hnode : (node f (before ++ p :: after)).IsOrderly := ((preserves_declaresAlike o).turns turned ht).orderly
    have hps : ∀ q ∈ before ++ p :: after, q.IsOrderly := fun q hq => (isOrderly_node.1 hnode q hq).2
    obtain ⟨hbegun, hwhole⟩ := forall₂_parts_of_isOrderly hps visited whole passes
    intro l hl
    rcases List.mem_append.1 hl with hl | hl
    · exact ih (hps p (by simp)) l hl
    · obtain rfl := List.mem_singleton.1 hl
      exact ⟨_, hnode, hbegun, hwhole, .inl rfl⟩
  | last => simp

theorem Attempts.continues {ss : List Tree} (h : Attempts o ss ls u s) (hss : (node (.body []) ss).IsOrderly) :
    ∀ l ∈ ls, ∃ ps, l.Continues ps := by
  cases h with
  | @mk p _ before _ after _ _ _ _ _ visited whole passes =>
    have hps : ∀ q ∈ before ++ p :: after, q.IsOrderly := fun q hq => (isOrderly_node.1 hss q hq).2
    obtain ⟨hbegun, hwhole⟩ := forall₂_parts_of_isOrderly hps visited whole passes
    intro l hl
    rcases List.mem_append.1 hl with hl | hl
    · exact passes.continues (hps p (by simp)) l hl
    · obtain rfl := List.mem_singleton.1 hl
      exact ⟨_, hss, hbegun, hwhole, .inr ⟨rfl, rfl⟩⟩

end

end Sweep

end Chainlift

import Chainlift.Proofs.Declarations
import Mathlib.Data.List.TakeWhile

/-!
# What cleaning leaves declared

When a scope is left, the names that rewrites have left behind are removed from it one after the other. The removal of a name
touches no other name: the scope declares the same other names afterwards, and what could be removed still can
(`Tree.Pruned`). So each of the names meets the scope as if it was the only one. A name that the scope does not declare goes on
to the scope around it (`Sweep.mem_escaped`), one that it declares does not (`Sweep.not_mem_escaped`), and one that nothing
keeps is not exposed anywhere in the scope any more (`Sweep.not_exposes_clean`).
-/

namespace Chainlift

open Tree

namespace Tree

variable {name : String}

/-! ## Parts of pruned statements -/

theorem form_pruned (name : String) (t : Tree) : (t.pruned name).form = t.form := by
  obtain ⟨f, ps⟩ := t
  unfold pruned
  split
  · rfl
  · split <;> rfl

theorem mem_parts_pruned {f : Form} {ps : List Tree} {q : Tree}
    (hq : q ∈ tidied f (prunedParts name (hasFixedHead f) ps)) :
    q = absent ∨ q = .node .emptyStmt [] ∨ ∃ p ∈ ps, q = p ∨ q = p.pruned name := by
  have hmem : ∀ {fixedHead : Bool} {r : Tree}, r ∈ prunedParts name fixedHead ps → ∃ p ∈ ps, r = p ∨ r = p.pruned name := by
    intro fixedHead r hr
    cases ps with
    | nil => exact absurd hr (by simp [prunedParts])
    | cons p ps =>
      rw [prunedParts, prunedParts_false] at hr
      rcases List.mem_cons.1 hr with rfl | hr
      · refine ⟨p, List.mem_cons_self, ?_⟩
        split
        · exact .inl rfl
        · exact .inr rfl
      · obtain ⟨p, hp, rfl⟩ := List.mem_map.1 hr
        exact ⟨p, List.mem_cons_of_mem _ hp, .inr rfl⟩
  have hremains : ∀ {isFirst : Bool} {r : Tree}, r ∈ prunedParts name (hasFixedHead f) ps → q ∈ f.remains isFirst r →
      q = absent ∨ q = .node .emptyStmt [] ∨ ∃ p ∈ ps, q = p ∨ q = p.pruned name := by
    intro isFirst r hr hq
    rcases Form.mem_remains hq with rfl | rfl | rfl
    · exact .inl rfl
    · exact .inr (.inl rfl)
    · exact .inr (.inr (hmem hr))
  cases hr : prunedParts name (hasFixedHead f) ps with
  | nil =>
    rw [hr, tidied_nil] at hq
    exact absurd hq (by simp)
  | cons r rs =>
    rw [hr] at hremains
    rw [hr, tidied_cons] at hq
    rcases List.mem_append.1 hq with hq | hq
    · exact hremains List.mem_cons_self hq
    · obtain ⟨r', hr', hq⟩ := List.mem_flatMap.1 hq
      exact hremains (List.mem_cons_of_mem _ hr') hq

/-- What is collected from statements is the same after tidying, if nothing is collected from what goes and from what comes in its
place. -/
theorem flatMap_tidied {α : Type} {g : Tree → List α} (hemptied : ∀ t, t.isEmptied = true → g t = [])
    (habsent : g absent = []) (hempty : g (.node .emptyStmt []) = []) (f : Form) (ps : List Tree) :
    (tidied f ps).flatMap g = ps.flatMap g := by
  have hremains : ∀ isFirst t, (f.remains isFirst t).flatMap g = g t := by
    intro isFirst t
    cases ht : t.isEmptied with
    | false => rw [Form.remains_of_isEmptied ht, List.flatMap_singleton]
    | true =>
      rw [hemptied t ht, List.flatMap_eq_nil_iff]
      intro u hu
      rcases Form.mem_remains hu with rfl | rfl | rfl
      · exact habsent
      · exact hempty
      · exact hemptied _ ht
  cases ps with
  | nil => rw [tidied_nil]
  | cons p ps => simp only [tidied_cons, List.flatMap_append, List.flatMap_assoc, hremains, List.flatMap_cons]

theorem flatMap_prunedParts {α : Type} {g : Tree → List α} {ps : List Tree} (h : ∀ p ∈ ps, g (p.pruned name) = g p)
    (fixedHead : Bool) : (prunedParts name fixedHead ps).flatMap g = ps.flatMap g := by
  induction ps generalizing fixedHead with
  | nil => rfl
  | cons p ps ih =>
    simp only [List.mem_cons, forall_eq_or_imp] at h
    rw [prunedParts, List.flatMap_cons, List.flatMap_cons, ih h.2]
    cases fixedHead with
    | true => rfl
    | false => exact congrArg (· ++ _) h.1

/-! ## Declared names -/

theorem declaredVariablesAll_eq (ts : List Tree) : declaredVariablesAll ts = ts.flatMap declaredVariables := by
  induction ts with
  | nil => rfl
  | cons t ts ih => rw [declaredVariablesAll, ih, List.flatMap_cons]

theorem declaredFunctionsAll_eq (ts : List Tree) : declaredFunctionsAll ts = ts.flatMap declaredFunctions := by
  induction ts with
  | nil => rfl
  | cons t ts ih => rw [declaredFunctionsAll, ih, List.flatMap_cons]

/-- A node that declares nothing itself declares what its parts do. -/
theorem declared_node {f : Form} (hd : f.declares = false) (hs : f.opensScope = false) (ps : List Tree) :
    (node f ps).declaredVariables = ps.flatMap declaredVariables ∧ (node f ps).declaredFunctions = ps.flatMap declaredFunctions := by
  have hvariables : ownVariables f ps = [] := by
    unfold ownVariables
    split
    · exact absurd hd (by simp [Form.declares])
    · rfl
  have hfunctions : ownFunctions f ps = [] := by
    unfold ownFunctions
    split
    · exact absurd hd (by simp [Form.declares])
    · rfl
  rw [declaredVariables, declaredFunctions, hvariables, hfunctions, hs, if_neg (by simp), if_neg (by simp), List.nil_append,
    List.nil_append, declaredVariablesAll_eq, declaredFunctionsAll_eq]
  exact ⟨rfl, rfl⟩

theorem declared_of_isEmptied {t : Tree} (h : t.isEmptied = true) : t.declaredVariables = [] ∧ t.declaredFunctions = [] := by
  induction t with
  | node f ps ih =>
    by_cases hcommented : ∃ cs t, node f ps = commented cs t
    · obtain ⟨cs, t, heq⟩ := hcommented
      obtain ⟨rfl, rfl⟩ := node.inj heq
      rw [isEmptied_commented] at h
      obtain ⟨hvariables, hfunctions⟩ := declared_node (f := .commented cs) rfl rfl [t]
      rw [hvariables, hfunctions, List.flatMap_singleton, List.flatMap_singleton]
      exact ih t (by simp) h
    · by_cases hdeclaration : ∃ kind, f = .declaration kind
      · obtain ⟨kind, rfl⟩ := hdeclaration
        unfold isEmptied uncommented at h
        split at h
        · rename_i heq
          obtain ⟨-, rfl⟩ := node.inj heq
          exact declared_node rfl rfl []
        · exact absurd h (by simp)
      · rw [isEmptied_node (fun kind h => hdeclaration ⟨kind, h⟩) fun cs t h => hcommented ⟨cs, t, h⟩] at h
        exact absurd h (by simp)

/-- A declarator of just a name declares that name and nothing else. -/
theorem declared_of_declares {d : Tree} (ht : d.IsOrderly) (h : d.declares name = true) :
    d.declaredVariables = [name] ∧ d.declaredFunctions = [] := by
  unfold declares at h
  split at h
  · rename_i n qs rest
    obtain rfl := beq_iff_eq.1 h
    have hnothing : ∀ p ∈ node (.binding n) qs :: rest, p.declaredVariables = [] ∧ p.declaredFunctions = [] := fun p hp =>
      declared_of_declaresNothing ((fits_iff.1 (isOrderly_node.1 ht p hp).1).2.1 rfl)
    have hvariables : declaredVariablesAll (node (.binding n) qs :: rest) = [] := by
      rw [declaredVariablesAll_eq, List.flatMap_eq_nil_iff]
      exact fun p hp => (hnothing p hp).1
    have hfunctions : declaredFunctionsAll (node (.binding n) qs :: rest) = [] := by
      rw [declaredFunctionsAll_eq, List.flatMap_eq_nil_iff]
      exact fun p hp => (hnothing p hp).2
    rw [declaredVariables, declaredFunctions, hvariables, hfunctions]
    exact ⟨rfl, rfl⟩
  · exact absurd h (by simp)

theorem declares_of_holdsStatements {f : Form} (hf : holdsStatements f = true) :
    f.declares = false ∧ f.opensScope = false ∧ f.isFunction = false ∧ f.isDeclaration = false ∧ f.isOperation = false := by
  cases f <;> first | exact ⟨rfl, rfl, rfl, rfl, rfl⟩ | exact absurd hf (by simp [holdsStatements])

/-- The statement declares the same other variables, and the same functions. -/
theorem declared_pruned {t : Tree} (ht : t.IsOrderly) :
    (t.pruned name).declaredVariables.filter (· != name) = t.declaredVariables.filter (· != name) ∧
      (t.pruned name).declaredFunctions = t.declaredFunctions := by
  induction t with
  | node f ps ih =>
    have hps : ∀ p ∈ ps, p.IsOrderly := fun p hp => (isOrderly_node.1 ht p hp).2
    by_cases hdeclaration : ∃ kind, f = .declaration kind
    · obtain ⟨kind, rfl⟩ := hdeclaration
      rw [pruned]
      simp only [declared_node (f := .declaration kind) rfl rfl]
      clear ih ht
      induction ps with
      | nil => exact ⟨rfl, rfl⟩
      | cons d ds ih =>
        simp only [List.mem_cons, forall_eq_or_imp] at hps
        obtain ⟨hvariables, hfunctions⟩ := ih hps.2
        by_cases hd : d.declares name = true
        · obtain ⟨hd₁, hd₂⟩ := declared_of_declares hps.1 hd
          rw [List.filter_cons_of_neg (by simp [hd]), List.flatMap_cons, List.flatMap_cons, List.filter_append, hvariables,
            hfunctions, hd₁, hd₂]
          simp
        · rw [List.filter_cons_of_pos (by simpa using hd), List.flatMap_cons, List.flatMap_cons, List.flatMap_cons, List.flatMap_cons,
            List.filter_append, List.filter_append, hvariables, hfunctions]
          exact ⟨rfl, rfl⟩
    by_cases hf : holdsStatements f = true
    · obtain ⟨hd, hs, -⟩ := declares_of_holdsStatements hf
      rw [(pruned_of_holdsStatements name hf ps).1]
      simp only [declared_node hd hs, List.filter_flatMap]
      constructor
      · rw [flatMap_tidied (fun t h => by rw [(declared_of_isEmptied h).1]; rfl) rfl rfl,
          flatMap_prunedParts fun p hp => (ih p hp (hps p hp)).1]
      · rw [flatMap_tidied (fun t h => (declared_of_isEmptied h).2) rfl rfl,
          flatMap_prunedParts fun p hp => (ih p hp (hps p hp)).2]
    · rw [(pruned_eq_self name (by simpa using hf) (fun kind h => hdeclaration ⟨kind, h⟩) ps).1]
      exact ⟨rfl, rfl⟩

/-! ## What pruning keeps -/

/-- A statement, as it stands in a list. -/
def IsStatement (t : Tree) : Prop := t.IsOrderly ∧ t.form ≠ .declarator

theorem isOrderly_leaf (f : Form) : (node f []).IsOrderly := isOrderly_node.2 (by simp)

theorem isOrderly_pruned {t : Tree} (ht : t.IsOrderly) : (t.pruned name).IsOrderly := by
  induction t with
  | node f ps ih =>
    have hparts := isOrderly_node.1 ht
    by_cases hdeclaration : ∃ kind, f = .declaration kind
    · obtain ⟨kind, rfl⟩ := hdeclaration
      rw [pruned]
      exact isOrderly_node.2 fun p hp => hparts p (List.mem_of_mem_filter hp)
    by_cases hf : holdsStatements f = true
    · obtain ⟨-, -, -, hdeclaration, hoperation⟩ := declares_of_holdsStatements hf
      have hholds : f.holdsDeclarations = true := by rw [Form.holdsDeclarations, hf]; rfl
      have hfits : ∀ q : Tree, fits f q = true ↔ q.form ≠ .declarator := by
        intro q
        rw [fits_iff, hdeclaration, hholds, hoperation]
        simp
      rw [(pruned_of_holdsStatements name hf ps).1, isOrderly_node]
      intro q hq
      rcases mem_parts_pruned hq with rfl | rfl | ⟨p, hp, rfl | rfl⟩
      · exact ⟨(hfits _).2 (by simp [form]), isOrderly_leaf _⟩
      · exact ⟨(hfits _).2 (by simp [form]), isOrderly_leaf _⟩
      · exact hparts q hp
      · exact ⟨(hfits _).2 (by rw [form_pruned]; exact (hfits p).1 (hparts p hp).1), ih p hp (hparts p hp).2⟩
    · rw [(pruned_eq_self name (by simpa using hf) (fun kind h => hdeclaration ⟨kind, h⟩) ps).1]
      exact ht

theorem IsStatement.pruned {t : Tree} (ht : t.IsStatement) (name : String) : (t.pruned name).IsStatement :=
  ⟨isOrderly_pruned ht.1, by rw [form_pruned]; exact ht.2⟩

/-- Values that can be skipped stay so. -/
theorem initialPure_pruned {n : String} {t : Tree} (h : t.initialPure n = true) : (t.pruned name).initialPure n = true := by
  induction t with
  | node f ps ih =>
    by_cases hdeclaration : ∃ kind, f = .declaration kind
    · obtain ⟨kind, rfl⟩ := hdeclaration
      rw [pruned, initialPure, if_neg (by simp [Form.isFunction]), if_neg (by simp)]
      exact initialPureAll_iff.2 fun p hp => initialPure_parts rfl (by simp) h p (List.mem_of_mem_filter hp)
    by_cases hf : holdsStatements f = true
    · obtain ⟨hd, -, hfunction, -⟩ := declares_of_holdsStatements hf
      have hdeclarator : f ≠ .declarator := by
        rintro rfl
        exact absurd hd (by simp [Form.declares])
      have hparts := initialPure_parts hfunction hdeclarator h
      rw [(pruned_of_holdsStatements name hf ps).1, initialPure, if_neg (by simp [hfunction]), if_neg (by simpa using hdeclarator)]
      refine initialPureAll_iff.2 fun q hq => ?_
      rcases mem_parts_pruned hq with rfl | rfl | ⟨p, hp, rfl | rfl⟩
      · rfl
      · rfl
      · exact hparts q hp
      · exact ih p hp (hparts p hp)
    · rw [(pruned_eq_self name (by simpa using hf) (fun kind h => hdeclaration ⟨kind, h⟩) ps).1]
      exact h

/-! ## Lists of statements -/

/-- Statements after the removal of some names: the scope declares the same other variables and the same functions, and neither uses
nor values that count have come in. -/
structure Pruned (names : List String) (ss ss' : List Tree) : Prop where
  statement : ∀ s ∈ ss', s.IsStatement
  initial : ∀ n, (∀ s ∈ ss, s.initialPure n = true) → ∀ s ∈ ss', s.initialPure n = true
  declaredVariables : ∀ n, n ∉ names → (n ∈ declaredVariablesAll ss' ↔ n ∈ declaredVariablesAll ss)
  declaredFunctions : declaredFunctionsAll ss' = declaredFunctionsAll ss
  prunable : ∀ n, prunableAll n ss = 0 → prunableAll n ss' = 0
  uses : ∀ n, usesAll n ss' ≤ usesAll n ss

namespace Pruned

theorem refl {ss : List Tree} (h : ∀ s ∈ ss, s.IsStatement) : Pruned [] ss ss :=
  ⟨h, fun _ => id, fun _ _ => Iff.rfl, rfl, fun _ => id, fun _ => Nat.le_refl _⟩

theorem trans {names names' : List String} {ss ss' ss'' : List Tree} (h : Pruned names ss ss') (h' : Pruned names' ss' ss'') :
    Pruned (names ++ names') ss ss'' where
  statement := h'.statement
  initial n := h'.initial n ∘ h.initial n
  declaredVariables n hn := by
    rw [List.mem_append, not_or] at hn
    exact (h'.declaredVariables n hn.2).trans (h.declaredVariables n hn.1)
  declaredFunctions := h'.declaredFunctions.trans h.declaredFunctions
  prunable n := h'.prunable n ∘ h.prunable n
  uses n := (h'.uses n).trans (h.uses n)

theorem prunedAll {ss : List Tree} (h : ∀ s ∈ ss, s.IsStatement) (name : String) : Pruned [name] ss (prunedAll name ss) := by
  have hmem : ∀ {s}, s ∈ Tree.prunedAll name ss → ∃ t ∈ ss, t.pruned name = s := fun hs =>
    List.mem_map.1 (by rw [Tree.prunedAll, prunedParts_false] at hs; exact (List.mem_filter.1 hs).1)
  have hflatMap : ∀ {g : Tree → List String}, (∀ t, t.isEmptied = true → g t = []) → g .absent = [] →
      g (.node .emptyStmt []) = [] → (∀ s ∈ ss, g (s.pruned name) = g s) → (Tree.prunedAll name ss).flatMap g = ss.flatMap g := by
    intro g hemptied habsent hempty hg
    have htidied : tidied .block (prunedParts name false ss) = Tree.prunedAll name ss := rfl
    rw [← htidied, flatMap_tidied hemptied habsent hempty, flatMap_prunedParts hg]
  refine ⟨fun s hs => ?_, fun n hn s hs => ?_, fun n hn => ?_, ?_, fun n hn => ?_, fun n => ?_⟩
  · obtain ⟨t, ht, rfl⟩ := hmem hs
    exact (h t ht).pruned name
  · obtain ⟨t, ht, rfl⟩ := hmem hs
    exact initialPure_pruned (hn t ht)
  · have heq := hflatMap (g := fun t => t.declaredVariables.filter (· != name))
      (fun t ht => by rw [(declared_of_isEmptied ht).1]; rfl) rfl rfl fun s hs => (declared_pruned (h s hs).1).1
    rw [← List.filter_flatMap, ← List.filter_flatMap, ← declaredVariablesAll_eq, ← declaredVariablesAll_eq] at heq
    have hname : (n != name) = true := bne_iff_ne.2 (by simpa using hn)
    have hfilter : ∀ l : List String, n ∈ l ↔ n ∈ l.filter (· != name) := fun l => by rw [List.mem_filter, hname]; simp
    rw [hfilter, heq, ← hfilter]
  · rw [declaredFunctionsAll_eq, declaredFunctionsAll_eq]
    exact hflatMap (fun t ht => (declared_of_isEmptied ht).2) rfl rfl fun s hs => (declared_pruned (h s hs).1).2
  · rw [prunableAll, prunableParts_false, List.sum_eq_zero_iff] at hn ⊢
    intro k hk
    obtain ⟨s, hs, rfl⟩ := List.mem_map.1 hk
    obtain ⟨t, ht, rfl⟩ := hmem hs
    exact prunable_pruned (.inr (hn _ (List.mem_map_of_mem ht)))
  · have hle : ((Tree.prunedAll name ss).map (Measure.uses n).weight.total).sum ≤ (ss.map (Measure.uses n).weight.total).sum :=
      ((Measure.uses n).weight.filter_le _ _).trans
        ((Measure.uses n).weight.prunedParts_le name false fun p _ => (Measure.uses n).weight.pruned_le name p)
    rw [Measure.map_weight_total, Measure.map_weight_total] at hle
    simp only [funext (Measure.total_uses n)] at hle
    rwa [usesAll, usesAll, usesAll_eq_sum, usesAll_eq_sum]

theorem mono {names names' : List String} (hsub : names ⊆ names') {ss ss' : List Tree} (h : Pruned names ss ss') :
    Pruned names' ss ss' :=
  { h with declaredVariables := fun n hn => h.declaredVariables n fun hmem => hn (hsub hmem) }

end Pruned

end Tree

/-! ## Scopes -/

namespace Scope

/-- The scope binds the name by a parameter, by a variable declarator or by a function declaration. -/
def Declares (s : Scope) (name : String) : Prop :=
  name ∈ s.parameterNames ∨ name ∈ s.variableNames ∨ name ∈ s.functionNames

instance (s : Scope) (name : String) : Decidable (s.Declares name) :=
  inferInstanceAs (Decidable (name ∈ s.parameterNames ∨ name ∈ s.variableNames ∨ name ∈ s.functionNames))

theorem pruned_removeUnused {s : Scope} (h : ∀ t ∈ s.statements, t.IsStatement) (name : String) :
    Pruned [name] s.statements (s.removeUnused name).2 := by
  rcases s.removeUnused_cases name with ⟨-, heq⟩ | ⟨heq, -⟩
  · rw [heq]
    exact (Pruned.refl h).mono (by simp)
  · rw [heq]
    exact .prunedAll h name

/-- A name that the scope neither binds nor uses in its parameters is passed on. -/
theorem removeUnused_of_not_declares {s : Scope} {name : String} (h : ¬ s.Declares name) (hparameters : s.parameterUses name = 0) :
    s.removeUnused name = (.unbound, s.statements) := by
  unfold Declares at h
  simp only [not_or] at h
  unfold removeUnused
  simp [h.1, h.2.1, h.2.2, hparameters]

theorem removeUnused_ne_unbound {s : Scope} {name : String} (h : s.Declares name) : (s.removeUnused name).1 ≠ .unbound := by
  unfold removeUnused
  split
  · simp
  · rename_i hparameter
    split
    · simp
    · rename_i hfunction
      have hvariable : name ∈ s.variableNames := by
        simp only [Bool.or_eq_true, List.contains_iff_mem, not_or] at hparameter hfunction
        exact (h.resolve_left hparameter.1).resolve_right hfunction
      rw [if_neg (by simp [hvariable])]
      split <;> simp

/-- After the removal of a name that nothing keeps there is nothing left to remove. -/
theorem prunableAll_removeUnused {s : Scope} {name : String} (hparameter : name ∉ s.parameterNames)
    (hfunction : name ∉ s.functionNames) (hparameters : s.parameterUses name = 0) (hstatements : s.statementUses name = 0)
    (hinitial : ∀ t ∈ s.statements, t.initialPure name = true) : prunableAll name (s.removeUnused name).2 = 0 := by
  rcases s.removeUnused_cases name with ⟨hnot, heq⟩ | ⟨heq, -⟩
  · rw [heq]
    by_contra hsome
    have hvariable : name ∈ s.variableNames := by
      rw [prunableAll, prunableParts_false, List.sum_eq_zero_iff] at hsome
      simp only [not_forall] at hsome
      obtain ⟨k, hk, hne⟩ := hsome
      obtain ⟨t, ht, rfl⟩ := List.mem_map.1 hk
      exact mem_declaredVariablesAll ht (mem_declaredVariables hne)
    have hneeds : s.needs name = false := needs_eq_false.2 ⟨hstatements, hinitial, hsome⟩
    refine hnot (prunableAll name s.statements) ?_
    unfold removeUnused
    simp [hparameter, hfunction, hparameters, hvariable, hneeds]
  · rw [heq]
    exact prunableAll_prunedAll s.statements

end Scope

namespace Sweep

/-! ## One name after the other -/

/-- The scope when some names have been removed from it. -/
def Cleaned.scope (c : Cleaned) (parameters : Option Tree) : Scope := ⟨parameters, c.statements⟩

theorem Cleaned.add_statements (parameters : Option Tree) (c : Cleaned) (name : String) :
    (c.add parameters name).statements = ((c.scope parameters).removeUnused name).2 := by
  unfold Cleaned.add Cleaned.scope
  have hsame := Scope.removeUnused_cases ⟨parameters, c.statements⟩ name
  split
  · rename_i heq
    rw [heq]
  all_goals
    rename_i heq
    rcases hsame with ⟨-, h⟩ | ⟨h, -⟩
    · exact h.symm
    · rw [heq] at h
      exact absurd (congrArg Prod.fst h) (by simp)

theorem Cleaned.mem_escaped_add {parameters : Option Tree} {c : Cleaned} {name n : String} :
    n ∈ (c.add parameters name).escaped ↔
      n ∈ c.escaped ∨ n = name ∧ ((c.scope parameters).removeUnused name).1 = .unbound := by
  unfold Cleaned.add Cleaned.scope
  split
  · rename_i heq
    simp [heq]
  · rename_i heq
    simp [heq]
  · rename_i heq
    simp [heq]

section

variable {parameters : Option Tree} {c : Cleaned} {names : List String}

theorem pruned_foldl (h : ∀ s ∈ c.statements, s.IsStatement) :
    Pruned names c.statements (names.foldl (Cleaned.add parameters) c).statements := by
  induction names generalizing c with
  | nil => exact .refl h
  | cons name names ih =>
    have hone : Pruned [name] c.statements (c.add parameters name).statements := by
      rw [Cleaned.add_statements]
      exact Scope.pruned_removeUnused (s := c.scope parameters) h name
    exact hone.trans (ih hone.statement)

theorem mem_escaped_foldl {n : String} (hn : n ∈ c.escaped) : n ∈ (names.foldl (Cleaned.add parameters) c).escaped := by
  induction names generalizing c with
  | nil => exact hn
  | cons name names ih => exact ih (Cleaned.mem_escaped_add.2 (.inl hn))

theorem mem_of_mem_escaped_foldl {n : String} (hn : n ∈ (names.foldl (Cleaned.add parameters) c).escaped) :
    n ∈ c.escaped ∨ n ∈ names := by
  induction names generalizing c with
  | nil => exact .inl hn
  | cons name names ih =>
    rcases ih hn with hn | hn
    · rcases Cleaned.mem_escaped_add.1 hn with hn | ⟨rfl, -⟩
      · exact .inl hn
      · exact .inr List.mem_cons_self
    · exact .inr (List.mem_cons_of_mem _ hn)

end

/-- The names that are removed before the turn of a name comes. -/
def namesBefore (names : List String) (name : String) : List String := names.eraseDups.takeWhile (· != name)

/-- The scope when the turn of the name has come. -/
def turn (scope : Scope) (names : List String) (name : String) : Scope :=
  Cleaned.scope ((namesBefore names name).foldl (Cleaned.add scope.parameters) ⟨scope.statements, 0, []⟩) scope.parameters

theorem not_mem_namesBefore (names : List String) (name : String) : name ∉ namesBefore names name := fun h =>
  absurd (List.mem_takeWhile_imp h) (by simp)

/-- Each name has its turn once. -/
theorem eraseDups_eq {names : List String} {name : String} (h : name ∈ names) :
    ∃ rest, names.eraseDups = namesBefore names name ++ name :: rest ∧ name ∉ rest := by
  have hsplit := List.takeWhile_append_dropWhile (p := (· != name)) (l := names.eraseDups)
  have hnodup := nodup_eraseDups names
  cases hdrop : names.eraseDups.dropWhile (· != name) with
  | nil =>
    rw [hdrop, List.append_nil] at hsplit
    have hmem : name ∈ names.eraseDups.takeWhile (· != name) := by
      rw [hsplit]
      exact List.mem_eraseDups.2 h
    exact absurd hmem (not_mem_namesBefore names name)
  | cons n rest =>
    have hhead := List.head?_dropWhile_not (p := (· != name)) names.eraseDups
    rw [hdrop] at hhead
    obtain rfl : n = name := by simpa using hhead
    rw [hdrop] at hsplit
    refine ⟨rest, hsplit.symm, ?_⟩
    rw [← hsplit] at hnodup
    exact (List.nodup_cons.1 (List.nodup_append.1 hnodup).2.1).1

section

variable {scope : Scope} {names : List String} {name : String}

/-- What cleaning has come to when the turn of the name has come. -/
theorem exists_turn (scope : Scope) (h : name ∈ names) : ∃ (c : Cleaned) (rest : List String), c.scope scope.parameters = turn scope names name ∧
    clean scope names = rest.foldl (Cleaned.add scope.parameters) (c.add scope.parameters name) ∧
    name ∉ c.escaped ∧ name ∉ rest := by
  obtain ⟨rest, heq, hrest⟩ := eraseDups_eq h
  refine ⟨(namesBefore names name).foldl (Cleaned.add scope.parameters) ⟨scope.statements, 0, []⟩, rest, rfl, ?_, ?_, hrest⟩
  · rw [clean, heq, List.foldl_append, List.foldl_cons]
  · intro hescaped
    rcases mem_of_mem_escaped_foldl hescaped with hmem | hmem
    · exact absurd hmem (by simp)
    · exact not_mem_namesBefore names name hmem

variable (hscope : ∀ t ∈ scope.statements, t.IsStatement)

include hscope

theorem pruned_turn (names : List String) (name : String) :
    Pruned (namesBefore names name) scope.statements (turn scope names name).statements :=
  pruned_foldl (c := ⟨scope.statements, 0, []⟩) hscope

theorem pruned_clean : Pruned names scope.statements (clean scope names).statements :=
  (pruned_foldl (c := ⟨scope.statements, 0, []⟩) hscope).mono fun _ hn => List.mem_eraseDups.1 hn

/-- The names removed before do not matter to what the scope declares. -/
theorem turn_declares_iff : (turn scope names name).Declares name ↔ scope.Declares name := by
  have hpruned := pruned_turn hscope names name
  have hvariables := hpruned.declaredVariables name (not_mem_namesBefore names name)
  unfold Scope.Declares Scope.variableNames Scope.functionNames
  rw [hvariables, hpruned.declaredFunctions]
  rfl

/-- A name that the scope does not declare finds nothing there on its turn, and goes on to the scope around it. -/
theorem escapes (hname : name ∈ names) (hdeclares : ¬ scope.Declares name) (hparameters : scope.parameterUses name = 0) :
    (turn scope names name).removeUnused name = (.unbound, (turn scope names name).statements) ∧
      name ∈ (clean scope names).escaped := by
  have hanswer := Scope.removeUnused_of_not_declares (s := turn scope names name) (mt (turn_declares_iff hscope).1 hdeclares) hparameters
  obtain ⟨c, rest, hturn, heq, -, -⟩ := exists_turn scope hname
  refine ⟨hanswer, ?_⟩
  rw [heq]
  refine mem_escaped_foldl (Cleaned.mem_escaped_add.2 (.inr ⟨rfl, ?_⟩))
  rw [hturn, hanswer]

/-- A name that the scope declares goes no further. -/
theorem not_mem_escaped (hdeclares : scope.Declares name) : name ∉ (clean scope names).escaped := by
  by_cases hname : name ∈ names
  · obtain ⟨c, rest, hturn, heq, hescaped, hrest⟩ := exists_turn scope hname
    rw [heq]
    intro hmem
    rcases mem_of_mem_escaped_foldl hmem with hmem | hmem
    · rcases Cleaned.mem_escaped_add.1 hmem with hmem | ⟨-, hunbound⟩
      · exact hescaped hmem
      · rw [hturn] at hunbound
        exact Scope.removeUnused_ne_unbound ((turn_declares_iff hscope).2 hdeclares) hunbound
    · exact hrest hmem
  · intro hmem
    rcases mem_of_mem_escaped_foldl hmem with hmem | hmem
    · exact absurd hmem (by simp)
    · exact hname (List.mem_eraseDups.1 hmem)

/-- A name that nothing keeps is exposed in no statement that is left. -/
theorem not_exposes_clean (hname : name ∈ names) (hparameter : name ∉ scope.parameterNames)
    (hfunction : name ∉ scope.functionNames) (hparameters : scope.parameterUses name = 0) (hstatements : scope.statementUses name = 0)
    (hinitial : ∀ t ∈ scope.statements, t.initialPure name = true) : ∀ t ∈ (clean scope names).statements, ¬ t.Exposes name := by
  have hpruned := pruned_turn hscope names name
  have huses : (turn scope names name).statementUses name = 0 := Nat.le_zero.1 (hstatements ▸ hpruned.uses name)
  have hnone : name ∉ (turn scope names name).functionNames := by
    rw [Scope.functionNames, hpruned.declaredFunctions]
    exact hfunction
  have hremoved := Scope.prunableAll_removeUnused (s := turn scope names name) hparameter hnone hparameters huses
    (hpruned.initial name hinitial)
  obtain ⟨c, rest, hturn, heq, -, -⟩ := exists_turn scope hname
  have hadded : ∀ t ∈ (c.add scope.parameters name).statements, t.IsStatement := by
    rw [Cleaned.add_statements, hturn]
    exact (Scope.pruned_removeUnused hpruned.statement name).statement
  have hfinal : prunableAll name (clean scope names).statements = 0 := by
    rw [heq]
    refine (pruned_foldl hadded).prunable name ?_
    rw [Cleaned.add_statements, hturn]
    exact hremoved
  intro t ht
  obtain ⟨horderly, hform⟩ := (pruned_clean hscope).statement t ht
  refine not_exposes_of_prunable horderly hform ?_
  rw [prunableAll, prunableParts_false, List.sum_eq_zero_iff] at hfinal
  exact hfinal _ (List.mem_map_of_mem ht)

end

end Sweep

/-! ## Nodes that are left -/

namespace Scope

variable {f : Form} {ps ss : List Tree} {scope : Scope}

theorem fits_of_opensScope (hf : f.opensScope = true) (p : Tree) : fits f p = true ↔ p.form ≠ .declarator := by
  have hdeclaration : f.isDeclaration = false := by cases f <;> first | rfl | exact absurd hf (by simp [Form.opensScope, Form.isFunction])
  have hoperation : f.isOperation = false := by cases f <;> first | rfl | exact absurd hf (by simp [Form.opensScope, Form.isFunction])
  have hholds : f.holdsDeclarations = true := by rw [Form.holdsDeclarations, hf, Bool.or_true, Bool.true_or]
  rw [fits_iff, hdeclaration, hoperation, hholds]
  simp

theorem opensScope_of_of? (h : of? f ps = some scope) : f.opensScope = true := by
  cases hf : f.opensScope with
  | true => rfl
  | false =>
    rw [Sweep.of?_eq_none hf] at h
    exact absurd h (by simp)

theorem isStatement_bodyStatements {body : Tree} (h : body.IsStatement) : ∀ t ∈ body.bodyStatements, t.IsStatement := by
  unfold bodyStatements
  split
  · intro t ht
    obtain ⟨hfits, horderly⟩ := isOrderly_node.1 h.1 t ht
    refine ⟨horderly, fun hform => ?_⟩
    exact absurd ((fits_iff.1 hfits).1.1 hform) (by simp [Form.isDeclaration])
  · simpa using h

theorem isStatement_withStatements {body : Tree} (h : body.IsStatement) (hss : ∀ t ∈ ss, t.IsStatement) :
    (body.withStatements ss).IsStatement := by
  unfold withStatements
  split
  · refine ⟨isOrderly_node.2 fun t ht => ⟨fits_iff.2 ⟨?_, ?_, ?_⟩, (hss t ht).1⟩, by simp [form]⟩
    · exact ⟨fun hform => absurd hform (hss t ht).2, fun hdeclaration => absurd hdeclaration (by simp [Form.isDeclaration])⟩
    · exact fun hholds => absurd hholds (by simp [Form.holdsDeclarations, Form.conceals])
    · exact fun hoperation => absurd hoperation (by simp [Form.isOperation])
  · exact hss _ (by simp)
  · exact h

/-- The statements of the scope of an orderly node. -/
theorem isStatement_statements (h : of? f ps = some scope) (ht : (node f ps).IsOrderly) : ∀ t ∈ scope.statements, t.IsStatement := by
  have hparts : ∀ p ∈ ps, p.IsStatement := fun p hp =>
    have hp := isOrderly_node.1 ht p hp
    ⟨hp.2, (fits_of_opensScope (opensScope_of_of? h) p).1 hp.1⟩
  unfold of? at h
  split at h
  · obtain rfl := Option.some.inj h
    exact isStatement_bodyStatements (hparts _ (by simp))
  · obtain rfl := Option.some.inj h
    exact isStatement_bodyStatements (hparts _ (by simp))
  · obtain rfl := Option.some.inj h
    exact hparts
  · exact absurd h (by simp)

theorem isOrderly_put (h : of? f ps = some scope) (ht : (node f ps).IsOrderly) (hss : ∀ t ∈ ss, t.IsStatement) :
    (node f (put f ps ss)).IsOrderly := by
  have hfits := fits_of_opensScope (opensScope_of_of? h)
  have hparts : ∀ p ∈ ps, p.IsStatement := fun p hp =>
    have hp := isOrderly_node.1 ht p hp
    ⟨hp.2, (hfits p).1 hp.1⟩
  suffices hput : ∀ p ∈ put f ps ss, p.IsStatement from isOrderly_node.2 fun p hp => ⟨(hfits p).2 (hput p hp).2, (hput p hp).1⟩
  clear h ht hfits
  unfold put
  split
  · simp only [List.mem_cons, forall_eq_or_imp] at hparts ⊢
    obtain ⟨hname, hparameters, htype, hbody, hnil⟩ := hparts
    exact ⟨hname, hparameters, htype, isStatement_withStatements hbody hss, hnil⟩
  · simp only [List.mem_cons, forall_eq_or_imp] at hparts ⊢
    obtain ⟨hparameters, htype, hbody, hnil⟩ := hparts
    exact ⟨hparameters, htype, isStatement_withStatements hbody hss, hnil⟩
  · exact hss
  · exact hparts

/-- Whatever becomes of the statements of a node that opens a scope, the node declares the same for the scope around it. -/
theorem declaresAlike_put (h : of? f ps = some scope) (ht : (node f ps).IsOrderly) (hss : ∀ t ∈ ss, t.IsStatement)
    (hinitial : ∀ n, (∀ t ∈ scope.statements, t.initialPure n = true) → ∀ t ∈ ss, t.initialPure n = true) :
    DeclaresAlike (.node f ps) (.node f (put f ps ss)) where
  orderly := isOrderly_put h ht hss
  form := .inl rfl
  boundNames := by cases f <;> rfl
  declaredVariables := by
    rw [declaredVariables, declaredVariables, opensScope_of_of? h]
    rfl
  declaredFunctions := by
    have hown : ownFunctions f (put f ps ss) = ownFunctions f ps := by
      unfold of? at h
      split at h
      · rename_i name _ _ _
        cases name
        exact ownFunctions_cons ..
      · rfl
      · rfl
      · exact absurd h (by simp)
    rw [declaredFunctions, declaredFunctions, hown, opensScope_of_of? h]
    rfl
  nothing hp := by
    refine declaresNothing_node.2 ⟨(declaresNothing_node.1 hp).1, fun hs => ?_⟩
    rw [opensScope_of_of? h] at hs
    exact absurd hs (by simp)
  pure hp := by
    unfold of? at h
    split at h
    · rfl
    · rfl
    · exact absurd hp (by simp [isPure])
    · exact absurd h (by simp)
  initial n hp := by
    unfold of? at h
    split at h
    · rfl
    · rfl
    · obtain rfl := Option.some.inj h
      rw [initialPure, if_neg (by simp [Form.isFunction]), if_neg (by simp)] at hp ⊢
      exact initialPureAll_iff.2 (hinitial n (initialPureAll_iff.1 hp))
    · exact absurd h (by simp)
  exposed n hexposes := by
    have hf := opensScope_of_of? h
    rcases exposes_node.1 hexposes with hd | ⟨hs, -⟩
    · obtain rfl : f = .declarator := form_of_declares hd
      exact absurd hf (by simp [Form.opensScope, Form.isFunction])
    · rw [hf] at hs
      exact absurd hs (by simp)

end Scope

namespace Sweep

theorem pruned_leaveScope (s : Sweep) {scope : Scope} (h : ∀ t ∈ scope.statements, t.IsStatement) :
    ∃ names, Pruned names scope.statements (s.leaveScope scope).1 := by
  unfold leaveScope
  split
  · exact ⟨[], .refl h⟩
  · exact ⟨_, pruned_clean h⟩

/-- A node that is left declares for the scope around it what it did. -/
theorem declaresAlike_leave (s : Sweep) {f : Form} {ps : List Tree} (ht : (node f ps).IsOrderly) :
    DeclaresAlike (.node f ps) (s.leave f ps).1 := by
  unfold leave
  split
  · rename_i scope hscope
    obtain ⟨names, hpruned⟩ := pruned_leaveScope s (Scope.isStatement_statements hscope ht)
    exact Scope.declaresAlike_put hscope ht hpruned.statement hpruned.initial
  · exact .refl ht

end Sweep

end Chainlift

import Chainlift.Proofs.Additive
import Chainlift.Proofs.Consumption
import Chainlift.Proofs.Leftovers
import Chainlift.Proofs.Nesting
import Chainlift.Proofs.Origins

/-!
# Temporaries lose their declarations

A rewrite that is accepted leaves its temporaries behind in the scope that it is made in. If the replacement does not use such a
name, then the name goes from there from scope to scope to the nearest one that declares it, and no further. That scope has no use
of the name after the sweep, and no declarator of it that could go (`Sweep.Attempts.cleared`).

What a scope declares does not include names that patterns bind with a rest element. Where the nearest scope binds the name that
way only, it is passed over, and an outer variable of the same name goes instead (`Sweep.Attempts.cleared_false`).
-/

namespace Chainlift

open Tree

namespace Sweep

variable {o : Options}

/-! ## Accepted rewrites -/

/-- The replacement of an expression that a sweep makes: the restored `??` if it is accepted, or else the chain. -/
inductive Accepts (o : Options) (t : Tree) (s : Sweep) (r : Replacement) (s' : Sweep) : Prop where
  | coalesced (ho : o.coalescing = true) (hr : t.coalesce = some r) (ha : s.accept t r .coalescing = some (r.expr, s'))
  | linked (hno : o.coalescing = true → (t.coalesce.bind fun r => s.accept t r .coalescing) = none) (hb : t.isBranching = true)
      (hr : t.reconstruct o = some r) (ha : s.accept t r .chain = some (r.expr, s'))

theorem tryRewrite_eq_some {t u : Tree} {s s' : Sweep} :
    tryRewrite o t s = some (u, s') ↔ ∃ r, Accepts o t s r s' ∧ u = r.expr := by
  unfold tryRewrite
  constructor
  · intro h
    rcases Option.or_eq_some_iff.1 h with h | ⟨hno, h⟩
    · split at h
      · rename_i ho
        obtain ⟨r, hr, ha⟩ := Option.bind_eq_some_iff.1 h
        obtain ⟨rfl, -⟩ := rewrites_accept ha
        exact ⟨r, .coalesced ho hr ha, rfl⟩
      · exact absurd h (by simp)
    · split at h
      · rename_i hb
        obtain ⟨r, hr, ha⟩ := Option.bind_eq_some_iff.1 h
        obtain ⟨rfl, -⟩ := rewrites_accept ha
        exact ⟨r, .linked (fun ho => by rwa [if_pos ho] at hno) hb hr ha, rfl⟩
      · exact absurd h (by simp)
  · rintro ⟨r, haccepts, rfl⟩
    cases haccepts with
    | coalesced ho hr ha => simp [ho, hr, ha]
    | linked hno hb hr ha =>
      have hnone : (if o.coalescing then t.coalesce.bind fun r => s.accept t r .coalescing else none) = none := by
        split
        · exact hno ‹_›
        · rfl
      simp [hnone, hb, hr, ha]

namespace Accepts

variable {t : Tree} {r : Replacement} {s s' : Sweep} (h : Accepts o t s r s')

include h

theorem accept : ∃ kind, s.accept t r kind = some (r.expr, s') := by
  cases h with
  | coalesced _ _ ha => exact ⟨_, ha⟩
  | linked _ _ _ ha => exact ⟨_, ha⟩

/-- The temporaries of a rewrite are variables that the expression assigns. -/
theorem assigned (ht : t.AssignsTargets) {name : String} (hname : name ∈ r.consumed) : 0 < t.assignmentCount name := by
  cases h with
  | coalesced _ hr _ => exact consumed_coalesce hr name hname
  | linked _ _ hr _ => exact consumed_reconstruct ht hr name hname

/-- They are left behind in the innermost scope, and in no other one. -/
theorem frames : s'.frames.tail.map (·.consumed) = s.frames.tail.map (·.consumed) := by
  obtain ⟨kind, ha⟩ := h.accept
  obtain ⟨-, -, rfl⟩ := accept_eq_some ha
  rw [frames_count]
  unfold leaveBehind
  cases hs : s.frames <;> simp

end Accepts

/-! ## The nearest scope -/

/-- Going outward, the scope of this level is the first one that declares the name; before it come the inner levels. -/
structure Nearest (name : String) (inner : List Level) (k : Level) : Prop where
  isScope : k.IsScope
  declares : k.now.Declares name
  passed : ∀ l ∈ inner, l.IsScope → ¬ l.now.Declares name

theorem exists_nearest {name : String} {k : Level} (ls : List Level) (hk : k.IsScope) (hdeclares : k.now.Declares name) :
    ∃ inner l rest, ls ++ [k] = inner ++ l :: rest ∧ Nearest name inner l := by
  have hfound : ((ls ++ [k]).find? fun l => decide (l.IsScope ∧ l.now.Declares name)).isSome = true :=
    List.find?_isSome.2 ⟨k, by simp, by simp [hk, hdeclares]⟩
  obtain ⟨l, hl⟩ := Option.isSome_iff_exists.1 hfound
  obtain ⟨hl, inner, rest, heq, hinner⟩ := List.find?_eq_some_iff_append.1 hl
  simp only [decide_eq_true_eq, Bool.not_eq_true', decide_eq_false_iff_not, not_and] at hl hinner
  exact ⟨inner, l, rest, heq, hl.1, hl.2, hinner⟩

/-- The name is offered to each of the scopes when it is left. The inner ones have nothing of that name and hand it on, and the last
one does not. -/
structure HandedOn (name : String) (inner : List Level) (k : Level) : Prop where
  offered : ∀ l ∈ inner ++ [k], l.IsScope → name ∈ l.offered
  untouched : ∀ l ∈ inner, l.IsScope → (l.turn name).removeUnused name = (.unbound, (l.turn name).statements) ∧ name ∈ l.escaped
  kept : name ∉ k.escaped

/-- Only uses of the name could keep its declarators in the scope: it is neither a parameter nor a function, and no value that a
declarator of just this name is given could be missed. -/
def IsIdle (scope : Scope) (name : String) : Prop :=
  name ∉ scope.parameterNames ∧ name ∉ scope.functionNames ∧
    ∀ t ∈ scope.statements, ∀ d ∈ t.surface, d.declares name = true → ∀ value ∈ d.initial?, value.isPure = true

instance (scope : Scope) (name : String) : Decidable (IsIdle scope name) :=
  inferInstanceAs (Decidable (name ∉ scope.parameterNames ∧ name ∉ scope.functionNames ∧
    ∀ t ∈ scope.statements, ∀ d ∈ t.surface, d.declares name = true → ∀ value ∈ d.initial?, value.isPure = true))

/-- What the statements of a scope are to be when the scope has been left: none uses the name, and, if only uses could have kept them,
no declarators of it are exposed. -/
structure Cleared (name : String) (k : Level) (ss : List Tree) : Prop where
  unused : ∀ t ∈ ss, t.uses name = 0
  removed : IsIdle k.now name ∨ IsIdle k.last name → ∀ t ∈ ss, ¬ t.Exposes name

/-- The level goes on as it was entered, and when it is about to be left its scope does not use the name. -/
structure Level.Lacks (l : Level) (name : String) : Prop where
  continues : ∃ ps, l.Continues ps
  unused : scopeUses l.around.form name 0 l.parts = 0

namespace Level.Lacks

variable {l : Level} {name : String} (hl : l.Lacks name)

include hl

theorem uses_last (hscope : l.IsScope) : l.last.parameterUses name = 0 ∧ l.last.statementUses name = 0 := by
  obtain ⟨⟨ps, hps⟩, hunused⟩ := hl
  have huses := Scope.uses_ofNode (hps.hasScope_last hscope) name
  rw [hunused] at huses
  exact Nat.add_eq_zero_iff.1 huses

/-- A scope that does not declare the name lets it go on. -/
theorem passes (h : l.IsScope → ¬ l.now.Declares name) : l.Passes name := fun hscope => by
  obtain ⟨ps, hps⟩ := hl.continues
  exact ⟨mt ((hps.alike hscope).declares_iff name).1 (h hscope), (hl.uses_last hscope).1⟩

/-- Whatever becomes of the statements of the scope is cleared, if the name has been offered to the scope. -/
theorem clears (hscope : l.IsScope) (hname : l.state.HasLeft name) {ss : List Tree} (hss : l.state.Ends l.last ss) :
    Cleared name l ss := by
  obtain ⟨hparameters, hstatements⟩ := hl.uses_last hscope
  obtain ⟨ps, hps⟩ := hl.continues
  have hlast := hps.isStatement_last hscope
  have hclean : (l.state.leaveScope l.last).1 = (clean l.last l.offered).statements := l.after_statements hname
  have hpruned : Pruned l.offered l.last.statements (clean l.last l.offered).statements := pruned_clean hlast
  unfold Ends at hss
  rw [hclean] at hss
  constructor
  · intro u hu
    obtain ⟨t, ht, htu⟩ := exists_of_forall₂ hss hu
    have hnone : ((clean l.last l.offered).statements.map (·.uses name)).sum = 0 := by
      rw [← usesAll_eq_sum]
      exact Nat.le_zero.1 (hstatements ▸ hpruned.uses name)
    exact Nat.le_zero.1 ((htu.uses_le name).trans (Nat.le_of_eq (List.sum_eq_zero_iff.1 hnone _ (List.mem_map_of_mem ht))))
  · intro hidle u hu hexposes
    obtain ⟨t, ht, htu⟩ := exists_of_forall₂ hss hu
    have halike := hps.alike hscope
    have hlastIdle : name ∉ l.last.parameterNames ∧ name ∉ l.last.functionNames ∧
        ∀ t ∈ l.last.statements, t.initialPure name = true := by
      rcases hidle with ⟨hparameter, hfunction, hpure⟩ | ⟨hparameter, hfunction, hpure⟩
      · rw [halike.parameterNames, halike.functionNames]
        exact ⟨hparameter, hfunction, halike.initial name fun t ht => initialPure_of_surface (hpure t ht)⟩
      · exact ⟨hparameter, hfunction, fun t ht => initialPure_of_surface (hpure t ht)⟩
    obtain ⟨hparameter, hfunction, hinitial⟩ := hlastIdle
    refine not_exposes_clean hlast (mem_leftBehind hname) hparameter hfunction hparameters hstatements hinitial t ht ?_
    exact (htu.declaresAlike (hpruned.statement t ht).1).exposed name hexposes

end Level.Lacks

/-! ## The way out -/

section

variable {ss : List Tree} {ls inner outer : List Level} {k : Level} {u v : Tree} {s s' : Sweep} {name : String}

/-- When the last uses of a name in the scope that owns it are rewritten, there is a nearest scope that declares the name. It is that
scope or one in it, so it does not use the name when it is left. -/
theorem Attempts.exists_lacking (h : Attempts o ss ls u s) (hss : IsGrammatical ss) (hr : tryRewrite o u s = some (v, s'))
    (hcount : v.assignmentCount name < u.assignmentCount name) (hv : v.uses name = 0) :
    ∃ inner k outer, ls = inner ++ k :: outer ∧ Nearest name inner k ∧ ∀ l ∈ inner ++ [k], l.Lacks name := by
  obtain ⟨within, owner, beyond, rfl, howns, hzero⟩ := h.exists_owner hss.regular hr hcount hv
  have hcontinues := h.continues hss.orderly
  have howner : owner.IsScope := by
    obtain ⟨names, hnames, -⟩ := howns
    unfold Level.IsScope
    rw [hnames]
    rfl
  have hdeclares : owner.now.Declares name := by
    obtain ⟨ps, hps⟩ := hcontinues owner (by simp)
    exact ((hps.owns_iff howner name).1 howns).imp_right .inl
  obtain ⟨inner, k, rest, heq, hnearest⟩ := exists_nearest within howner hdeclares
  refine ⟨inner, k, rest ++ beyond, ?_, hnearest, fun l hl => ?_⟩
  · rw [List.append_cons, heq, List.append_assoc, List.cons_append]
  · have hl : l ∈ within ++ [owner] := by
      rw [heq, List.append_cons]
      exact List.mem_append_left _ hl
    refine ⟨hcontinues l ?_, hzero l hl⟩
    rw [List.append_cons]
    exact List.mem_append_left _ hl

/-- What an accepted rewrite has left behind reaches the first scope that may keep it, and all scopes before. -/
theorem Attempts.hasLeft_upTo (h : Attempts o ss (inner ++ k :: outer) u s) (hss : IsGrammatical ss)
    (hr : tryRewrite o u s = some (v, s')) (hname : s'.HasLeft name) (hinner : ∀ l ∈ inner, l.Passes name) :
    ∀ l ∈ inner ++ [k], l.state.HasLeft name := by
  have hcontinues := h.continues hss.orderly
  intro l hl
  rcases List.mem_append.1 hl with hl | hl
  · obtain ⟨before, after, rfl⟩ := List.append_of_mem hl
    exact h.hasLeft hcontinues hr hname (List.append_assoc ..) fun m hm => hinner m (List.mem_append_left _ hm)
  · obtain rfl := List.mem_singleton.1 hl
    exact h.hasLeft hcontinues hr hname rfl hinner

theorem Nearest.handedOn (h : Nearest name inner k) (hlacks : ∀ l ∈ inner ++ [k], l.Lacks name)
    (hleft : ∀ l ∈ inner ++ [k], l.state.HasLeft name) : HandedOn name inner k := by
  refine ⟨fun l hl _ => mem_leftBehind (hleft l hl), fun l hl hscope => ?_, ?_⟩
  · have hmem := List.mem_append_left [k] hl
    obtain ⟨ps, hps⟩ := (hlacks l hmem).continues
    exact ((hlacks l hmem).passes (h.passed l hl)).escapes hscope (hps.isStatement_last hscope) (hleft l hmem)
  · obtain ⟨ps, hps⟩ := (hlacks k (by simp)).continues
    exact not_mem_escaped (hps.isStatement_last h.isScope) (((hps.alike h.isScope).declares_iff name).2 h.declares)

end

/-- After the sweep the scope of this level is cleared of the name: the program, if no level is around this one, and otherwise each node of
the program that the scope has become. Every scope of the program has become of one that was left in the sweep. -/
structure ClearedAfter (o : Options) (ss : List Tree) (name : String) (k : Level) (outer : List Level) : Prop where
  parameters : k.last.parameterUses name = 0
  statements : ∀ ts, k.state.Ends k.last ts → Cleared name k ts
  program : outer = [] → k.state.Ends k.last (overStatements o ss).1
  inside : outer ≠ [] → LeavesIn o ss k.around.form k.parts k.state ∧ Scope.of? k.around.form k.parts = some k.last
  origin : ∀ v ∈ nodesAll (overStatements o ss).1, (Scope.of? v.form v.parts).isSome = true →
    WasLeft (LeavesIn o ss) v.form v.parts

/-- What an accepted rewrite consumes and its replacement does not use loses its declarators in the nearest scope that declares it, in
whichever sweep this is. The rewrite leaves the name behind in the innermost scope only. From there the name gets to the scope that
declares it, and no declarator of any other scope goes for it. -/
theorem Attempts.cleared {ss : List Tree} {n : Nat} {ls : List Level} {u : Tree} {s s' : Sweep} {r : Replacement} {name : String}
    (hss : IsGrammatical ss) (h : Attempts o (sweeps o n ss) ls u s) (hr : Accepts o u s r s') (hname : name ∈ r.consumed)
    (huses : r.expr.uses name = 0) :
    ∃ inner k outer, ls = inner ++ k :: outer ∧ Nearest name inner k ∧
      s'.frames.tail.map (·.consumed) = s.frames.tail.map (·.consumed) ∧ HandedOn name inner k ∧
      ClearedAfter o (sweeps o n ss) name k outer := by
  have hgrammar := hss.sweeps (o := o) n
  generalize sweeps o n ss = program at h hgrammar ⊢
  have htry : tryRewrite o u s = some (r.expr, s') := tryRewrite_eq_some.2 ⟨r, hr, rfl⟩
  have hcount : r.expr.assignmentCount name < u.assignmentCount name :=
    Nat.lt_of_le_of_lt (huses ▸ assignmentCount_le_uses name r.expr) (hr.assigned (h.assignsTargets hgrammar.targets) hname)
  obtain ⟨inner, k, outer, rfl, hnearest, hlacks⟩ := h.exists_lacking hgrammar htry hcount huses
  have hbehind : s'.HasLeft name := by
    obtain ⟨kind, haccept⟩ := hr.accept
    obtain ⟨-, frame, howner, -⟩ := dropped_of_tryRewrite htry hcount
    exact (grows_accept haccept).2 (List.ne_nil_of_mem (List.mem_of_find?_eq_some howner)) name hname
  have hleft := h.hasLeft_upTo hgrammar htry hbehind fun l hl =>
    (hlacks l (List.mem_append_left _ hl)).passes (hnearest.passed l hl)
  have hk : k.Lacks name := hlacks k (by simp)
  refine ⟨inner, k, outer, rfl, hnearest, hr.frames, hnearest.handedOn hlacks hleft, (hk.uses_last hnearest.isScope).1,
    fun ts hts => hk.clears hnearest.isScope (hleft k (by simp)) hts, fun houter => ?_, fun houter => ?_, exists_left program⟩
  · rcases h.leaves rfl with ⟨-, hprogram⟩ | ⟨hne, -⟩
    · rw [← hprogram]
      exact .self ..
    · exact absurd houter hne
  · rcases h.leaves rfl with ⟨hnil, -⟩ | ⟨-, hleaves, hof⟩
    · exact absurd hnil houter
    · exact ⟨hleaves, hof hnearest.isScope⟩

namespace TemporariesWitness

open LocalityWitness

/-- `var { ...name } = value;` -/
def restDeclaration (name : String) (value : Tree) : Tree :=
  .node (.declaration .var) [.node .declarator [.node .objectPattern [.node .rest [.binding name, .absent]], .absent, value]]

/-- `var t; function f(a) { first; return (t = a.b) == null ? void 0 : t.c; }` -/
def outerProgram (first : Tree) : List Tree := [declaration .var] ++ .node header (functionParts first) :: []

/-- The conditional is tried in the function. -/
def state (first : Tree) : Sweep := (entered (outerProgram first)).enter header (functionParts first)

/-- What is around it then. -/
def around (first : Tree) : List Enclosure :=
  [⟨.returnStmt, [], [], none⟩, ⟨.body [], [first], [], none⟩,
    ⟨header, (functionParts first).take 3, [], Scope.ownedBy header (functionParts first)⟩,
    ⟨.body [], [declaration .var], [], some (Scope.owned ⟨none, outerProgram first⟩)⟩]

theorem attempts (first : Tree) (hfirst : first.isQuiet = true) :
    ∃ ls, ls.map (·.around) = around first ∧ Attempts {} (outerProgram first) ls guarded (state first) := by
  obtain ⟨ls, hls, hpasses⟩ := (tries hfirst (sizeAll (outerProgram first)) (entered (outerProgram first))).exists_passes
  refine ⟨_, ?_, .mk (visitAll_of_isQuiet _ (by decide) _) rfl hpasses⟩
  rw [List.map_append, hls]
  rfl

end TemporariesWitness

open TemporariesWitness LocalityWitness

/-- In `var t; function f(a) { ; return (t = a.b) == null ? void 0 : t.c; }` the program loses its `t`. -/
theorem Attempts.cleared_outer : IsGrammatical (outerProgram (.node .emptyStmt [])) ∧
    (∃ ls r s', Attempts {} (outerProgram (.node .emptyStmt [])) ls guarded (state (.node .emptyStmt [])) ∧
      Accepts {} guarded (state (.node .emptyStmt [])) r s' ∧ "t" ∈ r.consumed ∧ r.expr.uses "t" = 0) ∧
    ∀ t ∈ (overStatements {} (outerProgram (.node .emptyStmt []))).1, t.uses "t" = 0 ∧ ¬ t.Exposes "t" := by
  have hgrammar : IsGrammatical (outerProgram (.node .emptyStmt [])) := by decide
  obtain ⟨ls, haround, h⟩ := attempts (.node .emptyStmt []) rfl
  obtain ⟨r, s', haccepts, hname, huses⟩ : ∃ r s', Accepts {} guarded (state (.node .emptyStmt [])) r s' ∧ "t" ∈ r.consumed ∧
      r.expr.uses "t" = 0 :=
    ⟨_, _, .linked (fun _ => rfl) rfl rfl rfl, by decide, by decide⟩
  refine ⟨hgrammar, ⟨ls, r, s', h, haccepts, hname, huses⟩, ?_⟩
  obtain ⟨inner, k, outer, rfl, hnearest, -, -, hcleared⟩ := Attempts.cleared (n := 0) hgrammar h haccepts hname huses
  have hnow := h.now_eq rfl
  obtain ⟨hscope, hdeclares, -⟩ := hnearest
  unfold Level.IsScope at hscope
  rw [hnow] at hdeclares
  rw [List.map_append, List.map_cons] at haround
  generalize hinner : inner.map (·.around) = before at haround hdeclares hnow
  generalize k.around = e at haround hscope hdeclares hnow
  -- Only the function and the program are scopes, and the function does not declare the name.
  rcases before with _ | ⟨e₁, _ | ⟨e₂, _ | ⟨e₃, _ | ⟨e₄, before⟩⟩⟩⟩ <;>
    simp only [around, List.cons_append, List.nil_append, List.cons.injEq] at haround
  · obtain ⟨rfl, -⟩ := haround
    exact absurd hscope (by decide)
  · obtain ⟨-, rfl, -⟩ := haround
    exact absurd hscope (by decide)
  · obtain ⟨rfl, rfl, rfl, -⟩ := haround
    exact absurd hdeclares (by decide)
  · obtain ⟨rfl, rfl, rfl, rfl, houter⟩ := haround
    have hidle : IsIdle k.now "t" := by
      rw [hnow]
      decide
    obtain ⟨hunused, hremoved⟩ := hcleared.statements _ (hcleared.program (List.map_eq_nil_iff.1 houter))
    exact fun t ht => ⟨hunused t ht, hremoved (.inl hidle) t ht⟩
  · simp at haround

/-- The wrong variable goes: in `var t; function f(a) { var { ...t } = a; return (t = a.b) == null ? void 0 : t.c; }` the temporary is the
`t` of the function, and the program loses its own. Nothing else is rewritten there. -/
theorem Attempts.cleared_false : ¬ ∀ (o : Options) (ss : List Tree) (inner outer : List Level) (k l : Level) (u value : Tree) (s s' : Sweep)
    (r : Replacement) (name : String), IsGrammatical ss → Attempts o ss (inner ++ k :: outer) u s → Accepts o u s r s' →
    name ∈ r.consumed → r.expr.uses name = 0 → (overStatements o ss).2.rewrites = 1 →
    k.IsScope → restDeclaration name value ∈ k.now.statements → (∀ m ∈ inner, ¬ m.IsScope) →
    l ∈ outer → name ∈ l.now.variableNames → name ∈ l.after.variableNames := by
  intro hclaim
  obtain ⟨ls, haround, h⟩ := attempts (restDeclaration "t" (.reference "a")) rfl
  obtain ⟨returned, ls, rfl, hreturned, haround⟩ := List.map_eq_cons_iff.1 haround
  obtain ⟨body, ls, rfl, hbody, haround⟩ := List.map_eq_cons_iff.1 haround
  obtain ⟨function, ls, rfl, hfunction, haround⟩ := List.map_eq_cons_iff.1 haround
  obtain ⟨program, ls, rfl, hprogram, haround⟩ := List.map_eq_cons_iff.1 haround
  obtain rfl := List.map_eq_nil_iff.1 haround
  have hinner : [returned, body, function, program] = [returned, body] ++ function :: [program] := rfl
  have houter : [returned, body, function, program] = [returned, body, function] ++ program :: [] := rfl
  have hfunctionNow := h.now_eq hinner
  have hprogramNow := h.now_eq houter
  simp only [List.map_cons, List.map_nil, hreturned, hbody, hfunction, hprogram] at hfunctionNow hprogramNow
  have hdeclared : "t" ∈ program.after.variableNames := by
    refine hclaim {} _ [returned, body] [program] function program guarded (.reference "a") _ _ _ "t" (by decide) h
      (.linked (fun _ => rfl) rfl rfl rfl) (by decide) (by decide) (by decide) ?_ ?_ ?_ (by simp) ?_
    · unfold Level.IsScope
      rw [hfunction]
      decide
    · rw [hfunctionNow]
      decide
    · simp [Level.IsScope, hreturned, hbody]
    · rw [hprogramNow]
      decide
  rcases h.leaves houter with ⟨-, hleft⟩ | ⟨hne, -⟩
  · have hdeclared : "t" ∈ declaredVariablesAll (program.state.leaveScope program.last).1 := hdeclared
    rw [hleft] at hdeclared
    exact absurd hdeclared (by decide)
  · exact hne rfl

end Sweep

end Chainlift

import Chainlift.Proofs.Bindings

/-!
# What the removal of a variable takes away

The removal of a name is compared with deletions of single declarators. A `Deletion` takes one declarator of just that name, whose
value does nothing, out of one declaration; whatever else there is stays where it was. If it was the last declarator of its
declaration, the declaration goes from the list of statements, or something empty stands in its place (`Form.remains`). A name is
either left alone, or removed by as many deletions as are reported, and then a second attempt changes nothing
(`Scope.removeUnused_exact`).

What is removed is not used and is no function. Nor is it a parameter, but for what a pattern leaves over: a name behind `...` in an
array or object pattern is not known to be bound there, and is taken for free (`Scope.removeUnused_exact_false`).
-/

namespace Chainlift

open Tree

/-! ## Values that do nothing -/

namespace Form

/-- What is evaluated at the node itself calls, writes, reads a property, waits or deletes. -/
def acts : Form → Bool
  | .call _ | .construct | .importCall | .tagged | .spread => true
  | .assign _ | .update .. | .unary .delete => true
  | .member .. | .index _ | .privateMember .. => true
  | .await | .yield _ => true
  | _ => false

/-- A value that is written in one word: no program has parts below it. -/
def isWord : Form → Bool
  | .absent | .reference _ | .this | .regexp .. | .null | .bool _ | .number _ | .bigint _ | .string _ => true
  | _ => false

end Form

namespace Tree

mutual

/-- Nothing in the tree acts, nested functions apart. -/
def isInert : Tree → Bool
  | .node f ps => f.isFunction || f.isWord || (!f.acts && allInert ps)

def allInert : List Tree → Bool
  | [] => true
  | t :: ts => t.isInert && allInert ts

end

theorem allInert_iff {ts : List Tree} : allInert ts = true ↔ ∀ t ∈ ts, t.isInert = true := by
  induction ts with
  | nil => simp [allInert]
  | cons t ts ih => simp [allInert, ih]

theorem allPure_iff {ts : List Tree} : allPure ts = true ↔ ∀ t ∈ ts, t.isPure = true := by
  induction ts with
  | nil => simp [allPure]
  | cons t ts ih => simp [allPure, ih]

theorem isInert_of_isPure {t : Tree} (h : t.isPure = true) : t.isInert = true := by
  induction t with
  | node f ps ih =>
    have hparts : allPure ps = true → allInert ps = true := fun hps =>
      allInert_iff.2 fun p hp => ih p hp (allPure_iff.1 hps p hp)
    rw [isInert]
    unfold isPure at h
    split at h
    any_goals rfl
    · rename_i op
      obtain ⟨hop, hps⟩ := Bool.and_eq_true_iff.1 h
      have : (Form.unary op).acts = false := by
        cases op <;> first | rfl | exact absurd hop (by decide)
      simp [this, hparts hps]
    · simp [Form.acts, hparts h]
    · simp [Form.acts, hparts h]
    · exact absurd h (by simp)

/-- The value that a declarator gives its variables. -/
def initial? : Tree → Option Tree
  | .node .declarator [_, _, value] => some value
  | _ => none

theorem eq_binding_of_declares {name : String} {p : Tree} {ps : List Tree}
    (h : (Tree.node .declarator (p :: ps)).declares name = true) : p.form = .binding name := by
  unfold declares at h
  split at h
  · rename_i heq
    obtain ⟨-, hparts⟩ := node.inj heq
    obtain ⟨rfl, -⟩ := List.cons.inj hparts
    exact congrArg Form.binding (by simpa using h)
  · exact absurd h (by simp)

/-- A declarator whose value is not missed gives its variable a value that does nothing. -/
theorem isInert_of_initialPure {name : String} {d value : Tree} (hd : d.declares name = true) (h : d.initialPure name = true)
    (hvalue : d.initial? = some value) : value.isInert = true := by
  unfold initial? at hvalue
  split at hvalue
  · rename_i target type value'
    obtain rfl := Option.some.inj hvalue
    obtain ⟨f, ps⟩ := target
    obtain rfl := eq_binding_of_declares hd
    rw [initialPure, if_neg (by simp [Form.isFunction]), if_pos (by simp), ownInitialPure] at h
    exact isInert_of_isPure (by simpa using h)
  · exact absurd hvalue (by simp)

theorem isEmptied_commented (cs : List Comment) (t : Tree) : (commented cs t).isEmptied = t.isEmptied := by
  unfold isEmptied
  rw [uncommented]

theorem isEmptied_node {f : Form} {ps : List Tree} (hf : ∀ kind, f ≠ .declaration kind)
    (hcommented : ∀ cs t, node f ps ≠ commented cs t) : (node f ps).isEmptied = false := by
  have huncommented : (node f ps).uncommented = node f ps := by
    unfold uncommented
    split
    · rename_i heq
      exact absurd heq (hcommented _ _)
    · rfl
  unfold isEmptied
  rw [huncommented]
  split
  · rename_i heq
    exact absurd (node.inj heq).1 (hf _)
  · rfl

end Tree

/-! ## Deletions -/

/-- What stands for a part of the form that became this statement. A declaration without declarators leaves a list; otherwise an
empty statement stands in its place, and nothing where a counted loop starts. -/
def Form.remains (f : Form) (isFirst : Bool) (t : Tree) : List Tree :=
  if t.isEmptied then
    match f with
    | .block | .switchCase => []
    | .forStmt => if isFirst then [.absent] else [.node .emptyStmt []]
    | .ifStmt | .whileStmt | .doWhileStmt | .forInStmt | .forOfStmt _ | .labeled _ => [.node .emptyStmt []]
    | _ => [t]
  else [t]

namespace Form

theorem remains_of_isEmptied {f : Form} {isFirst : Bool} {t : Tree} (h : t.isEmptied = false) : f.remains isFirst t = [t] := by
  unfold remains
  rw [if_neg (by simp [h])]

/-- The forms whose statements are a list. -/
def isList : Form → Bool
  | .block | .switchCase => true
  | _ => false

theorem remains_ne_nil {f : Form} (hf : f.isList = false) (isFirst : Bool) (t : Tree) : f.remains isFirst t ≠ [] := by
  unfold remains
  split
  · split
    · exact absurd hf (by simp [isList])
    · exact absurd hf (by simp [isList])
    · split <;> simp
    all_goals simp
  · simp

theorem mem_remains {f : Form} {isFirst : Bool} {t u : Tree} (h : u ∈ f.remains isFirst t) :
    u = Tree.absent ∨ u = .node .emptyStmt [] ∨ u = t := by
  unfold remains at h
  split at h
  · split at h
    · exact absurd h (by simp)
    · exact absurd h (by simp)
    · split at h
      · exact .inl (List.mem_singleton.1 h)
      · exact .inr (.inl (List.mem_singleton.1 h))
    all_goals first | exact .inr (.inl (List.mem_singleton.1 h)) | exact .inr (.inr (List.mem_singleton.1 h))
  · exact .inr (.inr (List.mem_singleton.1 h))

theorem remains_of_hasFixedHead {f : Form} (hf : hasFixedHead f = true) (isFirst : Bool) (t : Tree) :
    f.remains isFirst t = [t.filled] := by
  unfold remains filled
  cases t.isEmptied with
  | true => cases f <;> first | rfl | exact absurd hf (by simp [hasFixedHead])
  | false => rfl

/-- The parts of a statement that declarators of its scope may stand in: the variable of a loop over something is none. -/
def inner (f : Form) (ps : List Tree) : List Tree := if hasFixedHead f then ps.tail else ps

theorem mem_of_mem_inner {f : Form} {ps : List Tree} {p : Tree} (h : p ∈ f.inner ps) : p ∈ ps := by
  unfold inner at h
  split at h
  · exact List.mem_of_mem_tail h
  · exact h

/-- Only at the start of a counted loop it matters that a part is the first one. -/
theorem remains_of_isList {f : Form} (hf : f.isList = true) (isFirst : Bool) (t : Tree) :
    f.remains isFirst t = f.remains false t := by
  unfold isList at hf
  split at hf
  · rfl
  · rfl
  · exact absurd hf (by simp)

end Form

namespace Tree

/-- One declarator of the name is taken out of a statement. It stands in a declaration, or in a statement that belongs to the same
scope; the variable of a loop over something is no such place. -/
inductive Deletion (name : String) : Tree → Tree → Prop
  | declarator {kind : VariableKind} {before : List Tree} {d : Tree} {after : List Tree} (hd : d.declares name = true)
      (hvalue : ∀ value ∈ d.initial?, value.isInert = true) :
      Deletion name (.node (.declaration kind) (before ++ d :: after)) (.node (.declaration kind) (before ++ after))
  | part {f : Form} {before : List Tree} {t u : Tree} {after : List Tree} (hf : holdsStatements f = true)
      (hhead : hasFixedHead f = true → before ≠ []) (h : Deletion name t u) :
      Deletion name (.node f (before ++ t :: after)) (.node f (before ++ f.remains before.isEmpty u ++ after))

/-- So many declarators of the name are taken out, one after the other. -/
inductive Deletions (name : String) : Nat → Tree → Tree → Prop
  | none (t : Tree) : Deletions name 0 t t
  | more {n : Nat} {t u v : Tree} (h : Deletion name t u) (hs : Deletions name n u v) : Deletions name (n + 1) t v

variable {name : String}

theorem Deletions.append {m n : Nat} {t u v : Tree} (h : Deletions name m t u) (h' : Deletions name n u v) :
    Deletions name (m + n) t v := by
  induction h with
  | none t => rwa [Nat.zero_add]
  | more h _ ih =>
    rw [Nat.add_right_comm]
    exact .more h (ih h')

/-- There is nothing to delete in a declaration without declarators. -/
theorem Deletion.isEmptied_eq_false {t u : Tree} (h : Deletion name t u) : t.isEmptied = false := by
  induction h with
  | declarator hd hvalue => simp [isEmptied, uncommented]
  | @part f before t u after hf _ _ ih =>
    by_cases hcommented : ∃ cs t', node f (before ++ t :: after) = commented cs t'
    · obtain ⟨cs, t', heq⟩ := hcommented
      obtain ⟨rfl, hparts⟩ := node.inj heq
      cases before with
      | nil =>
        obtain ⟨rfl, rfl⟩ := List.cons.inj hparts
        rwa [List.nil_append, isEmptied_commented]
      | cons b before => exact absurd hparts (by simp)
    · refine isEmptied_node ?_ fun cs t' heq => hcommented ⟨cs, t', heq⟩
      rintro kind rfl
      exact absurd hf (by simp [holdsStatements])

/-- Deletions in a part are deletions in the whole statement. -/
theorem Deletions.part {f : Form} {n : Nat} {t u : Tree} (hf : holdsStatements f = true) (before : List Tree)
    (hhead : hasFixedHead f = true → before ≠ []) (after : List Tree) (ht : t.isEmptied = false) (h : Deletions name n t u) :
    Deletions name n (.node f (before ++ t :: after)) (.node f (before ++ f.remains before.isEmpty u ++ after)) := by
  induction h with
  | none t =>
    rw [Form.remains_of_isEmptied ht, List.append_assoc]
    exact .none _
  | @more n t u v h hs ih =>
    refine .more (.part hf hhead h) ?_
    by_cases hu : u.isEmptied = true
    · -- the declaration lost its last declarator, so there is no further step
      cases hs with
      | none => exact .none _
      | more h' _ => exact absurd h'.isEmptied_eq_false (by simp [hu])
    · rw [Form.remains_of_isEmptied (by simpa using hu), List.append_assoc]
      exact ih (by simpa using hu)

/-! ## Pruning is a row of deletions -/

theorem pruned_of_holdsStatements (name : String) {f : Form} (hf : holdsStatements f = true) (ps : List Tree) :
    (node f ps).pruned name = .node f (tidied f (prunedParts name (hasFixedHead f) ps)) ∧
      (node f ps).prunable name = prunableParts name (hasFixedHead f) ps := by
  unfold pruned prunable
  split
  · exact absurd hf (by simp [holdsStatements])
  · rw [if_pos hf, if_pos hf]
    exact ⟨rfl, rfl⟩

theorem pruned_eq_self (name : String) {f : Form} (hf : holdsStatements f = false) (hd : ∀ kind, f ≠ .declaration kind)
    (ps : List Tree) : (node f ps).pruned name = node f ps ∧ (node f ps).prunable name = 0 := by
  unfold pruned prunable
  split
  · exact absurd rfl (hd _)
  · rw [if_neg (by simp [hf]), if_neg (by simp [hf])]
    exact ⟨rfl, rfl⟩

theorem Deletions.declaration {kind : VariableKind} {ds : List Tree} (h : ∀ d ∈ ds, d.initialPure name = true)
    (before : List Tree) : Deletions name (ds.countP fun d => d.declares name) (.node (.declaration kind) (before ++ ds))
      (.node (.declaration kind) (before ++ ds.filter fun d => !d.declares name)) := by
  induction ds generalizing before with
  | nil => exact .none _
  | cons d ds ih =>
    simp only [List.mem_cons, forall_eq_or_imp] at h
    by_cases hd : d.declares name = true
    · rw [List.countP_cons_of_pos hd, List.filter_cons_of_neg (by simp [hd])]
      exact .more (.declarator hd fun _ => isInert_of_initialPure hd h.1) (ih h.2 before)
    · rw [List.countP_cons_of_neg hd, List.filter_cons_of_pos (by simpa using hd), List.append_cons,
        List.append_cons before d (ds.filter _)]
      exact ih h.2 (before ++ [d])

theorem prunedParts_false (ps : List Tree) : prunedParts name false ps = ps.map (pruned name) := by
  induction ps with
  | nil => rfl
  | cons p ps ih => rw [prunedParts, ih, if_neg (by simp), List.map_cons]

theorem prunableParts_false (ps : List Tree) : prunableParts name false ps = (ps.map (prunable name)).sum := by
  induction ps with
  | nil => rfl
  | cons p ps ih => rw [prunableParts, ih, if_neg (by simp), List.map_cons, List.sum_cons]

theorem filter_eq_flatMap {f : Form} (hf : f.isList = true) (ts : List Tree) :
    ts.filter (fun t => !t.isEmptied) = ts.flatMap (f.remains false) := by
  have hone : ∀ t, f.remains false t = if t.isEmptied then [] else [t] := by
    intro t
    unfold Form.isList at hf
    split at hf
    · rfl
    · rfl
    · exact absurd hf (by simp)
  induction ts with
  | nil => rfl
  | cons t ts ih => cases ht : t.isEmptied <;> simp [hone, ht, ih]

theorem map_filled_eq_flatMap {f : Form} (hf : ∀ t, f.remains false t = [t.filled]) (ts : List Tree) :
    ts.map filled = ts.flatMap (f.remains false) := by
  induction ts with
  | nil => rfl
  | cons t ts ih => rw [List.map_cons, List.flatMap_cons, hf, ih, List.singleton_append]

theorem tidied_nil (f : Form) : tidied f [] = [] := by
  unfold tidied
  split <;> first | rfl | exact absurd ‹[] = _ :: _› (by simp)

/-- Statements are tidied one by one. -/
theorem tidied_cons (f : Form) (p : Tree) (ps : List Tree) :
    tidied f (p :: ps) = f.remains true p ++ ps.flatMap (f.remains false) := by
  have hfilled : ∀ {g : Form}, (∀ isFirst t, g.remains isFirst t = [t.filled]) →
      (p :: ps).map filled = g.remains true p ++ ps.flatMap (g.remains false) := by
    intro g hg
    rw [List.map_cons, hg, map_filled_eq_flatMap (hg false), List.singleton_append]
  have hone : ∀ t : Tree, (if t.isEmptied then [.node .emptyStmt []] else [t]) = [t.filled] := by
    intro t
    cases ht : t.isEmptied <;> simp [filled, ht]
  unfold tidied
  split
  · rw [filter_eq_flatMap (f := .block) rfl, List.flatMap_cons, Form.remains_of_isList rfl true]
  · rw [filter_eq_flatMap (f := .switchCase) rfl, List.flatMap_cons, Form.remains_of_isList rfl true]
  · rename_i heq
    obtain ⟨rfl, rfl⟩ := List.cons.inj heq
    rw [map_filled_eq_flatMap (f := .forStmt) hone]
    cases hp : p.isEmptied <;> simp [Form.remains, hp]
  any_goals exact hfilled fun _ => hone
  · rename_i g _ _ hblock hcase hif hwhile hdo hin hof hlabeled hfor
    have hself : ∀ isFirst t, g.remains isFirst t = [t] := by
      intro isFirst t
      unfold Form.remains
      split
      · split
        · exact (hblock rfl).elim
        · exact (hcase rfl).elim
        · exact (hfor p ps rfl rfl).elim
        · exact (hif rfl).elim
        · exact (hwhile rfl).elim
        · exact (hdo rfl).elim
        · exact (hin rfl).elim
        · exact (hof _ rfl).elim
        · exact (hlabeled _ rfl).elim
        · rfl
      · rfl
    rw [hself, funext (hself false)]
    simp

/-- The parts that follow are pruned one after the other. -/
theorem Deletions.rest {f : Form} (hf : holdsStatements f = true) {ps : List Tree}
    (h : ∀ p ∈ ps, Deletions name (p.prunable name) p (p.pruned name)) (he : ∀ p ∈ ps, p.isEmptied = false) (before : List Tree)
    (hbefore : f.isList = false → before ≠ []) :
    Deletions name (ps.map (prunable name)).sum (.node f (before ++ ps))
      (.node f (before ++ (ps.map (pruned name)).flatMap (f.remains false))) := by
  induction ps generalizing before with
  | nil => exact .none _
  | cons p ps ih =>
    simp only [List.mem_cons, forall_eq_or_imp] at h he
    have hremains : f.remains before.isEmpty (p.pruned name) = f.remains false (p.pruned name) := by
      by_cases hlist : f.isList = true
      · exact Form.remains_of_isList hlist _ _
      · rw [List.isEmpty_eq_false_iff.2 (hbefore (by simpa using hlist))]
    have hhead : hasFixedHead f = true → before ≠ [] := by
      intro hfixed
      refine hbefore ?_
      cases f <;> first | rfl | exact absurd hfixed (by simp [hasFixedHead])
    have hfirst := Deletions.part hf before hhead ps he.1 h.1
    have hrest := ih h.2 he.2 (before ++ f.remains before.isEmpty (p.pruned name)) fun hlist => by simp [hbefore hlist]
    rw [List.map_cons, List.sum_cons, List.map_cons, List.flatMap_cons, ← hremains, ← List.append_assoc]
    exact hfirst.append hrest

theorem initialPureAll_iff {ts : List Tree} : initialPureAll name ts = true ↔ ∀ t ∈ ts, t.initialPure name = true := by
  induction ts with
  | nil => simp [initialPureAll]
  | cons t ts ih => simp [initialPureAll, ih]

theorem initialPure_parts {f : Form} {ps : List Tree} (hf : f.isFunction = false) (hd : f ≠ .declarator)
    (h : (node f ps).initialPure name = true) : ∀ p ∈ ps, p.initialPure name = true := by
  rw [initialPure, if_neg (by simp [hf]), if_neg (by simpa using hd)] at h
  exact initialPureAll_iff.1 h

/-- Statements in which no declaration is empty are pruned by deletions. -/
theorem Deletions.pruned {t : Tree} (hpure : t.initialPure name = true) (he : ∀ u ∈ t.nodes, u.isEmptied = false) :
    Deletions name (t.prunable name) t (t.pruned name) := by
  induction t with
  | node f ps ih =>
    by_cases hdeclaration : ∃ kind, f = .declaration kind
    · obtain ⟨kind, rfl⟩ := hdeclaration
      exact .declaration (initialPure_parts rfl (by simp) hpure) []
    by_cases hf : holdsStatements f = true
    · have hfun : f.isFunction = false := by cases f <;> first | rfl | exact absurd hf (by simp [holdsStatements])
      have hnot : f ≠ .declarator := by
        rintro rfl
        exact absurd hf (by simp [holdsStatements])
      have hparts : ∀ p ∈ ps, Deletions name (p.prunable name) p (p.pruned name) := fun p hp =>
        ih p hp (initialPure_parts hfun hnot hpure p hp) fun u hu => he u (mem_nodes_part hp hu)
      have hfull : ∀ p ∈ ps, p.isEmptied = false := fun p hp => he p (mem_nodes_part hp (mem_nodes_self p))
      rw [(pruned_of_holdsStatements name hf ps).1, (pruned_of_holdsStatements name hf ps).2]
      cases ps with
      | nil =>
        rw [prunedParts, prunableParts, tidied_nil]
        exact .none _
      | cons p ps =>
        simp only [List.mem_cons, forall_eq_or_imp] at hparts hfull
        rw [prunedParts, prunableParts, tidied_cons, prunedParts_false, prunableParts_false]
        by_cases hfixed : hasFixedHead f = true
        · rw [if_pos hfixed, if_pos hfixed, Form.remains_of_isEmptied hfull.1, Nat.zero_add]
          exact .rest hf hparts.2 hfull.2 [p] (by simp)
        · rw [if_neg hfixed, if_neg hfixed]
          have hfirst := Deletions.part hf [] (fun h => absurd h hfixed) ps hfull.1 hparts.1
          exact hfirst.append (.rest hf hparts.2 hfull.2 _ fun hlist => by simpa using Form.remains_ne_nil hlist true _)
    · obtain ⟨hself, hnone⟩ := pruned_eq_self name (by simpa using hf) (fun kind h => hdeclaration ⟨kind, h⟩) ps
      rw [hself, hnone]
      exact .none _

/-! ## Nothing is left to prune -/

/-- What is in a pruned statement was pruned itself, or stands for an emptied declaration. -/
theorem exists_of_mem_pruned (name : String) {f : Form} (hf : holdsStatements f = true) (ps : List Tree) {q : Tree}
    (hq : q ∈ f.inner ((node f ps).pruned name).parts) :
    q = absent ∨ q = .node .emptyStmt [] ∨ ∃ p ∈ f.inner ps, q = p.pruned name := by
  rw [(pruned_of_holdsStatements name hf ps).1, parts] at hq
  have hrest : ∀ ts : List Tree, q ∈ (ts.map (pruned name)).flatMap (f.remains false) →
      q = absent ∨ q = .node .emptyStmt [] ∨ ∃ p ∈ ts, q = p.pruned name := by
    intro ts hq
    obtain ⟨t, ht, hqt⟩ := List.mem_flatMap.1 hq
    obtain ⟨p, hp, rfl⟩ := List.mem_map.1 ht
    rcases Form.mem_remains hqt with rfl | rfl | rfl
    · exact .inl rfl
    · exact .inr (.inl rfl)
    · exact .inr (.inr ⟨p, hp, rfl⟩)
  cases ps with
  | nil =>
    rw [prunedParts, tidied_nil] at hq
    exact absurd hq (by simp [Form.inner])
  | cons p ps =>
    rw [prunedParts, tidied_cons, prunedParts_false] at hq
    unfold Form.inner at hq ⊢
    by_cases hfixed : hasFixedHead f = true
    · rw [if_pos hfixed, if_pos hfixed, Form.remains_of_hasFixedHead hfixed] at hq
      rw [if_pos hfixed]
      exact hrest ps hq
    · rw [if_neg hfixed, if_neg hfixed] at hq
      rw [if_neg hfixed]
      rcases List.mem_append.1 hq with hq | hq
      · rcases Form.mem_remains hq with rfl | rfl | rfl
        · exact .inl rfl
        · exact .inr (.inl rfl)
        · exact .inr (.inr ⟨p, by simp, rfl⟩)
      · rcases hrest ps hq with rfl | rfl | ⟨p', hp', rfl⟩
        · exact .inl rfl
        · exact .inr (.inl rfl)
        · exact .inr (.inr ⟨p', by simp [hp'], rfl⟩)

theorem prunableParts_eq_zero {f : Form} {ps : List Tree} :
    prunableParts name (hasFixedHead f) ps = 0 ↔ ∀ p ∈ f.inner ps, p.prunable name = 0 := by
  cases ps with
  | nil => simp [prunableParts, Form.inner]
  | cons p ps =>
    rw [prunableParts, prunableParts_false, Form.inner]
    cases hasFixedHead f with
    | true => simp [List.sum_eq_zero_iff]
    | false => simp [List.sum_eq_zero_iff]

/-- After the pruning of a name there is nothing to prune of it, and of another name there is nothing if there was nothing before. -/
theorem prunable_pruned {n : String} {t : Tree} (h : n = name ∨ t.prunable n = 0) : (t.pruned name).prunable n = 0 := by
  induction t with
  | node f ps ih =>
    by_cases hdeclaration : ∃ kind, f = .declaration kind
    · obtain ⟨kind, rfl⟩ := hdeclaration
      rw [pruned, prunable, List.countP_eq_zero]
      intro d hd
      rcases h with rfl | h
      · simpa using (List.mem_filter.1 hd).2
      · rw [prunable, List.countP_eq_zero] at h
        exact h d (List.mem_of_mem_filter hd)
    by_cases hf : holdsStatements f = true
    · have hparts := fun q => exists_of_mem_pruned name hf ps (q := q)
      rw [(pruned_of_holdsStatements n hf ps).2, prunableParts_eq_zero] at h
      rw [(pruned_of_holdsStatements name hf ps).1] at hparts ⊢
      rw [(pruned_of_holdsStatements n hf _).2, prunableParts_eq_zero]
      intro q hq
      rcases hparts q hq with rfl | rfl | ⟨p, hp, rfl⟩
      · exact (pruned_eq_self n (by rfl) (by simp) []).2
      · exact (pruned_eq_self n (by rfl) (by simp) []).2
      · exact ih p (Form.mem_of_mem_inner hp) (h.imp_right fun h => h p hp)
    · have hself := fun n => pruned_eq_self n (by simpa using hf) (fun kind h => hdeclaration ⟨kind, h⟩) ps
      rw [(hself name).1, (hself n).2]

theorem prunableAll_prunedAll (ss : List Tree) : prunableAll name (prunedAll name ss) = 0 := by
  rw [prunableAll, prunedAll, prunedParts_false, prunableParts_false, List.sum_eq_zero_iff]
  intro n hn
  obtain ⟨p, hp, rfl⟩ := List.mem_map.1 hn
  obtain ⟨t, -, rfl⟩ := List.mem_map.1 (List.mem_filter.1 hp).1
  exact prunable_pruned (.inl rfl)

end Tree

namespace Scope

/-- A name that is not removed leaves everything as it is; otherwise no check has found a reason to keep it. -/
theorem removeUnused_cases (s : Scope) (name : String) :
    ((∀ n, (s.removeUnused name).1 ≠ .removed n) ∧ (s.removeUnused name).2 = s.statements) ∨
      (s.removeUnused name = (.removed (prunableAll name s.statements), prunedAll name s.statements) ∧
        name ∉ s.parameterNames ∧ s.parameterUses name = 0 ∧ name ∉ s.functionNames ∧ s.needs name = false) := by
  unfold removeUnused
  split
  · exact .inl ⟨by simp, rfl⟩
  · rename_i hparameter
    split
    · exact .inl ⟨by simp, rfl⟩
    · rename_i hfunction
      split
      · exact .inl ⟨by simp, rfl⟩
      · split
        · exact .inl ⟨by simp, rfl⟩
        · rename_i hneeds
          simp only [Bool.or_eq_true, List.contains_iff_mem, decide_eq_true_eq, not_or, Nat.not_lt, Nat.le_zero] at hparameter
          exact .inr ⟨rfl, hparameter.1, hparameter.2, by simpa using hfunction, by simpa using hneeds⟩

theorem needs_eq_false {s : Scope} {name : String} :
    s.needs name = false ↔
      s.statementUses name = 0 ∧ (∀ t ∈ s.statements, t.initialPure name = true) ∧ prunableAll name s.statements ≠ 0 := by
  simp [needs, initialPureAll_iff, and_assoc]

/-- A name is left alone, or exactly its dead declarators are taken out; then there is nothing more to take out. The name is used
nowhere and is no function; if the parameters bind it, then behind `...` in a pattern. -/
theorem removeUnused_exact (s : Scope) (name : String) (hs : ∀ t ∈ nodesAll s.statements, t.isEmptied = false) :
    ((s.removeUnused name).1 = .retained ∨ (s.removeUnused name).1 = .unbound → (s.removeUnused name).2 = s.statements) ∧
      (∀ n, (s.removeUnused name).1 = .removed n →
        0 < n ∧ (∀ p ∈ s.parameters, name ∈ p.patternNames → name ∈ p.leftoverNames) ∧ name ∉ s.functionNames ∧
          s.parameterUses name = 0 ∧ s.statementUses name = 0 ∧
          Deletions name n (.node .block s.statements) (.node .block (s.removeUnused name).2)) ∧
      (removeUnused ⟨s.parameters, (s.removeUnused name).2⟩ name).2 = (s.removeUnused name).2 := by
  rcases s.removeUnused_cases name with ⟨hnot, hsame⟩ | ⟨hremoved, hparameter, huses, hfunction, hneeds⟩
  · refine ⟨fun _ => hsame, fun n hn => absurd hn (hnot n), ?_⟩
    rw [hsame, hsame]
  · obtain ⟨hstatements, hpure, hsome⟩ := needs_eq_false.1 hneeds
    have hrow : Deletions name (prunableAll name s.statements) (.node .block s.statements)
        (.node .block (prunedAll name s.statements)) := by
      have hblock : ∀ u ∈ (node .block s.statements).nodes, u.isEmptied = false := by
        intro u hu
        rw [nodes] at hu
        rcases List.mem_cons.1 hu with rfl | hu
        · exact isEmptied_node (by simp) (by simp)
        · exact hs u hu
      have hbody : Deletions name _ (node .block s.statements) _ := .pruned
        (by rw [initialPure, if_neg (by simp [Form.isFunction]), if_neg (by simp)]; exact initialPureAll_iff.2 hpure) hblock
      rwa [(pruned_of_holdsStatements name rfl _).1, (pruned_of_holdsStatements name rfl _).2] at hbody
    rw [hremoved]
    refine ⟨by simp, ?_, ?_⟩
    · intro n hn
      obtain rfl := Removal.removed.inj hn
      refine ⟨Nat.pos_of_ne_zero hsome, fun p hp hname => ?_, hfunction, huses, hstatements, hrow⟩
      refine (mem_patternNames.1 hname).resolve_left fun hbound => hparameter ?_
      rw [parameterNames, hp]
      exact hbound
    · rcases removeUnused_cases ⟨s.parameters, prunedAll name s.statements⟩ name with ⟨-, hsame⟩ | ⟨-, -, -, -, hneeds⟩
      · exact hsame
      · exact absurd (prunableAll_prunedAll s.statements) (needs_eq_false.1 hneeds).2.2

namespace DeletionWitness

/-- `var t, n = f();` -/
def both : Tree :=
  .node (.declaration .var) [.node .declarator [.binding "t", .absent, .absent],
    .node .declarator [.binding "n", .absent, .call (.reference "f") [] false]]

/-- `for (var t; ; ) if (n) var t = null;` -/
def loop : Tree :=
  .node .forStmt [.node (.declaration .var) [.node .declarator [.binding "t", .absent, .absent]], .absent, .absent,
    .node .ifStmt [.reference "n", .node (.declaration .var) [.node .declarator [.binding "t", .absent, .null]], .absent]]

/-- `({ ...t })` -/
def leftover : Tree :=
  .node .parameters [.node (.parameter false) [.node .objectPattern [.node .rest [.binding "t", .absent]], .absent, .absent]]

/-- `var n = f(); for (; ; ) if (n) ;` -/
def cleaned : List Tree :=
  [.node (.declaration .var) [.node .declarator [.binding "n", .absent, .call (.reference "f") [] false]],
    .node .forStmt [.absent, .absent, .absent, .node .ifStmt [.reference "n", .node .emptyStmt [], .absent]]]

end DeletionWitness

open DeletionWitness in
/-- Three declarators of `t` are taken out, from a list of statements, from the start of a loop and from below `if`. -/
theorem removeUnused_exact_loop : (∀ t ∈ nodesAll [both, loop], t.isEmptied = false) ∧
    removeUnused ⟨none, [both, loop]⟩ "t" = (.removed 3, cleaned) ∧
    Deletions "t" 3 (.node .block [both, loop]) (.node .block cleaned) ∧
    (removeUnused ⟨none, cleaned⟩ "t").2 = cleaned := by
  have hfull : ∀ t ∈ nodesAll [both, loop], t.isEmptied = false := by decide
  have hremoved : removeUnused ⟨none, [both, loop]⟩ "t" = (.removed 3, cleaned) := by decide
  obtain ⟨-, hrow, hagain⟩ := removeUnused_exact ⟨none, [both, loop]⟩ "t" hfull
  rw [hremoved] at hrow hagain
  exact ⟨hfull, hremoved, (hrow 3 rfl).2.2.2.2.2, hagain⟩

open DeletionWitness in
/-- A parameter can be taken for a variable that nobody uses: in `function f({ ...t }) { var t, n = f(); }` the declarator of `t` goes. -/
theorem removeUnused_exact_false : ¬ ∀ (s : Scope) (name : String) (n : Nat), (s.removeUnused name).1 = .removed n →
    ∀ p ∈ s.parameters, name ∉ p.patternNames := by
  intro h
  have hname := h ⟨some leftover, [both]⟩ "t" 1 (by decide) leftover rfl
  exact absurd hname (by decide)

end Scope

end Chainlift

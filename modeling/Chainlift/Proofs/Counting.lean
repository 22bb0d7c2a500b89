import Chainlift.Proofs.Bindings
import Mathlib.Data.List.Induction

/-!
# Counting uses

The uses of a variable are counted in two ways: those of one variable in one tree (`Tree.uses`), and those of all variables in a
scope at once (`Scope.tally`). Both go through the text and stop at each use, the first with a number and the second with a
tally (`Tree.usesAll_eq_walk`, `Scope.tally_eq_walk`), so they agree.

A tree has no fewer uses than any part of it. It has as many exactly if no use stands outside of that part (`Tree.uses_at?`). So an
expression in a scope holds all uses of a variable exactly if its own number is the one in the tally (`Scope.tally_counts`).
-/

namespace Chainlift

open Tree

/-! ## Walks -/

namespace Tree

section

variable {α : Type} (meet : α → String → α)

mutual

/-- Go through a tree in the order of the text. What is carried along changes at each use of a variable. -/
def walk (a : α) : Tree → α
  | .node (.reference name) ps => walkAll (meet a name) ps
  | .node _ ps => walkAll a ps

def walkAll (a : α) : List Tree → α
  | [] => a
  | t :: ts => walkAll (walk a t) ts

end

mutual

/-- The uses are met one after the other. -/
theorem walk_eq_foldl (a : α) : ∀ t : Tree, t.walk meet a = t.references.foldl meet a
  | .node f ps => by
    have hps := fun b => walkAll_eq_foldl b ps
    unfold walk references
    split
    · rename_i name qs heq
      obtain ⟨rfl, rfl⟩ := node.inj heq
      rw [List.foldl_append]
      exact hps (meet a name)
    · rename_i g qs hne heq
      obtain ⟨rfl, rfl⟩ := node.inj heq
      rw [ownReferences_eq hne]
      exact hps a

theorem walkAll_eq_foldl (a : α) : ∀ ts : List Tree, walkAll meet a ts = (referencesAll ts).foldl meet a
  | [] => rfl
  | t :: ts => by
    rw [walkAll, referencesAll, List.foldl_append, walk_eq_foldl a t]
    exact walkAll_eq_foldl _ ts

end

end

/-- One more if the use is one of the variable. -/
def tick (name : String) (k : Nat) (used : String) : Nat := if used = name then k + 1 else k

theorem foldl_tick (name : String) (names : List String) (k : Nat) : names.foldl (tick name) k = k + names.count name := by
  induction names generalizing k with
  | nil => rfl
  | cons n names ih =>
    rw [List.foldl_cons, ih, List.count_cons, tick]
    by_cases h : n = name
    · simp only [h, if_true, beq_self_eq_true]
      omega
    · simp [h]

/-- The uses of one variable are the steps of a counter that goes through the trees. -/
theorem usesAll_eq_walk (name : String) (ts : List Tree) : usesAll name ts = walkAll (tick name) 0 ts := by
  rw [walkAll_eq_foldl, foldl_tick, Nat.zero_add]
  rfl

end Tree

namespace Tally

/-- One more for a name, which is put at the end if it is new. -/
def raise (name : String) : List (String × Nat) → List (String × Nat)
  | [] => [(name, 1)]
  | (n, k) :: counts => if n = name then (n, k + 1) :: counts else (n, k) :: raise name counts

/-- A tally with one more use of a variable. -/
def increment (t : Tally) (name : String) : Tally := ⟨raise name t.counts⟩

theorem raise_map_of_not_mem {name : String} {names : List String} (h : name ∉ names) (k : String → Nat) :
    raise name (names.map fun n => (n, k n)) = (names.map fun n => (n, k n)) ++ [(name, 1)] := by
  induction names with
  | nil => rfl
  | cons n names ih =>
    rw [List.mem_cons, not_or] at h
    rw [List.map_cons, raise, if_neg (Ne.symm h.1), ih h.2, List.cons_append]

theorem raise_map_of_mem {name : String} {names : List String} (hnodup : names.Nodup) (h : name ∈ names) (k : String → Nat) :
    raise name (names.map fun n => (n, k n)) = names.map fun n => (n, k n + [name].count n) := by
  induction names with
  | nil => exact absurd h (by simp)
  | cons n names ih =>
    rw [List.nodup_cons] at hnodup
    rw [List.map_cons, List.map_cons, raise]
    by_cases hn : n = name
    · subst hn
      have hrest : names.map (fun m => (m, k m + [n].count m)) = names.map fun m => (m, k m) := by
        refine List.map_congr_left fun m hm => ?_
        have hne : n ≠ m := fun heq => hnodup.1 (heq ▸ hm)
        simp [hne]
      rw [if_pos rfl, hrest, List.count_singleton_self]
    · have hmem : name ∈ names := (List.mem_cons.1 h).resolve_left (Ne.symm hn)
      rw [if_neg hn, ih hnodup.2 hmem]
      simp [Ne.symm hn]

/-- The counts of a longer list of names. -/
theorem ofNames_concat (names : List String) (name : String) : ofNames (names ++ [name]) = (ofNames names).increment name := by
  have hcount : ∀ n, (names ++ [name]).count n = names.count n + [name].count n := fun n => List.count_append
  unfold ofNames increment
  simp only [hcount, List.eraseDups_append]
  by_cases h : name ∈ names
  · have hnone : ([name].removeAll names).eraseDups = [] := by simp [List.removeAll, h]
    rw [hnone, List.append_nil, raise_map_of_mem (nodup_eraseDups names) (List.mem_eraseDups.2 h)]
  · have hone : ([name].removeAll names).eraseDups = [name] := by simp [List.removeAll, h, List.eraseDups_cons]
    have hsame : names.eraseDups.map (fun n => (n, names.count n + [name].count n)) =
        names.eraseDups.map fun n => (n, names.count n) := by
      refine List.map_congr_left fun n hn => ?_
      have hne : name ≠ n := fun heq => h (heq ▸ List.mem_eraseDups.1 hn)
      simp [hne]
    rw [hone, List.map_append, hsame, raise_map_of_not_mem (mt List.mem_eraseDups.1 h)]
    simp [List.count_eq_zero.2 h]

/-- Counting the names of a list is counting one after the other. -/
theorem ofNames_eq_foldl (names : List String) : ofNames names = names.foldl increment ⟨[]⟩ := by
  induction names using List.reverseRecOn with
  | nil => rfl
  | append_singleton names name ih =>
    rw [ofNames_concat, ih, List.foldl_append]
    rfl

end Tally

namespace Scope

/-- The parameters and the statements of a scope. -/
def trees (s : Scope) : List Tree := s.parameters.toList ++ s.statements

/-- The scope as the parts of one node, so that the places in it have addresses. -/
def whole (s : Scope) : Tree := .node (.body []) s.trees

/-- The tally of a scope is what one walk through it carries along. -/
theorem tally_eq_walk (s : Scope) : s.tally = walkAll Tally.increment ⟨[]⟩ s.trees := by
  rw [walkAll_eq_foldl, ← Tally.ofNames_eq_foldl]
  rfl

theorem get_tally_eq_uses (s : Scope) (name : String) : s.tally.get name = s.whole.uses name := by
  rw [tally, Tally.get_ofTrees, whole, uses_node]
  exact (Nat.zero_add _).symm

end Scope

/-! ## Where the uses are -/

namespace Tree

/-- At the address stands a use of the variable. Nothing stands below a use in a program, and nothing is asked of it here. -/
def UsedAt (t : Tree) (name : String) (q : List Nat) : Prop := ∃ ps, t.at? q = some (.node (.reference name) ps)

variable {name : String} {f : Form} {ps : List Tree}

theorem usedAt_nil : (node f ps).UsedAt name [] ↔ f = .reference name := by
  constructor
  · rintro ⟨qs, h⟩
    exact (node.inj (Option.some.inj h)).1
  · rintro rfl
    exact ⟨ps, rfl⟩

theorem usedAt_cons {i : Nat} {q : List Nat} : (node f ps).UsedAt name (i :: q) ↔ ∃ p, ps[i]? = some p ∧ p.UsedAt name q := by
  constructor
  · rintro ⟨qs, h⟩
    obtain ⟨p, hp, hq⟩ := Option.bind_eq_some_iff.1 h
    exact ⟨p, hp, qs, hq⟩
  · rintro ⟨p, hp, qs, hq⟩
    exact ⟨qs, Option.bind_eq_some_iff.2 ⟨p, hp, hq⟩⟩

theorem ownReferences_eq_zero : (ownReferences f).count name = 0 ↔ f ≠ .reference name := by
  unfold ownReferences
  split
  · rename_i n
    rw [List.count_eq_zero, List.mem_singleton]
    exact not_congr ⟨fun h => congrArg Form.reference h.symm, fun h => (Form.reference.inj h).symm⟩
  · rename_i hne
    simpa using hne name

/-- A variable that is used is used somewhere. -/
theorem uses_eq_zero_iff {t : Tree} : t.uses name = 0 ↔ ∀ q, ¬ t.UsedAt name q := by
  induction t with
  | node f ps ih =>
    rw [uses_node, Nat.add_eq_zero_iff, ownReferences_eq_zero, List.sum_eq_zero_iff, List.forall_mem_map]
    constructor
    · rintro ⟨hown, hparts⟩ q hq
      cases q with
      | nil => exact hown (usedAt_nil.1 hq)
      | cons i q =>
        obtain ⟨p, hp, hq⟩ := usedAt_cons.1 hq
        have hmem := List.mem_of_getElem? hp
        exact (ih p hmem).1 (hparts p hmem) q hq
    · intro h
      refine ⟨fun hown => h [] (usedAt_nil.2 hown), fun p hp => (ih p hp).2 fun q hq => ?_⟩
      obtain ⟨i, hi⟩ := List.mem_iff_getElem?.1 hp
      exact h (i :: q) (usedAt_cons.2 ⟨p, hi, hq⟩)

/-- The uses in a node are those in one of its parts and others, and there are no others if all of them stand in that part. -/
theorem exists_uses_part {i : Nat} {p : Tree} (hp : ps[i]? = some p) :
    ∃ others, (node f ps).uses name = p.uses name + others ∧
      (others = 0 ↔ ∀ q, (node f ps).UsedAt name q → [i] <+: q) := by
  obtain ⟨hi, rfl⟩ := List.getElem?_eq_some_iff.1 hp
  have hsum : (ps.map (·.uses name)).sum = ps[i].uses name + ((ps.eraseIdx i).map (·.uses name)).sum := by
    have hperm := (List.getElem_cons_eraseIdx_perm hi).map (·.uses name)
    rw [← hperm.sum_nat, List.map_cons, List.sum_cons]
  refine ⟨(ownReferences f).count name + ((ps.eraseIdx i).map (·.uses name)).sum, by rw [uses_node, hsum]; omega, ?_⟩
  rw [Nat.add_eq_zero_iff, ownReferences_eq_zero, List.sum_eq_zero_iff, List.forall_mem_map]
  constructor
  · rintro ⟨hown, hothers⟩ q hq
    cases q with
    | nil => exact absurd (usedAt_nil.1 hq) hown
    | cons j q =>
      obtain ⟨p, hp, hq⟩ := usedAt_cons.1 hq
      by_cases hj : j = i
      · subst hj
        exact ⟨q, rfl⟩
      · have hzero := hothers p (List.mem_eraseIdx_iff_getElem?.2 ⟨j, hj, hp⟩)
        exact absurd hq (uses_eq_zero_iff.1 hzero q)
  · intro h
    refine ⟨fun hown => absurd (h [] (usedAt_nil.2 hown)) (by simp), fun p hp => uses_eq_zero_iff.2 fun q hq => ?_⟩
    obtain ⟨j, hj, hp⟩ := List.mem_eraseIdx_iff_getElem?.1 hp
    obtain ⟨r, hr⟩ := h (j :: q) (usedAt_cons.2 ⟨p, hp, hq⟩)
    exact hj (List.cons.inj hr).1.symm

/-- What stands at an address has no more uses than the tree, and as many exactly if all of them stand below that address. -/
theorem uses_at? {t u : Tree} {q : List Nat} (hu : t.at? q = some u) :
    u.uses name ≤ t.uses name ∧ (u.uses name = t.uses name ↔ ∀ r, t.UsedAt name r → q <+: r) := by
  induction q generalizing t with
  | nil =>
    obtain rfl := Option.some.inj hu
    simp
  | cons i q ih =>
    obtain ⟨f, ps⟩ := t
    obtain ⟨p, (hp : ps[i]? = some p), hu⟩ := Option.bind_eq_some_iff.1 hu
    obtain ⟨hle, hiff⟩ := ih hu
    obtain ⟨others, heq, hothers⟩ : ∃ others, (node f ps).uses name = p.uses name + others ∧
        (others = 0 ↔ ∀ q, (node f ps).UsedAt name q → [i] <+: q) := exists_uses_part hp
    refine ⟨by omega, ?_⟩
    constructor
    · intro hall r hr
      have hzero : others = 0 := by omega
      obtain ⟨r', rfl⟩ := hothers.1 hzero r hr
      obtain ⟨p', hp', hr⟩ := usedAt_cons.1 hr
      obtain rfl := Option.some.inj (hp.symm.trans hp')
      have hbelow := hiff.1 (by omega) r' hr
      exact (List.prefix_cons_inj i).2 hbelow
    · intro h
      have hzero : others = 0 := by
        refine hothers.2 fun r hr => ?_
        obtain ⟨r', rfl⟩ := h r hr
        exact ⟨q ++ r', rfl⟩
      have hsame : u.uses name = p.uses name := by
        refine hiff.2 fun r hr => ?_
        exact (List.prefix_cons_inj i).1 (h (i :: r) (usedAt_cons.2 ⟨p, hp, hr⟩))
      omega

end Tree

/-- Both ways of counting agree: the tally that one walk through the scope takes for all variables has, for each of them, the uses in
the parameters and those in the statements, and these are what walks for that variable alone count. An expression at any depth of
the scope has no more uses of the variable, and as many exactly if none stands in the scope outside of the expression. -/
theorem Scope.tally_counts (s : Scope) (name : String) :
    s.tally = walkAll Tally.increment ⟨[]⟩ s.trees ∧
    s.parameterUses name = walkAll (tick name) 0 s.parameters.toList ∧
    s.statementUses name = walkAll (tick name) 0 s.statements ∧
    s.tally.get name = s.parameterUses name + s.statementUses name ∧
    ∀ q t, s.whole.at? q = some t → t.uses name ≤ s.tally.get name ∧
      (t.uses name = s.tally.get name ↔ ∀ r, s.whole.UsedAt name r → q <+: r) := by
  refine ⟨s.tally_eq_walk, ?_, usesAll_eq_walk name s.statements, s.tally_eq name, fun q t ht => ?_⟩
  · rw [parameterUses, ← usesAll_eq_walk, usesAll, usesAll_eq_sum]
    cases s.parameters <;> simp
  · rw [s.get_tally_eq_uses]
    exact uses_at? ht

namespace CountingWitness

/-- `return (t = a.b) && (() => t);` -/
def returned : Tree :=
  .logical .and (.assign .plain (.reference "t") (.member (.reference "a") "b" false))
    (.node (.arrow false false) [.node .parameters [], .absent, .reference "t"])

/-- The scope of `function (a = t) { return (t = a.b) && (() => t); }` -/
def scope : Scope where
  parameters := some (.node .parameters [.node (.parameter false) [.binding "a", .absent, .reference "t"]])
  statements := [.node .returnStmt [returned]]

end CountingWitness

open CountingWitness in
/-- All uses of `a` stand in the returned expression. Not all of `t` do: the default value of the parameter is another one. -/
theorem Scope.tally_counts_default : scope.whole.at? [1, 0] = some returned ∧
    (∀ r, scope.whole.UsedAt "a" r → [1, 0] <+: r) ∧ ¬ (∀ r, scope.whole.UsedAt "t" r → [1, 0] <+: r) ∧
    scope.tally.get "t" = 3 := by
  have hat : scope.whole.at? [1, 0] = some returned := rfl
  obtain ⟨-, -, -, -, hinside⟩ := scope.tally_counts "a"
  obtain ⟨-, -, -, hsum, houtside⟩ := scope.tally_counts "t"
  obtain ⟨-, hiff⟩ := hinside [1, 0] returned hat
  obtain ⟨-, hiff'⟩ := houtside [1, 0] returned hat
  refine ⟨hat, hiff.1 (by decide), ?_, hsum.trans (by decide)⟩
  intro hall
  exact absurd (hiff'.2 hall) (by decide)

end Chainlift

import Chainlift.Proofs.Coalescing
import Chainlift.Proofs.Pairs

/-!
# Strict guards in front of `??`

The guards of a chain in front of `??` come in any order, and each half of a strict check is a guard of its own. What a survey
of them keeps is which variables need a link (`Survey.Records`): those that are compared on their own, and those that are
compared loosely or with `null` when they are assigned. A variable that is compared with both `null` and `undefined` is always
among them (`NullCheck.needsLink_of_coversBoth`).

If every variable that is compared at all is compared with both, then the guards are as good as loose ones: the chain is the
same (`Tree.guardedChain_loosened`), and in a row they do the same in every state (`Machine.runChecks_row`). So the chain is
exact (`Tree.coalesce_pairs`). Nothing in the survey makes sure that the halves come in pairs, and one half alone is not
enough (`Tree.coalesce_pairs_false`).
-/

namespace Chainlift

open Tree Eval

/-! ## What guards compare -/

namespace NullCheck

/-- The check is about the variable: it compares the variable, or what the variable is assigned. -/
def isOn (name : String) (c : NullCheck) : Bool := c.token.asVariable? == some name

/-- The checks compare the variable with both `null` and `undefined`. A loose comparison is one with both. -/
def coversBoth (cs : List NullCheck) (name : String) : Bool :=
  cs.any (fun c => c.isOn name && !c.strict) ||
    cs.any (fun c => c.isOn name && c.compared == .null) && cs.any (fun c => c.isOn name && c.compared == .undefined)

/-- One of the checks compares the variable on its own, loosely or with `null`. -/
def needsLink (cs : List NullCheck) (name : String) : Bool :=
  cs.any fun c => c.isOn name && (c.temporary?.isNone || c.compared == .null || !c.strict)

theorem isOn_reference {c : NullCheck} {name : String} (h : c.operand = .reference name) (n : String) :
    c.isOn n = (name == n) := by
  rw [Bool.eq_iff_iff]
  simp [isOn, token, h, assignment?, asVariable?]

theorem isOn_assign {c : NullCheck} {name : String} {t : Tree} (h : c.operand = .assign .plain (.reference name) t) (n : String) :
    c.isOn n = (name == n) := by
  rw [Bool.eq_iff_iff]
  simp [isOn, token, h, assignment?, asVariable?]

/-- A variable that is compared with both needs a link. -/
theorem needsLink_of_coversBoth {cs : List NullCheck} {name : String} (h : coversBoth cs name = true) :
    needsLink cs name = true := by
  have hone : ∀ p : NullCheck → Bool, (∀ c, p c = true → c.compared == .null || !c.strict) →
      cs.any (fun c => c.isOn name && p c) = true → needsLink cs name = true := by
    intro p hp hany
    obtain ⟨c, hc, hany⟩ := List.any_eq_true.1 hany
    rw [Bool.and_eq_true] at hany
    refine List.any_eq_true.2 ⟨c, hc, ?_⟩
    rw [hany.1, Bool.or_assoc, hp c hany.2, Bool.or_true]
    rfl
  rw [coversBoth, Bool.or_eq_true, Bool.and_eq_true] at h
  rcases h with h | ⟨h, -⟩
  · exact hone (fun c => !c.strict) (fun c hc => by rw [hc, Bool.or_true]) h
  · exact hone (fun c => c.compared == .null) (fun c hc => by rw [hc, Bool.true_or]) h

theorem needsLink_append (cs ds : List NullCheck) (name : String) :
    needsLink (cs ++ ds) name = (needsLink cs name || needsLink ds name) := List.any_append

end NullCheck

/-! ## Surveys -/

namespace Survey

theorem knows_iff (s : Survey) (name : String) : s.knows name = true ↔ name ∈ s.root.toList ++ s.bindings.map (·.name) := by
  rw [knows, isBound, Bool.or_eq_true, beq_iff_eq, List.any_eq_true, List.mem_append, Option.mem_toList, List.mem_map]
  simp only [beq_iff_eq]

/-- What a survey knows when it has seen the checks. -/
structure Records (s : Survey) (cs : List NullCheck) : Prop where
  root : cs.head?.map (·.operand) = s.root.map Tree.reference
  bindings : ∀ b ∈ s.bindings, ∃ c ∈ cs, c.operand = .assign .plain (.reference b.name) b.access ∧
    b.access.object? = some (.reference b.parent)
  names : s.bindings.map (·.name) = NullCheck.temporaries cs
  nodup : (s.root.toList ++ s.bindings.map (·.name)).Nodup
  checked : ∀ name, s.checked.contains name = NullCheck.needsLink cs name

theorem records_nil : Records {} [] := ⟨rfl, by simp, rfl, by simp, fun _ => rfl⟩

/-- What has seen nothing knows nothing. -/
theorem Records.bindings_eq_nil {s : Survey} {cs : List NullCheck} (h : s.Records cs) (hs : s.root = none) :
    cs = [] ∧ s.bindings = [] := by
  have hroot := h.root
  rw [hs, Option.map_none, Option.map_eq_none_iff, List.head?_eq_none_iff] at hroot
  refine ⟨hroot, ?_⟩
  have hnames := h.names
  rw [hroot] at hnames
  simpa [NullCheck.temporaries] using hnames

/-- Where a variable is known there is a root. -/
theorem Records.exists_root {s : Survey} {cs : List NullCheck} (h : s.Records cs) {name : String} (hknows : s.knows name = true) :
    ∃ root, s.root = some root := by
  refine Option.ne_none_iff_exists'.1 fun hnone => ?_
  exact absurd hknows (by simp [knows, isBound, hnone, (h.bindings_eq_nil hnone).2])

/-- The root stays the one that was compared first. -/
theorem Records.root_append {s : Survey} {cs : List NullCheck} (h : s.Records cs) {root : String} (hs : s.root = some root)
    (c : NullCheck) : (cs ++ [c]).head?.map (·.operand) = some (.reference root) := by
  have hroot := h.root
  rw [hs, Option.map_some] at hroot
  rw [← hroot, List.head?_append]
  cases hhead : cs.head? with
  | none => exact absurd hroot (by simp [hhead])
  | some d => rfl

theorem Records.addVariable {s s' : Survey} {cs : List NullCheck} (h : s.Records cs) {c : NullCheck} {name : String}
    (hc : c.operand = .reference name) (hs : s.addVariable name = some s') : s'.Records (cs ++ [c]) := by
  have htemporary : c.temporary? = none := by rw [NullCheck.temporary?, hc]; rfl
  have hchecked : ∀ n, (name :: s.checked).contains n = NullCheck.needsLink (cs ++ [c]) n := by
    intro n
    rw [List.contains_cons, h.checked, NullCheck.needsLink_append, Bool.or_comm]
    simp [NullCheck.needsLink, NullCheck.isOn_reference hc, htemporary, BEq.comm (a := n)]
  have hnames : s.bindings.map (·.name) = NullCheck.temporaries (cs ++ [c]) := by
    rw [h.names]
    simp [NullCheck.temporaries, htemporary]
  have hbindings : ∀ b ∈ s.bindings, ∃ d ∈ cs ++ [c], d.operand = .assign .plain (.reference b.name) b.access ∧
      b.access.object? = some (.reference b.parent) := by
    intro b hb
    obtain ⟨d, hd, hb⟩ := h.bindings b hb
    exact ⟨d, List.mem_append_left _ hd, hb⟩
  rcases addVariable_eq_some hs with ⟨hnone, hempty, rfl⟩ | ⟨hknows, rfl⟩
  · obtain ⟨rfl, -⟩ := h.bindings_eq_nil hnone
    rw [hempty] at hbindings hnames
    exact ⟨by simp [hc], hbindings, hnames, by simp, hchecked⟩
  · obtain ⟨root, hroot⟩ := h.exists_root hknows
    exact ⟨by rw [h.root_append hroot c, hroot]; rfl, hbindings, hnames, h.nodup, hchecked⟩

theorem Records.addBinding {s s' : Survey} {cs : List NullCheck} (h : s.Records cs) {c : NullCheck}
    (hs : s.addBinding c = some s') : s'.Records (cs ++ [c]) := by
  obtain ⟨name, parent, access, hop, ho, hknows, hnew, rfl⟩ := addBinding_eq_some hs
  have htemporary : c.temporary? = some name := by rw [NullCheck.temporary?, hop]; rfl
  obtain ⟨root, hroot⟩ := h.exists_root hknows
  refine ⟨by rw [h.root_append hroot c, hroot]; rfl, ?_, ?_, ?_, ?_⟩
  · intro b hb
    rcases List.mem_append.1 hb with hb | hb
    · obtain ⟨d, hd, hb⟩ := h.bindings b hb
      exact ⟨d, List.mem_append_left _ hd, hb⟩
    · obtain rfl := List.mem_singleton.1 hb
      exact ⟨c, by simp, hop, ho⟩
  · rw [List.map_append, h.names]
    simp [NullCheck.temporaries, htemporary]
  · rw [List.map_append, ← List.append_assoc]
    refine List.nodup_append.2 ⟨h.nodup, by simp, ?_⟩
    rintro n hn _ hname rfl
    obtain rfl := List.mem_singleton.1 hname
    exact absurd ((s.knows_iff n).2 hn) (by rw [hnew]; simp)
  · intro n
    have hone : NullCheck.needsLink [c] n = (name == n && (c.compared == .null || !c.strict)) := by
      simp [NullCheck.needsLink, NullCheck.isOn_assign hop, htemporary]
    rw [NullCheck.needsLink_append, ← h.checked, hone]
    show (if _ then name :: s.checked else s.checked).contains n = _
    split
    · rename_i hlink
      rw [hlink, Bool.and_true, List.contains_cons, Bool.or_comm, BEq.comm (a := n)]
    · rename_i hlink
      rw [Bool.eq_false_of_not_eq_true hlink, Bool.and_false, Bool.or_false]

/-- One more check. -/
theorem Records.addGuard {s s' : Survey} {cs : List NullCheck} (h : s.Records cs) {g : Tree} (hs : s.addGuard g = some s') :
    ∃ c, NullCheck.of? g = some c ∧ s'.Records (cs ++ [c]) := by
  obtain ⟨c, hc, -, ⟨name, hname, hs⟩ | ⟨-, hs⟩⟩ := addGuard_eq_some hs
  · exact ⟨c, hc, h.addVariable hname hs⟩
  · exact ⟨c, hc, h.addBinding hs⟩

/-- A whole row of them. -/
theorem Records.foldlM {gs : List Tree} {s s' : Survey} {cs : List NullCheck} (h : s.Records cs)
    (hs : gs.foldlM Survey.addGuard s = some s') : s'.Records (cs ++ gs.filterMap NullCheck.of?) := by
  induction gs generalizing s cs with
  | nil =>
    obtain rfl := Option.some.inj hs
    rwa [List.filterMap_nil, List.append_nil]
  | cons g gs ih =>
    rw [List.foldlM_cons] at hs
    obtain ⟨s₁, hg, hs⟩ := Option.bind_eq_some_iff.1 hs
    obtain ⟨c, hc, hrecords⟩ := h.addGuard hg
    rw [List.filterMap_cons_some hc, ← List.singleton_append, ← List.append_assoc]
    exact ih hrecords hs

end Survey

/-! ## The links of a chain -/

/-- Accesses lead from the root of a test to a variable: each is made on the variable that the one before it was assigned to. -/
inductive Tree.Leads (test : Tree) (root : String) : List (String × Tree) → String → Prop
  | start {c : NullCheck} (hc : c ∈ test.checks) (hop : c.operand = .reference root) : Leads test root [] root
  | step {path : List (String × Tree)} {parent name : String} {access : Tree} {c : NullCheck} (h : Leads test root path parent)
      (hc : c ∈ test.checks) (hop : c.operand = .assign .plain (.reference name) access)
      (ho : access.object? = some (.reference parent)) : Leads test root (path ++ [(parent, access)]) name

/-- The chain of the accesses that lead from the root of a test to the guarded access. -/
def Tree.IsChainOf (test no : Tree) (optional : String → Bool) (chain : Tree) : Prop :=
  ∃ root path last, test.Leads root path last ∧ no.object? = some (.reference last) ∧
    chain = chainAlong root optional (path ++ [(last, no)])

namespace Tree

/-- The accesses that a survey finds lead from the root on. -/
theorem leads_of_climb {test : Tree} {root current : String} {bs : List TemporaryBinding} {path : List (String × Tree)}
    (hroot : ∃ c ∈ test.checks, c.operand = .reference root)
    (hbs : ∀ b ∈ bs, ∃ c ∈ test.checks, c.operand = .assign .plain (.reference b.name) b.access ∧
      b.access.object? = some (.reference b.parent))
    (h : Survey.climb root bs current = some path) : test.Leads root path current := by
  induction bs generalizing current path with
  | nil =>
    unfold Survey.climb at h
    split at h
    · rename_i heq
      obtain rfl := beq_iff_eq.1 heq
      obtain rfl := Option.some.inj h
      obtain ⟨c, hc, hop⟩ := hroot
      exact .start hc hop
    · exact absurd h (by simp)
  | cons b bs ih =>
    simp only [List.mem_cons, forall_eq_or_imp] at hbs
    unfold Survey.climb at h
    split at h
    · rename_i heq
      obtain rfl := beq_iff_eq.1 heq
      obtain rfl := Option.some.inj h
      obtain ⟨c, hc, hop⟩ := hroot
      exact .start hc hop
    · simp only at h
      split at h
      · rename_i heq
        obtain rfl := beq_iff_eq.1 heq
        obtain ⟨before, hbefore, h⟩ := Option.bind_eq_some_iff.1 h
        obtain rfl := Option.some.inj h
        obtain ⟨c, hc, hop, ho⟩ := hbs.1
        exact .step (ih hbs.2 hbefore) hc hop ho
      · exact ih hbs.2 h

/-- Every access is made on a variable that is compared. -/
theorem Leads.compared {test : Tree} {root current : String} {path : List (String × Tree)} (h : test.Leads root path current) :
    (∃ c ∈ test.checks, c.isOn current = true) ∧ ∀ step ∈ path, ∃ c ∈ test.checks, c.isOn step.1 = true := by
  induction h with
  | start hc hop => exact ⟨⟨_, hc, by rw [NullCheck.isOn_reference hop, beq_self_eq_true]⟩, by simp⟩
  | step _ hc hop _ ih =>
    refine ⟨⟨_, hc, by rw [NullCheck.isOn_assign hop, beq_self_eq_true]⟩, fun step hstep => ?_⟩
    rcases List.mem_append.1 hstep with hstep | hstep
    · exact ih.2 step hstep
    · rw [List.mem_singleton.1 hstep]
      exact ih.1

/-- The guarded access is on a variable that is compared, as all accesses before it. -/
theorem Leads.compared_append {test no : Tree} {root last : String} {path : List (String × Tree)} (h : test.Leads root path last) :
    ∀ step ∈ path ++ [(last, no)], ∃ c ∈ test.checks, c.isOn step.1 = true := by
  intro step hstep
  rcases List.mem_append.1 hstep with hstep | hstep
  · exact h.compared.2 step hstep
  · rw [List.mem_singleton.1 hstep]
    exact h.compared.1

theorem IsChainOf.congr {test no chain : Tree} {optional optional' : String → Bool} (h : test.IsChainOf no optional chain)
    (heq : ∀ c ∈ test.checks, ∀ name, c.isOn name = true → optional name = optional' name) : test.IsChainOf no optional' chain := by
  obtain ⟨root, path, last, hleads, hno, rfl⟩ := h
  refine ⟨root, path, last, hleads, hno, chainAlong_congr (fun step hstep => ?_) root⟩
  obtain ⟨c, hc, hon⟩ := hleads.compared_append step hstep
  exact heq c hc _ hon

/-- The survey of a whole test. -/
theorem records_alternatives {test : Tree} {s : Survey} (hs : test.alternatives.foldlM Survey.addGuard {} = some s) :
    s.Records test.checks := Survey.records_nil.foldlM hs

/-- The accesses on the way that a survey finds in a test. -/
theorem leads_of_foldlM {test : Tree} {s : Survey} {root last : String} {path : List (String × Tree)}
    (hs : test.alternatives.foldlM Survey.addGuard {} = some s) (hroot : s.root = some root)
    (hpath : Survey.climb root s.bindings.reverse last = some path) : test.Leads root path last := by
  have hrecords := records_alternatives hs
  have hfirst : ∃ c ∈ test.checks, c.operand = .reference root := by
    have hhead := hrecords.root
    rw [hroot, Option.map_some, Option.map_eq_some_iff] at hhead
    obtain ⟨c, hc, hop⟩ := hhead
    exact ⟨c, List.mem_of_head? hc, hop⟩
  exact leads_of_climb hfirst (fun b hb => hrecords.bindings b (List.mem_reverse.1 hb)) hpath

/-- Which accesses become links: those on the variables that need one by what the guards compare. -/
theorem isChainOf_guardedChain {test yes no : Tree} {r : Replacement}
    (h : (Tree.conditional test yes no).guardedChain = some r) : test.IsChainOf no (NullCheck.needsLink test.checks) r.expr := by
  obtain ⟨-, s, root, last, path, hs, hroot, hno, hpath, rfl⟩ := guardedChain_eq_some.1 h
  have hchecked : s.checked.contains = NullCheck.needsLink test.checks := funext (records_alternatives hs).checked
  exact ⟨root, path, last, leads_of_foldlM hs hroot hpath, hno, by rw [hchecked]⟩

end Tree

/-! ## Loosened guards -/

/-- Each variable that the test compares is compared with both `null` and `undefined`. -/
def Tree.ComparesInPairs (test : Tree) : Prop :=
  ∀ c ∈ test.checks, ∀ name ∈ c.token.asVariable?, NullCheck.coversBoth test.checks name = true

theorem Tree.ComparesInPairs.coversBoth {test : Tree} (h : test.ComparesInPairs) {c : NullCheck} (hc : c ∈ test.checks)
    {name : String} (hon : c.isOn name = true) : NullCheck.coversBoth test.checks name = true := h c hc name (beq_iff_eq.1 hon)

/-- A null check, made loosely. -/
def Tree.loosely (t : Tree) : Tree := ((NullCheck.of? t).map NullCheck.loosely).getD t

/-- The test with each of its guards made loosely. -/
def Tree.loosened : Tree → Tree
  | .logical .or a b => .logical .or a.loosened b.loosened
  | t => t.loosely

namespace Tree

theorem of?_loosely (t : Tree) : NullCheck.of? t.loosely = (NullCheck.of? t).map NullCheck.loosened := by
  cases hc : NullCheck.of? t with
  | none => rw [loosely, hc, Option.map_none, Option.getD_none, hc, Option.map_none]
  | some c =>
    rw [loosely, hc, Option.map_some, Option.getD_some, NullCheck.of?_loosely hc, Option.map_some]

theorem alternatives_loosened (test : Tree) : test.loosened.alternatives = test.alternatives.map loosely := by
  induction test using Tree.alternatives.induct with
  | case1 a b iha ihb => rw [loosened, alternatives, alternatives, List.map_append, iha, ihb]
  | case2 t h =>
    rw [loosened.eq_2 t h, alternatives.eq_2 t h, List.map_singleton, loosely]
    cases hc : NullCheck.of? t with
    | none => exact alternatives.eq_2 t h
    | some c => rfl

theorem checks_loosened (test : Tree) : test.loosened.checks = test.checks.map NullCheck.loosened := by
  rw [checks, alternatives_loosened, List.filterMap_map, checks, List.map_filterMap]
  exact List.filterMap_congr fun t _ => of?_loosely t

end Tree

namespace Survey

theorem addVariable_checked {s s' : Survey} {name : String} (hs : s.addVariable name = some s') (checked : List String) :
    ∃ checked', Survey.addVariable { s with checked := checked } name = some { s' with checked := checked' } := by
  unfold addVariable at hs ⊢
  split at hs
  · rename_i hnew
    obtain rfl := Option.some.inj hs
    rw [if_pos hnew]
    exact ⟨_, rfl⟩
  · rename_i hold
    split at hs
    · rename_i hknown
      obtain rfl := Option.some.inj hs
      rw [if_neg hold]
      exact ⟨_, if_pos hknown⟩
    · exact absurd hs (by simp)

theorem addBinding_checked {s s' : Survey} {c : NullCheck} (hs : s.addBinding c = some s') (checked : List String) :
    ∃ checked', Survey.addBinding { s with checked := checked } c.loosened = some { s' with checked := checked' } := by
  unfold addBinding at hs
  simp only [Option.bind_eq_bind, Option.bind_eq_some_iff] at hs
  obtain ⟨⟨name, source⟩, ha, object, ho, parent, hparent, hs⟩ := hs
  split at hs
  · exact absurd hs (by simp)
  rename_i hknown
  obtain rfl := Option.some.inj hs
  have ha' : c.loosened.operand.assignment? = some (name, source) := ha
  unfold addBinding
  simp only [Option.bind_eq_bind, ha', Option.bind_some, ho, hparent]
  exact ⟨_, if_neg hknown⟩

/-- A guard is surveyed as well when it is loosened, whatever counts as checked. -/
theorem addGuard_loosely {s s' : Survey} {g : Tree} (hs : s.addGuard g = some s') (checked : List String) :
    ∃ checked', Survey.addGuard { s with checked := checked } g.loosely = some { s' with checked := checked' } := by
  unfold addGuard at hs
  obtain ⟨c, hc, hs⟩ := Option.bind_eq_some_iff.1 hs
  split at hs
  · exact absurd hs (by simp)
  rw [addGuard, of?_loosely, hc]
  cases hvariable : c.operand.asVariable? with
  | some name =>
    have hloosened : c.loosened.operand.asVariable? = some name := hvariable
    rw [hvariable] at hs
    simp only [Option.map_some, Option.bind_eq_bind, Option.bind_some, hloosened]
    exact addVariable_checked hs checked
  | none =>
    have hloosened : c.loosened.operand.asVariable? = none := hvariable
    rw [hvariable] at hs
    simp only [Option.map_some, Option.bind_eq_bind, Option.bind_some, hloosened]
    exact addBinding_checked hs checked

theorem foldlM_loosely {gs : List Tree} {s s' : Survey} (hs : gs.foldlM addGuard s = some s') (checked : List String) :
    ∃ checked', (gs.map loosely).foldlM addGuard { s with checked := checked } = some { s' with checked := checked' } := by
  induction gs generalizing s checked with
  | nil =>
    obtain rfl := Option.some.inj hs
    exact ⟨checked, rfl⟩
  | cons g gs ih =>
    rw [List.foldlM_cons] at hs
    obtain ⟨s₁, hg, hs⟩ := Option.bind_eq_some_iff.1 hs
    obtain ⟨checked₁, hg⟩ := addGuard_loosely hg checked
    obtain ⟨checked', hs⟩ := ih hs checked₁
    refine ⟨checked', ?_⟩
    rw [List.map_cons, List.foldlM_cons, hg]
    exact hs

end Survey

/-- Where loose checks compare a variable, it needs a link. -/
theorem NullCheck.needsLink_map_loosened {cs : List NullCheck} {c : NullCheck} (hc : c ∈ cs) {name : String}
    (hon : c.isOn name = true) : needsLink (cs.map loosened) name = true := by
  refine List.any_eq_true.2 ⟨c.loosened, List.mem_map_of_mem hc, ?_⟩
  have hloosened : c.loosened.isOn name = true := hon
  rw [hloosened, Bool.true_and]
  exact Bool.or_true _

/-- In pairs the guards are as good as loose ones: the chain is the same. -/
theorem Tree.guardedChain_loosened {test yes no : Tree} {r : Replacement} (hpairs : test.ComparesInPairs)
    (h : (Tree.conditional test yes no).guardedChain = some r) :
    (Tree.conditional test.loosened yes no).guardedChain = some r := by
  obtain ⟨hyes, s, root, last, path, hs, hroot, hno, hpath, rfl⟩ := guardedChain_eq_some.1 h
  obtain ⟨checked, hs'⟩ := Survey.foldlM_loosely hs []
  rw [← alternatives_loosened] at hs'
  refine guardedChain_eq_some.2 ⟨hyes, _, root, last, path, hs', hroot, hno, hpath, ?_⟩
  have hlinks : ∀ step ∈ path ++ [(last, no)], s.checked.contains step.1 = checked.contains step.1 := by
    intro step hstep
    obtain ⟨c, hc, hon⟩ := (leads_of_foldlM hs hroot hpath).compared_append step hstep
    have hchecked : checked.contains step.1 = _ := (records_alternatives hs').checked step.1
    rw [(records_alternatives hs).checked, hchecked, checks_loosened, NullCheck.needsLink_map_loosened hc hon]
    exact NullCheck.needsLink_of_coversBoth (hpairs.coversBoth hc hon)
  rw [chainAlong_congr hlinks]

/-! ## Running strict rows -/

namespace NullCheck

/-- One of the checks is on the variable and finds the value missing. -/
def anyFinds (cs : List NullCheck) (name : String) (v : Value) : Bool := cs.any fun c => c.isOn name && c.finds v

theorem anyFinds_cons_other {c : NullCheck} {name : String} (h : c.isOn name = false) (cs : List NullCheck) (v : Value) :
    anyFinds (c :: cs) name v = anyFinds cs name v := by
  rw [anyFinds, List.any_cons, h, Bool.false_and, Bool.false_or, anyFinds]

theorem anyFinds_cons_misses {c : NullCheck} {v : Value} (h : c.finds v = false) (cs : List NullCheck) (name : String) :
    anyFinds (c :: cs) name v = anyFinds cs name v := by
  rw [anyFinds, List.any_cons, h, Bool.and_false, Bool.false_or, anyFinds]

theorem exists_isOn_of_anyFinds {cs : List NullCheck} {name : String} {v : Value} (h : anyFinds cs name v = true) :
    ∃ c ∈ cs, c.isOn name = true := by
  obtain ⟨c, hc, h⟩ := List.any_eq_true.1 h
  exact ⟨c, hc, (Bool.and_eq_true_iff.1 h).1⟩

/-- What is missing is found by the checks that compare with both. -/
theorem anyFinds_of_coversBoth {cs : List NullCheck} {name : String} (h : coversBoth cs name = true) {v : Value}
    (hv : v.isNullish = true) : anyFinds cs name v = true := by
  simp only [coversBoth, Bool.or_eq_true, Bool.and_eq_true, List.any_eq_true, Bool.not_eq_true', beq_iff_eq] at h
  obtain ⟨c, hc, hon, hfinds⟩ : ∃ c ∈ cs, c.isOn name = true ∧ c.finds v = true := by
    rcases h with ⟨c, hc, hon, hstrict⟩ | ⟨⟨c, hc, hon, hnull⟩, ⟨d, hd, hon', hundefined⟩⟩
    · exact ⟨c, hc, hon, by rw [finds, hstrict]; exact hv⟩
    · cases v with
      | null => exact ⟨c, hc, hon, by simp [finds, hnull, Missing.value, Value.isNullish]⟩
      | undefined => exact ⟨d, hd, hon', by simp [finds, hundefined, Missing.value, Value.isNullish]⟩
      | _ => exact absurd hv (by simp [Value.isNullish])
  exact List.any_eq_true.2 ⟨c, hc, by rw [hon, hfinds]; rfl⟩

theorem isNullish_of_finds {c : NullCheck} {v : Value} (h : c.finds v = true) : v.isNullish = true := by
  unfold finds at h
  split at h
  · rw [beq_iff_eq] at h
    rw [h]
    cases c.compared <;> rfl
  · exact h

/-- The guards of a row are on the variable that it begins with, or on its temporaries. -/
theorem mem_of_leads {cs : List NullCheck} {current last : String} (h : leads current cs = some last) {c : NullCheck} (hc : c ∈ cs)
    {name : String} (hon : c.isOn name = true) : name ∈ current :: temporaries cs := by
  induction cs generalizing current with
  | nil => exact absurd hc (by simp)
  | cons d ds ih =>
    obtain ⟨next, hnext, hrest⟩ := Option.bind_eq_some_iff.1 h
    rcases next?_cases hnext with ⟨hop, rfl⟩ | ⟨access, hop, -⟩
    · rw [temporaries_cons_reference hop]
      rcases List.mem_cons.1 hc with rfl | hc
      · rw [isOn_reference hop, beq_iff_eq] at hon
        simp [hon]
      · exact ih hrest hc
    · rw [temporaries_cons_assign hop]
      refine List.mem_cons_of_mem _ ?_
      rcases List.mem_cons.1 hc with rfl | hc
      · rw [isOn_assign hop, beq_iff_eq] at hon
        simp [hon]
      · exact ih hrest hc

/-- Where the variable has the value, the checks that are still to come find what is missing: this value, and any value that a
temporary of theirs is given. No variable is given a value twice. -/
structure FindMissing (cs : List NullCheck) (current : String) (v : Value) : Prop where
  nodup : (current :: temporaries cs).Nodup
  now : v.isNullish = true → anyFinds cs current v = true
  later : ∀ name ∈ temporaries cs, ∀ w : Value, w.isNullish = true → anyFinds cs name w = true

variable {c : NullCheck} {cs : List NullCheck} {current name : String} {v : Value}

/-- Past a check of the variable. -/
theorem FindMissing.reference (h : FindMissing (c :: cs) current v) (hop : c.operand = .reference current)
    (hc : c.finds v = false) : FindMissing cs current v := by
  obtain ⟨hnodup, hnow, hlater⟩ := h
  rw [temporaries_cons_reference hop] at hnodup hlater
  refine ⟨hnodup, fun hn => anyFinds_cons_misses hc cs current ▸ hnow hn, fun n hn w hw => ?_⟩
  have hother := (isOn_reference hop n).trans (beq_eq_false_iff_ne.2 (List.rel_of_pairwise_cons hnodup hn))
  exact anyFinds_cons_other hother cs w ▸ hlater n hn w hw

/-- Past a check that gives a temporary a value. -/
theorem FindMissing.assign (h : FindMissing (c :: cs) current v) {t : Tree}
    (hop : c.operand = .assign .plain (.reference name) t) {w : Value} (hc : c.finds w = false) : FindMissing cs name w := by
  obtain ⟨hnodup, -, hlater⟩ := h
  rw [temporaries_cons_assign hop] at hnodup hlater
  have hnodup := (List.nodup_cons.1 hnodup).2
  refine ⟨hnodup, fun hn => anyFinds_cons_misses hc cs name ▸ hlater name (by simp) w hn, fun n hn u hu => ?_⟩
  have hother := (isOn_assign hop n).trans (beq_eq_false_iff_ne.2 (List.rel_of_pairwise_cons hnodup hn))
  exact anyFinds_cons_other hother cs u ▸ hlater n (List.mem_cons_of_mem _ hn) u hu

/-- Where a row goes on to a temporary, no check is left that could find the value of the variable missing. -/
theorem FindMissing.present (h : FindMissing (c :: cs) current v) {t : Tree}
    (hop : c.operand = .assign .plain (.reference name) t) {last : String} (hleads : leads name cs = some last) :
    v.isNullish = false := by
  obtain ⟨hnodup, hnow, -⟩ := h
  rw [temporaries_cons_assign hop] at hnodup
  refine Bool.eq_false_of_not_eq_true fun hn => (List.nodup_cons.1 hnodup).1 ?_
  obtain ⟨d, hd, hon⟩ := exists_isOn_of_anyFinds (hnow hn)
  rcases List.mem_cons.1 hd with rfl | hd
  · rw [isOn_assign hop, beq_iff_eq] at hon
    simp [hon]
  · exact mem_of_leads hleads hd hon

/-- Past the first check of a row in which each variable is compared with both. -/
theorem FindMissing.of_coversBoth (hop : c.operand = .reference current) (hnodup : (current :: temporaries cs).Nodup)
    (hpairs : ∀ name ∈ current :: temporaries cs, coversBoth (c :: cs) name = true) (hc : c.finds v = false) :
    FindMissing cs current v := by
  refine FindMissing.reference ⟨?_, fun hn => ?_, fun n hn w hw => ?_⟩ hop hc
  · rwa [temporaries_cons_reference hop]
  · exact anyFinds_of_coversBoth (hpairs current (by simp)) hn
  · rw [temporaries_cons_reference hop] at hn
    exact anyFinds_of_coversBoth (hpairs n (List.mem_cons_of_mem _ hn)) hw

end NullCheck

namespace Machine

variable {W : Type} {M : Machine W}

/-- From a variable on whose value is known, the checks of a row do what its guards do, if they find what is missing. -/
theorem runChecks_leads {cs : List NullCheck} {current last : String} (hleads : NullCheck.leads current cs = some last)
    (hundefined : "undefined" ∉ current :: NullCheck.temporaries cs) {v : Value} (hfind : NullCheck.FindMissing cs current v)
    {s : State W} (hv : s.store.vars current = some v) (rest : Eval W Value) :
    M.runChecks cs rest s = if v.isNullish then (.ok .undefined, s) else M.runGuards cs rest s := by
  induction cs generalizing current s v with
  | nil =>
    rw [if_neg fun hn => absurd (hfind.now hn) (by simp [NullCheck.anyFinds])]
    rfl
  | cons c cs ih =>
    obtain ⟨next, hnext, hrest⟩ := Option.bind_eq_some_iff.1 hleads
    rcases NullCheck.next?_cases hnext with ⟨hop, rfl⟩ | ⟨access, hop, -⟩
    · -- The variable is compared once more.
      rw [NullCheck.temporaries_cons_reference hop] at hundefined
      have hlook := eval_variable (M := M) (fun h => hundefined (by simp [h])) hv
      rw [runChecks, runGuards, guard, hop, bind_ok hlook, bind_ok hlook]
      cases hc : c.finds v with
      | true =>
        rw [NullCheck.isNullish_of_finds hc]
        rfl
      | false =>
        rw [if_neg (by simp), ih hrest hundefined (hfind.reference hop hc) hv]
        cases v.isNullish <;> rfl
    · -- The next variable is given a value, which is the one to be found from here on.
      rw [NullCheck.temporaries_cons_assign hop] at hundefined
      rw [hfind.present hop hrest, runChecks, runGuards, guard, hop, eval_assign]
      simp only [bind_assoc, pure_bind, Bool.false_eq_true, if_false]
      refine congrFun (bind_congr fun w => funext fun s => ?_) s
      let s' : State W := { s with store.vars := fun n => if n = next then some w else s.store.vars n }
      have hset : setVariable next w s = (.ok (), s') := rfl
      have hv : s'.store.vars next = some w := by simp [s']
      rw [bind_ok hset, bind_ok hset]
      cases hc : c.finds w with
      | true =>
        rw [NullCheck.isNullish_of_finds hc]
        rfl
      | false =>
        rw [if_neg (by simp), ih hrest (fun h => hundefined (List.mem_cons_of_mem _ h)) (hfind.assign hop hc) hv]
        cases w.isNullish <;> rfl

/-- In pairs the checks of a row do what its guards do. -/
theorem runChecks_row {c : NullCheck} {cs : List NullCheck} {root last : String} (hop : c.operand = .reference root)
    (hleads : NullCheck.leads root cs = some last) (hnodup : (root :: NullCheck.temporaries cs).Nodup)
    (hundefined : "undefined" ∉ root :: NullCheck.temporaries cs)
    (hpairs : ∀ name ∈ root :: NullCheck.temporaries cs, NullCheck.coversBoth (c :: cs) name = true) (rest : Eval W Value) :
    M.runChecks (c :: cs) rest = M.runGuards (c :: cs) rest := by
  funext s
  rw [runChecks, runGuards, guard, hop, M.eval_reference (fun h => hundefined (by simp [h]))]
  cases hv : s.store.vars root with
  | none =>
    have hnone : M.readVariable root s = (.error (M.noVariable root), s) := by simp only [readVariable, hv]
    rw [bind_error hnone, bind_error hnone]
  | some v =>
    have hsome : M.readVariable root s = (.ok v, s) := by simp only [readVariable, hv]
    rw [bind_ok hsome, bind_ok hsome]
    cases hc : c.finds v with
    | true =>
      rw [NullCheck.isNullish_of_finds hc]
      rfl
    | false =>
      rw [if_neg (by simp), runChecks_leads hleads hundefined (.of_coversBoth hop hnodup hpairs hc) hv]
      cases v.isNullish <;> rfl

end Machine

/-- Each guard is on the variable that the guard before it is about, and the guarded access is on that of the last one. -/
def Tree.MakesRow (test no : Tree) : Prop :=
  ∃ c cs root last, test.checks = c :: cs ∧ c.operand = .reference root ∧ NullCheck.leads root cs = some last ∧
    no.object? = some (.reference last)

namespace NullCheck

theorem leads_map_loosened (cs : List NullCheck) (current : String) : leads current (cs.map loosened) = leads current cs := by
  induction cs generalizing current with
  | nil => rfl
  | cons c cs ih =>
    rw [List.map_cons, leads, leads]
    simp only [ih]
    rfl

/-- Each variable of a row is compared. -/
theorem exists_isOn {c : NullCheck} {cs : List NullCheck} {root name : String} (hop : c.operand = .reference root)
    (h : name ∈ root :: temporaries cs) : ∃ d ∈ c :: cs, d.isOn name = true := by
  rcases List.mem_cons.1 h with rfl | h
  · exact ⟨c, by simp, by rw [isOn_reference hop, beq_self_eq_true]⟩
  · obtain ⟨d, hd, h⟩ := List.mem_flatMap.1 h
    rw [Option.mem_toList, temporary?, Option.map_eq_some_iff] at h
    obtain ⟨⟨n, t⟩, ha, rfl⟩ := h
    exact ⟨d, List.mem_cons_of_mem _ hd, by rw [isOn_assign (eq_of_assignment? ha), beq_self_eq_true]⟩

end NullCheck

/-- What a survey knows of a row. -/
theorem Survey.Records.row {s : Survey} {c : NullCheck} {cs : List NullCheck} (h : s.Records (c :: cs)) {root : String}
    (hop : c.operand = .reference root) :
    s.bindings.map (·.name) = NullCheck.temporaries cs ∧ (root :: NullCheck.temporaries cs).Nodup := by
  have hroot : s.root = some root := by simpa [hop, eq_comm] using h.root
  have hnames := h.names
  have hnodup := h.nodup
  rw [NullCheck.temporaries_cons_reference hop] at hnames
  rw [hroot, hnames] at hnodup
  exact ⟨hnames, hnodup⟩

theorem Machine.runGuards_map_loosened {W : Type} (M : Machine W) (cs : List NullCheck) (rest : Eval W Value) :
    M.runGuards (cs.map NullCheck.loosened) rest = M.runGuards cs rest := by
  induction cs with
  | nil => rfl
  | cons c cs ih => rw [List.map_cons, runGuards, runGuards, ih, NullCheck.operand_loosened]

/-- A loosened row is a row. -/
theorem Tree.MakesRow.isRow {test no : Tree} (h : test.MakesRow no) (yes : Tree) :
    (Tree.conditional test.loosened yes no).IsRow := by
  obtain ⟨c, cs, root, last, hcs, hop, hleads, hno⟩ := h
  have hchecks := checks_loosened test
  refine ⟨fun d hd => ?_, c.loosened, cs.map NullCheck.loosened, root, last, ?_, hop, ?_, hno⟩
  · rw [hchecks] at hd
    obtain ⟨d, -, rfl⟩ := List.mem_map.1 hd
    rfl
  · rw [hchecks, hcs, List.map_cons]
  · rw [NullCheck.leads_map_loosened, hleads]

/-- In pairs the guards of a row are as good as loose ones: they do the same. -/
theorem Machine.eval_loosened {W : Type} (M : Machine W) {test yes no : Tree} {r : Replacement} (hpairs : test.ComparesInPairs)
    (hrow : test.MakesRow no) (h : (Tree.conditional test yes no).guardedChain = some r) (hundefined : "undefined" ∉ r.consumed) :
    M.eval (.conditional test yes no) = M.eval (.conditional test.loosened yes no) := by
  have hloosened := guardedChain_loosened hpairs h
  obtain ⟨hloose, -⟩ := hrow.isRow yes
  obtain ⟨c, cs, root, last, hcs, hop, hleads, -⟩ := hrow
  obtain ⟨hyes, s, _, _, _, hs, -, -, -, rfl⟩ := guardedChain_eq_some.1 h
  obtain ⟨-, s', _, _, _, hs', -⟩ := guardedChain_eq_some.1 hloosened
  have hrecords := records_alternatives hs
  rw [hcs] at hrecords
  obtain ⟨hnames, hnodup⟩ := hrecords.row hop
  have hnew : "undefined" ∉ root :: NullCheck.temporaries cs := by
    rw [List.mem_cons, not_or, ← hnames]
    obtain ⟨g, -, hg⟩ := List.mem_filterMap.1 (show c ∈ test.checks by rw [hcs]; simp)
    exact ⟨(NullCheck.ne_undefined hg hop).symm, hundefined⟩
  have hcovers : ∀ name ∈ root :: NullCheck.temporaries cs, NullCheck.coversBoth (c :: cs) name = true := by
    intro name hname
    obtain ⟨d, hd, hon⟩ := NullCheck.exists_isOn hop hname
    rw [← hcs] at hd ⊢
    exact hpairs.coversBoth hd hon
  calc M.eval (.conditional test yes no)
    _ = M.runChecks test.checks (M.eval no) := eval_conditional_checks (Survey.of?_of_foldlM hs) hyes
    _ = M.runGuards test.checks (M.eval no) := by rw [hcs, runChecks_row hop hleads hnodup hnew hcovers]
    _ = M.runGuards test.loosened.checks (M.eval no) := by rw [checks_loosened, runGuards_map_loosened]
    _ = M.eval (.conditional test.loosened yes no) := (eval_row (Survey.of?_of_foldlM hs') hloose hyes).symm

/-! ## The chain in front of `??` -/

/-- If the value that an expanded `??` assigns is that of the left side, but for the temporaries, then it has the outcome of the `??`,
and evaluates the fallback exactly when that does. -/
theorem Machine.close_assigned {W : Type} (M : Machine W) {names : List String} (hM : ∀ n ∈ names, M.Overlooks n)
    (hundefined : "undefined" ∉ names) {test value left fallback : Tree} {first : NullCheck} {second : Option NullCheck}
    {name : String} (hname : name ∈ names) (hchecks : test.notNullChecks = some (first, second))
    (hagrees : NullCheck.agrees name second = true) (hop : first.operand = .assign .plain (.reference name) value)
    (hfallback : ∀ n ∈ names, fallback.uses n = 0) (h : Close names (M.eval value) (M.eval left)) :
    Close names (M.eval (.conditional test (.reference name) fallback)) (M.eval (.logical .coalesce left fallback)) ∧
      ∀ s, (M.eval test s).1.map M.truthy = (M.eval left s).1.map (!·.isNullish) := by
  have htoken : first.token = .reference name := by simp only [NullCheck.token, hop, assignment?]
  have hsettles : M.Settles first := M.settles_assign hop fun h => hundefined (h ▸ hname)
  have hpure : ∀ {β : Type} (b : β), IdleAll names (pure b : Eval W β) (pure b) := fun b _ _ hs => ⟨rfl, hs⟩
  have hassign : ∀ {β : Type} (f : Value → Eval W β), (∀ v, IdleAll names (f v) (f v)) →
      Close names (M.eval first.operand >>= f) (M.eval left >>= f) := by
    intro β f hf
    rw [hop, M.eval_assign]
    simp only [bind_assoc, pure_bind]
    exact h.bind_idleAll fun v => idleAll_dropped hname (hf v) v
  constructor
  · rw [eval_expanded hchecks hagrees htoken hsettles, eval_coalesce]
    refine hassign _ fun v => ?_
    cases v.isNullish with
    | true => exact idleAll_of_idle fun n hn => (idle_of_unread (hM n hn) (.of_uses (hfallback n hn))).bind fun p =>
        idle_value (hM n hn).toIgnores p
    | false => exact hpure v
  · intro s
    rw [← map_fst, ← map_fst, eval_notNullChecks hchecks hagrees htoken hsettles]
    exact (hassign (fun v => pure (!v.isNullish)) (fun v => hpure _) s).1

/-- The strict guards of a chain in front of `??` are as good as loose ones if they come in pairs. In any case the access on a
variable is a link if the guards compare the variable on its own, loosely or with `null`. So it is one if they compare the variable
with both `null` and `undefined`; and if each variable that they compare is compared with both, no other access is a link. If in
addition the guards make a row, then the restored `??` makes the accesses that the expression makes: with the same outcome, the same
trace and the same variables but for the temporaries, and the fallback evaluated exactly when that expression does. -/
theorem Tree.coalesce_pairs {test yes fallback cond inner no : Tree} {name : String} {left r : Replacement}
    (h : (Tree.conditional test yes fallback).coalesce = some r)
    (hguard : assignedGuard test yes = some (name, .conditional cond inner no))
    (hchain : (Tree.conditional cond inner no).guardedChain = some left) :
    r.expr = .logical .coalesce left.expr fallback ∧ r.consumed = name :: left.consumed ∧
      cond.IsChainOf no (NullCheck.needsLink cond.checks) left.expr ∧
      (∀ n, NullCheck.coversBoth cond.checks n = true → NullCheck.needsLink cond.checks n = true) ∧
      (cond.ComparesInPairs → cond.IsChainOf no (NullCheck.coversBoth cond.checks) left.expr ∧
        (cond.MakesRow no → ∀ {W : Type} (M : Machine W), (∀ n ∈ r.consumed, r.expr.Unread n) → "undefined" ∉ r.consumed →
          (∀ n ∈ r.consumed, M.Overlooks n) → ∀ s,
          (M.eval (.conditional test yes fallback) s).1 = (M.eval r.expr s).1 ∧
          (M.eval (.conditional test yes fallback) s).2.Agree r.consumed (M.eval r.expr s).2 ∧
          (M.eval test s).1.map M.truthy = (M.eval left.expr s).1.map (!·.isNullish))) := by
  obtain ⟨rfl, first, second, hchecks, hop, hagrees⟩ := assignedGuard_eq_some hguard
  unfold coalesce at h
  simp only [hguard, hchain, Option.getD_some] at h
  split at h
  · exact absurd h (by simp)
  rename_i hfallback
  obtain rfl := Option.some.inj h
  simp only [List.any_eq_true, decide_eq_true_eq, not_exists, not_and, not_lt, Nat.le_zero] at hfallback
  have hlinks := isChainOf_guardedChain hchain
  refine ⟨rfl, rfl, hlinks, fun n => NullCheck.needsLink_of_coversBoth, fun hpairs => ⟨hlinks.congr fun c hc n hon => ?_, ?_⟩⟩
  · have hcovers := hpairs.coversBoth hc hon
    rw [hcovers, NullCheck.needsLink_of_coversBoth hcovers]
  · intro hrow W M hu hundefined hM s
    have hleft := fun n hn => unread_node rfl rfl (hu n hn) left.expr (by simp)
    have hclose : Close (name :: left.consumed) (M.eval (.conditional cond inner no)) (M.eval left.expr) := by
      rw [M.eval_loosened hpairs hrow hchain fun h => hundefined (List.mem_cons_of_mem _ h)]
      exact Machine.close_chain hM hundefined (guardedChain_loosened hpairs hchain) (hrow.isRow inner)
        (List.subset_cons_self ..) hleft
    obtain ⟨houtcome, htest⟩ := M.close_assigned hM hundefined (by simp) hchecks hagrees hop hfallback hclose
    exact ⟨(houtcome s).1, (houtcome s).2, htest s⟩

/-! ## Examples -/

namespace StrictRowWitness

open EffectsWitness CoalesceWitness PairsWitness

/-- `null !== (t = test ? void 0 : access) && void 0 !== t ? t : x` -/
def strictly (test access : Tree) : Tree :=
  .conditional
    (.logical .and
      (.binary .strictNe .null (.assign .plain temporary (.conditional test undefined access)))
      (.binary .strictNe undefined temporary))
    temporary (.reference "x")

/-- `null === r || void 0 === r || void 0 === (n = r.a) || null === n || null == (o = n.b)` -/
def paired : Tree :=
  .logical .or
    (.logical .or
      (.logical .or
        (.logical .or (.binary .strictEq .null (.reference "r")) (.binary .strictEq undefined (.reference "r")))
        (.binary .strictEq undefined (.assign .plain (.reference "n") (.member (.reference "r") "a" false))))
      (.binary .strictEq .null (.reference "n")))
    (assigns "o" "n" "b")

/-- `null === r` -/
def halved : Tree := .binary .strictEq .null (.reference "r")

/-- `r?.b ?? x` -/
def relinked : Tree := .logical .coalesce (.chain (.member (.reference "r") "b" true)) (.reference "x")

/-- `r` is `undefined`, and no other variable is. -/
def state : State Unit := ⟨⟨fun name => some (if name = "r" then .undefined else .other 0), ()⟩, []⟩

theorem paired_comparesInPairs : paired.ComparesInPairs := by
  unfold ComparesInPairs
  decide

theorem paired_makesRow : paired.MakesRow (.member (.reference "o") "c" false) := ⟨_, _, "r", "o", rfl, rfl, rfl, rfl⟩

theorem halved_makesRow : halved.MakesRow (.member (.reference "r") "b" false) := ⟨_, _, "r", "r", rfl, rfl, rfl, rfl⟩

end StrictRowWitness

open StrictRowWitness

/-- Pairs with either half first, one of them with the assignment in its second half, and a loose guard after them. -/
theorem Tree.coalesce_pairs_row :
    (strictly paired (.member (.reference "o") "c" false)).coalesce = some ⟨CoalesceWitness.restored, ["t", "n", "o"]⟩ ∧ ∀ s,
      ((Machine.constant (.other 0)).eval (strictly paired (.member (.reference "o") "c" false)) s).1 =
        ((Machine.constant (.other 0)).eval CoalesceWitness.restored s).1 := by
  have hr : (strictly paired (.member (.reference "o") "c" false)).coalesce =
      some ⟨CoalesceWitness.restored, ["t", "n", "o"]⟩ := rfl
  obtain ⟨-, -, -, -, hpairs⟩ := coalesce_pairs hr rfl rfl
  have hall := (hpairs paired_comparesInPairs).2 paired_makesRow (Machine.constant (.other 0)) (by decide) (by decide)
    fun n _ => Machine.constant_overlooks _ n
  exact ⟨hr, fun s => (hall s).1⟩

/-- One half of a pair is enough for the survey, but neither the link nor the value is right then:
`null !== (t = null === r ? void 0 : r.b) && void 0 !== t ? t : x` becomes `r?.b ?? x`, which is `x` where `r` is `undefined`, though
the expression throws there. -/
theorem Tree.coalesce_pairs_false : ¬ ∀ (test yes fallback cond inner no : Tree) (name : String) (left r : Replacement),
    (Tree.conditional test yes fallback).coalesce = some r →
    assignedGuard test yes = some (name, .conditional cond inner no) →
    (Tree.conditional cond inner no).guardedChain = some left → cond.MakesRow no →
    cond.ComparesInPairs ∨ cond.IsChainOf no (NullCheck.coversBoth cond.checks) left.expr ∨
      ∀ (W : Type) (M : Machine W), (∀ n ∈ r.consumed, M.Overlooks n) → ∀ s,
        (M.eval (.conditional test yes fallback) s).1 = (M.eval r.expr s).1 := by
  intro h
  have hr : (strictly halved (.member (.reference "r") "b" false)).coalesce = some ⟨relinked, ["t"]⟩ := rfl
  rcases h _ _ _ _ _ _ _ _ _ hr rfl rfl halved_makesRow with hpairs | ⟨root, path, last, hleads, -, hchain⟩ | hexact
  · exact absurd hpairs (by unfold ComparesInPairs; decide)
  · have hoperand : ∀ c ∈ halved.checks, c.operand = .reference "r" := by
      have hchecks : halved.checks = [⟨.reference "r", .null, true, false⟩] := rfl
      simp [hchecks]
    cases hleads with
    | start hc hop =>
      obtain rfl : root = "r" := by simpa [hop] using hoperand _ hc
      exact absurd hchain (by decide)
    | step _ hc hop => exact absurd (hop.symm.trans (hoperand _ hc)) (by simp)
  · have hvalue := hexact Unit (.constant (.other 0)) (fun n _ => Machine.constant_overlooks _ n) state
    have hvariable : ((Machine.constant (.other 0)).eval relinked state).1 = .ok (.other 0) := rfl
    have hthrows : ((Machine.constant (.other 0)).eval (strictly halved (.member (.reference "r") "b" false)) state).1 =
        .error (.other 1) := rfl
    rw [hvariable] at hvalue
    exact absurd (hthrows.symm.trans hvalue) (by simp)

end Chainlift

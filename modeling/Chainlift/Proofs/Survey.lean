import Chainlift.Guard.Coalesce
import Chainlift.Proofs.Folding
import Chainlift.Proofs.Layers
import Chainlift.Proofs.Path

/-!
# Rows of guards in front of `??`

Where a chain is restored in front of `??`, it is made of the accesses on the way from the root to the guarded access
(`Tree.guardedChain_eq_some`), so only those guards become links that lie on this way. In a row each guard is on the variable
that the guard before it is about (`Tree.IsRow`): it checks that variable again, or gives a temporary a member of it. Then all
of them lie on the way, and with loose comparisons each becomes a link (`Tree.guardedChain_row`).

What else is taken for an expanded `??` is told at the end (`Tree.coalesce_eq_some`): the check of a value that is assigned to a
variable, or of the variable itself.
-/

namespace Chainlift

open Tree

/-! ## What a chain is made of -/

/-- The chain of accesses from a variable on. The access on a variable is a link if that is `optional`. -/
def Tree.chainAlong (root : String) (optional : String → Bool) (path : List (String × Tree)) : Tree :=
  Tree.closed (path.foldl (fun (chain : Tree) (step : String × Tree) => step.2.onObject chain (optional step.1)) (.reference root))

namespace Tree

/-- What makes a link matters on the way only. -/
theorem chainAlong_congr {optional optional' : String → Bool} {path : List (String × Tree)}
    (h : ∀ step ∈ path, optional step.1 = optional' step.1) (root : String) :
    chainAlong root optional path = chainAlong root optional' path := by
  unfold chainAlong
  rw [List.foldl_ext _ _ _ fun t step hstep => by rw [h step hstep]]

/-- What a row of `||` hands down to its operands holds of all of them. -/
theorem of_mem_alternatives {P : Tree → Prop} (hP : ∀ {a b : Tree}, P (.logical .or a b) → P a ∧ P b) {t : Tree} (h : P t) :
    ∀ a ∈ t.alternatives, P a := by
  fun_induction Tree.alternatives t with
  | case1 a b iha ihb =>
    obtain ⟨ha, hb⟩ := hP h
    intro c hc
    rcases List.mem_append.1 hc with hc | hc
    · exact iha ha c hc
    · exact ihb hb c hc
  | case2 t => simpa using h

/-- Only a conditional is taken for a chain. -/
theorem exists_conditional_of_guardedChain {value : Tree} {r : Replacement} (h : value.guardedChain = some r) :
    ∃ test yes no, value = .conditional test yes no := by
  unfold guardedChain at h
  split at h
  · exact ⟨_, _, _, rfl⟩
  · exact absurd h (by simp)

/-- A chain is made of what a survey of its guards has found, and of the accesses on the way to the guarded one. -/
theorem guardedChain_eq_some {test yes no : Tree} {r : Replacement} :
    (Tree.conditional test yes no).guardedChain = some r ↔ yes.isUndefined = true ∧ ∃ s root last path,
      test.alternatives.foldlM Survey.addGuard {} = some s ∧ s.root = some root ∧ no.object? = some (.reference last) ∧
      Survey.climb root s.bindings.reverse last = some path ∧
      r = ⟨chainAlong root s.checked.contains (path ++ [(last, no)]), s.bindings.map (·.name)⟩ := by
  unfold guardedChain
  simp only [Option.bind_eq_bind, Option.bind_eq_some_iff]
  constructor
  · rintro ⟨object, ho, h⟩
    split at h
    · exact absurd h (by simp)
    · rename_i hyes
      simp only [Option.bind_eq_some_iff] at h
      obtain ⟨s, hs, root, hroot, last, hlast, path, hpath, h⟩ := h
      exact ⟨by simpa using hyes, s, root, last, path, hs, hroot, (eq_of_asVariable? hlast) ▸ ho, hpath, (Option.some.inj h).symm⟩
  · rintro ⟨hyes, s, root, last, path, hs, hroot, hno, hpath, rfl⟩
    refine ⟨_, hno, ?_⟩
    simp only [hyes, Bool.not_true, Bool.false_eq_true, if_false, Option.bind_eq_some_iff]
    exact ⟨s, hs, root, hroot, last, rfl, path, hpath, rfl⟩

end Tree

/-! ## Rows of guards -/

/-- The variable that the next guard of a row is on. A guard is on a variable if it checks it, and the next one is on it too, or
if it gives a temporary a member of it, and the next one is on that temporary. -/
def NullCheck.next? (current : String) (c : NullCheck) : Option String :=
  match c.operand.asVariable? with
  | some name => if name == current then some name else none
  | none => do
    let (name, access) ← c.operand.assignment?
    let object ← access.object?
    if object.asVariable? == some current then some name else none

/-- The variable to which a row of guards leads from another one. -/
def NullCheck.leads : (current : String) → List NullCheck → Option String
  | current, [] => some current
  | current, c :: cs => (c.next? current).bind fun name => leads name cs

/-- The members that the guards of a row read. -/
def NullCheck.accesses (cs : List NullCheck) : List Tree := cs.flatMap fun c => (c.operand.assignment?.map (·.2)).toList

/-- The temporaries that guards assign. -/
def NullCheck.temporaries (cs : List NullCheck) : List String := cs.flatMap fun c => c.temporary?.toList

/-- The null checks among the operands of a row of `||`. -/
def Tree.checks (test : Tree) : List NullCheck := test.alternatives.filterMap NullCheck.of?

/-- A conditional with loose guards, each on the variable that the one before it is about, and the guarded access on that of the
last one. -/
def Tree.IsRow : Tree → Prop
  | .conditional test _ no => (∀ c ∈ test.checks, c.strict = false) ∧
      ∃ c cs root last, test.checks = c :: cs ∧ c.operand = .reference root ∧ NullCheck.leads root cs = some last ∧
        no.object? = some (.reference last)
  | _ => False

namespace NullCheck

/-- `undefined` is not checked as a variable. -/
theorem ne_undefined {t : Tree} {c : NullCheck} (h : of? t = some c) {name : String} (hop : c.operand = .reference name) :
    name ≠ "undefined" := by
  obtain ⟨-, -, -, -, -, hcheckable⟩ := operand_mem h
  rintro rfl
  rw [hop] at hcheckable
  exact absurd hcheckable (by simp [isCheckable])

/-- A guard in a row checks the variable again, or gives a temporary a member of it. -/
theorem next?_cases {current name : String} {c : NullCheck} (h : c.next? current = some name) :
    (c.operand = .reference current ∧ name = current) ∨
    ∃ access, c.operand = .assign .plain (.reference name) access ∧ access.object? = some (.reference current) := by
  unfold next? at h
  split at h
  · rename_i n hn
    split at h
    · rename_i heq
      obtain rfl := Option.some.inj h
      obtain rfl := beq_iff_eq.1 heq
      exact .inl ⟨eq_of_asVariable? hn, rfl⟩
    · exact absurd h (by simp)
  · simp only [Option.bind_eq_bind, Option.bind_eq_some_iff] at h
    obtain ⟨⟨n, access⟩, ha, object, ho, h⟩ := h
    split at h
    · rename_i heq
      obtain rfl := Option.some.inj h
      exact .inr ⟨access, eq_of_assignment? ha, (eq_of_asVariable? (beq_iff_eq.1 heq)) ▸ ho⟩
    · exact absurd h (by simp)

theorem accesses_cons_reference {c : NullCheck} {name : String} (h : c.operand = .reference name) (cs : List NullCheck) :
    accesses (c :: cs) = accesses cs := by
  simp [accesses, h, assignment?]

theorem accesses_cons_assign {c : NullCheck} {name : String} {access : Tree}
    (h : c.operand = .assign .plain (.reference name) access) (cs : List NullCheck) :
    accesses (c :: cs) = access :: accesses cs := by
  simp [accesses, h, assignment?]

theorem temporaries_cons_reference {c : NullCheck} {name : String} (h : c.operand = .reference name) (cs : List NullCheck) :
    temporaries (c :: cs) = temporaries cs := by
  simp [temporaries, temporary?, h, assignment?]

theorem temporaries_cons_assign {c : NullCheck} {name : String} {t : Tree} (h : c.operand = .assign .plain (.reference name) t)
    (cs : List NullCheck) : temporaries (c :: cs) = name :: temporaries cs := by
  simp [temporaries, temporary?, h, assignment?]

end NullCheck

/-! ## The survey of a row -/

namespace Survey

/-- A guard checks a variable, or assigns a temporary. -/
theorem addGuard_eq_some {s s' : Survey} {guard : Tree} (h : s.addGuard guard = some s') :
    ∃ c, NullCheck.of? guard = some c ∧ c.negated = false ∧
      ((∃ name, c.operand = .reference name ∧ s.addVariable name = some s') ∨
        c.operand.asVariable? = none ∧ s.addBinding c = some s') := by
  unfold addGuard at h
  simp only [Option.bind_eq_bind, Option.bind_eq_some_iff] at h
  obtain ⟨c, hc, h⟩ := h
  split at h
  · exact absurd h (by simp)
  · rename_i hn
    refine ⟨c, hc, by simpa using hn, ?_⟩
    split at h
    · rename_i name hname
      exact .inl ⟨name, eq_of_asVariable? hname, h⟩
    · rename_i hnone
      exact .inr ⟨hnone, h⟩

/-- A variable that is checked is the root, or known already. -/
theorem addVariable_eq_some {s s' : Survey} {name : String} (h : s.addVariable name = some s') :
    s.root = none ∧ s.bindings = [] ∧ s' = ⟨some name, [], name :: s.checked⟩ ∨
      s.knows name = true ∧ s' = { s with checked := name :: s.checked } := by
  unfold addVariable at h
  split at h
  · rename_i hnew
    rw [Bool.and_eq_true, Option.isNone_iff_eq_none, List.isEmpty_iff] at hnew
    obtain rfl := Option.some.inj h
    exact .inl ⟨hnew.1, hnew.2, by rw [hnew.2]⟩
  · split at h
    · rename_i hknown
      exact .inr ⟨hknown, (Option.some.inj h).symm⟩
    · exact absurd h (by simp)

/-- A temporary holds a member of a variable that is known, and was not known before. -/
theorem addBinding_eq_some {s s' : Survey} {c : NullCheck} (h : s.addBinding c = some s') :
    ∃ name parent access, c.operand = .assign .plain (.reference name) access ∧ access.object? = some (.reference parent) ∧
      s.knows parent = true ∧ s.knows name = false ∧ s' = ⟨s.root, s.bindings ++ [⟨name, parent, access⟩],
        if c.compared == .null || !c.strict then name :: s.checked else s.checked⟩ := by
  unfold addBinding at h
  simp only [Option.bind_eq_bind, Option.bind_eq_some_iff] at h
  obtain ⟨⟨name, source⟩, ha, object, ho, parent, hparent, h⟩ := h
  obtain rfl := eq_of_asVariable? hparent
  split at h
  · exact absurd h (by simp)
  · rename_i hknown
    simp only [Bool.or_eq_true, not_or, Bool.not_eq_true', Bool.not_eq_true, Bool.not_eq_false] at hknown
    exact ⟨name, parent, source, eq_of_assignment? ha, ho, hknown.1.2, hknown.2, (Option.some.inj h).symm⟩

/-- A temporary is added for a guard that assigns it. -/
theorem exists_of_mem_addGuard {s s' : Survey} {guard : Tree} (h : s.addGuard guard = some s') :
    ∀ b ∈ s'.bindings, b ∈ s.bindings ∨
      ∃ c, NullCheck.of? guard = some c ∧ c.operand = .assign .plain (.reference b.name) b.access := by
  obtain ⟨c, hc, -, ⟨name, -, h⟩ | ⟨-, h⟩⟩ := addGuard_eq_some h
  · rcases addVariable_eq_some h with ⟨-, -, rfl⟩ | ⟨-, rfl⟩
    · exact fun b hb => absurd hb (by simp)
    · exact fun b hb => .inl hb
  · obtain ⟨name, parent, access, hop, -, -, -, rfl⟩ := addBinding_eq_some h
    intro b hb
    rcases List.mem_append.1 hb with hb | hb
    · exact .inl hb
    · rw [List.mem_singleton.1 hb]
      exact .inr ⟨c, hc, hop⟩

theorem exists_of_mem_foldlM {guards : List Tree} {s s' : Survey} (h : guards.foldlM addGuard s = some s') :
    ∀ b ∈ s'.bindings, b ∈ s.bindings ∨
      ∃ guard ∈ guards, ∃ c, NullCheck.of? guard = some c ∧ c.operand = .assign .plain (.reference b.name) b.access := by
  induction guards generalizing s with
  | nil =>
    obtain rfl := Option.some.inj h
    exact fun b hb => .inl hb
  | cons g gs ih =>
    rw [List.foldlM_cons] at h
    obtain ⟨s₁, hg, h⟩ := Option.bind_eq_some_iff.1 h
    intro b hb
    rcases ih h b hb with hb | ⟨guard, hguard, hassigned⟩
    · exact (exists_of_mem_addGuard hg b hb).imp_right fun hassigned => ⟨g, List.mem_cons_self, hassigned⟩
    · exact .inr ⟨guard, List.mem_cons_of_mem _ hguard, hassigned⟩

/-- The guards so far have led from the root to the variable, in the order of the temporaries, and all of these were checked. -/
structure Follows (s : Survey) (root current : String) : Prop where
  rooted : s.root = some root
  climbs : climb root s.bindings.reverse current = some (s.bindings.map fun b => (b.parent, b.access))
  parents : ∀ b ∈ s.bindings, s.checked.contains b.parent = true
  checked : s.checked.contains current = true

/-- Every guard that is surveyed is a null check. -/
theorem of?_of_foldlM {gs : List Tree} {s s' : Survey} (h : gs.foldlM addGuard s = some s') :
    ∀ g ∈ gs, ∃ c, NullCheck.of? g = some c ∧ c.negated = false := by
  induction gs generalizing s with
  | nil => exact fun g hg => absurd hg (by simp)
  | cons g gs ih =>
    rw [List.foldlM_cons] at h
    obtain ⟨s₁, hs, h⟩ := Option.bind_eq_some_iff.1 h
    simp only [List.mem_cons, forall_eq_or_imp]
    obtain ⟨c, hc, hn, -⟩ := addGuard_eq_some hs
    exact ⟨⟨c, hc, hn⟩, ih h⟩

theorem follows_addVariable {s s' : Survey} {root current : String} (h : s.Follows root current)
    (hs : s.addVariable current = some s') : s'.Follows root current ∧ s'.bindings = s.bindings := by
  have hmore : Follows { s with checked := current :: s.checked } root current := by
    refine ⟨h.rooted, h.climbs, fun b hb => ?_, by simp⟩
    have := h.parents b hb
    simp only [List.contains_cons, this, Bool.or_true]
  rcases addVariable_eq_some hs with ⟨hnone, -, -⟩ | ⟨-, rfl⟩
  · exact absurd (h.rooted.symm.trans hnone) (by simp)
  · exact ⟨hmore, rfl⟩

/-- One more temporary is followed, if it is checked by then. -/
theorem Follows.bound {s : Survey} {root current name : String} (h : s.Follows root current) (hname : name ≠ root)
    {checked : List String} (hmore : ∀ n, s.checked.contains n = true → checked.contains n = true)
    (hchecked : checked.contains name = true) (access : Tree) :
    Follows ⟨s.root, s.bindings ++ [⟨name, current, access⟩], checked⟩ root name := by
  have hroot : (name == root) = false := beq_eq_false_iff_ne.2 hname
  refine ⟨h.rooted, ?_, ?_, hchecked⟩
  · simp only [List.reverse_append, List.reverse_singleton, List.singleton_append, Survey.climb, hroot, Bool.false_eq_true,
      if_false, beq_self_eq_true, if_true, h.climbs, Option.bind_eq_bind, Option.bind_some, List.map_append, List.map_cons,
      List.map_nil]
  · intro b hb
    rcases List.mem_append.1 hb with hb | hb
    · exact hmore _ (h.parents b hb)
    · rw [List.mem_singleton.1 hb]
      exact hmore _ h.checked

theorem follows_addBinding {s s' : Survey} {root current name : String} {c : NullCheck} {access : Tree}
    (h : s.Follows root current) (hc : c.operand = .assign .plain (.reference name) access)
    (ho : access.object? = some (.reference current)) (hloose : c.strict = false) (hs : s.addBinding c = some s') :
    s'.Follows root name ∧ s'.bindings = s.bindings ++ [⟨name, current, access⟩] := by
  obtain ⟨n, parent, access', hop, ho', -, hknown, rfl⟩ := addBinding_eq_some hs
  obtain ⟨rfl, rfl⟩ : name = n ∧ access = access' := by simpa using hc.symm.trans hop
  obtain rfl : current = parent := by simpa using ho.symm.trans ho'
  have hroot : name ≠ root := by
    rintro rfl
    simp [knows, h.rooted] at hknown
  have hchecked : (if (c.compared == .null || !c.strict) = true then name :: s.checked else s.checked) = name :: s.checked := by
    simp [hloose]
  rw [hchecked]
  refine ⟨h.bound hroot (fun n hn => ?_) (by simp) access, rfl⟩
  rw [List.contains_cons, hn, Bool.or_true]

/-- A row of loose guards is followed to its end. -/
theorem follows_foldlM {gs : List Tree} {s s' : Survey} {root current last : String} (h : s.Follows root current)
    (hloose : ∀ c ∈ gs.filterMap NullCheck.of?, c.strict = false)
    (hleads : NullCheck.leads current (gs.filterMap NullCheck.of?) = some last)
    (hs : gs.foldlM addGuard s = some s') : s'.Follows root last ∧
      s'.bindings.map (·.access) = s.bindings.map (·.access) ++ NullCheck.accesses (gs.filterMap NullCheck.of?) ∧
      s'.bindings.map (·.name) = s.bindings.map (·.name) ++ NullCheck.temporaries (gs.filterMap NullCheck.of?) := by
  induction gs generalizing s current with
  | nil =>
    obtain rfl := Option.some.inj hs
    obtain rfl := Option.some.inj hleads
    exact ⟨h, by simp [NullCheck.accesses], by simp [NullCheck.temporaries]⟩
  | cons g gs ih =>
    rw [List.foldlM_cons] at hs
    obtain ⟨s₁, hg, hs⟩ := Option.bind_eq_some_iff.1 hs
    obtain ⟨c, hc, -, hg⟩ := addGuard_eq_some hg
    rw [List.filterMap_cons_some hc] at hloose hleads ⊢
    simp only [List.mem_cons, forall_eq_or_imp] at hloose
    obtain ⟨name, hnext, hrest⟩ := Option.bind_eq_some_iff.1 hleads
    rcases NullCheck.next?_cases hnext with ⟨hop, rfl⟩ | ⟨access, hop, ho⟩
    · obtain ⟨n, hn, hg⟩ := hg.resolve_right fun hnone => absurd hnone.1 (by simp [hop, asVariable?])
      obtain rfl : name = n := by simpa using hop.symm.trans hn
      obtain ⟨hfollows, hsame⟩ := follows_addVariable h hg
      have hend := ih hfollows hloose.2 hrest hs
      rw [hsame] at hend
      rw [NullCheck.accesses_cons_reference hop, NullCheck.temporaries_cons_reference hop]
      exact hend
    · obtain ⟨-, hg⟩ := hg.resolve_left fun ⟨n, hn, _⟩ => absurd (hop.symm.trans hn) (by simp)
      obtain ⟨hfollows, hmore⟩ := follows_addBinding h hop ho hloose.1 hg
      obtain ⟨hfollows, haccesses, hnames⟩ := ih hfollows hloose.2 hrest hs
      rw [NullCheck.accesses_cons_assign hop, NullCheck.temporaries_cons_assign hop]
      rw [hmore] at haccesses hnames
      refine ⟨hfollows, ?_, ?_⟩
      · rw [haccesses]
        simp
      · rw [hnames]
        simp

end Survey

/-! ## The chain of a row -/

namespace Tree

/-- The layer that a member access is on its object. -/
def layer? : Tree → Option Layer
  | .member _ name _ => some (.member name)
  | .index _ key _ => some (.index key)
  | .privateMember _ name _ => some (.privateMember name)
  | _ => none

theorem layer?_of_object? {t o : Tree} (h : t.object? = some o) :
    ∃ l, t.layer? = some l ∧ (∀ args, l ≠ .call args) ∧ t = l.onto t.isLink o ∧ ∀ u link, t.onObject u link = l.onto link u := by
  unfold object? at h
  split at h
  · obtain rfl := Option.some.inj h
    exact ⟨.member _, rfl, by simp, rfl, fun _ _ => rfl⟩
  · obtain rfl := Option.some.inj h
    exact ⟨.index _, rfl, by simp, rfl, fun _ _ => rfl⟩
  · obtain rfl := Option.some.inj h
    exact ⟨.privateMember _, rfl, by simp, rfl, fun _ _ => rfl⟩
  · exact absurd h (by simp)

/-- The links that accesses become, from the innermost outwards. -/
def links (accesses : List Tree) : List (Layer × Bool) := (accesses.filterMap layer?).map (·, true)

theorem links_cons {a : Tree} {l : Layer} (h : a.layer? = some l) (as : List Tree) : links (a :: as) = (l, true) :: links as := by
  rw [links, List.filterMap_cons_some h, List.map_cons, links]

theorem foldl_linked {linked : String → Bool} {accesses : List (String × Tree)} (h : ∀ a ∈ accesses, linked a.1 = true)
    (t : Tree) : accesses.foldl (fun chain a => a.2.onObject chain (linked a.1)) t =
      (accesses.map (·.2)).foldl (fun chain a => a.onObject chain true) t := by
  induction accesses generalizing t with
  | nil => rfl
  | cons a as ih =>
    simp only [List.mem_cons, forall_eq_or_imp] at h
    rw [List.foldl_cons, List.map_cons, List.foldl_cons, h.1, ih h.2]

theorem foldl_onObject {accesses : List Tree} (h : ∀ a ∈ accesses, a.object?.isSome = true) (t : Tree) :
    accesses.foldl (fun chain a => a.onObject chain true) t = t.along (links accesses) := by
  induction accesses generalizing t with
  | nil => rfl
  | cons a as ih =>
    simp only [List.mem_cons, forall_eq_or_imp] at h
    obtain ⟨o, ho⟩ := Option.isSome_iff_exists.1 h.1
    obtain ⟨l, hl, -, -, hon⟩ := layer?_of_object? ho
    rw [List.foldl_cons, ih h.2, links_cons hl, along, hon]

end Tree

theorem NullCheck.isSome_object?_of_leads {cs : List NullCheck} {current last : String} (h : leads current cs = some last) :
    ∀ a ∈ accesses cs, a.object?.isSome = true := by
  induction cs generalizing current with
  | nil => exact fun a ha => absurd ha (by simp [accesses])
  | cons c cs ih =>
    obtain ⟨name, hnext, hrest⟩ := Option.bind_eq_some_iff.1 h
    rcases next?_cases hnext with ⟨hop, -⟩ | ⟨access, hop, ho⟩
    · rw [accesses_cons_reference hop]
      exact ih hrest
    · rw [accesses_cons_assign hop]
      simp only [List.mem_cons, forall_eq_or_imp]
      exact ⟨by rw [ho]; rfl, ih hrest⟩

/-- The accesses that a survey has followed become links, and the last one too. -/
theorem Survey.Follows.foldl_climbed {s : Survey} {root last : String} (h : s.Follows root last) {no : Tree}
    (haccesses : ∀ a ∈ s.bindings.map (·.access), a.object?.isSome = true) (hno : no.object?.isSome = true) :
    (s.bindings.map (fun b => (b.parent, b.access)) ++ [(last, no)]).foldl
        (fun chain a => a.2.onObject chain (s.checked.contains a.1)) (.reference root) =
      (Tree.reference root).along (links (s.bindings.map (·.access) ++ [no])) := by
  have hlinked : ∀ a ∈ s.bindings.map (fun b => (b.parent, b.access)) ++ [(last, no)], s.checked.contains a.1 = true := by
    intro a ha
    simp only [List.mem_append, List.mem_map, List.mem_singleton] at ha
    rcases ha with ⟨b, hb, rfl⟩ | rfl
    · exact h.parents b hb
    · exact h.checked
  have hmap : (s.bindings.map (fun b => (b.parent, b.access)) ++ [(last, no)]).map (·.2) = s.bindings.map (·.access) ++ [no] := by
    rw [List.map_append, List.map_map]
    rfl
  rw [foldl_linked hlinked, hmap, foldl_onObject]
  intro a ha
  rcases List.mem_append.1 ha with ha | ha
  · exact haccesses a ha
  · rw [List.mem_singleton.1 ha]
    exact hno

/-- The links of a row begin with one on a member access. -/
theorem NullCheck.exists_links {cs : List NullCheck} {no : Tree} (h : ∀ a ∈ accesses cs, a.object?.isSome = true)
    (hno : no.object?.isSome = true) :
    ∃ l ls, links (accesses cs ++ [no]) = (l, true) :: ls ∧ ∀ args, l ≠ .call args := by
  have hhead : ∀ a ∈ accesses cs ++ [no], a.object?.isSome = true := by
    intro a ha
    simp only [List.mem_append, List.mem_singleton] at ha
    rcases ha with ha | rfl
    · exact h a ha
    · exact hno
  cases hrow : accesses cs ++ [no] with
  | nil => exact absurd hrow (by simp)
  | cons a as =>
    obtain ⟨o, ho⟩ := Option.isSome_iff_exists.1 (hhead a (by rw [hrow]; simp))
    obtain ⟨l, hl, hcall, -⟩ := layer?_of_object? ho
    exact ⟨l, _, links_cons hl as, hcall⟩

/-- All guards of a row become links of its chain, and their temporaries are consumed. -/
theorem Tree.guardedChain_row {test yes no : Tree} {r : Replacement} (h : (Tree.conditional test yes no).guardedChain = some r)
    {c : NullCheck} {cs : List NullCheck} {root last : String} (hcs : test.checks = c :: cs)
    (hloose : ∀ c ∈ test.checks, c.strict = false) (hop : c.operand = .reference root)
    (hleads : NullCheck.leads root cs = some last) (hno : no.object? = some (.reference last)) :
    yes.isUndefined = true ∧ (∀ g ∈ test.alternatives, ∃ c, NullCheck.of? g = some c ∧ c.negated = false) ∧
      r.expr = ((Tree.reference root).along (links (NullCheck.accesses cs ++ [no]))).closed ∧
      r.consumed = NullCheck.temporaries cs := by
  have hlinked : no.object?.isSome = true := by rw [hno]; rfl
  obtain ⟨hyes, s, root', last', climbed, hs, hroot, hlast, hclimb, rfl⟩ := guardedChain_eq_some.1 h
  obtain rfl : last = last' := by simpa [hno] using hlast
  refine ⟨hyes, Survey.of?_of_foldlM hs, ?_⟩
  -- The first guard makes the root known, and the rest of the row is followed from there.
  cases hgs : test.alternatives with
  | nil => exact absurd hcs (by simp [checks, hgs])
  | cons g gs =>
    obtain ⟨k, hk, -⟩ := Survey.of?_of_foldlM hs g (by simp [hgs])
    rw [checks, hgs, List.filterMap_cons_some hk] at hcs hloose
    obtain ⟨rfl, rfl⟩ := List.cons.inj hcs
    simp only [List.mem_cons, forall_eq_or_imp] at hloose
    rw [hgs, List.foldlM_cons] at hs
    obtain ⟨s₁, hg, hs⟩ := Option.bind_eq_some_iff.1 hs
    have hfirst : s₁ = { root := some root, bindings := [], checked := [root] } := by
      obtain ⟨c, hc, -, ⟨name, hname, hg⟩ | ⟨hnone, -⟩⟩ := Survey.addGuard_eq_some hg
      · obtain rfl : k = c := Option.some.inj (hk.symm.trans hc)
        obtain rfl : root = name := by simpa using hop.symm.trans hname
        simpa [Survey.addVariable, eq_comm] using hg
      · rw [← Option.some.inj (hk.symm.trans hc), hop] at hnone
        exact absurd hnone (by simp [asVariable?])
    have hstart : s₁.Follows root root := by
      rw [hfirst]
      exact ⟨rfl, by simp [Survey.climb], by simp, by simp⟩
    obtain ⟨hend, haccesses, hnames⟩ := Survey.follows_foldlM hstart hloose.2 hleads hs
    obtain rfl := Option.some.inj (hend.rooted.symm.trans hroot)
    obtain rfl := Option.some.inj (hend.climbs.symm.trans hclimb)
    rw [hfirst] at haccesses hnames
    refine ⟨?_, hnames⟩
    have haccesses : s.bindings.map (·.access) = NullCheck.accesses (gs.filterMap NullCheck.of?) := haccesses
    show Tree.closed _ = _
    rw [hend.foldl_climbed (haccesses ▸ NullCheck.isSome_object?_of_leads hleads) hlinked, haccesses]

/-! ## An expanded `??` -/

/-- Both halves of a strict pair are checks, and the first one counts; else the test is a loose check. -/
theorem Tree.notNullChecks_eq_some {test : Tree} {first : NullCheck} {second : Option NullCheck}
    (h : test.notNullChecks = some (first, second)) :
    (∃ p q b, test = .logical .and p q ∧ NullCheck.of? p = some first ∧ NullCheck.of? q = some b ∧ first.isStrictPair b = true ∧
      second = some b) ∨ NullCheck.of? test = some first ∧ first.negated = true ∧ first.strict = false ∧ second = none := by
  unfold notNullChecks at h
  split at h
  · simp only [Option.bind_eq_bind, Option.bind_eq_some_iff] at h
    obtain ⟨a, ha, b, hb, h⟩ := h
    split at h
    · rename_i hpair
      obtain ⟨rfl, rfl⟩ := Prod.mk.inj (Option.some.inj h)
      exact .inl ⟨_, _, b, rfl, ha, hb, hpair, rfl⟩
    · exact absurd h (by simp)
  · simp only [Option.bind_eq_bind, Option.bind_eq_some_iff] at h
    obtain ⟨c, hc, h⟩ := h
    split at h
    · rename_i hn
      obtain ⟨rfl, rfl⟩ := Prod.mk.inj (Option.some.inj h)
      rw [Bool.and_eq_true, Bool.not_eq_true'] at hn
      exact .inr ⟨hc, hn.1, hn.2, rfl⟩
    · exact absurd h (by simp)

theorem Tree.of?_of_notNullChecks {test : Tree} {first : NullCheck} {second : Option NullCheck}
    (h : test.notNullChecks = some (first, second)) : ∃ t, NullCheck.of? t = some first := by
  obtain ⟨p, _, _, -, hp, -⟩ | ⟨hc, -⟩ := notNullChecks_eq_some h
  · exact ⟨p, hp⟩
  · exact ⟨test, hc⟩

theorem Tree.assignedGuard_eq_some {test yes value : Tree} {name : String} (h : assignedGuard test yes = some (name, value)) :
    yes = .reference name ∧ ∃ first second, test.notNullChecks = some (first, second) ∧
      first.operand = .assign .plain (.reference name) value ∧ NullCheck.agrees name second = true := by
  unfold assignedGuard at h
  simp only [Option.bind_eq_bind, Option.bind_eq_some_iff] at h
  obtain ⟨n, hn, ⟨first, second⟩, hchecks, ⟨assigned, v⟩, ha, h⟩ := h
  split at h
  · rename_i hboth
    rw [Bool.and_eq_true, beq_iff_eq] at hboth
    obtain ⟨rfl, rfl⟩ := Prod.mk.inj (Option.some.inj h)
    obtain ⟨rfl, hagrees⟩ := hboth
    exact ⟨eq_of_asVariable? hn, first, second, hchecks, eq_of_assignment? ha, hagrees⟩
  · exact absurd h (by simp)

theorem Tree.isVariableGuard_eq_true {test yes : Tree} (h : isVariableGuard test yes = true) : ∃ name first second,
    yes = .reference name ∧ test.notNullChecks = some (first, second) ∧ first.operand = .reference name ∧
      NullCheck.agrees name second = true := by
  unfold isVariableGuard at h
  split at h
  · rename_i name first second hn hchecks
    rw [Bool.and_eq_true, beq_iff_eq] at h
    exact ⟨name, first, second, eq_of_asVariable? hn, hchecks, eq_of_asVariable? h.1, h.2⟩
  · exact absurd h (by simp)

/-- What is taken for an expanded `??`: a check of a value that is assigned to the variable, which may be taken for a chain, or a
check of the variable itself. -/
theorem Tree.coalesce_eq_some {t : Tree} {r : Replacement} (h : t.coalesce = some r) : ∃ test fallback name first second,
    t = .conditional test (.reference name) fallback ∧ test.notNullChecks = some (first, second) ∧
      NullCheck.agrees name second = true ∧
      ((∃ value left, assignedGuard test (.reference name) = some (name, value) ∧
          first.operand = .assign .plain (.reference name) value ∧ value.guardedChain.getD ⟨value, []⟩ = left ∧
          (∀ n ∈ name :: left.consumed, fallback.uses n = 0) ∧
          r = ⟨.logical .coalesce left.expr fallback, name :: left.consumed⟩) ∨
        (first.operand = .reference name ∧ r = ⟨.logical .coalesce (.reference name) fallback, []⟩)) := by
  unfold coalesce at h
  split at h
  · rename_i test yes fallback
    split at h
    · rename_i name value hguard
      simp only at h
      split at h
      · exact absurd h (by simp)
      · rename_i hfallback
        obtain ⟨rfl, first, second, hchecks, hop, hagrees⟩ := assignedGuard_eq_some hguard
        refine ⟨test, fallback, name, first, second, rfl, hchecks, hagrees, .inl ⟨value, _, hguard, hop, rfl, fun n hn => ?_, ?_⟩⟩
        · simp only [List.any_eq_true, decide_eq_true_eq, not_exists, not_and, not_lt] at hfallback
          exact Nat.le_zero.1 (hfallback n hn)
        · exact (Option.some.inj h).symm
    · split at h
      · rename_i hguard
        obtain ⟨name, first, second, rfl, hchecks, hop, hagrees⟩ := isVariableGuard_eq_true hguard
        exact ⟨test, fallback, name, first, second, rfl, hchecks, hagrees, .inr ⟨hop, (Option.some.inj h).symm⟩⟩
      · exact absurd h (by simp)
  · exact absurd h (by simp)

end Chainlift

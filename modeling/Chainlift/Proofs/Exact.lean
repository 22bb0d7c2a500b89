import Chainlift.Proofs.Branches

/-!
# Strict reconstruction is exact

With strict leaves, what is reconstructed from the guarded chains of transpilers does the same as the expression it stands for:
the same value or exception, the same reads and calls with the same receivers and arguments, and the same variables, but for
the temporaries that it reports as consumed (`Tree.reconstruct_exact`).

No call with an explicit receiver may stand on the spine of the guarded value, nor on that of a guarded target. The second
condition cannot be left out: a link that is put on a method call makes its callee a link too, so that a missing method goes
unnoticed (`Tree.reconstruct_exact_false`).
-/

namespace Chainlift

open Tree Eval

/-- A candidate as transpilers write it: each guard checks `this`, a variable that is not assigned, or the one assignment to a
temporary, and there is no call with an explicit receiver on the spine of the guarded value. -/
structure Tree.IsGuardedChain (t : Tree) : Prop where
  plain : Plain false t
  operands : ∀ c ∈ t.decision.guards, c.operand = .this ∨
    (∃ name, c.operand = .reference name ∧ t.assignmentCount name = 0) ∨
    ∃ name v, c.operand = .assign .plain (.reference name) v ∧ t.assignmentCount name = 1
  value : t.decision.guarded.isDirect = true

namespace Tree.IsGuardedChain

variable {t : Tree} (h : t.IsGuardedChain)

include h

theorem isSimple {c : NullCheck} (hc : c ∈ t.decision.guards) : c.IsSimple := by
  obtain ⟨condition, hcheck, hof⟩ := (Decision.consists_decision h.plain).of_mem_guardsFrom hc
  obtain ⟨op, a, b, -, -, hcheckable⟩ := NullCheck.operand_mem hof
  rcases h.operands c hc with hop | ⟨name, hop, -⟩ | ⟨name, v, hop, -⟩
  · exact .this hop
  · refine .variable name hop ?_
    rintro rfl
    rw [hop] at hcheckable
    exact absurd hcheckable (by simp [NullCheck.isCheckable])
  · have hp := hcheck c hof
    rw [hop] at hp
    cases hp with
    | operand hp => exact absurd hp.assignment?_eq (by simp [assignment?])
    | assign hn hv => exact .assign name v hop hn hv

/-- The expression assigns a token as often as its guard does. -/
theorem assignmentCount_token {c : NullCheck} (hc : c ∈ t.decision.guards) {name : String} (hn : c.token = .reference name) :
    t.assignmentCount name = c.temporary?.toList.length := by
  rcases h.operands c hc with hop | ⟨n, hop, hcount⟩ | ⟨n, v, hop, hcount⟩
  · exact absurd hn (by simp [NullCheck.token, hop, assignment?])
  · obtain rfl : n = name := by simpa [NullCheck.token, hop, assignment?] using hn
    simpa [NullCheck.temporary?, hop, assignment?] using hcount
  · obtain rfl : n = name := by simpa [NullCheck.token, hop, assignment?] using hn
    simpa [NullCheck.temporary?, hop, assignment?] using hcount

theorem yields (o : Options) : (Acceptance.ofDecision t.decision o).yields = .undefined := by
  have hp : Plain false t.decision.lastLeaf.1 := (Decision.consists_decision h.plain).guarded
  simp only [Acceptance.ofDecision]
  split
  · rename_i heq
    rw [heq] at hp
    cases hp
  · rfl

end Tree.IsGuardedChain

namespace Machine

variable {W : Type} {M : Machine W}

theorem close_runAlternatives {names : List String} {x y : Eval W Value} (h : Close names x y) (conditions : List Tree) :
    Close names (M.runAlternatives conditions x) (M.runAlternatives conditions y) := by
  induction conditions with
  | nil => exact h
  | cons c cs ih =>
    refine Close.bind _ fun v => ?_
    split
    · exact close_refl _ _
    · exact ih

end Machine

/-- With strict leaves, what is made of a guarded chain does the same as the chain, whatever reading, calling and comparing do,
as long as they ignore the variables that the chain assigns: it has the same outcome and the same trace, and leaves the same
variables behind, except for those consumed. -/
theorem Tree.reconstruct_exact {W : Type} (M : Machine W) {t : Tree} {o : Options} {r : Replacement}
    (ho : o.looseLeaves = false) (ht : t.IsGuardedChain) (htargets : ∀ c ∈ t.decision.guards, c.target.isDirect = true)
    (hM : ∀ name ∈ t.assigned, M.Ignores name) (hr : t.reconstruct o = some r) (s : State W) :
    (M.eval t s).1 = (M.eval r.expr s).1 ∧ (M.eval t s).2.Agree r.consumed (M.eval r.expr s).2 := by
  obtain ⟨-, c, x, hc, -, hx, hm, rfl⟩ := reconstruct_eq hr
  have hconsists := Decision.consists_decision ht.plain
  have hg : t.decision.guards ≠ [] := by
    intro hnil
    rw [hnil] at hx
    rw [← Option.some.inj hx] at hm
    exact absurd hm (by simp [Constructed.ofLeaf])
  have hweight := fun name => Decision.weight_decision name t
  have hpaired : t.decision.IsPaired none := by
    refine Decision.isPaired hconsists (by simp) fun g hmem => ⟨(ht.isSimple hmem).isName_token, fun n hn => ?_⟩
    rw [← ht.assignmentCount_token hmem hn]
    exact hweight n
  have hrun := M.eval_eq_run ho (ht.yields o) hc hx hg hpaired fun g hmem => M.settles_isSimple (ht.isSimple hmem)
  have hassigns : ∀ name, NullCheck.assigns t.decision.guards t.decision.guarded name ≤ t.assignmentCount name := by
    intro name
    exact (Decision.assigns_le_weight name t.decision false (Decision.lastLeaf_decision hc hg hx)).trans (hweight name)
  obtain ⟨-, -, hclose⟩ := Constructed.close_ofGuards (M := M) hx hconsists.guarded ht.value (fun g hmem => ht.isSimple hmem)
    htargets (fun g hmem n hn => by rw [← ht.assignmentCount_token hmem hn]; exact hassigns n) fun n hn => hM n (by
      have := hassigns n
      unfold Tree.assigned
      exact List.mem_eraseDups.2 (List.count_pos_iff.1 (by unfold Tree.assignmentCount at this; omega)))
  rw [hrun]
  have hexpr : M.eval (x.withAlternatives t.decision.alternatives).expr =
      M.runAlternatives t.decision.alternatives (M.eval x.expr) := M.eval_alternatives _ _
  rw [hexpr]
  exact Machine.close_runAlternatives hclose _ s

/-! ## Examples -/

namespace ExactWitness

def object : Tree := .reference "a"

/-- `(t = a.b) === null || t === void 0 || (u = t.c) == null ? void 0 : u.d(t)` -/
def nested : Tree :=
  .conditional
    (.logical .or
      (.logical .or
        (.binary .strictEq (.assign .plain (.reference "t") (.member object "b" false)) .null)
        (.binary .strictEq (.reference "t") (.unary .void (.number .zero))))
      (.binary .eq (.assign .plain (.reference "u") (.member (.reference "t") "c" false)) .null))
    (.unary .void (.number .zero))
    (.call (.member (.reference "u") "d" false) [.reference "t"] false)

/-- `(t = a.b)?.c?.d(t)` -/
def linked : Tree :=
  .chain (.call (.member (.member (.assign .plain (.reference "t") (.member object "b" false)) "c" true) "d" true)
    [.reference "t"] false)

theorem plain_zero : Plain false (.unary .void (.number .zero)) := .void rfl (.literal rfl)

theorem isGuardedChain_nested : nested.IsGuardedChain where
  plain := by
    refine .conditional (.logical .or (.logical .or ?_ ?_) ?_) plain_zero (.call _ (.member _ _ (.reference _)) ?_)
    · exact .compare rfl (.assign (by decide) (.member _ _ (.reference _))) (.operand (.literal rfl))
    · exact .compare rfl (.operand (.reference _)) (.operand plain_zero)
    · exact .compare rfl (.assign (by decide) (.member _ _ (.reference _))) (.operand (.literal rfl))
    · simpa using Plain.reference "t"
  operands := by
    have hg : nested.decision.guards.map (·.operand) =
      [.assign .plain (.reference "t") (.member object "b" false),
        .assign .plain (.reference "u") (.member (.reference "t") "c" false)] := rfl
    intro c hc
    have hc := List.mem_map_of_mem (f := (·.operand)) hc
    rw [hg] at hc
    refine .inr (.inr ?_)
    simp only [List.mem_cons, List.not_mem_nil, or_false] at hc
    rcases hc with hc | hc
    · exact ⟨"t", _, hc, rfl⟩
    · exact ⟨"u", _, hc, rfl⟩
  value := rfl

theorem isDirect_nested : ∀ c ∈ nested.decision.guards, c.target.isDirect = true := by
  have hg : nested.decision.guards.map (·.target.isDirect) = [true, true] := rfl
  intro c hc
  have hc := List.mem_map_of_mem (f := fun c : NullCheck => c.target.isDirect) hc
  rw [hg] at hc
  simpa using hc

/-- `a == null || (t = a.m.call(a, 0)) == null ? void 0 : t.b` -/
def unnoticed : Tree :=
  .conditional
    (.logical .or (.binary .eq object .null)
      (.binary .eq
        (.assign .plain (.reference "t") (.call (.member (.member object "m" false) "call" false) [object, .number .zero] false))
        .null))
    (.unary .void (.number .zero))
    (.member (.reference "t") "b" false)

/-- `a?.m?.(0)?.b` -/
def overlooked : Tree := .chain (.member (.call (.member object "m" true) [.number .zero] true) "b" true)

theorem isGuardedChain_unnoticed : unnoticed.IsGuardedChain where
  plain := by
    have hcall : Plain false (.call (.member (.member object "m" false) "call" false) [object, .number .zero] false) := by
      refine .call _ (.member _ _ (.member _ _ (.reference _))) ?_
      simpa using ⟨Plain.reference "a", .literal rfl⟩
    refine .conditional (.logical .or ?_ ?_) plain_zero (.member _ _ (.reference _))
    · exact .compare rfl (.operand (.reference _)) (.operand (.literal rfl))
    · exact .compare rfl (.assign (by decide) hcall) (.operand (.literal rfl))
  operands := by
    have hg : unnoticed.decision.guards.map (·.operand) = [object, .assign .plain (.reference "t")
      (.call (.member (.member object "m" false) "call" false) [object, .number .zero] false)] := rfl
    intro c hc
    have hc := List.mem_map_of_mem (f := (·.operand)) hc
    rw [hg] at hc
    simp only [List.mem_cons, List.not_mem_nil, or_false] at hc
    rcases hc with hc | hc
    · exact .inr (.inl ⟨"a", hc, rfl⟩)
    · exact .inr (.inr ⟨"t", _, hc, rfl⟩)
  value := rfl

end ExactWitness

open ExactWitness

/-- A chain with a strict pair, and with a temporary that is read again. -/
theorem Tree.reconstruct_exact_nested :
    nested.reconstruct { looseLeaves := false } = some ⟨linked, ["u", "t"]⟩ ∧ ∀ s,
      ((Machine.constant (.other 0)).eval nested s).1 = ((Machine.constant (.other 0)).eval linked s).1 ∧
      ((Machine.constant (.other 0)).eval nested s).2.Agree ["u", "t"] ((Machine.constant (.other 0)).eval linked s).2 :=
  ⟨rfl, reconstruct_exact _ (o := { looseLeaves := false }) rfl isGuardedChain_nested isDirect_nested
    (fun _ _ => Machine.constant_ignores _ _) (r := ⟨linked, ["u", "t"]⟩) rfl⟩

/-- Exactness needs the condition on the guarded targets: where `a.m` is missing, `a.m.call` throws and the link on the method does
not. -/
theorem Tree.reconstruct_exact_false : ¬ ∀ (t : Tree) (o : Options) (r : Replacement), o.looseLeaves = false →
    t.IsGuardedChain → t.reconstruct o = some r → ∀ (W : Type) (M : Machine W), (∀ name ∈ t.assigned, M.Ignores name) →
    ∀ s, (M.eval t s).1 = (M.eval r.expr s).1 ∧ (M.eval t s).2.Agree r.consumed (M.eval r.expr s).2 := by
  intro h
  have hr : unnoticed.reconstruct { looseLeaves := false } = some ⟨overlooked, ["t"]⟩ := rfl
  have he := (h _ _ _ rfl isGuardedChain_unnoticed hr Unit (.constant .undefined)
    (fun _ _ => Machine.constant_ignores _ _) .initial).1
  have hthrow : ((Machine.constant .undefined).eval unnoticed .initial).1 = .error (.other 1) := rfl
  have hvalue : ((Machine.constant .undefined).eval overlooked .initial).1 = .ok .undefined := rfl
  rw [hthrow, hvalue] at he
  exact absurd he (by simp)

end Chainlift

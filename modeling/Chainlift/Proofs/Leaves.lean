import Chainlift.Guard.Construct

/-!
# Leaves and options

The options say which values a guarded branch may yield. They decide whether an expression is reconstructed, and never what
comes of it: options that accept more leaves reconstruct the same expressions in the same way, and others besides
(`Tree.reconstruct_mono`). Strict leaves are accepted under all options; `null` and the operand at which `&&` stops need loose
leaves; `false` needs an option of its own on top of them, which means nothing alone (`Tree.reconstruct_looser`).
-/

namespace Chainlift

/-- Every leaf that the first options accept is accepted by the second ones too. -/
structure Options.LeavesWithin (o o' : Options) : Prop where
  loose : o.looseLeaves = true → o'.looseLeaves = true
  falseToo : o.looseLeaves = true → o.falseLeaves = true → o'.falseLeaves = true

namespace Options.LeavesWithin

/-- Strict leaves are accepted by all options. -/
theorem of_strict {o : Options} (h : o.looseLeaves = false) (o' : Options) : o.LeavesWithin o' :=
  ⟨fun hloose => absurd (h.symm.trans hloose) (by simp), fun hloose => absurd (h.symm.trans hloose) (by simp)⟩

/-- Without `false`, loose leaves are accepted by all options with loose leaves. -/
theorem of_loose {o o' : Options} (h : o.falseLeaves = false) (h' : o'.looseLeaves = true) : o.LeavesWithin o' :=
  ⟨fun _ => h', fun _ hfalse => absurd (h.symm.trans hfalse) (by simp)⟩

end Options.LeavesWithin

namespace Acceptance

/-- Everything that the first acceptance accepts is accepted by the second one too. -/
def Within (a a' : Acceptance) : Prop := ∀ d, a.accepts d = true → a'.accepts d = true

/-- What a chain that ends early yields has to be the same. -/
theorem within_of {a a' : Acceptance} (hyields : a.yields = a'.yields) (hloose : a.loose = true → a'.loose = true)
    (hfalse : a.loose = true → a.falseLeaves = true → a'.falseLeaves = true) : a.Within a' := by
  intro yes hyes
  cases yes with
  | test => exact hyes
  | leaf value stop =>
    unfold accepts at hyes ⊢
    rw [← hyields]
    cases hy : a.yields with
    | true =>
      rw [hy] at hyes
      rcases stop with _ | _ | _ <;> exact hyes
    | undefined =>
      rw [hy] at hyes
      cases stop with
      | some stop =>
        cases stop with
        | falsy => exact hloose hyes
        | truthy => exact hyes
      | none =>
        simp only [Bool.or_eq_true, Bool.and_eq_true] at hyes ⊢
        refine hyes.imp_right fun ⟨hl, hvalue⟩ => ⟨hloose hl, hvalue.imp_right fun ⟨hf, hvalue⟩ => ?_⟩
        exact ⟨hfalse hl hf, hvalue⟩

/-- For one decision the options expect the same of a chain that ends early. -/
theorem within_ofDecision {o o' : Options} (h : o.LeavesWithin o') (d : Decision) :
    (ofDecision d o).Within (ofDecision d o') :=
  within_of rfl h.loose h.falseToo

end Acceptance

/-- What is constructed with less acceptance is constructed with more, too. No step of the walk turns another way when a branch is
accepted: where one is not, there is no result. -/
theorem Decision.construct_mono {a a' : Acceptance} (h : a.Within a') {d : Decision} {awaited : Option Tree} {c : Constructed}
    (hc : d.construct a awaited = some c) : d.construct a' awaited = some c := by
  fun_induction construct a d awaited generalizing c with
  | case1 value stop => exact hc
  | case2 => exact absurd hc (by simp)
  | case3 condition yes no token ih =>
    obtain ⟨k, hk, hc⟩ := Option.bind_eq_some_iff.1 hc
    split at hc
    · rename_i hboth
      rw [Bool.and_eq_true] at hboth
      rw [construct, hk]
      simp only [Option.bind_eq_bind, Option.bind_some, hboth.1, h yes hboth.2, Bool.and_self, if_true]
      exact ih hc
    · exact absurd hc (by simp)
  | case4 condition yes no k hk hyes ih =>
    obtain ⟨rest, hrest, hc⟩ := Option.bind_eq_some_iff.1 hc
    rw [construct, hk]
    simp only [h yes hyes, if_true]
    exact Option.bind_eq_some_iff.2 ⟨rest, ih hrest, hc⟩
  | case5 => exact absurd hc (by simp)
  | case6 condition yes no hk hyes ih =>
    obtain ⟨rest, hrest, hc⟩ := Option.bind_eq_some_iff.1 hc
    rw [construct, hk]
    simp only [hyes, if_true]
    exact Option.bind_eq_some_iff.2 ⟨rest, ih hrest, hc⟩
  | case7 => exact absurd hc (by simp)

namespace Tree

/-- Options that accept more leaves reconstruct whatever the others do, in the same way. -/
theorem reconstruct_mono {o o' : Options} (h : o.LeavesWithin o') {t : Tree} {r : Replacement}
    (hr : t.reconstruct o = some r) : t.reconstruct o' = some r := by
  obtain ⟨d, hd, hr⟩ := Option.bind_eq_some_iff.1 hr
  obtain ⟨c, hc, hr⟩ := Option.bind_eq_some_iff.1 hr
  refine Option.bind_eq_some_iff.2 ⟨d, hd, Option.bind_eq_some_iff.2 ⟨c, ?_, hr⟩⟩
  exact Decision.construct_mono (Acceptance.within_ofDecision h d.oriented) hc

/-- Options that accept the same leaves reconstruct the same expressions. -/
theorem reconstruct_congr {o o' : Options} (h : o.LeavesWithin o') (h' : o'.LeavesWithin o) (t : Tree) :
    t.reconstruct o = t.reconstruct o' :=
  Option.ext fun _ => ⟨reconstruct_mono h, reconstruct_mono h'⟩

/-- Accepting more leaves never changes a result already found. What is reconstructed with strict leaves is reconstructed in the
same way with loose ones; what is reconstructed with loose leaves is reconstructed in the same way if `false` is accepted too; and
with strict leaves it does not matter whether `false` would be. -/
theorem reconstruct_looser (t : Tree) (o : Options) :
    (∀ r falseToo, t.reconstruct { o with looseLeaves := false } = some r →
      t.reconstruct { o with looseLeaves := true, falseLeaves := falseToo } = some r) ∧
    (∀ r, t.reconstruct { o with looseLeaves := true, falseLeaves := false } = some r →
      t.reconstruct { o with looseLeaves := true, falseLeaves := true } = some r) ∧
    t.reconstruct { o with looseLeaves := false, falseLeaves := false } =
      t.reconstruct { o with looseLeaves := false, falseLeaves := true } :=
  ⟨fun _ _ => reconstruct_mono (.of_strict rfl _), fun _ => reconstruct_mono (.of_loose rfl rfl),
    reconstruct_congr (.of_strict rfl _) (.of_strict rfl _) t⟩

namespace LeavesWitness

/-- `a == null ? leaf : a.b` -/
def guarded (leaf : Tree) : Tree :=
  .conditional (.binary .eq (.reference "a") .null) leaf (.member (.reference "a") "b" false)

/-- `a?.b` -/
def linked : Replacement := ⟨.chain (.member (.reference "a") "b" true), []⟩

end LeavesWitness

open LeavesWitness in
/-- `void 0` is accepted by all options, `null` by loose ones, `false` only where it is asked for. -/
theorem reconstruct_looser_leaf :
    (guarded (.unary .void (.number .zero))).reconstruct { looseLeaves := false } = some linked ∧
    (guarded (.unary .void (.number .zero))).reconstruct { looseLeaves := true, falseLeaves := false } = some linked ∧
    (guarded .null).reconstruct { looseLeaves := false } = none ∧
    (guarded .null).reconstruct { looseLeaves := true, falseLeaves := false } = some linked ∧
    (guarded .null).reconstruct { looseLeaves := true, falseLeaves := true } = some linked ∧
    (guarded (.bool false)).reconstruct { looseLeaves := true, falseLeaves := false } = none ∧
    (guarded (.bool false)).reconstruct { looseLeaves := true, falseLeaves := true } = some linked :=
  ⟨rfl, (reconstruct_looser _ {}).1 _ _ rfl, rfl, rfl, (reconstruct_looser _ {}).2.1 _ rfl, rfl, rfl⟩

end Tree

end Chainlift

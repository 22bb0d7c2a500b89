import Chainlift.Proofs.Harmless
import Chainlift.Proofs.Stops

/-!
# Links behind values that are there

A link on a spine is put behind an expression with the text of the token. If the token is a harmless access, a copy of it stands
there before and after (`Tree.Relinked`, `Substitution.Searched.relinked`), and where it has a value the chain does not end at the
link: nothing that is evaluated changes (`Host.eval_rewrite`). Calls by `call`, `apply` and `bind` are excepted, because a link
there takes the place of the method.
-/

namespace Chainlift

open Tree

/-! ## Links on the spine -/

namespace Tree

/-- There is no call by `call`, `apply` or `bind` on the spine, where that goes on below unary operators and in what is assigned to
a variable. -/
def callsDirectly : Tree → Bool
  | .call callee _ _ => !callee.uncommented.form.isMethod && callee.callsDirectly
  | .member t _ _ | .privateMember t _ _ | .index t _ _ | .chain t | .unary _ t => t.callsDirectly
  | .assign .plain (.reference _) t => t.callsDirectly
  | _ => true

theorem isMethodAccess_of_form {t : Tree} (h : t.uncommented.form.isMethod = false) : t.isMethodAccess = false := by
  unfold isMethodAccess
  split
  · exact h
  · rfl

theorem callsDirectly_opened (t : Tree) : t.opened.callsDirectly = t.callsDirectly := by
  unfold opened
  split <;> rfl

theorem callsDirectly_closed (t : Tree) : t.closed.callsDirectly = t.callsDirectly := by
  unfold closed
  split <;> rfl

theorem eq_number_of_isZero {t : Tree} (h : t.isZero = true) : ∃ z, t = .number z := by
  unfold isZero at h
  split at h
  · exact ⟨_, rfl⟩
  · exact absurd h (by simp)

/-- What becomes of an expression when a link is put behind an expression on its spine, which is no method with an explicit
receiver: that expression stays where it is. -/
inductive Relinked (k : Tree) : Tree → Tree → Prop
  | kept (t : Tree) : Relinked k t t
  | found (l : Layer) (link : Bool) {t : Tree} (h : t.same k = true) : Relinked k (l.onto link t) (l.onto true k)
  | unbound (args : List Tree) (link : Bool) {zero t : Tree} (hz : zero.isZero = true) (h : t.same k = true) :
    Relinked k (.call (.sequence [zero, t]) args link) (.call k.unbound args true)
  | above (l : Layer) (link : Bool) {t u : Tree} (h : Relinked k t u) : Relinked k (l.onto link t) (l.onto link u)
  | under (op : UnaryOp) (hop : op = .delete ∨ op = .void) {t u : Tree} (h : Relinked k t.opened u) :
    Relinked k (.unary op t) (.unary op u.closed)
  | target (op : AssignOp) (value : Tree) {t : Tree} (hk : k.isAccess = true) (h : t.same k = true) :
    Relinked k (.assign op t value) (.assign op k value)

theorem isWhole_assign {k : Tree} (hk : k.isAccess = true) (op : AssignOp) (value : Tree) :
    (Tree.assign op k value).isWhole = false := by
  have hform : k.uncommented.form.isTarget = true := by
    unfold isAccess object? at hk
    split at hk <;> simp_all [uncommented, form, Form.isTarget]
  cases op <;> simp [isWhole, hform, Form.isWhole]

end Tree

namespace Substitution

variable {k : Tree}

/-- The target is the token, an access: what is put in its place is itself. -/
theorem under_self (hk : k.isAccess = true) (l : Layer) : (Substitution.mk k (some k)).under l = k := by
  have hopened : k.opened = k := by
    unfold Tree.opened
    split
    · rfl
    · exact absurd hk (by simp [Tree.isAccess, Tree.object?])
    · rfl
  have htoken : k.same k = true := by simp [Tree.same]
  cases l with
  | call args => simp [under, unboundCallee, replacement, isToken, htoken]
  | _ => exact hopened

/-- Where calls are direct, the search puts a link and changes nothing else. -/
theorem Searched.relinked (hk : k.isAccess = true) {t : Tree} {r : Rewritten} (h : Searched ⟨k, some k⟩ t r)
    (hd : t.callsDirectly = true) : Relinked k t r.expr := by
  induction h with
  | @known link callee u args h =>
    simp only [callsDirectly, Bool.and_eq_true, Bool.not_eq_true'] at hd
    rcases knownCall_of_isMethodAccess (isMethodAccess_of_form hd.1) args with hc | ⟨zero, inner, rfl, hz, ht, hc⟩
    · exact absurd (h.symm.trans hc) (by simp)
    · obtain rfl := Outcome.rewritten.inj (h.symm.trans hc)
      exact .unbound args link hz ht
  | token l link ht =>
    rw [under_self hk]
    exact .found l link ht
  | above l link h ih =>
    refine .above l link (ih ?_)
    cases l <;> simp_all [Layer.onto, callsDirectly]
  | inside op hop h ih => exact .under op hop (ih (by rw [callsDirectly_opened]; exact hd))
  | @assigned op value t target ht htarget =>
    have hself : (Substitution.mk k (some k)).replacement.asTarget? = some k := by simp [replacement, Tree.asTarget?, hk]
    obtain rfl := Option.some.inj (hself.symm.trans htarget)
    rw [isTokenTarget, Bool.and_eq_true] at ht
    exact .target op value hk ht.2
  | kept => exact .kept _

end Substitution

/-! ## What a link changes -/

namespace Host

variable {W : Type} {H : Host W} {k : Tree} {s : Scene W}

/-- The expression has a value that is not missing. -/
def IsPresent (H : Host W) (k : Tree) (s : Scene W) : Prop := ∃ v s', H.eval k s = (.ok v, s') ∧ v.isNullish = false

/-- What is present is found again, as often as it is looked for. -/
theorem IsPresent.referent (hH : H.IsQuiet) (hk : k.isHarmless = true) (h : H.IsPresent k s) :
    ∃ p v, H.refer k s = (.ok (some p), s) ∧ H.get p s = (.ok v, s) ∧ v.isNullish = false := by
  obtain ⟨v, s', hv, hn⟩ := h
  have hquiet := hH.refer hk s
  rcases hr : H.refer k s with ⟨e | r, s₁⟩
  · rw [eval_eq_ended, ended, bind_assoc, Eval.bind_error hr] at hv
    cases hv
  · rw [hr] at hquiet
    obtain rfl : s₁ = s := hquiet
    rw [eval_eq_ended, ended, bind_assoc, Eval.bind_ok hr, pure_bind] at hv
    cases r with
    | none =>
      obtain ⟨hv, -⟩ := Prod.mk.inj hv
      obtain rfl : Value.undefined = v := Except.ok.inj hv
      exact absurd hn (by simp [Value.isNullish])
    | some p =>
      have hget := quiet_get (H := H) p s₁
      rw [Option.getD_some] at hv
      rw [hv] at hget
      exact ⟨p, v, rfl, by rw [hv, ← (hget : s' = s₁)], hn⟩

theorem fetch_some {p : Referent} {v : Value} (h : H.get p s = (.ok v, s)) : H.fetch (some p) s = (.ok (some v), s) := by
  rw [fetch, Eval.bind_ok h]
  rfl

/-- `(0, t)` has the value of `t`. -/
theorem refer_unbound {p : Referent} {v : Value} (hr : H.refer k s = (.ok (some p), s)) (hv : H.get p s = (.ok v, s))
    (hk : k.uncommented.form ≠ .spread) {zero : Tree} (hz : zero.isZero = true) :
    H.refer (.sequence [zero, k]) s = (.ok (some (.value v)), s) := by
  obtain ⟨z, rfl⟩ := eq_number_of_isZero hz
  have hvalue : H.valueOf (H.piece k) s = (.ok v, s) := by
    rw [valueOf, reach, bind_assoc, Eval.bind_ok (show (H.piece k).run s = _ from hr), Eval.bind_ok (fetch_some hv)]
    rfl
  have hzero : H.valueOf (H.piece (.number z)) = pure (.number z) := rfl
  have hform : ((H.piece k).form == some .spread) = false := by simpa [piece] using hk
  have hform' : ((H.piece (.number z)).form == some .spread) = false := rfl
  rw [H.refer_node rfl]
  simp only [List.map_cons, List.map_nil, perform, settle, valuesOf, expand, hzero, hform, hform', Bool.false_eq_true, if_false,
    pure_bind, bind_assoc]
  rw [Eval.bind_ok hvalue]
  rfl

theorem onto_present {v : Value} (hv : v.isNullish = false) (link : Bool) (go : Value → Run W (Option Referent)) :
    onto link go (some v) = go v := by
  simp [onto, hv]

/-- Putting a link behind an expression that has a value changes nothing. -/
theorem refer_relinked (hH : H.IsQuiet) (hk : k.isHarmless = true) (hs : H.IsPresent k s) {t u : Tree} (h : Relinked k t u) :
    H.refer u s = H.refer t s := by
  obtain ⟨p, v, hr, hv, hn⟩ := hs.referent hH hk
  induction h with
  | kept => rfl
  | found l link ht =>
    simp only [refer_onto, refer_same hk ht]
    rw [Eval.bind_ok hr, Eval.bind_ok hr, Eval.bind_ok (fetch_some hv), Eval.bind_ok (fetch_some hv), onto_present hn,
      onto_present hn]
  | @unbound args link zero t hz ht =>
    have hr' : H.refer t s = (.ok (some p), s) := by rw [refer_same hk ht, hr]
    have hform : t.uncommented.form ≠ .spread := by
      have := congrArg Piece.form (piece_same (H := H) hk ht)
      rw [show t.uncommented.form = k.uncommented.form from Option.some.inj this]
      exact uncommented_form hk
    have hone := refer_unbound hr' hv hform hz
    have htwo : H.refer k.unbound s = _ := refer_unbound hr hv (uncommented_form hk) (by simp [isZero])
    show H.refer ((Layer.call args).onto true k.unbound) s = H.refer ((Layer.call args).onto link (.sequence [zero, t])) s
    rw [refer_onto, refer_onto, Eval.bind_ok hone, Eval.bind_ok htwo, Eval.bind_ok (fetch_some rfl),
      Eval.bind_ok (fetch_some rfl), onto_present hn, onto_present hn]
  | above l link _ ih =>
    rw [refer_onto, refer_onto]
    exact Eval.bind_congr_at ih _
  | @under op hop t u _ ih =>
    have hended : H.ended u.closed s = H.ended t s := by
      rw [ended_closed, ← H.ended_opened t]
      exact Eval.bind_congr_at ih _
    rcases hop with rfl | rfl
    · rw [refer_delete, refer_delete]
      exact Eval.bind_congr_at (Eval.bind_congr_at hended _) _
    · simp only [refer_void, eval_eq_ended]
      exact Eval.bind_congr_at (Eval.bind_congr_at (Eval.bind_congr_at hended _) _) _
  | @target op value t haccess ht =>
    have hp : H.piece t = H.piece k := piece_same hk ht
    have hform : t.uncommented.form = k.uncommented.form := Option.some.inj (congrArg Piece.form hp)
    have hwhole := isWhole_assign haccess op value
    have hwhole' : (Tree.assign op t value).isWhole = false := by
      rw [← hwhole]
      cases op <;> simp [isWhole, hform]
    rw [H.refer_node hwhole, H.refer_node hwhole']
    simp only [List.map_cons, hp]

/-- Finding the place for a link on the spine changes no value, where the link has one behind it. -/
theorem eval_rewrite (hH : H.IsQuiet) (hk : k.isHarmless = true) (ha : k.isAccess = true) (hs : H.IsPresent k s) {t : Tree}
    (hd : t.callsDirectly = true) : H.eval (t.rewrite k (some k)).expr s = H.eval t s := by
  have hrel := (Substitution.searched_onSpine ⟨k, some k⟩ t.opened).relinked ha (by rw [callsDirectly_opened, hd])
  rw [Tree.rewrite, eval_eq_ended, eval_eq_ended, ended_closed, ← H.ended_opened t]
  exact Eval.bind_congr_at (Eval.bind_congr_at (refer_relinked hH hk hs hrel) _) _

end Host

end Chainlift

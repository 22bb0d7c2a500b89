import Chainlift.Proofs.Frames
import Chainlift.Sweep.Pass

/-!
# The moments of a sweep

A sweep tries each expression before its parts are visited and perhaps once more afterwards. The nodes around it are known at
each of these moments: what stands before it in them has been visited, what stands after it has not (`Sweep.Tries`,
`Sweep.Reaches`). At every such moment the frames fit the program as it then is (`Sweep.Reaches.fits`), whichever rewrites have
been accepted so far.
-/

namespace Chainlift

open Tree

namespace Sweep

/-! ## Rewrites -/

theorem isBranching_of_coalesce {t : Tree} {r : Replacement} (h : t.coalesce = some r) : t.isBranching = true := by
  obtain ⟨_, _, _, _, _, rfl, -⟩ := coalesce_eq_some h
  rfl

theorem isBranching_of_tryRewrite {o : Options} {t u : Tree} {s s' : Sweep} (h : tryRewrite o t s = some (u, s')) :
    t.isBranching = true := by
  obtain ⟨r, kind, hr | ⟨hb, -⟩, -⟩ := accept_of_tryRewrite h
  · exact isBranching_of_coalesce hr
  · exact hb

/-- A rewrite that is made adds nothing, and the frames go on fitting. -/
theorem fits_of_tryRewrite {o : Options} {ls : List Enclosure} (hls : ∀ l ∈ ls, l.IsCovered) {t u : Tree} {s s' : Sweep}
    (ht : t.IsRegular) (hs : Fits ls t s.frames) (h : tryRewrite o t s = some (u, s')) : u.IsRegular ∧ Fits ls u s'.frames := by
  obtain ⟨r, kind, hr, ha⟩ := accept_of_tryRewrite h
  have hle : ∀ m : Measure, m.total r.expr ≤ m.total t := by
    intro m
    rcases hr with hr | ⟨-, hr⟩
    · exact m.coalesce_le hr
    · exact m.reconstruct_le hr
  have huses : ∀ name, r.expr.uses name ≤ t.uses name := by
    intro name
    rw [← Measure.total_uses, ← Measure.total_uses]
    exact hle _
  obtain ⟨rfl, hfits⟩ := Fits.accept hls hs huses ha
  exact ⟨Nat.le_zero.1 (ht ▸ hle Measure.stray), hfits⟩

/-! ## Visits -/

/-- How the parts of a rewritten expression are visited where at most so many rewrites stand one below the other. -/
def again (o : Options) : (depth : Nat) → List Tree → Sweep → List Tree × Sweep
  | 0 => fun ts s => (ts, s)
  | n + 1 => visitAll o n

theorem visitAll_eq (o : Options) (depth : Nat) : visitAll o depth = visitAllWith o (again o depth) := by
  cases depth <;> rfl

theorem of?_eq_none {f : Form} (h : f.opensScope = false) (ps : List Tree) : Scope.of? f ps = none := by
  unfold Scope.of?
  split
  · exact absurd h (by simp [Form.opensScope, Form.isFunction])
  · exact absurd h (by simp [Form.opensScope, Form.isFunction])
  · exact absurd h (by simp [Form.opensScope, Form.isFunction])
  · rfl

theorem leave_of_none {f : Form} {ps : List Tree} (h : Scope.of? f ps = none) (s : Sweep) : s.leave f ps = (.node f ps, s) := by
  rw [leave, h]

theorem tryRewrite_of_isBranching {o : Options} {t : Tree} (h : t.isBranching = false) (s : Sweep) : tryRewrite o t s = none := by
  cases hr : tryRewrite o t s with
  | none => rfl
  | some x => exact absurd (isBranching_of_tryRewrite hr) (by rw [h]; simp)

theorem visitAllWith_eq_self {o : Options} {next : List Tree → Sweep → List Tree × Sweep} {ps : List Tree} {s : Sweep}
    (h : ∀ p ∈ ps, visitWith o next p s = (p, s)) : visitAllWith o next ps s = (ps, s) := by
  induction ps with
  | nil => rfl
  | cons p ps ih =>
    simp only [List.mem_cons, forall_eq_or_imp] at h
    rw [visitAllWith, h.1]
    simp only
    rw [ih h.2]

/-- Nothing happens to a quiet tree. -/
theorem visitWith_of_isQuiet {o : Options} {next : List Tree → Sweep → List Tree × Sweep} {t : Tree} (h : t.isQuiet = true)
    (s : Sweep) : visitWith o next t s = (t, s) := by
  induction t generalizing s with
  | node f ps ih =>
    obtain ⟨hscope, hb, hps⟩ := isQuiet_node.1 h
    have henter : s.enter f ps = s := by rw [enter, of?_eq_none hscope]
    rw [visitWith, tryRewrite_of_isBranching hb]
    simp only
    rw [henter, visitAllWith_eq_self fun p hp => ih p hp (hps p hp) s, finish, leave_of_none (of?_eq_none hscope _)]
    simp

theorem visitAll_of_isQuiet {o : Options} (d : Nat) {ps : List Tree} (h : ∀ p ∈ ps, p.isQuiet = true) (s : Sweep) :
    visitAll o d ps s = (ps, s) := by
  rw [visitAll_eq, visitAllWith_eq_self fun p hp => visitWith_of_isQuiet (h p hp) s]

/-! ## Visits keep the frames fitting -/

/-- The parts of a node, some of which have been visited, are regular, and the frames fit them. -/
structure PartsFit (ls : List Enclosure) (f : Form) (owned : Option (List String)) (before ps after : List Tree) (s : Sweep) :
    Prop where
  regular : ∀ p ∈ ps, p.IsRegular
  stray : strayFrom f before.length ps = 0
  fits : FitsIn (Fits ls) f (before ++ ps ++ after) owned s.frames

/-- The visit of parts leaves as many of them, and the frames fit them. -/
def KeepsParts (visit : List Tree → Sweep → List Tree × Sweep) (ps : List Tree) : Prop :=
  ∀ ls f owned before after s, (∀ l ∈ ls, l.IsCovered) → PartsFit ls f owned before ps after s →
    (visit ps s).1.length = ps.length ∧ PartsFit ls f owned before (visit ps s).1 after (visit ps s).2

/-- The visit of a tree leaves it regular, and the frames fit it. -/
def Keeps (visit : Tree → Sweep → Tree × Sweep) (t : Tree) : Prop :=
  ∀ ls s, (∀ l ∈ ls, l.IsCovered) → t.IsRegular → Fits ls t s.frames →
    (visit t s).1.IsRegular ∧ Fits ls (visit t s).1 (visit t s).2.frames

section

variable {o : Options} {next : List Tree → Sweep → List Tree × Sweep} {ls : List Enclosure}

/-- The first of the parts belongs to the scope of its node, or nothing happens to it. -/
theorem PartsFit.encloses_or_quiet {f : Form} {owned : Option (List String)} {before ps after : List Tree} {p : Tree} {s : Sweep}
    (h : PartsFit ls f owned before (p :: ps) after s) : f.encloses before.length = true ∨ p.isQuiet = true := by
  have hp := (Nat.add_eq_zero_iff.1 h.stray).1
  split at hp
  · rename_i hor
    rwa [Bool.or_eq_true] at hor
  · exact absurd hp (by simp)

/-- The first of the parts is visited. -/
theorem PartsFit.visitWith {f : Form} {owned : Option (List String)} {before ps after : List Tree} {p : Tree} {s : Sweep}
    (h : PartsFit ls f owned before (p :: ps) after s) (hls : ∀ l ∈ ls, l.IsCovered) (hp : Keeps (visitWith o next) p) :
    (Sweep.visitWith o next p s).1.IsRegular ∧ strayFrom f before.length [(Sweep.visitWith o next p s).1] = 0 ∧
      PartsFit ls f owned (before ++ [(Sweep.visitWith o next p s).1]) ps after (Sweep.visitWith o next p s).2 := by
  have hfits : Fits (⟨f, before, ps ++ after, owned⟩ :: ls) p s.frames := by
    have := h.fits
    rwa [List.append_assoc] at this
  have hkept : (Sweep.visitWith o next p s).1.IsRegular ∧ strayFrom f before.length [(Sweep.visitWith o next p s).1] = 0 ∧
      Fits (⟨f, before, ps ++ after, owned⟩ :: ls) (Sweep.visitWith o next p s).1 (Sweep.visitWith o next p s).2.frames := by
    rcases h.encloses_or_quiet with he | hq
    · obtain ⟨hregular, hfits⟩ := hp (⟨f, before, ps ++ after, owned⟩ :: ls) s
        (by simpa only [List.mem_cons, forall_eq_or_imp] using ⟨fun _ => he, hls⟩) (h.regular p (by simp)) hfits
      exact ⟨hregular, by simp [strayFrom, he], hfits⟩
    · rw [visitWith_of_isQuiet hq]
      exact ⟨h.regular p (by simp), by simp [strayFrom, hq], hfits⟩
  refine ⟨hkept.1, hkept.2.1, fun q hq => h.regular q (by simp [hq]), ?_, ?_⟩
  · rw [List.length_append]
    exact (Nat.add_eq_zero_iff.1 h.stray).2
  · have := hkept.2.2
    simpa only [Fits, Enclosure.parts, List.append_assoc, List.cons_append, List.nil_append] using this

theorem visitAllWith_keeps {ps : List Tree} (h : ∀ p ∈ ps, Keeps (visitWith o next) p) :
    KeepsParts (visitAllWith o next) ps := by
  intro ls f owned before after s hls hps
  induction ps generalizing before s with
  | nil => exact ⟨rfl, hps⟩
  | cons p ps ih =>
    simp only [List.mem_cons, forall_eq_or_imp] at h
    obtain ⟨hp, hstray, hrest⟩ := hps.visitWith hls h.1
    obtain ⟨hlength, hkept⟩ := ih h.2 _ _ hrest
    rw [visitAllWith]
    refine ⟨congrArg (· + 1) hlength, ?_, ?_, ?_⟩
    · simp only [List.mem_cons, forall_eq_or_imp]
      exact ⟨hp, hkept.regular⟩
    · refine (strayFrom_append f before.length [_] _).trans (Nat.add_eq_zero_iff.2 ⟨hstray, ?_⟩)
      have := hkept.stray
      rwa [List.length_append] at this
    · have := hkept.fits
      simpa only [List.append_assoc, List.cons_append, List.nil_append] using this

/-- The node is left. -/
theorem PartsFit.leave {f : Form} {ps qs : List Tree} {s : Sweep} (hlength : ps.length = qs.length)
    (h : PartsFit ls f (Scope.ownedBy f qs) [] ps [] s) :
    (s.leave f ps).1.IsRegular ∧ Fits ls (s.leave f ps).1 (s.leave f ps).2.frames := by
  constructor
  · have hle := Measure.stray.leave_le s f ps fun _ => Scope.strayFrom_put ..
    rw [isRegular_node.2 ⟨h.stray, h.regular⟩] at hle
    exact Nat.le_zero.1 hle
  · have := h.fits
    rw [List.nil_append, List.append_nil] at this
    exact Fits.leave hlength this

/-- The node is left, and perhaps tried once more. -/
theorem finish_keeps (hls : ∀ l ∈ ls, l.IsCovered) {f : Form} {ps qs : List Tree} {before s : Sweep}
    (hlength : ps.length = qs.length) (h : PartsFit ls f (Scope.ownedBy f qs) [] ps [] s) :
    (finish o before f (ps, s)).1.IsRegular ∧ Fits ls (finish o before f (ps, s)).1 (finish o before f (ps, s)).2.frames := by
  obtain ⟨hregular, hfits⟩ := h.leave hlength
  unfold finish
  simp only
  split
  · cases ht : tryRewrite o (s.leave f ps).1 (s.leave f ps).2 with
    | none => exact ⟨hregular, hfits⟩
    | some x => exact fits_of_tryRewrite hls hregular hfits ht
  · exact ⟨hregular, hfits⟩

/-- A node is entered. -/
theorem PartsFit.enter {f : Form} {ps : List Tree} {s : Sweep} (ht : (node f ps).IsRegular) (h : Fits ls (.node f ps) s.frames) :
    PartsFit ls f (Scope.ownedBy f ps) [] ps [] (s.enter f ps) := by
  obtain ⟨hstray, hregular⟩ := isRegular_node.1 ht
  refine ⟨hregular, hstray, ?_⟩
  rw [List.nil_append, List.append_nil]
  exact h.enter

theorem visitWith_keeps (hnext : ∀ ps, KeepsParts next ps) (t : Tree) : Keeps (visitWith o next) t := by
  induction t with
  | node f ps ih =>
    intro ls s hls ht hs
    rw [visitWith.eq_def]
    simp only
    split
    · rename_i f' ps' s' heq
      obtain ⟨hregular, hfits⟩ := fits_of_tryRewrite hls ht hs heq
      obtain ⟨hlength, hkept⟩ := hnext ps' ls f' _ [] [] _ hls (.enter hregular hfits)
      exact finish_keeps hls hlength hkept
    · obtain ⟨hlength, hkept⟩ := visitAllWith_keeps ih ls f _ [] [] _ hls (.enter ht hs)
      exact finish_keeps hls hlength hkept

end

theorem again_keeps (o : Options) (depth : Nat) (ps : List Tree) : KeepsParts (again o depth) ps := by
  induction depth generalizing ps with
  | zero => exact fun _ _ _ _ _ _ _ h => ⟨rfl, h⟩
  | succ n ih =>
    rw [again, visitAll_eq]
    exact visitAllWith_keeps fun p _ => visitWith_keeps ih p

theorem visitAll_keeps (o : Options) (depth : Nat) (ps : List Tree) : KeepsParts (visitAll o depth) ps :=
  again_keeps o (depth + 1) ps

/-! ## Moments -/

/-- What stands in the place of a tree after it has been tried for the first time. At most so many rewrites stand below it. -/
inductive Turns (o : Options) : Nat → Tree → Sweep → Nat → Tree → Sweep → Prop where
  | kept {d : Nat} {t : Tree} {s : Sweep} (h : tryRewrite o t s = none) : Turns o d t s d t s
  | replaced {d : Nat} {t u : Tree} {s s' : Sweep} (h : tryRewrite o t s = some (u, s')) : Turns o (d + 1) t s d u s'

/-- In the visit of a tree an expression is tried, with these nodes of the tree around it: the tree itself at first, or one of
its parts when those before it have been visited, or the tree once more when something was rewritten in its parts. -/
inductive Tries (o : Options) : Nat → Tree → Sweep → List Enclosure → Tree → Sweep → Prop where
  | first {d : Nat} {t : Tree} {s : Sweep} : Tries o d t s [] t s
  | part {d d' : Nat} {t p u : Tree} {f : Form} {before before' after : List Tree} {s₀ s₁ s₂ s : Sweep} {ls : List Enclosure}
      (turned : Turns o d t s₀ d' (.node f (before ++ p :: after)) s₁)
      (visited : visitAll o d' before (s₁.enter f (before ++ p :: after)) = (before', s₂))
      (tried : Tries o d' p s₂ ls u s) :
      Tries o d t s₀ (ls ++ [⟨f, before', after, Scope.ownedBy f (before ++ p :: after)⟩]) u s
  | last {d d' : Nat} {t : Tree} {f : Form} {ps ps' : List Tree} {s₀ s₁ s₂ : Sweep}
      (turned : Turns o d t s₀ d' (.node f ps) s₁)
      (visited : visitAll o d' ps (s₁.enter f ps) = (ps', s₂))
      (rewritten : s₁.rewrites < (s₂.leave f ps').2.rewrites) :
      Tries o d t s₀ [] (s₂.leave f ps').1 (s₂.leave f ps').2

/-- An expression is tried: the program around it, the expression, and the state of the sweep. -/
structure Moment where
  around : List Enclosure
  candidate : Tree
  state : Sweep

/-- The program at that moment. -/
def Moment.program (m : Moment) : Tree := Enclosure.fillAll m.around m.candidate

/-- The state at the start of a sweep over statements. -/
def entered (ss : List Tree) : Sweep := { start with frames := [.ofScope ⟨none, ss⟩] }

/-- The moments of a sweep over statements and of the sweeps after it. -/
inductive Reaches (o : Options) : List Tree → Moment → Prop where
  | now {p u : Tree} {before before' after : List Tree} {s₁ s : Sweep} {ls : List Enclosure}
      (visited : visitAll o (sizeAll (before ++ p :: after)) before (entered (before ++ p :: after)) = (before', s₁))
      (tried : Tries o (sizeAll (before ++ p :: after)) p s₁ ls u s) :
      Reaches o (before ++ p :: after)
        ⟨ls ++ [⟨.body [], before', after, some (Scope.owned ⟨none, before ++ p :: after⟩)⟩], u, s⟩
  | later {ss : List Tree} {m : Moment} (reached : Reaches o (overStatements o ss).1 m) : Reaches o ss m

variable {o : Options}

theorem Turns.of_isQuiet {d d' : Nat} {t u : Tree} {s s' : Sweep} (h : Turns o d t s d' u s') (hq : t.isQuiet = true) :
    u = t ∧ s' = s := by
  cases h with
  | kept h => exact ⟨rfl, rfl⟩
  | replaced h =>
    cases t
    rw [tryRewrite_of_isBranching (isQuiet_node.1 hq).2.1] at h
    exact absurd h (by simp)

/-- In a quiet tree nothing is tried that could be rewritten. -/
theorem Tries.isBranching {d : Nat} {t u : Tree} {s s' : Sweep} {ls : List Enclosure} (h : Tries o d t s ls u s')
    (hq : t.isQuiet = true) : u.isBranching = false := by
  induction h with
  | @first d t s =>
    cases t
    exact (isQuiet_node.1 hq).2.1
  | part turned visited tried ih =>
    obtain ⟨rfl, rfl⟩ := turned.of_isQuiet hq
    exact ih ((isQuiet_node.1 hq).2.2 _ (by simp))
  | @last d d' t f ps ps' s₀ s₁ s₂ turned visited rewritten =>
    obtain ⟨rfl, rfl⟩ := turned.of_isQuiet hq
    obtain ⟨hscope, hb, hps⟩ := isQuiet_node.1 hq
    rw [visitAll_of_isQuiet d' hps] at visited
    obtain ⟨rfl, rfl⟩ := Prod.mk.inj visited
    rw [leave_of_none (of?_eq_none hscope _)]
    exact hb

theorem Turns.fits {d d' : Nat} {t u : Tree} {s s' : Sweep} (h : Turns o d t s d' u s') {ls : List Enclosure}
    (hls : ∀ l ∈ ls, l.IsCovered) (ht : t.IsRegular) (hs : Fits ls t s.frames) : u.IsRegular ∧ Fits ls u s'.frames := by
  cases h with
  | kept h => exact ⟨ht, hs⟩
  | replaced h => exact fits_of_tryRewrite hls ht hs h

/-- The first of the parts have been visited. -/
theorem PartsFit.visitAll {ls : List Enclosure} {f : Form} {owned : Option (List String)} {before ps : List Tree} {s : Sweep}
    (h : PartsFit ls f owned [] (before ++ ps) [] s) (hls : ∀ l ∈ ls, l.IsCovered) (d : Nat) :
    PartsFit ls f owned (Sweep.visitAll o d before s).1 ps [] (Sweep.visitAll o d before s).2 := by
  have hstray := h.stray
  rw [strayFrom_append, Nat.add_eq_zero_iff] at hstray
  have hfits := h.fits
  rw [List.nil_append, List.append_nil] at hfits
  obtain ⟨hlength, hkept⟩ := visitAll_keeps o d before ls f owned [] ps s hls
    ⟨fun p hp => h.regular p (by simp [hp]), hstray.1, hfits⟩
  refine ⟨fun p hp => h.regular p (by simp [hp]), ?_, ?_⟩
  · rw [hlength]
    simpa using hstray.2
  · have := hkept.fits
    rwa [List.nil_append, ← List.append_nil (_ ++ ps)] at this

/-- Where an expression is tried that could be rewritten, the frames fit the tree around it. -/
theorem Tries.fits {d : Nat} {t u : Tree} {s s' : Sweep} {ls : List Enclosure} (h : Tries o d t s ls u s')
    (hu : u.isBranching = true) {outer : List Enclosure} (houter : ∀ l ∈ outer, l.IsCovered) (ht : t.IsRegular)
    (hs : Fits outer t s.frames) : (∀ l ∈ ls ++ outer, l.IsCovered) ∧ Fits (ls ++ outer) u s'.frames := by
  induction h generalizing outer with
  | first => exact ⟨houter, hs⟩
  | @part d d' t p u f before before' after s₀ s₁ s₂ s ls turned visited tried ih =>
    obtain ⟨hregular, hfits⟩ := turned.fits houter ht hs
    have hparts := (PartsFit.enter hregular hfits).visitAll (o := o) houter d'
    rw [visited] at hparts
    have hcovered : f.encloses before'.length = true := by
      refine hparts.encloses_or_quiet.resolve_right fun hq => ?_
      rw [tried.isBranching hq] at hu
      exact absurd hu (by simp)
    have hfits := hparts.fits
    rw [List.append_nil] at hfits
    rw [List.append_assoc]
    refine ih hu ?_ (hparts.regular p (by simp)) hfits
    simp only [List.singleton_append, List.mem_cons, forall_eq_or_imp]
    exact ⟨fun _ => hcovered, houter⟩
  | @last d d' t f ps ps' s₀ s₁ s₂ turned visited rewritten =>
    obtain ⟨hregular, hfits⟩ := turned.fits houter ht hs
    obtain ⟨hlength, hparts⟩ := visitAll_keeps o d' ps outer f _ [] [] _ houter (.enter hregular hfits)
    rw [visited] at hlength hparts
    exact ⟨houter, (hparts.leave hlength).2⟩

/-- Before anything is visited the only frame is the one of the program. -/
theorem partsFit_entered {ss : List Tree} (h : ∀ s ∈ ss, s.IsRegular) :
    PartsFit [] (.body []) (some (Scope.owned ⟨none, ss⟩)) [] ss [] (entered ss) := by
  refine ⟨h, strayFrom_eq_zero rfl _ _, _, _, rfl, rfl, fun name => Nat.le_of_eq ?_, rfl⟩
  rw [List.nil_append, List.append_nil, scopeUses_eq_sum rfl]
  exact (Tally.get_ofTrees ss name).symm

/-- A sweep leaves a regular program. -/
theorem isRegular_of_overStatements {ss : List Tree} (h : ∀ s ∈ ss, s.IsRegular) :
    ∀ s ∈ (overStatements o ss).1, s.IsRegular := by
  obtain ⟨-, hparts⟩ := visitAll_keeps o (sizeAll ss) ss [] _ _ [] [] _ (by simp) (partsFit_entered h)
  have hsum : ((visitAll o (sizeAll ss) ss (entered ss)).1.map Measure.stray.total).sum = 0 :=
    List.sum_eq_zero_iff.2 (by simpa [Tree.IsRegular] using hparts.regular)
  have hle := Measure.stray.leaveScope_le (visitAll o (sizeAll ss) ss (entered ss)).2
    ⟨none, (visitAll o (sizeAll ss) ss (entered ss)).1⟩
  exact fun s hs => List.sum_eq_zero_iff.1 (Nat.le_zero.1 (hsum ▸ hle)) _ (List.mem_map_of_mem hs)

/-- Whenever an expression is tried that could be rewritten, the frames fit the program as it then is. -/
theorem Reaches.fits {ss : List Tree} {m : Moment} (h : Reaches o ss m) (hss : ∀ s ∈ ss, s.IsRegular)
    (hm : m.candidate.isBranching = true) : (∀ l ∈ m.around, l.IsCovered) ∧ Fits m.around m.candidate m.state.frames := by
  induction h with
  | @now p u before before' after s₁ s ls visited tried =>
    have hparts := (partsFit_entered hss).visitAll (o := o) (by simp) (sizeAll (before ++ p :: after))
    rw [visited] at hparts
    have hfits := hparts.fits
    rw [List.append_nil] at hfits
    exact tried.fits hm (by simp [Enclosure.IsCovered, Form.encloses]) (hparts.regular p (by simp)) hfits
  | later reached ih => exact ih (isRegular_of_overStatements hss) hm

end Sweep

end Chainlift

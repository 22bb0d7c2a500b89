import Chainlift.Proofs.Locality

/-!
# Tallies never fall short

A tally is taken once, when its scope is entered. Afterwards the scope is rewritten and cleaned below, and the tally changes only
by the uses that accepted rewrites take from it. At every instant of a sweep it holds no less than the uses that its scope has in
the program as it then is (`Sweep.Comes.uses_le_tally`): no rewrite adds a use of any name, and none takes more from a tally than
the uses it removes.

The instants (`Sweep.Visits`, `Sweep.Comes`) are those before and after each try, each part of a node that is visited, and each scope
that is left. Types and the names of functions lie outside of the scopes that are counted; nothing happens while they are
visited (`Sweep.Visits.of_isQuiet`).
-/

namespace Chainlift

open Tree

/-! ## Open scopes -/

/-- The uses of a variable in the scope that the node opens: in the parameters and the body of a function, and in all parts of
another node. -/
def Tree.usesInScope (name : String) : Tree → Nat
  | .node f ps => scopeUses f name 0 ps

theorem Scope.usesInScope_of? {f : Form} {ps : List Tree} {s : Scope} (h : of? f ps = some s) (name : String) :
    (node f ps).usesInScope name = s.parameterUses name + s.statementUses name := by
  rw [usesInScope, ← get_tally h, tally_eq]

/-- The nodes around an expression whose scopes are open, the innermost first. -/
def Enclosure.scopes : List Enclosure → Tree → List Tree
  | [], _ => []
  | l :: ls, t => (if l.owned.isSome then [l.fill t] else []) ++ scopes ls (l.fill t)

/-- The tally of the frame holds no less than the uses in the scope of the node. -/
def Frame.Counts (node : Tree) (frame : Frame) : Prop := ∀ name, node.usesInScope name ≤ frame.tally.get name

theorem Fits.counts {ls : List Enclosure} {t : Tree} {frames : List Frame} (h : Fits ls t frames) :
    List.Forall₂ Frame.Counts (Enclosure.scopes ls t) frames := by
  induction ls generalizing t frames with
  | nil =>
    obtain rfl := h
    exact .nil
  | cons l ls ih =>
    unfold Fits at h
    unfold Enclosure.scopes
    cases ho : l.owned with
    | none =>
      rw [ho] at h
      exact ih h
    | some names =>
      rw [ho] at h
      obtain ⟨frame, rest, rfl, -, huses, hrest⟩ := h
      exact .cons huses (ih hrest)

/-- Nodes whose scopes are not open do not matter. -/
theorem Fits.of_unowned {ls outer : List Enclosure} (hls : ∀ l ∈ ls, l.owned = none) (t : Tree) (frames : List Frame) :
    Fits (ls ++ outer) t frames ↔ Fits outer (Enclosure.fillAll ls t) frames := by
  induction ls generalizing t with
  | nil => rfl
  | cons l ls ih =>
    simp only [List.mem_cons, forall_eq_or_imp] at hls
    rw [List.cons_append, Fits, hls.1]
    exact ih hls.2 (l.fill t)

namespace Sweep

/-! ## Instants -/

/-- The program and the state in the middle of a sweep. -/
structure Instant where
  around : List Enclosure
  /-- The node at which the sweep is. -/
  focus : Tree
  /-- The names that belong to the scope of the node, if it has been entered. -/
  owned : Option (List String)
  state : Sweep

namespace Instant

/-- The program at that instant. -/
def program (i : Instant) : Tree := Enclosure.fillAll i.around i.focus

/-- The nodes whose scopes are open, the innermost first. -/
def scopes (i : Instant) : List Tree :=
  (if i.owned.isSome then [i.focus] else []) ++ Enclosure.scopes i.around i.focus

/-- The frames are those of the open scopes in the focus, of those around it and of the outer ones. -/
def Fits (i : Instant) (outer : List Enclosure) : Prop :=
  FitsIn (Chainlift.Fits (i.around ++ outer)) i.focus.form i.focus.parts i.owned i.state.frames

/-- Put a node around the program. -/
def within (i : Instant) (l : Enclosure) : Instant := { i with around := i.around ++ [l] }

end Instant

/-- The visit of a tree comes to an instant: when the tree is met, when it has been replaced, when some of its parts have been
visited, in one of its parts, when it has been left, and when it has been replaced after that. -/
inductive Visits (o : Options) : Nat → Tree → Sweep → Instant → Prop where
  | met {d : Nat} {t : Tree} {s : Sweep} : Visits o d t s ⟨[], t, none, s⟩
  | replaced {d : Nat} {t u : Tree} {s s' : Sweep} (h : tryRewrite o t s = some (u, s')) : Visits o d t s ⟨[], u, none, s'⟩
  | among {d d' : Nat} {t : Tree} {f : Form} {before before' after : List Tree} {s₀ s₁ s₂ : Sweep}
      (turned : Turns o d t s₀ d' (.node f (before ++ after)) s₁)
      (visited : visitAll o d' before (s₁.enter f (before ++ after)) = (before', s₂)) :
      Visits o d t s₀ ⟨[], .node f (before' ++ after), Scope.ownedBy f (before ++ after), s₂⟩
  | part {d d' : Nat} {t p : Tree} {f : Form} {before before' after : List Tree} {s₀ s₁ s₂ : Sweep} {i : Instant}
      (turned : Turns o d t s₀ d' (.node f (before ++ p :: after)) s₁)
      (visited : visitAll o d' before (s₁.enter f (before ++ p :: after)) = (before', s₂))
      (inside : Visits o d' p s₂ i) :
      Visits o d t s₀ (i.within ⟨f, before', after, Scope.ownedBy f (before ++ p :: after)⟩)
  | left {d d' : Nat} {t : Tree} {f : Form} {ps ps' : List Tree} {s₀ s₁ s₂ : Sweep}
      (turned : Turns o d t s₀ d' (.node f ps) s₁)
      (visited : visitAll o d' ps (s₁.enter f ps) = (ps', s₂)) :
      Visits o d t s₀ ⟨[], (s₂.leave f ps').1, none, (s₂.leave f ps').2⟩
  | again {d d' : Nat} {t u : Tree} {f : Form} {ps ps' : List Tree} {s₀ s₁ s₂ s : Sweep}
      (turned : Turns o d t s₀ d' (.node f ps) s₁)
      (visited : visitAll o d' ps (s₁.enter f ps) = (ps', s₂))
      (h : tryRewrite o (s₂.leave f ps').1 (s₂.leave f ps').2 = some (u, s)) :
      Visits o d t s₀ ⟨[], u, none, s⟩

/-- A sweep over statements, or one of those after it, comes to an instant: when some of the statements have been visited, or in one of
them. -/
inductive Comes (o : Options) : List Tree → Instant → Prop where
  | among {before before' after : List Tree} {s : Sweep}
      (visited : visitAll o (sizeAll (before ++ after)) before (entered (before ++ after)) = (before', s)) :
      Comes o (before ++ after) ⟨[], .node (.body []) (before' ++ after), some (Scope.owned ⟨none, before ++ after⟩), s⟩
  | inside {p : Tree} {before before' after : List Tree} {s : Sweep} {i : Instant}
      (visited : visitAll o (sizeAll (before ++ p :: after)) before (entered (before ++ p :: after)) = (before', s))
      (inside : Visits o (sizeAll (before ++ p :: after)) p s i) :
      Comes o (before ++ p :: after) (i.within ⟨.body [], before', after, some (Scope.owned ⟨none, before ++ p :: after⟩)⟩)
  | later {ss : List Tree} {i : Instant} (comes : Comes o (overStatements o ss).1 i) : Comes o ss i

variable {o : Options}

/-- While a quiet tree is visited the program and the frames stay as they are. -/
theorem Visits.of_isQuiet {d : Nat} {t : Tree} {s : Sweep} {i : Instant} (h : Visits o d t s i) (hq : t.isQuiet = true) :
    i.program = t ∧ i.state = s ∧ i.owned = none ∧ (∀ l ∈ i.around, l.owned = none) ∧ i.focus.isBranching = false := by
  induction h with
  | @met d t s =>
    cases t
    exact ⟨rfl, rfl, rfl, by simp, (isQuiet_node.1 hq).2.1⟩
  | @replaced d t u s s' h =>
    cases t
    rw [tryRewrite_of_isBranching (isQuiet_node.1 hq).2.1] at h
    exact absurd h (by simp)
  | among turned visited =>
    obtain ⟨rfl, rfl⟩ := turned.of_isQuiet hq
    obtain ⟨hscope, hb, hps⟩ := isQuiet_node.1 hq
    rw [visitAll_of_isQuiet _ fun p hp => hps p (by simp [hp])] at visited
    obtain ⟨rfl, rfl⟩ := Prod.mk.inj visited
    exact ⟨rfl, by rw [enter, of?_eq_none hscope], by rw [Scope.ownedBy, of?_eq_none hscope]; rfl, by simp, hb⟩
  | @part d d' t p f before before' after s₀ s₁ s₂ i turned visited inside ih =>
    obtain ⟨rfl, rfl⟩ := turned.of_isQuiet hq
    obtain ⟨hscope, -, hps⟩ := isQuiet_node.1 hq
    rw [visitAll_of_isQuiet _ fun p hp => hps p (by simp [hp])] at visited
    obtain ⟨rfl, rfl⟩ := Prod.mk.inj visited
    obtain ⟨hprogram, hstate, howned, haround, hb⟩ := ih (hps p (by simp))
    refine ⟨?_, ?_, howned, ?_, hb⟩
    · rw [Instant.program, Instant.within, Enclosure.fillAll_append]
      exact congrArg (fun u => node f (before ++ u :: after)) hprogram
    · rw [Instant.within, hstate, enter, of?_eq_none hscope]
    · intro l hl
      rcases List.mem_append.1 hl with hl | hl
      · exact haround l hl
      · rw [List.mem_singleton.1 hl, Scope.ownedBy, of?_eq_none hscope]
        rfl
  | left turned visited =>
    obtain ⟨rfl, rfl⟩ := turned.of_isQuiet hq
    obtain ⟨hscope, hb, hps⟩ := isQuiet_node.1 hq
    rw [visitAll_of_isQuiet _ hps] at visited
    obtain ⟨rfl, rfl⟩ := Prod.mk.inj visited
    rw [leave_of_none (of?_eq_none hscope _)]
    exact ⟨rfl, by rw [enter, of?_eq_none hscope], rfl, by simp, hb⟩
  | again turned visited h =>
    obtain ⟨rfl, rfl⟩ := turned.of_isQuiet hq
    obtain ⟨hscope, hb, hps⟩ := isQuiet_node.1 hq
    rw [visitAll_of_isQuiet _ hps] at visited
    obtain ⟨rfl, rfl⟩ := Prod.mk.inj visited
    rw [leave_of_none (of?_eq_none hscope _), tryRewrite_of_isBranching hb] at h
    exact absurd h (by simp)

/-! ## Frames at an instant -/

/-- A node in focus that is not open stands in the program around it. -/
theorem Instant.fits_unowned {around outer : List Enclosure} {t : Tree} {s : Sweep} :
    Instant.Fits ⟨around, t, none, s⟩ outer ↔ Chainlift.Fits (around ++ outer) t s.frames := by
  cases t
  rfl

theorem Visits.fits {d : Nat} {t : Tree} {s : Sweep} {i : Instant} (h : Visits o d t s i) {outer : List Enclosure}
    (houter : ∀ l ∈ outer, l.IsCovered) (ht : t.IsRegular) (hs : Chainlift.Fits outer t s.frames) :
    (i.focus.isBranching = true → ∀ l ∈ i.around ++ outer, l.IsCovered) ∧ i.Fits outer := by
  induction h generalizing outer with
  | met => exact ⟨fun _ => houter, Instant.fits_unowned.2 hs⟩
  | replaced h => exact ⟨fun _ => houter, Instant.fits_unowned.2 (fits_of_tryRewrite houter ht hs h).2⟩
  | @among d d' t f before before' after s₀ s₁ s₂ turned visited =>
    obtain ⟨hregular, hfits⟩ := turned.fits houter ht hs
    have hparts := (PartsFit.enter hregular hfits).visitAll (o := o) houter d'
    rw [visited] at hparts
    have hfits := hparts.fits
    rw [List.append_nil] at hfits
    exact ⟨fun _ => houter, hfits⟩
  | @part d d' t p f before before' after s₀ s₁ s₂ i turned visited inside ih =>
    obtain ⟨hregular, hfits⟩ := turned.fits houter ht hs
    have hparts := (PartsFit.enter hregular hfits).visitAll (o := o) houter d'
    rw [visited] at hparts
    have hfits := hparts.fits
    rw [List.append_nil] at hfits
    have happend : ∀ l, i.around ++ [l] ++ outer = i.around ++ l :: outer := fun l => by rw [List.append_assoc]; rfl
    unfold Instant.Fits Instant.within
    simp only [happend]
    -- A part outside of the scope that is counted has no instants of its own to speak of.
    rcases hparts.encloses_or_quiet with he | hq
    · refine ih ?_ (hparts.regular p (by simp)) hfits
      simp only [List.mem_cons, forall_eq_or_imp]
      exact ⟨fun _ => he, houter⟩
    · obtain ⟨hprogram, hstate, howned, haround, hb⟩ := inside.of_isQuiet hq
      refine ⟨fun hbranching => absurd hbranching (by simp [hb]), ?_⟩
      rw [howned, hstate]
      refine Instant.fits_unowned.2 ((Fits.of_unowned haround _ _).2 ?_)
      rw [← Instant.program, hprogram]
      exact hfits
  | @left d d' t f ps ps' s₀ s₁ s₂ turned visited =>
    obtain ⟨hregular, hfits⟩ := turned.fits houter ht hs
    obtain ⟨hlength, hparts⟩ := visitAll_keeps o d' ps outer f _ [] [] _ houter (.enter hregular hfits)
    rw [visited] at hlength hparts
    exact ⟨fun _ => houter, Instant.fits_unowned.2 (hparts.leave hlength).2⟩
  | @again d d' t u f ps ps' s₀ s₁ s₂ s turned visited h =>
    obtain ⟨hregular, hfits⟩ := turned.fits houter ht hs
    obtain ⟨hlength, hparts⟩ := visitAll_keeps o d' ps outer f _ [] [] _ houter (.enter hregular hfits)
    rw [visited] at hlength hparts
    obtain ⟨hregular, hfits⟩ := hparts.leave hlength
    exact ⟨fun _ => houter, Instant.fits_unowned.2 (fits_of_tryRewrite houter hregular hfits h).2⟩

theorem Comes.fits {ss : List Tree} {i : Instant} (h : Comes o ss i) (hss : ∀ s ∈ ss, s.IsRegular) :
    (i.focus.isBranching = true → ∀ l ∈ i.around, l.IsCovered) ∧ i.Fits [] := by
  induction h with
  | @among before before' after s visited =>
    have hparts := (partsFit_entered hss).visitAll (o := o) (by simp) (sizeAll (before ++ after))
    rw [visited] at hparts
    have hfits := hparts.fits
    rw [List.append_nil] at hfits
    exact ⟨by simp, hfits⟩
  | @inside p before before' after s i visited inside =>
    have hparts := (partsFit_entered hss).visitAll (o := o) (by simp) (sizeAll (before ++ p :: after))
    rw [visited] at hparts
    have hfits := hparts.fits
    rw [List.append_nil] at hfits
    have hbody : Chainlift.Fits [⟨.body [], before', after, some (Scope.owned ⟨none, before ++ p :: after⟩)⟩] p s.frames := hfits
    have hinside := inside.fits (by simp [Enclosure.IsCovered, Form.encloses]) (hparts.regular p (by simp)) hbody
    unfold Instant.Fits Instant.within
    rw [List.append_nil]
    exact hinside
  | later comes ih => exact ih (isRegular_of_overStatements hss)

theorem Instant.Fits.counts {i : Instant} (h : i.Fits []) : List.Forall₂ Frame.Counts i.scopes i.state.frames := by
  obtain ⟨around, ⟨f, ps⟩, owned, s⟩ := i
  unfold Fits at h
  rw [List.append_nil] at h
  unfold scopes
  cases owned with
  | none => exact Chainlift.Fits.counts h
  | some names =>
    obtain ⟨frame, rest, hframes, -, huses, hrest⟩ := h
    rw [show s.frames = frame :: rest from hframes]
    exact .cons (show frame.Counts (.node f ps) from huses) (Chainlift.Fits.counts hrest)

/-- Tallies never fall short: at every instant of a sweep each frame counts, for every name, no less than the uses that its scope then
has. So wherever the tally of the owner of a name is the number of its uses in an expression that could be rewritten, all the
uses in that scope stand in the expression. -/
theorem Comes.uses_le_tally {ss : List Tree} {i : Instant} (h : Comes o ss i) (hss : ∀ s ∈ ss, s.IsRegular) :
    List.Forall₂ Frame.Counts i.scopes i.state.frames ∧
    ∀ name frame, i.focus.isBranching = true → i.owned = none → i.state.owner? name = some frame →
      frame.tally.get name = i.focus.uses name →
      ∃ inner l outer, i.around = inner ++ l :: outer ∧ l.Owns name ∧ (∀ k ∈ inner, ¬ k.Owns name) ∧
        ∀ q, i.program.Uses name q → l.Holds outer q → Enclosure.address i.around <+: q := by
  obtain ⟨hcovered, hfits⟩ := h.fits hss
  refine ⟨hfits.counts, fun name frame hb howned howner htally => ?_⟩
  have haround : Chainlift.Fits i.around i.focus i.state.frames := by
    obtain ⟨around, t, _, s⟩ := i
    obtain rfl := howned
    have := Instant.fits_unowned.1 hfits
    rwa [List.append_nil] at this
  obtain ⟨inner, l, outer, heq, howns, hinner, huses⟩ := haround.owner howner
  obtain ⟨names, hnames, hname⟩ := howns
  have hl : l.form.encloses l.before.length = true := hcovered hb l (by rw [heq]; simp) (by rw [hnames]; rfl)
  rw [htally] at huses
  refine ⟨inner, l, outer, heq, ⟨names, hnames, hname⟩, hinner, fun q hq hholds => ?_⟩
  rw [Instant.program, heq] at hq
  rw [heq]
  exact Enclosure.address_prefix hl huses hq hholds

namespace TalliesWitness

open LocalityWitness

/-- In `function f(a) { var t; return (t = a.b) == null ? void 0 : t.c; } use(t);` the conditional is tried. -/
def tried : Instant where
  around := (moment [] (declaration .var)).around
  focus := guarded
  owned := none
  state := (moment [] (declaration .var)).state

theorem comes : Comes {} (program [] (declaration .var)) tried := by
  have hreturn : ∀ d s, Visits {} d (.node .returnStmt ([] ++ guarded :: [])) s
      (Instant.within ⟨[], guarded, none, s⟩ ⟨.returnStmt, [], [], none⟩) :=
    fun d s => .part (.kept rfl) (visitAll_of_isQuiet d (by simp) s) .met
  have hbody : ∀ d s, Visits {} d (.node (.body []) ([declaration .var] ++ .node .returnStmt ([] ++ guarded :: []) :: [])) s
      (Instant.within ⟨[⟨.returnStmt, [], [], none⟩], guarded, none, s⟩ ⟨.body [], [declaration .var], [], none⟩) :=
    fun d s => .part (.kept rfl) (visitAll_of_isQuiet d (by simp; rfl) s) (hreturn d s)
  exact .inside (visitAll_of_isQuiet _ (by simp) _) (.part (.kept rfl) (visitAll_of_isQuiet _ (by decide) _) (hbody _ _))

end TalliesWitness

open TalliesWitness LocalityWitness in
/-- The function has its two uses of `t` in the conditional; the one in `use(t)` belongs to the program. -/
theorem Comes.uses_le_tally_var : Comes {} (program [] (declaration .var)) tried ∧
    (∀ s ∈ program [] (declaration .var), s.IsRegular) ∧ List.Forall₂ Frame.Counts tried.scopes tried.state.frames ∧
    (∃ frame, tried.state.owner? "t" = some frame ∧ frame.tally.get "t" = 2 ∧ guarded.uses "t" = 2) ∧
    ∃ inner l outer, tried.around = inner ++ l :: outer ∧ l.Owns "t" ∧ (∀ k ∈ inner, ¬ k.Owns "t") ∧
      ∀ q, tried.program.Uses "t" q → l.Holds outer q → [0, 3, 1, 0] <+: q := by
  have hregular : ∀ s ∈ program [] (declaration .var), s.IsRegular := by decide
  obtain ⟨frame, howner, htally⟩ : ∃ frame, tried.state.owner? "t" = some frame ∧ frame.tally.get "t" = 2 := ⟨_, rfl, by decide⟩
  have huses : guarded.uses "t" = 2 := by decide
  obtain ⟨hcounts, hinside⟩ := comes.uses_le_tally hregular
  exact ⟨comes, hregular, hcounts, ⟨frame, howner, htally, huses⟩, hinside "t" frame rfl rfl howner (htally.trans huses.symm)⟩

end Sweep

end Chainlift

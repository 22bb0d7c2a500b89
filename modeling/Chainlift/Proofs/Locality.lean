import Chainlift.Proofs.Bindings
import Chainlift.Proofs.Moments

/-!
# Assignments that go

A rewrite may make fewer assignments to a variable. It is accepted only if the innermost scope that owns the name has all its uses
of the name in the rewritten expression, and if the replacement does not read it (`Sweep.Reaches.dropped`). A sweep compares
names, not variables. So nothing is lost exactly if the variable that is assigned is not exported and is used within that scope
only. That is so when its binder stands in the scope (`Tree.confined_of_binder`), and it need not be so otherwise: a name that
an inner block declares belongs to the function, though outside the block it means another variable
(`Sweep.Reaches.dropped_false`).
-/

namespace Chainlift

open Tree

namespace Enclosure

/-! ## Where the uses are -/

/-- The address of the expression in the program around it. -/
def address (ls : List Enclosure) : List Nat := (ls.map (·.before.length)).reverse

theorem address_cons (l : Enclosure) (ls : List Enclosure) : address (l :: ls) = address ls ++ [l.before.length] := List.reverse_cons

theorem address_append (ls ls' : List Enclosure) : address (ls ++ ls') = address ls' ++ address ls := by
  rw [address, List.map_append, List.reverse_append]
  rfl

theorem at?_fill (l : Enclosure) (t : Tree) (q : List Nat) : (l.fill t).at? (l.before.length :: q) = t.at? q := by
  rw [at?]
  have hparts : (l.fill t).parts[l.before.length]? = some t := by simp [fill, Tree.parts, Enclosure.parts]
  rw [hparts]
  rfl

theorem at?_fillAll (ls : List Enclosure) (t : Tree) (q : List Nat) : (fillAll ls t).at? (address ls ++ q) = t.at? q := by
  induction ls generalizing t q with
  | nil => rfl
  | cons l ls ih => rw [fillAll, address_cons, List.append_assoc, ih, List.singleton_append, at?_fill]

/-- The name belongs to the scope that the node opened. -/
def Owns (l : Enclosure) (name : String) : Prop := ∃ names, l.owned = some names ∧ name ∈ names

/-- The address leads into the scope of the node, around which the outer nodes stand. -/
def Holds (l : Enclosure) (outer : List Enclosure) (q : List Nat) : Prop :=
  ∃ i q', q = address outer ++ i :: q' ∧ l.form.encloses i = true

end Enclosure

theorem Tree.uses_le_scopeUses (name : String) {f : Form} {ts : List Tree} {i : Nat} {p : Tree} (hp : ts[i]? = some p) (k : Nat)
    (he : f.encloses (k + i) = true) : p.uses name ≤ scopeUses f name k ts := by
  induction ts generalizing k i with
  | nil => exact absurd hp (by simp)
  | cons t ts ih =>
    rw [scopeUses]
    cases i with
    | zero =>
      obtain rfl := Option.some.inj hp
      rw [Nat.add_zero] at he
      rw [if_pos he]
      exact Nat.le_add_right ..
    | succ i =>
      rw [← Nat.add_assoc, Nat.add_right_comm] at he
      exact (ih hp _ he).trans (Nat.le_add_left ..)

namespace Enclosure

/-- The uses in another part count on their own. -/
theorem uses_beside (name : String) (l : Enclosure) {t p : Tree} {i : Nat} (hl : l.form.encloses l.before.length = true)
    (hp : (l.parts t)[i]? = some p) (hi : i ≠ l.before.length) (he : l.form.encloses i = true) :
    p.uses name + t.uses name ≤ scopeUses l.form name 0 (l.parts t) := by
  rw [parts] at hp
  rw [parts, scopeUses_append, scopeUses, Nat.zero_add, if_pos hl]
  rcases Nat.lt_or_gt_of_ne hi with h | h
  · rw [List.getElem?_append_left h] at hp
    have := uses_le_scopeUses name hp 0 (by rwa [Nat.zero_add])
    omega
  · obtain ⟨j, rfl⟩ := Nat.exists_eq_add_of_lt h
    rw [List.getElem?_append_right (by omega), show l.before.length + j + 1 - l.before.length = j + 1 by omega,
      List.getElem?_cons_succ] at hp
    have := uses_le_scopeUses name hp (l.before.length + 1) (by rwa [Nat.add_right_comm])
    omega

theorem uses_fill_eq (name : String) (l : Enclosure) (t : Tree) :
    (l.fill t).uses name = (ownReferences l.form).count name + scopeUses .block name 0 (l.parts t) := by
  rw [fill, uses_node, scopeUses_eq_sum rfl]

theorem uses_le_fillAll (name : String) (ls : List Enclosure) (t : Tree) : t.uses name ≤ (fillAll ls t).uses name := by
  induction ls generalizing t with
  | nil => exact Nat.le_refl _
  | cons l ls ih =>
    refine Nat.le_trans ?_ (ih _)
    rw [uses_fill_eq, parts, scopeUses_append, scopeUses, if_pos (encloses_of_isFunction rfl _)]
    omega

variable {name : String}

/-- A use elsewhere in the program is one more than those in the expression. -/
theorem uses_lt_fillAll {ls : List Enclosure} {t : Tree} {q : List Nat} (hq : (fillAll ls t).Uses name q)
    (h : ¬ address ls <+: q) : t.uses name < (fillAll ls t).uses name := by
  induction ls generalizing t with
  | nil => exact absurd (List.nil_prefix) h
  | cons l ls ih =>
    rw [fillAll] at hq ⊢
    by_cases hp : address ls <+: q
    · obtain ⟨q', rfl⟩ := hp
      rw [Uses, at?_fillAll] at hq
      refine Nat.lt_of_lt_of_le ?_ (uses_le_fillAll name ls _)
      cases q' with
      | nil =>
        obtain ⟨-, hparts⟩ := Tree.node.inj (Option.some.inj hq)
        exact absurd hparts (by simp [parts])
      | cons i q' =>
        obtain ⟨p, hp, hq⟩ := uses_cons hq
        have hi : i ≠ l.before.length := by
          rintro rfl
          rw [address_cons, List.prefix_append_right_inj] at h
          exact h (by simp)
        have hbeside : p.uses name + t.uses name ≤ scopeUses .block name 0 (l.parts t) :=
          uses_beside name ⟨.block, l.before, l.after, none⟩ rfl hp hi rfl
        have := hq.pos
        rw [uses_fill_eq]
        omega
    · have hle := uses_le_fillAll name [l] t
      exact Nat.lt_of_le_of_lt hle (ih hq hp)

/-- If the scope of a node has no more uses than the expression in it, they all stand there. -/
theorem address_prefix {l : Enclosure} {inner outer : List Enclosure} {t : Tree} (hl : l.form.encloses l.before.length = true)
    (huses : scopeUses l.form name 0 (l.parts (fillAll inner t)) ≤ t.uses name) {q : List Nat}
    (hq : (fillAll (inner ++ l :: outer) t).Uses name q) (hscope : l.Holds outer q) :
    address (inner ++ l :: outer) <+: q := by
  obtain ⟨i, q', rfl, he⟩ := hscope
  rw [fillAll_append, fillAll, Uses, at?_fillAll] at hq
  rw [address_append, address_cons, List.append_assoc, List.prefix_append_right_inj, List.singleton_append]
  obtain ⟨p, hp, hq⟩ := uses_cons hq
  have hle := uses_le_fillAll name inner t
  by_cases hi : i = l.before.length
  · subst hi
    rw [List.prefix_cons_inj]
    have hp' : p = fillAll inner t := by simpa [parts] using hp.symm
    subst hp'
    by_contra h
    have hlt := uses_lt_fillAll hq h
    have hown := uses_le_scopeUses name hp 0 (by rwa [Nat.zero_add])
    omega
  · have := l.uses_beside name hl hp hi he
    have := hq.pos
    omega

end Enclosure

/-! ## Owners -/

/-- The frame that owns a name is the one of the innermost scope that does, and it knows of the uses in it. -/
theorem Fits.owner {ls : List Enclosure} {t : Tree} {frames : List Frame} (h : Fits ls t frames) {name : String} {frame : Frame}
    (hf : frames.find? (fun f => f.owned.contains name) = some frame) :
    ∃ inner l outer, ls = inner ++ l :: outer ∧ l.Owns name ∧ (∀ k ∈ inner, ¬ k.Owns name) ∧
      scopeUses l.form name 0 (l.parts (Enclosure.fillAll inner t)) ≤ frame.tally.get name := by
  induction ls generalizing t frames with
  | nil =>
    rw [Fits] at h
    rw [h] at hf
    exact absurd hf (by simp)
  | cons l ls ih =>
    have hrest : ∀ {frames}, Fits ls (l.fill t) frames → frames.find? (fun f => f.owned.contains name) = some frame →
        ¬ l.Owns name → ∃ inner l' outer, l :: ls = inner ++ l' :: outer ∧ l'.Owns name ∧ (∀ k ∈ inner, ¬ k.Owns name) ∧
          scopeUses l'.form name 0 (l'.parts (Enclosure.fillAll inner t)) ≤ frame.tally.get name := by
      intro frames h hf hl
      obtain ⟨inner, l', outer, rfl, howns, hinner, huses⟩ := ih h hf
      exact ⟨l :: inner, l', outer, rfl, howns, by simpa using ⟨hl, hinner⟩, huses⟩
    unfold Fits at h
    cases ho : l.owned with
    | none =>
      rw [ho] at h
      refine hrest h hf ?_
      rintro ⟨names, hn, -⟩
      exact absurd (ho.symm.trans hn) (by simp)
    | some names =>
      rw [ho] at h
      obtain ⟨first, rest, rfl, hnames, huses, h⟩ := h
      rw [List.find?_cons] at hf
      split at hf
      · rename_i hc
        obtain rfl := Option.some.inj hf
        rw [hnames, List.contains_iff_mem] at hc
        exact ⟨[], l, ls, rfl, ⟨names, ho, hc⟩, by simp, huses name⟩
      · rename_i hc
        refine hrest h hf ?_
        rintro ⟨names', hn, hmem⟩
        obtain rfl := Option.some.inj (ho.symm.trans hn)
        rw [hnames] at hc
        exact absurd (List.contains_iff_mem.2 hmem) (by rw [hc]; simp)

/-- What an accepted rewrite was tested for: the replacement does not read a variable that it assigns less often, and the scope that
owns the name has no other uses of it. -/
theorem Sweep.dropped_of_tryRewrite {o : Options} {t u : Tree} {s s' : Sweep} (h : tryRewrite o t s = some (u, s')) {name : String}
    (hn : u.assignmentCount name < t.assignmentCount name) :
    u.Unread name ∧ ∃ frame, s.frames.find? (fun f => f.owned.contains name) = some frame ∧ frame.tally.get name = t.uses name := by
  obtain ⟨r, kind, -, ha⟩ := accept_of_tryRewrite h
  obtain ⟨hlocal, rfl, -⟩ := accept_eq_some ha
  have hmem : name ∈ t.assigned := by
    rw [assigned, List.mem_eraseDups]
    exact List.count_pos_iff.1 (Nat.zero_lt_of_lt hn)
  have hdrops := List.all_eq_true.1 hlocal name hmem
  unfold dropsSafely at hdrops
  simp only at hdrops
  split at hdrops
  · omega
  · split at hdrops
    · exact absurd hdrops (by simp)
    · have hle := assignmentCount_le_uses name r.expr
      refine ⟨by unfold Unread; omega, ?_⟩
      split at hdrops
      · rename_i frame hframe
        exact ⟨frame, hframe, by simpa using hdrops⟩
      · exact absurd hdrops (by simp)

/-! ## What is lost -/

section

variable {name : String} {l : Enclosure} {inner outer : List Enclosure} {t : Tree}

/-- What is in the expression is in the scopes around it. -/
theorem Enclosure.holds_of_prefix (hl : l.form.encloses l.before.length = true) {q : List Nat}
    (hq : address (inner ++ l :: outer) <+: q) : l.Holds outer q := by
  obtain ⟨q', rfl⟩ := hq
  rw [address_append, address_cons, List.append_assoc, List.append_assoc, List.singleton_append]
  exact ⟨_, _, rfl, hl⟩

/-- A variable that is bound by a scope or inside of it is used in that scope only. -/
theorem Tree.confined_of_binder (hl : l.form.encloses l.before.length = true) {q b : List Nat}
    (hq : Enclosure.address (inner ++ l :: outer) <+: q) (hb : (Enclosure.fillAll (inner ++ l :: outer) t).binder? name q = some b)
    (hbound : Enclosure.address outer <+: b) (hexport : ¬ (Enclosure.fillAll (inner ++ l :: outer) t).Exports name b) :
    (Enclosure.fillAll (inner ++ l :: outer) t).Confined name q (l.Holds outer) := by
  refine ⟨b, hb, hexport, fun q' _ hb' => ?_⟩
  obtain ⟨b', rfl⟩ := hbound
  obtain ⟨i, rest, u, rfl, hu, hbinds⟩ := binds_of_binder? hb'
  cases b' with
  | nil =>
    refine ⟨i, rest, by simp, ?_⟩
    rw [Enclosure.fillAll_append, Enclosure.fillAll, List.append_nil] at hu
    have hat := Enclosure.at?_fillAll outer (l.fill (Enclosure.fillAll inner t)) []
    rw [List.append_nil] at hat
    obtain rfl := Option.some.inj (hat.symm.trans hu)
    exact encloses_of_binds hbinds
  | cons j b' =>
    refine ⟨j, b' ++ i :: rest, by simp, ?_⟩
    obtain ⟨_, rest', _, heq, -⟩ := binds_of_binder? hb
    obtain ⟨j', q', hq', hj'⟩ := Enclosure.holds_of_prefix hl hq
    rw [hq', List.append_assoc, List.append_cancel_left_eq, List.cons_append, List.cons.injEq] at heq
    rw [← heq.1]
    exact hj'

end

namespace Sweep

/-- The address of the expression that is tried. -/
def Moment.address (m : Moment) : List Nat := Enclosure.address m.around

/-- The innermost node whose scope owns the name, and the nodes around that one. -/
def Moment.OwnedBy (m : Moment) (name : String) (l : Enclosure) (outer : List Enclosure) : Prop :=
  ∃ inner, m.around = inner ++ l :: outer ∧ l.Owns name ∧ ∀ k ∈ inner, ¬ k.Owns name

/-- A name has one owner. -/
theorem Moment.OwnedBy.unique {m : Moment} {name : String} {l l' : Enclosure} {outer outer' : List Enclosure}
    (h : m.OwnedBy name l outer) (h' : m.OwnedBy name l' outer') : l = l' ∧ outer = outer' := by
  obtain ⟨inner, haround, howns, hinner⟩ := h
  obtain ⟨inner', haround', howns', hinner'⟩ := h'
  rw [haround] at haround'
  clear haround
  induction inner generalizing inner' with
  | nil =>
    cases inner' with
    | nil => exact List.cons.inj haround'
    | cons k inner' =>
      obtain ⟨rfl, -⟩ := List.cons.inj haround'
      exact absurd howns (hinner' _ (by simp))
  | cons k inner ih =>
    cases inner' with
    | nil =>
      obtain ⟨rfl, -⟩ := List.cons.inj haround'
      exact absurd howns' (hinner _ (by simp))
    | cons k' inner' =>
      simp only [List.mem_cons, forall_eq_or_imp] at hinner hinner'
      exact ih hinner.2 inner' (List.cons.inj haround').2 hinner'.2

/-- Whenever an expression is replaced by one that assigns a variable less often, the replacement does not read the variable; and
whichever place of the expression assigned it, all its uses in the program lie in the expression, and it is declared and not
exported, exactly if this is so within the innermost scope that owns the name. A binder in that scope and no export are enough. -/
theorem Reaches.dropped {o : Options} {ss : List Tree} {m : Moment} (h : Reaches o ss m) (hss : ∀ s ∈ ss, s.IsRegular) {u : Tree}
    {s' : Sweep} (hr : tryRewrite o m.candidate m.state = some (u, s')) {name : String}
    (hn : u.assignmentCount name < m.candidate.assignmentCount name) :
    u.OnlyAssigns name ∧ ∃ l outer, m.OwnedBy name l outer ∧ ∀ q, m.address <+: q → m.program.Assigns name q →
      (m.program.Confined name (q ++ [0]) (m.address <+: ·) ↔ m.program.Confined name (q ++ [0]) (l.Holds outer)) ∧
      ∀ b, m.program.binder? name (q ++ [0]) = some b → Enclosure.address outer <+: b → ¬ m.program.Exports name b →
        m.program.Confined name (q ++ [0]) (m.address <+: ·) := by
  obtain ⟨hcovered, hfits⟩ := h.fits hss (isBranching_of_tryRewrite hr)
  obtain ⟨hread, frame, hframe, htally⟩ := dropped_of_tryRewrite hr hn
  obtain ⟨inner, l, outer, haround, howns, hinner, huses⟩ := hfits.owner hframe
  refine ⟨onlyAssigns_of_unread hread, l, outer, ⟨inner, haround, howns, hinner⟩, fun q hq _ => ?_⟩
  obtain ⟨names, hnames, -⟩ := howns
  have hl : l.form.encloses l.before.length = true := hcovered l (by rw [haround]; simp) (by rw [hnames]; rfl)
  rw [htally] at huses
  have hiff : m.program.Confined name (q ++ [0]) (m.address <+: ·) ↔ m.program.Confined name (q ++ [0]) (l.Holds outer) := by
    unfold Moment.program Moment.address
    rw [haround]
    constructor
    · rintro ⟨b, hb, hexport, hinside⟩
      exact ⟨b, hb, hexport, fun q' hq' hb' => Enclosure.holds_of_prefix hl (hinside q' hq' hb')⟩
    · rintro ⟨b, hb, hexport, hinside⟩
      exact ⟨b, hb, hexport, fun q' hq' hb' => Enclosure.address_prefix hl huses hq' (hinside q' hq' hb')⟩
  refine ⟨hiff, fun b hb hbound hexport => hiff.2 ?_⟩
  unfold Moment.program Moment.address at *
  rw [haround] at hq hb hexport ⊢
  exact confined_of_binder hl (hq.trans (List.prefix_append ..)) hb hbound hexport

namespace LocalityWitness

/-- `t` is declared. -/
def declaration (kind : VariableKind) : Tree := .node (.declaration kind) [.node .declarator [.binding "t", .absent, .absent]]

/-- `(t = a.b) == null ? void 0 : t.c` -/
def guarded : Tree :=
  .conditional (.binary .eq (.assign .plain (.reference "t") (.member (.reference "a") "b" false)) .null)
    (.unary .void (.number .zero)) (.member (.reference "t") "c" false)

/-- `a.b?.c` -/
def linked : Tree := .chain (.member (.member (.reference "a") "b" false) "c" true)

def header : Form := .function true false false false

/-- The parts of `function f(a) { first; return (t = a.b) == null ? void 0 : t.c; }` -/
def functionParts (first : Tree) : List Tree :=
  [.binding "f", .node .parameters [.node (.parameter false) [.binding "a", .absent, .absent]], .absent] ++
    .node (.body []) ([first] ++ .node .returnStmt ([] ++ guarded :: []) :: []) :: []

/-- `use(t);` -/
def use : Tree := .node .expressionStmt [.call (.reference "use") [.reference "t"] false]

/-- The function between some statements and `use(t);`. -/
def program (before : List Tree) (first : Tree) : List Tree := before ++ .node header (functionParts first) :: [use]

/-- The conditional is tried. -/
def moment (before : List Tree) (first : Tree) : Moment where
  around :=
    [⟨.returnStmt, [], [], none⟩, ⟨.body [], [first], [], none⟩, ⟨header, (functionParts first).take 3, [], Scope.ownedBy header (functionParts first)⟩,
      ⟨.body [], before, [use], some (Scope.owned ⟨none, program before first⟩)⟩]
  candidate := guarded
  state := (entered (program before first)).enter header (functionParts first)

/-- It is tried wherever the function stands. -/
theorem tries {first : Tree} (hfirst : first.isQuiet = true) (d : Nat) (s : Sweep) :
    Tries {} d (.node header (functionParts first)) s
      [⟨.returnStmt, [], [], none⟩, ⟨.body [], [first], [], none⟩,
        ⟨header, (functionParts first).take 3, [], Scope.ownedBy header (functionParts first)⟩]
      guarded (s.enter header (functionParts first)) := by
  have hreturn : ∀ d s, Tries {} d (.node .returnStmt ([] ++ guarded :: [])) s ([] ++ [⟨.returnStmt, [], [], none⟩]) guarded s :=
    fun d s => .part (.kept rfl) (visitAll_of_isQuiet d (by simp) s) .first
  have hbody : ∀ d s, Tries {} d (.node (.body []) ([first] ++ .node .returnStmt ([] ++ guarded :: []) :: [])) s
      ([⟨.returnStmt, [], [], none⟩] ++ [⟨.body [], [first], [], none⟩]) guarded s :=
    fun d s => .part (.kept rfl) (visitAll_of_isQuiet d (by simpa using hfirst) s) (hreturn d s)
  exact .part (.kept rfl) (visitAll_of_isQuiet _ (by decide) _) (hbody _ _)

theorem reaches {before : List Tree} {first : Tree} (hbefore : ∀ s ∈ before, s.isQuiet = true) (hfirst : first.isQuiet = true) :
    Reaches {} (program before first) (moment before first) := .now (visitAll_of_isQuiet _ hbefore _) (tries hfirst _ _)

end LocalityWitness

open LocalityWitness

/-- `function f(a) { var t; return (t = a.b) == null ? void 0 : t.c; } use(t);`, where the last `t` is another variable. -/
theorem Reaches.dropped_var : Reaches {} (program [] (declaration .var)) (moment [] (declaration .var)) ∧
    (∃ s', tryRewrite {} guarded (moment [] (declaration .var)).state = some (linked, s')) ∧
    linked.assignmentCount "t" < guarded.assignmentCount "t" ∧ linked.OnlyAssigns "t" ∧
    (moment [] (declaration .var)).program.Confined "t" [0, 3, 1, 0, 0, 0, 0] ([0, 3, 1, 0] <+: ·) := by
  have hreach : Reaches {} (program [] (declaration .var)) (moment [] (declaration .var)) := reaches (by simp) rfl
  obtain ⟨s', hr⟩ : ∃ s', tryRewrite {} guarded (moment [] (declaration .var)).state = some (linked, s') := ⟨_, rfl⟩
  obtain ⟨honly, l, outer, howned, hall⟩ := hreach.dropped (by decide) hr
    (show linked.assignmentCount "t" < guarded.assignmentCount "t" by decide)
  have hown : (moment [] (declaration .var)).OwnedBy "t"
      ⟨header, (functionParts (declaration .var)).take 3, [], some ["t", "a"]⟩
      [⟨.body [], [], [use], some (Scope.owned ⟨none, program [] (declaration .var)⟩)⟩] :=
    ⟨[⟨.returnStmt, [], [], none⟩, ⟨.body [], [declaration .var], [], none⟩], rfl, ⟨_, rfl, by simp⟩, by simp [Enclosure.Owns]⟩
  obtain ⟨rfl, rfl⟩ := howned.unique hown
  refine ⟨hreach, ⟨s', hr⟩, by decide, honly, ?_⟩
  exact (hall [0, 3, 1, 0, 0, 0] (by decide) ⟨_, rfl⟩).2 [0, 3] rfl (by decide) (by simp [Exports])

/-- A variable is lost that is used elsewhere: in `var t; function f(a) { { let t; } return (t = a.b) == null ? void 0 : t.c; } use(t);`
the function owns the name `t`, but the `t` that it assigns is the one of the program, and `use(t)` no longer gets `a.b`. -/
theorem Reaches.dropped_false : ¬ ∀ (o : Options) (ss : List Tree) (m : Moment) (u : Tree) (s' : Sweep) (name : String),
    (∀ s ∈ ss, s.IsRegular) → Reaches o ss m → tryRewrite o m.candidate m.state = some (u, s') →
    u.assignmentCount name < m.candidate.assignmentCount name →
    ∀ q, m.address <+: q → m.program.Assigns name q → m.program.Confined name (q ++ [0]) (m.address <+: ·) := by
  intro h
  have hreach : Reaches {} (program [declaration .var] (.node .block [declaration .letVar]))
      (moment [declaration .var] (.node .block [declaration .letVar])) := reaches (by decide) rfl
  obtain ⟨b, hb, -, hinside⟩ := h {} _ _ linked _ "t" (by decide) hreach rfl (by decide) [1, 3, 1, 0, 0, 0] (by decide) ⟨_, rfl⟩
  obtain rfl := Option.some.inj hb
  exact absurd (hinside [2, 0, 1] rfl rfl) (by decide)

end Sweep

end Chainlift

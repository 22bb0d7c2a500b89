import Chainlift.Proofs.Congruence
import Chainlift.Proofs.Links

/-!
# Places and the values that take their stead

Some forms take a part as the variable or property that it is: a callee passes its object on, `delete` removes, `typeof` asks for
a variable that may not exist, an assignment writes. An assignment `n = a.b` is no place but a value, and unwrapping it leaves
a place (`Tree.place?`). That must not happen where a place is taken (`Tree.keepsPlaces`); everywhere else it makes no difference.
What an expression has to satisfy for that is kept while variables are unwrapped one after the other (`Tree.everywhere_unwrap`).
-/

namespace Chainlift

namespace Form

/-- Expressions have a value. The other forms are what expressions are put together from, and statements. -/
def isExpression : Form → Bool
  | .reference _ | .this | .superObject | .newTarget | .importMeta => true
  | .null | .bool _ | .number _ | .bigint _ | .string _ | .regexp .. | .template _ => true
  | .array | .object | .function .. | .arrow .. | .classDef _ => true
  | .member .. | .index _ | .privateMember .. | .call _ | .construct | .importCall | .tagged => true
  | .unary _ | .update .. | .binary _ | .logical _ | .conditional | .assign _ | .sequence => true
  | .yield _ | .await | .chain | .privateIn _ | .nonNull | .asType | .satisfiesType => true
  | _ => false

/-- A variable that is called, or used as a tag, is as good as its value. -/
def takesVariables : Form → Bool
  | .call _ | .tagged => false
  | _ => true

/-- A property of something. -/
def isAccess : Form → Bool
  | .member .. | .index _ | .privateMember .. => true
  | _ => false

theorem taken_map (f : Form) (g : Tree → Tree) (ps : List Tree) : f.taken (ps.map g) = (f.taken ps).map g := by
  unfold taken
  split <;> simp [List.map_take]

theorem mem_of_mem_taken {f : Form} {ps : List Tree} {p : Tree} (h : p ∈ f.taken ps) : p ∈ ps := by
  unfold taken at h
  split at h
  all_goals first | exact List.mem_of_mem_take h | exact List.mem_of_mem_drop h | exact h | exact absurd h (by simp)

end Form

namespace Tree

/-! ## What is taken -/

/-- The variable or property that the expression is, once assignments to the names are unwrapped. Chains, assertions and types
make no difference, and a variable counts only if asked for. -/
def place? (names : List String) (strict : Bool) : Tree → Option Form
  | .node f ps => match f, ps with
    | .assign .plain, [target, v] => if target.asVariable?.any names.contains then v.place? names strict else none
    | .chain, [t] | .nonNull, [t] => t.place? names strict
    | .asType, t :: _ | .satisfiesType, t :: _ => t.place? names strict
    | .reference n, _ => if strict then some (.reference n) else none
    | .member name link, _ => some (.member name link)
    | .index link, _ => some (.index link)
    | .privateMember name link, _ => some (.privateMember name link)
    | _, _ => none

mutual

/-- The property holds of every node outside nested functions. -/
def everywhere (p : Form → List Tree → Bool) : Tree → Bool
  | .node f ps => f.isFunction || (p f ps && everywhereAll p ps)

def everywhereAll (p : Form → List Tree → Bool) : List Tree → Bool
  | [] => true
  | t :: ts => t.everywhere p && everywhereAll p ts

end

/-- What is assigned is an expression without an open link, and it is not assigned to an assignment: so it is in every program. -/
def assignsValue : Form → List Tree → Bool
  | .assign .plain, [target, v] => target.assignment?.isNone && v.form.isExpression && !v.hasLink
  | .assign .plain, _ => false
  | _, _ => true

/-- Where a place is taken, unwrapping makes none of what is a value. -/
def keepsPlaces (names : List String) (f : Form) (ps : List Tree) : Bool :=
  (f.taken ps).all fun p => p.place? names f.takesVariables == p.place? [] f.takesVariables

/-- The expression is a property of an assigned variable, perhaps one that was assigned to variables itself. -/
def isOnAssigned : Tree → Bool
  | .node f ps => match f, ps with
    | .assign .plain, [target, v] => target.asVariable?.isSome && v.isOnAssigned
    | .member .., object :: _ | .index _, object :: _ | .privateMember .., object :: _ => object.assignment?.isSome
    | _, _ => false

/-- The node is no call by `call` or `apply` of a method of an assigned variable. -/
def callsUnassigned : Form → List Tree → Bool
  | .call _, .node (.member word _) [function] :: _ => !(word == "call" || word == "apply") || !function.isOnAssigned
  | _, _ => true

theorem ne_spread {t : Tree} (h : t.form.isExpression = true) (u : Tree) : t ≠ .spread u := by
  rintro rfl
  exact Bool.false_ne_true h

theorem everywhereAll_iff {p : Form → List Tree → Bool} {ts : List Tree} :
    everywhereAll p ts = true ↔ ∀ t ∈ ts, t.everywhere p = true := by
  induction ts with
  | nil => simp [everywhereAll]
  | cons t ts ih => simp [everywhereAll, ih]

theorem everywhere_node {p : Form → List Tree → Bool} {f : Form} {ps : List Tree} (hf : f.isFunction = false) :
    (node f ps).everywhere p = true ↔ p f ps = true ∧ ∀ t ∈ ps, t.everywhere p = true := by
  rw [everywhere, hf, Bool.false_or, Bool.and_eq_true, everywhereAll_iff]

theorem everywhere_mono {p q : Form → List Tree → Bool} (h : ∀ f ps, p f ps = true → q f ps = true) {t : Tree}
    (ht : t.everywhere p = true) : t.everywhere q = true := by
  induction t with
  | node f ps ih =>
    cases hf : f.isFunction with
    | true => rw [everywhere, hf, Bool.true_or]
    | false =>
      obtain ⟨hnode, hps⟩ := (everywhere_node hf).1 ht
      exact (everywhere_node hf).2 ⟨h f ps hnode, fun t ht => ih t ht (hps t ht)⟩

theorem everywhere_and {p q : Form → List Tree → Bool} {t : Tree} :
    t.everywhere (fun f ps => p f ps && q f ps) = true ↔ t.everywhere p = true ∧ t.everywhere q = true := by
  constructor
  · intro h
    exact ⟨everywhere_mono (by simp +contextual) h, everywhere_mono (by simp +contextual) h⟩
  · rintro ⟨hp, hq⟩
    induction t with
    | node f ps ih =>
      cases hf : f.isFunction with
      | true => rw [everywhere, hf, Bool.true_or]
      | false =>
        obtain ⟨hpnode, hpps⟩ := (everywhere_node hf).1 hp
        obtain ⟨hqnode, hqps⟩ := (everywhere_node hf).1 hq
        exact (everywhere_node hf).2 ⟨by simp [hpnode, hqnode], fun t ht => ih t ht (hpps t ht) (hqps t ht)⟩

/-! ## Unwrapping -/

variable {n : String}

theorem everywhere_parts {p : Form → List Tree → Bool} {f : Form} {ps : List Tree} (hf : f.isFunction = false)
    (h : (node f ps).everywhere p = true) : ∀ t ∈ ps, t.everywhere p = true := ((everywhere_node hf).1 h).2

theorem exists_of_assignsValue {ps : List Tree} (h : assignsValue (.assign .plain) ps = true) :
    ∃ target v, ps = [target, v] ∧ target.assignment? = none ∧ v.form.isExpression = true ∧ v.hasLink = false := by
  unfold assignsValue at h
  split at h
  · rename_i target v heq
    simp only [Bool.and_eq_true, Option.isNone_iff_eq_none, Bool.not_eq_true'] at h
    exact ⟨target, v, rfl, h.1.1, h.1.2, h.2⟩
  · exact absurd h (by simp)
  · rename_i hnot _
    exact absurd rfl hnot

/-- The tree is an assignment to the variable, or a function, or nothing but its parts is unwrapped. -/
theorem unwrap_cases {f : Form} {ps : List Tree} (ht : (node f ps).everywhere assignsValue = true) :
    (∃ v, node f ps = .assign .plain (.reference n) v) ∨ (f.isFunction = true ∧ (node f ps).unwrap n = node f ps) ∨
      (f.isFunction = false ∧ (node f ps).unwrap n = .node f (ps.map (unwrap n))) := by
  generalize htree : node f ps = t at ht
  induction t generalizing f ps with
  | node g qs ih =>
    obtain ⟨rfl, rfl⟩ := node.inj htree
    cases hf : f.isFunction with
    | true => exact .inr (.inl ⟨rfl, by rw [unwrap, if_pos hf]⟩)
    | false =>
      by_cases hassign : f = .assign .plain
      · subst hassign
        obtain ⟨hnode, hps⟩ := (everywhere_node hf).1 ht
        obtain ⟨target, v, rfl, htarget, -, -⟩ := exists_of_assignsValue hnode
        by_cases hreference : ∃ m, target = .reference m
        · obtain ⟨m, rfl⟩ := hreference
          by_cases hm : m = n
          · exact .inl ⟨v, by rw [hm]⟩
          · refine .inr (.inr ⟨rfl, ?_⟩)
            rw [unwrap_assign, if_neg hm]
            simp [unwrap, unwrapAll, unwrapOne, assignment?, Form.isFunction]
        · refine .inr (.inr ⟨rfl, ?_⟩)
          rw [unwrap, if_neg (by simp [hf]), unwrapAll_eq_map, unwrapOne]
          split
          · rename_i m w heq
            have hparts := (Tree.node.inj (eq_of_assignment? heq)).2
            obtain ⟨hm, -⟩ := List.cons.inj hparts
            obtain ⟨g, qs⟩ := target
            rcases ih (node g qs) (by simp) rfl (hps _ (by simp)) with ⟨w, heq⟩ | ⟨-, hself⟩ | ⟨-, hnode⟩
            · rw [heq] at htarget
              exact absurd htarget (by simp [assignment?])
            · exact absurd ⟨m, hself.symm.trans hm⟩ hreference
            · obtain ⟨rfl, hnil⟩ := Tree.node.inj (hnode.symm.trans hm)
              obtain rfl : qs = [] := List.map_eq_nil_iff.1 hnil
              exact absurd ⟨m, rfl⟩ hreference
          · rfl
      · exact .inr (.inr ⟨rfl, unwrap_node hf hassign n ps⟩)

/-- Which place an expression is depends on its form, on the part that it is around and on the variable that it assigns. -/
theorem place?_map {names : List String} {strict : Bool} {f : Form} {ps : List Tree} {g : Tree → Tree}
    (hg : ∀ p ∈ ps, (g p).place? names strict = p.place? names strict)
    (htarget : f = .assign .plain → ∀ p ∈ ps.head?, (g p).asVariable? = p.asVariable?) :
    (node f (ps.map g)).place? names strict = (node f ps).place? names strict := by
  rcases ps with _ | ⟨p, _ | ⟨q, _ | ⟨r, ps⟩⟩⟩
  · rfl
  · simp only [List.mem_singleton, forall_eq] at hg
    cases f <;> simp [place?, hg]
  · simp only [List.mem_cons, List.not_mem_nil, or_false, forall_eq_or_imp, forall_eq] at hg
    by_cases hf : f = .assign .plain
    · subst hf
      have := htarget rfl p rfl
      simp [place?, hg, this]
    · cases f with
      | assign op => cases op <;> simp_all [place?]
      | _ => simp [place?, hg]
  · cases f <;> simp [place?, hg]

theorem asVariable?_map (f : Form) (ps : List Tree) (g : Tree → Tree) :
    (node f (ps.map g)).asVariable? = (node f ps).asVariable? := by
  cases ps with
  | nil => rfl
  | cons p ps => cases f <;> rfl

theorem asVariable?_unwrap {t : Tree} (ht : t.everywhere assignsValue = true) (ha : t.assignment? = none) :
    (t.unwrap n).asVariable? = t.asVariable? := by
  obtain ⟨f, ps⟩ := t
  rcases unwrap_cases (n := n) ht with ⟨v, heq⟩ | ⟨-, hself⟩ | ⟨-, hnode⟩
  · rw [heq] at ha
    exact absurd ha (by simp [assignment?])
  · rw [hself]
  · rw [hnode, asVariable?_map]

/-- In the target of an assignment that stays, the variable stays. -/
theorem asVariable?_target {ps : List Tree} (hnode : assignsValue (.assign .plain) ps = true)
    (hps : ∀ p ∈ ps, p.everywhere assignsValue = true) : ∀ p ∈ ps.head?, (p.unwrap n).asVariable? = p.asVariable? := by
  obtain ⟨target, v, rfl, htarget, -, -⟩ := exists_of_assignsValue hnode
  intro p hp
  obtain rfl : target = p := by simpa using hp
  exact asVariable?_unwrap (hps target (by simp)) htarget

/-- A place that is reached through the variable stays what it is. -/
theorem place?_unwrap {names : List String} (hn : n ∈ names) (strict : Bool) {t : Tree} (ht : t.everywhere assignsValue = true) :
    (t.unwrap n).place? names strict = t.place? names strict := by
  induction t with
  | node f ps ih =>
    rcases unwrap_cases (n := n) ht with ⟨v, heq⟩ | ⟨-, hself⟩ | ⟨hf, hnode⟩
    · obtain ⟨rfl, rfl⟩ := node.inj heq
      rw [unwrap_assign, if_pos rfl, ih v (by simp) (everywhere_parts rfl ht v (by simp)), place?]
      simp [asVariable?, hn]
    · rw [hself]
    · rw [hnode]
      obtain ⟨hown, hps⟩ := (everywhere_node hf).1 ht
      refine place?_map (fun p hp => ih p hp (hps p hp)) ?_
      rintro rfl
      exact asVariable?_target hown hps

/-- A place that is there before anything is unwrapped stays. -/
theorem place?_nil_unwrap {strict : Bool} {t : Tree} (ht : t.everywhere assignsValue = true) {g : Form}
    (h : t.place? [] strict = some g) : (t.unwrap n).place? [] strict = some g := by
  induction t with
  | node f ps ih =>
    have hnotAssign : f ≠ .assign .plain := by
      rintro rfl
      have hany : ∀ o : Option String, o.any ([] : List String).contains = false := by
        intro o
        cases o <;> rfl
      unfold place? at h
      split at h <;> simp_all
    rcases unwrap_cases (n := n) ht with ⟨v, heq⟩ | ⟨-, hself⟩ | ⟨hf, hnode⟩
    · exact absurd (node.inj heq).1 hnotAssign
    · rwa [hself]
    · have hparts := everywhere_parts hf ht
      rw [hnode]
      unfold place? at h
      split at h
      · exact absurd rfl hnotAssign
      · exact ih _ (by simp) (hparts _ (by simp)) h
      · exact ih _ (by simp) (hparts _ (by simp)) h
      · exact ih _ (by simp) (hparts _ (by simp)) h
      · exact ih _ (by simp) (hparts _ (by simp)) h
      all_goals first | (unfold place?; exact h) | exact absurd h (by simp)

/-- With more names, more places are seen. -/
theorem place?_mono {names names' : List String} (hsub : names' ⊆ names) {strict : Bool} {t : Tree} {g : Form}
    (h : t.place? names' strict = some g) : t.place? names strict = some g := by
  induction t with
  | node f ps ih =>
    unfold place? at h ⊢
    split at h
    · rename_i target v
      split at h
      · rename_i hany
        have hmem : target.asVariable?.any names.contains = true := by
          simp only [Option.any_eq_true, List.contains_iff_mem] at hany ⊢
          obtain ⟨m, hm, hmem⟩ := hany
          exact ⟨m, hm, hsub hmem⟩
        rw [if_pos hmem]
        exact ih v (by simp) h
      · exact absurd h (by simp)
    · exact ih _ (by simp) h
    · exact ih _ (by simp) h
    · exact ih _ (by simp) h
    · exact ih _ (by simp) h
    all_goals exact h

/-- The places that are no variables. -/
theorem place?_false (names : List String) (t : Tree) :
    t.place? names false = (t.place? names true).filter fun f => f.isAccess := by
  induction t with
  | node f ps ih =>
    unfold place?
    split
    · split
      · exact ih _ (by simp)
      · rfl
    · exact ih _ (by simp)
    · exact ih _ (by simp)
    · exact ih _ (by simp)
    · exact ih _ (by simp)
    all_goals rfl

/-- Fewer names hide no more places. -/
theorem place?_eq_of_subset {names names' : List String} (hsub : names' ⊆ names) {strict : Bool} {t : Tree}
    (h : t.place? names strict = t.place? [] strict) : t.place? names' strict = t.place? [] strict := by
  cases hplace : t.place? [] strict with
  | some g => exact place?_mono (List.nil_subset _) hplace
  | none =>
    rw [hplace] at h
    cases hplace' : t.place? names' strict with
    | none => rfl
    | some g => exact absurd (place?_mono hsub hplace') (by simp [h])

/-- If no place of an expression is hidden, unwrapping leaves its place. -/
theorem place?_eq_unwrap {names : List String} (hn : n ∈ names) {strict : Bool} {t : Tree}
    (ht : t.everywhere assignsValue = true) (h : t.place? names strict = t.place? [] strict) :
    (t.unwrap n).place? [] strict = t.place? [] strict := by
  cases hplace : t.place? [] strict with
  | some g => exact place?_nil_unwrap ht hplace
  | none =>
    cases hplace' : (t.unwrap n).place? [] strict with
    | none => rfl
    | some g =>
      have hnames := place?_mono (List.nil_subset names) hplace'
      rw [place?_unwrap hn strict ht, h, hplace] at hnames
      exact absurd hnames (by simp)

/-! ## What is kept -/

/-- The variables can be unwrapped in what is done at the node. -/
def allowsUnwrap (names : List String) (f : Form) (ps : List Tree) : Bool :=
  assignsValue f ps && keepsPlaces names f ps && callsUnassigned f ps

theorem assignment?_unwrap {t : Tree} (ht : t.everywhere assignsValue = true) (h : t.assignment? = none) :
    (t.unwrap n).assignment? = none := by
  obtain ⟨f, ps⟩ := t
  rcases unwrap_cases (n := n) ht with ⟨v, heq⟩ | ⟨-, hself⟩ | ⟨hf, hnode⟩
  · rw [heq] at h
    exact absurd h (by simp [assignment?])
  · rwa [hself]
  · rw [hnode]
    cases hassigned : (node f (ps.map (unwrap n))).assignment? with
    | none => rfl
    | some a =>
      obtain ⟨m, w⟩ := a
      obtain ⟨rfl, hparts⟩ := node.inj (eq_of_assignment? hassigned)
      obtain ⟨hown, hps⟩ := (everywhere_node hf).1 ht
      obtain ⟨target, v, rfl, -, -, -⟩ := exists_of_assignsValue hown
      have htarget := asVariable?_target (n := n) hown hps target rfl
      rw [(List.cons.inj hparts).1] at htarget
      rw [eq_of_asVariable? htarget.symm] at h
      exact absurd h (by simp [assignment?])

theorem isExpression_unwrap {t : Tree} (ht : t.everywhere assignsValue = true) (h : t.form.isExpression = true) :
    (t.unwrap n).form.isExpression = true := by
  induction t with
  | node f ps ih =>
    rcases unwrap_cases (n := n) ht with ⟨v, heq⟩ | ⟨-, hself⟩ | ⟨hf, hnode⟩
    · obtain ⟨rfl, rfl⟩ := node.inj heq
      obtain ⟨hown, hps⟩ := (everywhere_node rfl).1 ht
      obtain ⟨_, _, hlist, -, hv, -⟩ := exists_of_assignsValue hown
      obtain ⟨-, rfl⟩ : _ ∧ v = _ := by simpa using hlist
      rw [unwrap_assign, if_pos rfl]
      exact ih v (by simp) (hps v (by simp)) hv
    · rwa [hself]
    · rwa [hnode]

theorem hasLink_unwrap {t : Tree} (ht : t.everywhere assignsValue = true) (h : t.hasLink = false) :
    (t.unwrap n).hasLink = false := by
  induction t with
  | node f ps ih =>
    rcases unwrap_cases (n := n) ht with ⟨v, heq⟩ | ⟨-, hself⟩ | ⟨hf, hnode⟩
    · obtain ⟨rfl, rfl⟩ := node.inj heq
      obtain ⟨hown, hps⟩ := (everywhere_node rfl).1 ht
      obtain ⟨_, _, hlist, -, -, hv⟩ := exists_of_assignsValue hown
      obtain ⟨-, rfl⟩ : _ ∧ v = _ := by simpa using hlist
      rw [unwrap_assign, if_pos rfl]
      exact ih v (by simp) (hps v (by simp)) hv
    · rwa [hself]
    · have hps := everywhere_parts hf ht
      have hfirst : ∀ p ∈ ps, p.hasLink = false → (p.unwrap n).hasLink = false := fun p hp => ih p hp (hps p hp)
      rw [hnode]
      unfold hasLink
      split
      · rename_i heq
        obtain ⟨rfl, hparts⟩ := node.inj heq
        obtain ⟨p, ps, rfl, rfl, -⟩ := List.map_eq_cons_iff.1 hparts
        simp only [hasLink, Bool.or_eq_false_iff] at h ⊢
        exact ⟨h.1, hfirst p (by simp) h.2⟩
      · rename_i heq
        obtain ⟨rfl, hparts⟩ := node.inj heq
        obtain ⟨p, rfl, rfl⟩ := List.map_eq_singleton_iff.1 hparts
        exact hfirst p (by simp) h
      · rename_i heq
        obtain ⟨rfl, hparts⟩ := node.inj heq
        obtain ⟨p, rfl, rfl⟩ := List.map_eq_singleton_iff.1 hparts
        simp only [hasLink, Bool.or_eq_false_iff] at h ⊢
        exact ⟨h.1, hfirst p (by simp) h.2⟩
      · rename_i heq
        obtain ⟨rfl, hparts⟩ := node.inj heq
        obtain ⟨p, ps, rfl, rfl, hkey⟩ := List.map_eq_cons_iff.1 hparts
        obtain ⟨q, rfl, -⟩ := List.map_eq_singleton_iff.1 hkey
        simp only [hasLink, Bool.or_eq_false_iff] at h ⊢
        exact ⟨h.1, hfirst p (by simp) h.2⟩
      · rename_i heq
        obtain ⟨rfl, hparts⟩ := node.inj heq
        obtain ⟨p, rfl, rfl⟩ := List.map_eq_singleton_iff.1 hparts
        simp only [hasLink, Bool.or_eq_false_iff] at h ⊢
        exact ⟨h.1, hfirst p (by simp) h.2⟩
      · rfl

theorem isOnAssigned_unwrap {t : Tree} (ht : t.everywhere assignsValue = true) (h : t.isOnAssigned = false) :
    (t.unwrap n).isOnAssigned = false := by
  induction t with
  | node f ps ih =>
    rcases unwrap_cases (n := n) ht with ⟨v, heq⟩ | ⟨-, hself⟩ | ⟨hf, hnode⟩
    · obtain ⟨rfl, rfl⟩ := node.inj heq
      rw [unwrap_assign, if_pos rfl]
      refine ih v (by simp) (everywhere_parts rfl ht v (by simp)) ?_
      simpa [isOnAssigned, asVariable?] using h
    · rwa [hself]
    · obtain ⟨hown, hps⟩ := (everywhere_node hf).1 ht
      rw [hnode]
      have hassigned : ∀ p ∈ ps, p.assignment?.isSome = false → (p.unwrap n).assignment?.isSome = false := by
        intro p hp
        simp only [Option.isSome_eq_false_iff, Option.isNone_iff_eq_none]
        exact assignment?_unwrap (hps p hp)
      unfold isOnAssigned
      split
      · rename_i heq
        obtain ⟨target, qs, rfl, rfl, hv⟩ := List.map_eq_cons_iff.1 heq
        obtain ⟨v, rfl, rfl⟩ := List.map_eq_singleton_iff.1 hv
        rw [asVariable?_target hown hps target rfl]
        simp only [isOnAssigned, Bool.and_eq_false_iff] at h ⊢
        exact h.imp_right (ih v (by simp) (hps v (by simp)))
      · rename_i heq
        obtain ⟨p, qs, rfl, rfl, -⟩ := List.map_eq_cons_iff.1 heq
        exact hassigned p (by simp) h
      · rename_i heq
        obtain ⟨p, qs, rfl, rfl, -⟩ := List.map_eq_cons_iff.1 heq
        exact hassigned p (by simp) h
      · rename_i heq
        obtain ⟨p, qs, rfl, rfl, -⟩ := List.map_eq_cons_iff.1 heq
        exact hassigned p (by simp) h
      · rfl

theorem assignsValue_map {f : Form} {ps : List Tree} (h : assignsValue f ps = true)
    (hps : ∀ p ∈ ps, p.everywhere assignsValue = true) : assignsValue f (ps.map (unwrap n)) = true := by
  by_cases hf : f = .assign .plain
  · subst hf
    obtain ⟨target, v, rfl, htarget, hexpression, hlink⟩ := exists_of_assignsValue h
    simp only [List.mem_cons, List.not_mem_nil, or_false, forall_eq_or_imp, forall_eq] at hps
    simp [assignsValue, assignment?_unwrap hps.1 htarget, isExpression_unwrap hps.2 hexpression, hasLink_unwrap hps.2 hlink]
  · unfold assignsValue
    split
    · exact absurd rfl hf
    · exact absurd rfl hf
    · rfl

theorem keepsPlaces_map {names : List String} (hn : n ∈ names) {f : Form} {ps : List Tree} (h : keepsPlaces names f ps = true)
    (hps : ∀ p ∈ ps, p.everywhere assignsValue = true) : keepsPlaces names f (ps.map (unwrap n)) = true := by
  simp only [keepsPlaces, Form.taken_map, List.all_map, List.all_eq_true, Function.comp, beq_iff_eq] at h ⊢
  intro p hp
  have hp' := hps p (Form.mem_of_mem_taken hp)
  rw [place?_unwrap hn _ hp', place?_eq_unwrap hn hp' (h p hp), h p hp]

theorem callsUnassigned_map {names : List String} (hn : n ∈ names) {f : Form} {ps : List Tree} (h : callsUnassigned f ps = true)
    (hplaces : keepsPlaces names f ps = true) (hps : ∀ p ∈ ps, p.everywhere assignsValue = true) :
    callsUnassigned f (ps.map (unwrap n)) = true := by
  unfold callsUnassigned
  split
  · rename_i link word linked function args heq
    obtain ⟨callee, args, rfl, hcallee, -⟩ := List.map_eq_cons_iff.1 heq
    simp only [List.mem_cons, forall_eq_or_imp] at hps
    obtain ⟨g, qs⟩ := callee
    rcases unwrap_cases (n := n) hps.1 with ⟨v, hassign⟩ | ⟨hfunction, hself⟩ | ⟨hg, hnode⟩
    · -- the callee would be a property now, and was none before
      have hcalled : (node g qs).place? names false = some (.member word linked) := by
        rw [← place?_unwrap hn false hps.1, hcallee]
        rfl
      have hnone : (node g qs).place? [] false = none := by
        rw [hassign, place?, if_neg (by simp [asVariable?])]
      have hkept : (node g qs).place? names false = (node g qs).place? [] false := by
        simpa [keepsPlaces, Form.taken, Form.takesVariables] using hplaces
      exact absurd (hcalled.symm.trans (hkept.trans hnone)) (by simp)
    · rw [hself] at hcallee
      obtain ⟨rfl, -⟩ := node.inj hcallee
      exact absurd hfunction (by simp [Form.isFunction])
    · obtain ⟨rfl, hqs⟩ := node.inj (hnode.symm.trans hcallee)
      obtain ⟨p, rfl, rfl⟩ := List.map_eq_singleton_iff.1 hqs
      have hp : p.everywhere assignsValue = true := everywhere_parts hg hps.1 p (by simp)
      simp only [callsUnassigned, Bool.or_eq_true, Bool.not_eq_true'] at h ⊢
      exact h.imp_right (isOnAssigned_unwrap hp)
  · rfl

theorem allowsUnwrap_map {names : List String} (hn : n ∈ names) {f : Form} {ps : List Tree} (h : allowsUnwrap names f ps = true)
    (hps : ∀ p ∈ ps, p.everywhere assignsValue = true) : allowsUnwrap names f (ps.map (unwrap n)) = true := by
  simp only [allowsUnwrap, Bool.and_eq_true] at h ⊢
  exact ⟨⟨assignsValue_map h.1.1 hps, keepsPlaces_map hn h.1.2 hps⟩, callsUnassigned_map hn h.2 h.1.2 hps⟩

/-- Unwrapping keeps what allows it. -/
theorem everywhere_unwrap {names : List String} (hn : n ∈ names) {t : Tree} (ht : t.everywhere (allowsUnwrap names) = true) :
    (t.unwrap n).everywhere (allowsUnwrap names) = true := by
  have hvalues : ∀ {t : Tree}, t.everywhere (allowsUnwrap names) = true → t.everywhere assignsValue = true :=
    everywhere_mono (by simp +contextual [allowsUnwrap])
  induction t with
  | node f ps ih =>
    rcases unwrap_cases (n := n) (hvalues ht) with ⟨v, heq⟩ | ⟨-, hself⟩ | ⟨hf, hnode⟩
    · obtain ⟨rfl, rfl⟩ := node.inj heq
      rw [unwrap_assign, if_pos rfl]
      exact ih v (by simp) (everywhere_parts rfl ht v (by simp))
    · rwa [hself]
    · obtain ⟨hown, hps⟩ := (everywhere_node hf).1 ht
      rw [hnode, everywhere_node hf]
      refine ⟨?_, ?_⟩
      · exact allowsUnwrap_map hn hown (fun p hp => hvalues (hps p hp))
      · intro q hq
        obtain ⟨p, hp, rfl⟩ := List.mem_map.1 hq
        exact ih p hp (hps p hp)

theorem allowsUnwrap_mono {names names' : List String} (hsub : names' ⊆ names) {f : Form} {ps : List Tree}
    (h : allowsUnwrap names f ps = true) : allowsUnwrap names' f ps = true := by
  simp only [allowsUnwrap, keepsPlaces, Bool.and_eq_true, List.all_eq_true, beq_iff_eq] at h ⊢
  exact ⟨⟨h.1.1, fun p hp => place?_eq_of_subset hsub (h.1.2 p hp)⟩, h.2⟩

theorem directArguments_ofName? {word : String} {method : Method} (hm : Method.ofName? word = some method)
    {rest direct : List Tree} (h : method.directArguments rest = some direct) : (word == "call" || word == "apply") = true := by
  unfold Method.ofName? at hm
  split at hm
  · rfl
  · rfl
  · obtain rfl := Option.some.inj hm
    exact absurd h (by simp [Method.directArguments])
  · exact absurd hm (by simp)

/-- Without calls of methods of assigned variables there is no call to fold. -/
theorem foldCalls_of_callsUnassigned {t : Tree} (ht : t.everywhere callsUnassigned = true) : t.foldCalls n = t := by
  induction t with
  | node f ps ih =>
    cases hf : f.isFunction with
    | true => rw [foldCalls, if_pos hf]
    | false =>
      obtain ⟨hown, hps⟩ := (everywhere_node hf).1 ht
      have hmap : ps.map (foldCalls n) = ps := (List.map_congr_left fun p hp => ih p hp (hps p hp)).trans (List.map_id ps)
      rw [foldCalls_node hf, hmap]
      by_cases hcall : ∃ link callee args, f = .call link ∧ ps = callee :: args
      · obtain ⟨link, callee, args, rfl, rfl⟩ := hcall
        rcases foldCall_cases n callee args link with
          heq | ⟨function, word, linked, object, value, method, _, rest, direct, rfl, hm, ho, ha, -, hd, -⟩
        · exact heq
        · have hassigned : function.isOnAssigned = true := by
            unfold object? at ho
            split at ho
            all_goals first | (obtain rfl := Option.some.inj ho; simp [isOnAssigned, ha]) | exact absurd ho (by simp)
          simp [callsUnassigned, directArguments_ofName? hm hd, hassigned] at hown
      · unfold foldCall
        split
        · rename_i heq
          obtain ⟨rfl, rfl⟩ := node.inj heq
          exact absurd ⟨_, _, _, rfl, rfl⟩ hcall
        · rfl

end Tree

/-! ## Values and places -/

namespace Machine

open Eval Tree

variable {W : Type} (M : Machine W)

/-- An expression without an open link has a value. -/
theorem yields_isSome {t : Tree} (h : t.hasLink = false) : Yields (M.refer t) fun p => p.isSome = true := by
  have hsome : ∀ p : Referent, Yields (W := W) (pure (some p)) fun p => p.isSome = true := fun p => yields_pure rfl
  -- a step that is no link goes on, and `go` has a referent
  have hstep : ∀ {x : Eval W (Option Referent)} {go : Referent → Value → Eval W (Option Referent)},
      Yields x (fun p => p.isSome = true) → (∀ p v, Yields (go p v) fun p => p.isSome = true) →
      Yields (x >>= M.step false go) fun p => p.isSome = true := by
    intro x go hx hgo
    refine hx.bind fun p hp => ?_
    obtain ⟨p, rfl⟩ := Option.isSome_iff_exists.1 hp
    exact yields_bind _ fun v => hgo p v
  induction t with
  | node f ps ih =>
    rw [refer.eq_def]
    split
    case h_1 =>
      split
      · exact hsome _
      · exact yields_bind _ fun v => hsome _
    case h_2 => exact hsome _
    case h_3 link object heq | h_4 link object heq =>
      obtain ⟨rfl, rfl⟩ := Tree.node.inj heq
      simp only [hasLink, Bool.or_eq_false_iff] at h
      rw [h.1]
      exact hstep (ih object (by simp) h.2) fun p v => hsome _
    case h_5 link object key heq =>
      obtain ⟨rfl, rfl⟩ := Tree.node.inj heq
      simp only [hasLink, Bool.or_eq_false_iff] at h
      rw [h.1]
      exact hstep (ih object (by simp) h.2) fun p v => yields_bind _ fun k => yields_bind _ fun k => hsome _
    case h_6 link callee args heq =>
      obtain ⟨rfl, rfl⟩ := Tree.node.inj heq
      simp only [hasLink, Bool.or_eq_false_iff] at h
      rw [h.1]
      exact hstep (ih callee (by simp) h.2) fun p v => yields_bind _ fun vs => yields_bind _ fun r => hsome _
    case h_8 t heq =>
      obtain ⟨rfl, rfl⟩ := Tree.node.inj heq
      exact ih t (by simp) h
    case h_12 | h_16 | h_18 => split <;> (repeat refine yields_bind _ fun _ => ?_) <;> exact hsome _
    case h_13 =>
      refine yields_bind _ fun p => yields_bind _ fun v => ?_
      exact yields_ite _ (yields_bind _ fun q => yields_bind _ fun w => hsome _) (hsome _)
    case h_14 =>
      have hlast := fun q : Option Referent => yields_bind (M.value q) fun w => hsome (.value w)
      refine yields_bind _ fun p => yields_bind _ fun v => ?_
      exact yields_ite _ (yields_bind _ hlast) (yields_bind _ hlast)
    all_goals
      repeat refine yields_bind _ fun _ => ?_
      exact hsome _

theorem openValue_of_hasLink {t : Tree} (h : t.hasLink = false) : M.openValue t = (do
    let v ← M.eval t
    pure (some v)) := by
  simp only [openValue, eval, bind_assoc]
  refine (M.yields_isSome h).bind_congr fun p hp => ?_
  obtain ⟨p, rfl⟩ := Option.isSome_iff_exists.1 hp
  rfl

/-- What is no property has no object to pass on. -/
theorem yields_isValue {t : Tree} (h : t.place? [] false = none) : Yields (M.refer t) IsValue := by
  have hsome : ∀ v : Value, Yields (W := W) (pure (some (.value v))) IsValue := fun v => yields_pure (isValue_some v)
  induction t with
  | node f ps ih =>
    rw [refer.eq_def]
    split
    case h_1 =>
      split
      · exact hsome _
      · exact yields_value _
    case h_2 => exact hsome _
    case h_3 heq | h_4 heq | h_5 heq =>
      obtain ⟨rfl, rfl⟩ := Tree.node.inj heq
      exact absurd h (by simp [place?])
    case h_6 link callee args heq =>
      rw [← refer]
      exact yields_call callee args link
    case h_7 t heq =>
      obtain ⟨rfl, rfl⟩ := Tree.node.inj heq
      refine (ih t (by simp) h).bind fun p hp => ?_
      cases p with
      | none => exact hsome _
      | some p =>
        obtain ⟨v, rfl⟩ := hp p rfl
        exact hsome v
    case h_8 t heq =>
      obtain ⟨rfl, rfl⟩ := Tree.node.inj heq
      exact ih t (by simp) h
    case h_12 | h_16 | h_18 => split <;> (repeat refine yields_bind _ fun _ => ?_) <;> exact hsome _
    case h_13 =>
      refine yields_bind _ fun p => yields_bind _ fun v => ?_
      exact yields_ite _ (yields_bind _ fun q => yields_bind _ fun w => hsome _) (hsome _)
    case h_14 =>
      have hlast := fun q : Option Referent => yields_bind (M.value q) fun w => hsome w
      refine yields_bind _ fun p => yields_bind _ fun v => ?_
      exact yields_ite _ (yields_bind _ hlast) (yields_bind _ hlast)
    all_goals
      repeat refine yields_bind _ fun _ => ?_
      exact hsome _

theorem refer_of_place? {t : Tree} (h : t.place? [] false = none) : M.refer t = (do
    let v ← M.openValue t
    pure (v.map .value)) := by
  simp only [openValue, bind_assoc]
  rw [← bind_pure (M.refer t), bind_assoc]
  refine (M.yields_isValue h).bind_congr fun p hp => ?_
  cases p with
  | none => simp [fetch]
  | some p =>
    obtain ⟨v, rfl⟩ := hp p rfl
    simp [fetch, get]

end Machine

end Chainlift

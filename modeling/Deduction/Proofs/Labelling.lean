import Deduction.Proofs.Assignment
import Deduction.Proofs.InStep
import Deduction.Proofs.Restoring

/-!
# Labels for constants

All that a search does with constants is to compare them. So the constants of a program, a goal and
an environment can be exchanged for labels, as long as the labels compare as the constants do: every
operation gives the labelled result, faults included, and the search with labels stays in step with
the search with the constants. The solutions of the one are the labelled solutions of the other.
-/

namespace Deduction

open Search

/-! ## Maps with other values -/

namespace VarMap

variable {α β : Type} {m : VarMap α}

/-- The map with a function applied to all values. -/
def map (g : α → β) (m : VarMap α) : VarMap β where
  entries := m.entries.map fun entry => (entry.1, g entry.2)
  ascending := List.pairwise_map.mpr m.ascending

@[simp] theorem get?_map (g : α → β) (m : VarMap α) (v : Variable) :
    (m.map g).get? v = (m.get? v).map g := by
  obtain ⟨entries, ascending⟩ := m
  simp only [map, get?]
  clear ascending
  induction entries with
  | nil => rfl
  | cons entry rest ih =>
    simp only [List.map_cons, find]
    split
    · rfl
    · exact ih

@[simp] theorem contains_map (g : α → β) (m : VarMap α) (v : Variable) :
    (m.map g).contains v = m.contains v := by
  simp [contains]

@[simp] theorem size_map (g : α → β) (m : VarMap α) : (m.map g).size = m.size := by
  simp [map, size]

@[simp] theorem map_insert (g : α → β) (m : VarMap α) (v : Variable) (a : α) :
    (m.insert v a).map g = (m.map g).insert v (g a) := by
  refine ext_get? fun w => ?_
  rw [get?_map, get?_insert, get?_insert, get?_map]
  split <;> rfl

private theorem rebuildEntries_map {ε γ δ : Type} (h : α → δ) (g : β → γ)
    (f : Variable → Except ε β) (l : List (Variable × α)) :
    rebuildEntries (fun v => (f v).map g) (l.map fun entry => (entry.1, h entry.2)) =
      (rebuildEntries f l).map (List.map fun entry => (entry.1, g entry.2)) := by
  induction l with
  | nil => rfl
  | cons entry rest ih =>
    simp only [List.map_cons, rebuildEntries, ih]
    cases f entry.1 with
    | error e => rfl
    | ok b => cases rebuildEntries f rest <;> rfl

private theorem map_entries_rebuild {ε : Type} (m : VarMap α) (f : Variable → Except ε β) :
    (m.rebuild f).map entries = rebuildEntries f m.entries := by
  rw [rebuild]
  split
  · rename_i hf
    exact hf.symm
  · rename_i hf
    exact hf.symm

/-- Rebuilding computes the values without looking at the ones it replaces. -/
theorem rebuild_map {ε γ δ : Type} (h : α → δ) (g : β → γ) (f : Variable → Except ε β)
    (m : VarMap α) : (m.map h).rebuild (fun v => (f v).map g) = (m.rebuild f).map (map g) := by
  have hext : ∀ {x y : Except ε (VarMap γ)}, x.map entries = y.map entries → x = y := by
    rintro (e | ⟨l, hl⟩) (e' | ⟨l', hl'⟩) hxy <;> cases hxy <;> rfl
  refine hext ?_
  rw [map_entries_rebuild, map, rebuildEntries_map, ← map_entries_rebuild]
  cases m.rebuild f <;> rfl

end VarMap

/-! ## Labelled syntax -/

section

variable (f : Constant → Constant)

/-- The term with its constant exchanged for its label. -/
def Term.label : Term → Term
  | .keyword a => .keyword a
  | .const c => .const (f c)
  | .var v => .var v
  | .hole => .hole

/-- The referent with its constant exchanged for its label. -/
def Referent.label : Referent → Referent
  | .const c => .const (f c)
  | .var v => .var v

/-- The pattern with labels for its constants. -/
def Pattern.label (g : Pattern) : Pattern := g.map (Term.label f)

namespace Expr

mutual

/-- The expression with labels for its constants. -/
def label : Expr → Expr
  | term t => .term (t.label f)
  | phrase es => .phrase (labelAll es)

/-- The listed expressions with labels for their constants. -/
def labelAll : List Expr → List Expr
  | [] => []
  | e :: es => e.label :: labelAll es

end

end Expr

/-- The goal with labels for the constants of its patterns and calls. -/
def Goal.label : Goal → Goal
  | truth => .truth
  | falsity => .falsity
  | and p q => .and p.label q.label
  | or p q => .or p.label q.label
  | not p => .not p.label
  | apply g => .apply (Pattern.label f g)
  | call es => .call (Expr.labelAll f es)
  | host h => .host h

@[simp] theorem Goal.label_and (p q : Goal) :
    (Goal.and p q).label f = .and (p.label f) (q.label f) := rfl

/-- The rule with labels for the constants of its condition and its body. -/
def Rule.label (r : Rule) : Rule := ⟨Pattern.label f r.condition, r.body.label f⟩

/-- The program with labels for all constants of its rules. -/
def Program.label (program : Program) : Program := program.map (Rule.label f)

/-- The status with its constant exchanged for its label. -/
def Status.label : Status → Status
  | .unresolved => .unresolved
  | .resolved c => .resolved (f c)
  | .linked w => .linked w

/-- The root with its constant, if it has one, exchanged for its label. -/
def Root.label (r : Root) : Root := ⟨r.last, r.value.map f⟩

/-- The environment with labels for all constants that it knows of. -/
def Env.label (k : Env) : Env where
  statuses := k.statuses.map (Status.label f)
  locals := k.locals.map (Referent.label f)
  scope := k.scope
  next := k.next

/-- The outcome with labels in the environment that was learned. -/
def Outcome.label : Outcome → Outcome
  | clash => .clash
  | known => .known
  | learned k => .learned (k.label f)

/-- The prelude with labels in all its definitions. -/
def Prelude.label : Prelude → Prelude
  | empty => .empty
  | define t es => .define t (Pattern.label f es)
  | both p q => .both p.label q.label

/-- The flattened expression with labels in all its parts. -/
def FlatTerm.label (x : FlatTerm) : FlatTerm := ⟨x.term.label f, x.prelude.label f, x.env.label f⟩

/-- The flattened phrase with labels in all its parts. -/
def FlatPhrase.label (x : FlatPhrase) : FlatPhrase :=
  ⟨Pattern.label f x.terms, x.prelude.label f, x.env.label f⟩

/-- The match with labels in its rule and its environment. -/
def Match.label (m : Match) : Match := ⟨m.rule.label f, m.env.label f⟩

/-- Within the set, labels compare as the constants that they stand for. -/
def Constant.Faithful (U : Constant → Prop) : Prop :=
  ∀ c d, U c → U d → (f c).agrees (f d) = c.agrees d

end

variable {U : Constant → Prop} {f : Constant → Constant} {k k' inner outer : Env} {v w : Variable}

/-! ## Environments -/

namespace Env

@[simp] theorem declares_label (f : Constant → Constant) (k : Env) (v : Variable) :
    (k.label f).declares v = k.declares v := by
  simp [declares, label]

@[simp] theorem referent?_label (f : Constant → Constant) (k : Env) (l : Variable) :
    (k.label f).referent? l = (k.referent? l).map (Referent.label f) := by
  simp [referent?, label]

@[simp] theorem setStatus_label (f : Constant → Constant) (k : Env) (v : Variable) (s : Status) :
    (k.label f).setStatus v (s.label f) = (k.setStatus v s).label f := by
  simp [setStatus, label]

@[simp] theorem setLocal_label (f : Constant → Constant) (k : Env) (l : Variable) (r : Referent) :
    (k.label f).setLocal l (r.label f) = (k.setLocal l r).label f := by
  simp [setLocal, label]

@[simp] theorem startMatching_label (f : Constant → Constant) (k : Env) :
    (k.label f).startMatching = k.startMatching.label f := rfl

private theorem follow_label (f : Constant → Constant) (m : VarMap Status) (steps : Nat)
    (v : Variable) :
    follow (m.map (Status.label f)) steps v = (follow m steps v).map (Root.label f) := by
  induction steps generalizing v with
  | zero => rfl
  | succ steps ih =>
    simp only [follow, VarMap.get?_map]
    rcases m.get? v with _ | _ | c | w
    · rfl
    · rfl
    · rfl
    · exact ih w

/-- Chains have the same ends, and labels for the constants there. -/
@[simp] theorem root_label (f : Constant → Constant) (k : Env) (v : Variable) :
    (k.label f).root v = (k.root v).map (Root.label f) := by
  rw [root, root, label, VarMap.size_map, follow_label]

/-- The labelled value is told of a variable. -/
theorem valueOf_label (f : Constant → Constant) (k : Env) (v : Variable) :
    (k.label f).valueOf v = (k.valueOf v).map (Option.map f) := by
  rw [valueOf, valueOf, root_label]
  cases k.root v <;> rfl

/-- A value that is told with labels is the labelled value. -/
theorem exists_valueOf_of_label {x : Option Constant} (h : (k.label f).valueOf v = .ok x) :
    ∃ y, k.valueOf v = .ok y ∧ x = y.map f := by
  rw [valueOf_label] at h
  cases hv : k.valueOf v with
  | error e => rw [hv] at h; cases h
  | ok y =>
    rw [hv] at h
    cases h
    exact ⟨y, rfl, rfl⟩

/-- With labels the same variables stand for the same. -/
theorem joined_label_iff : (k.label f).Joined v w ↔ k.Joined v w := by
  simp only [Joined, root_label]
  constructor
  · rintro ⟨r, r', hr, hr', hlast⟩
    cases hv : k.root v with
    | error e => rw [hv] at hr; cases hr
    | ok s =>
      cases hw : k.root w with
      | error e => rw [hw] at hr'; cases hr'
      | ok s' =>
        rw [hv] at hr
        rw [hw] at hr'
        cases hr
        cases hr'
        exact ⟨s, s', rfl, rfl, hlast⟩
  · rintro ⟨r, r', hr, hr', hlast⟩
    exact ⟨r.label f, r'.label f, by rw [hr]; rfl, by rw [hr']; rfl, hlast⟩

end Env

/-! ## Learning -/

namespace Outcome

/-- A comparison teaches nothing that could get a label. -/
theorem map_label_ofComparison (f : Constant → Constant) (x : Comparison) :
    (ofComparison x).map (label f) = ofComparison x := by
  rcases x with cause | _ | _ <;> rfl

@[simp] theorem after_label (f : Constant → Constant) (o : Outcome) (k : Env) :
    (o.label f).after (k.label f) = (o.after k).map (Env.label f) := by
  cases o <;> rfl

end Outcome

section

variable (hf : Constant.Faithful f U)

include hf

/-- Two labels are compared with the result for their constants. -/
theorem Constant.Faithful.ofComparison {c d : Constant} (hc : U c) (hd : U d) :
    Outcome.ofComparison ((f c).agrees (f d)) =
      (Outcome.ofComparison (c.agrees d)).map (Outcome.label f) := by
  rw [hf c d hc hd, Outcome.map_label_ofComparison]

namespace Env

/-- A labelled variable is resolved with the labelled outcome. -/
theorem resolve_label (hk : k.Over U) {c : Constant} (hc : U c) :
    (k.label f).resolve v (f c) = (k.resolve v c).map (Outcome.label f) := by
  rw [resolve, resolve, root_label]
  rcases hv : k.root v with e | ⟨last, _ | d⟩
  · rfl
  · exact congrArg (fun k => Except.ok (Outcome.learned k)) (setStatus_label f k last (.resolved c))
  · exact hf.ofComparison (hk.statuses (root_eq_ok_iff.mp hv).get?_last) hc

/-- Variables are linked with the labelled outcome. -/
theorem link_label (hk : k.Over U) :
    (k.label f).link v w = (k.link v w).map (Outcome.label f) := by
  rw [link, link, root_label, root_label]
  rcases hv : k.root v with e | ⟨last, value⟩
  · rfl
  · rcases hw : k.root w with e | ⟨last', value'⟩
    · rfl
    · simp only [Except.map, Root.label]
      split
      · rfl
      · rcases value with _ | c <;> rcases value' with _ | d
        · exact congrArg (fun k => Except.ok (Outcome.learned k))
            (setStatus_label f k last (.linked last'))
        · exact congrArg (fun k => Except.ok (Outcome.learned k))
            (setStatus_label f k last (.linked last'))
        · exact congrArg (fun k => Except.ok (Outcome.learned k))
            (setStatus_label f k last' (.resolved c))
        · exact hf.ofComparison (hk.statuses (root_eq_ok_iff.mp hv).get?_last)
            (hk.statuses (root_eq_ok_iff.mp hw).get?_last)

/-- Labelled referents are equated with the labelled outcome. -/
theorem equate_label (hk : k.Over U) {p r : Referent} (hp : ∀ c, p = .const c → U c)
    (hr : ∀ c, r = .const c → U c) :
    (k.label f).equate (p.label f) (r.label f) = (k.equate p r).map (Outcome.label f) := by
  cases p with
  | var v =>
    cases r with
    | var w => exact link_label hf hk
    | const c => exact resolve_label hf hk (hr c rfl)
  | const c =>
    cases r with
    | var w => exact resolve_label hf hk (hp c rfl)
    | const d => rfl

/-- Labelled referents agree just if the referents do. -/
theorem agrees_label {p r : Referent} (hp : ∀ c, p = .const c → U c)
    (hr : ∀ c, r = .const c → U c) : (p.label f).agrees (r.label f) = p.agrees r := by
  cases p with
  | var v => cases r <;> rfl
  | const c =>
    cases r with
    | var w => rfl
    | const d => exact hf c d (hp c rfl) (hr d rfl)

/-- A labelled referent is assigned with the labelled outcome. -/
theorem assignReferent_label (hk : k.Over U) {l : Variable} {r : Referent}
    (hr : ∀ c, r = .const c → U c) :
    (k.label f).assignReferent l (r.label f) = (k.assignReferent l r).map (Outcome.label f) := by
  simp only [assignReferent, referent?_label]
  cases hl : k.referent? l with
  | none =>
    cases r with
    | const c =>
      exact congrArg (fun k => Except.ok (Outcome.learned k)) (setLocal_label f k l (.const c))
    | var v =>
      simp only [Option.map, Referent.label, declares_label]
      split
      · exact congrArg (fun k => Except.ok (Outcome.learned k)) (setLocal_label f k l (.var v))
      · rfl
  | some p =>
    have hp : ∀ c, p = .const c → U c := fun c hc => hk.locals (hc ▸ hl)
    simp only [Option.map, agrees_label hf hp hr, equate_label hf hk hp hr]
    rcases p.agrees r with cause | _ | _ <;> rfl

/-- A labelled term is assigned with the labelled outcome. -/
theorem assign_label (hk : k.Over U) {l : Variable} {t : Term} (ht : t.Over U) :
    (k.label f).assign l (t.label f) = (k.assign l t).map (Outcome.label f) := by
  cases t with
  | hole => rfl
  | keyword a => rfl
  | const c =>
    refine assignReferent_label (r := .const c) hf hk fun d hd => ?_
    cases hd
    exact ht c rfl
  | var v => exact assignReferent_label (r := .var v) hf hk fun d hd => by cases hd

end Env

/-! ## Matching -/

/-- Labelled terms match with the labelled outcome. -/
theorem Term.matchGoal_label (hk : k.Over U) {s t : Term} (hs : s.Over U) (ht : t.Over U) :
    (s.label f).matchGoal (k.label f) (t.label f) = (s.matchGoal k t).map (Outcome.label f) := by
  cases s with
  | var l =>
    rw [label, matchGoal_var, matchGoal_var]
    exact Env.assign_label hf hk ht
  | const c =>
    cases t with
    | keyword b => rfl
    | const d => exact hf.ofComparison (hs c rfl) (ht d rfl)
    | var v => exact Env.resolve_label hf hk (hs c rfl)
    | hole => rfl
  | hole => cases t <;> rfl
  | keyword a =>
    cases t with
    | keyword b =>
      simp only [label, matchGoal]
      split <;> rfl
    | const d => rfl
    | var v => rfl
    | hole => rfl

namespace Pattern

/-- Labelled terms are matched position by position with the labelled result. -/
theorem matchTerms_label (hk : k.Over U) {condition goal : Pattern}
    (hc : Pattern.Each (Term.Over U) condition) (hg : Pattern.Each (Term.Over U) goal) :
    matchTerms (condition.label f) (Pattern.label f goal) (k.label f) =
      (matchTerms condition goal k).map (Option.map (Env.label f)) := by
  induction condition generalizing goal k with
  | nil => simp only [label, List.map_nil, matchTerms]; rfl
  | cons s ss ih =>
    cases goal with
    | nil => simp only [label, List.map_nil, List.map_cons, matchTerms]; rfl
    | cons t ts =>
      have hs := hc s List.mem_cons_self
      have ht := hg t List.mem_cons_self
      simp only [label, List.map_cons, matchTerms, Term.matchGoal_label hf hk hs ht]
      cases ho : s.matchGoal k t with
      | error e => rfl
      | ok o =>
        simp only [Except.map, Outcome.after_label]
        cases hk₁ : o.after k with
        | none => rfl
        | some k₁ =>
          have hevolves := (Term.matchGoal_updates hk hs ht ho hk₁).evolves
          exact ih (hevolves.over hk) (fun x hx => hc x (List.mem_cons_of_mem s hx))
            fun x hx => hg x (List.mem_cons_of_mem t hx)

/-- Labelled patterns match with the labelled result. -/
theorem matchGoal_label (hk : k.Over U) {condition goal : Pattern}
    (hc : Pattern.Each (Term.Over U) condition) (hg : Pattern.Each (Term.Over U) goal) :
    matchGoal (condition.label f) (Pattern.label f goal) (k.label f) =
      (matchGoal condition goal k).map (Option.map (Env.label f)) := by
  rw [matchGoal, matchGoal, Env.startMatching_label, matchTerms_label hf hk.startMatching hc hg]
  simp only [label, List.length_map]
  split <;> rfl

end Pattern

/-- The labelled rules are selected, in the same order and with the same faults. -/
theorem Program.select_label {program : Program} (hprogram : program.Each (Term.Over U))
    (hk : k.Over U) {g : Pattern} (hg : Pattern.Each (Term.Over U) g) :
    (program.label f).select (Pattern.label f g) (k.label f) =
      (program.select g k).map (Except.map (Match.label f)) := by
  induction program with
  | nil => rfl
  | cons r rs ih =>
    have hrest := ih fun r' hr' => hprogram r' (List.mem_cons_of_mem r hr')
    have hc := (hprogram r List.mem_cons_self).1
    rw [label] at hrest ⊢
    simp only [List.map_cons, select, Rule.matchGoal, Rule.label,
      Pattern.matchGoal_label hf hk hc hg]
    rcases Pattern.matchGoal r.condition g k with e | _ | k₁
    · rfl
    · exact hrest
    · exact congrArg (_ :: ·) hrest

end

/-! ## Flattening -/

@[simp] theorem Prelude.conj_label (f : Constant → Constant) (p q : Prelude) :
    (p.label f).conj (q.label f) = (p.conj q).label f := by
  cases p <;> cases q <;> rfl

namespace Env

/-- The same temporary is issued with labels. -/
theorem issueTemporary_label (f : Constant → Constant) (k : Env) (stem : String) :
    (k.label f).issueTemporary stem =
      ((k.issueTemporary stem).1, (k.issueTemporary stem).2.label f) := by
  simp [issueTemporary, label, Status.label]

/-- An own variable is declared with labels as it is without them. -/
theorem declareLocal_label (f : Constant → Constant) (k : Env) (l : Variable) :
    (k.label f).declareLocal l =
      ((k.declareLocal l).1.label f, (k.declareLocal l).2.label f) := by
  rw [declareLocal, declareLocal, referent?_label]
  cases k.referent? l with
  | some r => rfl
  | none => simp [label, Status.label, Referent.label]

/-- A variable expands to the labelled referent. -/
theorem expandVariable_label (f : Constant → Constant) (k : Env) (v : Variable) :
    (k.label f).expandVariable v =
      (k.expandVariable v).map fun x => (x.1.label f, x.2.label f) := by
  have hscope : (k.label f).scope = k.scope := rfl
  rw [expandVariable, expandVariable, hscope, declareLocal_label]
  cases k.scope with
  | query =>
    simp only [declares_label]
    split <;> rfl
  | rule =>
    simp only [declares_label, referent?_label, Option.map_eq_none_iff]
    split <;> rfl

end Env

namespace Expr

variable (f)

mutual

/-- A labelled expression is flattened to the labelled result. -/
theorem flatten_label : ∀ (e : Expr) (k : Env),
    (e.label f).flatten (k.label f) = (e.flatten k).map (FlatTerm.label f)
  | .term t, k => by
    cases t with
    | var v =>
      simp only [label, Term.label, flatten, Env.expandVariable_label]
      rcases k.expandVariable v with e | ⟨r, k'⟩
      · rfl
      · cases r <;> rfl
    | keyword a => simp [label, Term.label, flatten, Except.map, FlatTerm.label, Prelude.label]
    | const c => simp [label, Term.label, flatten, Except.map, FlatTerm.label, Prelude.label]
    | hole => simp [label, Term.label, flatten, Except.map, FlatTerm.label, Prelude.label]
  | .phrase es, k => by
    have hempty : Prelude.empty = Prelude.empty.label f := rfl
    rw [label, flatten, hempty, flattenAll_label es .empty k, flatten]
    cases flattenAll es .empty k with
    | error e => rfl
    | ok x =>
      simp only [Except.map, FlatPhrase.label, Env.issueTemporary_label]
      exact congrArg Except.ok (congrArg (FlatTerm.mk _ · _)
        (Prelude.conj_label f x.prelude (.define _ x.terms)))

/-- A labelled phrase is flattened to the labelled result. -/
theorem flattenAll_label : ∀ (es : List Expr) (before : Prelude) (k : Env),
    flattenAll (labelAll f es) (before.label f) (k.label f) =
      (flattenAll es before k).map (FlatPhrase.label f)
  | [], before, k => by rw [labelAll, flattenAll, flattenAll]; rfl
  | e :: es, before, k => by
    rw [labelAll, flattenAll, flatten_label e k, flattenAll]
    cases e.flatten k with
    | error e => rfl
    | ok x =>
      simp only [Except.map, FlatTerm.label, Prelude.conj_label]
      rw [flattenAll_label es (before.conj x.prelude) x.env]
      cases flattenAll es (before.conj x.prelude) x.env <;> rfl

end

end Expr

/-! ## Leaving a scope -/

namespace Env

/-- The return to an outer scope computes the labelled statuses. -/
theorem outerStatus_label (f : Constant → Constant) (inner outer : Env) (v : Variable) :
    (inner.label f).outerStatus (outer.label f) v =
      (inner.outerStatus outer v).map (Status.label f) := by
  have hstatus : (inner.label f).status v = (inner.status v).map (Status.label f) := by
    rw [status, status, label, VarMap.get?_map]
    cases inner.statuses.get? v <;> rfl
  rw [outerStatus, outerStatus, hstatus]
  rcases inner.status v with e | _ | c | w
  · rfl
  · rfl
  · rfl
  · simp only [Except.map, Status.label, declares_label, root_label]
    split
    · rfl
    · rcases inner.root w with e | ⟨last, _ | c⟩ <;> rfl

/-- The return to an outer scope keeps the same variables beside the outer ones. -/
theorem keepTarget_label (f : Constant → Constant) (outer : Env) (kept : VarMap Status)
    (s : Status) : (outer.label f).keepTarget (kept.map (Status.label f)) (s.label f) =
      (outer.keepTarget kept s).map (Status.label f) := by
  cases s with
  | unresolved => rfl
  | resolved c => rfl
  | linked w =>
    simp only [keepTarget, Status.label, declares_label]
    split
    · rfl
    · exact (VarMap.map_insert (Status.label f) kept w .unresolved).symm

/-- The return to an outer scope retains the labelled statuses. -/
theorem retainEach_label (f : Constant → Constant) (inner outer : Env) :
    (inner.label f).retainEach (outer.label f) =
      (inner.retainEach outer).map (VarMap.map (Status.label f)) := by
  have hfold : ∀ (entries : List (Variable × Status)) (kept : VarMap Status),
      (entries.map fun entry => (entry.1, entry.2.label f)).foldl
        (fun kept entry => keepTarget (outer.label f) kept entry.2) (kept.map (Status.label f)) =
      (entries.foldl (fun kept entry => keepTarget outer kept entry.2) kept).map
        (Status.label f) := by
    intro entries
    induction entries with
    | nil => exact fun _ => rfl
    | cons entry rest ih =>
      intro kept
      rw [List.map_cons, List.foldl_cons, List.foldl_cons, keepTarget_label, ih]
  have hrebuild := VarMap.rebuild_map (Status.label f) (Status.label f) (inner.outerStatus outer)
    outer.statuses
  rw [retainEach, retainEach, funext (outerStatus_label f inner outer), label, hrebuild]
  cases outer.statuses.rebuild (inner.outerStatus outer) with
  | error e => rfl
  | ok statuses => exact congrArg Except.ok (hfold statuses.entries statuses)

/-- The return to an outer scope gives the labelled result. -/
theorem restore_label (f : Constant → Constant) (inner outer : Env) :
    (inner.label f).restore (outer.label f) = (inner.restore outer).map (label f) := by
  have hretained : (inner.label f).retained (outer.label f) =
      (inner.retained outer).map (VarMap.map (Status.label f)) := by
    rw [retained, retained, retainEach_label]
    simp only [label, VarMap.size_map]
    split <;> rfl
  rw [restore, restore, hretained]
  cases inner.retained outer <;> rfl

end Env

end Deduction

import Deduction.Proofs.Labelling
import Deduction.Proofs.Solution
import Mathlib.Logic.Equiv.List
import Mathlib.Tactic.DeriveCountable

/-!
# Constants represented by atoms

In a lawful set the constants that equal one another make up a class, and there are no more classes
than atoms. With an atom for each class as the label of its constants, a search for the answers of a
program over the lawful set stays in step with a search over atoms. So what is shown for constants
that are compared by identity carries over to all that are compared lawfully.
-/

namespace Deduction

open Search

variable {U V : Constant → Prop} {f : Constant → Constant} {k k' : Env}

/-! ## Occurrences in labelled syntax -/

section

variable {P : Term → Prop}

/-- The terms of a labelled pattern are the labelled terms of the pattern. -/
theorem Pattern.each_label_iff {g : Pattern} :
    Pattern.Each P (Pattern.label f g) ↔ Pattern.Each (fun t => P (t.label f)) g := by
  simp [Pattern.Each, Pattern.label]

namespace Expr

mutual

/-- The terms of a labelled expression are the labelled terms of the expression. -/
theorem each_label_iff : ∀ {e : Expr}, (e.label f).Each P ↔ e.Each fun t => P (t.label f)
  | .term t => by rw [label, Each, Each]
  | .phrase es => by rw [label, Each, Each, eachOf_labelAll_iff]

/-- The terms of labelled expressions are the labelled terms of the expressions. -/
theorem eachOf_labelAll_iff : ∀ {es : List Expr},
    EachOf P (labelAll f es) ↔ EachOf (fun t => P (t.label f)) es
  | [] => by rw [labelAll, EachOf, EachOf]
  | e :: es => by rw [labelAll, EachOf, EachOf, each_label_iff, eachOf_labelAll_iff]

end

end Expr

/-- The terms of a labelled goal are the labelled terms of the goal. -/
theorem Goal.each_label_iff {p : Goal} :
    (p.label f).Each P ↔ p.Each fun t => P (t.label f) := by
  induction p with
  | truth => rfl
  | falsity => rfl
  | and p q ihp ihq => exact and_congr ihp ihq
  | or p q ihp ihq => exact and_congr ihp ihq
  | not p ih => exact ih
  | apply g => exact Pattern.each_label_iff
  | call es => exact Expr.eachOf_labelAll_iff
  | host h => rfl

/-- The terms of a labelled program are the labelled terms of the program. -/
theorem Program.each_label_iff {program : Program} :
    (program.label f).Each P ↔ program.Each fun t => P (t.label f) := by
  simp [Program.Each, Program.label, Rule.label, Pattern.each_label_iff, Goal.each_label_iff]

end

namespace Term

/-- All constants of a labelled term are labels. -/
theorem over_label (hV : ∀ c, V (f c)) (t : Term) : (t.label f).Over V := by
  cases t with
  | const c =>
    intro d hd
    cases hd
    exact hV c
  | _ => exact fun d hd => nomatch hd

/-- A labelled term has the variables of the term. -/
theorem vars_label_iff {P : Variable → Prop} {t : Term} : (t.label f).Vars P ↔ t.Vars P := by
  cases t <;> simp [label, Vars]

/-- A labelled term has its variables declared where they were. -/
theorem Within.label (hV : ∀ c, V (f c)) {t : Term} (ht : t.Within U k) :
    (t.label f).Within V (k.label f) :=
  ⟨over_label hV t, vars_label_iff.mpr fun v hv => (Env.declares_label f k v).trans (ht.2 v hv)⟩

end Term

namespace Env

/-- All constants that a labelled environment knows of are labels. -/
theorem over_label (hV : ∀ c, V (f c)) (k : Env) : (k.label f).Over V := by
  constructor
  · intro v c hv
    have hmap : (k.statuses.get? v).map (Status.label f) = some (.resolved c) := by
      rw [← VarMap.get?_map]
      exact hv
    obtain ⟨_ | d | w, _, hs⟩ := Option.map_eq_some_iff.mp hmap <;> cases hs
    exact hV d
  · intro l c hl
    rw [referent?_label] at hl
    obtain ⟨d | w, _, hr⟩ := Option.map_eq_some_iff.mp hl <;> cases hr
    exact hV d

/-- An environment stays well formed with labels. -/
theorem WellFormed.label (hk : k.WellFormed) (f : Constant → Constant) :
    (k.label f).WellFormed := by
  refine ⟨fun v hv => ?_, fun {l v} hl => ?_, fun {v i} hv hi => ?_⟩
  · obtain ⟨r, hr⟩ := hk.grounded v ((declares_label f k v).symm.trans hv)
    refine ⟨r.label f, root_eq_ok_iff.mp ?_⟩
    rw [root_label, hr.root_eq]
    rfl
  · rw [referent?_label] at hl
    obtain ⟨c | w, hw, hr⟩ := Option.map_eq_some_iff.mp hl <;> cases hr
    exact (declares_label f k v).trans (hk.referents hw)
  · exact hk.numbered ((declares_label f k v).symm.trans hv) hi

/-- The first environment is well formed and knows constants of the set only, and the second one has
labels in their place. -/
structure Labelled (f : Constant → Constant) (U : Constant → Prop) (k k' : Env) : Prop where
  wellFormed : k.WellFormed
  members : k.Over U
  eq : k' = k.label f

end Env

/-! ## Searches with labels -/

/-- The second pattern has labels for the constants of the first one, which belong to the set. -/
structure Pattern.Labelled (f : Constant → Constant) (U : Constant → Prop) (g g' : Pattern) :
    Prop where
  members : Pattern.Each (Term.Over U) g
  eq : g' = Pattern.label f g

/-- The second phrase has labels for the constants of the first one, which belong to the set. -/
structure Expr.LabelledAll (f : Constant → Constant) (U : Constant → Prop) (es es' : List Expr) :
    Prop where
  members : EachOf (Term.Over U) es
  eq : es' = labelAll f es

/-- A prelude keeps its shape when it gets labels. -/
theorem Prelude.shaped_label {p : Prelude} (hp : p.Each (Term.Over U)) :
    p.Shaped (Pattern.Labelled f U) (p.label f) := by
  induction p with
  | empty => exact .empty
  | define t es => exact .define ⟨each_definedBy (fun _ hc => nomatch hc) hp, rfl⟩
  | both p q ihp ihq => exact .both (ihp hp.1) (ihq hp.2)

/-- A goal without hosts keeps its shape when it gets labels. -/
theorem Goal.shaped_label {p : Goal} (hfree : p.HostFree) (hp : p.Each (Term.Over U)) :
    p.Shaped (Pattern.Labelled f U) (Expr.LabelledAll f U) (p.label f) := by
  induction p with
  | truth => exact .truth
  | falsity => exact .falsity
  | and p q ihp ihq => exact .and (ihp hfree.1 hp.1) (ihq hfree.2 hp.2)
  | or p q ihp ihq => exact .or (ihp hfree.1 hp.1) (ihq hfree.2 hp.2)
  | not p ih => exact .not (ih hfree hp)
  | apply g => exact .apply ⟨hp, rfl⟩
  | call es => exact .call ⟨hp, rfl⟩
  | host g => exact hfree.elim

/-- A flattened phrase has its labels in the terms, in the prelude and in the environment. -/
theorem Expr.flattenPhrase_label (f : Constant → Constant) (es : List Expr) (k : Env) :
    flattenPhrase (labelAll f es) (k.label f) =
      (flattenPhrase es k).map (FlatPhrase.label f) :=
  flattenAll_label f es .empty k

section

variable {program : Program} {applied applied' : Pattern → Env → Search Item}

/-- A goal is explored in step with labels, if patterns are applied so. -/
theorem Goal.inStep_explore_label
    (happly : ∀ g g' k k', Pattern.Labelled f U g g' → k.Labelled f U k' →
      InStep (Concur (Env.Labelled f U)) (applied g k) (applied' g' k'))
    {p : Goal} (hfree : p.HostFree) (hp : p.Each (Term.Over U)) (hk : k.WellFormed)
    (hU : k.Over U) {turns turns' : Nat} :
    InStep (Concur (Env.Labelled f U)) (p.explore applied turns k)
      ((p.label f).explore applied' turns' (k.label f)) := by
  refine (Goal.shaped_label hfree hp).inStep happly ?_ ⟨hk, hU, rfl⟩
  rintro es _ k _ ⟨hes, rfl⟩ ⟨hk, hU, rfl⟩
  have hlabel := Expr.flattenPhrase_label f es k
  cases hx : Expr.flattenPhrase es k with
  | error e =>
    rw [hx] at hlabel
    simp only [explore, hx, hlabel]
    exact inStep_one (.error e)
  | ok x =>
    rw [hx] at hlabel
    rw [explore_call _ _ hx, explore_call _ _ hlabel, explore_flatPhrase, explore_flatPhrase]
    obtain ⟨hkx, _⟩ := Expr.flattenPhrase_wellFormed hx hk
    obtain ⟨hterms, hprelude⟩ := Expr.flattenPhrase_within hk hU hes hx
    have hover : x.prelude.Each (Term.Over U) := hprelude.mono fun t ht => ht.1
    have hstart : x.env.Labelled f U (x.env.label f) :=
      ⟨hkx, (Expr.flattenAll_evolves hx).over hU, rfl⟩
    exact ((Prelude.shaped_label hover).inStep happly hstart).under fun _ _ =>
      happly _ _ _ _ ⟨fun t ht => (hterms t ht).1, rfl⟩

section

variable (hfree : program.HostFree) (hprogram : program.Each (Term.Over U))

include hfree hprogram

/-- The body of a matching rule is left in step. -/
theorem Match.inStep_solutions_label {depth : Nat}
    (happly : ∀ g g' k k', Pattern.Labelled f U g g' → k.Labelled f U k' →
      InStep (Concur (Env.Labelled f U)) (Selector.applications program.select depth g k)
        (Selector.applications (program.label f).select depth g' k'))
    {m : Match} {g : Pattern} (hm : .ok m ∈ program.select g k)
    (hg : Pattern.Each (Term.Over U) g) (hk : k.WellFormed) (hU : k.Over U) :
    InStep (Concur (Env.Labelled f U))
      (m.solutions (Goal.start (Selector.applications program.select depth) depth) k)
      ((m.label f).solutions
        (Goal.start (Selector.applications (program.label f).select depth) depth)
        (k.label f)) := by
  obtain ⟨hr, hmatch⟩ := Program.matchGoal_of_mem_select hm
  obtain ⟨hk₁, hextends, _⟩ := Pattern.matchGoal_wellFormed hmatch hk
  have hU₁ := Pattern.over_of_matchGoal hU (hprogram _ hr).1 hg hmatch
  have hbody := (Goal.shaped_label (f := f) (hfree _ hr) (hprogram _ hr).2).hostFree.2
  rw [Match.solutions, Match.solutions, Goal.start_eq_explore (hfree _ hr)]
  rw [Match.label, Rule.label, Goal.start_eq_explore hbody]
  refine (Goal.inStep_explore_label happly (hfree _ hr) (hprogram _ hr).2 hk₁ hU₁).with_emits.map ?_
  rintro i j ⟨hij, hi, _⟩
  cases hij with
  | error e => exact .error e
  | @ok a b hab =>
    obtain ⟨ha, hUa, rfl⟩ := hab
    obtain ⟨_, hcontinues⟩ := Program.continues_of_emits hfree (hfree _ hr) hk₁ hi
    simp only [Env.restore_label]
    cases hrestore : a.restore k with
    | error e => exact .error e
    | ok k' =>
      have hextends' := hextends.trans hcontinues.toExtends
      exact .ok ⟨Env.wellFormed_restore ha hk (fun v => hextends'.declared) hrestore,
        Env.over_restore hUa hU hrestore, rfl⟩

variable (hf : Constant.Faithful f U)

include hf

/-- At every depth a pattern is applied in step with labels. -/
theorem Program.inStep_applications_label (depth : Nat) (g g' : Pattern) (k k' : Env)
    (hg : Pattern.Labelled f U g g') (hk : k.Labelled f U k') :
    InStep (Concur (Env.Labelled f U)) (Selector.applications program.select depth g k)
      (Selector.applications (program.label f).select depth g' k') := by
  induction depth generalizing g g' k k' with
  | zero => exact .cut
  | succ depth ih =>
    obtain ⟨hg, rfl⟩ := hg
    obtain ⟨hk, hU, rfl⟩ := hk
    rw [Selector.applications, Selector.applications, Program.select_label hf hprogram hU hg]
    have hmatches : List.Forall₂ (fun i j => i ∈ program.select g k ∧ j = i.map (Match.label f))
        (program.select g k) ((program.select g k).map (Except.map (Match.label f))) := by
      rw [List.forall₂_map_right_iff, List.forall₂_same]
      exact fun i hi => ⟨hi, rfl⟩
    refine (inStep_ofList hmatches).bind ?_
    rintro (e | m) _ ⟨hm, rfl⟩
    · exact inStep_one (.error e)
    · exact Match.inStep_solutions_label hfree hprogram ih hm hg hk hU

/-- The solutions that are pulled with labels are the labelled solutions, in the same order and with
the same faults between them. -/
theorem Goal.solve_label {p : Goal} (hpfree : p.HostFree) (hp : p.Each (Term.Over U))
    (hk : k.WellFormed) (hU : k.Over U) {depth limit : Nat} {choice : Nat → Bool} :
    Pulled.Alike (Concur (Env.Labelled f U)) (p.solve program.select depth limit choice k)
      ((p.label f).solve (program.label f).select depth limit choice (k.label f)) := by
  rw [Goal.solve_eq_take hpfree, Goal.solve_eq_take (Goal.shaped_label hpfree hp).hostFree.2]
  have happlied := Program.inStep_applications_label hfree hprogram hf depth
  exact InStep.take (Goal.inStep_explore_label happlied hpfree hp hk hU) choice limit

end

end

/-! ## Atoms as labels -/

/-- Characters are told apart by their code points. -/
instance countable_char : Countable Char :=
  Function.Injective.countable fun _ _ => Char.toNat_inj.mp

/-- Strings are told apart by their characters. -/
instance countable_string : Countable String :=
  Function.Injective.countable fun _ _ => String.toList_inj.mp

/-- Integers are told apart by their values. -/
instance countable_int64 : Countable Int64 :=
  Function.Injective.countable fun _ _ => Int64.toInt_inj.mp

/-- Bytes are told apart by their values. -/
instance countable_uint8 : Countable UInt8 :=
  Function.Injective.countable fun _ _ => UInt8.toNat_inj.mp

deriving instance Countable for Payload

deriving instance Countable for Constant

namespace Constant

/-- The constants of a lawful set with equality as the comparison finds it. -/
def Lawful.setoid (hU : Lawful U) : Setoid {c : Constant // U c} where
  r c d := (c : Constant).Equals d
  iseqv := ⟨fun c => hU.refl c.2, fun {c d} => hU.symm c.2 d.2,
    fun {c d e} => hU.trans c.2 d.2 e.2⟩

/-- There are atoms for all classes of equal constants, different ones for different classes. -/
theorem Lawful.exists_labels (hU : Lawful U) :
    ∃ f : Constant → Constant, (∀ c, ∃ name, f c = .atom name) ∧ Faithful f U := by
  classical
  obtain ⟨number, hnumber⟩ := exists_injective_nat (Quotient hU.setoid)
  let name (c : {c : Constant // U c}) : String :=
    Infinite.natEmbedding String (number (Quotient.mk hU.setoid c))
  have hname : ∀ c d, name c = name d ↔ (c : Constant).Equals d := by
    intro c d
    rw [(Infinite.natEmbedding String).injective.eq_iff, hnumber.eq_iff]
    exact Quotient.eq
  refine ⟨fun c => .atom (name (hU.pick c)), fun c => ⟨_, rfl⟩, fun c d hc hd => ?_⟩
  obtain ⟨verdict, hverdict⟩ := hU.comparable c d hc hd
  have hequals : c.Equals d ↔ verdict = true := by
    rw [Equals, hverdict, Except.ok.injEq]
  have hsame : (name (hU.pick c) == name (hU.pick d)) = verdict := by
    rw [Bool.eq_iff_iff, beq_iff_eq, hname, hU.coe_pick hc, hU.coe_pick hd, hequals]
  rw [agrees, hsame, hverdict]

end Constant

end Deduction

import Deduction.Proofs.Blame
import Mathlib.Data.List.Forall2

/-!
# Assignments

An assignment gives every variable a constant, and an environment is true under it when all
its equations hold. Whether two constants are equal is left to their comparison, or to another
judge of payloads. All that is asked of it is that within a set of constants it never fails and is
an equivalence, so that equal constants need not be the same one.
-/

namespace Deduction

/-- The comparison finds the two constants equal. -/
def Constant.Equals (c d : Constant) (judge : Judge := Payload.agrees) : Prop :=
  c.agrees d judge = .ok true

instance (c d : Constant) (judge : Judge) : Decidable (c.Equals d judge) :=
  inferInstanceAs (Decidable (_ = _))

/-- Payloads that compare themselves find every constant equal to itself. -/
theorem Constant.Equals.refl (c : Constant) : c.Equals c := c.agrees_self

/-- A set with all atoms, in which comparison never fails and is an equivalence. -/
structure Constant.Lawful (U : Constant → Prop) (judge : Judge := Payload.agrees) : Prop where
  atom : ∀ name, U (.atom name)
  comparable : Comparable U judge
  refl : ∀ {c}, U c → c.Equals c judge
  symm : ∀ {c d}, U c → U d → c.Equals d judge → d.Equals c judge
  trans : ∀ {c d e}, U c → U d → U e → c.Equals d judge → d.Equals e judge → c.Equals e judge

variable {U : Constant → Prop} {judge : Judge}

namespace Constant

/-- A set in which comparison looks at one feature of the constants is lawful. -/
theorem lawful_of_agrees_eq {α : Type} [DecidableEq α] (feature : Constant → α)
    (hatom : ∀ name, U (.atom name))
    (h : ∀ c d, U c → U d → c.agrees d judge = .ok (decide (feature c = feature d))) :
    Lawful U judge := by
  have hequals : ∀ {c d}, U c → U d → (c.Equals d judge ↔ feature c = feature d) := by
    intro c d hc hd
    rw [Equals, h c d hc hd]
    simp
  exact {
    atom := hatom
    comparable := fun c d hc hd => ⟨_, h c d hc hd⟩
    refl := fun hc => (hequals hc hc).mpr rfl
    symm := fun hc hd hcd => (hequals hd hc).mpr ((hequals hc hd).mp hcd).symm
    trans := fun hc hd he hcd hde =>
      (hequals hc he).mpr (((hequals hc hd).mp hcd).trans ((hequals hd he).mp hde)) }

/-- Equal constants can be exchanged on both sides of an equation. -/
theorem Lawful.congr (hU : Lawful U judge) {c c' d d' : Constant} (hc : U c) (hc' : U c')
    (hd : U d) (hd' : U d') (h : c.Equals c' judge) (h' : d.Equals d' judge) :
    c.Equals d judge ↔ c'.Equals d' judge :=
  ⟨fun hcd => hU.trans hc' hc hd' (hU.symm hc hc' h) (hU.trans hc hd hd' hcd h'),
    fun hcd => hU.trans hc hc' hd h (hU.trans hc' hd' hd hcd (hU.symm hd hd' h'))⟩

/-- Equal constants equal the same constants. -/
theorem Lawful.equals_congr_left (hU : Lawful U judge) {c d e : Constant} (hc : U c) (hd : U d)
    (he : U e) (hcd : c.Equals d judge) : c.Equals e judge ↔ d.Equals e judge :=
  hU.congr hc hd he he hcd (hU.refl he)

/-- In a lawful set it does not matter which side is asked. -/
theorem Lawful.equals_comm (hU : Lawful U judge) {c d : Constant} (hc : U c) (hd : U d) :
    c.Equals d judge ↔ d.Equals c judge := ⟨hU.symm hc hd, hU.symm hd hc⟩

open Classical in
/-- The constant itself if it belongs to the set, and an atom otherwise. -/
noncomputable def Lawful.pick (hU : Lawful U judge) (c : Constant) : {c : Constant // U c} :=
  if h : U c then ⟨c, h⟩ else ⟨.atom "", hU.atom ""⟩

/-- A constant of the set is picked as it is. -/
theorem Lawful.coe_pick (hU : Lawful U judge) {c : Constant} (hc : U c) :
    (hU.pick c : Constant) = c := by simp [pick, hc]

end Constant

namespace Sample

/-- Atoms and nonempty caseless texts. -/
inductive CaselessWord : Constant → Prop
  | atom (name : String) : CaselessWord (.atom name)
  | text {object : Nat} {s : String} (hs : s ≠ "") : CaselessWord (.value (.caseless object s))

/-- The kind of a word and its small letters. -/
def spelling : Constant → Bool × String
  | .value (.caseless _ s) => (true, s.map Char.toLower)
  | .atom name => (false, name)
  | .value _ => (true, "")

/-- Texts that differ in their letters' case are equal. -/
theorem lawful_caselessWord : Constant.Lawful CaselessWord := by
  refine Constant.lawful_of_agrees_eq spelling .atom fun c d hc hd => ?_
  cases hc with
  | atom a =>
    cases hd with
    | atom b => simp [Constant.agrees, spelling, Bool.beq_eq_decide_eq]
    | text => simp [Constant.agrees, spelling]
  | text hs =>
    cases hd with
    | atom b => simp [Constant.agrees, spelling]
    | @text _ t ht =>
      have hempty : t.isEmpty = false := by simpa using ht
      simp only [Constant.agrees, Payload.agrees, Payload.compareCaseless, spelling, hempty]
      split
      · rename_i hsame
        simp_all
      · simp [Bool.beq_eq_decide_eq]

end Sample

/-- A constant of the set for every variable. -/
abbrev Assignment (U : Constant → Prop) := Variable → {c : Constant // U c}

/-- What is known of a variable is true of the constant that it is given. -/
def Status.TrueUnder (s : Assignment U) (c : Constant) (st : Status)
    (judge : Judge := Payload.agrees) : Prop :=
  match st with
  | .unresolved => True
  | .resolved d => c.Equals d judge
  | .linked w => c.Equals (s w) judge

/-- The constant that a referent stands for under an assignment. -/
def Referent.under (s : Assignment U) : Referent → Constant
  | .const c => c
  | .var v => s v

namespace Env

/-- All that is known of the declared variables is true of what they are given. -/
def TrueUnder (s : Assignment U) (k : Env) (judge : Judge := Payload.agrees) : Prop :=
  ∀ v st, k.statuses.get? v = some st → st.TrueUnder s (s v) judge

/-- The environment is true under the first assignment, and the second one gives the rule's own
variables what they are bound to. -/
structure TrueWith (s own : Assignment U) (k : Env) : Prop where
  known : k.TrueUnder s
  bindings : ∀ {l r}, k.referent? l = some r → (own l : Constant).Equals (r.under s)

variable {s own : Assignment U} {k k' : Env}

/-- Before anything is bound only the declared variables count. -/
theorem trueWith_startMatching_iff : k.startMatching.TrueWith s own ↔ k.TrueUnder s :=
  ⟨fun h => h.known, fun h => ⟨h, fun hl => by simp [referent?, startMatching] at hl⟩⟩

/-- What a variable of the rule is bound to stands for a constant of the set. -/
theorem Over.under_mem (hk : k.Over U) {l : Variable} {r : Referent}
    (hl : k.referent? l = some r) : U (r.under s) := by
  cases r with
  | const c => exact hk.locals hl
  | var v => exact (s v).2

/-- What the rule's own variables are bound to; the unbound ones stand for anything. -/
noncomputable def ownValues (hU : Constant.Lawful U) (k : Env) (s : Assignment U) :
    Assignment U :=
  fun l => match k.referent? l with
    | some r => hU.pick (r.under s)
    | none => hU.pick (.atom "")

/-- The own variables of a rule can be given what they are bound to. -/
theorem TrueUnder.trueWith_ownValues (hU : Constant.Lawful U) (hkU : k.Over U)
    (h : k.TrueUnder s) : k.TrueWith s (k.ownValues hU s) := by
  refine ⟨h, fun {l r} hl => ?_⟩
  have hr : U (r.under s) := hkU.under_mem hl
  rw [ownValues, hl]
  simp only [hU.coe_pick hr]
  exact .refl _

end Env

end Deduction

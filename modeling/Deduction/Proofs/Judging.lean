import Deduction.Proofs.Growth
import Deduction.Proofs.Learning

/-!
# Learning under a judge

How two payloads compare is up to the host, so what it takes for an equation to be known is told
for any judge: one who may fail on payloads, or find one equal to another but not the other way
round. An equation that holds in this sense goes on to hold in all extensions, and an attempt to
learn it again finds that it is known. Every attempt takes one elementary update at most, and it has
taken none just when no entry changed.
-/

namespace Deduction

variable {U : Constant → Prop} {judge : Judge} {k k₁ k' : Env} {o : Outcome}

/-! ## What an attempt leads to -/

/-- Every elementary update changes an entry. -/
theorem Env.Update.entries_ne (h : Update U k k₁) (hk : k.Numbered) :
    ¬ (k₁.statuses = k.statuses ∧ k₁.locals = k.locals) := by
  have hget : ∀ {α : Type} {m n : VarMap α} {v : Variable} {a : α}, m = n →
      m.get? v = some a → n.get? v ≠ some a → False := fun hmn hm hn => hn (hmn ▸ hm)
  rintro ⟨hstatuses, hlocals⟩
  cases h with
  | @resolved v c hv _ => exact hget hstatuses (VarMap.get?_insert_self _ v _) (by simp [hv])
  | @linked v r hv _ _ => exact hget hstatuses (VarMap.get?_insert_self _ v _) (by simp [hv])
  | @bound l r hl _ =>
    have hnone : k.locals.get? l = none := hl
    exact hget hlocals (VarMap.get?_insert_self _ l _) (by simp [hnone])
  | @issued stem =>
    have hnone := hk.get?_next (v := .temporary stem k.next) rfl
    exact hget hstatuses (VarMap.get?_insert_self _ _ _) (by simp [hnone])
  | @renamed l hl =>
    have hnone : k.locals.get? l = none := hl
    rw [declareLocal_of_unbound hl] at hlocals
    exact hget hlocals (VarMap.get?_insert_self _ l _) (by simp [hnone])

namespace Outcome.Updates

/-- The attempt taught nothing new just when no entry changed. -/
theorem known_iff (h : o.Updates U k k₁) (hk : k.Numbered) :
    o = .known ↔ k₁.statuses = k.statuses ∧ k₁.locals = k.locals := by
  rcases h with ⟨rfl, rfl⟩ | ⟨rfl, h, _⟩
  · simp
  · simpa using h.entries_ne hk

end Outcome.Updates

namespace Env

/-! ## What holds once it was learned -/

section

variable (judge)

/-- The variable is known to stand for a constant that agrees with the given one. -/
def TellsBy (k : Env) (v : Variable) (c : Constant) : Prop :=
  ∃ d, k.valueOf v = .ok (some d) ∧ d.agrees c judge = .ok true

/-- The variables stand for the same, or for two constants that agree. -/
def AlikeBy (k : Env) (v w : Variable) : Prop :=
  k.Joined v w ∨ ∃ c d, k.valueOf v = .ok (some c) ∧ k.valueOf w = .ok (some d) ∧
    c.agrees d judge = .ok true

/-- The referents stand for the same, in one of the ways in which this can be learned. -/
def HoldsBy (k : Env) : Referent → Referent → Prop
  | .var v, .var w => k.AlikeBy judge v w
  | .var v, .const c | .const c, .var v => k.TellsBy judge v c
  | .const _, .const _ => False

/-- What an own variable of the rule is bound to agrees with the referent, or stands for the same
without being equal to it. -/
def BoundBy (k : Env) (l : Variable) (r : Referent) : Prop :=
  ∃ p, k.referent? l = some p ∧ (p.agrees r judge = .ok true ∨
    p.agrees r judge = .ok false ∧ k.HoldsBy judge p r)

end

/-- What is known to agree with a constant goes on to do so. -/
theorem TellsBy.mono {v : Variable} {c : Constant} (h : k.TellsBy judge v c)
    (hk : k.Extends k') : k'.TellsBy judge v c := by
  obtain ⟨d, hd, hagrees⟩ := h
  exact ⟨d, hk.valueOf_eq hd, hagrees⟩

/-- Variables that are alike stay alike. -/
theorem AlikeBy.mono {v w : Variable} (h : k.AlikeBy judge v w) (hk : k.Extends k')
    (hk' : Grounded k'.statuses) : k'.AlikeBy judge v w := by
  rcases h with hjoined | ⟨c, d, hc, hd, hagrees⟩
  · exact Or.inl (hk.joined hk' hjoined)
  · exact Or.inr ⟨c, d, hk.valueOf_eq hc, hk.valueOf_eq hd, hagrees⟩

/-- What holds of two referents goes on to hold. -/
theorem HoldsBy.mono {p r : Referent} (h : k.HoldsBy judge p r) (hk : k.Extends k')
    (hk' : Grounded k'.statuses) : k'.HoldsBy judge p r := by
  cases p with
  | var v =>
    cases r with
    | var w => exact AlikeBy.mono h hk hk'
    | const c => exact TellsBy.mono h hk
  | const c =>
    cases r with
    | var w => exact TellsBy.mono h hk
    | const d => exact h

/-- With the same bindings, a bound variable goes on to stand for the referent. -/
theorem BoundBy.mono {l : Variable} {r : Referent} (h : k.BoundBy judge l r) (hk : k.Extends k')
    (hk' : Grounded k'.statuses) (hl : k'.referent? l = k.referent? l) :
    k'.BoundBy judge l r := by
  obtain ⟨p, hp, hagrees | ⟨hagrees, hholds⟩⟩ := h
  · exact ⟨p, hl.trans hp, Or.inl hagrees⟩
  · exact ⟨p, hl.trans hp, Or.inr ⟨hagrees, hholds.mono hk hk'⟩⟩

/-! ## What holds is known -/

/-- A variable that has an agreeing constant needs not be resolved. -/
theorem resolve_of_tells {v : Variable} {c : Constant} (h : k.TellsBy judge v c) :
    k.resolve v c judge = .ok .known := by
  obtain ⟨d, hd, hagrees⟩ := h
  obtain ⟨⟨last, value⟩, hr, hvalue⟩ := exists_ends_of_valueOf hd
  obtain rfl : value = some d := hvalue
  simp [resolve, hr.root_eq, hagrees, Outcome.ofComparison]

/-- Variables that are alike need not be linked. -/
theorem link_of_alike {v w : Variable} (h : k.AlikeBy judge v w) :
    k.link v w judge = .ok .known := by
  rcases h with ⟨rv, rw, hv, hw, hlast⟩ | ⟨c, d, hc, hd, hagrees⟩
  · simp [link, hv, hw, hlast]
  · obtain ⟨rv, hv, hvalue⟩ := exists_ends_of_valueOf hc
    obtain ⟨rw, hw, hvalue'⟩ := exists_ends_of_valueOf hd
    simp [link, hv.root_eq, hw.root_eq, hvalue, hvalue', hagrees, Outcome.ofComparison]

/-- Referents of which it is known need not be equated. -/
theorem equate_of_holds {p r : Referent} (h : k.HoldsBy judge p r) :
    k.equate p r judge = .ok .known := by
  cases p with
  | var v =>
    cases r with
    | var w => exact link_of_alike h
    | const c => exact resolve_of_tells h
  | const c =>
    cases r with
    | var w => exact resolve_of_tells h
    | const d => exact h.elim

/-- A variable that is bound in this sense needs no assignment. -/
theorem assignReferent_of_bound {l : Variable} {r : Referent} (h : k.BoundBy judge l r) :
    k.assignReferent l r judge = .ok .known := by
  obtain ⟨p, hp, hagrees | ⟨hagrees, hholds⟩⟩ := h
  · simp only [assignReferent, hp, hagrees]
  · simp only [assignReferent, hp, hagrees, equate_of_holds hholds]

end Env

end Deduction

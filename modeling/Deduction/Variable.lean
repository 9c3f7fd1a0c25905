/-!
# Logic variables

A variable is written by name, or issued by an environment under a fresh number:
a temporary stands for the value of a phrase, and a renamed variable is a rule's
own variable, renamed apart for one application of the rule.
-/

namespace Deduction

/-- A logic variable: written by name, or issued under a number. -/
inductive Variable where
  | named (name : String)
  | temporary (stem : String) (id : Nat)
  | renamed (name : String) (id : Nat)
  deriving DecidableEq, Repr

namespace Variable

/-- The name a variable was written or issued with. -/
def name : Variable → String
  | named n | temporary n _ | renamed n _ => n

/-- The number an issued variable carries. -/
def id? : Variable → Option Nat
  | named _ => none
  | temporary _ i | renamed _ i => some i

/-- Issued variables are the numbered ones. -/
def IsIssued (v : Variable) : Prop := v.id?.isSome = true

instance (v : Variable) : Decidable v.IsIssued := inferInstanceAs (Decidable (_ = true))

/-- Temporaries stand for phrases. -/
def isTemporary : Variable → Bool
  | temporary _ _ => true
  | named _ | renamed _ _ => false

/-- A question mark and the name; issued variables add their number. -/
def render (v : Variable) : String :=
  match v.id? with
  | none => "?" ++ v.name
  | some i => "?" ++ v.name ++ "#" ++ toString i

/-! ## The order of variables

Named variables come first, then temporaries, then renamed ones; within a kind
the name decides, then the number. -/

/-- Position of a variable's kind in the order. -/
def rank : Variable → Nat
  | named _ => 0
  | temporary _ _ => 1
  | renamed _ _ => 2

/-- The number that breaks ties between equal names. -/
def number (v : Variable) : Nat := v.id?.getD 0

instance : LT Variable where
  lt v w := v.rank < w.rank ∨
    v.rank = w.rank ∧ (v.name < w.name ∨ v.name = w.name ∧ v.number < w.number)

/-- Variables are compared by kind first, then by name, and by number at last. -/
theorem lt_def {v w : Variable} : v < w ↔ v.rank < w.rank ∨
    v.rank = w.rank ∧ (v.name < w.name ∨ v.name = w.name ∧ v.number < w.number) := Iff.rfl

instance (v w : Variable) : Decidable (v < w) := decidable_of_iff _ lt_def.symm

/-- Kind, name and number determine a variable. -/
theorem eq_of_rank_name_number {v w : Variable} (hr : v.rank = w.rank) (hn : v.name = w.name)
    (hi : v.number = w.number) : v = w := by
  cases v <;> cases w <;> simp_all [rank, name, number, id?]

/-- No variable comes before itself. -/
protected theorem lt_irrefl (v : Variable) : ¬ v < v := by
  simp [lt_def]

/-- What comes before an earlier variable comes before the later one, too. -/
protected theorem lt_trans {u v w : Variable} (huv : u < v) (hvw : v < w) : u < w := by
  rw [lt_def] at *
  rcases huv with h₁ | ⟨h₁, h₂⟩ <;> rcases hvw with h₃ | ⟨h₃, h₄⟩
  · exact Or.inl (Nat.lt_trans h₁ h₃)
  · exact Or.inl (h₃ ▸ h₁)
  · exact Or.inl (h₁ ▸ h₃)
  · refine Or.inr ⟨h₁.trans h₃, ?_⟩
    rcases h₂ with h₂ | ⟨h₂, h₅⟩ <;> rcases h₄ with h₄ | ⟨h₄, h₆⟩
    · exact Or.inl (String.lt_trans h₂ h₄)
    · exact Or.inl (h₄ ▸ h₂)
    · exact Or.inl (h₂ ▸ h₄)
    · exact Or.inr ⟨h₂.trans h₄, Nat.lt_trans h₅ h₆⟩

/-- Of two different variables one comes before the other. -/
protected theorem lt_trichotomy (v w : Variable) : v < w ∨ v = w ∨ w < v := by
  rcases Nat.lt_trichotomy v.rank w.rank with h | h | h
  · exact Or.inl (Or.inl h)
  · by_cases hvw : v.name < w.name
    · exact Or.inl (Or.inr ⟨h, Or.inl hvw⟩)
    · by_cases hwv : w.name < v.name
      · exact Or.inr (Or.inr (Or.inr ⟨h.symm, Or.inl hwv⟩))
      · have hn : v.name = w.name :=
          String.le_antisymm (String.not_lt.mp hwv) (String.not_lt.mp hvw)
        rcases Nat.lt_trichotomy v.number w.number with hi | hi | hi
        · exact Or.inl (Or.inr ⟨h, Or.inr ⟨hn, hi⟩⟩)
        · exact Or.inr (Or.inl (eq_of_rank_name_number h hn hi))
        · exact Or.inr (Or.inr (Or.inr ⟨h.symm, Or.inr ⟨hn.symm, hi⟩⟩))
  · exact Or.inr (Or.inr (Or.inl h))

end Variable

end Deduction

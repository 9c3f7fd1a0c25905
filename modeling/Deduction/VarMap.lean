import Deduction.Variable

/-!
# Finite maps from variables

A map keeps its entries in ascending order of their variables, so two maps that
answer every look-up alike are equal, and listing a map needs no sorting.
-/

namespace Deduction

/-- A finite map from variables, listed in ascending order of the variables. -/
structure VarMap (α : Type) where
  entries : List (Variable × α)
  ascending : entries.Pairwise fun a b => a.1 < b.1
  deriving DecidableEq, Repr

namespace VarMap

variable {α : Type}

/-- The first value listed for a variable. -/
def find (v : Variable) : List (Variable × α) → Option α
  | [] => none
  | (w, a) :: rest => if v = w then some a else find v rest

/-- Places an entry in ascending order, in the stead of an earlier one for its variable. -/
def place (v : Variable) (a : α) : List (Variable × α) → List (Variable × α)
  | [] => [(v, a)]
  | (w, b) :: rest =>
    if v < w then (v, a) :: (w, b) :: rest
    else if v = w then (v, a) :: rest
    else (w, b) :: place v a rest

/-- Placing an entry adds that entry at most. -/
theorem mem_place {v : Variable} {a : α} {x : Variable × α} {l : List (Variable × α)}
    (h : x ∈ place v a l) : x = (v, a) ∨ x ∈ l := by
  induction l with
  | nil => simpa [place] using h
  | cons y rest ih =>
    rw [place] at h
    split at h
    · simpa using h
    · split at h <;> grind

/-- Entries stay in ascending order when one is placed among them. -/
theorem place_ascending (v : Variable) (a : α) {l : List (Variable × α)}
    (h : l.Pairwise fun a b => a.1 < b.1) : (place v a l).Pairwise fun a b => a.1 < b.1 := by
  induction l with
  | nil => simp [place]
  | cons y rest ih =>
    obtain ⟨hy, hrest⟩ := List.pairwise_cons.mp h
    rw [place]
    split
    · rename_i hlt
      refine List.pairwise_cons.mpr ⟨fun z hz => ?_, h⟩
      rcases List.mem_cons.mp hz with rfl | hz
      · exact hlt
      · exact Variable.lt_trans hlt (hy z hz)
    · rename_i hnlt
      split
      · rename_i heq
        exact List.pairwise_cons.mpr ⟨fun z hz => heq ▸ hy z hz, hrest⟩
      · rename_i hne
        refine List.pairwise_cons.mpr ⟨fun z hz => ?_, ih hrest⟩
        rcases mem_place hz with rfl | hz
        · rcases Variable.lt_trichotomy v y.1 with h | h | h
          · exact absurd h hnlt
          · exact absurd h hne
          · exact h
        · exact hy z hz

/-- A placed entry is found under its own variable, and all others are found as before. -/
theorem find_place (v w : Variable) (a : α) (l : List (Variable × α)) :
    find w (place v a l) = if w = v then some a else find w l := by
  induction l with
  | nil => simp [place, find]
  | cons y rest ih =>
    rw [place]
    split
    · simp [find]
    · split
      · rename_i heq
        subst heq
        by_cases h : w = y.1 <;> simp [find, h]
      · by_cases h : w = y.1
        · have : w ≠ v := fun hv => by simp_all
          simp [find, h]
          simp_all
        · simp [find, h, ih]

/-- The value of a variable. -/
def get? (m : VarMap α) (v : Variable) : Option α := find v m.entries

/-- Whether a variable has a value. -/
def contains (m : VarMap α) (v : Variable) : Bool := (m.get? v).isSome

/-- The variables with a value, in ascending order. -/
def keys (m : VarMap α) : List Variable := m.entries.map Prod.fst

/-- The number of variables with a value. -/
def size (m : VarMap α) : Nat := m.entries.length

/-- The map without entries. -/
def empty : VarMap α := ⟨[], List.Pairwise.nil⟩

/-- Gives a variable a value, replacing the one it had. -/
def insert (m : VarMap α) (v : Variable) (a : α) : VarMap α :=
  ⟨place v a m.entries, place_ascending v a m.ascending⟩

/-- Gives every listed variable its own value. -/
def tabulate (vs : List Variable) (f : Variable → α) : VarMap α :=
  vs.foldl (fun m v => m.insert v (f v)) empty

/-- Gives every listed variable the same value. -/
def constant (vs : List Variable) (a : α) : VarMap α :=
  vs.foldl (fun m v => m.insert v a) empty

/-- Computes a new value for every listed variable, up to the first error. -/
def rebuildEntries {ε β : Type} (f : Variable → Except ε β) :
    List (Variable × α) → Except ε (List (Variable × β))
  | [] => .ok []
  | (v, _) :: rest =>
    match f v with
    | .error e => .error e
    | .ok b =>
      match rebuildEntries f rest with
      | .error e => .error e
      | .ok new => .ok ((v, b) :: new)

/-- Rebuilt entries have the same variables in the same order. -/
theorem map_fst_of_rebuildEntries {ε β : Type} {f : Variable → Except ε β}
    {l : List (Variable × α)} {new : List (Variable × β)} (h : rebuildEntries f l = .ok new) :
    new.map Prod.fst = l.map Prod.fst := by
  induction l generalizing new with
  | nil => cases h; rfl
  | cons x rest ih =>
    rw [rebuildEntries] at h
    split at h
    · cases h
    · split at h
      · cases h
      · rename_i hrest
        cases h
        simp [ih hrest]

/-- A map with the same variables and newly computed values, unless there is an error. -/
def rebuild {ε β : Type} (m : VarMap α) (f : Variable → Except ε β) : Except ε (VarMap β) :=
  match h : rebuildEntries f m.entries with
  | .error e => .error e
  | .ok new => .ok ⟨new, by
      have hm : (new.map Prod.fst).Pairwise (· < ·) := by
        rw [map_fst_of_rebuildEntries h]
        exact List.pairwise_map.mpr m.ascending
      exact List.pairwise_map.mp hm⟩

/-- Equal domains and, variable by variable, values that a comparison accepts. -/
def agrees (same : α → α → Bool) (m n : VarMap α) : Bool :=
  m.size == n.size && m.entries.all fun (v, a) =>
    match n.get? v with
    | none => false
    | some b => same a b

@[simp] theorem get?_empty (v : Variable) : (empty : VarMap α).get? v = none := rfl

/-- An insertion is seen under its own variable only. -/
theorem get?_insert (m : VarMap α) (v w : Variable) (a : α) :
    (m.insert v a).get? w = if w = v then some a else m.get? w :=
  find_place v w a m.entries

@[simp] theorem get?_insert_self (m : VarMap α) (v : Variable) (a : α) :
    (m.insert v a).get? v = some a := by simp [get?_insert]

/-- Other variables keep their values in an insertion. -/
theorem get?_insert_of_ne (m : VarMap α) {v w : Variable} (a : α) (h : w ≠ v) :
    (m.insert v a).get? w = m.get? w := by simp [get?_insert, h]

/-- A map contains the variables that it has a value for. -/
theorem contains_iff {m : VarMap α} {v : Variable} :
    m.contains v = true ↔ ∃ a, m.get? v = some a := by
  simp [contains, Option.isSome_iff_exists]

/-- An insertion adds its own variable to those that are contained. -/
theorem contains_insert (m : VarMap α) (v w : Variable) (a : α) :
    (m.insert v a).contains w = (decide (w = v) || m.contains w) := by
  by_cases h : w = v <;> simp [contains, get?_insert, h]

/-- Exactly the listed variables get a value, each its own. -/
theorem get?_tabulate (vs : List Variable) (f : Variable → α) (v : Variable) :
    (tabulate vs f).get? v = if v ∈ vs then some (f v) else none := by
  have hfold : ∀ (m : VarMap α), (vs.foldl (fun m v => m.insert v (f v)) m).get? v =
      if v ∈ vs then some (f v) else m.get? v := by
    induction vs with
    | nil => intro m; simp
    | cons w rest ih =>
      intro m
      rw [List.foldl_cons, ih, get?_insert]
      by_cases hw : v = w <;> by_cases hr : v ∈ rest <;> simp [hw, hr]
  simpa [tabulate] using hfold empty

/-- Exactly the listed variables get the constant value. -/
theorem get?_constant (vs : List Variable) (a : α) (v : Variable) :
    (constant vs a).get? v = if v ∈ vs then some a else none :=
  get?_tabulate vs (fun _ => a) v

private theorem find_rebuildEntries {ε β : Type} {f : Variable → Except ε β}
    {l : List (Variable × α)} {new : List (Variable × β)} (h : rebuildEntries f l = .ok new)
    (v : Variable) : find v new = if (find v l).isSome then (f v).toOption else none := by
  induction l generalizing new with
  | nil => cases h; rfl
  | cons x rest ih =>
    rw [rebuildEntries] at h
    split at h
    · cases h
    · rename_i hf
      split at h
      · cases h
      · rename_i hrest
        cases h
        by_cases hv : v = x.1
        · simp [find, hv, hf, Except.toOption]
        · simp [find, hv, ih hrest]

/-- A rebuilt map has the same variables, each with the value computed for it. -/
theorem get?_of_rebuild {ε β : Type} {m : VarMap α} {f : Variable → Except ε β} {n : VarMap β}
    (h : m.rebuild f = .ok n) (v : Variable) :
    n.get? v = if m.contains v then (f v).toOption else none := by
  rw [rebuild] at h
  split at h
  · cases h
  · rename_i hnew
    cases h
    exact find_rebuildEntries hnew v

private theorem find_eq_some_iff {v : Variable} {a : α} {l : List (Variable × α)}
    (h : l.Pairwise fun a b => a.1 < b.1) : find v l = some a ↔ (v, a) ∈ l := by
  induction l with
  | nil => simp [find]
  | cons y rest ih =>
    obtain ⟨hy, hrest⟩ := List.pairwise_cons.mp h
    by_cases hv : v = y.1
    · subst hv
      have hnot : (y.1, a) ∉ rest := fun hm => Variable.lt_irrefl y.1 (hy (y.1, a) hm)
      simp only [find, if_true, Option.some.injEq, List.mem_cons, hnot, or_false]
      exact ⟨fun e => by rw [← e], fun e => by rw [← e]⟩
    · have hne : (v, a) ≠ y := fun e => hv (by rw [← e])
      simp [find, hv, ih hrest, hne]

/-- The value of a variable is the one that it is listed with. -/
theorem get?_eq_some_iff {m : VarMap α} {v : Variable} {a : α} :
    m.get? v = some a ↔ (v, a) ∈ m.entries :=
  find_eq_some_iff m.ascending

/-- The keys are the variables that are contained. -/
theorem mem_keys {m : VarMap α} {v : Variable} : v ∈ m.keys ↔ m.contains v = true := by
  simp [keys, contains_iff, get?_eq_some_iff]

/-- Maps that answer every look-up alike are equal. -/
theorem ext_get? {m n : VarMap α} (h : ∀ v, m.get? v = n.get? v) : m = n := by
  have hmem : ∀ x, x ∈ m.entries ↔ x ∈ n.entries := fun x => by
    rw [← get?_eq_some_iff (v := x.1) (a := x.2), ← get?_eq_some_iff (v := x.1) (a := x.2), h]
  have heq : m.entries = n.entries := by
    have hm := m.ascending
    have hn := n.ascending
    revert hm hn hmem
    generalize m.entries = l
    generalize n.entries = l'
    intro hmem hm hn
    induction l generalizing l' with
    | nil =>
      cases l' with
      | nil => rfl
      | cons y rest => exact absurd ((hmem y).mpr List.mem_cons_self) (by simp)
    | cons x rest ih =>
      cases l' with
      | nil => exact absurd ((hmem x).mp List.mem_cons_self) (by simp)
      | cons y rest' =>
        obtain ⟨hx, hrest⟩ := List.pairwise_cons.mp hm
        obtain ⟨hy, hrest'⟩ := List.pairwise_cons.mp hn
        have hxy : x = y := by
          rcases List.mem_cons.mp ((hmem x).mp List.mem_cons_self) with h₁ | h₁
          · exact h₁
          · rcases List.mem_cons.mp ((hmem y).mpr List.mem_cons_self) with h₂ | h₂
            · exact h₂.symm
            · exact absurd (Variable.lt_trans (hx y h₂) (hy x h₁)) (Variable.lt_irrefl _)
        subst hxy
        refine congrArg (x :: ·) (ih rest' (fun z => ?_) hrest hrest')
        have hz := hmem z
        have hne : z ∈ rest → z ≠ x := fun hz e => Variable.lt_irrefl _ (e ▸ hx z hz)
        have hne' : z ∈ rest' → z ≠ x := fun hz e => Variable.lt_irrefl _ (e ▸ hy z hz)
        simp only [List.mem_cons] at hz
        exact ⟨fun h => ((hz.mp (Or.inr h)).resolve_left (hne h)),
          fun h => ((hz.mpr (Or.inr h)).resolve_left (hne' h))⟩
  cases m
  cases n
  simp_all

end VarMap

end Deduction

import Deduction.Env.Basic
import Mathlib.Data.List.Nodup
import Mathlib.Data.List.Perm.Subperm

/-!
# Chains of links

The chain of a variable is described apart from the bounded walk that computes its
root: a chain ends in an unresolved or resolved variable, or it does not end at all.
A chain that ends repeats no variable, so the walk always has enough steps for it.
Placing a status at an unresolved end redirects exactly the chains that end there.
-/

namespace Deduction

/-- An entry of a map after an insertion is the inserted one or was there before. -/
theorem VarMap.get?_insert_cases {α : Type} {m : VarMap α} {v w : Variable} {a b : α}
    (h : (m.insert v a).get? w = some b) : w = v ∧ a = b ∨ m.get? w = some b := by
  rw [get?_insert] at h
  split at h
  · rename_i hwv
    exact Or.inl ⟨hwv, Option.some.inj h⟩
  · exact Or.inr h

/-- Inserting a variable that was absent leaves all other entries as they are. -/
theorem VarMap.get?_insert_of_absent {α : Type} {m : VarMap α} {v w : Variable} {b : α} (a : α)
    (hv : m.get? v = none) (hw : m.get? w = some b) : (m.insert v a).get? w = some b := by
  have hne : w ≠ v := by
    rintro rfl
    rw [hv] at hw
    cases hw
  rw [get?_insert_of_ne m a hne, hw]

/-- No variable is listed twice. -/
theorem VarMap.nodup_keys {α : Type} (m : VarMap α) : m.keys.Nodup := by
  refine List.pairwise_map.mpr (m.ascending.imp fun {a b} hlt heq => ?_)
  exact Variable.lt_irrefl b.1 (heq ▸ hlt)

/-- Maps with the same variables have the same size. -/
theorem VarMap.size_eq_of_contains {α β : Type} {m : VarMap α} {n : VarMap β}
    (h : ∀ v, m.contains v = n.contains v) : m.size = n.size := by
  have hkeys : m.keys.Perm n.keys := by
    refine (List.perm_ext_iff_of_nodup (nodup_keys _) (nodup_keys _)).mpr fun v => ?_
    rw [mem_keys, mem_keys, h]
  simpa [keys, size] using hkeys.length_eq

/-- The status of the variable in which a chain ends. -/
def Root.status : Root → Status
  | ⟨_, none⟩ => .unresolved
  | ⟨_, some c⟩ => .resolved c

/-- Two roots that tell the same: the same constant, or the same unresolved variable. -/
def Root.Same (r r' : Root) : Prop := r'.value = r.value ∧ (r.value = none → r' = r)

/-- Every root is the same as itself. -/
theorem Root.Same.refl (r : Root) : r.Same r := ⟨rfl, fun _ => rfl⟩

namespace Env

variable {m : VarMap Status} {v w : Variable} {r : Root}

/-- Following links from a variable ends in the given root. -/
inductive Ends (m : VarMap Status) : Variable → Root → Prop
  | unresolved {v : Variable} (h : m.get? v = some .unresolved) : Ends m v ⟨v, none⟩
  | resolved {v : Variable} {c : Constant} (h : m.get? v = some (.resolved c)) :
      Ends m v ⟨v, some c⟩
  | linked {v w : Variable} {r : Root} (h : m.get? v = some (.linked w)) (hw : Ends m w r) :
      Ends m v r

/-- A chain has at most one end. -/
theorem Ends.unique {r' : Root} (h : Ends m v r) (h' : Ends m v r') : r = r' := by
  induction h with
  | unresolved hv => cases h' <;> simp_all
  | resolved hv => cases h' <;> simp_all
  | linked hv _ ih =>
    cases h' with
    | unresolved hv' => simp_all
    | resolved hv' => simp_all
    | linked hv' hw' =>
      have hw := hv.symm.trans hv'
      simp only [Option.some.injEq, Status.linked.injEq] at hw
      exact ih (hw ▸ hw')

/-- Behind a link the chain goes on to the same end. -/
theorem Ends.of_linked (h : Ends m v r) (hv : m.get? v = some (.linked w)) : Ends m w r := by
  cases h with
  | unresolved hv' => simp [hv] at hv'
  | resolved hv' => simp [hv] at hv'
  | linked hv' hw =>
    have hw' := hv.symm.trans hv'
    simp only [Option.some.injEq, Status.linked.injEq] at hw'
    exact hw' ▸ hw

/-- The variable a chain ends in has the status that the root tells. -/
theorem Ends.get?_last (h : Ends m v r) : m.get? r.last = some r.status := by
  induction h with
  | unresolved hv => exact hv
  | resolved hv => exact hv
  | linked _ _ ih => exact ih

/-- Where a chain ends without a constant, its last variable is unresolved. -/
theorem Ends.get?_last_unresolved (h : Ends m v r) (hr : r.value = none) :
    m.get? r.last = some .unresolved := by
  obtain ⟨last, value⟩ := r
  subst hr
  exact h.get?_last

/-- Where a chain ends with a constant, its last variable is resolved with it. -/
theorem Ends.get?_last_resolved (h : Ends m v r) {c : Constant} (hr : r.value = some c) :
    m.get? r.last = some (.resolved c) := by
  obtain ⟨last, value⟩ := r
  subst hr
  exact h.get?_last

/-- The end of a chain is its own end. -/
theorem Ends.ends_last (h : Ends m v r) : Ends m r.last r := by
  induction h with
  | unresolved hv => exact .unresolved hv
  | resolved hv => exact .resolved hv
  | linked _ _ ih => exact ih

/-- Only declared variables have chains that end. -/
theorem Ends.contains (h : Ends m v r) : m.contains v = true := by
  cases h with
  | unresolved hv => exact VarMap.contains_iff.mpr ⟨_, hv⟩
  | resolved hv => exact VarMap.contains_iff.mpr ⟨_, hv⟩
  | linked hv _ => exact VarMap.contains_iff.mpr ⟨_, hv⟩

/-! ## The bounded walk -/

/-- What the walk finds is the end of the chain. -/
theorem ends_of_follow {n : Nat} (h : follow m n v = .ok r) : Ends m v r := by
  induction n generalizing v with
  | zero => cases h
  | succ n ih =>
    rw [follow] at h
    split at h
    · cases h
    · cases h; exact .unresolved ‹_›
    · cases h; exact .resolved ‹_›
    · exact .linked ‹_› (ih h)

/-- A chain that ends, with the number of its variables. -/
private inductive EndsIn (m : VarMap Status) : Nat → Variable → Root → Prop
  | unresolved {v : Variable} (h : m.get? v = some .unresolved) : EndsIn m 1 v ⟨v, none⟩
  | resolved {v : Variable} {c : Constant} (h : m.get? v = some (.resolved c)) :
      EndsIn m 1 v ⟨v, some c⟩
  | linked {n : Nat} {v w : Variable} {r : Root} (h : m.get? v = some (.linked w))
      (hw : EndsIn m n w r) : EndsIn m (n + 1) v r

private theorem Ends.exists_endsIn (h : Ends m v r) : ∃ n, EndsIn m n v r := by
  induction h with
  | unresolved hv => exact ⟨1, .unresolved hv⟩
  | resolved hv => exact ⟨1, .resolved hv⟩
  | linked hv _ ih =>
    obtain ⟨n, hn⟩ := ih
    exact ⟨n + 1, .linked hv hn⟩

private theorem EndsIn.length_unique {n n' : Nat} {r' : Root} (h : EndsIn m n v r)
    (h' : EndsIn m n' v r') : n = n' := by
  induction h generalizing n' with
  | unresolved hv => cases h' <;> simp_all
  | resolved hv => cases h' <;> simp_all
  | linked hv _ ih =>
    cases h' with
    | unresolved hv' => simp_all
    | resolved hv' => simp_all
    | linked hv' hw' =>
      have hw := hv.symm.trans hv'
      simp only [Option.some.injEq, Status.linked.injEq] at hw
      rw [ih (hw ▸ hw')]

/-- The variables of a chain are declared and distinct: a repeated one would have two
different distances from the end. -/
private theorem EndsIn.exists_trail {n : Nat} (h : EndsIn m n v r) :
    ∃ trail : List Variable, trail.length = n ∧ trail.Nodup ∧
      ∀ u ∈ trail, u ∈ m.keys ∧ ∃ i ≤ n, EndsIn m i u r := by
  induction h with
  | @unresolved v hv =>
    refine ⟨[v], rfl, List.nodup_singleton v, fun u hu => ?_⟩
    rw [List.mem_singleton.mp hu]
    exact ⟨VarMap.mem_keys.mpr (VarMap.contains_iff.mpr ⟨_, hv⟩), 1, Nat.le_refl _, .unresolved hv⟩
  | @resolved v c hv =>
    refine ⟨[v], rfl, List.nodup_singleton v, fun u hu => ?_⟩
    rw [List.mem_singleton.mp hu]
    exact ⟨VarMap.mem_keys.mpr (VarMap.contains_iff.mpr ⟨_, hv⟩), 1, Nat.le_refl _, .resolved hv⟩
  | @linked n v w r hv hw ih =>
    obtain ⟨trail, hlength, hnodup, htrail⟩ := ih
    have hv' : EndsIn m (n + 1) v r := .linked hv hw
    have hnot : v ∉ trail := by
      intro hmem
      obtain ⟨_, i, hi, hends⟩ := htrail v hmem
      have := hends.length_unique hv'
      omega
    refine ⟨v :: trail, by simp [hlength], List.nodup_cons.mpr ⟨hnot, hnodup⟩, fun u hu => ?_⟩
    rcases List.mem_cons.mp hu with rfl | hu
    · exact ⟨VarMap.mem_keys.mpr (VarMap.contains_iff.mpr ⟨_, hv⟩), n + 1, Nat.le_refl _, hv'⟩
    · obtain ⟨hkey, i, hi, hends⟩ := htrail u hu
      exact ⟨hkey, i, by omega, hends⟩

private theorem EndsIn.length_le_size {n : Nat} (h : EndsIn m n v r) : n ≤ m.size := by
  obtain ⟨trail, hlength, hnodup, htrail⟩ := h.exists_trail
  have hsub : trail ⊆ m.keys := fun u hu => (htrail u hu).1
  have hle := (hnodup.subperm hsub).length_le
  simpa [hlength, VarMap.keys, VarMap.size] using hle

private theorem EndsIn.follow_eq {n steps : Nat} (h : EndsIn m n v r) (hle : n ≤ steps) :
    follow m steps v = .ok r := by
  induction h generalizing steps with
  | unresolved hv =>
    obtain ⟨steps, rfl⟩ := Nat.exists_eq_add_of_le' hle
    simp [follow, hv]
  | resolved hv =>
    obtain ⟨steps, rfl⟩ := Nat.exists_eq_add_of_le' hle
    simp [follow, hv]
  | linked hv _ ih =>
    obtain ⟨steps, rfl⟩ := Nat.exists_eq_add_of_le' (Nat.le_of_add_left_le hle)
    simp only [follow, hv]
    exact ih (by omega)

/-- The bound on the walk is never the reason for its failure. -/
theorem root_eq_ok_iff {k : Env} : k.root v = .ok r ↔ Ends k.statuses v r := by
  constructor
  · exact ends_of_follow
  · intro h
    obtain ⟨n, hn⟩ := h.exists_endsIn
    exact hn.follow_eq hn.length_le_size

/-- The end of a chain is what is found when the chain is followed. -/
theorem Ends.root_eq {k : Env} (h : Ends k.statuses v r) : k.root v = .ok r :=
  root_eq_ok_iff.mpr h

/-- What is known of a variable is told at the end of its chain. -/
theorem Ends.valueOf_eq {k : Env} (h : Ends k.statuses v r) : k.valueOf v = .ok r.value := by
  rw [valueOf, h.root_eq]
  rfl

/-- A value is told of variables whose chains end, and it is the value at the end. -/
theorem exists_ends_of_valueOf {k : Env} {value : Option Constant}
    (h : k.valueOf v = .ok value) : ∃ r, Ends k.statuses v r ∧ r.value = value := by
  rw [valueOf] at h
  cases hroot : k.root v with
  | error f => rw [hroot] at h; cases h
  | ok r =>
    rw [hroot] at h
    exact ⟨r, root_eq_ok_iff.mp hroot, Except.ok.inj h⟩

/-! ## Variables that stand for the same -/

/-- The chains of the two variables end in the same variable. -/
def Joined (k : Env) (v w : Variable) : Prop :=
  ∃ r r', k.root v = .ok r ∧ k.root w = .ok r' ∧ r.last = r'.last

/-- Whether two variables stand for the same is seen where their chains end. -/
theorem Ends.joined_iff {k : Env} {r' : Root} (hv : Ends k.statuses v r)
    (hw : Ends k.statuses w r') : k.Joined v w ↔ r.last = r'.last := by
  simp [Joined, hv.root_eq, hw.root_eq]

/-- The two environments tell the same of the variables that `k` declares: the same constants,
and the same pairs of variables stand for the same. -/
structure TellsAs (k k₁ k₂ : Env) : Prop where
  valueOf_eq : ∀ v, k.declares v = true → k₂.valueOf v = k₁.valueOf v
  joined_iff : ∀ v w, k.declares v = true → k.declares w = true →
    (k₁.Joined v w ↔ k₂.Joined v w)

instance (k : Env) (v w : Variable) : Decidable (k.Joined v w) :=
  match hv : k.root v, hw : k.root w with
  | .ok r, .ok r' => decidable_of_iff (r.last = r'.last) (by simp [Joined, hv, hw])
  | .error _, _ => isFalse (by simp [Joined, hv])
  | .ok _, .error _ => isFalse (by simp [Joined, hw])

/-! ## Placing a status -/

/-- A status placed at an unresolved variable redirects the chains that end there. -/
theorem Ends.insert_at_end {u : Variable} {s : Status} {r' : Root}
    (h : Ends m v r) (hu : m.get? u = some .unresolved) (hend : Ends (m.insert u s) u r') :
    Ends (m.insert u s) v (if r.last = u then r' else r) := by
  induction h with
  | @unresolved v hv =>
    by_cases hvu : v = u
    · subst hvu; simpa using hend
    · simp only [hvu, if_false]
      exact .unresolved (by rw [VarMap.get?_insert_of_ne m s hvu, hv])
  | @resolved v c hv =>
    have hvu : v ≠ u := by rintro rfl; simp [hu] at hv
    simp only [hvu, if_false]
    exact .resolved (by rw [VarMap.get?_insert_of_ne m s hvu, hv])
  | @linked v w r hv _ ih =>
    have hvu : v ≠ u := by rintro rfl; simp [hu] at hv
    exact .linked (by rw [VarMap.get?_insert_of_ne m s hvu, hv]) ih

/-- Declaring another variable leaves every chain as it is. -/
theorem Ends.insert_fresh {u : Variable} {s : Status} (h : Ends m v r) (hu : m.get? u = none) :
    Ends (m.insert u s) v r := by
  induction h with
  | unresolved hv => exact .unresolved (VarMap.get?_insert_of_absent s hu hv)
  | resolved hv => exact .resolved (VarMap.get?_insert_of_absent s hu hv)
  | linked hv _ ih => exact .linked (VarMap.get?_insert_of_absent s hu hv) ih

/-- Resolving an unresolved root gives its value to every chain that ends there. -/
theorem Ends.insert_resolved {u : Variable} {c : Constant} (h : Ends m v r)
    (hu : m.get? u = some .unresolved) :
    Ends (m.insert u (.resolved c)) v (if r.last = u then ⟨u, some c⟩ else r) :=
  h.insert_at_end hu (.resolved (VarMap.get?_insert_self m u _))

/-- Linking an unresolved root to another root leads every chain on to that one. -/
theorem Ends.insert_linked {u : Variable} {r' : Root} (h : Ends m v r)
    (hu : m.get? u = some .unresolved) (hr' : Ends m r'.last r') (hne : u ≠ r'.last) :
    Ends (m.insert u (.linked r'.last)) v (if r.last = u then r' else r) := by
  refine h.insert_at_end hu (.linked (VarMap.get?_insert_self m u _) ?_)
  have hkeep := VarMap.get?_insert_of_ne m (.linked r'.last) hne.symm
  have hlast := hr'.get?_last
  rcases r' with ⟨last, _ | c⟩
  · exact .unresolved (hkeep.trans hlast)
  · exact .resolved (hkeep.trans hlast)

/-! ## Grounded statuses -/

/-- Every declared variable has a chain that ends: no chain runs in a circle and none
leaves the declared variables. -/
def Grounded (m : VarMap Status) : Prop := ∀ v, m.contains v = true → ∃ r, Ends m v r

/-- Nothing is linked yet where nothing is known. -/
theorem grounded_constant (vs : List Variable) : Grounded (VarMap.constant vs .unresolved) := by
  intro v hv
  obtain ⟨s, hs⟩ := VarMap.contains_iff.mp hv
  rw [VarMap.get?_constant] at hs
  split at hs
  · rename_i hmem
    exact ⟨_, .unresolved (by rw [VarMap.get?_constant, if_pos hmem])⟩
  · cases hs

/-- The target of a link has a chain that ends, too. -/
theorem Grounded.ends_of_linked (hm : Grounded m) (h : m.get? v = some (.linked w)) :
    ∃ r, Ends m w r := by
  obtain ⟨r, hr⟩ := hm v (VarMap.contains_iff.mpr ⟨_, h⟩)
  exact ⟨r, hr.of_linked h⟩

/-- Where all chains end, links lead to variables of the map. -/
theorem Grounded.contains_of_linked (hm : Grounded m) (h : m.get? v = some (.linked w)) :
    m.contains w = true := by
  obtain ⟨r, hr⟩ := hm.ends_of_linked h
  exact hr.contains

/-- All chains still end when an unresolved variable is resolved. -/
theorem Grounded.insert_resolved (hm : Grounded m) {u : Variable} {c : Constant}
    (hu : m.get? u = some .unresolved) : Grounded (m.insert u (.resolved c)) := by
  intro v hv
  rw [VarMap.contains_insert, Bool.or_eq_true, decide_eq_true_eq] at hv
  rcases hv with rfl | hv
  · exact ⟨_, .resolved (VarMap.get?_insert_self m v _)⟩
  · obtain ⟨r, hr⟩ := hm v hv
    exact ⟨_, hr.insert_resolved hu⟩

/-- All chains still end when an unresolved variable is linked to the end of another chain. -/
theorem Grounded.insert_linked (hm : Grounded m) {u : Variable} {r' : Root}
    (hu : m.get? u = some .unresolved) (hr' : Ends m r'.last r') (hne : u ≠ r'.last) :
    Grounded (m.insert u (.linked r'.last)) := by
  intro v hv
  rw [VarMap.contains_insert, Bool.or_eq_true, decide_eq_true_eq] at hv
  have hdeclared : m.contains v = true := by
    rcases hv with rfl | hv
    · exact VarMap.contains_iff.mpr ⟨_, hu⟩
    · exact hv
  obtain ⟨r, hr⟩ := hm v hdeclared
  exact ⟨_, hr.insert_linked hu hr' hne⟩

/-- All chains still end when a new variable is added. -/
theorem Grounded.insert_fresh (hm : Grounded m) {u : Variable} (hu : m.get? u = none) :
    Grounded (m.insert u .unresolved) := by
  intro v hv
  rw [VarMap.contains_insert, Bool.or_eq_true, decide_eq_true_eq] at hv
  rcases hv with rfl | hv
  · exact ⟨_, .unresolved (VarMap.get?_insert_self m v _)⟩
  · obtain ⟨r, hr⟩ := hm v hv
    exact ⟨r, hr.insert_fresh hu⟩

end Env

end Deduction

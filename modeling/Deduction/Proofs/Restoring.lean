import Deduction.Proofs.WellFormed

/-!
# Leaving a scope

What an environment knows of an outer one's variables after the inner scope was left.
A rebuilt entry is read off the chain in the inner environment: a chain that ended in
a constant ends in that constant, and one that ended in an unresolved variable ends in
the same variable, which is declared anew if it is not an outer one. Nothing that was
known of the outer variables is lost, and the outer environment is extended.
-/

namespace Deduction

namespace VarMap

variable {ε α β : Type}

private theorem rebuildEntries_eq_ok {f : Variable → Except ε β} {l : List (Variable × α)}
    (h : ∀ x ∈ l, ∃ b, f x.1 = .ok b) : ∃ new, rebuildEntries f l = .ok new := by
  induction l with
  | nil => exact ⟨[], rfl⟩
  | cons x rest ih =>
    obtain ⟨b, hb⟩ := h x List.mem_cons_self
    obtain ⟨new, hnew⟩ := ih fun y hy => h y (List.mem_cons_of_mem x hy)
    exact ⟨(x.1, b) :: new, by simp [rebuildEntries, hb, hnew]⟩

/-- A map is rebuilt if every new value can be computed. -/
theorem rebuild_eq_ok {m : VarMap α} {f : Variable → Except ε β}
    (h : ∀ v, m.contains v = true → ∃ b, f v = .ok b) : ∃ n, m.rebuild f = .ok n := by
  have hentries : ∀ x ∈ m.entries, ∃ b, f x.1 = .ok b := fun x hx =>
    h x.1 (contains_iff.mpr ⟨x.2, get?_eq_some_iff.mpr hx⟩)
  obtain ⟨new, hnew⟩ := rebuildEntries_eq_ok hentries
  rw [rebuild]
  split
  · rename_i e he
    rw [hnew] at he
    cases he
  · exact ⟨_, rfl⟩

private theorem exists_of_rebuildEntries_error {f : Variable → Except ε β}
    {l : List (Variable × α)} {e : ε} (h : rebuildEntries f l = .error e) :
    ∃ x ∈ l, f x.1 = .error e := by
  induction l with
  | nil => cases h
  | cons x rest ih =>
    rw [rebuildEntries] at h
    split at h
    · rename_i hx
      cases h
      exact ⟨x, List.mem_cons_self, hx⟩
    · split at h
      · rename_i hrest
        cases h
        obtain ⟨y, hy, hf⟩ := ih hrest
        exact ⟨y, List.mem_cons_of_mem x hy, hf⟩
      · cases h

/-- A map that cannot be rebuilt has a variable whose new value cannot be computed. -/
theorem exists_of_rebuild_error {m : VarMap α} {f : Variable → Except ε β} {e : ε}
    (h : m.rebuild f = .error e) : ∃ v, m.contains v = true ∧ f v = .error e := by
  rw [rebuild] at h
  split at h
  · rename_i hentries
    cases h
    obtain ⟨x, hx, hf⟩ := exists_of_rebuildEntries_error hentries
    exact ⟨x.1, contains_iff.mpr ⟨x.2, get?_eq_some_iff.mpr hx⟩, hf⟩
  · cases h

private theorem exists_of_rebuildEntries {f : Variable → Except ε β} {l : List (Variable × α)}
    {new : List (Variable × β)} (h : rebuildEntries f l = .ok new) {x : Variable × α}
    (hx : x ∈ l) : ∃ b, f x.1 = .ok b := by
  induction l generalizing new with
  | nil => cases hx
  | cons y rest ih =>
    rw [rebuildEntries] at h
    split at h
    · cases h
    · rename_i b hb
      split at h
      · cases h
      · rename_i hrest
        rcases List.mem_cons.mp hx with rfl | hx
        · exact ⟨b, hb⟩
        · exact ih hrest hx

/-- In a rebuilt map every variable has the value computed for it. -/
theorem exists_of_rebuild {m : VarMap α} {f : Variable → Except ε β} {n : VarMap β}
    (h : m.rebuild f = .ok n) {v : Variable} (hv : m.contains v = true) :
    ∃ b, f v = .ok b ∧ n.get? v = some b := by
  obtain ⟨a, ha⟩ := contains_iff.mp hv
  have hb : ∃ b, f v = .ok b := by
    rw [rebuild] at h
    split at h
    · cases h
    · rename_i new hnew
      exact exists_of_rebuildEntries hnew (get?_eq_some_iff.mp ha)
  obtain ⟨b, hb⟩ := hb
  refine ⟨b, hb, ?_⟩
  rw [get?_of_rebuild h, if_pos hv, hb]
  rfl

end VarMap

/-- What a variable records of the root of its chain when the chain itself is dropped. -/
def Root.reference : Root → Status
  | ⟨_, some c⟩ => .resolved c
  | ⟨last, none⟩ => .linked last

namespace Env

variable {U : Constant → Prop} {inner outer k' : Env} {kept : VarMap Status}

/-- A status is told of declared variables, and it is the one they have. -/
theorem status_eq_ok_iff {k : Env} {v : Variable} {s : Status} :
    k.status v = .ok s ↔ k.statuses.get? v = some s := by
  rw [status]
  cases k.statuses.get? v <;> simp

/-- Targets of links that are no outer variables are declared, and nothing else changes. -/
private theorem get?_foldl_keepTarget (l : List (Variable × Status)) (m : VarMap Status)
    (v : Variable) :
    (l.foldl (fun kept entry => keepTarget outer kept entry.2) m).get? v =
      if Status.linked v ∈ l.map Prod.snd ∧ outer.declares v = false then some .unresolved
      else m.get? v := by
  induction l generalizing m with
  | nil => simp
  | cons x rest ih =>
    rw [List.foldl_cons, ih]
    rcases x with ⟨u, s⟩
    simp only [List.map_cons, List.mem_cons]
    cases s with
    | unresolved => simp only [keepTarget, reduceCtorEq, false_or]
    | resolved c => simp only [keepTarget, reduceCtorEq, false_or]
    | linked w =>
      rw [keepTarget]
      by_cases hw : v = w
      · subst hw
        cases hv : outer.declares v <;> simp
      · have hget : (m.insert w .unresolved).get? v = m.get? v :=
          VarMap.get?_insert_of_ne m _ hw
        have hne : Status.linked v ≠ Status.linked w := fun h => hw (by cases h; rfl)
        simp only [hne, false_or]
        cases hwo : outer.declares w <;> simp [hget]

/-- What is retained: the rebuilt statuses, and the targets of their links. -/
private theorem get?_of_retainEach (h : inner.retainEach outer = .ok kept) :
    ∃ statuses, outer.statuses.rebuild (inner.outerStatus outer) = .ok statuses ∧ ∀ v,
      kept.get? v =
        if Status.linked v ∈ statuses.entries.map Prod.snd ∧ outer.declares v = false then
          some .unresolved
        else statuses.get? v := by
  rw [retainEach] at h
  cases hrebuild : outer.statuses.rebuild (inner.outerStatus outer) with
  | error f => rw [hrebuild] at h; cases h
  | ok statuses =>
    rw [hrebuild] at h
    cases h
    exact ⟨statuses, rfl, get?_foldl_keepTarget _ _⟩

/-- An outer variable is retained with the status that the inner chain gives it. -/
theorem get?_retainEach_outer (h : inner.retainEach outer = .ok kept) {v : Variable}
    (hv : outer.declares v = true) :
    ∃ s, inner.outerStatus outer v = .ok s ∧ kept.get? v = some s := by
  obtain ⟨statuses, hrebuild, hkept⟩ := get?_of_retainEach h
  obtain ⟨s, hs, hget⟩ := VarMap.exists_of_rebuild hrebuild hv
  refine ⟨s, hs, ?_⟩
  rw [hkept, if_neg (by simp [hv]), hget]

/-- Beside the outer variables the unresolved targets of their links are retained. -/
theorem get?_retainEach_other (h : inner.retainEach outer = .ok kept) {v : Variable}
    (hv : outer.declares v = false) {s : Status} (hs : kept.get? v = some s) :
    s = .unresolved ∧ ∃ u, outer.declares u = true ∧
      inner.outerStatus outer u = .ok (.linked v) := by
  obtain ⟨statuses, hrebuild, hkept⟩ := get?_of_retainEach h
  rw [hkept] at hs
  split at hs
  · rename_i htarget
    obtain ⟨⟨u, t⟩, hu, ht⟩ := List.mem_map.mp htarget.1
    cases ht
    have hget := VarMap.get?_eq_some_iff.mpr hu
    have hdeclares : outer.declares u = true := by
      rw [VarMap.get?_of_rebuild hrebuild] at hget
      split at hget
      · assumption
      · cases hget
    obtain ⟨s', hs', hget'⟩ := VarMap.exists_of_rebuild hrebuild hdeclares
    rw [hget] at hget'
    cases hget'
    exact ⟨(Option.some.inj hs).symm, u, hdeclares, hs'⟩
  · rw [VarMap.get?_of_rebuild hrebuild, if_neg] at hs
    · cases hs
    · rw [declares] at hv
      simp [hv]

/-- A variable beside the outer ones that an outer variable is linked to is kept as unresolved. -/
theorem get?_retainEach_target (h : inner.retainEach outer = .ok kept) {u v : Variable}
    (hu : outer.declares u = true) (hlink : inner.outerStatus outer u = .ok (.linked v))
    (hv : outer.declares v = false) : kept.get? v = some .unresolved := by
  obtain ⟨statuses, hrebuild, hkept⟩ := get?_of_retainEach h
  obtain ⟨s, hs, hget⟩ := VarMap.exists_of_rebuild hrebuild hu
  rw [hlink] at hs
  cases hs
  rw [hkept, if_pos ⟨List.mem_map_of_mem (VarMap.get?_eq_some_iff.mp hget), hv⟩]

/-! ## Chains after the return -/

/-- The status of an outer variable that is linked to another outer one stays. -/
theorem outerStatus_of_linked_outer {v w : Variable}
    (hv : inner.statuses.get? v = some (.linked w)) (hw : outer.declares w = true) :
    inner.outerStatus outer v = .ok (.linked w) := by
  simp [outerStatus, status_eq_ok_iff.mpr hv, hw]

/-- A link that leaves the outer variables is replaced by the end of its chain. -/
theorem outerStatus_of_linked_inner {v w : Variable} {r : Root}
    (hv : inner.statuses.get? v = some (.linked w)) (hw : outer.declares w = false)
    (hr : Ends inner.statuses w r) : inner.outerStatus outer v = .ok r.reference := by
  simp only [outerStatus, status_eq_ok_iff.mpr hv, hw, hr.root_eq]
  rcases r with ⟨last, _ | c⟩ <;> rfl

/-- The status of a variable without a link is retained as it is. -/
theorem outerStatus_of_end {v : Variable} {s : Status}
    (hv : inner.statuses.get? v = some s) (hs : ∀ w, s ≠ .linked w) :
    inner.outerStatus outer v = .ok s := by
  rw [outerStatus, status_eq_ok_iff.mpr hv]
  cases s with
  | unresolved => rfl
  | resolved c => rfl
  | linked w => exact absurd rfl (hs w)

/-- The status of an outer variable either stays or was read off a root. -/
private theorem outerStatus_cases {v : Variable} {s : Status}
    (h : inner.outerStatus outer v = .ok s) :
    (inner.statuses.get? v = some s ∧ ∀ w, s = .linked w → outer.declares w = true) ∨
      ∃ w r, inner.statuses.get? v = some (.linked w) ∧ Ends inner.statuses w r ∧
        s = r.reference := by
  cases hv : inner.statuses.get? v with
  | none => simp [outerStatus, status, hv] at h
  | some t =>
    rw [outerStatus, status_eq_ok_iff.mpr hv] at h
    cases t with
    | unresolved => cases h; exact Or.inl ⟨rfl, by simp⟩
    | resolved c => cases h; exact Or.inl ⟨rfl, by simp⟩
    | linked w =>
      cases hw : outer.declares w with
      | true =>
        simp only [hw, if_true] at h
        cases h
        exact Or.inl ⟨rfl, fun w' hw' => by cases hw'; exact hw⟩
      | false =>
        simp only [hw, Bool.false_eq_true, if_false] at h
        split at h
        · cases h
        · rename_i last c hroot
          cases h
          exact Or.inr ⟨w, ⟨last, some c⟩, rfl, root_eq_ok_iff.mp hroot, rfl⟩
        · rename_i last hroot
          cases h
          exact Or.inr ⟨w, ⟨last, none⟩, rfl, root_eq_ok_iff.mp hroot, rfl⟩

/-- A link to a variable beside the outer ones leads to the unresolved root of the chain. -/
theorem root_of_outerStatus_linked {v w : Variable}
    (h : inner.outerStatus outer v = .ok (.linked w)) (hw : outer.declares w = false) :
    inner.root v = .ok ⟨w, none⟩ := by
  rcases outerStatus_cases h with ⟨_, hinside⟩ | ⟨u, ⟨last, _ | c⟩, hv, hr, href⟩
  · rw [hinside w rfl] at hw
    cases hw
  · cases href
    exact (Ends.linked hv hr).root_eq
  · cases href

/-- Every declared variable has a status to be retained. -/
theorem Grounded.outerStatus_eq_ok (hinner : Grounded inner.statuses) (outer : Env)
    {v : Variable} (hv : inner.declares v = true) : ∃ s, inner.outerStatus outer v = .ok s := by
  obtain ⟨s, hs⟩ := declares_iff.mp hv
  cases s with
  | unresolved => exact ⟨_, outerStatus_of_end hs (by simp)⟩
  | resolved c => exact ⟨_, outerStatus_of_end hs (by simp)⟩
  | linked w =>
    cases hw : outer.declares w with
    | true => exact ⟨_, outerStatus_of_linked_outer hs hw⟩
    | false =>
      obtain ⟨r, hr⟩ := hinner.ends_of_linked hs
      exact ⟨_, outerStatus_of_linked_inner hs hw hr⟩

/-- The chain of an outer variable tells the same as before. -/
private theorem ends_retainEach (h : inner.retainEach outer = .ok kept) {v : Variable} {r : Root}
    (hv : outer.declares v = true) (hr : Ends inner.statuses v r) :
    ∃ r', Ends kept v r' ∧ r.Same r' := by
  have hstatus : ∀ {v s}, outer.declares v = true → inner.outerStatus outer v = .ok s →
      kept.get? v = some s := by
    intro v s hv hs
    obtain ⟨s', hs', hget⟩ := get?_retainEach_outer h hv
    rw [hs] at hs'
    cases hs'
    exact hget
  induction hr with
  | unresolved hu =>
    exact ⟨_, .unresolved (hstatus hv (outerStatus_of_end hu (by simp))), .refl _⟩
  | resolved hc =>
    exact ⟨_, .resolved (hstatus hv (outerStatus_of_end hc (by simp))), .refl _⟩
  | @linked v w r hl hw ih =>
    cases howned : outer.declares w with
    | true =>
      obtain ⟨r', hr', hsame⟩ := ih howned
      exact ⟨r', .linked (hstatus hv (outerStatus_of_linked_outer hl howned)) hr', hsame⟩
    | false =>
      have hs := outerStatus_of_linked_inner hl howned hw
      rcases r with ⟨last, _ | c⟩
      · have hlast : kept.get? last = some .unresolved := by
          cases hlo : outer.declares last with
          | true => exact hstatus hlo (outerStatus_of_end hw.get?_last (by simp))
          | false => exact get?_retainEach_target h hv hs hlo
        exact ⟨_, .linked (hstatus hv hs) (.unresolved hlast), .refl _⟩
      · exact ⟨_, .resolved (hstatus hv hs), rfl, fun hnone => by cases hnone⟩

/-- A status that does not link to a variable beside the outer ones stays. -/
theorem outerStatus_of_inside {v : Variable} {s : Status} (hv : inner.statuses.get? v = some s)
    (hlink : ∀ w, s = .linked w → outer.declares w = true) : inner.outerStatus outer v = .ok s := by
  cases s with
  | unresolved => exact outerStatus_of_end hv (by simp)
  | resolved c => exact outerStatus_of_end hv (by simp)
  | linked w => exact outerStatus_of_linked_outer hv (hlink w rfl)

/-- The retained statuses are those of the outer variables after the scope was left, and the
unresolved targets of links beside them. -/
theorem retainEach_eq_ok_iff :
    inner.retainEach outer = .ok kept ↔
      (∀ v, outer.declares v = true → ∃ s, inner.outerStatus outer v = .ok s ∧
        kept.get? v = some s) ∧
      ∀ v, outer.declares v = false → ∀ s, kept.get? v = some s ↔
        s = .unresolved ∧ ∃ u, outer.declares u = true ∧
          inner.outerStatus outer u = .ok (.linked v) := by
  constructor
  · intro h
    refine ⟨fun v => get?_retainEach_outer h, fun v hv s => ⟨get?_retainEach_other h hv, ?_⟩⟩
    rintro ⟨rfl, u, hu, hlink⟩
    exact get?_retainEach_target h hu hlink hv
  · rintro ⟨howned, hothers⟩
    obtain ⟨statuses, hstatuses⟩ := VarMap.rebuild_eq_ok (m := outer.statuses)
      (f := inner.outerStatus outer) fun v hv => (howned v hv).imp fun _ hs => hs.1
    obtain ⟨kept', h⟩ : ∃ kept', inner.retainEach outer = .ok kept' := by
      rw [retainEach, hstatuses]
      exact ⟨_, rfl⟩
    rw [h]
    refine congrArg Except.ok (VarMap.ext_get? fun v => ?_)
    cases hv : outer.declares v with
    | true =>
      obtain ⟨s, hs, hget⟩ := howned v hv
      obtain ⟨s', hs', hget'⟩ := get?_retainEach_outer h hv
      rw [hs] at hs'
      cases hs'
      rw [hget, hget']
    | false =>
      refine Option.ext fun s => ?_
      rw [hothers v hv s]
      constructor
      · exact get?_retainEach_other h hv
      · rintro ⟨rfl, u, hu, hlink⟩
        exact get?_retainEach_target h hu hlink hv

/-- Just the statuses of the outer variables are retained where none of them is a link to another
variable. -/
theorem retainEach_eq_ok (hstatus : ∀ v, outer.declares v = true → ∃ s,
      inner.outerStatus outer v = .ok s ∧ kept.get? v = some s ∧
        ∀ w, s = .linked w → outer.declares w = true)
    (hnone : ∀ v, outer.declares v = false → kept.get? v = none) :
    inner.retainEach outer = .ok kept := by
  refine retainEach_eq_ok_iff.mpr ⟨fun v hv => ?_, fun v hv s => ?_⟩
  · obtain ⟨s, hs, hget, _⟩ := hstatus v hv
    exact ⟨s, hs, hget⟩
  · rw [hnone v hv]
    refine ⟨fun hs => (nomatch hs), ?_⟩
    rintro ⟨_, u, hu, hlink⟩
    obtain ⟨t, ht, _, hinside⟩ := hstatus u hu
    rw [hlink] at ht
    cases ht
    rw [hinside v rfl] at hv
    cases hv

/-- Where both environments declare the same variables, all statuses are retained. -/
private theorem retainEach_eq_ok_of_same (hinner : Grounded inner.statuses)
    (hdeclared : ∀ v, outer.declares v = true → inner.declares v = true)
    (hsame : ∀ v, inner.declares v = true → outer.declares v = true) :
    inner.retainEach outer = .ok inner.statuses := by
  refine retainEach_eq_ok (fun v hv => ?_) fun v hv => ?_
  · obtain ⟨s, hs⟩ := declares_iff.mp (hdeclared v hv)
    have hlink : ∀ w, s = .linked w → outer.declares w = true := by
      rintro w rfl
      exact hsame w (hinner.contains_of_linked hs)
    exact ⟨s, outerStatus_of_inside hs hlink, hs, hlink⟩
  · rw [Option.eq_none_iff_forall_ne_some]
    intro s hs
    rw [hsame v (declares_iff.mpr ⟨s, hs⟩)] at hv
    cases hv

/-- Equally many declared variables are the same ones, so retaining each of them is the same. -/
theorem retained_eq_retainEach (hinner : Grounded inner.statuses)
    (hdeclared : ∀ v, outer.declares v = true → inner.declares v = true) :
    inner.retained outer = inner.retainEach outer := by
  rw [retained]
  split
  · rename_i hsize
    have hkeys : outer.statuses.keys.Perm inner.statuses.keys := by
      refine List.Subperm.perm_of_length_le (outer.statuses.nodup_keys.subperm fun v hv => ?_) ?_
      · exact VarMap.mem_keys.mpr (hdeclared v (VarMap.mem_keys.mp hv))
      · simpa [VarMap.keys, VarMap.size] using Nat.le_of_eq hsize
    exact (retainEach_eq_ok_of_same hinner hdeclared fun v hv =>
      VarMap.mem_keys.mp (hkeys.mem_iff.mpr (VarMap.mem_keys.mpr hv))).symm
  · rfl

/-- The retained statuses tell the same of every outer variable. -/
theorem ends_retained (h : inner.retained outer = .ok kept) {v : Variable} {r : Root}
    (hv : outer.declares v = true) (hr : Ends inner.statuses v r) :
    ∃ r', Ends kept v r' ∧ r.Same r' := by
  rw [retained] at h
  split at h
  · cases h
    exact ⟨r, hr, .refl r⟩
  · exact ends_retainEach h hv hr

/-- Only variables of the inner environment are retained. -/
theorem contains_inner_of_retained (h : inner.retained outer = .ok kept) {v : Variable}
    (hv : kept.contains v = true) : inner.declares v = true := by
  rw [retained] at h
  split at h
  · cases h
    exact hv
  · obtain ⟨s, hs⟩ := VarMap.contains_iff.mp hv
    cases howned : outer.declares v with
    | true =>
      obtain ⟨s', hs', _⟩ := get?_retainEach_outer h howned
      rcases outerStatus_cases hs' with ⟨hget, _⟩ | ⟨w, r, hget, _⟩
      · exact declares_iff.mpr ⟨_, hget⟩
      · exact declares_iff.mpr ⟨_, hget⟩
    | false =>
      obtain ⟨_, u, hu, hlink⟩ := get?_retainEach_other h howned hs
      exact (root_eq_ok_iff.mp (root_of_outerStatus_linked hlink howned)).ends_last.contains

/-- The outer variables are all retained. -/
theorem contains_of_retained (hdeclared : ∀ v, outer.declares v = true → inner.declares v = true)
    (h : inner.retained outer = .ok kept) {v : Variable} (hv : outer.declares v = true) :
    kept.contains v = true := by
  rw [retained] at h
  split at h
  · cases h
    exact hdeclared v hv
  · obtain ⟨s, _, hs⟩ := get?_retainEach_outer h hv
    exact VarMap.contains_iff.mpr ⟨s, hs⟩

/-- Every chain of the retained statuses ends. -/
theorem grounded_retained (hinner : Grounded inner.statuses)
    (h : inner.retained outer = .ok kept) : Grounded kept := by
  intro v hv
  cases howned : outer.declares v with
  | true =>
    obtain ⟨r, hr⟩ := hinner v (contains_inner_of_retained h hv)
    obtain ⟨r', hr', _⟩ := ends_retained h howned hr
    exact ⟨r', hr'⟩
  | false =>
    rw [retained] at h
    split at h
    · cases h
      exact hinner v hv
    · obtain ⟨s, hs⟩ := VarMap.contains_iff.mp hv
      obtain ⟨rfl, _⟩ := get?_retainEach_other h howned hs
      exact ⟨_, .unresolved hs⟩

/-- What the outer environment knew is retained as it is. -/
theorem get?_retained_kept (houter : Grounded outer.statuses) (hextends : outer.Extends inner)
    (h : inner.retained outer = .ok kept) {v : Variable} {s : Status}
    (hv : outer.statuses.get? v = some s) (hs : s ≠ .unresolved) : kept.get? v = some s := by
  have hinner := hextends.kept hv hs
  rw [retained] at h
  split at h
  · cases h
    exact hinner
  · obtain ⟨s', hs', hget⟩ := get?_retainEach_outer h (declares_iff.mpr ⟨s, hv⟩)
    have hstatus : inner.outerStatus outer v = .ok s := by
      cases s with
      | unresolved => exact absurd rfl hs
      | resolved c => exact outerStatus_of_end hinner (by simp)
      | linked w => exact outerStatus_of_linked_outer hinner (houter.contains_of_linked hv)
    rw [hstatus] at hs'
    cases hs'
    exact hget

/-! ## The restored environment -/

/-- A restored environment has the retained statuses, the outer scope and its bindings, and the
later of both next numbers. -/
theorem restore_eq_ok_iff :
    inner.restore outer = .ok k' ↔ ∃ kept, inner.retained outer = .ok kept ∧
      k' = ⟨kept, outer.locals, outer.scope, max inner.next outer.next⟩ := by
  rw [restore]
  cases inner.retained outer with
  | error f => simp [Except.map]
  | ok kept => simp [Except.map, eq_comm]

/-- The bindings of the outer environment come back. -/
theorem referent?_restore (h : inner.restore outer = .ok k') (l : Variable) :
    k'.referent? l = outer.referent? l := by
  obtain ⟨kept, _, rfl⟩ := restore_eq_ok_iff.mp h
  rfl

/-- Leaving a scope meets no fault when the inner environment declares all outer variables. -/
theorem restore_eq_ok (hinner : Grounded inner.statuses)
    (hdeclared : ∀ v, outer.declares v = true → inner.declares v = true) :
    ∃ k', inner.restore outer = .ok k' := by
  have hretained : ∃ kept, inner.retained outer = .ok kept := by
    rw [retained]
    split
    · exact ⟨_, rfl⟩
    · obtain ⟨statuses, hstatuses⟩ := VarMap.rebuild_eq_ok (m := outer.statuses)
        fun v hv => hinner.outerStatus_eq_ok outer (hdeclared v hv)
      rw [retainEach, hstatuses]
      exact ⟨_, rfl⟩
  obtain ⟨kept, hkept⟩ := hretained
  exact ⟨_, restore_eq_ok_iff.mpr ⟨kept, hkept, rfl⟩⟩

/-- A scope that taught something of one outer variable is left with just that. -/
theorem restore_eq_setStatus {v : Variable} {s : Status} (hinner : Grounded inner.statuses)
    (houter : Grounded outer.statuses) (hv : outer.declares v = true)
    (hothers : ∀ u, u ≠ v → outer.declares u = true →
      inner.statuses.get? u = outer.statuses.get? u)
    (hs : inner.outerStatus outer v = .ok s) (hlink : ∀ w, s = .linked w → outer.declares w = true)
    (hnext : outer.next ≤ inner.next) :
    inner.restore outer = .ok { outer.setStatus v s with next := inner.next } := by
  have hdeclared : ∀ u, outer.declares u = true → inner.declares u = true := by
    intro u hu
    by_cases huv : u = v
    · subst huv
      cases hget : inner.statuses.get? u with
      | none => simp [outerStatus, status, hget] at hs
      | some t => exact declares_iff.mpr ⟨t, hget⟩
    · rw [declares, VarMap.contains, hothers u huv hu]
      exact hu
  have hretained : inner.retained outer = .ok (outer.statuses.insert v s) := by
    rw [retained_eq_retainEach hinner hdeclared]
    refine retainEach_eq_ok (fun u hu => ?_) fun u hu => ?_
    · by_cases huv : u = v
      · subst huv
        exact ⟨s, hs, VarMap.get?_insert_self _ _ _, hlink⟩
      · obtain ⟨t, ht⟩ := declares_iff.mp hu
        have hinside : ∀ w, t = .linked w → outer.declares w = true := by
          rintro w rfl
          exact houter.contains_of_linked ht
        refine ⟨t, outerStatus_of_inside ((hothers u huv hu).trans ht) hinside, ?_, hinside⟩
        rw [VarMap.get?_insert_of_ne _ _ huv, ht]
    · have hne : u ≠ v := by
        rintro rfl
        rw [hv] at hu
        cases hu
      rw [VarMap.get?_insert_of_ne _ _ hne]
      simpa [declares, VarMap.contains] using hu
  refine restore_eq_ok_iff.mpr ⟨_, hretained, ?_⟩
  rw [Nat.max_eq_left hnext]
  rfl

/-- The restored environment continues the outer one. -/
theorem continues_restore (houter : outer.WellFormed) (hextends : outer.Extends inner)
    (h : inner.restore outer = .ok k') : outer.Continues k' := by
  obtain ⟨kept, hkept, rfl⟩ := restore_eq_ok_iff.mp h
  exact {
    kept := get?_retained_kept houter.grounded hextends hkept
    declared := contains_of_retained (fun v => hextends.declared) hkept
    issued := fun hv hnot => hextends.issued (contains_inner_of_retained hkept hv) hnot
    next_le := Nat.le_max_right _ _
    bindings := fun hl => hl
    scope := rfl }

/-- The restored environment is well formed, also where the outer one did not lead to the inner
one. -/
theorem wellFormed_restore (hinner : inner.WellFormed) (houter : outer.WellFormed)
    (hdeclared : ∀ v, outer.declares v = true → inner.declares v = true)
    (h : inner.restore outer = .ok k') : k'.WellFormed := by
  obtain ⟨kept, hkept, rfl⟩ := restore_eq_ok_iff.mp h
  exact {
    grounded := grounded_retained hinner.grounded hkept
    referents := fun hl => contains_of_retained hdeclared hkept (houter.referents hl)
    numbered := fun hv hi => Nat.lt_of_lt_of_le
      (hinner.numbered (contains_inner_of_retained hkept hv) hi) (Nat.le_max_left _ _) }

/-- A status of the restored environment is that of the inner one, or unresolved, or was read
off the root of the chain behind a link. -/
theorem status_of_restore (h : inner.restore outer = .ok k') {v : Variable} {s : Status}
    (hv : k'.statuses.get? v = some s) :
    inner.statuses.get? v = some s ∨ s = .unresolved ∨
      ∃ w r, inner.statuses.get? v = some (.linked w) ∧ Ends inner.statuses w r ∧
        s = r.reference := by
  obtain ⟨kept, hkept, rfl⟩ := restore_eq_ok_iff.mp h
  rw [retained] at hkept
  split at hkept
  · cases hkept
    exact Or.inl hv
  · cases howned : outer.declares v with
    | true =>
      obtain ⟨s', hs', hget⟩ := get?_retainEach_outer hkept howned
      rw [hv] at hget
      cases hget
      rcases outerStatus_cases hs' with ⟨hget, _⟩ | hroot
      · exact Or.inl hget
      · exact Or.inr (Or.inr hroot)
    | false => exact Or.inr (Or.inl (get?_retainEach_other hkept howned hv).1)

/-- The return to an outer scope brings no constant from elsewhere. -/
theorem over_restore (hinner : inner.Over U) (houter : outer.Over U)
    (h : inner.restore outer = .ok k') : k'.Over U := by
  refine ⟨fun {v c} hv => ?_, fun hl => houter.locals ((referent?_restore h _).symm.trans hl)⟩
  rcases status_of_restore h hv with hget | hunresolved | ⟨w, r, _, hr, href⟩
  · exact hinner.statuses hget
  · cases hunresolved
  · rcases r with ⟨last, _ | d⟩
    · cases href
    · cases href
      exact hinner.statuses hr.get?_last

/-- The restored environment tells the same of every outer variable as the inner one. -/
theorem ends_restore (h : inner.restore outer = .ok k') {v : Variable} {r : Root}
    (hv : outer.declares v = true) (hr : Ends inner.statuses v r) :
    ∃ r', Ends k'.statuses v r' ∧ r.Same r' := by
  obtain ⟨kept, hkept, rfl⟩ := restore_eq_ok_iff.mp h
  exact ends_retained hkept hv hr

/-- A chain of the restored environment ends on the way of the inner chain. -/
theorem Ends.inner_of_restore (h : inner.restore outer = .ok k') {v : Variable} {r r' : Root}
    (hr' : Ends k'.statuses v r') (hr : Ends inner.statuses v r) :
    Ends inner.statuses r'.last r := by
  induction hr' with
  | unresolved => exact hr
  | resolved => exact hr
  | @linked v w r' hv _ ih =>
    rcases status_of_restore h hv with hinner | hunresolved | ⟨u, r₀, hu, hr₀, href⟩
    · exact ih (hr.of_linked hinner)
    · cases hunresolved
    · have hroot := hr.unique (.linked hu hr₀)
      rcases r₀ with ⟨last, _ | c⟩
      · cases href
        exact ih (hroot ▸ hr₀.ends_last)
      · cases href

section

variable (hinner : Grounded inner.statuses)
  (hdeclared : ∀ v, outer.declares v = true → inner.declares v = true)
  (h : inner.restore outer = .ok k') {v w : Variable} (hv : outer.declares v = true)

include hinner hdeclared h hv

/-- Outer variables have the values that they had in the inner scope. -/
theorem valueOf_restore : k'.valueOf v = inner.valueOf v := by
  obtain ⟨r, hr⟩ := hinner v (hdeclared v hv)
  obtain ⟨r', hr', hvalue, _⟩ := ends_restore h hv hr
  rw [hr.valueOf_eq, hr'.valueOf_eq, hvalue]

/-- Outer variables that stand for the same did so in the inner scope. -/
theorem joined_of_restore (hw : outer.declares w = true) (hjoined : k'.Joined v w) :
    inner.Joined v w := by
  obtain ⟨rv, hrv⟩ := hinner v (hdeclared v hv)
  obtain ⟨rw', hrw⟩ := hinner w (hdeclared w hw)
  obtain ⟨r, r', hroot, hroot', hlast⟩ := hjoined
  have hv' := (root_eq_ok_iff.mp hroot).inner_of_restore h hrv
  have hw' := (root_eq_ok_iff.mp hroot').inner_of_restore h hrw
  rw [hlast] at hv'
  exact (hrv.joined_iff hrw).mpr (congrArg Root.last (hv'.unique hw'))

/-- Outer variables without a value go on to stand for the same. -/
theorem joined_restore (hw : outer.declares w = true) (hvalue : inner.valueOf v = .ok none)
    (hjoined : inner.Joined v w) : k'.Joined v w := by
  obtain ⟨rv, hrv⟩ := hinner v (hdeclared v hv)
  obtain ⟨rw', hrw⟩ := hinner w (hdeclared w hw)
  have hlast := (hrv.joined_iff hrw).mp hjoined
  have hroots : rv = rw' := hrv.ends_last.unique (hlast ▸ hrw.ends_last)
  subst hroots
  have hnone : rv.value = none := Except.ok.inj (hrv.valueOf_eq.symm.trans hvalue)
  obtain ⟨r, hr, _, hsame⟩ := ends_restore h hv hrv
  obtain ⟨r', hr', _, hsame'⟩ := ends_restore h hw hrw
  exact (hr.joined_iff hr').mpr (by rw [hsame hnone, hsame' hnone])

end

end Env

end Deduction

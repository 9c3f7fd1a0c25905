import Deduction.Proofs.InStep
import Deduction.Proofs.Restoring

/-!
# Environments that differ in names

A rule's own variable is issued under its name and a fresh number, and only the number
matters. Two environments are alike when they know the same of variables that correspond to
one another: a variable corresponds to itself, and a renamed variable to any other renamed one
that was issued under the same number since the start. No environment declares two variables
that correspond to one another, so what one of them learns the other one learns, too.
-/

namespace Deduction

/-- The same variable, or two renamed ones with the same number, which was issued since `base`. -/
inductive Variable.Alike (base : Nat) : Variable → Variable → Prop
  | refl (v : Variable) : Alike base v v
  | renamed {n n' : String} {i : Nat} (h : base ≤ i) : Alike base (.renamed n i) (.renamed n' i)

/-- Statuses with the same constant or with links to corresponding variables. -/
inductive Status.Alike (base : Nat) : Status → Status → Prop
  | unresolved : Alike base .unresolved .unresolved
  | resolved (c : Constant) : Alike base (.resolved c) (.resolved c)
  | linked {v w : Variable} (h : v.Alike base w) : Alike base (.linked v) (.linked w)

/-- The same constant, or corresponding variables. -/
inductive Referent.Alike (base : Nat) : Referent → Referent → Prop
  | const (c : Constant) : Alike base (.const c) (.const c)
  | var {v w : Variable} (h : v.Alike base w) : Alike base (.var v) (.var w)

/-- The same term, up to corresponding variables. -/
inductive Term.Alike (base : Nat) : Term → Term → Prop
  | keyword (a : Keyword) : Alike base (.keyword a) (.keyword a)
  | const (c : Constant) : Alike base (.const c) (.const c)
  | var {v w : Variable} (h : v.Alike base w) : Alike base (.var v) (.var w)
  | hole : Alike base .hole .hole

/-- Chains that end in corresponding variables and in the same constant, if any. -/
def Root.Alike (base : Nat) (r r' : Root) : Prop := r.last.Alike base r'.last ∧ r'.value = r.value

variable {base : Nat}

namespace Variable

variable {u v w : Variable}

/-- Correspondence does not depend on which of the two environments comes first. -/
theorem Alike.symm (h : v.Alike base w) : w.Alike base v := by
  cases h with
  | refl => exact .refl v
  | renamed h => exact .renamed h

/-- Two variables that correspond to a third one correspond to one another. -/
theorem Alike.trans (h : u.Alike base v) (h' : v.Alike base w) : u.Alike base w := by
  cases h with
  | refl => exact h'
  | renamed h =>
    cases h' with
    | refl => exact .renamed h
    | renamed _ => exact .renamed h

/-- Corresponding variables have the same number, if they have one. -/
theorem Alike.id?_eq (h : v.Alike base w) : w.id? = v.id? := by
  cases h <;> rfl

/-- A variable that was there at the start corresponds to itself only. -/
theorem Alike.eq_of_lt (h : v.Alike base w) (hv : ∀ i, v.id? = some i → i < base) : v = w := by
  cases h with
  | refl => rfl
  | renamed h => exact absurd (hv _ rfl) (by omega)

end Variable

/-- Like statuses can be read in both directions. -/
theorem Status.Alike.symm {s t : Status} (h : s.Alike base t) : t.Alike base s := by
  cases h with
  | unresolved => exact .unresolved
  | resolved c => exact .resolved c
  | linked h => exact .linked h.symm

/-- Every term is like itself. -/
theorem Term.Alike.refl (t : Term) : t.Alike base t := by
  cases t with
  | keyword a => exact .keyword a
  | const c => exact .const c
  | var v => exact .var (.refl v)
  | hole => exact .hole

/-- Like referents are like terms. -/
theorem Referent.Alike.toTerm {r s : Referent} (h : r.Alike base s) :
    r.toTerm.Alike base s.toTerm := by
  cases h with
  | const c => exact .const c
  | var h => exact .var h

namespace Env

variable {m m' : VarMap Status} {k k' : Env} {u u' v v' w w' : Variable} {s s' : Status}

/-! ## Statuses of corresponding variables -/

/-- Every declared variable has a counterpart with a like status. -/
def Covers (base : Nat) (m m' : VarMap Status) : Prop :=
  ∀ v s, m.get? v = some s →
    ∃ v' s', m'.get? v' = some s' ∧ v.Alike base v' ∧ s.Alike base s'

/-- No declared variable but `u` itself corresponds to `u`. -/
def Alone (base : Nat) (m : VarMap Status) (u : Variable) : Prop :=
  ∀ v, m.contains v = true → v.Alike base u → v = u

/-- No two declared variables correspond to one another. -/
def Distinct (base : Nat) (m : VarMap Status) : Prop :=
  ∀ u, m.contains u = true → Alone base m u

/-- Counterparts have like statuses. -/
theorem Covers.get?_eq (h : Covers base m m') (hm' : Distinct base m') (hv : m.get? v = some s)
    (hvv' : v.Alike base v') (hv' : m'.contains v' = true) :
    ∃ s', m'.get? v' = some s' ∧ s.Alike base s' := by
  obtain ⟨w, s', hw, hvw, hs⟩ := h v s hv
  obtain rfl : w = v' := hm' v' hv' w (VarMap.contains_iff.mpr ⟨s', hw⟩) (hvw.symm.trans hvv')
  exact ⟨s', hw, hs⟩

/-- The chains of counterparts end alike. -/
theorem Covers.ends (h : Covers base m m') (hm' : Distinct base m') (hg : Grounded m') {r : Root}
    (hr : Ends m v r) (hvv' : v.Alike base v') (hv' : m'.contains v' = true) :
    ∃ r', Ends m' v' r' ∧ r.Alike base r' := by
  induction hr generalizing v' with
  | unresolved hv =>
    obtain ⟨s', hs', hs⟩ := h.get?_eq hm' hv hvv' hv'
    cases hs
    exact ⟨_, .unresolved hs', hvv', rfl⟩
  | resolved hv =>
    obtain ⟨s', hs', hs⟩ := h.get?_eq hm' hv hvv' hv'
    cases hs
    exact ⟨_, .resolved hs', hvv', rfl⟩
  | linked hv _ ih =>
    obtain ⟨s', hs', hs⟩ := h.get?_eq hm' hv hvv' hv'
    cases hs with
    | linked hww' =>
      obtain ⟨r', hr', halike⟩ := ih hww' (hg.contains_of_linked hs')
      exact ⟨r', .linked hs' hr', halike⟩

/-- Counterparts that get like statuses go on to be covered. -/
theorem Covers.insert (h : Covers base m m') (hu : Alone base m u) (huu' : u.Alike base u')
    (hs : s.Alike base s') : Covers base (m.insert u s) (m'.insert u' s') := by
  intro v t hv
  rw [VarMap.get?_insert] at hv
  split at hv
  · rename_i hvu
    cases hv
    exact ⟨u', s', VarMap.get?_insert_self _ _ _, hvu ▸ huu', hs⟩
  · rename_i hne
    obtain ⟨v', t', hv', hvv', ht⟩ := h v t hv
    have hne' : v' ≠ u' := by
      rintro rfl
      exact hne (hu v (VarMap.contains_iff.mpr ⟨t, hv⟩) (hvv'.trans huu'.symm))
    exact ⟨v', t', by rw [VarMap.get?_insert_of_ne _ _ hne', hv'], hvv', ht⟩

/-- A variable to which no other one corresponds can be added or changed. -/
theorem Distinct.insert (h : Distinct base m) (hu : Alone base m u) :
    Distinct base (m.insert u s) := by
  intro w hw v hv hvw
  rw [VarMap.contains_insert, Bool.or_eq_true, decide_eq_true_eq] at hv hw
  rcases hw with rfl | hw
  · rcases hv with rfl | hv
    · rfl
    · exact hu v hv hvw
  · rcases hv with rfl | hv
    · exact (hu w hw hvw.symm).symm
    · exact h w hw v hv hvw

/-- A variable that carries the next number corresponds to no declared one. -/
theorem WellFormed.alone (hk : k.WellFormed) (hu : u.id? = some k.next) :
    Alone base k.statuses u := by
  intro v hv hvu
  exact absurd (hk.numbered hv (hvu.id?_eq.symm.trans hu)) (Nat.lt_irrefl _)

/-! ## Environments -/

/-- The environments are well formed and know the same of corresponding variables. -/
structure Alike (base : Nat) (k k' : Env) : Prop where
  left : k.WellFormed
  right : k'.WellFormed
  next : k'.next = k.next
  base_le : base ≤ k.next
  forth : Covers base k.statuses k'.statuses
  back : Covers base k'.statuses k.statuses
  distinct : Distinct base k.statuses
  distinct' : Distinct base k'.statuses

/-- At the start every variable corresponds to itself only. -/
theorem WellFormed.alike_refl (hk : k.WellFormed) : k.Alike k.next k where
  left := hk
  right := hk
  next := rfl
  base_le := Nat.le_refl _
  forth v s hv := by
    refine ⟨v, s, hv, .refl v, ?_⟩
    cases s with
    | unresolved => exact .unresolved
    | resolved c => exact .resolved c
    | linked w => exact .linked (.refl w)
  back v s hv := by
    refine ⟨v, s, hv, .refl v, ?_⟩
    cases s with
    | unresolved => exact .unresolved
    | resolved c => exact .resolved c
    | linked w => exact .linked (.refl w)
  distinct _ _ _ hv hvu := hvu.eq_of_lt fun _ hi => hk.numbered hv hi
  distinct' _ _ _ hv hvu := hvu.eq_of_lt fun _ hi => hk.numbered hv hi

namespace Alike

/-- Alikeness of environments does not depend on which of them comes first. -/
theorem symm (h : k.Alike base k') : k'.Alike base k where
  left := h.right
  right := h.left
  next := h.next.symm
  base_le := h.next ▸ h.base_le
  forth := h.back
  back := h.forth
  distinct := h.distinct'
  distinct' := h.distinct

/-- Corresponding variables are equal on both sides or on neither. -/
theorem eq_iff (h : k.Alike base k') (hv : k.declares v = true) (hw : k.declares w = true)
    (hv' : k'.declares v' = true) (hw' : k'.declares w' = true) (hvv' : v.Alike base v')
    (hww' : w.Alike base w') : v = w ↔ v' = w' := by
  constructor
  · rintro rfl
    exact h.distinct' _ hw' _ hv' (hvv'.symm.trans hww')
  · rintro rfl
    exact h.distinct _ hw _ hv (hvv'.trans hww'.symm)

/-- Corresponding variables have like roots. -/
theorem ends (h : k.Alike base k') (hv : k.declares v = true) (hv' : k'.declares v' = true)
    (hvv' : v.Alike base v') :
    ∃ r r', Ends k.statuses v r ∧ Ends k'.statuses v' r' ∧ r.Alike base r' := by
  obtain ⟨r, hr⟩ := h.left.grounded v hv
  obtain ⟨r', hr', halike⟩ := h.forth.ends h.distinct' h.right.grounded hr hvv' hv'
  exact ⟨r, r', hr, hr', halike⟩

/-- What is told of variables that correspond to themselves is the same on both sides. -/
theorem tellsAs {k₀ : Env} (h : k.Alike base k')
    (hdeclared : ∀ v, k₀.declares v = true → k.declares v = true ∧ k'.declares v = true) :
    k₀.TellsAs k k' where
  valueOf_eq v hv := by
    obtain ⟨r, r', hr, hr', _, hvalue⟩ := h.ends (hdeclared v hv).1 (hdeclared v hv).2 (.refl v)
    rw [hr.valueOf_eq, hr'.valueOf_eq, hvalue]
  joined_iff v w hv hw := by
    obtain ⟨r, r', hr, hr', hlast, _⟩ := h.ends (hdeclared v hv).1 (hdeclared v hv).2 (.refl v)
    obtain ⟨q, q', hq, hq', hlast', _⟩ := h.ends (hdeclared w hw).1 (hdeclared w hw).2 (.refl w)
    rw [hr.joined_iff hq, hr'.joined_iff hq']
    exact h.eq_iff hr.ends_last.contains hq.ends_last.contains hr'.ends_last.contains
      hq'.ends_last.contains hlast hlast'

/-- Corresponding unresolved variables learn like statuses. -/
theorem setStatus (h : k.Alike base k') (hu : k.statuses.get? u = some .unresolved)
    (hu' : k'.statuses.get? u' = some .unresolved) (huu' : u.Alike base u')
    (hs : s.Alike base s') (hleft : (k.setStatus u s).WellFormed)
    (hright : (k'.setStatus u' s').WellFormed) :
    (k.setStatus u s).Alike base (k'.setStatus u' s') where
  left := hleft
  right := hright
  next := h.next
  base_le := h.base_le
  forth := h.forth.insert (h.distinct u (VarMap.contains_iff.mpr ⟨_, hu⟩)) huu' hs
  back := h.back.insert (h.distinct' u' (VarMap.contains_iff.mpr ⟨_, hu'⟩)) huu'.symm hs.symm
  distinct := h.distinct.insert (h.distinct u (VarMap.contains_iff.mpr ⟨_, hu⟩))
  distinct' := h.distinct'.insert (h.distinct' u' (VarMap.contains_iff.mpr ⟨_, hu'⟩))

/-- Corresponding variables are issued under the next number. -/
theorem issue (h : k.Alike base k') (hu : u.id? = some k.next) (huu' : u.Alike base u')
    {locals locals' : VarMap Referent}
    (hleft : WellFormed { k with
      statuses := k.statuses.insert u .unresolved, locals := locals, next := k.next + 1 })
    (hright : WellFormed { k' with
      statuses := k'.statuses.insert u' .unresolved, locals := locals', next := k'.next + 1 }) :
    Alike base
      { k with statuses := k.statuses.insert u .unresolved, locals := locals, next := k.next + 1 }
      { k' with
        statuses := k'.statuses.insert u' .unresolved
        locals := locals'
        next := k'.next + 1 } := by
  have halone : Alone base k.statuses u := h.left.alone hu
  have halone' : Alone base k'.statuses u' :=
    h.right.alone (huu'.id?_eq.trans (hu.trans (congrArg some h.next.symm)))
  exact {
    left := hleft
    right := hright
    next := congrArg (· + 1) h.next
    base_le := Nat.le_succ_of_le h.base_le
    forth := h.forth.insert halone huu' .unresolved
    back := h.back.insert halone' huu'.symm .unresolved
    distinct := h.distinct.insert halone
    distinct' := h.distinct'.insert halone' }

end Alike

/-! ## Leaving a scope -/

section

variable {inner inner' outer outer' : Env} {kept kept' : VarMap Status}

/-- A counterpart of an outer variable is an outer variable. -/
private theorem declares_outer (hinner : inner'.Alike base inner) (houter : outer.Alike base outer')
    (hdeclared' : ∀ v, outer'.declares v = true → inner'.declares v = true)
    (hv : outer.declares v = true) (hv' : inner'.declares v' = true) (hvv' : v.Alike base v') :
    outer'.declares v' = true := by
  obtain ⟨s, hs⟩ := declares_iff.mp hv
  obtain ⟨w, s', hw, hvw, _⟩ := houter.forth v s hs
  have hw' : outer'.declares w = true := declares_iff.mpr ⟨s', hw⟩
  obtain rfl : w = v' := hinner.distinct v' hv' w (hdeclared' w hw') (hvw.symm.trans hvv')
  exact hw'

/-- A counterpart of an inner variable is an inner variable. -/
private theorem declares_outer_eq_false (hinner : inner.Alike base inner')
    (houter : outer.Alike base outer')
    (hdeclared : ∀ v, outer.declares v = true → inner.declares v = true)
    (howned : outer.declares v = false) (hv : inner.declares v = true) (hvv' : v.Alike base v') :
    outer'.declares v' = false := by
  cases ho : outer'.declares v' with
  | false => rfl
  | true =>
    rw [declares_outer hinner houter.symm hdeclared ho hv hvv'.symm] at howned
    cases howned

/-- Counterparts keep like statuses. -/
private theorem outerStatus_alike (hinner : inner.Alike base inner')
    (houter : outer.Alike base outer')
    (hdeclared : ∀ v, outer.declares v = true → inner.declares v = true)
    (hdeclared' : ∀ v, outer'.declares v = true → inner'.declares v = true)
    (hv' : outer'.declares v' = true) (hvv' : v.Alike base v')
    (h : inner.outerStatus outer v = .ok s) (hv : outer.declares v = true) :
    ∃ s', inner'.outerStatus outer' v' = .ok s' ∧ s.Alike base s' := by
  obtain ⟨t, ht⟩ := declares_iff.mp (hdeclared v hv)
  obtain ⟨t', ht', halike⟩ := hinner.forth.get?_eq hinner.distinct' ht hvv' (hdeclared' v' hv')
  cases halike with
  | unresolved =>
    rw [outerStatus_of_end ht (by simp)] at h
    cases h
    exact ⟨_, outerStatus_of_end ht' (by simp), .unresolved⟩
  | resolved c =>
    rw [outerStatus_of_end ht (by simp)] at h
    cases h
    exact ⟨_, outerStatus_of_end ht' (by simp), .resolved c⟩
  | @linked w w' hww' =>
    have hw := hinner.left.grounded.contains_of_linked ht
    have hw' := hinner.right.grounded.contains_of_linked ht'
    cases howned : outer.declares w with
    | true =>
      rw [outerStatus_of_linked_outer ht howned] at h
      cases h
      have howned' := declares_outer hinner.symm houter hdeclared' howned hw' hww'
      exact ⟨_, outerStatus_of_linked_outer ht' howned', .linked hww'⟩
    | false =>
      have howned' := declares_outer_eq_false hinner houter hdeclared howned hw hww'
      obtain ⟨r, r', hr, hr', hlast, hvalue⟩ := hinner.ends hw hw' hww'
      rw [outerStatus_of_linked_inner ht howned hr] at h
      cases h
      refine ⟨_, outerStatus_of_linked_inner ht' howned' hr', ?_⟩
      obtain ⟨last, value⟩ := r
      obtain ⟨last', value'⟩ := r'
      obtain rfl : value' = value := hvalue
      cases value' with
      | none => exact .linked hlast
      | some c => exact .resolved c

/-- An outer variable has a counterpart, which keeps a like status. -/
private theorem exists_outerStatus_alike (hinner : inner.Alike base inner')
    (houter : outer.Alike base outer')
    (hdeclared : ∀ v, outer.declares v = true → inner.declares v = true)
    (hdeclared' : ∀ v, outer'.declares v = true → inner'.declares v = true)
    (hv : outer.declares v = true) (h : inner.outerStatus outer v = .ok s) :
    ∃ v' s', outer'.declares v' = true ∧ v.Alike base v' ∧
      inner'.outerStatus outer' v' = .ok s' ∧ s.Alike base s' := by
  obtain ⟨t, ht⟩ := declares_iff.mp hv
  obtain ⟨v', t', ht', hvv', _⟩ := houter.forth v t ht
  have hv' : outer'.declares v' = true := declares_iff.mpr ⟨t', ht'⟩
  obtain ⟨s', hs', halike⟩ := outerStatus_alike hinner houter hdeclared hdeclared' hv' hvv' h hv
  exact ⟨v', s', hv', hvv', hs', halike⟩

/-- What is retained of counterparts is alike. -/
private theorem covers_retainEach (hinner : inner.Alike base inner')
    (houter : outer.Alike base outer')
    (hdeclared : ∀ v, outer.declares v = true → inner.declares v = true)
    (hdeclared' : ∀ v, outer'.declares v = true → inner'.declares v = true)
    (h : inner.retainEach outer = .ok kept) (h' : inner'.retainEach outer' = .ok kept')
    (hkept : ∀ v, kept.contains v = true → inner.declares v = true) :
    Covers base kept kept' := by
  intro v s hv
  cases howned : outer.declares v with
  | true =>
    obtain ⟨t, ht, hget⟩ := get?_retainEach_outer h howned
    rw [hv] at hget
    cases hget
    obtain ⟨v', s', hv', hvv', hs', halike⟩ :=
      exists_outerStatus_alike hinner houter hdeclared hdeclared' howned ht
    obtain ⟨t', ht', hget'⟩ := get?_retainEach_outer h' hv'
    rw [hs'] at ht'
    cases ht'
    exact ⟨v', s', hget', hvv', halike⟩
  | false =>
    obtain ⟨rfl, u, hu, hlink⟩ := get?_retainEach_other h howned hv
    obtain ⟨u', t', hu', _, ht', halike⟩ :=
      exists_outerStatus_alike hinner houter hdeclared hdeclared' hu hlink
    cases halike with
    | @linked _ v' hvv' =>
      have hinnerv := hkept v (VarMap.contains_iff.mpr ⟨_, hv⟩)
      have howned' := declares_outer_eq_false hinner houter hdeclared howned hinnerv hvv'
      exact ⟨v', _, get?_retainEach_target h' hu' ht' howned', hvv', .unresolved⟩

/-- The return to outer environments that are alike leads to environments that are alike. -/
theorem Alike.concur_restore (hinner : inner.Alike base inner') (houter : outer.Alike base outer')
    (hextends : outer.Extends inner) (hextends' : outer'.Extends inner') :
    Concur (fun a b => a.Alike base b ∧ (a.locals = outer.locals ∧ a.scope = outer.scope) ∧
        b.locals = outer'.locals ∧ b.scope = outer'.scope)
      (inner.restore outer) (inner'.restore outer') := by
  have hdeclared : ∀ v, outer.declares v = true → inner.declares v = true :=
    fun v => hextends.declared
  have hdeclared' : ∀ v, outer'.declares v = true → inner'.declares v = true :=
    fun v => hextends'.declared
  obtain ⟨a, ha⟩ := restore_eq_ok hinner.left.grounded hdeclared
  obtain ⟨b, hb⟩ := restore_eq_ok hinner.right.grounded hdeclared'
  have hleft := wellFormed_restore hinner.left houter.left hdeclared ha
  have hright := wellFormed_restore hinner.right houter.right hdeclared' hb
  rw [ha, hb]
  obtain ⟨kept, hkept, rfl⟩ := restore_eq_ok_iff.mp ha
  obtain ⟨kept', hkept', rfl⟩ := restore_eq_ok_iff.mp hb
  have hin : ∀ v, kept.contains v = true → inner.declares v = true :=
    fun v => contains_inner_of_retained hkept
  have hin' : ∀ v, kept'.contains v = true → inner'.declares v = true :=
    fun v => contains_inner_of_retained hkept'
  rw [retained_eq_retainEach hinner.left.grounded hdeclared] at hkept
  rw [retained_eq_retainEach hinner.right.grounded hdeclared'] at hkept'
  refine .ok ⟨?_, ⟨rfl, rfl⟩, rfl, rfl⟩
  exact {
    left := hleft
    right := hright
    next := congrArg₂ max hinner.next houter.next
    base_le := Nat.le_trans hinner.base_le (Nat.le_max_left _ _)
    forth := covers_retainEach hinner houter hdeclared hdeclared' hkept hkept' hin
    back := covers_retainEach hinner.symm houter.symm hdeclared' hdeclared hkept' hkept hin'
    distinct := fun u hu v hv => hinner.distinct u (hin u hu) v (hin v hv)
    distinct' := fun u hu v hv => hinner.distinct' u (hin' u hu) v (hin' v hv) }

end

end Env

end Deduction

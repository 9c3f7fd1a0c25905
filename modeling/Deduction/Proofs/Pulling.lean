import Deduction.Search
import Mathlib.Data.List.Forall2

/-!
# What pulling a search can bring

Two views of a search forget how it is pulled. An item is emitted when some way
through the forks passes it, and a list of items completes a search when some way
through the forks passes exactly these items and sees the end. Each combinator is
described once through these views; a bound on the depth cuts a search, and a
search that is cut completes nothing.
-/

namespace Deduction

namespace Search

variable {α β : Type}

/-- Some way through the forks of a search passes the item. -/
inductive Emits : Search α → α → Prop
  | here {a : α} {rest : Unit → Search α} : Emits (item a rest) a
  | later {a b : α} {rest : Unit → Search α} (h : Emits (rest ()) b) : Emits (item a rest) b
  | note {s : String} {a : α} {rest : Unit → Search α} (h : Emits (rest ()) a) :
      Emits (note s rest) a
  | left {a : α} {l r : Unit → Search α} (h : Emits (l ()) a) : Emits (fork l r) a
  | right {a : α} {l r : Unit → Search α} (h : Emits (r ()) a) : Emits (fork l r) a

/-- Some way through the forks of a search passes exactly the listed items and then
sees the end. -/
inductive Completes : Search α → List α → Prop
  | done : Completes done []
  | item {a : α} {rest : Unit → Search α} {as : List α} (h : Completes (rest ()) as) :
      Completes (item a rest) (a :: as)
  | note {s : String} {rest : Unit → Search α} {as : List α} (h : Completes (rest ()) as) :
      Completes (note s rest) as
  | left {l r : Unit → Search α} {as : List α} (h : Completes (l ()) as) : Completes (fork l r) as
  | right {l r : Unit → Search α} {as : List α} (h : Completes (r ()) as) :
      Completes (fork l r) as

/-- The items of a completed search are emitted. -/
theorem Completes.emits {s : Search α} {as : List α} (h : Completes s as) {a : α}
    (ha : a ∈ as) : Emits s a := by
  induction h with
  | done => simp at ha
  | item _ ih =>
    rcases List.mem_cons.mp ha with rfl | ha
    · exact .here
    · exact .later (ih ha)
  | note _ ih => exact .note (ih ha)
  | left _ ih => exact .left (ih ha)
  | right _ ih => exact .right (ih ha)

/-! ## Pulling -/

/-- Whatever decides the forks, a pulled item is emitted. -/
theorem emits_of_mem_pull {choice : Nat → Bool} {s : Search α} {more forks : Nat} {a : α}
    (h : a ∈ (pull choice s more forks).items) : Emits s a := by
  induction s generalizing more forks with
  | done => simp [pull] at h
  | cut => simp [pull] at h
  | item b rest ih =>
    cases more with
    | zero =>
      rw [show a = b by simpa [pull] using h]
      exact .here
    | succ more =>
      rcases List.mem_cons.mp (by simpa only [pull] using h) with rfl | h
      · exact .here
      · exact .later (ih () h)
  | note s rest ih => exact .note (ih () (by simpa only [pull] using h))
  | fork l r ihl ihr =>
    rw [pull] at h
    split at h
    · exact .left (ihl () h)
    · exact .right (ihr () h)

/-- A pull that has seen the end has brought the items of a completed search. -/
theorem completes_of_pull_ended {choice : Nat → Bool} {s : Search α} {more forks : Nat}
    (h : (pull choice s more forks).ended = true) :
    Completes s (pull choice s more forks).items := by
  induction s generalizing more forks with
  | done => exact .done
  | cut => simp [pull] at h
  | item b rest ih =>
    cases more with
    | zero => simp [pull] at h
    | succ more => exact .item (ih () h)
  | note s rest ih => exact .note (ih () h)
  | fork l r ihl ihr =>
    cases hc : choice forks with
    | true =>
      rw [pull, if_pos hc] at h ⊢
      exact .left (ihl () h)
    | false =>
      rw [pull, if_neg (by simp [hc])] at h ⊢
      exact .right (ihr () h)

/-- Pulling up to a limit brings emitted items only. -/
theorem emits_of_mem_take {choice : Nat → Bool} {limit : Nat} {s : Unit → Search α} {a : α}
    (h : a ∈ (take choice limit s).items) : Emits (s ()) a := by
  cases limit with
  | zero => simp [take] at h
  | succ more => exact emits_of_mem_pull h

/-- A search that was pulled to its end was completed. -/
theorem completes_of_take_ended {choice : Nat → Bool} {limit : Nat} {s : Unit → Search α}
    (h : (take choice limit s).ended = true) : Completes (s ()) (take choice limit s).items := by
  cases limit with
  | zero => simp [take] at h
  | succ more => exact completes_of_pull_ended h

/-! ## One search after the other -/

/-- A single item is all that is emitted. -/
theorem emits_one_iff {a b : α} : Emits (one a) b ↔ b = a := by
  constructor
  · rintro (_ | h)
    · rfl
    · cases h
  · rintro rfl
    exact .here

/-- A single item is all that a completed search brings. -/
theorem completes_one {a : α} {as : List α} (h : Completes (one a) as) : as = [a] := by
  cases h with
  | item h =>
    cases h
    rfl

/-- Notes are passed without an item. -/
theorem emits_noted_iff {texts : List String} {s : Unit → Search α} {a : α} :
    Emits (noted texts s) a ↔ Emits (s ()) a := by
  induction texts with
  | nil => rfl
  | cons t ts ih =>
    constructor
    · rintro (_ | _ | h)
      exact ih.mp h
    · exact fun h => .note (ih.mpr h)

/-- Notes have no say in what completes a search. -/
theorem completes_noted_iff {texts : List String} {s : Unit → Search α} {as : List α} :
    Completes (noted texts s) as ↔ Completes (s ()) as := by
  induction texts with
  | nil => rfl
  | cons t ts ih =>
    constructor
    · rintro (_ | _ | h)
      exact ih.mp h
    · exact fun h => .note (ih.mpr h)

/-- A list emits its members only. -/
theorem mem_of_emits_ofList {l : List α} {a : α} (h : Emits (ofList l) a) : a ∈ l := by
  induction l with
  | nil => cases h
  | cons b l ih =>
    cases h with
    | here => exact List.mem_cons_self
    | later h => exact List.mem_cons_of_mem _ (ih h)

/-- A completed list has brought all of its members. -/
theorem completes_ofList {l as : List α} (h : Completes (ofList l) as) : as = l := by
  induction l generalizing as with
  | nil => cases h; rfl
  | cons b l ih =>
    cases h with
    | item h => rw [ih h]

/-- An item of the first search or of the second. -/
theorem emits_append {s : Search α} {t : Unit → Search α} {a : α} (h : Emits (append s t) a) :
    Emits s a ∨ Emits (t ()) a := by
  induction s with
  | done => exact Or.inr h
  | cut => cases h
  | item b rest ih =>
    cases h with
    | here => exact Or.inl .here
    | later h => exact (ih () h).imp_left .later
  | note n rest ih =>
    cases h with
    | note h => exact (ih () h).imp_left .note
  | fork l r ihl ihr =>
    cases h with
    | left h => exact (ihl () h).imp_left .left
    | right h => exact (ihr () h).imp_left .right

/-- Both searches were completed, one after the other. -/
theorem completes_append {s : Search α} {t : Unit → Search α} {as : List α}
    (h : Completes (append s t) as) :
    ∃ before after, Completes s before ∧ Completes (t ()) after ∧ as = before ++ after := by
  induction s generalizing as with
  | done => exact ⟨[], as, .done, h, rfl⟩
  | cut => cases h
  | item b rest ih =>
    cases h with
    | item h =>
      obtain ⟨before, after, hs, ht, rfl⟩ := ih () h
      exact ⟨b :: before, after, .item hs, ht, rfl⟩
  | note n rest ih =>
    cases h with
    | note h =>
      obtain ⟨before, after, hs, ht, rfl⟩ := ih () h
      exact ⟨before, after, .note hs, ht, rfl⟩
  | fork l r ihl ihr =>
    cases h with
    | left h =>
      obtain ⟨before, after, hs, ht, rfl⟩ := ihl () h
      exact ⟨before, after, .left hs, ht, rfl⟩
    | right h =>
      obtain ⟨before, after, hs, ht, rfl⟩ := ihr () h
      exact ⟨before, after, .right hs, ht, rfl⟩

/-- Every item stems from the search run for some item. -/
theorem emits_bind {s : Search α} {f : α → Search β} {b : β} (h : Emits (bind s f) b) :
    ∃ a, Emits s a ∧ Emits (f a) b := by
  induction s with
  | done => cases h
  | cut => cases h
  | item a rest ih =>
    rcases emits_append h with h | h
    · exact ⟨a, .here, h⟩
    · obtain ⟨a', ha', hb⟩ := ih () h
      exact ⟨a', .later ha', hb⟩
  | note n rest ih =>
    cases h with
    | note h =>
      obtain ⟨a, ha, hb⟩ := ih () h
      exact ⟨a, .note ha, hb⟩
  | fork l r ihl ihr =>
    cases h with
    | left h =>
      obtain ⟨a, ha, hb⟩ := ihl () h
      exact ⟨a, .left ha, hb⟩
    | right h =>
      obtain ⟨a, ha, hb⟩ := ihr () h
      exact ⟨a, .right ha, hb⟩

/-- The first search was completed, and then, in order, the search of each of its items. -/
theorem completes_bind {s : Search α} {f : α → Search β} {bs : List β}
    (h : Completes (bind s f) bs) :
    ∃ as parts, Completes s as ∧ List.Forall₂ (fun a part => Completes (f a) part) as parts ∧
      bs = parts.flatten := by
  induction s generalizing bs with
  | done => cases h; exact ⟨[], [], .done, .nil, rfl⟩
  | cut => cases h
  | item a rest ih =>
    obtain ⟨before, after, ha, hrest, rfl⟩ := completes_append h
    obtain ⟨as, parts, hs, hparts, rfl⟩ := ih () hrest
    exact ⟨a :: as, before :: parts, .item hs, .cons ha hparts, rfl⟩
  | note n rest ih =>
    cases h with
    | note h =>
      obtain ⟨as, parts, hs, hparts, rfl⟩ := ih () h
      exact ⟨as, parts, .note hs, hparts, rfl⟩
  | fork l r ihl ihr =>
    cases h with
    | left h =>
      obtain ⟨as, parts, hs, hparts, rfl⟩ := ihl () h
      exact ⟨as, parts, .left hs, hparts, rfl⟩
    | right h =>
      obtain ⟨as, parts, hs, hparts, rfl⟩ := ihr () h
      exact ⟨as, parts, .right hs, hparts, rfl⟩

/-- No item of a completed search was left out by what was run for them. -/
theorem completes_bind_mem {s : Search α} {f : α → Search β} {bs : List β}
    (h : Completes (bind s f) bs) :
    ∃ as, Completes s as ∧ ∀ a ∈ as, ∃ part, Completes (f a) part ∧ part ⊆ bs := by
  obtain ⟨as, parts, hs, hparts, rfl⟩ := completes_bind h
  refine ⟨as, hs, ?_⟩
  clear hs h
  induction hparts with
  | nil => simp
  | @cons a part as parts ha _ ih =>
    intro a' ha'
    rcases List.mem_cons.mp ha' with rfl | ha'
    · exact ⟨part, ha, by simp⟩
    · obtain ⟨part', hpart', hsub⟩ := ih a' ha'
      exact ⟨part', hpart', List.Subset.trans hsub (by simp)⟩

/-- Changed items come from items that were emitted. -/
theorem emits_map {f : α → β} {s : Search α} {b : β} (h : Emits (map f s) b) :
    ∃ a, Emits s a ∧ b = f a := by
  induction s with
  | done => cases h
  | cut => cases h
  | item a rest ih =>
    cases h with
    | here => exact ⟨a, .here, rfl⟩
    | later h =>
      obtain ⟨a', ha', hb⟩ := ih () h
      exact ⟨a', .later ha', hb⟩
  | note n rest ih =>
    cases h with
    | note h =>
      obtain ⟨a, ha, hb⟩ := ih () h
      exact ⟨a, .note ha, hb⟩
  | fork l r ihl ihr =>
    cases h with
    | left h =>
      obtain ⟨a, ha, hb⟩ := ihl () h
      exact ⟨a, .left ha, hb⟩
    | right h =>
      obtain ⟨a, ha, hb⟩ := ihr () h
      exact ⟨a, .right ha, hb⟩

/-- A completed search with changed items brings the changed items. -/
theorem completes_map {f : α → β} {s : Search α} {bs : List β} (h : Completes (map f s) bs) :
    ∃ as, Completes s as ∧ bs = as.map f := by
  induction s generalizing bs with
  | done => cases h; exact ⟨[], .done, rfl⟩
  | cut => cases h
  | item a rest ih =>
    cases h with
    | item h =>
      obtain ⟨as, hs, rfl⟩ := ih () h
      exact ⟨a :: as, .item hs, rfl⟩
  | note n rest ih =>
    cases h with
    | note h =>
      obtain ⟨as, hs, rfl⟩ := ih () h
      exact ⟨as, .note hs, rfl⟩
  | fork l r ihl ihr =>
    cases h with
    | left h =>
      obtain ⟨as, hs, rfl⟩ := ihl () h
      exact ⟨as, .left hs, rfl⟩
    | right h =>
      obtain ⟨as, hs, rfl⟩ := ihr () h
      exact ⟨as, .right hs, rfl⟩

/-! ## Interleaving -/

private theorem emits_rightFirst {left : Unit → Search α}
    {resume : (Unit → Search α) → Search α}
    (hresume : ∀ later b, Emits (resume later) b → Emits (left ()) b ∨ Emits (later ()) b)
    {s : Search α} {a : α} (h : Emits (rightFirst left resume s) a) :
    Emits (left ()) a ∨ Emits s a := by
  induction s with
  | done => exact Or.inl h
  | cut => cases h
  | item b rest ih =>
    cases h with
    | here => exact Or.inr .here
    | later h =>
      cases h with
      | left h => exact (hresume rest a h).imp_right .later
      | right h => exact (ih () h).imp_right .later
  | note n rest ih =>
    cases h with
    | note h => exact (ih () h).imp_right .note
  | fork l r ihl ihr =>
    cases h with
    | left h => exact (ihl () h).imp_right .left
    | right h => exact (ihr () h).imp_right .right

private theorem emits_leftFirst {s : Search α} {right : Unit → Search α} {a : α}
    (h : Emits (leftFirst s right) a) : Emits s a ∨ Emits (right ()) a := by
  induction s generalizing right a with
  | done => exact Or.inr h
  | cut => cases h
  | item b rest ih =>
    cases h with
    | here => exact Or.inl .here
    | later h =>
      cases h with
      | left h => exact (ih () h).imp_left .later
      | right h => exact (emits_rightFirst (fun later c => ih ()) h).imp_left .later
  | note n rest ih =>
    cases h with
    | note h => exact (ih () h).imp_left .note
  | fork l r ihl ihr =>
    cases h with
    | left h => exact (ihl () h).imp_left .left
    | right h => exact (ihr () h).imp_left .right

/-- Interleaving two searches adds no item. -/
theorem emits_merge {left right : Unit → Search α} {a : α} (h : Emits (merge left right) a) :
    Emits (left ()) a ∨ Emits (right ()) a := by
  cases h with
  | left h => exact emits_leftFirst h
  | right h => exact emits_rightFirst (fun later b => emits_leftFirst) h

/-- The items complete both searches, in some order of the one set against the other. -/
private def CompletesBoth (left right : Search α) (as : List α) : Prop :=
  ∃ ls rs, Completes left ls ∧ Completes right rs ∧ as.Perm (ls ++ rs)

private theorem CompletesBoth.map_left {left left' right : Search α} {as : List α}
    (h : CompletesBoth left right as) (hleft : ∀ ls, Completes left ls → Completes left' ls) :
    CompletesBoth left' right as := by
  obtain ⟨ls, rs, hl, hr, hp⟩ := h
  exact ⟨ls, rs, hleft ls hl, hr, hp⟩

private theorem CompletesBoth.map_right {left right right' : Search α} {as : List α}
    (h : CompletesBoth left right as) (hright : ∀ rs, Completes right rs → Completes right' rs) :
    CompletesBoth left right' as := by
  obtain ⟨ls, rs, hl, hr, hp⟩ := h
  exact ⟨ls, rs, hl, hright rs hr, hp⟩

private theorem CompletesBoth.cons_left {a : α} {rest : Unit → Search α} {right : Search α}
    {as : List α} (h : CompletesBoth (rest ()) right as) :
    CompletesBoth (Search.item a rest) right (a :: as) := by
  obtain ⟨ls, rs, hl, hr, hp⟩ := h
  exact ⟨a :: ls, rs, .item hl, hr, hp.cons a⟩

private theorem CompletesBoth.cons_right {a : α} {left : Search α} {rest : Unit → Search α}
    {as : List α} (h : CompletesBoth left (rest ()) as) :
    CompletesBoth left (Search.item a rest) (a :: as) := by
  obtain ⟨ls, rs, hl, hr, hp⟩ := h
  exact ⟨ls, a :: rs, hl, .item hr, (hp.cons a).trans List.perm_middle.symm⟩

private theorem completes_rightFirst {left : Unit → Search α}
    {resume : (Unit → Search α) → Search α}
    (hresume : ∀ later bs, Completes (resume later) bs → CompletesBoth (left ()) (later ()) bs)
    {s : Search α} {as : List α} (h : Completes (rightFirst left resume s) as) :
    CompletesBoth (left ()) s as := by
  induction s generalizing as with
  | done => exact ⟨as, [], h, .done, by simp⟩
  | cut => cases h
  | item b rest ih =>
    cases h with
    | item h =>
      cases h with
      | left h => exact (hresume rest _ h).cons_right
      | right h => exact (ih () h).cons_right
  | note n rest ih =>
    cases h with
    | note h => exact (ih () h).map_right fun _ => .note
  | fork l r ihl ihr =>
    cases h with
    | left h => exact (ihl () h).map_right fun _ => .left
    | right h => exact (ihr () h).map_right fun _ => .right

private theorem completes_leftFirst {s : Search α} {right : Unit → Search α} {as : List α}
    (h : Completes (leftFirst s right) as) : CompletesBoth s (right ()) as := by
  induction s generalizing right as with
  | done => exact ⟨[], as, .done, h, by simp⟩
  | cut => cases h
  | item b rest ih =>
    cases h with
    | item h =>
      cases h with
      | left h => exact (ih () h).cons_left
      | right h => exact (completes_rightFirst (fun later bs => ih ()) h).cons_left
  | note n rest ih =>
    cases h with
    | note h => exact (ih () h).map_left fun _ => .note
  | fork l r ihl ihr =>
    cases h with
    | left h => exact (ihl () h).map_left fun _ => .left
    | right h => exact (ihr () h).map_left fun _ => .right

/-- Interleaving two searches loses no item and no repetition of one. -/
theorem completes_merge {left right : Unit → Search α} {as : List α}
    (h : Completes (merge left right) as) :
    ∃ ls rs, Completes (left ()) ls ∧ Completes (right ()) rs ∧ as.Perm (ls ++ rs) := by
  cases h with
  | left h => exact completes_leftFirst h
  | right h => exact completes_rightFirst (fun later bs => completes_leftFirst) h

end Search

end Deduction

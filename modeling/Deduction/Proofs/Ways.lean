import Deduction.Proofs.Pulling
import Mathlib.Logic.Function.Basic

/-!
# Ways through a search

One way through the forks of a search brings a list of items; it is left somewhere, or it comes to
the end. These lists are exactly the items that some decision of the forks leads to, and pulling
is to follow it up to a limit. What a way brings through one search after another, or through two
interleaved searches, is put together from what it brings through the parts.
-/

namespace Deduction

namespace Search

variable {α β : Type} {s : Search α} {as : List α} {ended : Bool}

/-- Some way through the forks of a search passes exactly the listed items, and then sees the end
or is left there. -/
inductive Brings : Search α → List α → (ended : Bool) → Prop
  | stop {s : Search α} : Brings s [] false
  | done : Brings done [] true
  | item {a : α} {rest : Unit → Search α} {as : List α} {ended : Bool}
      (h : Brings (rest ()) as ended) : Brings (item a rest) (a :: as) ended
  | note {text : String} {rest : Unit → Search α} {as : List α} {ended : Bool}
      (h : Brings (rest ()) as ended) : Brings (note text rest) as ended
  | left {l r : Unit → Search α} {as : List α} {ended : Bool} (h : Brings (l ()) as ended) :
      Brings (fork l r) as ended
  | right {l r : Unit → Search α} {as : List α} {ended : Bool} (h : Brings (r ()) as ended) :
      Brings (fork l r) as ended

/-- A way that comes to the end completes the search. -/
theorem Brings.completes (h : Brings s as true) : Completes s as := by
  generalize hended : true = ended at h
  induction h with
  | stop => cases hended
  | done => exact .done
  | item _ ih => exact .item (ih hended)
  | note _ ih => exact .note (ih hended)
  | left _ ih => exact .left (ih hended)
  | right _ ih => exact .right (ih hended)

/-- A search that is over brings no items. -/
theorem brings_done_iff : Brings (done : Search α) as ended ↔ as = [] := by
  constructor
  · rintro (_ | _) <;> rfl
  · rintro rfl
    cases ended with
    | false => exact .stop
    | true => exact .done

/-- A search that is cut off brings nothing and never ends. -/
theorem brings_cut_iff : Brings (cut : Search α) as ended ↔ as = [] ∧ ended = false := by
  constructor
  · rintro ⟨⟩
    exact ⟨rfl, rfl⟩
  · rintro ⟨rfl, rfl⟩
    exact .stop

/-- An item is brought first, unless nothing is pulled. -/
theorem brings_item_iff {a : α} {rest : Unit → Search α} :
    Brings (item a rest) as ended ↔
      as = [] ∧ ended = false ∨ ∃ later, as = a :: later ∧ Brings (rest ()) later ended := by
  constructor
  · rintro (_ | _ | h)
    · exact Or.inl ⟨rfl, rfl⟩
    · exact Or.inr ⟨_, rfl, h⟩
  · rintro (⟨rfl, rfl⟩ | ⟨later, rfl, h⟩)
    · exact .stop
    · exact .item h

/-- A note has no say in what is brought. -/
theorem brings_note_iff {text : String} {rest : Unit → Search α} :
    Brings (note text rest) as ended ↔ Brings (rest ()) as ended := by
  constructor
  · rintro (_ | _ | _ | h)
    · exact .stop
    · exact h
  · exact .note

/-- A fork brings what either of its sides does. -/
theorem brings_fork_iff {l r : Unit → Search α} :
    Brings (fork l r) as ended ↔ Brings (l ()) as ended ∨ Brings (r ()) as ended := by
  constructor
  · rintro (_ | _ | _ | _ | h | h)
    · exact Or.inl .stop
    · exact Or.inl h
    · exact Or.inr h
  · exact fun h => h.elim .left .right

/-! ## Pulling -/

/-- Everything on the way that a decision of the forks leads along, and whether it comes to the
end; `forks` have been passed before. -/
def follow (choice : Nat → Bool) : Search α → (forks : Nat) → List α × Bool
  | done, _ => ([], true)
  | cut, _ => ([], false)
  | item a rest, forks => ((follow choice (rest ()) forks).map (a :: ·) id)
  | note _ rest, forks => follow choice (rest ()) forks
  | fork l r, forks =>
    if choice forks then follow choice (l ()) (forks + 1) else follow choice (r ()) (forks + 1)

/-- A pull stops at its limit and sees the end only if it has room for one more item. -/
theorem pull_eq_follow (choice : Nat → Bool) (s : Search α) (more forks : Nat) :
    (pull choice s more forks).items = (follow choice s forks).1.take (more + 1) ∧
      (pull choice s more forks).ended =
        ((follow choice s forks).2 && decide ((follow choice s forks).1.length < more + 1)) := by
  induction s generalizing more forks with
  | done => simp [pull, follow]
  | cut => simp [pull, follow]
  | item a rest ih =>
    cases more with
    | zero => simp [pull, follow]
    | succ more =>
      obtain ⟨hitems, hended⟩ := ih () more forks
      simp [pull, follow, hitems, hended]
  | note text rest ih => exact ih () more forks
  | fork l r ihl ihr =>
    rw [pull, follow]
    split
    · exact ihl () more (forks + 1)
    · exact ihr () more (forks + 1)

/-- Pulling up to a limit is following the way through the search for that many items. -/
theorem take_eq_follow (choice : Nat → Bool) (limit : Nat) (s : Unit → Search α) :
    (take choice limit s).items = (follow choice (s ()) 0).1.take limit ∧
      (take choice limit s).ended =
        ((follow choice (s ()) 0).2 && decide ((follow choice (s ()) 0).1.length < limit)) := by
  cases limit with
  | zero => simp [take]
  | succ more => exact pull_eq_follow choice (s ()) more 0

/-- Every way leads along the listed items first. -/
theorem follow_append_ofList (choice : Nat → Bool) (l : List α) (rest : Unit → Search α)
    (forks : Nat) : follow choice (append (ofList l) rest) forks =
      (follow choice (rest ()) forks).map (l ++ ·) id := by
  induction l with
  | nil => rfl
  | cons a l ih =>
    change (follow choice (append (ofList l) rest) forks).map (a :: ·) id = _
    rw [ih]
    rfl

/-- A pull for as many items as are listed first brings just these. -/
theorem items_take_of_append {s : Unit → Search α} {l : List α} {rest : Unit → Search α}
    (h : s () = append (ofList l) rest) (choice : Nat → Bool) :
    (take choice l.length s).items = l := by
  rw [(take_eq_follow choice l.length s).1, h, follow_append_ofList]
  exact List.take_left

/-- Whatever decides the forks, it leads along one way. -/
theorem brings_follow (choice : Nat → Bool) (s : Search α) (forks : Nat) :
    Brings s (follow choice s forks).1 (follow choice s forks).2 := by
  induction s generalizing forks with
  | done => exact .done
  | cut => exact .stop
  | item a rest ih => exact .item (ih () forks)
  | note text rest ih => exact .note (ih () forks)
  | fork l r ihl ihr =>
    rw [follow]
    split
    · exact .left (ihl () (forks + 1))
    · exact .right (ihr () (forks + 1))

/-- Forks that were passed before do not matter. -/
theorem follow_congr {choice choice' : Nat → Bool} {s : Search α} {forks : Nat}
    (h : ∀ n, forks ≤ n → choice n = choice' n) :
    follow choice s forks = follow choice' s forks := by
  induction s generalizing forks with
  | done => rfl
  | cut => rfl
  | item a rest ih => simp only [follow, ih () h]
  | note text rest ih => exact ih () h
  | fork l r ihl ihr =>
    have hlater : ∀ n, forks + 1 ≤ n → choice n = choice' n :=
      fun n hn => h n (Nat.le_of_succ_le hn)
    simp only [follow, h forks (Nat.le_refl forks), ihl () hlater, ihr () hlater]

/-- One more fork can be decided, whatever decides the later ones. -/
theorem exists_follow_fork {l r : Unit → Search α} (choice : Nat → Bool) (forks : Nat)
    (side : Bool) : ∃ choice', follow choice' (fork l r) forks =
      follow choice (if side then l () else r ()) (forks + 1) := by
  refine ⟨Function.update choice forks side, ?_⟩
  have hlater : ∀ n, forks + 1 ≤ n → Function.update choice forks side n = choice n :=
    fun n hn => Function.update_of_ne (by omega) _ _
  rw [follow, Function.update_self, follow_congr hlater, follow_congr hlater]
  cases side <;> rfl

/-- Every way is decided for by something; where it was left, the decision leads on. -/
theorem Brings.exists_follow (h : Brings s as ended) (forks : Nat) :
    ∃ choice, as <+: (follow choice s forks).1 ∧
      (ended = true → follow choice s forks = (as, true)) := by
  induction h generalizing forks with
  | stop => exact ⟨fun _ => true, List.nil_prefix, fun h => nomatch h⟩
  | done => exact ⟨fun _ => true, List.nil_prefix, fun _ => rfl⟩
  | @item a rest as ended _ ih =>
    obtain ⟨choice, hprefix, hended⟩ := ih forks
    refine ⟨choice, (List.prefix_cons_inj a).mpr hprefix, fun he => ?_⟩
    rw [follow, hended he]
    rfl
  | note _ ih => exact ih forks
  | left _ ih =>
    obtain ⟨choice, hfollow⟩ := ih (forks + 1)
    obtain ⟨choice', heq⟩ := exists_follow_fork choice forks true
    exact ⟨choice', heq ▸ hfollow⟩
  | right _ ih =>
    obtain ⟨choice, hfollow⟩ := ih (forks + 1)
    obtain ⟨choice', heq⟩ := exists_follow_fork choice forks false
    exact ⟨choice', heq ▸ hfollow⟩

/-! ## One search after the other -/

/-- Notes have no say in what is brought. -/
theorem brings_noted_iff {texts : List String} {s : Unit → Search α} :
    Brings (noted texts s) as ended ↔ Brings (s ()) as ended := by
  induction texts with
  | nil => rfl
  | cons t ts ih => exact brings_note_iff.trans ih

/-- A way through two searches in sequence is left in the first one, or it comes to the end of
the first one and goes on in the second. -/
theorem brings_append_iff {t : Unit → Search α} : Brings (append s t) as ended ↔
    Brings s as false ∧ ended = false ∨
      ∃ before after, Brings s before true ∧ Brings (t ()) after ended ∧ as = before ++ after := by
  induction s generalizing as with
  | done =>
    constructor
    · exact fun h => Or.inr ⟨[], as, .done, h, rfl⟩
    · rintro (⟨h, rfl⟩ | ⟨before, after, h, ht, rfl⟩)
      · rw [brings_done_iff.mp h]
        exact .stop
      · rw [brings_done_iff.mp h]
        exact ht
  | cut => simp [append, brings_cut_iff]
  | item a rest ih =>
    simp only [append, brings_item_iff, ih]
    constructor
    · rintro (⟨rfl, rfl⟩ | ⟨later, rfl, ⟨h, rfl⟩ | ⟨before, after, h, ht, rfl⟩⟩)
      · exact Or.inl ⟨Or.inl ⟨rfl, trivial⟩, rfl⟩
      · exact Or.inl ⟨Or.inr ⟨later, rfl, h⟩, rfl⟩
      · exact Or.inr ⟨a :: before, after, Or.inr ⟨before, rfl, h⟩, ht, rfl⟩
    · rintro (⟨⟨rfl, -⟩ | ⟨later, rfl, h⟩, rfl⟩ | ⟨_, after, ⟨-, ⟨⟩⟩ | ⟨before, rfl, h⟩, ht, rfl⟩)
      · exact Or.inl ⟨rfl, rfl⟩
      · exact Or.inr ⟨later, rfl, Or.inl ⟨h, rfl⟩⟩
      · exact Or.inr ⟨before ++ after, rfl, Or.inr ⟨before, after, h, ht, rfl⟩⟩
  | note text rest ih => simp only [append, brings_note_iff, ih]
  | fork l r ihl ihr =>
    simp only [append, brings_fork_iff, ihl, ihr]
    constructor
    · rintro ((⟨h, rfl⟩ | ⟨before, after, h, ht, rfl⟩) | ⟨h, rfl⟩ | ⟨before, after, h, ht, rfl⟩)
      · exact Or.inl ⟨Or.inl h, rfl⟩
      · exact Or.inr ⟨before, after, Or.inl h, ht, rfl⟩
      · exact Or.inl ⟨Or.inr h, rfl⟩
      · exact Or.inr ⟨before, after, Or.inr h, ht, rfl⟩
    · rintro (⟨h | h, rfl⟩ | ⟨before, after, h | h, ht, rfl⟩)
      · exact Or.inl (Or.inl ⟨h, rfl⟩)
      · exact Or.inr (Or.inl ⟨h, rfl⟩)
      · exact Or.inl (Or.inr ⟨before, after, h, ht, rfl⟩)
      · exact Or.inr (Or.inr ⟨before, after, h, ht, rfl⟩)

/-- The search that follows one way only. -/
def along (as : List α) (ended : Bool) : Search α :=
  append (ofList as) fun _ => if ended then done else cut

/-- A way through the searches run for every item follows one way through the items. -/
theorem brings_bind_iff {f : α → Search β} {bs : List β} {ended : Bool} :
    Brings (bind s f) bs ended ↔
      ∃ as seen, Brings s as seen ∧ Brings (bind (along as seen) f) bs ended := by
  induction s generalizing bs with
  | done =>
    constructor
    · exact fun h => ⟨[], true, .done, h⟩
    · rintro ⟨as, seen, h, hbind⟩
      rw [brings_done_iff.mp h] at hbind
      cases seen with
      | true => exact hbind
      | false =>
        obtain ⟨rfl, rfl⟩ := brings_cut_iff.mp hbind
        exact .stop
  | cut =>
    constructor
    · exact fun h => ⟨[], false, .stop, h⟩
    · rintro ⟨as, seen, h, hbind⟩
      obtain ⟨rfl, rfl⟩ := brings_cut_iff.mp h
      exact hbind
  | item a rest ih =>
    simp only [bind, brings_append_iff, ih]
    constructor
    · rintro (⟨h, rfl⟩ | ⟨before, after, h, ⟨as, seen, hrest, hbind⟩, rfl⟩)
      · exact ⟨[a], false, .item .stop, brings_append_iff.mpr (Or.inl ⟨h, rfl⟩)⟩
      · exact ⟨a :: as, seen, .item hrest,
          brings_append_iff.mpr (Or.inr ⟨before, after, h, hbind, rfl⟩)⟩
    · rintro ⟨as, seen, h, hbind⟩
      rcases brings_item_iff.mp h with ⟨rfl, rfl⟩ | ⟨later, rfl, hrest⟩
      · obtain ⟨rfl, rfl⟩ := brings_cut_iff.mp hbind
        exact Or.inl ⟨.stop, rfl⟩
      · rcases brings_append_iff.mp hbind with hleft | ⟨before, after, ha, hafter, rfl⟩
        · exact Or.inl hleft
        · exact Or.inr ⟨before, after, ha, ⟨later, seen, hrest, hafter⟩, rfl⟩
  | note text rest ih => simp only [bind, brings_note_iff, ih]
  | fork l r ihl ihr =>
    simp only [bind, brings_fork_iff, ihl, ihr, or_and_right, exists_or]

/-- To change every item is to run the search of the changed item for every item. -/
theorem map_eq_bind (f : α → β) (s : Search α) : map f s = bind s fun a => one (f a) := by
  induction s with
  | done => rfl
  | cut => rfl
  | item a rest ih => simp [map, bind, one, append, ih]
  | note text rest ih => simp [map, bind, ih]
  | fork l r ihl ihr => simp [map, bind, ihl, ihr]

/-! ## Interleaving -/

/-- A list into which two lists are merged, both in their order. -/
inductive Interleaves : (ls rs as : List α) → Prop
  | nil : Interleaves [] [] []
  | left {ls rs as : List α} (a : α) (h : Interleaves ls rs as) : Interleaves (a :: ls) rs (a :: as)
  | right {ls rs as : List α} (a : α) (h : Interleaves ls rs as) :
      Interleaves ls (a :: rs) (a :: as)

/-- A list is interleaved with nothing on its left. -/
theorem interleaves_nil_left (as : List α) : Interleaves [] as as := by
  induction as with
  | nil => exact .nil
  | cons a as ih => exact .right a ih

/-- A list is interleaved with nothing on its right. -/
theorem interleaves_nil_right (as : List α) : Interleaves as [] as := by
  induction as with
  | nil => exact .nil
  | cons a as ih => exact .left a ih

/-- More items of the left list can be put ahead. -/
theorem Interleaves.append_left {ls rs : List α} (h : Interleaves ls rs as) (bs : List α) :
    Interleaves (bs ++ ls) rs (bs ++ as) := by
  induction bs with
  | nil => exact h
  | cons b bs ih => exact .left b ih

/-- More items of the right list can be put ahead. -/
theorem Interleaves.append_right {ls rs : List α} (h : Interleaves ls rs as) (bs : List α) :
    Interleaves ls (bs ++ rs) (bs ++ as) := by
  induction bs with
  | nil => exact h
  | cons b bs ih => exact .right b ih

/-- The items are merged from what ways through both searches bring. -/
private def BringsBoth (left right : Search α) (as : List α) (ended : Bool) : Prop :=
  ∃ ls rs, Brings left ls ended ∧ Brings right rs ended ∧ Interleaves ls rs as

private theorem BringsBoth.map_left {left left' right : Search α}
    (h : BringsBoth left right as ended)
    (hleft : ∀ ls, Brings left ls ended → Brings left' ls ended) :
    BringsBoth left' right as ended := by
  obtain ⟨ls, rs, hl, hr, hmerged⟩ := h
  exact ⟨ls, rs, hleft ls hl, hr, hmerged⟩

private theorem BringsBoth.map_right {left right right' : Search α}
    (h : BringsBoth left right as ended)
    (hright : ∀ rs, Brings right rs ended → Brings right' rs ended) :
    BringsBoth left right' as ended := by
  obtain ⟨ls, rs, hl, hr, hmerged⟩ := h
  exact ⟨ls, rs, hl, hright rs hr, hmerged⟩

private theorem BringsBoth.stop {left right : Search α} : BringsBoth left right [] false :=
  ⟨[], [], .stop, .stop, .nil⟩

private theorem BringsBoth.cons_left {a : α} {rest : Unit → Search α} {right : Search α}
    (h : BringsBoth (rest ()) right as ended) :
    BringsBoth (Search.item a rest) right (a :: as) ended := by
  obtain ⟨ls, rs, hl, hr, hmerged⟩ := h
  exact ⟨a :: ls, rs, .item hl, hr, .left a hmerged⟩

private theorem BringsBoth.cons_right {a : α} {left : Search α} {rest : Unit → Search α}
    (h : BringsBoth left (rest ()) as ended) :
    BringsBoth left (Search.item a rest) (a :: as) ended := by
  obtain ⟨ls, rs, hl, hr, hmerged⟩ := h
  exact ⟨ls, a :: rs, hl, .item hr, .right a hmerged⟩

private theorem brings_rightFirst {left : Unit → Search α}
    {resume : (Unit → Search α) → Search α}
    (hresume : ∀ later bs, Brings (resume later) bs ended →
      BringsBoth (left ()) (later ()) bs ended)
    (h : Brings (rightFirst left resume s) as ended) : BringsBoth (left ()) s as ended := by
  induction s generalizing as with
  | done => exact ⟨as, [], h, brings_done_iff.mpr rfl, interleaves_nil_right as⟩
  | cut =>
    obtain ⟨rfl, rfl⟩ := brings_cut_iff.mp h
    exact .stop
  | item b rest ih =>
    rcases brings_item_iff.mp h with ⟨rfl, rfl⟩ | ⟨later, rfl, hlater⟩
    · exact .stop
    · rcases brings_fork_iff.mp hlater with hleft | hright
      · exact (hresume rest _ hleft).cons_right
      · exact (ih () hright).cons_right
  | note text rest ih => exact (ih () (brings_note_iff.mp h)).map_right fun _ => .note
  | fork l r ihl ihr =>
    rcases brings_fork_iff.mp h with h | h
    · exact (ihl () h).map_right fun _ => .left
    · exact (ihr () h).map_right fun _ => .right

private theorem brings_leftFirst {right : Unit → Search α}
    (h : Brings (leftFirst s right) as ended) : BringsBoth s (right ()) as ended := by
  induction s generalizing right as with
  | done => exact ⟨[], as, brings_done_iff.mpr rfl, h, interleaves_nil_left as⟩
  | cut =>
    obtain ⟨rfl, rfl⟩ := brings_cut_iff.mp h
    exact .stop
  | item b rest ih =>
    rcases brings_item_iff.mp h with ⟨rfl, rfl⟩ | ⟨later, rfl, hlater⟩
    · exact .stop
    · rcases brings_fork_iff.mp hlater with hleft | hright
      · exact (ih () hleft).cons_left
      · exact (brings_rightFirst (fun _ _ => ih ()) hright).cons_left
  | note text rest ih => exact (ih () (brings_note_iff.mp h)).map_left fun _ => .note
  | fork l r ihl ihr =>
    rcases brings_fork_iff.mp h with h | h
    · exact (ihl () h).map_left fun _ => .left
    · exact (ihr () h).map_left fun _ => .right

/-- The left search has no item left and gives way to the right one. -/
private theorem Brings.leftFirst_nil {right : Unit → Search α} (h : Brings s [] true)
    (hright : Brings (right ()) as ended) : Brings (leftFirst s right) as ended := by
  induction s with
  | done => exact hright
  | cut => cases h
  | item a rest => cases h
  | note text rest ih => exact .note (ih () (brings_note_iff.mp h))
  | fork l r ihl ihr =>
    rcases brings_fork_iff.mp h with h | h
    · exact .left (ihl () h)
    · exact .right (ihr () h)

/-- The next item is the left one. -/
private theorem Brings.leftFirst_cons {right : Unit → Search α} {a : α} {ls : List α}
    (h : Brings s (a :: ls) ended)
    (hrest : ∀ rest : Unit → Search α, Brings (rest ()) ls ended →
      Brings (merge rest right) as ended) : Brings (leftFirst s right) (a :: as) ended := by
  induction s with
  | done => cases h
  | cut => cases h
  | item b rest =>
    cases h with
    | item h => exact .item (hrest rest h)
  | note text rest ih => exact .note (ih () (brings_note_iff.mp h))
  | fork l r ihl ihr =>
    rcases brings_fork_iff.mp h with h | h
    · exact .left (ihl () h)
    · exact .right (ihr () h)

/-- The next item is the right one. -/
private theorem Brings.rightFirst_cons {left : Unit → Search α} {a : α} {rs : List α}
    (h : Brings s (a :: rs) ended)
    (hrest : ∀ rest : Unit → Search α, Brings (rest ()) rs ended →
      Brings (merge left rest) as ended) :
    Brings (rightFirst left (fun later => leftFirst (left ()) later) s) (a :: as) ended := by
  induction s with
  | done => cases h
  | cut => cases h
  | item b rest =>
    cases h with
    | item h => exact .item (hrest rest h)
  | note text rest ih => exact .note (ih () (brings_note_iff.mp h))
  | fork l r ihl ihr =>
    rcases brings_fork_iff.mp h with h | h
    · exact .left (ihl () h)
    · exact .right (ihr () h)

/-- What can be pulled from two interleaved searches is every merge of what can be pulled from
the one and from the other. -/
theorem brings_merge_iff {left right : Unit → Search α} : Brings (merge left right) as ended ↔
    ∃ ls rs, Brings (left ()) ls ended ∧ Brings (right ()) rs ended ∧ Interleaves ls rs as := by
  constructor
  · intro h
    rcases brings_fork_iff.mp h with h | h
    · exact brings_leftFirst h
    · exact brings_rightFirst (fun _ _ => brings_leftFirst) h
  · rintro ⟨ls, rs, hl, hr, hmerged⟩
    -- before each item the side that it comes from is pulled; the other one waits as it is
    induction hmerged generalizing left right with
    | nil =>
      cases ended with
      | false => exact .stop
      | true => exact .left (hl.leftFirst_nil hr)
    | left a _ ih => exact .left (hl.leftFirst_cons fun _ hrest => ih hrest hr)
    | right a _ ih => exact .right (hr.rightFirst_cons fun _ hrest => ih hl hrest)

/-! ## Searches that follow one another -/

/-- Each way through the first search is matched by a way through the second. -/
def Follows (R : List α → List β → Prop) (s : Search α) (t : Search β) : Prop :=
  ∀ as ended, Brings s as ended → ∃ bs, Brings t bs ended ∧ R as bs

namespace Follows

variable {R : List α → List β → Prop} {t : Search β}

/-- Notes have no say in what a search follows. -/
theorem noted {texts texts' : List String} {s : Unit → Search α} {t : Unit → Search β}
    (h : Follows R (s ()) (t ())) : Follows R (Search.noted texts s) (Search.noted texts' t) := by
  intro as ended has
  obtain ⟨bs, hbs, hR⟩ := h as ended (brings_noted_iff.mp has)
  exact ⟨bs, brings_noted_iff.mpr hbs, hR⟩

/-- Searches that run one after the other follow what they follow in turn. -/
theorem append {s' : Unit → Search α} {t' : Unit → Search β}
    (happend : ∀ as bs as' bs', R as bs → R as' bs' → R (as ++ as') (bs ++ bs'))
    (h : Follows R s t) (h' : Follows R (s' ()) (t' ())) :
    Follows R (Search.append s s') (Search.append t t') := by
  intro as ended has
  rcases brings_append_iff.mp has with ⟨hleft, rfl⟩ | ⟨before, after, hbefore, hafter, rfl⟩
  · obtain ⟨bs, hbs, hR⟩ := h as false hleft
    exact ⟨bs, brings_append_iff.mpr (Or.inl ⟨hbs, rfl⟩), hR⟩
  · obtain ⟨bs, hbs, hR⟩ := h before true hbefore
    obtain ⟨bs', hbs', hR'⟩ := h' after ended hafter
    exact ⟨bs ++ bs', brings_append_iff.mpr (Or.inr ⟨bs, bs', hbs, hbs', rfl⟩),
      happend _ _ _ _ hR hR'⟩

/-- It is enough to follow the searches that are run along one way each. -/
theorem bind {γ δ : Type} {R' : List γ → List δ → Prop} {f : α → Search γ} {g : β → Search δ}
    (h : Follows R s t) (hfg : ∀ as bs ended, R as bs →
      Follows R' ((along as ended).bind f) ((along bs ended).bind g)) :
    Follows R' (Search.bind s f) (Search.bind t g) := by
  intro cs ended hcs
  obtain ⟨as, seen, has, hcs⟩ := brings_bind_iff.mp hcs
  obtain ⟨bs, hbs, hR⟩ := h as seen has
  obtain ⟨ds, hds, hR'⟩ := hfg as bs seen hR cs ended hcs
  exact ⟨ds, brings_bind_iff.mpr ⟨bs, seen, hbs, hds⟩, hR'⟩

/-- Interleaved searches follow the interleaving of what they follow. -/
theorem merge {left right : Unit → Search α} {left' right' : Unit → Search β}
    (hmerge : ∀ ls rs as ls' rs', Interleaves ls rs as → R ls ls' → R rs rs' →
      ∃ as', Interleaves ls' rs' as' ∧ R as as')
    (hleft : Follows R (left ()) (left' ())) (hright : Follows R (right ()) (right' ())) :
    Follows R (Search.merge left right) (Search.merge left' right') := by
  intro as ended has
  obtain ⟨ls, rs, hls, hrs, hmerged⟩ := brings_merge_iff.mp has
  obtain ⟨ls', hls', hl⟩ := hleft ls ended hls
  obtain ⟨rs', hrs', hr⟩ := hright rs ended hrs
  obtain ⟨as', hmerged', hR⟩ := hmerge ls rs as ls' rs' hmerged hl hr
  exact ⟨as', brings_merge_iff.mpr ⟨ls', rs', hls', hrs', hmerged'⟩, hR⟩

/-- Whatever decides the forks of the first search, something decides those of the second one such
that each pull of the first is matched by a pull of the second. -/
theorem exists_choice (h : Follows R s t)
    (htake : ∀ as bs n, R as bs → ∃ m, m ≤ bs.length ∧ R (as.take n) (bs.take m))
    (choice : Nat → Bool) : ∃ choice', ∀ limit, ∃ limit',
      R (take choice limit fun _ => s).items (take choice' limit' fun _ => t).items ∧
      (take choice limit fun _ => s).ended = (take choice' limit' fun _ => t).ended := by
  -- the whole way is matched once, so that every limit gets the same decision
  obtain ⟨bs, hbs, hR⟩ := h _ _ (brings_follow choice s 0)
  obtain ⟨choice', hprefix, hwhole⟩ := hbs.exists_follow 0
  refine ⟨choice', fun limit => ?_⟩
  obtain ⟨hitems, hended⟩ := take_eq_follow choice limit fun _ => s
  rw [hitems, hended]
  by_cases hseen : (follow choice s 0).2 = true ∧ (follow choice s 0).1.length < limit
  · refine ⟨bs.length + 1, ?_⟩
    obtain ⟨hitems', hended'⟩ := take_eq_follow choice' (bs.length + 1) fun _ => t
    rw [hitems', hended', hwhole hseen.1, List.take_of_length_le (Nat.le_of_lt hseen.2),
      List.take_of_length_le (Nat.le_succ _)]
    exact ⟨hR, by simp [hseen]⟩
  · obtain ⟨m, hm, hRm⟩ := htake _ _ limit hR
    obtain ⟨hitems', hended'⟩ := take_eq_follow choice' m fun _ => t
    refine ⟨m, ?_, ?_⟩
    · obtain ⟨later, hlater⟩ := hprefix
      rw [hitems', ← hlater, List.take_append_of_le_length hm]
      exact hRm
    · have hshort : ¬ (follow choice' t 0).1.length < m := by
        have hlength := hprefix.length_le
        omega
      rw [hended']
      simp only [hshort, decide_false, Bool.and_false]
      simpa using hseen

end Follows

end Search

end Deduction

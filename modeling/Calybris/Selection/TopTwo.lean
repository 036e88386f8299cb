import Mathlib.Data.List.Induction
import Mathlib.Data.List.Sort

/-!
# The best and the runner-up of a list, in one pass

`topTwo better xs` scans `xs` once and keeps the two leading elements. The
relation `better` is any Boolean comparison; the results hold when it orders the
elements of the list strictly and totally, which is a hypothesis about that list
only. `IsTop better xs b` says that `b` leads `xs`, and the main result is that
the scan returns the leader of the list and the leader of the rest: it keeps the first
two elements of an insertion sort.
-/

namespace Calybris.Selection

open List

/-- One element is offered to the pair of leaders. -/
def offer {α : Type*} (better : α → α → Bool) :
    Option α × Option α → α → Option α × Option α
  | (none, second), x => (some x, second)
  | (some best, second), x =>
    if better x best then (some x, some best)
    else match second with
      | none => (some best, some x)
      | some s => if better x s then (some best, some x) else (some best, some s)

def topTwo {α : Type*} (better : α → α → Bool) (xs : List α) : Option α × Option α :=
  xs.foldl (offer better) (none, none)

/-- `b` is in the list and beats every other element of it. -/
def IsTop {α : Type*} (better : α → α → Bool) (xs : List α) (b : α) : Prop :=
  b ∈ xs ∧ ∀ x ∈ xs, x ≠ b → better b x = true

/-- `better` orders the elements of `xs` strictly and totally. -/
structure Ranks {α : Type*} (better : α → α → Bool) (xs : List α) : Prop where
  asymm : ∀ x ∈ xs, ∀ y ∈ xs, better x y = true → better y x = false
  trans : ∀ x ∈ xs, ∀ y ∈ xs, ∀ z ∈ xs,
    better x y = true → better y z = true → better x z = true
  total : ∀ x ∈ xs, ∀ y ∈ xs, x ≠ y → better x y = true ∨ better y x = true

section TopTwo

variable {α β : Type*} {better : α → α → Bool} {xs : List α}

theorem topTwo_append_singleton (xs : List α) (x : α) :
    topTwo better (xs ++ [x]) = offer better (topTwo better xs) x := by
  simp [topTwo]

theorem offer_fst_ne_none (s : Option α × Option α) (x : α) : (offer better s x).1 ≠ none := by
  rcases s with ⟨_ | b, _ | c⟩ <;> simp only [offer] <;> repeat' split
  all_goals simp

theorem Ranks.mono (h : Ranks better xs) {ys : List α} (hsub : ys ⊆ xs) : Ranks better ys where
  asymm x hx y hy := h.asymm x (hsub hx) y (hsub hy)
  trans x hx y hy z hz := h.trans x (hsub hx) y (hsub hy) z (hsub hz)
  total x hx y hy := h.total x (hsub hx) y (hsub hy)

/-- The leaders are the first two of a list into which the elements are inserted in order. -/
theorem offer_take_two (l : List α) (x : α) :
    offer better (l[0]?, l[1]?) x = ((l.orderedInsert (better · · = true) x)[0]?,
      (l.orderedInsert (better · · = true) x)[1]?) := by
  rcases l with - | ⟨b, - | ⟨c, l⟩⟩
  · rfl
  · by_cases hb : better x b <;> simp [offer, hb]
  · by_cases hb : better x b <;> by_cases hc : better x c <;> simp [offer, hb, hc]

theorem pairwise_orderedInsert {x : α} (h : xs.Pairwise (better · · = true)) (hx : x ∉ xs)
    (hranks : Ranks better (x :: xs)) :
    (xs.orderedInsert (better · · = true) x).Pairwise (better · · = true) := by
  induction xs with
  | nil => simp
  | cons b xs ih =>
    obtain ⟨hb, h⟩ := pairwise_cons.1 h
    obtain ⟨hne, hx⟩ := not_or.1 (mt mem_cons.2 hx)
    rw [orderedInsert_cons]
    split
    · next hwin =>
      refine pairwise_cons.2 ⟨forall_mem_cons.2 ⟨hwin, fun y hy => ?_⟩, pairwise_cons.2 ⟨hb, h⟩⟩
      exact hranks.trans x (by simp) b (by simp) y (by simp [hy]) hwin (hb y hy)
    · next hlose =>
      refine pairwise_cons.2 ⟨fun y hy => ?_, ih h hx (hranks.mono (by simp))⟩
      rcases (mem_orderedInsert _).1 hy with rfl | hy
      · exact (hranks.total y (by simp) b (by simp) hne).resolve_left hlose
      · exact hb y hy

theorem exists_sorted (hnodup : xs.Nodup) (hranks : Ranks better xs) :
    ∃ l : List α, l.Perm xs ∧ l.Pairwise (better · · = true) ∧
      topTwo better xs = (l[0]?, l[1]?) := by
  induction xs using List.reverseRecOn with
  | nil => exact ⟨[], .nil, .nil, rfl⟩
  | append_singleton xs x ih =>
    obtain ⟨hx, hxs⟩ := nodup_cons.1 ((perm_append_singleton x xs).nodup_iff.1 hnodup)
    obtain ⟨l, hperm, hsorted, htop⟩ := ih hxs (hranks.mono (by simp))
    refine ⟨l.orderedInsert (better · · = true) x, ?_, ?_, ?_⟩
    · exact (perm_orderedInsert _ x l).trans
        ((hperm.cons x).trans (perm_append_singleton x xs).symm)
    · refine pairwise_orderedInsert hsorted (mt hperm.mem_iff.1 hx) (hranks.mono ?_)
      exact cons_subset.2 ⟨by simp, fun y hy => mem_append_left _ (hperm.subset hy)⟩
    · rw [topTwo_append_singleton, htop, offer_take_two]

/-- What the scan has found after a list: nothing for the empty list, otherwise
the leader, and the leader of the others when there are any. -/
def Leads (better : α → α → Bool) (xs : List α) : Option α × Option α → Prop
  | (none, second) => xs = [] ∧ second = none
  | (some b, none) => xs = [b]
  | (some b, some c) => IsTop better xs b ∧ c ≠ b ∧ c ∈ xs ∧
      ∀ x ∈ xs, x ≠ b → x ≠ c → better c x = true

theorem leads_topTwo (xs : List α) (hnodup : xs.Nodup) (hranks : Ranks better xs) :
    Leads better xs (topTwo better xs) := by
  obtain ⟨l, hperm, hsorted, htop⟩ := exists_sorted hnodup hranks
  rw [htop]
  rcases l with - | ⟨b, - | ⟨c, l⟩⟩
  · exact ⟨hperm.nil_eq.symm, rfl⟩
  · exact perm_singleton.1 hperm.symm
  · obtain ⟨hb, hc⟩ := pairwise_cons.1 hsorted
    obtain ⟨hbc, -⟩ := nodup_cons.1 (hperm.nodup_iff.2 hnodup)
    simp only [← hperm.mem_iff, Leads, IsTop, mem_cons]
    refine ⟨⟨.inl rfl, fun x hx hne => hb x (mem_cons.2 (hx.resolve_left hne))⟩, ?_,
      .inr (.inl rfl), ?_⟩
    · rintro rfl
      exact hbc mem_cons_self
    · exact fun x hx hne hne' => (pairwise_cons.1 hc).1 x ((hx.resolve_left hne).resolve_left hne')

theorem topTwo_fst_eq_none_iff (hnodup : xs.Nodup) (hranks : Ranks better xs) :
    (topTwo better xs).1 = none ↔ xs = [] := by
  have hleads := leads_topTwo xs hnodup hranks
  constructor
  · intro h
    rcases hpair : topTwo better xs with ⟨best, second⟩
    rw [hpair] at h hleads
    cases h
    exact hleads.1
  · rintro rfl
    rfl

theorem Leads.isTop {b : α} {second : Option α} (h : Leads better xs (some b, second)) :
    IsTop better xs b := by
  cases second with
  | none =>
    rw [show xs = [b] from h]
    refine ⟨by simp, ?_⟩
    intro y hy hne
    exact absurd (mem_singleton.1 hy) hne
  | some c => exact h.1

theorem isTop_of_topTwo (hnodup : xs.Nodup) (hranks : Ranks better xs) {b : α}
    {second : Option α} (h : topTwo better xs = (some b, second)) : IsTop better xs b := by
  have hleads := leads_topTwo xs hnodup hranks
  rw [h] at hleads
  exact hleads.isTop

theorem erase_eq_nil_of_topTwo [DecidableEq α] (hnodup : xs.Nodup) (hranks : Ranks better xs)
    {b : α} (h : topTwo better xs = (some b, none)) : xs.erase b = [] := by
  have hleads := leads_topTwo xs hnodup hranks
  rw [h] at hleads
  rw [show xs = [b] from hleads]
  simp

theorem isTop_erase_of_topTwo [DecidableEq α] (hnodup : xs.Nodup) (hranks : Ranks better xs)
    {b c : α} (h : topTwo better xs = (some b, some c)) : IsTop better (xs.erase b) c := by
  have hleads := leads_topTwo xs hnodup hranks
  rw [h] at hleads
  obtain ⟨-, hcb, hc, hrest⟩ := hleads
  refine ⟨(hnodup.mem_erase_iff).2 ⟨hcb, hc⟩, ?_⟩
  intro y hy hyc
  obtain ⟨hyb, hy⟩ := (hnodup.mem_erase_iff).1 hy
  exact hrest y hy hyb hyc

theorem offer_map (f : α → β) (better' : β → β → Bool)
    (hf : ∀ x y, better' (f x) (f y) = better x y) (s : Option α × Option α) (x : α) :
    offer better' (s.1.map f, s.2.map f) (f x) =
      ((offer better s x).1.map f, (offer better s x).2.map f) := by
  rcases s with ⟨_ | b, _ | c⟩
  · rfl
  · rfl
  · simp only [Option.map_some, Option.map_none, Selection.offer, hf]
    split <;> rfl
  · simp only [Option.map_some, Selection.offer, hf]
    split
    · rfl
    · split <;> rfl

theorem topTwo_map (f : α → β) (better' : β → β → Bool)
    (hf : ∀ x y, better' (f x) (f y) = better x y) (xs : List α) :
    topTwo better' (xs.map f) = ((topTwo better xs).1.map f, (topTwo better xs).2.map f) := by
  induction xs using List.reverseRecOn with
  | nil => rfl
  | append_singleton xs x ih =>
    rw [map_append, map_singleton, topTwo_append_singleton, topTwo_append_singleton,
      ih, offer_map f better' hf]

theorem topTwo_perm {ys : List α} (hnodup : xs.Nodup) (hranks : Ranks better xs)
    (hranks' : Ranks better ys) (hperm : xs.Perm ys) : topTwo better xs = topTwo better ys := by
  obtain ⟨l, hl, hsorted, htop⟩ := exists_sorted hnodup hranks
  obtain ⟨l', hl', hsorted', htop'⟩ := exists_sorted (hperm.nodup_iff.1 hnodup) hranks'
  obtain rfl := (hl.trans (hperm.trans hl'.symm)).eq_of_pairwise (fun a b ha hb hab hba => by
    rw [hranks'.asymm a (hperm.mem_iff.1 (hl.mem_iff.1 ha)) b (hl'.mem_iff.1 hb) hab] at hba
    cases hba) hsorted hsorted'
  rw [htop, htop']

end TopTwo

end Calybris.Selection
